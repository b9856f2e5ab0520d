import Persistos.ExfatDecode
import Persistos.ExfatFileMap
import Persistos.Theory.LazyLoad

/-! Tasks that look up inodes of an exFAT volume. A load lets the others run at each of its
reads of the device, and only after the last of them takes the mark off that has brought
it about. -/

namespace Persistos

open Theory

/-- What a load appends: the dentry of an entry of type 0x85, which is `x` bytes behind the
start of a sector, or a cluster of a file. -/
inductive LoadedItem where
  | dentry (lba : U32) (x : Nat)
  | cluster (cluster : ExfatFileCluster)

/-- The entry on the disk, or the piece of the file. -/
def LoadedItem.source : LoadedItem → U32 × Nat ⊕ U32
  | dentry lba x => .inl (lba, x)
  | cluster c => .inr c.byteOffset

/-- The read of the device that a load waits for. `page` is what its page holds. -/
inductive LoadPlace where
  | dirPage (lba : U32) (page : Nat → U8)
  | dirFat (lba : U32) (page : Nat → U8)
  | fileFat (fileLength : U64) (byteOffset lba : U32)

/-- What the loop over the entries of a page appends. -/
def pageDentries (lba : U32) (page : Nat → U8) : Nat → Nat → List LoadedItem
  | 0, _ => []
  | left + 1, x =>
    (if page x = 0x85 then [.dentry lba x] else []) ++
      if left = 0 ∨ page (x + 0x20) = 0 then [] else pageDentries lba page left (x + 0x20)

/-- The head of the loop over a file, up to the read. -/
def fileStep (sb : ExfatSuperblock) (fileLength : U64) (byteOffset lba : U32) :
    List LoadedItem × Option LoadPlace :=
  if byteOffset.setWidth 64 < fileLength then
    ([.cluster ⟨byteOffset, lba.setWidth 64 <<< sb.bytesPerSectorExponent.toNat⟩],
      some (.fileFat fileLength byteOffset lba))
  else ([], none)

namespace FsKernel

/-- An inode is a directory or a regular file. -/
def startLoad (k : FsKernel) (sb : ExfatSuperblock) (i : U64) :
    List LoadedItem × Option LoadPlace :=
  let lba := (k.exfatInodes.objects (k.inode i).privateData).exfatStartLba
  if (k.inode i).type = inodeDirectory then ([], some (.dirPage lba k.stalePage))
  else fileStep sb (k.fileLengths i) 0 lba

def resumeLoad (k : FsKernel) (sb : ExfatSuperblock) (p : NvmepartDevice) :
    LoadPlace → List LoadedItem × Option LoadPlace
  | .dirPage lba page =>
    let page := k.deviceRead p ((lba <<< sb.bytesPerSectorExponent.toNat).setWidth 64) 4096 page
    (pageDentries lba page 128 0, some (.dirFat lba page))
  | .dirFat lba page =>
    let fatEntry := k.readFatEntry sb p lba
    ([], if endsChain fatEntry then none else some (.dirPage (sb.clusterLba fatEntry) page))
  | .fileFat fileLength byteOffset lba =>
    let fatEntry := k.readFatEntry sb p lba
    if endsChain fatEntry then ([], none)
    else fileStep sb fileLength (byteOffset + 4096) (sb.clusterLba fatEntry)

/-- The sector that the FAT leads to in `n` steps. -/
def chainLba (k : FsKernel) (sb : ExfatSuperblock) (p : NvmepartDevice) : Nat → U32 → U32
  | 0, lba => lba
  | n + 1, lba => k.chainLba sb p n (sb.clusterLba (k.readFatEntry sb p lba))

/-- The FAT leads on from the first sector of the file as long as there are blocks left, and
not for ever. -/
structure ChainLasts (k : FsKernel) (sb : ExfatSuperblock) (p : NvmepartDevice)
    (fileLength : U64) (lba : U32) : Prop where
  length : fileLength.toNat < 2 ^ 32
  next : ∀ n, n + 1 < blocks fileLength →
    endsChain (k.readFatEntry sb p (k.chainLba sb p n lba)) = false
  last : ∀ n, n + 1 = blocks fileLength → fileLength.toNat ≤ 2 ^ 32 - 4096 ∨
    endsChain (k.readFatEntry sb p (k.chainLba sb p n lba)) = true

/-- A directory that the FAT links, with clusters of 4096 bytes, or a file. -/
def OnVolume (k : FsKernel) (sb : ExfatSuperblock) (p : NvmepartDevice) (i : U64) : Prop :=
  ((k.inode i).type = inodeDirectory ∧ ∃ clusters items, DirectoryOn k sb p i clusters items) ∨
    ((k.inode i).type = inodeRegularFile ∧ k.ChainLasts sb p (k.fileLengths i)
      (k.exfatInodes.objects (k.inode i).privateData).exfatStartLba)

def VolumeInode (k : FsKernel) (sb : ExfatSuperblock) (p : NvmepartDevice) : Type :=
  { i : U64 // k.OnVolume sb p i }

instance (k : FsKernel) (sb : ExfatSuperblock) (p : NvmepartDevice) :
    DecidableEq (VolumeInode k sb p) := inferInstanceAs (DecidableEq (Subtype _))

def exfatLoader (k : FsKernel) (sb : ExfatSuperblock) (p : NvmepartDevice) :
    Loader (VolumeInode k sb p) LoadPlace LoadedItem where
  start i := k.startLoad sb i.1
  next := k.resumeLoad sb p

/-- The entries of type 0x85 in a cluster. -/
def clusterDentries (k : FsKernel) (sb : ExfatSuperblock) (p : NvmepartDevice) (c : U32) :
    List LoadedItem :=
  ((List.range' 0 128 0x20).filter fun x =>
    k.volumeByte p (sb.clusterByte c + x) = 0x85).map (.dentry (sb.clusterLba c))

/-- One dentry for each entry set of a directory, or one cluster for each piece of a file of
4096 bytes. -/
def Listed (k : FsKernel) (sb : ExfatSuperblock) (p : NvmepartDevice) (i : U64)
    (xs : List LoadedItem) : Prop :=
  ((k.inode i).type = inodeDirectory → ∀ clusters items, DirectoryOn k sb p i clusters items →
    xs = clusters.flatMap (k.clusterDentries sb p) ∧ xs.length = (DirItem.sets items).length) ∧
  ((k.inode i).type = inodeRegularFile → ∃ pieces : List ExfatFileCluster,
    xs = pieces.map .cluster ∧
      pieces.map (·.byteOffset.toNat) = (List.range (blocks (k.fileLengths i))).map (4096 * ·))

theorem pageEntries_eq (page : Nat → U8) (left x : Nat) :
    pageEntries page left x = (List.range' x left 0x20).map fun x i => page (x + i) := by
  induction left generalizing x with
  | zero => rfl
  | succ left ih => rw [pageEntries, List.range'_succ, List.map_cons, ih]

theorem EndsOnce.zero {page : Nat → U8} {left x : Nat} (h : EndsOnce (pageEntries page left x))
    (hzero : page x = 0) : ∀ y ∈ List.range' x left 0x20, page y = 0 := by
  cases left with
  | zero => exact fun _ hy => absurd hy List.not_mem_nil
  | succ left =>
    rw [EndsOnce, pageEntries_eq, List.range'_succ, List.map_cons, List.pairwise_cons] at h
    intro y hy
    rcases List.mem_cons.mp hy with rfl | hy
    · exact hzero
    · exact h.1 _ (List.mem_map_of_mem hy) hzero

/-- The loop over a page finds all of its entries that are not behind an end marker. -/
theorem pageDentries_eq {page view : Nat → U8} {lba : U32} {left x : Nat}
    (hview : ∀ i < x + 32 * left, page i = view i) (hends : EndsOnce (pageEntries view left x)) :
    pageDentries lba page left x =
      ((List.range' x left 0x20).filter fun x => view x = 0x85).map (.dentry lba) := by
  induction left generalizing x with
  | zero => rfl
  | succ left ih =>
    rw [EndsOnce, pageEntries, List.pairwise_cons] at hends
    have hrest : (if left = 0 ∨ page (x + 0x20) = 0 then [] else
        pageDentries lba page left (x + 0x20)) =
          ((List.range' (x + 0x20) left 0x20).filter fun x => view x = 0x85).map
            (.dentry lba) := by
      by_cases hstop : left = 0 ∨ page (x + 0x20) = 0
      · rw [if_pos hstop]
        symm
        rw [List.map_eq_nil_iff, List.filter_eq_nil_iff]
        intro y hy hfile
        have hzero : view y = 0 := by
          rcases hstop with rfl | hzero
          · exact absurd hy List.not_mem_nil
          · by_cases hleft : left = 0
            · subst hleft
              exact absurd hy List.not_mem_nil
            · rw [hview _ (by omega)] at hzero
              exact EndsOnce.zero hends.2 hzero y hy
        rw [hzero] at hfile
        exact absurd hfile (by decide)
      · rw [if_neg hstop]
        exact ih (fun i hi => hview i (by omega)) hends.2
    rw [pageDentries, hrest, List.range'_succ, List.filter_cons, hview x (by omega)]
    by_cases hfile : view x = 0x85
    · rw [if_pos hfile, if_pos (decide_eq_true hfile)]
      rfl
    · rw [if_neg hfile, if_neg (fun hh => hfile (of_decide_eq_true hh))]
      rfl

variable {k : FsKernel} {sb : ExfatSuperblock} {p : NvmepartDevice} {i : U64} {c : U32}
  {clusters : List U32} {items : List DirItem}

theorem clusterDentries_length (k : FsKernel) (sb : ExfatSuperblock) (p : NvmepartDevice)
    (c : U32) : (k.clusterDentries sb p c).length =
      (k.clusterEntries sb p c).countP fun x => x 0 = 0x85 := by
  rw [clusterDentries, clusterEntries, pageEntries_eq, List.countP_map, List.length_map,
    ← List.countP_eq_length_filter]
  rfl

/-- An entry set has one entry of type 0x85. -/
theorem countP_items (items : List DirItem) :
    (items.flatMap DirItem.entries).countP (fun x => x 0 = 0x85) =
      (DirItem.sets items).length := by
  induction items with
  | nil => rfl
  | cons item items ih =>
    rw [List.flatMap_cons, List.countP_append, ih]
    cases item with
    | other x ignored used =>
      rw [DirItem.entries, DirItem.sets, List.countP_singleton,
        if_neg (fun hh => ignored.1 (of_decide_eq_true hh)), Nat.zero_add]
    | file set =>
      have hnames : set.names.countP (fun x => x 0 = 0x85) = 0 := by
        rw [List.countP_eq_zero]
        intro x hx hh
        rw [set.namesType x hx] at hh
        exact absurd hh (by decide)
      rw [DirItem.entries, EntrySet.entries, DirItem.sets,
        List.countP_cons_of_pos (by rw [set.fileType]; rfl),
        List.countP_cons_of_neg (by rw [set.streamType]; decide), hnames, List.length_cons]
      omega

theorem DirectoryOn.dentries_length (h : DirectoryOn k sb p i clusters items) :
    (clusters.flatMap (k.clusterDentries sb p)).length = (DirItem.sets items).length := by
  obtain ⟨ends, hzero, hcontent⟩ := h.content
  have hends : ends.countP (fun x => x 0 = 0x85) = 0 := by
    rw [List.countP_eq_zero]
    intro x hx hh
    rw [hzero x hx] at hh
    exact absurd hh (by decide)
  have hall : (clusters.flatMap (k.clusterEntries sb p)).countP (fun x => x 0 = 0x85) =
      (DirItem.sets items).length := by
    rw [hcontent, List.countP_append, hends, countP_items, Nat.add_zero]
  rw [← hall, List.countP_flatMap, List.length_flatMap]
  exact congrArg List.sum (List.map_congr_left fun c _ => clusterDentries_length k sb p c)

/-- What the FAT leads to after a cluster is determined. -/
theorem Linked.unique {xs ys : List U32} (hxs : ∀ x ∈ xs, x ≠ 0xFFFFFFFF)
    (hys : ∀ y ∈ ys, y ≠ 0xFFFFFFFF) (h : k.Linked sb p (c :: xs))
    (h' : k.Linked sb p (c :: ys)) : xs = ys := by
  induction xs generalizing c ys with
  | nil =>
    cases ys with
    | nil => rfl
    | cons y ys => exact absurd (h'.1.symm.trans h) (hys y List.mem_cons_self)
  | cons x xs ih =>
    cases ys with
    | nil => exact absurd (h.1.symm.trans h') (hxs x List.mem_cons_self)
    | cons y ys =>
      obtain rfl : x = y := h.1.symm.trans h'.1
      rw [ih (fun z hz => hxs z (List.mem_cons_of_mem x hz))
        (fun z hz => hys z (List.mem_cons_of_mem x hz)) h.2 h'.2]

theorem Linked.suffix {xs ys : List U32} (h : k.Linked sb p (xs ++ c :: ys)) :
    k.Linked sb p (c :: ys) := by
  induction xs with
  | nil => exact h
  | cons x xs ih =>
    cases xs with
    | nil => exact h.2
    | cons x' xs => exact ih h.2

/-- A chain that ends comes to no cluster twice. -/
theorem Linked.nodup {xs : List U32} (hxs : ∀ x ∈ xs, x ≠ 0xFFFFFFFF)
    (h : k.Linked sb p xs) : xs.Nodup := by
  induction xs with
  | nil => exact List.nodup_nil
  | cons x xs ih =>
    have hxs' : ∀ y ∈ xs, y ≠ 0xFFFFFFFF := fun y hy => hxs y (List.mem_cons_of_mem x hy)
    have htail : xs.Nodup := by
      cases xs with
      | nil => exact List.nodup_nil
      | cons x' xs => exact ih hxs' h.2
    refine List.nodup_cons.mpr ⟨fun hx => ?_, htail⟩
    obtain ⟨as, bs, rfl⟩ := List.append_of_mem hx
    have hagain : k.Linked sb p (x :: bs) :=
      Linked.suffix (show k.Linked sb p ((x :: as) ++ x :: bs) from h)
    have heq := Linked.unique hxs' (fun y hy => hxs' y (List.mem_append_right _
      (List.mem_cons_of_mem x hy))) h hagain
    have hlength := congrArg List.length heq
    rw [List.length_append, List.length_cons] at hlength
    omega

/-- The load of a directory after it has read a page. -/
theorem next_dirPage (hp : p.Addressable) (hs : sb.sectorsPerClusterExponent.toNat < 32)
    (hreach : Reachable sb p c) (hends : EndsOnce (k.clusterEntries sb p c)) (page : Nat → U8) :
    ∃ page', (k.exfatLoader sb p).next (.dirPage (sb.clusterLba c) page) =
      (k.clusterDentries sb p c, some (.dirFat (sb.clusterLba c) page')) := by
  have hview : ∀ i < 0 + 32 * 128, k.deviceRead p
      ((sb.clusterLba c <<< sb.bytesPerSectorExponent.toNat).setWidth 64) 4096 page i =
        k.volumeByte p (sb.clusterByte c + i) :=
    fun i hi => hreach.deviceRead hp hs k page (by omega)
  refine ⟨_, Prod.ext ?_ rfl⟩
  exact pageDentries_eq hview hends

theorem next_dirFat (k : FsKernel) (hp : p.Addressable) (hs : sb.sectorsPerClusterExponent.toNat < 32)
    (hreach : Reachable sb p c) (page : Nat → U8) :
    (k.exfatLoader sb p).next (.dirFat (sb.clusterLba c) page) =
      ([], if endsChain (k.volumeWord p (sb.fatByte c)) then none
        else some (.dirPage (sb.clusterLba (k.volumeWord p (sb.fatByte c))) page)) := by
  rw [← hreach.readFatEntry hp hs k]
  rfl

theorem DirectoryOn.ends_dentries (hp : p.Addressable)
    (hsize : sb.bytesPerSectorExponent.toNat + sb.sectorsPerClusterExponent.toNat = 12)
    {c : U32} {cs : List U32} (hreach : ∀ c' ∈ c :: cs, Reachable sb p c')
    (hlinked : k.Linked sb p (c :: cs))
    (hends : EndsOnce ((c :: cs).flatMap (k.clusterEntries sb p))) (page : Nat → U8) :
    (k.exfatLoader sb p).Ends (some (.dirPage (sb.clusterLba c) page))
      ((c :: cs).flatMap (k.clusterDentries sb p)) := by
  have hs : sb.sectorsPerClusterExponent.toNat < 32 := by omega
  induction cs generalizing c page with
  | nil =>
    have hlast : k.volumeWord p (sb.fatByte c) = 0xFFFFFFFF := hlinked
    rw [List.flatMap_cons, List.flatMap_nil, List.append_nil] at hends ⊢
    obtain ⟨page', hpage⟩ := next_dirPage hp hs (hreach c List.mem_cons_self) hends page
    have hfat := next_dirFat k hp hs (hreach c List.mem_cons_self) page'
    rw [hlast, if_pos (by decide)] at hfat
    have hends' := Loader.Ends.of_next hpage (Loader.Ends.of_next hfat .none)
    rwa [List.append_nil, List.append_nil] at hends'
  | cons c' cs ih =>
    rw [List.flatMap_cons] at hends
    obtain ⟨hfirst, hrest, -⟩ := List.pairwise_append.mp hends
    have hreach' : ∀ c'' ∈ c' :: cs, Reachable sb p c'' :=
      fun c'' hc => hreach c'' (List.mem_cons_of_mem c hc)
    obtain ⟨page', hpage⟩ := next_dirPage hp hs (hreach c List.mem_cons_self) hfirst page
    have hfat := next_dirFat k hp hs (hreach c List.mem_cons_self) page'
    rw [hlinked.1, (hreach' c' List.mem_cons_self).not_endsChain hsize,
      if_neg Bool.false_ne_true] at hfat
    have hends' := Loader.Ends.of_next hfat (ih hreach' hlinked.2 hrest page')
    rw [List.nil_append] at hends'
    rw [List.flatMap_cons]
    exact .of_next hpage hends'

theorem DirectoryOn.complete {i : VolumeInode k sb p} (htype : (k.inode i.1).type = inodeDirectory)
    (h : DirectoryOn k sb p i.1 clusters items) :
    (k.exfatLoader sb p).Complete i (clusters.flatMap (k.clusterDentries sb p)) := by
  obtain ⟨ends, hzero, hcontent⟩ := h.content
  cases clusters with
  | nil => exact h.linked.elim
  | cons c cs =>
    have hends := endsOnce_append (entries_used items) hzero
    rw [← hcontent] at hends
    have hstart : (k.exfatLoader sb p).after i 0 =
        ([], some (.dirPage (sb.clusterLba c) k.stalePage)) := by
      rw [← h.start c rfl]
      exact if_pos htype
    exact (ends_dentries h.addressable h.clusterSize h.reachable h.linked hends
      k.stalePage).complete hstart

/-- No two entries of a directory are in one place of the volume. -/
theorem DirectoryOn.sources_nodup (h : DirectoryOn k sb p i clusters items) :
    ((clusters.flatMap (k.clusterDentries sb p)).map LoadedItem.source).Nodup := by
  have hs : sb.sectorsPerClusterExponent.toNat < 32 := by
    have hsize := h.clusterSize
    omega
  have hsource : ∀ c, (k.clusterDentries sb p c).map LoadedItem.source =
      ((List.range' 0 128 0x20).filter fun x =>
        k.volumeByte p (sb.clusterByte c + x) = 0x85).map fun x => .inl (sb.clusterLba c, x) := by
    intro c
    rw [clusterDentries, List.map_map]
    rfl
  have hnodup : clusters.Nodup := by
    refine Linked.nodup (fun c hc hh => ?_) h.linked
    have hends := (h.reachable c hc).not_endsChain h.clusterSize
    rw [hh] at hends
    exact absurd hends (by decide)
  rw [List.map_flatMap, List.nodup_flatMap]
  refine ⟨fun c _ => ?_, ?_⟩
  · rw [hsource]
    refine List.Nodup.map (fun x y hh => ?_) ((List.nodup_range' 0x20).filter _)
    exact congrArg Prod.snd (Sum.inl.inj hh)
  · refine hnodup.imp_of_mem fun {c c'} hc hc' hne => ?_
    intro source hin hin'
    dsimp only at hin hin'
    rw [hsource] at hin hin'
    obtain ⟨x, -, rfl⟩ := List.mem_map.mp hin
    obtain ⟨y, -, heq⟩ := List.mem_map.mp hin'
    have hlba : sb.clusterLba c' = sb.clusterLba c := congrArg Prod.fst (Sum.inl.inj heq)
    have hsector := congrArg BitVec.toNat hlba
    rw [ExfatSuperblock.clusterLba_of_fits hs (h.reachable c' hc').number
      (h.reachable c' hc').sector_lt, ExfatSuperblock.clusterLba_of_fits hs
      (h.reachable c hc).number (h.reachable c hc).sector_lt, ExfatSuperblock.sectorOf,
      ExfatSuperblock.sectorOf] at hsector
    have hcancel := Nat.eq_of_mul_eq_mul_left (Nat.two_pow_pos _) (Nat.add_left_cancel hsector)
    have hnumber := (h.reachable c hc).number
    have hnumber' := (h.reachable c' hc').number
    exact hne (BitVec.eq_of_toNat_eq (by omega))

theorem chainLba_succ (k : FsKernel) (sb : ExfatSuperblock) (p : NvmepartDevice) (n : Nat)
    (lba : U32) : k.chainLba sb p (n + 1) lba =
      sb.clusterLba (k.readFatEntry sb p (k.chainLba sb p n lba)) := by
  induction n generalizing lba with
  | zero => rfl
  | succ n ih =>
    rw [chainLba, ih]
    rfl

theorem next_fileFat (k : FsKernel) (sb : ExfatSuperblock) (p : NvmepartDevice)
    (fileLength : U64) (byteOffset lba : U32) :
    (k.exfatLoader sb p).next (.fileFat fileLength byteOffset lba) =
      if endsChain (k.readFatEntry sb p lba) then ([], none)
      else fileStep sb fileLength (byteOffset + 4096)
        (sb.clusterLba (k.readFatEntry sb p lba)) := rfl

/-- The load of a file from one of its pieces on. -/
theorem ends_clusters {fileLength : U64} {lba : U32} (h : k.ChainLasts sb p fileLength lba)
    {n j : Nat} (hj : j + n + 1 = blocks fileLength) {byteOffset : U32}
    (hoffset : byteOffset.toNat = 4096 * j % 2 ^ 32) :
    ∃ pieces : List ExfatFileCluster,
      (k.exfatLoader sb p).Ends (some (.fileFat fileLength byteOffset (k.chainLba sb p j lba)))
        (pieces.map .cluster) ∧
      pieces.map (·.byteOffset.toNat) = (List.range' (j + 1) n).map (4096 * ·) := by
  have hnext := next_fileFat k sb p fileLength byteOffset (k.chainLba sb p j lba)
  induction n generalizing j byteOffset with
  | zero =>
    have hend : (k.exfatLoader sb p).next
        (.fileFat fileLength byteOffset (k.chainLba sb p j lba)) = ([], none) := by
      rw [hnext]
      by_cases hends : endsChain (k.readFatEntry sb p (k.chainLba sb p j lba)) = true
      · rw [if_pos hends]
      · have hshort := (h.last j hj).resolve_right hends
        rw [if_neg hends, fileStep, if_neg ((stops_iff hj (byteOffset_next hoffset)).mpr hshort)]
    have hends := Loader.Ends.of_next hend .none
    exact ⟨[], hends, rfl⟩
  | succ n ih =>
    have hmore : j + 1 < blocks fileLength := by omega
    have hlt := blocks_lt_iff.mp hmore
    have hlength := h.length
    have hcontinues : (byteOffset + 4096).setWidth 64 < fileLength :=
      (continues_iff (byteOffset_next hoffset)).mpr (by omega)
    rw [if_neg (Bool.eq_false_iff.mp (h.next j hmore)), ← chainLba_succ, fileStep,
      if_pos hcontinues] at hnext
    obtain ⟨pieces, hends, hpieces⟩ := ih (by omega) (byteOffset_next hoffset)
      (next_fileFat k sb p fileLength _ _)
    refine ⟨_ :: pieces, Loader.Ends.of_next hnext hends, ?_⟩
    rw [List.map_cons, hpieces, List.range'_succ, List.map_cons, byteOffset_next hoffset,
      Nat.mod_eq_of_lt (by omega)]

theorem start_file {i : VolumeInode k sb p} (htype : (k.inode i.1).type = inodeRegularFile) :
    (k.exfatLoader sb p).after i 0 = fileStep sb (k.fileLengths i.1) 0
      (k.exfatInodes.objects (k.inode i.1).privateData).exfatStartLba := by
  refine if_neg ?_
  rw [htype]
  decide

theorem ChainLasts.complete {i : VolumeInode k sb p}
    (htype : (k.inode i.1).type = inodeRegularFile)
    (h : k.ChainLasts sb p (k.fileLengths i.1)
      (k.exfatInodes.objects (k.inode i.1).privateData).exfatStartLba) :
    ∃ pieces : List ExfatFileCluster,
      (k.exfatLoader sb p).Complete i (pieces.map .cluster) ∧
      pieces.map (·.byteOffset.toNat) =
        (List.range (blocks (k.fileLengths i.1))).map (4096 * ·) := by
  have hstart := start_file htype
  cases hblocks : blocks (k.fileLengths i.1) with
  | zero =>
    have hzero : ¬(0 : U32).setWidth 64 < k.fileLengths i.1 := by
      rw [blocks] at hblocks
      rw [BitVec.lt_def]
      change ¬0 < _
      omega
    rw [fileStep, if_neg hzero] at hstart
    exact ⟨[], ⟨0, hstart⟩, rfl⟩
  | succ n =>
    have hpos : (0 : U32).setWidth 64 < k.fileLengths i.1 := by
      rw [blocks] at hblocks
      rw [BitVec.lt_def]
      change 0 < _
      omega
    rw [fileStep, if_pos hpos] at hstart
    obtain ⟨pieces, hends, hpieces⟩ := ends_clusters h (n := n) (j := 0)
      (by omega) (show (0 : U32).toNat = 4096 * 0 % 2 ^ 32 from rfl)
    refine ⟨_ :: pieces, hends.complete hstart, ?_⟩
    rw [List.map_cons, hpieces, List.range_eq_range', List.range'_succ, List.map_cons]
    rfl

/-- A load that nothing disturbs ends, and lists what it should. -/
theorem complete_listed (i : VolumeInode k sb p) : ∃ xs, (k.exfatLoader sb p).Complete i xs ∧
    k.Listed sb p i.1 xs ∧ (xs.map LoadedItem.source).Nodup := by
  rcases i.2 with ⟨htype, clusters, items, hdir⟩ | ⟨htype, hlasts⟩
  · have hcomplete := hdir.complete htype
    refine ⟨_, hcomplete, ⟨fun _ clusters' items' hdir' => ?_, fun hfile => ?_⟩,
      hdir.sources_nodup⟩
    · rw [hcomplete.unique (hdir'.complete htype)]
      exact ⟨rfl, hdir'.dentries_length⟩
    · rw [htype] at hfile
      exact absurd hfile (by decide)
  · obtain ⟨pieces, hcomplete, hpieces⟩ := hlasts.complete htype
    refine ⟨_, hcomplete, ⟨fun hdir => ?_, fun _ => ⟨pieces, rfl, hpieces⟩⟩, ?_⟩
    · rw [htype] at hdir
      exact absurd hdir (by decide)
    · have hnodup : (pieces.map (·.byteOffset.toNat)).Nodup := by
        rw [hpieces]
        exact List.Nodup.map (fun a b hh => Nat.eq_of_mul_eq_mul_left (by decide) hh)
          List.nodup_range
      rw [List.map_map]
      refine List.Nodup.of_map (Sum.elim (fun _ => 0) BitVec.toNat) ?_
      rw [List.map_map]
      exact hnodup

/-- `exfat_load_dir_inode` appends as many dentries as the load that lets others run. -/
theorem DirectoryOn.load_matches {i : VolumeInode k sb p} {fuel : Nat}
    (htype : (k.inode i.1).type = inodeDirectory)
    (h : DirectoryOn k sb p i.1 clusters items) (hslabs : k.Slabs) (hknown : k.Known i.1)
    (hfuel : clusters.length ≤ fuel) :
    k.exfatLoadDirInode fuel sb p i.1 = .error outOfMemory ∨ ∃ k' ds xs,
      k.exfatLoadDirInode fuel sb p i.1 = .ok k' ∧
      (k'.inode i.1).dentries = (k.inode i.1).dentries ++ ds ∧
      (k.exfatLoader sb p).Complete i xs ∧ xs.length = ds.length := by
  rcases h.decodes hslabs hknown hfuel with hmemory | ⟨k', hload, ds, hparent, -, -, hall⟩
  · exact .inl hmemory
  · exact .inr ⟨k', ds, _, hload, hparent, h.complete htype,
      h.dentries_length.trans hall.length_eq.symm⟩

theorem ends_filePieces {fileLength : U64} {fuel : Nat} {byteOffset lba : U32}
    {pieces : List ExfatFileCluster}
    (h : filePieces sb (k.readFatEntry sb p) fileLength fuel byteOffset lba = some pieces) :
    ∃ ys, (fileStep sb fileLength byteOffset lba).1 ++ ys = pieces.map .cluster ∧
      (k.exfatLoader sb p).Ends (fileStep sb fileLength byteOffset lba).2 ys := by
  induction fuel generalizing byteOffset lba pieces with
  | zero => cases h
  | succ fuel ih =>
    rw [filePieces] at h
    rw [fileStep]
    by_cases hlt : byteOffset.setWidth 64 < fileLength
    · have hnext := next_fileFat k sb p fileLength byteOffset lba
      rw [if_pos hlt] at h ⊢
      dsimp only at h
      by_cases hends : endsChain (k.readFatEntry sb p lba) = true
      · rw [if_pos hends] at h hnext
        obtain rfl := Option.some.inj h
        exact ⟨[], rfl, .of_next hnext .none⟩
      · rw [if_neg hends] at h hnext
        obtain ⟨rest, hrest, rfl⟩ := Option.map_eq_some_iff.mp h
        obtain ⟨ys, hys, hends'⟩ := ih hrest
        rw [List.map_cons, ← hys]
        exact ⟨_, rfl, .of_next hnext hends'⟩
    · rw [if_neg hlt] at h ⊢
      obtain rfl := Option.some.inj h
      exact ⟨[], rfl, .none⟩

/-- `exfat_load_file_inode` appends the clusters of the load that lets others run. -/
theorem file_load_matches {i : VolumeInode k sb p} {fuel : Nat} {k' : FsKernel}
    (htype : (k.inode i.1).type = inodeRegularFile) (hslabs : k.Slabs)
    (hload : k.exfatLoadFileInode fuel sb p i.1 = .ok k') :
    ∃ slots, (k'.exfatInodes.objects (k.inode i.1).privateData).fileClusters =
        (k.exfatInodes.objects (k.inode i.1).privateData).fileClusters ++ slots ∧
      (k.exfatLoader sb p).Complete i
        (slots.map fun slot => .cluster (k'.exfatFileClusters.objects slot)) := by
  rw [exfatLoadFileInode] at hload
  rcases loadFileClusters_eq sb p (k.inode i.1).privateData (k.fileLengths i.1) fuel 0
    (k.exfatInodes.objects (k.inode i.1).privateData).exfatStartLba hslabs with hmemory | hrun
  · rw [hmemory] at hload
    cases hload
  · split at hrun
    · rw [hrun] at hload
      cases hload
    · next pieces hpieces =>
      obtain ⟨k₁, slots, hclusters, hadded⟩ := hrun
      rw [hclusters] at hload
      obtain rfl := Except.ok.inj hload
      obtain ⟨ys, hys, hends⟩ := ends_filePieces hpieces
      have hcomplete := hends.complete ((start_file htype).trans (Prod.eta _).symm)
      rw [hys, ← hadded.objects, List.map_map] at hcomplete
      refine ⟨slots, ?_, hcomplete⟩
      rw [modifyExfatInode, Slab.modify_objects_self, ← hadded.list]

/-- Whatever the tasks look up and whichever are killed, each inode is loaded once exactly if
no load appends to a list that another load has appended to. -/
theorem loaded_once_iff {τ : Type} [DecidableEq τ] (k : FsKernel) (sb : ExfatSuperblock)
    (p : NvmepartDevice) :
    (∀ i, ∃ xs, (k.exfatLoader sb p).Complete i xs ∧ k.Listed sb p i.1 xs) ∧
    ∀ events : List (LoadEvent τ (VolumeInode k sb p)),
      (∀ pre s, pre <+: events → Loads.run (k.exfatLoader sb p) pre = some s →
        s.Once LoadedItem.source fun i => k.Listed sb p i.1) ↔
      ∀ pre event s, pre ++ [event] <+: events → Loads.run (k.exfatLoader sb p) pre = some s →
        Loads.Alone (k.exfatLoader sb p) s event := by
  refine ⟨fun i => ?_, Loads.run_once_iff complete_listed⟩
  obtain ⟨xs, hcomplete, hlisted, -⟩ := complete_listed i
  exact ⟨xs, hcomplete, hlisted⟩

/-- The directory of one file. -/
def preallocatedRoot : VolumeInode preallocated smallSuperblock smallPartition :=
  ⟨rootAddress, .inl ⟨by decide +kernel, [2], [.file preallocatedSet], preallocated_directory⟩⟩

/-- Two tasks look it up before either of them has read it. -/
def twoLookups : List (LoadEvent Bool (VolumeInode preallocated smallSuperblock smallPartition)) :=
  [.lookup false preallocatedRoot, .lookup true preallocatedRoot, .resume false, .resume true,
    .resume false, .resume true]

theorem twoLookups_twice : ∃ s,
    Loads.run (preallocated.exfatLoader smallSuperblock smallPartition) twoLookups = some s ∧
      s.loadNeeded preallocatedRoot = false ∧
      ¬s.Once LoadedItem.source fun i =>
        preallocated.Listed smallSuperblock smallPartition i.1 := by
  have hrun : (Loads.run (preallocated.exfatLoader smallSuperblock smallPartition)
      twoLookups).map (fun s => (s.loadNeeded preallocatedRoot,
        (s.items preallocatedRoot).map LoadedItem.source)) =
          some (false, [.inl (16, 0), .inl (16, 0)]) := by
    decide +kernel
  obtain ⟨s, hs, heq⟩ := Option.map_eq_some_iff.mp hrun
  obtain ⟨hloaded, hitems⟩ := Prod.mk.inj heq
  refine ⟨s, hs, hloaded, fun honce => ?_⟩
  have hnodup := (honce preallocatedRoot).1
  rw [hitems] at hnodup
  exact absurd hnodup (by decide)

end FsKernel

end Persistos
