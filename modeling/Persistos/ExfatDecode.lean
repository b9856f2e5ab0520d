import Persistos.ExfatEntrySets
import Persistos.OpenFailures

/-! Directories of a volume with clusters of 4096 bytes that the FAT links. Loading one
appends a dentry for each entry set that was written to it, in the same order. -/

namespace Persistos

/-- The directory entries of a file, and the name that the ones of type 0xC1 hold. The
length of the data that is valid is at offset 8 of the second entry, and that of the file
is at offset 0x18. -/
structure EntrySet where
  file : Nat → U8
  stream : Nat → U8
  names : List (Nat → U8)
  name : List U8
  fileType : file 0 = 0x85
  streamType : stream 0 = 0xC0
  namesType : ∀ x ∈ names, x 0 = 0xC1
  nameLength : 1 ≤ name.length ∧ name.length ≤ 63
  ascii : ∀ c ∈ name, c ≠ 0 ∧ c < 0x80
  namesLength : names.length = (name.length + 14) / 15
  packed : ∀ n, (h : n < names.length) → ∀ j < 15,
    le16 names[n] (2 * (j + 1)) = (name.getD (15 * n + j) 0).setWidth 16
  validDataLength_le : le64 stream 0x8 ≤ le64 stream 0x18
  dataLength_lt : (le64 stream 0x18).toNat < 2 ^ 32

namespace EntrySet

def entries (set : EntrySet) : List (Nat → U8) := set.file :: set.stream :: set.names

def isDirectory (set : EntrySet) : Bool := le16 set.file 4 &&& (1 <<< 4) ≠ 0

def firstCluster (set : EntrySet) : U32 := le32 set.stream 0x14

def validDataLength (set : EntrySet) : U64 := le64 set.stream 0x8

def dataLength (set : EntrySet) : U64 := le64 set.stream 0x18

/-- The first cluster is none, or one whose sector has a number of 32 bits. -/
def FirstClusterFits (sb : ExfatSuperblock) (set : EntrySet) : Prop :=
  set.firstCluster ≠ 0 → 2 ≤ set.firstCluster.toNat ∧ sb.sectorOf set.firstCluster < 2 ^ 32

end EntrySet

/-- What is in a directory: a file, or an entry of another type, which may be a deleted
one. -/
inductive DirItem where
  | file (set : EntrySet)
  | other (x : Nat → U8) (ignored : FsKernel.Ignored x) (used : x 0 ≠ 0)

namespace DirItem

def entries : DirItem → List (Nat → U8)
  | file set => set.entries
  | other x _ _ => [x]

def sets : List DirItem → List EntrySet
  | [] => []
  | file set :: items => set :: sets items
  | other _ _ _ :: items => sets items

end DirItem

namespace FsKernel

variable {k k' k'' : FsKernel} {sb : ExfatSuperblock} {dir d i e : U64}

/-- The dentry `d` shows what the entry set says, with the given length of a file. -/
structure Shows (k : FsKernel) (sb : ExfatSuperblock) (d : U64) (set : EntrySet)
    (fileLength : U64) : Prop where
  name : cString (k.fs.dentries.objects d).name = set.name
  type : (k.inode (k.fs.dentries.objects d).inode).type =
    if set.isDirectory then inodeDirectory else inodeRegularFile
  firstSector : set.firstCluster ≠ 0 →
    (k.exfatInodes.objects (k.inode (k.fs.dentries.objects d).inode).privateData).exfatStartLba.toNat =
      sb.sectorOf set.firstCluster
  fileLength : set.isDirectory = false →
    k.fileLengths (k.fs.dentries.objects d).inode = fileLength

/-- A dentry with its halves in use, apart from the directory. -/
structure Placed (k : FsKernel) (dir d : U64) : Prop where
  dentry : k.KnownDentry d
  inode : k.Known (k.fs.dentries.objects d).inode
  apart : (k.fs.dentries.objects d).inode ≠ dir
  exfat : (k.inode (k.fs.dentries.objects d).inode).privateData ∈ k.exfatSlots

theorem Extends.placed (h : Extends k k' dir) (hp : Placed k dir d) : Placed k' dir d := by
  have hd := h.dentries d hp.dentry
  have hi := h.inodes _ hp.inode hp.apart
  constructor
  · exact h.knownDentry d hp.dentry
  · rw [hd]
    exact h.known _ hp.inode
  · rw [hd]
    exact hp.apart
  · rw [hd, hi]
    exact h.exfatSlots _ hp.exfat

theorem Extends.shows {set : EntrySet} {fileLength : U64} (h : Extends k k' dir)
    (hp : Placed k dir d) (hs : Shows k sb d set fileLength) : Shows k' sb d set fileLength := by
  have hd := h.dentries d hp.dentry
  have hi := h.inodes _ hp.inode hp.apart
  have he := h.exfat _ hp.exfat
  constructor
  · rw [hd, hs.name]
  · rw [hd, hi, hs.type]
  · intro hc
    rw [hd, hi, he, hs.firstSector hc]
  · intro hr
    rw [hd, h.fileLengths _ hp.inode, hs.fileLength hr]

theorem Filling.placed {x : Nat → U8} (h : Filling k k' dir d i e x) (hdir : k.Known dir) :
    Placed k' dir d where
  dentry := .inl h.dentrySlot
  inode := .inl (h.inode.symm ▸ h.inodeSlot)
  apart := by
    rw [h.inode]
    exact fun hh => h.newInode (hh ▸ hdir)
  exfat := by
    rw [h.inode, h.privateData]
    exact h.exfatSlot

theorem le16_low (x : Nat → U8) (o : Nat) : (le16 x o).setWidth 8 = x o := by
  rw [le16, BitVec.setWidth_append]
  simp

/-- An entry of type 0xC1 sets the next 15 characters of the name. -/
theorem loadEntry_name (sb : ExfatSuperblock) (dir : U64) {set : EntrySet} {s : DirLoad} {n : Nat}
    (hn : n < set.names.length)
    (hd : s.fileDentry ≠ 0) (hindex : s.fileNameIndex.toNat = min (15 * n) 64)
    (hname : (s.kernel.fs.dentries.objects s.fileDentry).name = nameField set.name (15 * n)) :
    ∃ index : U8, index.toNat = min (15 * (n + 1)) 64 ∧
      loadEntry sb dir set.names[n] s =
        .ok ⟨s.kernel.modifyDentry s.fileDentry fun dentry =>
          { dentry with name := nameField set.name (15 * (n + 1)) }, s.fileDentry, index⟩ := by
  have hlength : (nameField set.name (15 * n)).length = dentryMaxNameLength + 1 := by
    rw [nameField, List.length_map, List.length_range]
  have htype := set.namesType _ (List.getElem_mem hn)
  have hchars := set.packed n hn
  have hfits : s.fileNameIndex.toNat + 0 ≤ dentryMaxNameLength + 1 := by
    rw [hindex]
    exact Nat.min_le_right _ _
  have hload := loadName_eq set.names[n] s.fileNameIndex 15 hfits hlength
  have hfield : ((List.range (dentryMaxNameLength + 1)).map fun j =>
      if s.fileNameIndex.toNat + 0 ≤ j ∧ j < s.fileNameIndex.toNat + 0 + 15 then
        set.names[n] (2 * (j - s.fileNameIndex.toNat + 1))
      else (nameField set.name (15 * n)).getD j 0) = nameField set.name (15 * (n + 1)) := by
    refine List.map_congr_left fun j hj => ?_
    have hlt := List.mem_range.mp hj
    have hlt' : j < 64 := hlt
    by_cases hin : s.fileNameIndex.toNat + 0 ≤ j ∧ j < s.fileNameIndex.toNat + 0 + 15
    · have hstart : s.fileNameIndex.toNat = 15 * n := by omega
      have hchar := congrArg (fun c => c.setWidth 8) (hchars (j - 15 * n) (by omega))
      rw [le16_low] at hchar
      rw [if_pos hin, if_pos (by omega), hstart, hchar, BitVec.setWidth_setWidth_of_le _ (by decide),
        BitVec.setWidth_eq]
      congr 1
      omega
    · rw [if_neg hin, List.getD, nameField, List.getElem?_map, List.getElem?_range hlt]
      rw [Option.map_some, Option.getD_some]
      by_cases hbefore : j < 15 * n
      · rw [if_pos hbefore, if_pos (by omega)]
      · rw [if_neg hbefore, if_neg (by omega)]
  rw [hfield] at hload
  refine ⟨s.fileNameIndex + BitVec.ofNat 8 (min (0 + 15) (dentryMaxNameLength + 1 -
    s.fileNameIndex.toNat)), ?_, ?_⟩
  · rw [BitVec.toNat_add, BitVec.toNat_ofNat, hindex]
    simp only [dentryMaxNameLength]
    omega
  · rw [loadEntry, if_neg (by rw [htype]; decide), if_neg (by rw [htype]; decide), if_pos htype,
      if_neg hd, hname, hload]

/-- The entries of type 0xC1 fill in the name and leave the rest of the entry alone. -/
theorem loadAll_names (sb : ExfatSuperblock) {set : EntrySet} {s : DirLoad} {n : Nat}
    (hn : n ≤ set.names.length)
    (hf : Filling k s.kernel dir d i e set.file) (hd : s.fileDentry = d)
    (hindex : s.fileNameIndex.toNat = min (15 * n) 64)
    (hname : (s.kernel.fs.dentries.objects d).name = nameField set.name (15 * n)) :
    ∃ s', loadAll sb dir (set.names.drop n) s = .ok s' ∧
      Filling k s'.kernel dir d i e set.file ∧
      s'.kernel.exfatInodes = s.kernel.exfatInodes ∧
      s'.kernel.fileLengths = s.kernel.fileLengths ∧
      (s'.kernel.fs.dentries.objects d).name = nameField set.name (15 * set.names.length) := by
  induction hleft : set.names.length - n generalizing n s with
  | zero =>
    obtain rfl : n = set.names.length := by omega
    rw [List.drop_length]
    exact ⟨s, rfl, hf, rfl, rfl, hname⟩
  | succ left ih =>
    have hlt : n < set.names.length := by omega
    subst hd
    obtain ⟨index, hindex', hload⟩ := loadEntry_name sb dir hlt hf.dentry_ne_zero hindex
      hname
    let k₁ := s.kernel.modifyDentry s.fileDentry fun dentry =>
      { dentry with name := nameField set.name (15 * (n + 1)) }
    have hf' : Filling k k₁ dir s.fileDentry i e set.file :=
      hf.touched (touched_modifyDentry s.kernel s.fileDentry i e _)
    have hname' : (k₁.fs.dentries.objects s.fileDentry).name =
        nameField set.name (15 * (n + 1)) := by
      dsimp only [k₁]
      rw [modifyDentry, Slab.modify_objects_self]
    obtain ⟨s', hs', hrest⟩ := ih (s := ⟨k₁, s.fileDentry, index⟩) hlt hf' rfl hindex' hname'
      (by omega)
    refine ⟨s', ?_, hrest⟩
    rw [List.drop_eq_getElem_cons hlt, loadAll_cons, hload, ok_bind]
    exact hs'

theorem cString_nameField {name : List U8} {m : Nat} (hlength : name.length ≤ dentryMaxNameLength)
    (hm : name.length ≤ m) (hzero : ∀ c ∈ name, c ≠ 0) : cString (nameField name m) = name := by
  have hfield : nameField name m =
      name ++ List.replicate (dentryMaxNameLength + 1 - name.length) 0 := by
    refine range_map_eq ?_ fun j _ => ?_
    · rw [List.length_append, List.length_replicate]
      omega
    · rw [List.getD, List.getD, List.getElem?_append]
      by_cases hj : j < name.length
      · rw [if_pos (by omega), if_pos hj]
      · have hnone : name[j]? = none := List.getElem?_eq_none (by omega)
        rw [if_neg hj, hnone, List.getElem?_replicate]
        split <;> split <;> rfl
  have hsucc : dentryMaxNameLength + 1 - name.length =
      dentryMaxNameLength - name.length + 1 := by omega
  rw [hfield, hsucc, List.replicate_succ, cString_append fun hh => hzero 0 hh rfl,
    cString_zero, List.append_nil]

theorem le64_eq {x : Nat → U8} {o : Nat} (h : (le64 x o).toNat < 2 ^ 32) :
    le64 x o = (le32 x o).setWidth 64 := by
  have hlow : (le64 x o).setWidth 32 = le32 x o := by
    rw [le64, BitVec.setWidth_append]
    simp
  refine BitVec.eq_of_toNat_eq ?_
  rw [← hlow, BitVec.toNat_setWidth, BitVec.toNat_setWidth]
  omega

theorem setWidth_le32 (set : EntrySet) :
    (le32 set.stream 0x8).setWidth 64 = set.validDataLength := by
  have hle : (le64 set.stream 0x8).toNat ≤ (le64 set.stream 0x18).toNat := set.validDataLength_le
  have hlt := set.dataLength_lt
  rw [EntrySet.validDataLength, le64_eq (by omega)]

theorem loadAll_set (hs : sb.sectorsPerClusterExponent.toNat < 32) {set : EntrySet} {s : DirLoad}
    (hslabs : s.kernel.Slabs) (hdir : s.kernel.Known dir) (hfirst : set.FirstClusterFits sb) :
    loadAll sb dir set.entries s = .error outOfMemory ∨ ∃ s' d,
      loadAll sb dir set.entries s = .ok s' ∧ Extends s.kernel s'.kernel dir ∧
      (s'.kernel.inode dir).dentries = (s.kernel.inode dir).dentries ++ [d] ∧
      ¬s.kernel.KnownDentry d ∧ Placed s'.kernel dir d ∧
      Shows s'.kernel sb d set set.validDataLength := by
  rw [EntrySet.entries, loadAll_cons, loadEntry, if_pos set.fileType]
  cases hfile : s.kernel.loadFileEntry dir set.file with
  | error c =>
    obtain rfl := hslabs.loadFileEntry_error hfile
    exact .inl rfl
  | ok r =>
    obtain ⟨d, k₁⟩ := r
    obtain ⟨i, e, hnew⟩ := hslabs.loadFileEntry_new hdir hfile
    obtain ⟨hinfo, hdentries, hstart, hlengths⟩ := hnew.filling.loadInfoEntry sb set.stream
    have hnamed : ((k₁.loadInfoEntry sb d set.stream).fs.dentries.objects d).name =
        nameField set.name (15 * 0) := by
      rw [hdentries, hnew.dentry, nameField_zero]
    obtain ⟨s', hs', hf, hexfat, hlengths', hname⟩ := loadAll_names sb (Nat.zero_le _)
      (s := ⟨k₁.loadInfoEntry sb d set.stream, d, 0⟩) hinfo rfl rfl hnamed
    have hstream : loadEntry sb dir set.stream ⟨k₁, d, 0⟩ =
        .ok ⟨k₁.loadInfoEntry sb d set.stream, d, 0⟩ := by
      rw [loadEntry, if_neg (by rw [set.streamType]; decide), if_pos set.streamType,
        if_neg hnew.filling.dentry_ne_zero]
    refine .inr ⟨s', d, ?_, hf.toExtends, hf.parent, hf.newDentry, hf.placed hdir, ?_⟩
    · rw [ok_bind, ok_bind, loadAll_cons, hstream, ok_bind]
      exact hs'
    · constructor
      · rw [hname]
        refine cString_nameField set.nameLength.2 ?_ fun c hc => (set.ascii c hc).1
        rw [set.namesLength]
        omega
      · rw [hf.inode, hf.type, entryType, EntrySet.isDirectory]
        simp only [decide_eq_true_eq]
      · intro hc
        obtain ⟨htwo, hfits⟩ := hfirst hc
        rw [hf.inode, hf.privateData, hexfat, hstart]
        exact ExfatSuperblock.clusterLba_of_fits hs htwo hfits
      · intro hr
        rw [EntrySet.isDirectory, decide_eq_false_iff_not, not_not] at hr
        rw [hf.inode, hlengths', hlengths (entryType_eq_regular_iff.mpr hr), setWidth_le32]

theorem loadAll_items (hs : sb.sectorsPerClusterExponent.toNat < 32) {items : List DirItem}
    {s : DirLoad} (hslabs : s.kernel.Slabs) (hdir : s.kernel.Known dir)
    (hfirst : ∀ set ∈ DirItem.sets items, set.FirstClusterFits sb) :
    loadAll sb dir (items.flatMap DirItem.entries) s = .error outOfMemory ∨ ∃ s' ds,
      loadAll sb dir (items.flatMap DirItem.entries) s = .ok s' ∧ Extends s.kernel s'.kernel dir ∧
      (s'.kernel.inode dir).dentries = (s.kernel.inode dir).dentries ++ ds ∧ ds.Nodup ∧
      (∀ d ∈ ds, ¬s.kernel.KnownDentry d) ∧
      List.Forall₂ (fun d set => Placed s'.kernel dir d ∧
        Shows s'.kernel sb d set set.validDataLength) ds (DirItem.sets items) := by
  induction items generalizing s with
  | nil =>
    refine .inr ⟨s, [], rfl, .refl hslabs dir, (List.append_nil _).symm, List.nodup_nil, ?_, .nil⟩
    exact fun d hd => absurd hd List.not_mem_nil
  | cons item items ih =>
    rw [List.flatMap_cons, loadAll_append]
    cases item with
    | other x ignored used =>
      have hskip : loadAll sb dir (DirItem.other x ignored used).entries s = .ok s :=
        loadAll_ignored (fun y hy => List.mem_singleton.mp hy ▸ ignored) s
      rw [hskip, ok_bind]
      exact ih hslabs hdir hfirst
    | file set =>
      rw [DirItem.entries, DirItem.sets]
      rcases loadAll_set hs hslabs hdir (hfirst set List.mem_cons_self) with
        hmemory | ⟨s₁, d, hset, hext, hparent, hnew, hplaced, hshows⟩
      · rw [hmemory]
        exact .inl rfl
      · rw [hset, ok_bind]
        rcases ih hext.slabs (hext.known dir hdir)
            (fun set' hset' => hfirst set' (List.mem_cons_of_mem set hset')) with
          hmemory | ⟨s', ds, hitems, hext', hparent', hnodup, hnews, hall⟩
        · exact .inl hmemory
        · refine .inr ⟨s', d :: ds, hitems, hext.trans hext', ?_, ?_, ?_, ?_⟩
          · rw [hparent', hparent, List.append_assoc]
            rfl
          · exact List.nodup_cons.mpr ⟨fun hd => hnews d hd hplaced.dentry, hnodup⟩
          · intro d' hd'
            rcases List.mem_cons.mp hd' with rfl | hd'
            · exact hnew
            · exact fun hknown => hnews d' hd' (hext.knownDentry d' hknown)
          · exact .cons ⟨hext'.placed hplaced, hext'.shows hplaced hshows⟩ hall

/-- The new entries of `dir`, one for each set and in the same order. -/
def Decodes (k k' : FsKernel) (sb : ExfatSuperblock) (dir : U64) (sets : List EntrySet)
    (fileLength : EntrySet → U64) : Prop :=
  ∃ ds, (k'.inode dir).dentries = (k.inode dir).dentries ++ ds ∧ ds.Nodup ∧
    (∀ d ∈ ds, ¬k.KnownDentry d) ∧
    List.Forall₂ (fun d set => Shows k' sb d set (fileLength set)) ds sets

/-- The entries in a cluster of 4096 bytes. -/
def clusterEntries (k : FsKernel) (sb : ExfatSuperblock) (p : NvmepartDevice) (cluster : U32) :
    List (Nat → U8) :=
  pageEntries (fun i => k.volumeByte p (sb.clusterByte cluster + i)) 128 0

/-- A cluster whose bytes and whose place in the FAT are below 4 GiB and in the partition. -/
structure Reachable (sb : ExfatSuperblock) (p : NvmepartDevice) (cluster : U32) : Prop where
  number : 2 ≤ cluster.toNat
  bytes : sb.clusterByte cluster + 4096 ≤ 2 ^ 32
  bytesEnd : p.firstByte + sb.clusterByte cluster + 4096 ≤ p.endByte
  fat : sb.fatByte cluster + 4 ≤ 2 ^ 32
  fatEnd : p.firstByte + sb.fatByte cluster + 4 ≤ p.endByte

/-- A directory of a volume with clusters of 4096 bytes, and what is in it. Behind the last
item there are end markers. -/
structure DirectoryOn (k : FsKernel) (sb : ExfatSuperblock) (p : NvmepartDevice) (dir : U64)
    (clusters : List U32) (items : List DirItem) : Prop where
  addressable : p.Addressable
  start : ∀ c ∈ clusters.head?,
    (k.exfatInodes.objects (k.inode dir).privateData).exfatStartLba = sb.clusterLba c
  clusterSize : sb.bytesPerSectorExponent.toNat + sb.sectorsPerClusterExponent.toNat = 12
  reachable : ∀ c ∈ clusters, Reachable sb p c
  linked : k.Linked sb p clusters
  content : ∃ ends : List (Nat → U8), (∀ x ∈ ends, x 0 = 0) ∧
    clusters.flatMap (k.clusterEntries sb p) = items.flatMap DirItem.entries ++ ends
  firstClusters : ∀ set ∈ DirItem.sets items, set.FirstClusterFits sb

theorem endsOnce_append {xs ends : List (Nat → U8)} (hxs : ∀ x ∈ xs, x 0 ≠ 0)
    (hends : ∀ x ∈ ends, x 0 = 0) : EndsOnce (xs ++ ends) := by
  refine List.pairwise_append.mpr ⟨?_, ?_, fun x _ y hy _ => hends y hy⟩
  · exact List.pairwise_of_forall_mem_list fun x hx y _ hh => absurd hh (hxs x hx)
  · exact List.pairwise_of_forall_mem_list fun x _ y hy _ => hends y hy

theorem entries_used (items : List DirItem) : ∀ x ∈ items.flatMap DirItem.entries, x 0 ≠ 0 := by
  intro x hx
  obtain ⟨item, -, hx⟩ := List.mem_flatMap.mp hx
  cases item with
  | other y ignored used => exact List.mem_singleton.mp hx ▸ used
  | file set =>
    rcases List.mem_cons.mp hx with rfl | hx
    · rw [set.fileType]
      decide
    · rcases List.mem_cons.mp hx with rfl | hx
      · rw [set.streamType]
        decide
      · rw [set.namesType x hx]
        decide

namespace Reachable

variable {p : NvmepartDevice} {c : U32}

theorem sector_lt (h : Reachable sb p c) : sb.sectorOf c < 2 ^ 32 := by
  have hbytes := h.bytes
  rw [ExfatSuperblock.clusterByte] at hbytes
  have hle := Nat.le_mul_of_pos_right (sb.sectorOf c)
    (Nat.two_pow_pos sb.bytesPerSectorExponent.toNat)
  omega

/-- The number of such a cluster is none that ends a chain. -/
theorem not_endsChain (h : Reachable sb p c)
    (hsize : sb.bytesPerSectorExponent.toNat + sb.sectorsPerClusterExponent.toNat = 12) :
    endsChain c = false := by
  have hpow : 2 ^ sb.sectorsPerClusterExponent.toNat * 2 ^ sb.bytesPerSectorExponent.toNat =
      4096 := by
    rw [← Nat.pow_add, Nat.add_comm, hsize]
  have hbytes := h.bytes
  have hnumber := h.number
  have hle : 2 ^ sb.sectorsPerClusterExponent.toNat * (c.toNat - 2) *
      2 ^ sb.bytesPerSectorExponent.toNat ≤ sb.clusterByte c :=
    Nat.mul_le_mul_right _ (Nat.le_add_left _ _)
  rw [Nat.mul_right_comm, hpow] at hle
  exact FsKernel.not_endsChain hnumber (by omega)

/-- The loader reads the page of the cluster, and the number behind it in the FAT. -/
theorem deviceRead (h : Reachable sb p c) (hp : p.Addressable)
    (hs : sb.sectorsPerClusterExponent.toNat < 32) (k : FsKernel) (old : Nat → U8) {i : Nat}
    (hi : i < 4096) :
    k.deviceRead p ((sb.clusterLba c <<< sb.bytesPerSectorExponent.toNat).setWidth 64) 4096 old i =
      k.volumeByte p (sb.clusterByte c + i) := by
  have hbytes := h.bytes
  have hend := h.bytesEnd
  have hoffset : ((sb.clusterLba c <<< sb.bytesPerSectorExponent.toNat).setWidth 64 : U64).toNat =
      sb.clusterByte c := by
    rw [BitVec.toNat_setWidth, BitVec.toNat_shiftLeft, Nat.shiftLeft_eq,
      ExfatSuperblock.clusterLba_of_fits hs h.number h.sector_lt]
    change sb.clusterByte c % 2 ^ 32 % 2 ^ 64 = _
    omega
  rw [deviceRead_apply hp (by rw [hoffset]; exact hbytes) (by rw [hoffset]; exact hend) _ hi, hoffset]

theorem readFatEntry (h : Reachable sb p c) (hp : p.Addressable)
    (hs : sb.sectorsPerClusterExponent.toNat < 32) (k : FsKernel) :
    k.readFatEntry sb p (sb.clusterLba c) = k.volumeWord p (sb.fatByte c) := by
  have hfat := h.fat
  have hend := h.fatEnd
  have hoffset : (sb.fatEntryByteOffset (sb.clusterLba c)).toNat = sb.fatByte c := by
    rw [ExfatSuperblock.fatEntryByteOffset_toNat hs h.number h.sector_lt]
    omega
  rw [readFatEntry_eq hp (by omega) (by omega), hoffset]

end Reachable

/-- One pass of the loop over the clusters. -/
theorem loadDirPages_succ {p : NvmepartDevice} {c : U32} {fuel : Nat} {page : Nat → U8}
    {s : DirLoad} (hp : p.Addressable) (hs : sb.sectorsPerClusterExponent.toNat < 32)
    (hreach : Reachable sb p c) (hends : EndsOnce (k.clusterEntries sb p c))
    (hdisk : s.kernel.disk = k.disk) :
    loadDirPages sb p dir (fuel + 1) (sb.clusterLba c) page s =
      loadAll sb dir (k.clusterEntries sb p c) s >>= fun s' =>
        if endsChain (k.volumeWord p (sb.fatByte c)) then .ok s'
        else loadDirPages sb p dir fuel (sb.clusterLba (k.volumeWord p (sb.fatByte c)))
          (s.kernel.deviceRead p
            ((sb.clusterLba c <<< sb.bytesPerSectorExponent.toNat).setWidth 64) 4096 page) s' := by
  have hview : ∀ i < 0 + 32 * 128, s.kernel.deviceRead p
      ((sb.clusterLba c <<< sb.bytesPerSectorExponent.toNat).setWidth 64) 4096 page i =
        k.volumeByte p (sb.clusterByte c + i) := by
    intro i hi
    rw [hreach.deviceRead hp hs s.kernel page (by omega), volumeByte_same hdisk]
  rw [loadDirPages]
  dsimp only
  rw [loadEntries_eq hview hends]
  change loadAll sb dir (k.clusterEntries sb p c) s >>= _ = _
  cases hload : loadAll sb dir (k.clusterEntries sb p c) s with
  | error e => rw [error_bind, error_bind]
  | ok s' =>
    have hword : s'.kernel.readFatEntry sb p (sb.clusterLba c) =
        k.volumeWord p (sb.fatByte c) := by
      rw [hreach.readFatEntry hp hs, volumeWord_same ((loadAll_disk hload).trans hdisk)]
    rw [ok_bind, ok_bind, hword]

/-- The loop over the clusters takes the entries of all of them. -/
theorem loadDirPages_eq {p : NvmepartDevice} {c : U32} {cs : List U32} {fuel : Nat} {s : DirLoad}
    (hp : p.Addressable)
    (hsize : sb.bytesPerSectorExponent.toNat + sb.sectorsPerClusterExponent.toNat = 12)
    (hreach : ∀ c' ∈ c :: cs, Reachable sb p c') (hlinked : k.Linked sb p (c :: cs))
    (hends : EndsOnce ((c :: cs).flatMap (k.clusterEntries sb p))) (hfuel : cs.length < fuel)
    (page : Nat → U8) (hdisk : s.kernel.disk = k.disk) :
    loadDirPages sb p dir fuel (sb.clusterLba c) page s =
      loadAll sb dir ((c :: cs).flatMap (k.clusterEntries sb p)) s := by
  have hs : sb.sectorsPerClusterExponent.toNat < 32 := by omega
  induction cs generalizing c fuel page s with
  | nil =>
    obtain ⟨fuel, rfl⟩ := Nat.exists_eq_add_of_lt hfuel
    rw [List.flatMap_cons, List.flatMap_nil, List.append_nil] at hends ⊢
    have hlast : k.volumeWord p (sb.fatByte c) = 0xFFFFFFFF := hlinked
    rw [loadDirPages_succ hp hs (hreach c List.mem_cons_self) hends hdisk, hlast]
    cases loadAll sb dir (k.clusterEntries sb p c) s with
    | error e => rw [error_bind]
    | ok s' => rw [ok_bind, if_pos (by decide)]
  | cons c' cs ih =>
    obtain ⟨fuel, rfl⟩ := Nat.exists_eq_add_of_lt hfuel
    rw [List.flatMap_cons] at hends
    obtain ⟨hfirst, hrest, -⟩ := List.pairwise_append.mp hends
    have hreach' : ∀ c'' ∈ c' :: cs, Reachable sb p c'' :=
      fun c'' hc => hreach c'' (List.mem_cons_of_mem c hc)
    rw [loadDirPages_succ hp hs (hreach c List.mem_cons_self) hfirst hdisk, hlinked.1,
      (hreach' c' List.mem_cons_self).not_endsChain hsize, List.flatMap_cons, loadAll_append]
    cases hload : loadAll sb dir (k.clusterEntries sb p c) s with
    | error e => rw [error_bind, error_bind]
    | ok s' =>
      rw [ok_bind, ok_bind, if_neg Bool.false_ne_true]
      refine ih hreach' hlinked.2 hrest ?_ _ ((loadAll_disk hload).trans hdisk)
      rw [List.length_cons]
      omega

variable {p : NvmepartDevice} {clusters : List U32} {items : List DirItem} {fuel : Nat}

theorem DirectoryOn.loads (h : DirectoryOn k sb p dir clusters items)
    (hfuel : clusters.length ≤ fuel) :
    k.exfatLoadDirInode fuel sb p dir =
      loadAll sb dir (items.flatMap DirItem.entries) ⟨k, 0, 0⟩ >>= fun s =>
        .ok (s.kernel.modifyExfatInode (k.inode dir).privateData fun e =>
          { e with loadNeeded := false }) := by
  obtain ⟨ends, hzero, hcontent⟩ := h.content
  have hsize := h.clusterSize
  cases clusters with
  | nil => exact h.linked.elim
  | cons c cs =>
    have hends := endsOnce_append (entries_used items) hzero
    rw [← hcontent] at hends
    rw [exfatLoadDirInode, h.start c rfl, loadDirPages_eq (s := ⟨k, 0, 0⟩) h.addressable hsize
      h.reachable h.linked hends hfuel k.stalePage rfl, hcontent, loadAll_append, bind_assoc]
    refine congrArg _ (funext fun s => ?_)
    rw [loadAll_ignored fun x hx => ignored_of_zero (hzero x hx), ok_bind]

theorem exfatStartLba_loaded (k : FsKernel) (y e : U64) :
    ((k.modifyExfatInode y fun n => { n with loadNeeded := false }).exfatInodes.objects
      e).exfatStartLba = (k.exfatInodes.objects e).exfatStartLba := by
  by_cases hy : e = y
  · rw [hy, modifyExfatInode, Slab.modify_objects_self]
  · rw [modifyExfatInode, Slab.modify_objects_ne _ hy]

theorem Shows.modifyExfatInode {set : EntrySet} {fileLength : U64}
    (h : Shows k sb d set fileLength) (y : U64) :
    Shows (k.modifyExfatInode y fun n => { n with loadNeeded := false }) sb d set fileLength where
  name := h.name
  type := h.type
  firstSector hc := by
    rw [exfatStartLba_loaded]
    exact h.firstSector hc
  fileLength := h.fileLength

/-- Loading comes to an end unless the memory does, and each file has the length of its
valid data. -/
theorem DirectoryOn.decodes (h : DirectoryOn k sb p dir clusters items) (hslabs : k.Slabs)
    (hdir : k.Known dir) (hfuel : clusters.length ≤ fuel) :
    k.exfatLoadDirInode fuel sb p dir = .error outOfMemory ∨ ∃ k',
      k.exfatLoadDirInode fuel sb p dir = .ok k' ∧
      Decodes k k' sb dir (DirItem.sets items) EntrySet.validDataLength := by
  have hsize := h.clusterSize
  have hs : sb.sectorsPerClusterExponent.toNat < 32 := by omega
  rw [h.loads hfuel]
  rcases loadAll_items (s := ⟨k, 0, 0⟩) hs hslabs hdir h.firstClusters with
    hmemory | ⟨s, ds, hload, -, hparent, hnodup, hnew, hall⟩
  · rw [hmemory]
    exact .inl rfl
  · rw [hload]
    refine .inr ⟨_, rfl, ds, hparent, hnodup, hnew, ?_⟩
    exact hall.imp fun _ _ hh => hh.2.modifyExfatInode _

theorem Decodes.lengths {sets : List EntrySet} {f g : EntrySet → U64}
    (h : Decodes k k' sb dir sets f) :
    Decodes k k' sb dir sets g ↔ ∀ set ∈ sets, set.isDirectory = false → f set = g set := by
  obtain ⟨ds, hparent, hnodup, hnew, hall⟩ := h
  constructor
  · rintro ⟨ds', hparent', -, -, hall'⟩
    obtain rfl : ds = ds' := List.append_cancel_left (hparent.symm.trans hparent')
    clear hparent hparent' hnodup hnew
    induction hall with
    | nil => exact fun set hset => absurd hset List.not_mem_nil
    | cons hs _ ih =>
      cases hall' with
      | cons hs' hall' =>
        intro set hset hr
        rcases List.mem_cons.mp hset with rfl | hset
        · exact (hs.fileLength hr).symm.trans (hs'.fileLength hr)
        · exact ih hall' set hset hr
  · intro heq
    refine ⟨ds, hparent, hnodup, hnew, ?_⟩
    clear hparent hnodup hnew
    induction hall with
    | nil => exact .nil
    | cons hs _ ih =>
      refine .cons ⟨hs.name, hs.type, hs.firstSector, fun hr => ?_⟩
        (ih fun set hset => heq set (List.mem_cons_of_mem _ hset))
      rw [hs.fileLength hr, heq _ List.mem_cons_self hr]

/-- Directories are decoded, up to the lengths of files of which not all data is valid. -/
theorem directory_decodes_iff (hslabs : k.Slabs) (hdir : k.Known dir)
    (h : DirectoryOn k sb p dir clusters items) (hfuel : clusters.length ≤ fuel) :
    k.exfatLoadDirInode fuel sb p dir = .error outOfMemory ∨ ∃ k',
      k.exfatLoadDirInode fuel sb p dir = .ok k' ∧
      Decodes k k' sb dir (DirItem.sets items) EntrySet.validDataLength ∧
      (Decodes k k' sb dir (DirItem.sets items) EntrySet.dataLength ↔
        ∀ set ∈ DirItem.sets items, set.isDirectory = false →
          set.validDataLength = set.dataLength) := by
  rcases h.decodes hslabs hdir hfuel with hmemory | ⟨k', hload, hdecodes⟩
  · exact .inl hmemory
  · exact .inr ⟨k', hload, hdecodes, hdecodes.lengths⟩

/-- The entries of a file `a` of 4096 bytes, of which the first 100 are valid. -/
def preallocatedEntries : List U8 :=
  [0x85, 2, 0xC7, 0x3A, 0x20, 0, 0, 0, 0, 0, 0, 0, 0, 0, 0, 0,
    0, 0, 0, 0, 0, 0, 0, 0, 0, 0, 0, 0, 0, 0, 0, 0,
    0xC0, 1, 0, 1, 0x20, 0x80, 0, 0, 100, 0, 0, 0, 0, 0, 0, 0,
    0, 0, 0, 0, 3, 0, 0, 0, 0, 0x10, 0, 0, 0, 0, 0, 0,
    0xC1, 0, 0x61, 0, 0, 0, 0, 0, 0, 0, 0, 0, 0, 0, 0, 0,
    0, 0, 0, 0, 0, 0, 0, 0, 0, 0, 0, 0, 0, 0, 0, 0]

/-- The root directory is on a volume, in cluster 2, and the file in cluster 3. -/
def preallocated : FsKernel :=
  { bare with
    superblocks := fun _ => .exfat smallSuperblock smallPartition
    exfatInodes := Slab.init 24 fun _ => ⟨16, true, []⟩
    disk := fun x =>
      if x < 8192 then if 4104 ≤ x ∧ x < 4112 then 0xFF else 0
      else preallocatedEntries.getD (x - 8192) 0 }

def preallocatedByte (i : Nat) : U8 :=
  preallocated.volumeByte smallPartition (smallSuperblock.clusterByte 2 + i)

def preallocatedSet : EntrySet where
  file i := preallocatedByte (0 + i)
  stream i := preallocatedByte (0 + 0x20 + i)
  names := [fun i => preallocatedByte (0 + 0x20 + 0x20 + i)]
  name := [0x61]
  fileType := by decide +kernel
  streamType := by decide +kernel
  namesType x hx := by
    rw [List.mem_singleton.mp hx]
    decide +kernel
  nameLength := by decide
  ascii := by decide
  namesLength := rfl
  packed n h := by
    obtain rfl : n = 0 := Nat.lt_one_iff.mp h
    change ∀ j < 15, le16 (fun i => preallocatedByte (0 + 0x20 + 0x20 + i)) (2 * (j + 1)) =
      (([0x61] : List U8).getD (15 * 0 + j) 0).setWidth 16
    decide +kernel
  validDataLength_le := by decide +kernel
  dataLength_lt := by decide +kernel

theorem preallocated_slabs : preallocated.Slabs :=
  bare_slabs.congr rfl rfl rfl rfl rfl rfl rfl

theorem preallocated_directory : DirectoryOn preallocated smallSuperblock smallPartition
    rootAddress [2] [.file preallocatedSet] where
  addressable := ⟨by decide, by decide, by decide, by decide⟩
  start c hc := by
    obtain rfl := Option.mem_some_iff.mp hc
    decide +kernel
  clusterSize := by decide
  reachable c hc := by
    obtain rfl := List.mem_singleton.mp hc
    exact ⟨by decide, by decide, by decide, by decide, by decide⟩
  linked := by
    change preallocated.volumeWord smallPartition (smallSuperblock.fatByte 2) = 0xFFFFFFFF
    decide +kernel
  content := by
    refine ⟨pageEntries preallocatedByte 125 (0 + 0x20 + 0x20 + 0x20), ?_, rfl⟩
    have hall : (pageEntries preallocatedByte 125 (0 + 0x20 + 0x20 + 0x20)).all (· 0 = 0) := by
      decide +kernel
    exact fun x hx => of_decide_eq_true (List.all_eq_true.mp hall x hx)
  firstClusters set hset := by
    obtain rfl := List.mem_singleton.mp hset
    exact fun _ => ⟨by decide +kernel, by decide +kernel⟩

theorem preallocated_decodes :
    preallocated.exfatLoadDirInode 1 smallSuperblock smallPartition rootAddress =
        .error outOfMemory ∨ ∃ k',
      preallocated.exfatLoadDirInode 1 smallSuperblock smallPartition rootAddress = .ok k' ∧
      Decodes preallocated k' smallSuperblock rootAddress [preallocatedSet]
        EntrySet.validDataLength ∧
      (Decodes preallocated k' smallSuperblock rootAddress [preallocatedSet] EntrySet.dataLength ↔
        ∀ set ∈ [preallocatedSet], set.isDirectory = false →
          set.validDataLength = set.dataLength) :=
  directory_decodes_iff preallocated_slabs (.inr (List.mem_singleton_self _))
    preallocated_directory (by decide)

theorem preallocated_length : preallocated.Slabs ∧ preallocated.Known rootAddress ∧
    DirectoryOn preallocated smallSuperblock smallPartition rootAddress [2]
      [.file preallocatedSet] ∧ ∃ k',
    preallocated.exfatLoadDirInode 1 smallSuperblock smallPartition rootAddress = .ok k' ∧
      ¬Decodes preallocated k' smallSuperblock rootAddress [preallocatedSet]
        EntrySet.dataLength := by
  refine ⟨preallocated_slabs, .inr (List.mem_singleton_self _), preallocated_directory, ?_⟩
  have hrun : (preallocated.exfatLoadDirInode 1 smallSuperblock smallPartition rootAddress).map
      (fun _ => ()) = .ok () := by decide +kernel
  rcases preallocated_directory.decodes preallocated_slabs (.inr (List.mem_singleton_self _))
    (by decide : ([2] : List U32).length ≤ 1) with hmemory | ⟨k', hload, hdecodes⟩
  · rw [hmemory] at hrun
    cases hrun
  · refine ⟨k', hload, fun hh => ?_⟩
    have hlength := hdecodes.lengths.mp hh preallocatedSet List.mem_cons_self (by decide +kernel)
    revert hlength
    decide +kernel

end FsKernel

end Persistos
