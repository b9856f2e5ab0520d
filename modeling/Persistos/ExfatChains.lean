import Persistos.ExfatLoads

/-! The FAT chains that the loaders of exFAT follow. They keep a sector and not a cluster, and
a directory is read from an offset of 32 bits where a file has one of 64. -/

namespace Persistos

open Theory

/-- The shifts by the two exponents of a volume are defined on numbers of 32 bits. -/
structure ExfatSuperblock.Shifts (sb : ExfatSuperblock) : Prop where
  bytes : sb.bytesPerSectorExponent.toNat < 32
  sectors : sb.sectorsPerClusterExponent.toNat < 32

/-- A cluster of which the first sector and the place in the FAT have numbers of 32 bits. -/
structure ExfatSuperblock.Met (sb : ExfatSuperblock) (cluster : U32) : Prop where
  number : 2 ≤ cluster.toNat
  sector : sb.sectorOf cluster < 2 ^ 32
  fat : sb.fatByte cluster < 2 ^ 32

/-- The clusters that the FAT leads to, at most `left` of them. -/
def fatChain (fat : U32 → U32) : Nat → U32 → List U32
  | 0, _ => []
  | left + 1, c => c :: if endsChain (fat c) then [] else fatChain fat left (fat c)

/-- Each cluster is the one that the FAT has for the cluster before it, as far as `left` of
them or up to the first one with an entry that ends the chain. -/
structure ChainFollowed (fat : U32 → U32) (start : U32) (left : Nat) (clusters : List U32) :
    Prop where
  length_le : clusters.length ≤ left
  cluster : ∀ j, (h : j < clusters.length) → clusters[j] = fat^[j] start
  goesOn : ∀ j, j + 1 < clusters.length → endsChain (fat (fat^[j] start)) = false
  stops : clusters.length = left ∨
    ∃ j, clusters.length = j + 1 ∧ endsChain (fat (fat^[j] start)) = true

theorem fatChain_followed (fat : U32 → U32) (left : Nat) (start : U32) :
    ChainFollowed fat start left (fatChain fat left start) := by
  induction left generalizing start with
  | zero =>
    exact ⟨Nat.le_refl 0, fun _ hj => absurd hj (Nat.not_lt_zero _),
      fun _ hj => absurd hj (Nat.not_lt_zero _), .inl rfl⟩
  | succ left ih =>
    rw [fatChain]
    by_cases hends : endsChain (fat start) = true
    · rw [if_pos hends]
      refine ⟨Nat.succ_pos left, fun j hj => ?_, fun j hj => ?_, .inr ⟨0, rfl, hends⟩⟩
      · obtain rfl : j = 0 := Nat.lt_one_iff.mp hj
        rfl
      · exact absurd hj (Nat.not_lt.mpr (Nat.succ_le_succ (Nat.zero_le j)))
    · rw [if_neg hends]
      have hrest := ih (fat start)
      refine ⟨Nat.succ_le_succ hrest.length_le, fun j hj => ?_, fun j hj => ?_, ?_⟩
      · cases j with
        | zero => rfl
        | succ j => exact hrest.cluster j (Nat.lt_of_succ_lt_succ hj)
      · cases j with
        | zero => exact Bool.eq_false_iff.mpr hends
        | succ j => exact hrest.goesOn j (Nat.lt_of_succ_lt_succ hj)
      · rcases hrest.stops with hall | ⟨j, hlength, hend⟩
        · exact .inl (congrArg Nat.succ hall)
        · exact .inr ⟨j + 1, congrArg Nat.succ hlength, hend⟩

/-- A cluster of the chain is met if no entry before it ends the chain. -/
theorem forall_mem_fatChain {fat : U32 → U32} {start : U32} {left : Nat} {P : U32 → Prop}
    (h : ∀ j < left, (∀ i < j, endsChain (fat (fat^[i] start)) = false) → P (fat^[j] start)) :
    ∀ c ∈ fatChain fat left start, P c := by
  have hchain := fatChain_followed fat left start
  intro c hc
  obtain ⟨j, hj, rfl⟩ := List.getElem_of_mem hc
  rw [hchain.cluster j hj]
  exact h j (Nat.lt_of_lt_of_le hj hchain.length_le) fun i hi => hchain.goesOn i (by omega)

namespace ExfatSuperblock

variable {sb : ExfatSuperblock} {cluster : U32}

/-- The offset that a directory is read from. -/
def dirContentOffset (sb : ExfatSuperblock) (lba : U32) : U64 :=
  (lba <<< sb.bytesPerSectorExponent.toNat).setWidth 64

/-- The `device_offset` that is recorded for a file. -/
def fileContentOffset (sb : ExfatSuperblock) (lba : U32) : U64 :=
  lba.setWidth 64 <<< sb.bytesPerSectorExponent.toNat

theorem fileContentOffset_toNat (hb : sb.bytesPerSectorExponent.toNat < 32) (lba : U32) :
    (sb.fileContentOffset lba).toNat = lba.toNat * 2 ^ sb.bytesPerSectorExponent.toNat := by
  have hpow : (2 : Nat) ^ sb.bytesPerSectorExponent.toNat ≤ 2 ^ 32 :=
    Nat.pow_le_pow_right (by decide) (Nat.le_of_lt hb)
  have hmul := Nat.mul_lt_mul_of_lt_of_le lba.isLt hpow (Nat.two_pow_pos 32)
  rw [fileContentOffset, BitVec.toNat_shiftLeft, Nat.shiftLeft_eq, BitVec.toNat_setWidth,
    Nat.mod_eq_of_lt (a := lba.toNat) (by omega)]
  exact Nat.mod_eq_of_lt hmul

theorem dirContentOffset_toNat (lba : U32) :
    (sb.dirContentOffset lba).toNat =
      lba.toNat * 2 ^ sb.bytesPerSectorExponent.toNat % 2 ^ 32 := by
  rw [dirContentOffset, BitVec.toNat_setWidth, BitVec.toNat_shiftLeft, Nat.shiftLeft_eq]
  omega

end ExfatSuperblock

/-- The FAT leads through sectors as it leads through clusters. -/
theorem filePieces_chain {sb : ExfatSuperblock} (hsb : sb.Shifts) {fat read : U32 → U32}
    (hread : ∀ c, sb.Met c → read (sb.clusterLba c) = fat c) {fileLength : U64}
    (hlength : fileLength.toNat ≤ 2 ^ 32 - 4096) {left j fuel : Nat}
    (hj : j + left = blocks fileLength) (hfuel : left < fuel) {byteOffset start : U32}
    (hoffset : byteOffset.toNat = 4096 * j) (hmet : ∀ c ∈ fatChain fat left start, sb.Met c) :
    ∃ pieces,
      filePieces sb read fileLength fuel byteOffset (sb.clusterLba start) = some pieces ∧
      (pieces.map fun piece => (piece.byteOffset.toNat, piece.deviceOffset.toNat)) =
        (fatChain fat left start).mapIdx fun i c => (4096 * (j + i), sb.clusterByte c) := by
  induction left generalizing j fuel byteOffset start with
  | zero =>
    have hstop : ¬byteOffset.setWidth 64 < fileLength := by
      have hend : j < blocks fileLength ↔ 4096 * j < fileLength.toNat := blocks_lt_iff
      rw [BitVec.lt_def, BitVec.toNat_setWidth, hoffset]
      omega
    cases fuel with
    | zero => exact absurd hfuel (Nat.not_lt_zero 0)
    | succ fuel => exact ⟨[], filePieces_stopped hstop, rfl⟩
  | succ left ih =>
    have hlt : 4096 * j < fileLength.toNat := blocks_lt_iff.mp (by omega)
    have hgoes : byteOffset.setWidth 64 < fileLength := by
      rw [BitVec.lt_def, BitVec.toNat_setWidth, hoffset]
      omega
    have hstart : sb.Met start := hmet start List.mem_cons_self
    have hdevice : (sb.fileContentOffset (sb.clusterLba start)).toNat = sb.clusterByte start := by
      rw [ExfatSuperblock.fileContentOffset_toNat hsb.bytes,
        ExfatSuperblock.clusterLba_of_fits hsb.sectors hstart.number hstart.sector]
      rfl
    have hpiece : (byteOffset.toNat, (sb.fileContentOffset (sb.clusterLba start)).toNat) =
        (4096 * (j + 0), sb.clusterByte start) := by
      rw [hoffset, hdevice, Nat.add_zero]
    cases fuel with
    | zero => exact absurd hfuel (Nat.not_lt_zero _)
    | succ fuel =>
      rw [filePieces, if_pos hgoes, fatChain, hread start hstart]
      dsimp only
      rw [fatChain] at hmet
      by_cases hends : endsChain (fat start) = true
      · rw [if_pos hends, if_pos hends]
        exact ⟨_, rfl, congrArg (fun piece => [piece]) hpiece⟩
      · rw [if_neg hends] at hmet
        rw [if_neg hends, if_neg hends]
        have hnext : (byteOffset + 4096).toNat = 4096 * (j + 1) := by
          rw [BitVec.toNat_add, hoffset]
          change (4096 * j + 4096) % 2 ^ 32 = _
          omega
        obtain ⟨pieces, hpieces, hmap⟩ := ih (by omega) (Nat.lt_of_succ_lt_succ hfuel) hnext
          fun c hc => hmet c (List.mem_cons_of_mem start hc)
        rw [hpieces]
        refine ⟨_, rfl, ?_⟩
        rw [List.map_cons, hmap, List.mapIdx_cons]
        refine congrArg₂ List.cons hpiece ?_
        refine congrArg (List.mapIdx · _) (funext fun i => funext fun c => ?_)
        rw [Nat.add_right_comm, Nat.add_assoc]

namespace FsKernel

variable {k k' : FsKernel} {sb : ExfatSuperblock} {p : NvmepartDevice} {e i : U64}

theorem loadDirPages_reads (sb : ExfatSuperblock) (p : NvmepartDevice) (dir : U64) (fuel : Nat)
    (lba : U32) (page : Nat → U8) (s : DirLoad) :
    loadDirPages sb p dir (fuel + 1) lba page s =
      loadEntries sb dir (s.kernel.deviceRead p (sb.dirContentOffset lba) 4096 page) 128 0 s >>=
        fun s' =>
          if endsChain (s'.kernel.readFatEntry sb p lba) then .ok s'
          else loadDirPages sb p dir fuel (sb.clusterLba (s'.kernel.readFatEntry sb p lba))
            (s.kernel.deviceRead p (sb.dirContentOffset lba) 4096 page) s' := rfl

theorem loadFileClusters_succ (sb : ExfatSuperblock) (p : NvmepartDevice) (e fileLength : U64)
    (fuel : Nat) (byteOffset lba : U32) (k : FsKernel) :
    loadFileClusters sb p e fileLength (fuel + 1) byteOffset lba k =
      if byteOffset.setWidth 64 < fileLength then do
        let k ← k.addFileCluster e ⟨byteOffset, sb.fileContentOffset lba⟩
        let fatEntry := k.readFatEntry sb p lba
        if endsChain fatEntry then .ok k
        else
          loadFileClusters sb p e fileLength fuel (byteOffset + 4096) (sb.clusterLba fatEntry) k
      else .ok k := rfl

/-- A directory is read where a file is for as long as the offset has 32 bits. -/
theorem content_offsets_agree_iff (hsb : sb.Shifts) {cluster : U32} (hnumber : 2 ≤ cluster.toNat)
    (hsector : sb.sectorOf cluster < 2 ^ 32) :
    (sb.dirContentOffset (sb.clusterLba cluster) = sb.fileContentOffset (sb.clusterLba cluster) ∧
      (sb.fileContentOffset (sb.clusterLba cluster)).toNat = sb.clusterByte cluster) ↔
        sb.clusterByte cluster < 2 ^ 32 := by
  have hfile : (sb.fileContentOffset (sb.clusterLba cluster)).toNat = sb.clusterByte cluster := by
    rw [ExfatSuperblock.fileContentOffset_toNat hsb.bytes,
      ExfatSuperblock.clusterLba_of_fits hsb.sectors hnumber hsector]
    rfl
  have hdir : (sb.dirContentOffset (sb.clusterLba cluster)).toNat =
      sb.clusterByte cluster % 2 ^ 32 := by
    rw [ExfatSuperblock.dirContentOffset_toNat,
      ExfatSuperblock.clusterLba_of_fits hsb.sectors hnumber hsector]
    rfl
  constructor
  · rintro ⟨hagree, -⟩
    have hsame := congrArg BitVec.toNat hagree
    rw [hdir, hfile] at hsame
    omega
  · intro hlt
    refine ⟨BitVec.eq_of_toNat_eq ?_, hfile⟩
    rw [hdir, hfile, Nat.mod_eq_of_lt hlt]

theorem root_offsets_agree :
    (smallSuperblock.dirContentOffset (smallSuperblock.clusterLba 2) =
        smallSuperblock.fileContentOffset (smallSuperblock.clusterLba 2) ∧
      (smallSuperblock.fileContentOffset (smallSuperblock.clusterLba 2)).toNat =
        smallSuperblock.clusterByte 2) ↔ smallSuperblock.clusterByte 2 < 2 ^ 32 :=
  content_offsets_agree_iff ⟨by decide, by decide⟩ (by decide) (by decide)

/-- A cluster behind the first 4 GiB of a volume. -/
theorem far_offsets_differ : 2 ≤ (0x100002 : U32).toNat ∧
    smallSuperblock.sectorOf 0x100002 < 2 ^ 32 ∧
    smallSuperblock.dirContentOffset (smallSuperblock.clusterLba 0x100002) ≠
      smallSuperblock.fileContentOffset (smallSuperblock.clusterLba 0x100002) :=
  ⟨by decide, by decide, by decide⟩

/-- What is read at the place of a cluster in the FAT. -/
def fatEntry (k : FsKernel) (sb : ExfatSuperblock) (p : NvmepartDevice) (cluster : U32) : U32 :=
  le32 (k.deviceRead p (BitVec.ofNat 64 (sb.fatByte cluster)) 4 k.stalePage) 0

theorem readFatEntry_clusterLba (hsb : sb.Shifts) {cluster : U32} (h : sb.Met cluster) :
    k.readFatEntry sb p (sb.clusterLba cluster) = k.fatEntry sb p cluster := by
  have hoffset : (sb.fatEntryByteOffset (sb.clusterLba cluster)).setWidth 64 =
      BitVec.ofNat 64 (sb.fatByte cluster) := by
    have hfat := h.fat
    refine BitVec.eq_of_toNat_eq ?_
    rw [BitVec.toNat_setWidth, BitVec.toNat_ofNat,
      ExfatSuperblock.fatEntryByteOffset_toNat hsb.sectors h.number h.sector,
      Nat.mod_eq_of_lt hfat]
  rw [readFatEntry, fatEntry, hoffset]

/-- On a volume that the driver can reach, it is the number that the FAT has there. -/
theorem fatEntry_eq (hp : p.Addressable) {cluster : U32} (h : sb.fatByte cluster + 4 ≤ 2 ^ 32)
    (hend : p.firstByte + sb.fatByte cluster + 4 ≤ p.endByte) :
    k.fatEntry sb p cluster = k.volumeWord p (sb.fatByte cluster) := by
  have hoffset : (BitVec.ofNat 64 (sb.fatByte cluster)).toNat = sb.fatByte cluster := by
    rw [BitVec.toNat_ofNat]
    omega
  rw [fatEntry, deviceRead_word hp (by rw [hoffset]; exact h) (by rw [hoffset]; exact hend),
    hoffset]

theorem addFileCluster_error {c : ExfatFileCluster} {crash : Crash} (h : k.Slabs)
    (ha : k.addFileCluster e c = .error crash) : k.fs.supply.pages = [] := by
  rcases bind_eq_error ha with halloc | ⟨r, -, he⟩
  · rcases bind_eq_error halloc with hslab | ⟨r, -, he⟩
    · exact (h.exfatFileClusters.alloc_error hslab).1
    · cases he
  · cases he

/-- A new cluster takes a page at most, and leaves the inodes as they are. -/
theorem addFileCluster_frame {c : ExfatFileCluster} (h : k.Slabs)
    (ha : k.addFileCluster e c = .ok k') :
    k.fs.supply.pages.length ≤ k'.fs.supply.pages.length + 1 ∧ k'.fs.inodes = k.fs.inodes := by
  obtain ⟨⟨slot, k₁⟩, halloc, he⟩ := bind_eq_ok ha
  obtain rfl := Except.ok.inj he
  obtain ⟨⟨y, supply, slab⟩, hslab, he⟩ := bind_eq_ok halloc
  simp only [Except.ok.injEq, Prod.mk.injEq] at he
  obtain ⟨rfl, rfl⟩ := he
  exact ⟨(h.exfatFileClusters.alloc hslab).supply_length, rfl⟩

theorem loadFileClusters_inodes {fileLength : U64} {fuel : Nat} {byteOffset lba : U32}
    (h : k.Slabs) (hl : loadFileClusters sb p e fileLength fuel byteOffset lba k = .ok k') :
    k'.fs.inodes = k.fs.inodes := by
  induction fuel generalizing byteOffset lba k with
  | zero => cases hl
  | succ fuel ih =>
    rw [loadFileClusters_succ] at hl
    by_cases hlt : byteOffset.setWidth 64 < fileLength
    · rw [if_pos hlt] at hl
      obtain ⟨k₁, hadd, hl⟩ := bind_eq_ok hl
      have hone := (addFileCluster_frame h hadd).2
      by_cases hends : endsChain (k₁.readFatEntry sb p lba) = true
      · rw [if_pos hends] at hl
        obtain rfl := Except.ok.inj hl
        exact hone
      · rw [if_neg hends] at hl
        obtain ⟨slot, hslot⟩ := h.addFileCluster hadd
        exact (ih hslot.slabs hl).trans hone
    · rw [if_neg hlt] at hl
      obtain rfl := Except.ok.inj hl
      rfl

/-- The memory runs out only if it has fewer free pages than the loop adds clusters. -/
theorem loadFileClusters_short {fileLength : U64} {fuel : Nat} {byteOffset lba : U32}
    {pieces : List ExfatFileCluster} (h : k.Slabs)
    (hpieces : filePieces sb (k.readFatEntry sb p) fileLength fuel byteOffset lba = some pieces)
    (hl : loadFileClusters sb p e fileLength fuel byteOffset lba k = .error outOfMemory) :
    k.fs.supply.pages.length < pieces.length := by
  induction fuel generalizing byteOffset lba k pieces with
  | zero => cases hpieces
  | succ fuel ih =>
    rw [loadFileClusters_succ] at hl
    rw [filePieces] at hpieces
    by_cases hlt : byteOffset.setWidth 64 < fileLength
    · rw [if_pos hlt] at hl hpieces
      dsimp only at hpieces
      rcases bind_eq_error hl with hadd | ⟨k₁, hadd, hl⟩
      · rw [addFileCluster_error h hadd]
        by_cases hends : endsChain (k.readFatEntry sb p lba) = true
        · rw [if_pos hends] at hpieces
          obtain rfl := Option.some.inj hpieces
          exact Nat.one_pos
        · rw [if_neg hends] at hpieces
          obtain ⟨rest, -, rfl⟩ := Option.map_eq_some_iff.mp hpieces
          exact Nat.succ_pos _
      · obtain ⟨slot, hone⟩ := h.addFileCluster hadd
        have hsupply := (addFileCluster_frame h hadd).1
        have hfat : k₁.readFatEntry sb p = k.readFatEntry sb p := by
          funext lba
          rw [readFatEntry, readFatEntry, deviceRead, deviceRead, hone.disk, hone.stalePage]
        rw [hfat] at hl
        dsimp only at hl
        by_cases hends : endsChain (k.readFatEntry sb p lba) = true
        · rw [if_pos hends] at hl
          cases hl
        · rw [if_neg hends] at hl hpieces
          obtain ⟨rest, hrest, rfl⟩ := Option.map_eq_some_iff.mp hpieces
          have hrest' : filePieces sb (k₁.readFatEntry sb p) fileLength fuel (byteOffset + 4096)
              (sb.clusterLba (k.readFatEntry sb p lba)) = some rest := by
            rw [hfat]
            exact hrest
          have hshort := ih hone.slabs hrest' hl
          rw [List.length_cons]
          omega
    · rw [if_neg hlt] at hl
      cases hl

theorem exfatLookup_file {fuel : Nat} (htype : (k.inode i).type = inodeRegularFile)
    (hneeded : (k.exfatInodes.objects (k.inode i).privateData).loadNeeded = true) :
    k.exfatLookup fuel sb p i = k.exfatLoadFileInode fuel sb p i := by
  rw [exfatLookup, if_pos hneeded, htype, if_neg (by decide), if_pos rfl]

theorem exfatLookup_loaded {fuel : Nat}
    (h : (k.exfatInodes.objects (k.inode i).privateData).loadNeeded = false) :
    k.exfatLookup fuel sb p i = .ok k := by
  rw [exfatLookup, h, if_neg Bool.false_ne_true]

/-- The list of a file follows the FAT from its first cluster, for as long as there is memory
for it, and the next lookup finds nothing left to load. -/
theorem file_chain_loaded (hslabs : k.Slabs) (hsb : sb.Shifts)
    (htype : (k.inode i).type = inodeRegularFile)
    (hneeded : (k.exfatInodes.objects (k.inode i).privateData).loadNeeded = true) {start : U32}
    (hstart : (k.exfatInodes.objects (k.inode i).privateData).exfatStartLba =
      sb.clusterLba start)
    (hlength : (k.fileLengths i).toNat ≤ 2 ^ 32 - 4096)
    (hmet : ∀ j < blocks (k.fileLengths i),
      (∀ n < j, endsChain (k.fatEntry sb p ((k.fatEntry sb p)^[n] start)) = false) →
        sb.Met ((k.fatEntry sb p)^[j] start))
    {fuel : Nat} (hfuel : blocks (k.fileLengths i) < fuel) :
    ∃ clusters,
      ChainFollowed (k.fatEntry sb p) start (blocks (k.fileLengths i)) clusters ∧
      ((k.exfatLookup fuel sb p i = .error outOfMemory ∧
          k.fs.supply.pages.length < clusters.length) ∨
        ∃ k' slots, k.exfatLookup fuel sb p i = .ok k' ∧
          (k'.exfatInodes.objects (k.inode i).privateData).fileClusters =
            (k.exfatInodes.objects (k.inode i).privateData).fileClusters ++ slots ∧
          (slots.map fun slot => ((k'.exfatFileClusters.objects slot).byteOffset.toNat,
            (k'.exfatFileClusters.objects slot).deviceOffset.toNat)) =
              clusters.mapIdx (fun j c => (4096 * j, sb.clusterByte c)) ∧
          ∀ fuel, k'.exfatLookup fuel sb p i = .ok k') := by
  have hmet' := forall_mem_fatChain hmet
  obtain ⟨pieces, hpieces, hmap⟩ := filePieces_chain hsb
    (fun _ hc => readFatEntry_clusterLba hsb hc) hlength (Nat.zero_add _) hfuel
    (show (0 : U32).toNat = 4096 * 0 from rfl) hmet'
  simp only [Nat.zero_add] at hmap
  refine ⟨_, fatChain_followed (k.fatEntry sb p) (blocks (k.fileLengths i)) start, ?_⟩
  rw [exfatLookup_file htype hneeded, exfatLoadFileInode, hstart]
  have hrun := loadFileClusters_eq sb p (k.inode i).privateData (k.fileLengths i) fuel 0
    (sb.clusterLba start) hslabs
  rw [hpieces] at hrun
  rcases hrun with hmemory | ⟨k₁, slots, hload, hadded⟩
  · left
    have hshort := loadFileClusters_short hslabs hpieces hmemory
    have hcount := congrArg List.length hmap
    rw [List.length_map, List.length_mapIdx] at hcount
    rw [hmemory]
    exact ⟨rfl, hcount ▸ hshort⟩
  · right
    rw [hload]
    refine ⟨_, slots, rfl, ?_, ?_, fun fuel => exfatLookup_loaded ?_⟩
    · rw [modifyExfatInode, Slab.modify_objects_self]
      exact hadded.list
    · rw [← hmap, ← hadded.objects, List.map_map]
      rfl
    · have hinode : (k₁.modifyExfatInode (k.inode i).privateData fun e =>
          { e with loadNeeded := false }).inode i = k.inode i :=
        congrArg (fun slab => slab.objects i) (loadFileClusters_inodes hslabs hload)
      rw [hinode, modifyExfatInode, Slab.modify_objects_self]

/-- A file of two clusters, of which the FAT has the second behind the first. -/
def chainedFile : FsKernel :=
  { contiguousFile with
    disk := fun x => if x = 4104 then 3 else if 4108 ≤ x ∧ x < 4112 then 0xFF else 0
    }.modifyInode rootAddress fun inode => { inode with type := inodeRegularFile }

theorem chainedFile_second :
    chainedFile.fatEntry smallSuperblock smallPartition 2 = 3 := by decide +kernel

theorem chainedFile_met : ∀ j < blocks (chainedFile.fileLengths rootAddress),
    (∀ n < j, endsChain (chainedFile.fatEntry smallSuperblock smallPartition
      ((chainedFile.fatEntry smallSuperblock smallPartition)^[n] 2)) = false) →
    smallSuperblock.Met ((chainedFile.fatEntry smallSuperblock smallPartition)^[j] 2) := by
  intro j hj _
  have htwo : blocks (chainedFile.fileLengths rootAddress) = 2 := rfl
  obtain rfl | rfl : j = 0 ∨ j = 1 := by omega
  · exact ⟨by decide, by decide, by decide⟩
  · rw [Function.iterate_one, chainedFile_second]
    exact ⟨by decide, by decide, by decide⟩

theorem chainedFile_slabs : chainedFile.Slabs :=
  contiguousFile_slabs.congr rfl rfl rfl rfl rfl rfl rfl

theorem chainedFile_start :
    (chainedFile.exfatInodes.objects (chainedFile.inode rootAddress).privateData).exfatStartLba =
      smallSuperblock.clusterLba 2 := by
  decide +kernel

theorem chainedFile_loaded : ∃ clusters,
    ChainFollowed (chainedFile.fatEntry smallSuperblock smallPartition) 2
      (blocks (chainedFile.fileLengths rootAddress)) clusters ∧
    ((chainedFile.exfatLookup 3 smallSuperblock smallPartition rootAddress =
          .error outOfMemory ∧ chainedFile.fs.supply.pages.length < clusters.length) ∨
      ∃ k' slots,
        chainedFile.exfatLookup 3 smallSuperblock smallPartition rootAddress = .ok k' ∧
        (k'.exfatInodes.objects (chainedFile.inode rootAddress).privateData).fileClusters =
          (chainedFile.exfatInodes.objects
            (chainedFile.inode rootAddress).privateData).fileClusters ++ slots ∧
        (slots.map fun slot => ((k'.exfatFileClusters.objects slot).byteOffset.toNat,
          (k'.exfatFileClusters.objects slot).deviceOffset.toNat)) =
            clusters.mapIdx (fun j c => (4096 * j, smallSuperblock.clusterByte c)) ∧
        ∀ fuel, k'.exfatLookup fuel smallSuperblock smallPartition rootAddress = .ok k') :=
  file_chain_loaded chainedFile_slabs ⟨by decide, by decide⟩ rfl rfl chainedFile_start
    (by decide) chainedFile_met (by decide)

end FsKernel

end Persistos
