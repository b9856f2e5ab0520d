import Persistos.ExfatBlocks
import Persistos.OpenFailures

/-! Files of an exFAT volume with sectors and clusters of any size. The list for a file is
right where each block of 4096 bytes starts a cluster that the FAT leads to. -/

namespace Persistos

namespace ExfatSuperblock

def clusterSize (sb : ExfatSuperblock) : Nat :=
  2 ^ sb.sectorsPerClusterExponent.toNat * 2 ^ sb.bytesPerSectorExponent.toNat

/-- The cluster that byte `4096 * j` of a file lies in. -/
def blockCluster (sb : ExfatSuperblock) (clusters : List U32) (j : Nat) : U32 :=
  clusters.getD (4096 * j / sb.clusterSize) 0

/-- The device offset of byte `4096 * j` of a file. -/
def blockOffset (sb : ExfatSuperblock) (clusters : List U32) (j : Nat) : Nat :=
  sb.clusterByte (sb.blockCluster clusters j) + 4096 * j % sb.clusterSize

variable {sb : ExfatSuperblock} {clusters : List U32} {j : Nat}

theorem clusterLba_mod (hs : sb.sectorsPerClusterExponent.toNat < 32) (x : U32) :
    (sb.clusterLba x).toNat % 2 ^ sb.sectorsPerClusterExponent.toNat =
      sb.clusterHeapOffset.toNat % 2 ^ sb.sectorsPerClusterExponent.toNat := by
  have hpow : (2 : Nat) ^ sb.sectorsPerClusterExponent.toNat < 2 ^ 32 :=
    Nat.pow_lt_pow_right (by decide) hs
  have hone : ((1 <<< sb.sectorsPerClusterExponent.toNat : Nat) : U32).toNat =
      2 ^ sb.sectorsPerClusterExponent.toNat := by
    rw [Nat.shiftLeft_eq, Nat.one_mul]
    exact Nat.mod_eq_of_lt hpow
  have hdvd : 2 ^ sb.sectorsPerClusterExponent.toNat ∣ 2 ^ 32 :=
    Nat.pow_dvd_pow 2 (Nat.le_of_lt hs)
  rw [clusterLba, BitVec.toNat_add, BitVec.toNat_mul, hone, Nat.add_mod_mod,
    Nat.mod_mod_of_dvd _ hdvd, Nat.add_mul_mod_self_left]

/-- A sector that a cluster starts with has the offset of a block only if the block starts
its cluster and the number of the sector has 32 bits. -/
theorem starts_of_offset (hs : sb.sectorsPerClusterExponent.toNat < 32)
    (hnumber : 2 ≤ (sb.blockCluster clusters j).toNat) {x : U32}
    (h : (sb.clusterLba x).toNat * 2 ^ sb.bytesPerSectorExponent.toNat =
      sb.blockOffset clusters j) :
    4096 * j % sb.clusterSize = 0 ∧ sb.sectorOf (sb.blockCluster clusters j) < 2 ^ 32 ∧
      sb.clusterLba x = sb.clusterLba (sb.blockCluster clusters j) := by
  have hlt := (sb.clusterLba x).isLt
  have hmod := clusterLba_mod hs x
  have hsize : 4096 * j % sb.clusterSize < sb.clusterSize :=
    Nat.mod_lt _ (Nat.mul_pos (Nat.two_pow_pos _) (Nat.two_pow_pos _))
  rw [blockOffset, clusterByte] at h
  have hr : 4096 * j % sb.clusterSize =
      ((sb.clusterLba x).toNat - sb.sectorOf (sb.blockCluster clusters j)) *
        2 ^ sb.bytesPerSectorExponent.toNat := by
    rw [Nat.sub_mul]
    omega
  have hle : sb.sectorOf (sb.blockCluster clusters j) ≤ (sb.clusterLba x).toNat := by
    refine Nat.le_of_mul_le_mul_right (c := 2 ^ sb.bytesPerSectorExponent.toNat) ?_
      (Nat.two_pow_pos _)
    omega
  have hq : (sb.clusterLba x).toNat - sb.sectorOf (sb.blockCluster clusters j) <
      2 ^ sb.sectorsPerClusterExponent.toNat := by
    rw [hr, clusterSize] at hsize
    exact Nat.lt_of_mul_lt_mul_right hsize
  have hsector : (sb.clusterLba x).toNat = sb.sectorOf (sb.blockCluster clusters j) := by
    have hdvd := Nat.sub_mod_eq_zero_of_mod_eq hmod
    have hsplit : (sb.clusterLba x).toNat - sb.clusterHeapOffset.toNat =
        (sb.clusterLba x).toNat - sb.sectorOf (sb.blockCluster clusters j) +
          2 ^ sb.sectorsPerClusterExponent.toNat * ((sb.blockCluster clusters j).toNat - 2) := by
      rw [sectorOf] at hle ⊢
      omega
    rw [hsplit, Nat.add_mul_mod_self_left, Nat.mod_eq_of_lt hq] at hdvd
    omega
  have hfits : sb.sectorOf (sb.blockCluster clusters j) < 2 ^ 32 := hsector ▸ hlt
  refine ⟨?_, hfits, ?_⟩
  · rw [hr, hsector, Nat.sub_self, Nat.zero_mul]
  · refine BitVec.eq_of_toNat_eq ?_
    rw [hsector, clusterLba_of_fits hs hnumber hfits]

end ExfatSuperblock

def blocks (fileLength : U64) : Nat := (fileLength.toNat + 4095) / 4096

theorem blocks_lt_iff {fileLength : U64} {j : Nat} :
    j < blocks fileLength ↔ 4096 * j < fileLength.toNat := by
  rw [blocks]
  omega

/-- From a block on, each starts a cluster, the FAT leads from one to the next, and the loop
ends after the last. -/
structure BlocksFollow (sb : ExfatSuperblock) (fat : U32 → U32) (clusters : List U32)
    (fileLength : U64) (first : Nat) : Prop where
  start : ∀ j, first ≤ j → j < blocks fileLength → 4096 * j % sb.clusterSize = 0
  fits : ∀ j, first ≤ j → j < blocks fileLength →
    sb.sectorOf (sb.blockCluster clusters j) < 2 ^ 32
  next : ∀ j, first ≤ j → j + 1 < blocks fileLength →
    endsChain (fat (sb.blockCluster clusters j)) = false ∧
      sb.clusterLba (fat (sb.blockCluster clusters j)) =
        sb.clusterLba (sb.blockCluster clusters (j + 1))
  last : ∀ j, first ≤ j → j + 1 = blocks fileLength → fileLength.toNat ≤ 2 ^ 32 - 4096 ∨
    endsChain (fat (sb.blockCluster clusters j)) = true

/-- From a block on, the list has one entry for each, with the offset of its first byte. -/
structure PiecesRight (sb : ExfatSuperblock) (clusters : List U32) (fileLength : U64)
    (first : Nat) (pieces : List ExfatFileCluster) : Prop where
  length : pieces.length = blocks fileLength - first
  offset : ∀ j, (h : j < pieces.length) →
    pieces[j].deviceOffset.toNat = sb.blockOffset clusters (first + j)

theorem deviceOffset_toNat {sb : ExfatSuperblock} (hb : sb.bytesPerSectorExponent.toNat ≤ 12)
    (lba : U32) :
    (lba.setWidth 64 <<< sb.bytesPerSectorExponent.toNat : U64).toNat =
      lba.toNat * 2 ^ sb.bytesPerSectorExponent.toNat := by
  have hlt := lba.isLt
  have hpow : (2 : Nat) ^ sb.bytesPerSectorExponent.toNat ≤ 2 ^ 12 :=
    Nat.pow_le_pow_right (by decide) hb
  have hmul := Nat.mul_le_mul (Nat.le_of_lt hlt) hpow
  rw [BitVec.toNat_shiftLeft, Nat.shiftLeft_eq, BitVec.toNat_setWidth,
    Nat.mod_eq_of_lt (a := lba.toNat) (by omega)]
  omega

section

variable {sb : ExfatSuperblock} {clusters : List U32} {fileLength : U64} {fat read : U32 → U32}
  {fuel j : Nat} {byteOffset lba : U32}

theorem continues_iff (h : byteOffset.toNat = 4096 * j % 2 ^ 32) :
    byteOffset.setWidth 64 < fileLength ↔ 4096 * j % 2 ^ 32 < fileLength.toNat := by
  have hlt := byteOffset.isLt
  rw [BitVec.lt_def, BitVec.toNat_setWidth, ← h]
  omega

theorem byteOffset_next (h : byteOffset.toNat = 4096 * j % 2 ^ 32) :
    (byteOffset + 4096).toNat = 4096 * (j + 1) % 2 ^ 32 := by
  rw [BitVec.toNat_add, h]
  change (4096 * j % 2 ^ 32 + 4096) % 2 ^ 32 = _
  omega

/-- The counter passes the end of the file unless it wraps before. -/
theorem stops_iff (hj : j + 1 = blocks fileLength)
    (h : byteOffset.toNat = 4096 * (j + 1) % 2 ^ 32) :
    ¬byteOffset.setWidth 64 < fileLength ↔ fileLength.toNat ≤ 2 ^ 32 - 4096 := by
  rw [continues_iff h]
  rw [blocks] at hj
  omega

theorem filePieces_stopped (h : ¬byteOffset.setWidth 64 < fileLength) :
    filePieces sb read fileLength (fuel + 1) byteOffset lba = some [] := by
  rw [filePieces, if_neg h]

theorem filePieces_eq_nil (h : filePieces sb read fileLength fuel byteOffset lba = some []) :
    ¬byteOffset.setWidth 64 < fileLength := by
  intro hlt
  cases fuel with
  | zero => cases h
  | succ fuel =>
    rw [filePieces, if_pos hlt] at h
    dsimp only at h
    split at h
    · cases h
    · obtain ⟨pieces, -, hcons⟩ := Option.map_eq_some_iff.mp h
      cases hcons

theorem PiecesRight.tail {c : ExfatFileCluster} {pieces : List ExfatFileCluster}
    (h : PiecesRight sb clusters fileLength j (c :: pieces)) :
    PiecesRight sb clusters fileLength (j + 1) pieces where
  length := by
    have hlength := h.length
    rw [List.length_cons] at hlength
    omega
  offset i hi := by
    have hoffset := h.offset (i + 1) (Nat.succ_lt_succ hi)
    rw [List.getElem_cons_succ] at hoffset
    rw [hoffset, Nat.add_assoc, Nat.add_comm 1]

theorem BlocksFollow.single (hlast : j + 1 = blocks fileLength)
    (hstart : 4096 * j % sb.clusterSize = 0)
    (hfits : sb.sectorOf (sb.blockCluster clusters j) < 2 ^ 32)
    (hends : fileLength.toNat ≤ 2 ^ 32 - 4096 ∨
      endsChain (fat (sb.blockCluster clusters j)) = true) :
    BlocksFollow sb fat clusters fileLength j := by
  have honly : ∀ i, j ≤ i → i < blocks fileLength → i = j := by omega
  constructor
  · intro i hi hi'
    rw [honly i hi hi']
    exact hstart
  · intro i hi hi'
    rw [honly i hi hi']
    exact hfits
  · intro i hi hi'
    omega
  · intro i hi hi'
    rw [honly i hi (by omega)]
    exact hends

theorem BlocksFollow.cons (hmore : j + 1 < blocks fileLength)
    (h : BlocksFollow sb fat clusters fileLength (j + 1))
    (hstart : 4096 * j % sb.clusterSize = 0)
    (hfits : sb.sectorOf (sb.blockCluster clusters j) < 2 ^ 32)
    (hends : endsChain (fat (sb.blockCluster clusters j)) = false)
    (hnext : sb.clusterLba (fat (sb.blockCluster clusters j)) =
      sb.clusterLba (sb.blockCluster clusters (j + 1))) :
    BlocksFollow sb fat clusters fileLength j := by
  have hsplit : ∀ i, j ≤ i → i = j ∨ j + 1 ≤ i := by omega
  constructor
  · intro i hi hi'
    rcases hsplit i hi with rfl | hi
    · exact hstart
    · exact h.start i hi hi'
  · intro i hi hi'
    rcases hsplit i hi with rfl | hi
    · exact hfits
    · exact h.fits i hi hi'
  · intro i hi hi'
    rcases hsplit i hi with rfl | hi
    · exact ⟨hends, hnext⟩
    · exact h.next i hi hi'
  · intro i hi hi'
    exact h.last i (by omega) hi'

theorem BlocksFollow.tail (h : BlocksFollow sb fat clusters fileLength j) :
    BlocksFollow sb fat clusters fileLength (j + 1) where
  start i hi := h.start i (by omega)
  fits i hi := h.fits i (by omega)
  next i hi := h.next i (by omega)
  last i hi := h.last i (by omega)

/-- A right list shows that the blocks follow one another. -/
theorem follow_of_pieces (hs : sb.sectorsPerClusterExponent.toNat < 32)
    (hb : sb.bytesPerSectorExponent.toNat ≤ 12)
    (hnumber : ∀ j < blocks fileLength, 2 ≤ (sb.blockCluster clusters j).toNat)
    (hread : ∀ j < blocks fileLength, sb.sectorOf (sb.blockCluster clusters j) < 2 ^ 32 →
      read (sb.clusterLba (sb.blockCluster clusters j)) = fat (sb.blockCluster clusters j))
    {x : U32} {pieces : List ExfatFileCluster} (hoffset : byteOffset.toNat = 4096 * j % 2 ^ 32)
    (hrun : filePieces sb read fileLength fuel byteOffset (sb.clusterLba x) = some pieces)
    (hright : PiecesRight sb clusters fileLength j pieces) (hj : j < blocks fileLength) :
    sb.clusterLba x = sb.clusterLba (sb.blockCluster clusters j) ∧
      BlocksFollow sb fat clusters fileLength j := by
  induction fuel generalizing j byteOffset x pieces with
  | zero => cases hrun
  | succ fuel ih =>
    have hlt := blocks_lt_iff.mp hj
    rw [filePieces, if_pos ((continues_iff hoffset).mpr (by omega))] at hrun
    dsimp only at hrun
    have hhead : ∀ rest, pieces = ⟨byteOffset,
        (sb.clusterLba x).setWidth 64 <<< sb.bytesPerSectorExponent.toNat⟩ :: rest →
        4096 * j % sb.clusterSize = 0 ∧ sb.sectorOf (sb.blockCluster clusters j) < 2 ^ 32 ∧
          sb.clusterLba x = sb.clusterLba (sb.blockCluster clusters j) := by
      rintro rest rfl
      have hfirst := hright.offset 0 (Nat.zero_lt_succ _)
      rw [List.getElem_cons_zero, deviceOffset_toNat hb] at hfirst
      exact ExfatSuperblock.starts_of_offset hs (hnumber j hj) hfirst
    by_cases hends : endsChain (read (sb.clusterLba x)) = true
    · rw [if_pos hends] at hrun
      obtain rfl := Option.some.inj hrun
      obtain ⟨hstart, hfits, hlba⟩ := hhead [] rfl
      have hlast : j + 1 = blocks fileLength := by
        have hlength := hright.length
        rw [List.length_singleton] at hlength
        omega
      rw [hlba, hread j hj hfits] at hends
      exact ⟨hlba, .single hlast hstart hfits (.inr hends)⟩
    · rw [if_neg hends] at hrun
      obtain ⟨rest, hrest, rfl⟩ := Option.map_eq_some_iff.mp hrun
      obtain ⟨hstart, hfits, hlba⟩ := hhead rest rfl
      have hword := hread j hj hfits
      rw [hlba, hword] at hends hrest
      by_cases hmore : j + 1 < blocks fileLength
      · obtain ⟨hnext, hfollow⟩ := ih (byteOffset_next hoffset) hrest hright.tail hmore
        exact ⟨hlba, .cons hmore hfollow hstart hfits (Bool.eq_false_iff.mpr hends) hnext⟩
      · have hlast : j + 1 = blocks fileLength := by omega
        have hnil : rest = [] := by
          refine List.eq_nil_of_length_eq_zero ?_
          have hlength := hright.tail.length
          omega
        rw [hnil] at hrest
        have hshort := (stops_iff hlast (byteOffset_next hoffset)).mp (filePieces_eq_nil hrest)
        exact ⟨hlba, .single hlast hstart hfits (.inl hshort)⟩

theorem PiecesRight.cons (byteOffset : U32) (hb : sb.bytesPerSectorExponent.toNat ≤ 12)
    (hs : sb.sectorsPerClusterExponent.toNat < 32) (hj : j < blocks fileLength)
    (hnumber : 2 ≤ (sb.blockCluster clusters j).toNat)
    (hstart : 4096 * j % sb.clusterSize = 0)
    (hfits : sb.sectorOf (sb.blockCluster clusters j) < 2 ^ 32)
    (pieces : List ExfatFileCluster) (h : PiecesRight sb clusters fileLength (j + 1) pieces) :
    PiecesRight sb clusters fileLength j (⟨byteOffset,
      (sb.clusterLba (sb.blockCluster clusters j)).setWidth 64 <<<
        sb.bytesPerSectorExponent.toNat⟩ :: pieces) where
  length := by
    rw [List.length_cons, h.length]
    omega
  offset i hi := by
    cases i with
    | zero =>
      rw [List.getElem_cons_zero, deviceOffset_toNat hb,
        ExfatSuperblock.clusterLba_of_fits hs hnumber hfits, Nat.add_zero,
        ExfatSuperblock.blockOffset, hstart, Nat.add_zero, ExfatSuperblock.clusterByte]
    | succ i =>
      rw [List.getElem_cons_succ, h.offset i (Nat.lt_of_succ_lt_succ hi), Nat.add_assoc,
        Nat.add_comm 1]

/-- Where the blocks follow one another the list is right. -/
theorem pieces_of_follow (hs : sb.sectorsPerClusterExponent.toNat < 32)
    (hb : sb.bytesPerSectorExponent.toNat ≤ 12)
    (hnumber : ∀ j < blocks fileLength, 2 ≤ (sb.blockCluster clusters j).toNat)
    (hread : ∀ j < blocks fileLength, sb.sectorOf (sb.blockCluster clusters j) < 2 ^ 32 →
      read (sb.clusterLba (sb.blockCluster clusters j)) = fat (sb.blockCluster clusters j))
    (hoffset : byteOffset.toNat = 4096 * j % 2 ^ 32) (hfuel : blocks fileLength < fuel + j)
    (h : BlocksFollow sb fat clusters fileLength j) (hj : j < blocks fileLength) :
    ∃ pieces, filePieces sb read fileLength fuel byteOffset
        (sb.clusterLba (sb.blockCluster clusters j)) = some pieces ∧
      PiecesRight sb clusters fileLength j pieces := by
  induction fuel generalizing j byteOffset with
  | zero => omega
  | succ fuel ih =>
    have hlt := blocks_lt_iff.mp hj
    have hstart := h.start j (Nat.le_refl j) hj
    have hfits := h.fits j (Nat.le_refl j) hj
    have hcons := PiecesRight.cons byteOffset hb hs hj (hnumber j hj) hstart hfits
    rw [filePieces, if_pos ((continues_iff hoffset).mpr (by omega))]
    dsimp only
    rw [hread j hj hfits]
    by_cases hmore : j + 1 < blocks fileLength
    · obtain ⟨hends, hnext⟩ := h.next j (Nat.le_refl j) hmore
      obtain ⟨pieces, hrun, hright⟩ := ih (byteOffset_next hoffset) (by omega) h.tail hmore
      rw [if_neg (Bool.eq_false_iff.mp hends), hnext, hrun]
      exact ⟨_, rfl, hcons pieces hright⟩
    · have hlast : j + 1 = blocks fileLength := by omega
      have hnil : PiecesRight sb clusters fileLength (j + 1) [] :=
        ⟨by rw [List.length_nil]; omega, fun _ hi => absurd hi (Nat.not_lt_zero _)⟩
      by_cases hends : endsChain (fat (sb.blockCluster clusters j)) = true
      · rw [if_pos hends]
        exact ⟨_, rfl, hcons [] hnil⟩
      · have hshort := (h.last j (Nat.le_refl j) hlast).resolve_right hends
        have hstops := (stops_iff hlast (byteOffset_next hoffset)).mpr hshort
        obtain ⟨fuel, rfl⟩ : ∃ n, fuel = n + 1 := Nat.exists_eq_succ_of_ne_zero (by omega)
        rw [if_neg hends, filePieces_stopped hstops]
        exact ⟨_, rfl, hcons [] hnil⟩

end

namespace FsKernel

variable {k k' : FsKernel} {sb : ExfatSuperblock} {p : NvmepartDevice} {i : U64}
  {noFatChain : Bool} {clusters : List U32} {fuel : Nat}

/-- The number in the FAT that the loader takes for the one behind a cluster. Its offset is
computed with 32 bits. -/
def fatWord (k : FsKernel) (sb : ExfatSuperblock) (p : NvmepartDevice) (cluster : U32) : U32 :=
  k.volumeWord p (sb.fatByte cluster % 2 ^ 32)

/-- A regular file and the clusters that it has on its volume, either linked by the FAT or
in one piece. -/
structure FileOn (k : FsKernel) (sb : ExfatSuperblock) (p : NvmepartDevice) (i : U64)
    (noFatChain : Bool) (clusters : List U32) : Prop where
  addressable : p.Addressable
  sectorSize : 9 ≤ sb.bytesPerSectorExponent.toNat ∧ sb.bytesPerSectorExponent.toNat ≤ 12
  clusterSize : sb.bytesPerSectorExponent.toNat + sb.sectorsPerClusterExponent.toNat ≤ 25
  numbers : ∀ c ∈ clusters, 2 ≤ c.toNat ∧ c.toNat < 0xFFFFFFF7
  fat : ∀ c ∈ clusters, p.firstByte + sb.fatByte c + 4 ≤ p.endByte
  covers : (k.fileLengths i).toNat ≤ clusters.length * sb.clusterSize
  nodup : clusters.Nodup
  linked : noFatChain = false → clusters ≠ [] → k.Linked sb p clusters
  contiguous : noFatChain = true → ∀ n, (h : n + 1 < clusters.length) →
    clusters[n + 1].toNat = clusters[n].toNat + 1
  start : ∀ c ∈ clusters.head?,
    (k.exfatInodes.objects (k.inode i).privateData).exfatStartLba = sb.clusterLba c

/-- The list that was built for the file is the right one. -/
def FileRight (k k' : FsKernel) (sb : ExfatSuperblock) (i : U64) (clusters : List U32) : Prop :=
  ∃ slots, (k'.exfatInodes.objects (k.inode i).privateData).fileClusters =
      (k.exfatInodes.objects (k.inode i).privateData).fileClusters ++ slots ∧
    PiecesRight sb clusters (k.fileLengths i) 0 (slots.map k'.exfatFileClusters.objects)

/-- Loading a file leaves the list that `filePieces` gives, as far as the memory lasts. -/
theorem exfatLoadFileInode_eq (sb : ExfatSuperblock) (p : NvmepartDevice) (i : U64)
    (clusters : List U32) (fuel : Nat) (hslabs : k.Slabs) :
    k.exfatLoadFileInode fuel sb p i = .error outOfMemory ∨
      match filePieces sb (k.readFatEntry sb p) (k.fileLengths i) fuel 0
        (k.exfatInodes.objects (k.inode i).privateData).exfatStartLba with
      | none => k.exfatLoadFileInode fuel sb p i = .error .endless
      | some pieces => ∃ k', k.exfatLoadFileInode fuel sb p i = .ok k' ∧
        (FileRight k k' sb i clusters ↔ PiecesRight sb clusters (k.fileLengths i) 0 pieces) := by
  rw [exfatLoadFileInode]
  rcases loadFileClusters_eq sb p (k.inode i).privateData (k.fileLengths i) fuel 0
    (k.exfatInodes.objects (k.inode i).privateData).exfatStartLba hslabs with hmemory | hrun
  · rw [hmemory]
    exact .inl rfl
  · right
    cases hpieces : filePieces sb (k.readFatEntry sb p) (k.fileLengths i) fuel 0
      (k.exfatInodes.objects (k.inode i).privateData).exfatStartLba with
    | none =>
      rw [hpieces] at hrun
      rw [hrun]
      rfl
    | some pieces =>
      rw [hpieces] at hrun
      obtain ⟨k₁, slots, hload, hadded⟩ := hrun
      rw [hload]
      refine ⟨_, rfl, ?_⟩
      have hlist : ((k₁.modifyExfatInode (k.inode i).privateData fun e =>
          { e with loadNeeded := false }).exfatInodes.objects
            (k.inode i).privateData).fileClusters =
          (k.exfatInodes.objects (k.inode i).privateData).fileClusters ++ slots := by
        rw [modifyExfatInode, Slab.modify_objects_self, ← hadded.list]
      constructor
      · rintro ⟨slots', hlist', hright⟩
        obtain rfl : slots = slots' := List.append_cancel_left (hlist.symm.trans hlist')
        rw [← hadded.objects]
        exact hright
      · intro hright
        refine ⟨slots, hlist, ?_⟩
        rw [← hadded.objects] at hright
        exact hright

namespace FileOn

theorem sectors_lt (h : FileOn k sb p i noFatChain clusters) :
    sb.sectorsPerClusterExponent.toNat < 32 := by
  have hsize := h.clusterSize
  omega

theorem index_lt (h : FileOn k sb p i noFatChain clusters) {j : Nat}
    (hj : j < blocks (k.fileLengths i)) : 4096 * j / sb.clusterSize < clusters.length := by
  refine Nat.div_lt_of_lt_mul (Nat.lt_of_lt_of_le (blocks_lt_iff.mp hj) ?_)
  rw [Nat.mul_comm]
  exact h.covers

theorem blockCluster_eq (h : FileOn k sb p i noFatChain clusters) {j : Nat}
    (hj : j < blocks (k.fileLengths i)) :
    clusters[4096 * j / sb.clusterSize]? = some (sb.blockCluster clusters j) := by
  rw [ExfatSuperblock.blockCluster, List.getD, List.getElem?_eq_getElem (h.index_lt hj),
    Option.getD_some]

theorem blockCluster_mem (h : FileOn k sb p i noFatChain clusters) {j : Nat}
    (hj : j < blocks (k.fileLengths i)) : sb.blockCluster clusters j ∈ clusters :=
  List.mem_of_getElem? (h.blockCluster_eq hj)

theorem readFatEntry (h : FileOn k sb p i noFatChain clusters) {c : U32} (hc : c ∈ clusters)
    (hfits : sb.sectorOf c < 2 ^ 32) :
    k.readFatEntry sb p (sb.clusterLba c) = k.fatWord sb p c := by
  have hoffset := ExfatSuperblock.fatEntryByteOffset_toNat h.sectors_lt (h.numbers c hc).1 hfits
  have hend := h.fat c hc
  have hle := Nat.mod_le (sb.fatByte c) (2 ^ 32)
  have hfour : sb.fatByte c % 4 = 0 := by
    have hdvd : 2 ^ 2 ∣ 2 ^ sb.bytesPerSectorExponent.toNat :=
      Nat.pow_dvd_pow 2 (Nat.le_trans (by decide) h.sectorSize.1)
    exact Nat.mod_eq_zero_of_dvd (Nat.dvd_add (Nat.dvd_mul_left_of_dvd hdvd _)
      (Nat.dvd_mul_right 4 _))
  have hroom : sb.fatByte c % 2 ^ 32 + 4 ≤ 2 ^ 32 := by omega
  rw [readFatEntry_eq h.addressable (by rw [hoffset]; exact hroom) (by omega), hoffset]
  rfl

/-- The list of pieces is right exactly if the blocks follow one another. -/
theorem pieces_iff (h : FileOn k sb p i noFatChain clusters)
    (hfuel : blocks (k.fileLengths i) < fuel) :
    (∃ pieces, filePieces sb (k.readFatEntry sb p) (k.fileLengths i) fuel 0
        (k.exfatInodes.objects (k.inode i).privateData).exfatStartLba = some pieces ∧
      PiecesRight sb clusters (k.fileLengths i) 0 pieces) ↔
      BlocksFollow sb (k.fatWord sb p) clusters (k.fileLengths i) 0 := by
  have hnumber : ∀ j < blocks (k.fileLengths i), 2 ≤ (sb.blockCluster clusters j).toNat :=
    fun j hj => (h.numbers _ (h.blockCluster_mem hj)).1
  have hread : ∀ j < blocks (k.fileLengths i),
      sb.sectorOf (sb.blockCluster clusters j) < 2 ^ 32 →
      k.readFatEntry sb p (sb.clusterLba (sb.blockCluster clusters j)) =
        k.fatWord sb p (sb.blockCluster clusters j) :=
    fun j hj hfits => h.readFatEntry (h.blockCluster_mem hj) hfits
  by_cases hempty : blocks (k.fileLengths i) = 0
  · have hstops : ¬(0 : U32).setWidth 64 < k.fileLengths i := by
      have hzero := blocks_lt_iff.not.mp (Nat.not_lt.mpr (Nat.le_of_eq hempty))
      rw [continues_iff (j := 0) rfl]
      omega
    obtain ⟨fuel, rfl⟩ : ∃ n, fuel = n + 1 := Nat.exists_eq_succ_of_ne_zero (by omega)
    rw [filePieces_stopped hstops]
    refine iff_of_true ⟨[], rfl, ⟨?_, fun _ hj => absurd hj (Nat.not_lt_zero _)⟩⟩ ?_
    · rw [hempty, List.length_nil]
    · constructor <;> intros <;> omega
  · have hpos : 0 < blocks (k.fileLengths i) := Nat.pos_of_ne_zero hempty
    have hstart : (k.exfatInodes.objects (k.inode i).privateData).exfatStartLba =
        sb.clusterLba (sb.blockCluster clusters 0) := by
      refine h.start _ ?_
      have hfirst := h.blockCluster_eq hpos
      rw [Nat.mul_zero, Nat.zero_div, ← List.head?_eq_getElem?] at hfirst
      exact hfirst
    rw [hstart]
    constructor
    · rintro ⟨pieces, hrun, hright⟩
      exact (follow_of_pieces h.sectors_lt h.sectorSize.2 hnumber hread rfl hrun hright hpos).2
    · intro hfollow
      exact pieces_of_follow h.sectors_lt h.sectorSize.2 hnumber hread rfl (by omega) hfollow hpos

end FileOn

theorem Linked.next {cs : List U32} (h : k.Linked sb p cs) {n : Nat} {c c' : U32}
    (hc : cs[n]? = some c) (hc' : cs[n + 1]? = some c') :
    k.volumeWord p (sb.fatByte c) = c' := by
  induction n generalizing cs with
  | zero =>
    match cs, h with
    | [_], _ => cases hc'
    | a :: b :: cs, h =>
      obtain rfl := Option.some.inj hc
      obtain rfl := Option.some.inj hc'
      exact h.1
  | succ n ih =>
    match cs, h with
    | [_], _ => cases hc'
    | a :: b :: cs, h => exact ih h.2 hc hc'

theorem clusterLba_inj (hs : sb.sectorsPerClusterExponent.toNat < 32) {c c' : U32}
    (hc : 2 ≤ c.toNat) (hc' : 2 ≤ c'.toNat) (hfits : sb.sectorOf c < 2 ^ 32)
    (hfits' : sb.sectorOf c' < 2 ^ 32) (h : sb.clusterLba c = sb.clusterLba c') : c = c' := by
  rw [← ExfatSuperblock.clusterIndex_clusterLba hs hc hfits, h,
    ExfatSuperblock.clusterIndex_clusterLba hs hc' hfits']

/-- The FAT only leads from block to block where the clusters have the size of a block. -/
theorem FileOn.follow_iff (h : FileOn k sb p i false clusters)
    (hfits : ∀ c ∈ clusters, sb.sectorOf c < 2 ^ 32 ∧ sb.fatByte c < 2 ^ 32)
    (hshort : (k.fileLengths i).toNat ≤ 2 ^ 32 - 4096) :
    BlocksFollow sb (k.fatWord sb p) clusters (k.fileLengths i) 0 ↔
      (k.fileLengths i).toNat ≤ 4096 ∨ sb.clusterSize = 4096 := by
  have hword : ∀ c ∈ clusters, k.fatWord sb p c = k.volumeWord p (sb.fatByte c) := by
    intro c hc
    rw [fatWord, Nat.mod_eq_of_lt (hfits c hc).2]
  have hlinked := fun hne => h.linked rfl hne
  constructor
  · intro hfollow
    by_cases hone : (k.fileLengths i).toNat ≤ 4096
    · exact .inl hone
    · right
      have htwo : 1 < blocks (k.fileLengths i) := blocks_lt_iff.mpr (by omega)
      have hdvd : sb.clusterSize ∣ 4096 :=
        Nat.dvd_of_mod_eq_zero (hfollow.start 1 (Nat.zero_le 1) htwo)
      have hpos : 0 < 4096 / sb.clusterSize :=
        Nat.div_pos (Nat.le_of_dvd (by decide) hdvd) (Nat.mul_pos (Nat.two_pow_pos _)
          (Nat.two_pow_pos _))
      have hfirst := h.blockCluster_eq (Nat.lt_of_succ_lt htwo)
      have hsecond := h.blockCluster_eq htwo
      have hlt := h.index_lt htwo
      have hmem := h.blockCluster_mem (Nat.lt_of_succ_lt htwo)
      rw [Nat.mul_zero, Nat.zero_div] at hfirst
      rw [Nat.mul_one] at hsecond hlt
      have hafter : clusters[0 + 1]? = some clusters[1] := List.getElem?_eq_getElem (by omega)
      obtain ⟨-, hnext⟩ := hfollow.next 0 (Nat.le_refl 0) htwo
      rw [hword _ hmem, (hlinked (List.ne_nil_of_mem hmem)).next hfirst hafter] at hnext
      have hsame := clusterLba_inj h.sectors_lt (h.numbers _ (List.getElem_mem _)).1
        (h.numbers _ (h.blockCluster_mem htwo)).1 (hfits _ (List.getElem_mem _)).1
        (hfits _ (h.blockCluster_mem htwo)).1 hnext
      have hindex : 1 = 4096 / sb.clusterSize := by
        refine (List.getElem?_inj (by omega) h.nodup).mp ?_
        rw [hsecond, ← hsame]
        exact hafter
      rw [← Nat.div_mul_cancel hdvd, ← hindex, Nat.one_mul]
  · intro hsize
    have hpos : 0 < sb.clusterSize := Nat.mul_pos (Nat.two_pow_pos _) (Nat.two_pow_pos _)
    have hstart : ∀ j < blocks (k.fileLengths i), 4096 * j % sb.clusterSize = 0 := by
      intro j hj
      rcases hsize with hone | hsize
      · obtain rfl : j = 0 := by
          have hlt := blocks_lt_iff.mp hj
          omega
        exact Nat.zero_mod _
      · rw [hsize, Nat.mul_mod_right]
    constructor
    · exact fun j _ hj => hstart j hj
    · exact fun j _ hj => (hfits _ (h.blockCluster_mem hj)).1
    · intro j _ hj
      have hlt := blocks_lt_iff.mp hj
      have hsize := hsize.resolve_left (by omega)
      have hc := h.blockCluster_eq (Nat.lt_of_succ_lt hj)
      have hc' := h.blockCluster_eq hj
      have hmem := h.blockCluster_mem hj
      rw [hsize, Nat.mul_div_cancel_left _ (by decide)] at hc hc'
      have hnext := (hlinked (List.ne_nil_of_mem hmem)).next hc hc'
      obtain ⟨hlow, hhigh⟩ := h.numbers _ hmem
      rw [hword _ (h.blockCluster_mem (Nat.lt_of_succ_lt hj)), hnext]
      exact ⟨not_endsChain hlow hhigh, rfl⟩
    · exact fun j _ _ => .inl hshort

/-- The list of a file is right exactly if its blocks follow one another. -/
theorem file_blocks_right_iff (hslabs : k.Slabs) (h : FileOn k sb p i noFatChain clusters)
    (hfuel : blocks (k.fileLengths i) < fuel) :
    (k.exfatLoadFileInode fuel sb p i = .error outOfMemory ∨
      ((∃ k', k.exfatLoadFileInode fuel sb p i = .ok k' ∧ FileRight k k' sb i clusters) ↔
        BlocksFollow sb (k.fatWord sb p) clusters (k.fileLengths i) 0)) ∧
    (noFatChain = false →
      (∀ c ∈ clusters, sb.sectorOf c < 2 ^ 32 ∧ sb.fatByte c < 2 ^ 32) →
      (k.fileLengths i).toNat ≤ 2 ^ 32 - 4096 →
      (BlocksFollow sb (k.fatWord sb p) clusters (k.fileLengths i) 0 ↔
        (k.fileLengths i).toNat ≤ 4096 ∨ sb.clusterSize = 4096)) := by
  refine ⟨?_, fun hchain => ?_⟩
  · rcases exfatLoadFileInode_eq sb p i clusters fuel hslabs with hmemory | hrun
    · exact .inl hmemory
    · right
      rw [← h.pieces_iff hfuel]
      split at hrun
      · next hpieces =>
        rw [hpieces, hrun]
        exact iff_of_false (fun ⟨_, hok, _⟩ => by cases hok) fun ⟨_, hsome, _⟩ => by cases hsome
      · next pieces hpieces =>
        obtain ⟨k', hload, hright⟩ := hrun
        rw [hpieces, hload]
        constructor
        · rintro ⟨k'', hok, hfile⟩
          obtain rfl := Except.ok.inj hok
          exact ⟨pieces, rfl, hright.mp hfile⟩
        · rintro ⟨pieces', hsome, hpieces'⟩
          obtain rfl := Option.some.inj hsome
          exact ⟨k', rfl, hright.mpr hpieces'⟩
  · subst hchain
    exact h.follow_iff

/-- A file of two clusters in one piece, for which the FAT has no entries. -/
def contiguousFile : FsKernel :=
  { bare with
    superblocks := fun _ => .exfat smallSuperblock smallPartition
    exfatInodes := Slab.init 24 fun _ => ⟨16, true, []⟩
    fileLengths := fun _ => 8192
    disk := fun _ => 0 }

theorem contiguousFile_slabs : contiguousFile.Slabs :=
  bare_slabs.congr rfl rfl rfl rfl rfl rfl rfl

theorem contiguousFile_start :
    (contiguousFile.exfatInodes.objects
      (contiguousFile.inode rootAddress).privateData).exfatStartLba =
        smallSuperblock.clusterLba 2 := by
  decide +kernel

theorem contiguousFile_on :
    FileOn contiguousFile smallSuperblock smallPartition rootAddress true [2, 3] where
  addressable := ⟨by decide, by decide, by decide, by decide⟩
  sectorSize := by decide
  clusterSize := by decide
  numbers :=
    List.forall_mem_cons.mpr ⟨by decide, List.forall_mem_singleton.mpr (by decide)⟩
  fat :=
    List.forall_mem_cons.mpr ⟨by decide, List.forall_mem_singleton.mpr (by decide)⟩
  covers := by decide +kernel
  nodup := by decide
  linked hh := Bool.noConfusion hh
  contiguous _ n h := by
    obtain rfl : n = 0 := Nat.lt_one_iff.mp (Nat.lt_of_succ_lt_succ h)
    rfl
  start c hc := by
    obtain rfl := Option.mem_some_iff.mp hc
    exact contiguousFile_start

theorem contiguousFile_iff :
    contiguousFile.exfatLoadFileInode 3 smallSuperblock smallPartition rootAddress =
        .error outOfMemory ∨
      ((∃ k', contiguousFile.exfatLoadFileInode 3 smallSuperblock smallPartition rootAddress =
          .ok k' ∧ FileRight contiguousFile k' smallSuperblock rootAddress [2, 3]) ↔
        BlocksFollow smallSuperblock (contiguousFile.fatWord smallSuperblock smallPartition) [2, 3]
          8192 0) :=
  (file_blocks_right_iff contiguousFile_slabs contiguousFile_on (by decide)).1

theorem contiguousFile_short : contiguousFile.Slabs ∧
    FileOn contiguousFile smallSuperblock smallPartition rootAddress true [2, 3] ∧ ∃ k',
    contiguousFile.exfatLoadFileInode 3 smallSuperblock smallPartition rootAddress = .ok k' ∧
      ¬FileRight contiguousFile k' smallSuperblock rootAddress [2, 3] := by
  refine ⟨contiguousFile_slabs, contiguousFile_on, ?_⟩
  have hrun : (contiguousFile.exfatLoadFileInode 3 smallSuperblock smallPartition rootAddress).map
      (fun k' => (k'.exfatInodes.objects 0).fileClusters.length) = .ok 1 := by decide +kernel
  cases hload : contiguousFile.exfatLoadFileInode 3 smallSuperblock smallPartition rootAddress with
  | error c =>
    rw [hload] at hrun
    cases hrun
  | ok k' =>
    refine ⟨k', rfl, ?_⟩
    rintro ⟨slots, hlist, hright⟩
    rw [hload] at hrun
    have hone : (k'.exfatInodes.objects 0).fileClusters.length = 1 := Except.ok.inj hrun
    have hlist : (k'.exfatInodes.objects 0).fileClusters = [] ++ slots := hlist
    have htwo : (slots.map k'.exfatFileClusters.objects).length = 2 := hright.length
    rw [hlist, List.nil_append] at hone
    rw [List.length_map, hone] at htwo
    cases htwo

end FsKernel

end Persistos
