import Persistos.Exfat

/-! Which bytes of the device an exFAT transfer moves. The loops take the first
cluster of the list for the first page of the transfer, wherever it starts. -/

namespace Persistos

open Theory

/-- An inode whose cluster list covers the file. -/
structure CoveredInode extends ExfatInode where
  count : fileClusters.length = (fileLength.toNat + 4095) / 4096
  byteOffset : ∀ k, (h : k < fileClusters.length) → fileClusters[k].byteOffset.toNat = 4096 * k

namespace CoveredInode

variable (inode : CoveredInode)

def deviceOffset (k : Nat) : U64 :=
  ((inode.fileClusters[k]?).map ExfatFileCluster.deviceOffset).getD 0

def fileAddress (i : Nat) : U64 := inode.deviceOffset (i / 4096) + BitVec.ofNat 64 (i % 4096)

def sliceLength (offset length : U64) : Nat :=
  min length.toNat (inode.fileLength.toNat - offset.toNat)

def fileSlice (offset length : U64) : List U64 :=
  (List.range (inode.sliceLength offset length)).map fun i => inode.fileAddress (offset.toNat + i)

def visited (offset length : U64) : List U64 :=
  exfatVisited inode.fileLength length inode.fileClusters offset 0

/-- The address that the loops use for byte `i` of the transfer. -/
def walkAddress (offset : U64) (i : Nat) : U64 :=
  inode.deviceOffset ((offset.toNat % 4096 + i) / 4096) +
    BitVec.ofNat 64 ((offset.toNat + i) % 4096)

end CoveredInode

/-- A read delivers the bytes of the file, and a write changes them and no
others, whatever the device holds. -/
structure ExfatIoRight (inode : CoveredInode) (offset length : U64) : Prop where
  read : ∀ content, (exfatRead wholeDevice content inode.toExfatInode offset length).bytes =
    gather content (inode.fileSlice offset length)
  totalBytesRead : ∀ content,
    (exfatRead wholeDevice content inode.toExfatInode offset length).totalBytesRead =
      BitVec.ofNat 64 (inode.sliceLength offset length)
  write : ∀ content buffer,
    (exfatWrite wholeDevice content inode.toExfatInode offset buffer length).device =
      scatter content (inode.fileSlice offset length)
        (slice buffer 0 (inode.sliceLength offset length))
  totalBytesWritten : ∀ content buffer,
    (exfatWrite wholeDevice content inode.toExfatInode offset buffer length).totalBytesWritten =
      BitVec.ofNat 64 (inode.sliceLength offset length)

theorem exfatIoRight_iff_visited (inode : CoveredInode) (offset length : U64) :
    ExfatIoRight inode offset length ↔
      inode.visited offset length = inode.fileSlice offset length := by
  have hread : ∀ content, (exfatRead wholeDevice content inode.toExfatInode offset length).bytes =
      gather content (inode.visited offset length) :=
    fun content => exfatReadClusters_bytes content _ _ _ _ []
  constructor
  · intro h
    have : Nontrivial U8 := ⟨0, 1, by decide⟩
    apply eq_of_gather_eq (β := U8)
    intro content
    rw [← hread, h.read]
  · intro h
    have hlen : (inode.visited offset length).length = inode.sliceLength offset length := by
      simp [h, CoveredInode.fileSlice]
    have hwrite := fun content buffer => exfatWriteClusters_whole content inode.fileLength buffer
      length inode.fileClusters offset (show (0 : U64) ≤ length from Nat.zero_le _)
    constructor
    · intro content
      rw [hread, h]
    · intro content
      rw [ExfatRead.totalBytesRead, hread, gather, List.length_map, hlen]
    · intro content buffer
      rw [← hlen, ← h]
      exact (hwrite content buffer).1
    · intro content buffer
      rw [← hlen]
      exact (hwrite content buffer).2.trans (BitVec.zero_add _)

theorem exfatPageOffset_toNat {cluster : ExfatFileCluster} {offset : U64} {k : Nat}
    (hk : cluster.byteOffset.toNat = 4096 * k) (hle : 4096 * k ≤ offset.toNat) :
    (exfatPageOffset cluster offset).toNat = offset.toNat % 4096 := by
  have hh : (offset - cluster.byteOffset.setWidth 64).toNat = offset.toNat - 4096 * k := by
    have hw : (cluster.byteOffset.setWidth 64).toNat = 4096 * k := by
      rw [BitVec.toNat_setWidth, hk]
      omega
    bv_omega
  rw [exfatPageOffset, BitVec.toNat_setWidth, BitVec.toNat_umod, hh]
  change (offset.toNat - 4096 * k) % 4096 % 65536 = _
  omega

theorem exfatBytesToMove_toNat (fileLength offset : U64) {length done : U64} {pageOffset : U16}
    (hd : done ≤ length) (hp : pageOffset.toNat < 4096) :
    (exfatBytesToMove fileLength length done offset pageOffset).toNat =
      min (min (length.toNat - done.toNat) (4096 - pageOffset.toNat))
        (fileLength - offset).toNat := by
  have hleft : (length - done).toNat = length.toNat - done.toNat := by bv_omega
  have hpage : (4096 - pageOffset.setWidth 64 : U64).toNat = 4096 - pageOffset.toNat := by
    have hw : (pageOffset.setWidth 64).toNat = pageOffset.toNat := by
      rw [BitVec.toNat_setWidth]
      omega
    bv_omega
  dsimp only [exfatBytesToMove]
  rw [← hleft, ← hpage]
  split <;> split <;> bv_omega

namespace CoveredInode

variable (inode : CoveredInode)

theorem deviceOffset_of_drop {k : Nat} {cluster : ExfatFileCluster} {rest : List ExfatFileCluster}
    (h : inode.fileClusters.drop k = cluster :: rest) :
    inode.deviceOffset k = cluster.deviceOffset ∧ cluster.byteOffset.toNat = 4096 * k ∧
      inode.fileClusters.drop (k + 1) = rest := by
  have hlt : k < inode.fileClusters.length := by
    have := congrArg List.length h
    simp at this
    omega
  rw [List.drop_eq_getElem_cons hlt, List.cons.injEq] at h
  obtain ⟨rfl, rfl⟩ := h
  exact ⟨by simp [deviceOffset, hlt], inode.byteOffset k hlt, rfl⟩

theorem addresses_walk {offset : U64} {t m k : Nat} {pageOffset : U16}
    (hk : (offset.toNat % 4096 + t) / 4096 = k)
    (hp : pageOffset.toNat = (offset.toNat + t) % 4096) (hm : pageOffset.toNat + m ≤ 4096) :
    addresses (inode.deviceOffset k + pageOffset.setWidth 64) m =
      (List.range' t m).map (inode.walkAddress offset) := by
  rw [List.range'_eq_map_range, List.map_map]
  apply List.map_congr_left
  intro i hi
  have hi' := List.mem_range.mp hi
  have hq : (offset.toNat % 4096 + (t + i)) / 4096 = k := by omega
  have hr : (offset.toNat + (t + i)) % 4096 = pageOffset.toNat + i := by omega
  rw [Function.comp, walkAddress, hq, hr, BitVec.ofNat_add, BitVec.add_assoc]
  congr 2
  apply BitVec.eq_of_toNat_eq
  rw [BitVec.toNat_setWidth, BitVec.toNat_ofNat]

theorem pass_bounds {offset length fileLength n t m k : Nat}
    (hn : n = min length (fileLength - offset))
    (hm : m = min (min (length - t) (4096 - (offset + t) % 4096)) (fileLength - (offset + t)))
    (hk : t = n ∨ (offset % 4096 + t) / 4096 = k) (hpos : m ≠ 0) :
    (offset % 4096 + t) / 4096 = k ∧ (offset + t) % 4096 + m ≤ 4096 ∧ t + m ≤ n ∧
      (t + m = n ∨ (offset % 4096 + (t + m)) / 4096 = k + 1) := by
  have hleft : ¬ t = n := by omega
  have hpage := hk.resolve_left hleft
  refine ⟨hpage, by omega, by omega, ?_⟩
  clear hk
  by_cases hend : m = 4096 - (offset + t) % 4096
  · right
    omega
  · left
    omega

/-- The offset in the page and the number of bytes of a pass, after `t` bytes. -/
theorem pass_toNat {offset fileLength length : U64} {cluster : ExfatFileCluster} {k t : Nat}
    (hk : cluster.byteOffset.toNat = 4096 * k) (hlo : 4096 * k ≤ offset.toNat + t)
    (ht : t ≤ length.toNat) (hle : offset.toNat + t ≤ fileLength.toNat) :
    (exfatPageOffset cluster (offset + BitVec.ofNat 64 t)).toNat = (offset.toNat + t) % 4096 ∧
      (exfatBytesToMove fileLength length (BitVec.ofNat 64 t) (offset + BitVec.ofNat 64 t)
          (exfatPageOffset cluster (offset + BitVec.ofNat 64 t))).toNat =
        min (min (length.toNat - t) (4096 - (offset.toNat + t) % 4096))
          (fileLength.toNat - (offset.toNat + t)) := by
  have hlen := length.isLt
  have hfl := fileLength.isLt
  have htn : (BitVec.ofNat 64 t : U64).toNat = t := by
    rw [BitVec.toNat_ofNat]
    omega
  have hoff : (offset + BitVec.ofNat 64 t).toNat = offset.toNat + t := by
    rw [BitVec.toNat_add, htn]
    omega
  have hp := exfatPageOffset_toNat hk (hoff ▸ hlo)
  rw [hoff] at hp
  have hdone : BitVec.ofNat 64 t ≤ length := by
    rw [BitVec.le_def, htn]
    exact ht
  have hpage : (exfatPageOffset cluster (offset + BitVec.ofNat 64 t)).toNat < 4096 :=
    hp ▸ Nat.mod_lt _ (by decide)
  have hm := exfatBytesToMove_toNat fileLength (offset + BitVec.ofNat 64 t) hdone hpage
  have hleft : (fileLength - (offset + BitVec.ofNat 64 t)).toNat =
      fileLength.toNat - (offset.toNat + t) := by
    rw [BitVec.toNat_sub_of_le (by rw [BitVec.le_def, hoff]; exact hle), hoff]
  rw [htn, hleft, hp] at hm
  exact ⟨hp, hm⟩

/-- After `t` bytes the loops either are done or stand at the cluster with the
number of the page that `t` lies in. -/
theorem exfatVisited_drop {offset length : U64} (ho : offset.toNat ≤ inode.fileLength.toNat)
    (clusters : List ExfatFileCluster) {k t : Nat} (hc : inode.fileClusters.drop k = clusters)
    (ht : t ≤ inode.sliceLength offset length)
    (hk : t = inode.sliceLength offset length ∨ (offset.toNat % 4096 + t) / 4096 = k) :
    exfatVisited inode.fileLength length clusters (offset + BitVec.ofNat 64 t)
        (BitVec.ofNat 64 t) =
      (List.range' t (inode.sliceLength offset length - t)).map (inode.walkAddress offset) := by
  have hn : inode.sliceLength offset length =
    min length.toNat (inode.fileLength.toNat - offset.toNat) := rfl
  induction clusters generalizing k t with
  | nil =>
    have hcount := inode.count
    have hlen := List.drop_eq_nil_iff.mp hc
    have hz : inode.sliceLength offset length - t = 0 := by omega
    rw [hz]
    rfl
  | cons cluster rest ih =>
    obtain ⟨hdev, hbyte, hrest⟩ := inode.deviceOffset_of_drop hc
    have hskip : offset + BitVec.ofNat 64 t < cluster.byteOffset.setWidth 64 ↔
        offset.toNat + t < 4096 * k := by
      have hfl := inode.fileLength.isLt
      rw [BitVec.lt_def, BitVec.toNat_add, BitVec.toNat_ofNat, BitVec.toNat_setWidth, hbyte]
      omega
    rw [exfatVisited]
    split
    · next hlt =>
      have hdone : ¬ (offset.toNat % 4096 + t) / 4096 = k := by
        have := hskip.mp hlt
        omega
      exact ih hrest ht (Or.inl (hk.resolve_right hdone))
    · next hlt =>
      obtain ⟨hp, hm⟩ := pass_toNat hbyte (Nat.le_of_not_lt fun h => hlt (hskip.mpr h))
        (Nat.le_trans ht (Nat.min_le_left _ _)) (by omega : _ ≤ inode.fileLength.toNat)
      dsimp only
      generalize exfatBytesToMove inode.fileLength length (BitVec.ofNat 64 t)
        (offset + BitVec.ofNat 64 t) (exfatPageOffset cluster (offset + BitVec.ofNat 64 t)) = bytes
        at hm ⊢
      split
      · next hz =>
        rw [hz] at hm
        have hz' : inode.sliceLength offset length - t = 0 := by
          change 0 = _ at hm
          omega
        rw [hz']
        rfl
      · next hz =>
        have hpos : bytes.toNat ≠ 0 := fun h => hz (BitVec.eq_of_toNat_eq h)
        have hadd : BitVec.ofNat 64 t + bytes = BitVec.ofNat 64 (t + bytes.toNat) := by
          rw [BitVec.ofNat_add, BitVec.ofNat_toNat, BitVec.setWidth_eq]
        obtain ⟨hpage, hfits, hle, hnext⟩ := pass_bounds hn hm hk hpos
        have hsplit : inode.sliceLength offset length - t =
            bytes.toNat + (inode.sliceLength offset length - (t + bytes.toNat)) := by omega
        rw [BitVec.add_assoc, hadd, ih hrest hle hnext, ← hdev,
          inode.addresses_walk hpage hp (hp ▸ hfits), ← List.map_append, List.range'_append_1,
          ← hsplit]

theorem visited_of_le {offset length : U64} (ho : offset.toNat ≤ inode.fileLength.toNat) :
    inode.visited offset length =
      (List.range (inode.sliceLength offset length)).map (inode.walkAddress offset) := by
  have hh := @exfatVisited_drop inode offset length ho inode.fileClusters 0 0 rfl
    (Nat.zero_le _) (Or.inr (by omega))
  rw [Nat.sub_zero, ← List.range_eq_range', BitVec.add_zero] at hh
  exact hh

theorem visited_ne_nil {offset length : U64} (hl : length ≠ 0) (hf : inode.fileLength ≠ 0)
    (ho : offset ≠ inode.fileLength) : inode.visited offset length ≠ [] := by
  have hcount := inode.count
  have hpos : inode.fileLength.toNat ≠ 0 := fun h => hf (BitVec.eq_of_toNat_eq h)
  cases hc : inode.fileClusters with
  | nil =>
    rw [hc, List.length_nil] at hcount
    omega
  | cons cluster rest =>
    obtain ⟨-, hbyte, -⟩ := inode.deviceOffset_of_drop (k := 0) hc
    have hp := exfatPageOffset_toNat (k := 0) hbyte (Nat.zero_le offset.toNat)
    have hpage : (exfatPageOffset cluster offset).toNat < 4096 := by omega
    have hm := exfatBytesToMove_toNat inode.fileLength offset
      (show (0 : U64) ≤ length from Nat.zero_le _) hpage
    have hleft : (inode.fileLength - offset).toNat ≠ 0 := by bv_omega
    have hlen : length.toNat ≠ 0 := fun h => hl (BitVec.eq_of_toNat_eq h)
    have hskip : ¬ offset < cluster.byteOffset.setWidth 64 := by bv_omega
    have hne : exfatBytesToMove inode.fileLength length 0 offset (exfatPageOffset cluster offset)
        ≠ 0 := by
      intro h
      rw [h] at hm
      change 0 = min (min (length.toNat - 0) _) _ at hm
      omega
    intro hnil
    rw [visited, hc, exfatVisited, if_neg hskip] at hnil
    dsimp only at hnil
    rw [if_neg hne, List.append_eq_nil_iff] at hnil
    have hz := congrArg List.length hnil.1
    rw [addresses_length] at hz
    exact hne (BitVec.eq_of_toNat_eq hz)

theorem visited_eq_nil {offset length : U64} (h : length = 0 ∨ inode.fileLength = 0) :
    inode.visited offset length = [] := by
  have hcount := inode.count
  rw [visited]
  cases hc : inode.fileClusters with
  | nil => rfl
  | cons cluster rest =>
    rw [hc, List.length_cons] at hcount
    obtain ⟨-, hbyte, -⟩ := inode.deviceOffset_of_drop (k := 0) hc
    have hskip : ¬ offset < cluster.byteOffset.setWidth 64 := by bv_omega
    rcases h with rfl | h
    · have hz : exfatBytesToMove inode.fileLength 0 0 offset (exfatPageOffset cluster offset) = 0 :=
        BitVec.le_zero_iff.mp (exfatBytesToMove_le _ 0 0 _ _)
      rw [exfatVisited, if_neg hskip]
      dsimp only
      rw [if_pos hz]
    · rw [h] at hcount
      simp at hcount

/-- The first page of the transfer is the first page of the file, or the list
has the same clusters at both places. -/
def InPlace (offset length : U64) : Prop :=
  length = 0 ∨ inode.fileLength = 0 ∨ offset = inode.fileLength ∨
    offset.toNat < inode.fileLength.toNat ∧ ∀ i < inode.sliceLength offset length,
      inode.deviceOffset ((offset.toNat % 4096 + i) / 4096) =
        inode.deviceOffset ((offset.toNat + i) / 4096)

theorem walkAddress_eq_iff (offset : U64) (i : Nat) :
    inode.walkAddress offset i = inode.fileAddress (offset.toNat + i) ↔
      inode.deviceOffset ((offset.toNat % 4096 + i) / 4096) =
        inode.deviceOffset ((offset.toNat + i) / 4096) := BitVec.add_left_inj _

theorem visited_eq_fileSlice_of_le {offset length : U64}
    (ho : offset.toNat ≤ inode.fileLength.toNat) :
    inode.visited offset length = inode.fileSlice offset length ↔
      ∀ i < inode.sliceLength offset length,
        inode.deviceOffset ((offset.toNat % 4096 + i) / 4096) =
          inode.deviceOffset ((offset.toNat + i) / 4096) := by
  rw [inode.visited_of_le ho, fileSlice, List.map_inj_left]
  simp only [List.mem_range, walkAddress_eq_iff]

theorem visited_eq_fileSlice_iff (offset length : U64) :
    inode.visited offset length = inode.fileSlice offset length ↔ inode.InPlace offset length := by
  have hfl : inode.fileLength = 0 ↔ inode.fileLength.toNat = 0 := by
    rw [← BitVec.toNat_inj]
    rfl
  have hlen : length = 0 ↔ length.toNat = 0 := by
    rw [← BitVec.toNat_inj]
    rfl
  have hoff : offset = inode.fileLength ↔ offset.toNat = inode.fileLength.toNat :=
    BitVec.toNat_inj.symm
  have hn : inode.sliceLength offset length =
    min length.toNat (inode.fileLength.toNat - offset.toNat) := rfl
  by_cases ho : offset.toNat ≤ inode.fileLength.toNat
  · rw [inode.visited_eq_fileSlice_of_le ho, InPlace, hlen, hfl, hoff]
    constructor
    · intro h
      by_cases hlt : offset.toNat < inode.fileLength.toNat
      · exact Or.inr (Or.inr (Or.inr ⟨hlt, h⟩))
      · omega
    · intro hmem
      rcases hmem with h | h | h | ⟨-, h⟩
      · intro i hi
        omega
      · intro i hi
        omega
      · intro i hi
        omega
      · exact h
  · have hslice : inode.fileSlice offset length = [] := by
      have hz : inode.sliceLength offset length = 0 := by omega
      rw [fileSlice, hz]
      rfl
    rw [hslice]
    constructor
    · intro h
      by_contra hne
      simp only [InPlace, not_or] at hne
      exact inode.visited_ne_nil hne.1 hne.2.1 hne.2.2.1 h
    · intro hmem
      rcases hmem with h | h | h | ⟨h, -⟩
      · exact inode.visited_eq_nil (Or.inl h)
      · exact inode.visited_eq_nil (Or.inr h)
      · exact absurd (Nat.le_of_eq (hoff.mp h)) ho
      · omega

end CoveredInode

/-- An exFAT transfer moves the bytes of the file exactly when the clusters
from the start of the list stand in for those from the offset on. -/
theorem exfat_io_right_iff (inode : CoveredInode) (offset length : U64) :
    ExfatIoRight inode offset length ↔ inode.InPlace offset length := by
  rw [exfatIoRight_iff_visited, inode.visited_eq_fileSlice_iff]

theorem exfatIoRight_of_first_page {inode : CoveredInode} {offset : U64} (h : offset.toNat < 4096)
    (hlt : offset.toNat < inode.fileLength.toNat) (length : U64) :
    ExfatIoRight inode offset length := by
  rw [exfatIoRight_iff_visited, inode.visited_eq_fileSlice_iff]
  refine Or.inr (Or.inr (Or.inr ⟨hlt, ?_⟩))
  intro i _
  rw [Nat.mod_eq_of_lt h]

/-- A file of two clusters, read from the start of the second one. -/
theorem exfat_reads_first_cluster : ¬ ∀ (inode : CoveredInode) (offset length : U64),
    ExfatIoRight inode offset length := by
  intro h
  have hh := (h ⟨⟨8192, [⟨0, 0x10000⟩, ⟨4096, 0x20000⟩]⟩, by decide, by decide⟩ 4096 1).read
    fun x => if x = 0x10000 then 1 else 0
  revert hh
  decide

end Persistos
