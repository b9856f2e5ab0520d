import Persistos.ExfatVolume

/-! The entries of an exFAT directory as a list. The loops over its clusters and over the
pages take each entry once, and stop where nothing but end markers is left. -/

namespace Persistos

open Theory

/-- The 32 bytes of a directory entry are all that is read of it. -/
def SameEntry (x y : Nat → U8) : Prop := ∀ i < 32, x i = y i

/-- The number of the sector that a cluster starts with. -/
def ExfatSuperblock.sectorOf (sb : ExfatSuperblock) (cluster : U32) : Nat :=
  sb.clusterHeapOffset.toNat + 2 ^ sb.sectorsPerClusterExponent.toNat * (cluster.toNat - 2)

def ExfatSuperblock.clusterByte (sb : ExfatSuperblock) (cluster : U32) : Nat :=
  sb.sectorOf cluster * 2 ^ sb.bytesPerSectorExponent.toNat

/-- Where the FAT has the number of the cluster after this one. -/
def ExfatSuperblock.fatByte (sb : ExfatSuperblock) (cluster : U32) : Nat :=
  sb.fatOffset.toNat * 2 ^ sb.bytesPerSectorExponent.toNat + 4 * cluster.toNat

/-- The entries of a page, from the byte `x` on. -/
def pageEntries (page : Nat → U8) : Nat → Nat → List (Nat → U8)
  | 0, _ => []
  | left + 1, x => (fun i => page (x + i)) :: pageEntries page left (x + 0x20)

namespace ExfatSuperblock

variable {sb : ExfatSuperblock} {cluster : U32}

theorem clusterLba_toNat (hs : sb.sectorsPerClusterExponent.toNat < 32) (hc : 2 ≤ cluster.toNat) :
    (sb.clusterLba cluster).toNat = sb.sectorOf cluster % 2 ^ 32 := by
  have hpow : (2 : Nat) ^ sb.sectorsPerClusterExponent.toNat < 2 ^ 32 :=
    Nat.pow_lt_pow_right (by decide) hs
  have hone : ((1 <<< sb.sectorsPerClusterExponent.toNat : Nat) : U32).toNat =
      2 ^ sb.sectorsPerClusterExponent.toNat := by
    rw [Nat.shiftLeft_eq, Nat.one_mul]
    exact Nat.mod_eq_of_lt hpow
  have hsub : (cluster - 2).toNat = cluster.toNat - 2 := by bv_omega
  rw [clusterLba, sectorOf, BitVec.toNat_add, BitVec.toNat_mul, hone, hsub, Nat.add_mod_mod]

theorem clusterLba_of_fits (hs : sb.sectorsPerClusterExponent.toNat < 32)
    (hc : 2 ≤ cluster.toNat) (hfits : sb.sectorOf cluster < 2 ^ 32) :
    (sb.clusterLba cluster).toNat = sb.sectorOf cluster := by
  rw [clusterLba_toNat hs hc, Nat.mod_eq_of_lt hfits]

/-- The loops keep the sector and find the cluster again from it. -/
theorem clusterIndex_clusterLba (hs : sb.sectorsPerClusterExponent.toNat < 32)
    (hc : 2 ≤ cluster.toNat) (hfits : sb.sectorOf cluster < 2 ^ 32) :
    sb.clusterIndex (sb.clusterLba cluster) = cluster := by
  have hlba := clusterLba_of_fits hs hc hfits
  have hdiff : (sb.clusterLba cluster - sb.clusterHeapOffset).toNat =
      2 ^ sb.sectorsPerClusterExponent.toNat * (cluster.toNat - 2) := by
    have hh := sb.clusterHeapOffset.isLt
    rw [sectorOf] at hlba hfits
    rw [BitVec.toNat_sub, hlba]
    omega
  have hshift : ((sb.clusterLba cluster - sb.clusterHeapOffset) >>>
      sb.sectorsPerClusterExponent.toNat).toNat = cluster.toNat - 2 := by
    rw [BitVec.toNat_ushiftRight, Nat.shiftRight_eq_div_pow, hdiff,
      Nat.mul_div_cancel_left _ (Nat.two_pow_pos _)]
  rw [clusterIndex]
  bv_omega

theorem fatEntryByteOffset_toNat (hs : sb.sectorsPerClusterExponent.toNat < 32)
    (hc : 2 ≤ cluster.toNat) (hfits : sb.sectorOf cluster < 2 ^ 32) :
    (sb.fatEntryByteOffset (sb.clusterLba cluster)).toNat = sb.fatByte cluster % 2 ^ 32 := by
  have hshift : (sb.fatOffset <<< sb.bytesPerSectorExponent.toNat).toNat =
      sb.fatOffset.toNat * 2 ^ sb.bytesPerSectorExponent.toNat % 2 ^ 32 := by
    rw [BitVec.toNat_shiftLeft, Nat.shiftLeft_eq]
  have hmul : (4 * cluster).toNat = 4 * cluster.toNat % 2 ^ 32 := BitVec.toNat_mul 4 cluster
  rw [fatEntryByteOffset, clusterIndex_clusterLba hs hc hfits, fatByte, BitVec.toNat_add, hshift,
    hmul, ← Nat.add_mod]

end ExfatSuperblock

namespace SameEntry

variable {x y : Nat → U8}

theorem le16 (h : SameEntry x y) {o : Nat} (ho : o + 1 < 32) : le16 x o = le16 y o := by
  rw [Persistos.le16, Persistos.le16, h _ ho, h o (by omega)]

theorem le32 (h : SameEntry x y) {o : Nat} (ho : o + 3 < 32) : le32 x o = le32 y o := by
  rw [Persistos.le32, Persistos.le32, h.le16 (o := o + 2) (by omega), h.le16 (o := o) (by omega)]

end SameEntry

namespace FsKernel

variable {sb : ExfatSuperblock} {p : NvmepartDevice} {dir : U64} {x y : Nat → U8}

def outOfMemory : Crash := .panic "Out of physical memory\n"

theorem loadFileEntry_same (k : FsKernel) (dir : U64) (h : SameEntry x y) :
    k.loadFileEntry dir x = k.loadFileEntry dir y := by
  have htype : ∀ (k : FsKernel) (i e : U64), k.setFileType x i e = k.setFileType y i e := by
    intro k i e
    rw [setFileType, setFileType, h.le16 (by decide)]
  unfold loadFileEntry
  simp only [htype]

theorem loadName_same (h : SameEntry x y) (index : U8) {left i : Nat} (hi : i + left ≤ 15)
    (name : List U8) : loadName x index left i name = loadName y index left i name := by
  induction left generalizing i name with
  | zero => rfl
  | succ left ih =>
    rw [loadName, loadName, h _ (by omega), ih (by omega)]

theorem loadEntry_same (h : SameEntry x y) (s : DirLoad) :
    loadEntry sb dir x s = loadEntry sb dir y s := by
  have hinfo : s.kernel.loadInfoEntry sb s.fileDentry x =
      s.kernel.loadInfoEntry sb s.fileDentry y := by
    rw [loadInfoEntry, loadInfoEntry, h.le32 (by decide), h.le32 (by decide)]
  unfold loadEntry
  rw [h 0 (by decide), loadFileEntry_same _ _ h, hinfo, loadName_same h _ (by decide)]

/-- What an entry can do that does not stop the loader. -/
theorem loadEntry_cases {s s' : DirLoad} (hl : loadEntry sb dir x s = .ok s') :
    (x 0 = 0x85 ∧ ∃ d k', s.kernel.loadFileEntry dir x = .ok (d, k') ∧ s' = ⟨k', d, 0⟩) ∨
    (x 0 = 0xC0 ∧ s.fileDentry ≠ 0 ∧
      s' = { s with kernel := s.kernel.loadInfoEntry sb s.fileDentry x }) ∨
    (x 0 = 0xC1 ∧ s.fileDentry ≠ 0 ∧ ∃ name i,
      loadName x s.fileNameIndex 15 0 (s.kernel.fs.dentries.objects s.fileDentry).name =
        (name, i) ∧
      s' = ⟨s.kernel.modifyDentry s.fileDentry fun dentry => { dentry with name }, s.fileDentry,
        s.fileNameIndex + BitVec.ofNat 8 i⟩) ∨
    (x 0 ≠ 0x85 ∧ x 0 ≠ 0xC0 ∧ (x 0 = 0xC1 → s.fileDentry = 0) ∧ s' = s) := by
  rw [loadEntry] at hl
  by_cases hfile : x 0 = 0x85
  · rw [if_pos hfile] at hl
    obtain ⟨⟨d, kernel⟩, hload, he⟩ := bind_eq_ok hl
    exact .inl ⟨hfile, d, kernel, hload, (Except.ok.inj he).symm⟩
  · rw [if_neg hfile] at hl
    by_cases hinfo : x 0 = 0xC0
    · rw [if_pos hinfo] at hl
      by_cases hnone : s.fileDentry = 0
      · rw [if_pos hnone] at hl
        cases hl
      · rw [if_neg hnone] at hl
        exact .inr (.inl ⟨hinfo, hnone, (Except.ok.inj hl).symm⟩)
    · rw [if_neg hinfo] at hl
      by_cases hname : x 0 = 0xC1
      · rw [if_pos hname] at hl
        by_cases hnone : s.fileDentry = 0
        · rw [if_pos hnone] at hl
          exact .inr (.inr (.inr ⟨hfile, hinfo, fun _ => hnone, (Except.ok.inj hl).symm⟩))
        · rw [if_neg hnone] at hl
          exact .inr (.inr (.inl ⟨hname, hnone, _, _, rfl, (Except.ok.inj hl).symm⟩))
      · rw [if_neg hname] at hl
        exact .inr (.inr (.inr ⟨hfile, hinfo, fun hh => absurd hh hname,
          (Except.ok.inj hl).symm⟩))

/-- An entry that the loader passes over. -/
def Ignored (x : Nat → U8) : Prop := x 0 ≠ 0x85 ∧ x 0 ≠ 0xC0 ∧ x 0 ≠ 0xC1

theorem Ignored.loadEntry (h : Ignored x) (s : DirLoad) : loadEntry sb dir x s = .ok s := by
  rw [FsKernel.loadEntry, if_neg h.1, if_neg h.2.1, if_neg h.2.2]

theorem ignored_of_zero (h : x 0 = 0) : Ignored x := by
  rw [Ignored, h]
  decide

/-- The entries of a list taken one after the other. -/
def loadAll (sb : ExfatSuperblock) (dir : U64) (xs : List (Nat → U8)) (s : DirLoad) :
    Except Crash DirLoad :=
  xs.foldlM (fun s x => loadEntry sb dir x s) s

theorem loadAll_cons (xs : List (Nat → U8)) (s : DirLoad) :
    loadAll sb dir (x :: xs) s = loadEntry sb dir x s >>= loadAll sb dir xs :=
  List.foldlM_cons ..

theorem loadAll_append (xs ys : List (Nat → U8)) (s : DirLoad) :
    loadAll sb dir (xs ++ ys) s = loadAll sb dir xs s >>= loadAll sb dir ys :=
  List.foldlM_append ..

theorem loadAll_ignored {xs : List (Nat → U8)} (h : ∀ x ∈ xs, Ignored x) (s : DirLoad) :
    loadAll sb dir xs s = .ok s := by
  induction xs with
  | nil => rfl
  | cons x xs ih =>
    rw [loadAll_cons, (h x List.mem_cons_self).loadEntry, ok_bind,
      ih fun y hy => h y (List.mem_cons_of_mem x hy)]

/-- After an end marker there is nothing but end markers. -/
def EndsOnce (xs : List (Nat → U8)) : Prop := xs.Pairwise fun x y => x 0 = 0 → y 0 = 0

/-- The loop over a page takes all of its entries that are not behind an end marker. -/
theorem loadEntries_eq {page view : Nat → U8} {left x : Nat}
    (hview : ∀ i < x + 32 * left, page i = view i) (hends : EndsOnce (pageEntries view left x))
    (s : DirLoad) :
    loadEntries sb dir page left x s = loadAll sb dir (pageEntries view left x) s := by
  induction left generalizing x s with
  | zero => rfl
  | succ left ih =>
    rw [EndsOnce, pageEntries, List.pairwise_cons] at hends
    have hsame : SameEntry (fun i => page (x + i)) fun i => view (x + i) :=
      fun i hi => hview _ (by omega)
    rw [loadEntries, pageEntries, loadAll_cons, loadEntry_same hsame]
    refine congrArg _ (funext fun s' => ?_)
    by_cases hstop : left = 0 ∨ page (x + 0x20) = 0
    · rw [if_pos hstop]
      symm
      rcases hstop with rfl | hzero
      · rfl
      · refine loadAll_ignored (fun y hy => ignored_of_zero ?_) s'
        cases left with
        | zero => cases hy
        | succ left =>
          have htail := hends.2
          rw [pageEntries, List.pairwise_cons] at htail
          have hhead : view (x + 0x20 + 0) = 0 := by
            rw [Nat.add_zero, ← hview _ (by omega)]
            exact hzero
          rcases List.mem_cons.mp hy with rfl | hy
          · exact hhead
          · exact htail.1 y hy hhead
    · rw [if_neg hstop]
      exact ih (fun i hi => hview i (by omega)) hends.2 s'

theorem volumeByte_same {k k' : FsKernel} (h : k'.disk = k.disk) (offset : Nat) :
    k'.volumeByte p offset = k.volumeByte p offset := by
  rw [volumeByte, volumeByte, h]

theorem volumeWord_same {k k' : FsKernel} (h : k'.disk = k.disk) (offset : Nat) :
    k'.volumeWord p offset = k.volumeWord p offset := by
  simp only [volumeWord, volumeByte_same h]

theorem not_endsChain {c : U32} (h₁ : 2 ≤ c.toNat) (h₂ : c.toNat < 0xFFFFFFF7) :
    endsChain c = false := by
  rw [endsChain, decide_eq_false_iff_not]
  rintro (rfl | rfl | rfl | rfl)
  · exact absurd h₁ (by decide)
  · exact absurd h₁ (by decide)
  · exact absurd h₂ (by decide)
  · exact absurd h₂ (by decide)

/-- The FAT leads from each cluster of the list to the next one and ends with the last. -/
def Linked (k : FsKernel) (sb : ExfatSuperblock) (p : NvmepartDevice) : List U32 → Prop
  | [] => False
  | [c] => k.volumeWord p (sb.fatByte c) = 0xFFFFFFFF
  | c :: c' :: cs => k.volumeWord p (sb.fatByte c) = c' ∧ k.Linked sb p (c' :: cs)

/-- A volume with sectors of 512 bytes and clusters of 4096. -/
def smallSuperblock : ExfatSuperblock := ⟨8, 16, 9, 3⟩

def smallPartition : NvmepartDevice := ⟨⟨9, 64⟩, 0, 63⟩

end FsKernel

end Persistos
