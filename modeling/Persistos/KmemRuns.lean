import Persistos.Kmem
import Mathlib.Algebra.BigOperators.Group.List.Basic

/-! Runs of the page allocator under clients that allocate blocks and free the
blocks they hold. -/

namespace Persistos

open Theory

structure Block where
  page : U64
  numPages : U64
  deriving DecidableEq, Repr

structure KmemRun where
  kmem : Kmem
  live : List Block

def Block.pages (kmemStart : U64) (b : Block) : Interval :=
  ⟨pageIndex kmemStart b.page, b.numPages.toNat⟩

theorem Block.mem_pages_one (kmemStart p : U64) (i : Nat) :
    i ∈ Block.pages kmemStart ⟨p, 1⟩ ↔ i = pageIndex kmemStart p := by
  rw [Block.pages, Interval.mem_def]
  simp only [show (1 : U64).toNat = 1 from rfl]
  omega

inductive KmemStep : KmemRun → KmemRun → Prop where
  | alloc {s : KmemRun} {n p : U64} {k : Kmem} (hn : 1 ≤ n.toNat)
      (h : kpageAlloc s.kmem n = .ok (p, k)) : KmemStep s ⟨k, ⟨p, n⟩ :: s.live⟩
  | free {s : KmemRun} {b : Block} (h : b ∈ s.live) :
      KmemStep s ⟨kpageFree s.kmem b.page b.numPages, s.live.erase b⟩

abbrev KmemReachable (k : Kmem) : KmemRun → Prop :=
  Relation.ReflTransGen KmemStep ⟨k, []⟩

structure KmemInv (s : KmemRun) : Prop where
  total_lt : s.kmem.kmemTotalPages.toNat < 2 ^ 52
  array : ∀ i, s.kmem.kmemPageArray i = .pageArray ↔
    i < (pageArrayPages s.kmem.kmemTotalPages).toNat
  pos : ∀ b ∈ s.live, 1 ≤ b.numPages.toNat
  le_total : ∀ b ∈ s.live,
    pageIndex s.kmem.kmemStart b.page + b.numPages.toNat ≤ s.kmem.kmemTotalPages.toNat
  address : ∀ b ∈ s.live,
    b.page = pageAddress s.kmem.kmemStart (pageIndex s.kmem.kmemStart b.page)
  apart : (s.live.map (Block.pages s.kmem.kmemStart)).Pairwise Interval.Apart
  used : ∀ i, s.kmem.kmemPageArray i = .used ↔ ∃ b ∈ s.live, i ∈ b.pages s.kmem.kmemStart
  count : s.kmem.kmemUsedPages =
    BitVec.ofNat 64 (s.live.map (fun b => b.numPages.toNat)).sum

theorem kmemInit_inv {hhdm : Option U64} {memmap : Option (List MemmapEntry)} {k : Kmem}
    (h : kmemInit hhdm memmap = .ok k) : KmemInv ⟨k, []⟩ := by
  obtain ⟨offset, region, rfl⟩ := kmemInit_ok h
  constructor
  · have hlt := region.length.isLt
    simp only [shiftRight_toNat]
    omega
  · intro i
    dsimp only
    split <;> simp_all
  · simp
  · simp
  · simp
  · exact List.Pairwise.nil
  · intro i
    dsimp only
    split <;> simp
  · rfl

theorem KmemInv.nodup {s : KmemRun} (h : KmemInv s) : s.live.Nodup := by
  apply (List.pairwise_map.mp h.apart).imp_of_mem
  rintro a b ha - hab rfl
  have hpos := h.pos a ha
  have hm : pageIndex s.kmem.kmemStart a.page ∈ a.pages s.kmem.kmemStart :=
    Interval.mem_def.mpr ⟨Nat.le_refl _, Nat.lt_add_of_pos_right hpos⟩
  exact hab _ hm hm

theorem KmemInv.alloc {s : KmemRun} (hs : KmemInv s) {n p : U64} {k : Kmem} (hn : 1 ≤ n.toNat)
    (h : kpageAlloc s.kmem n = .ok (p, k)) : KmemInv ⟨k, ⟨p, n⟩ :: s.live⟩ := by
  obtain ⟨first, hf, rfl, rfl⟩ := kpageAlloc_ok hn h
  have hle := hf.le_total
  have hlt := hs.total_lt
  have hidx : pageIndex s.kmem.kmemStart (pageAddress s.kmem.kmemStart first) = first :=
    pageIndex_pageAddress _ (by omega)
  have hpages : Block.pages s.kmem.kmemStart ⟨pageAddress s.kmem.kmemStart first, n⟩ =
      ⟨first, n.toNat⟩ := by rw [Block.pages, hidx]
  have hfree : ∀ i, first ≤ i ∧ i < first + n.toNat → s.kmem.kmemPageArray i = .free :=
    fun i hi => hf.run i hi.1 hi.2
  constructor
  · exact hs.total_lt
  · intro i
    simp only [markPages_apply, ← hs.array i]
    split
    · next hi => simp [hfree i hi]
    · rfl
  · exact List.forall_mem_cons.mpr ⟨hn, hs.pos⟩
  · exact List.forall_mem_cons.mpr ⟨by simpa only [hidx] using hle, hs.le_total⟩
  · exact List.forall_mem_cons.mpr ⟨by simp only [hidx], hs.address⟩
  · refine List.pairwise_cons.mpr ⟨?_, hs.apart⟩
    intro a ha i hi hia
    obtain ⟨b, hb, rfl⟩ := List.mem_map.mp ha
    have hu := (hs.used i).mpr ⟨b, hb, hia⟩
    rw [hpages] at hi
    simp [hfree i (Interval.mem_def.mp hi)] at hu
  · intro i
    have hnew : i ∈ (⟨first, n.toNat⟩ : Interval) ↔ first ≤ i ∧ i < first + n.toNat :=
      Interval.mem_def
    simp only [markPages_apply, List.exists_mem_cons_iff, hpages, ← hs.used i, hnew]
    by_cases hi : first ≤ i ∧ i < first + n.toNat <;> simp [hi]
  · simp only [List.map_cons, List.sum_cons, hs.count, BitVec.ofNat_add, BitVec.ofNat_toNat,
      BitVec.setWidth_eq]
    exact BitVec.add_comm _ _

theorem KmemInv.free {s : KmemRun} (hs : KmemInv s) {b : Block} (hb : b ∈ s.live) :
    KmemInv ⟨kpageFree s.kmem b.page b.numPages, s.live.erase b⟩ := by
  have hsub : ∀ a ∈ s.live.erase b, a ∈ s.live := fun a ha => List.mem_of_mem_erase ha
  have hmem : ∀ i, i ∈ b.pages s.kmem.kmemStart ↔ pageIndex s.kmem.kmemStart b.page ≤ i ∧
      i < pageIndex s.kmem.kmemStart b.page + b.numPages.toNat := fun i => Interval.mem_def
  have hperm := List.perm_cons_erase hb
  have hapart := hs.apart.perm (hperm.map _) (fun {a c} h => h.symm)
  constructor
  · exact hs.total_lt
  · intro i
    simp only [kpageFree, markPages_apply, ← hmem, ← hs.array i]
    split
    · next hi => simp [(hs.used i).mpr ⟨b, hb, hi⟩]
    · rfl
  · exact fun a ha => hs.pos a (hsub a ha)
  · exact fun a ha => hs.le_total a (hsub a ha)
  · exact fun a ha => hs.address a (hsub a ha)
  · exact (List.pairwise_cons.mp hapart).2
  · intro i
    simp only [kpageFree, markPages_apply, ← hmem]
    by_cases hi : i ∈ b.pages s.kmem.kmemStart
    · simp only [hi, if_true]
      refine ⟨fun h => by simp at h, ?_⟩
      intro hmem
      obtain ⟨a, ha, hia⟩ := hmem
      exact absurd hia ((List.pairwise_cons.mp hapart).1 _ (List.mem_map_of_mem ha) i hi)
    · simp only [hi, if_false, hs.used i]
      constructor
      · intro hmem
        obtain ⟨a, ha, hia⟩ := hmem
        have hne : a ≠ b := by rintro rfl; exact hi hia
        exact ⟨a, (List.mem_erase_of_ne hne).mpr ha, hia⟩
      · intro hmem
        obtain ⟨a, ha, hia⟩ := hmem
        exact ⟨a, hsub a ha, hia⟩
  · have hsum := (hperm.map (fun b => b.numPages.toNat)).sum_eq
    simp only [kpageFree, hs.count, hsum, List.map_cons, List.sum_cons, BitVec.ofNat_add,
      BitVec.ofNat_toNat, BitVec.setWidth_eq]
    rw [BitVec.add_comm, BitVec.add_sub_cancel]

theorem KmemStep.inv {s t : KmemRun} (h : KmemStep s t) (hs : KmemInv s) : KmemInv t := by
  cases h with
  | alloc hn h => exact hs.alloc hn h
  | free hb => exact hs.free hb

theorem KmemInv.steps {s t : KmemRun} (hs : KmemInv s) (h : Relation.ReflTransGen KmemStep s t) :
    KmemInv t := by
  induction h with
  | refl => exact hs
  | tail _ hstep ih => exact hstep.inv ih

theorem KmemReachable.inv {hhdm : Option U64} {memmap : Option (List MemmapEntry)} {k : Kmem}
    (hk : kmemInit hhdm memmap = .ok k) {s : KmemRun} (h : KmemReachable k s) : KmemInv s :=
  (kmemInit_inv hk).steps h

/-- Page `i` of the region holds an element of the page array, which starts at
the first byte of the region and has one byte for each page. -/
def HoldsPageArray (k : Kmem) (i : Nat) : Prop := ∃ j < k.kmemTotalPages.toNat, j / 4096 = i

theorem pageArrayPages_toNat {totalPages : U64} (h : totalPages.toNat < 2 ^ 52) :
    (pageArrayPages totalPages).toNat = totalPages.toNat / 4096 + 1 := by
  rw [pageArrayPages, BitVec.toNat_add, shiftRight_toNat, show (1 : U64).toNat = 1 from rfl]
  omega

theorem KmemInv.not_holdsPageArray {s : KmemRun} (hs : KmemInv s) {b : Block} (hb : b ∈ s.live)
    {i : Nat} (hi : i ∈ b.pages s.kmem.kmemStart) : ¬ HoldsPageArray s.kmem i := by
  intro hmem
  obtain ⟨j, hj, rfl⟩ := hmem
  have hu := (hs.used _).mpr ⟨b, hb, hi⟩
  have ha := (hs.array (j / 4096)).mpr (by rw [pageArrayPages_toNat hs.total_lt]; omega)
  simp [ha] at hu

theorem KmemInv.used_existsUnique {s : KmemRun} (hs : KmemInv s) (i : Nat) :
    s.kmem.kmemPageArray i = .used ↔ ∃! b, b ∈ s.live ∧ i ∈ b.pages s.kmem.kmemStart := by
  rw [hs.used i]
  constructor
  · intro hmem
    obtain ⟨b, hb, hi⟩ := hmem
    refine ⟨b, ⟨hb, hi⟩, ?_⟩
    intro a hmem
    obtain ⟨ha, hia⟩ := hmem
    by_contra hne
    have : Std.Symm (fun x y : Block =>
        Interval.Apart (x.pages s.kmem.kmemStart) (y.pages s.kmem.kmemStart)) :=
      ⟨fun _ _ h => h.symm⟩
    exact (List.pairwise_map.mp hs.apart).forall ha hb hne i hia hi
  · intro hmem
    obtain ⟨b, ⟨hb, hi⟩, -⟩ := hmem
    exact ⟨b, hb, hi⟩

theorem KmemInv.usedPages_toNat {s : KmemRun} (hs : KmemInv s) :
    s.kmem.kmemUsedPages.toNat = (s.live.map (fun b => b.numPages.toNat)).sum := by
  have hbound : ∀ a ∈ s.live.map (Block.pages s.kmem.kmemStart),
      a.first + a.length ≤ s.kmem.kmemTotalPages.toNat := by
    simpa [Block.pages] using hs.le_total
  have hsum : (s.live.map (fun b => b.numPages.toNat)).sum ≤ s.kmem.kmemTotalPages.toNat := by
    simpa [Function.comp_def, Block.pages] using Interval.sum_length_le hs.apart hbound
  have hlt := hs.total_lt
  rw [hs.count, BitVec.toNat_ofNat]
  omega

structure KmemSafe (s : KmemRun) : Prop where
  disjoint : s.live.Pairwise (fun a b =>
    ∀ i, i ∈ a.pages s.kmem.kmemStart → i ∉ b.pages s.kmem.kmemStart)
  off_array : ∀ b ∈ s.live, ∀ i ∈ b.pages s.kmem.kmemStart,
    i < s.kmem.kmemTotalPages.toNat ∧ ¬ HoldsPageArray s.kmem i
  used_iff : ∀ i, i < s.kmem.kmemTotalPages.toNat →
    (s.kmem.kmemPageArray i = .used ↔ ∃! b, b ∈ s.live ∧ i ∈ b.pages s.kmem.kmemStart)
  used_pages : s.kmem.kmemUsedPages.toNat = (s.live.map (fun b => b.numPages.toNat)).sum
  alloc_first : ∀ (n p : U64) (k : Kmem), 1 ≤ n.toNat → kpageAlloc s.kmem n = .ok (p, k) →
    ∃ first, p = pageAddress s.kmem.kmemStart first ∧
      FirstRun (fun i => s.kmem.kmemPageArray i = .free) s.kmem.kmemTotalPages.toNat n.toNat first
  alloc_panic : ∀ (n : U64) (e : Crash), 1 ≤ n.toNat → kpageAlloc s.kmem n = .error e →
    e = .panic "Out of physical memory\n" ∧ ∀ first,
      first + n.toNat ≤ s.kmem.kmemTotalPages.toNat →
        ¬ Run (fun i => s.kmem.kmemPageArray i = .free) first n.toNat

theorem kmem_safe {hhdm : Option U64} {memmap : Option (List MemmapEntry)} {k : Kmem}
    (hk : kmemInit hhdm memmap = .ok k) {s : KmemRun} (h : KmemReachable k s) : KmemSafe s := by
  have hs := h.inv hk
  constructor
  · exact List.pairwise_map.mp hs.apart
  · intro b hb i hi
    have hle := hs.le_total b hb
    have hlt := (Interval.mem_def.mp hi).2
    exact ⟨Nat.lt_of_lt_of_le hlt hle, hs.not_holdsPageArray hb hi⟩
  · exact fun i _ => hs.used_existsUnique i
  · exact hs.usedPages_toNat
  · intro n p k' hn ha
    obtain ⟨first, hf, hp, -⟩ := kpageAlloc_ok hn ha
    exact ⟨first, hp, hf⟩
  · exact fun n e hn ha => kpageAlloc_error hn ha

/-- A region of four pages after one block of two pages has been handed out. -/
theorem kmem_safe_two_pages : ∃ k s,
    kmemInit (some 0xffff800000000000) (some [⟨0x100000, 0x4000, 0⟩]) = .ok k ∧
      KmemReachable k s ∧ s.live = [⟨0xffff800000101000, 2⟩] ∧ KmemSafe s :=
  ⟨_, _, rfl, .single (.alloc (n := 2) (by decide) rfl), rfl,
    @kmem_safe (some 0xffff800000000000) (some [⟨0x100000, 0x4000, 0⟩]) _ rfl _
      (.single (.alloc (n := 2) (by decide) rfl))⟩

end Persistos
