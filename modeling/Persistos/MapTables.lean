import Persistos.Map
import Persistos.KmemRuns

/-! The tables of a lower-half tree as frames of the page allocator, and what
each part of `set_page_mapping` does to the tree and to the translation. -/

namespace Persistos

open Theory

def LowerPath (path : List Nat) : Prop :=
  (∀ i ∈ path, i < 512) ∧ ∀ i, path.head? = some i → i < 256

theorem LowerPath.of_snoc {path : List Nat} {i : Nat} (h : LowerPath (path ++ [i])) :
    LowerPath path := by
  refine ⟨fun j hj => h.1 j (List.mem_append_left _ hj), fun j hj => h.2 j ?_⟩
  rw [List.head?_append, hj]
  rfl

theorem LowerPath.lt_of_snoc {path : List Nat} {i : Nat} (h : LowerPath (path ++ [i])) : i < 512 :=
  h.1 i (by simp)

theorem tablePath_paths {v : U64} (hv : v.toNat < 2 ^ 47) : Paths LowerPath 3 (tablePath v) := by
  refine ⟨⟨?_, ?_⟩, by simp [tablePath]⟩
  · intro i hi
    simp only [tablePath, List.mem_cons, List.not_mem_nil, or_false] at hi
    rcases hi with rfl | rfl | rfl <;> exact tableIndex_lt _ _
  · intro i hi
    simp only [tablePath, List.head?_cons, Option.some.injEq] at hi
    rw [tableIndex_eq] at hi
    omega

/-- The region of the page allocator lies in the direct map, whose offset is a
page boundary, and does not reach past the end of the address space. -/
structure DirectMap (k : Kmem) : Prop where
  offset_aligned : PageAligned k.hhdmOffset
  start_aligned : PageAligned k.kmemStart
  offset_le : k.hhdmOffset.toNat ≤ k.kmemStart.toNat
  end_le : k.kmemStart.toNat + 4096 * k.kmemTotalPages.toNat ≤ 2 ^ 64

def KmemRun.allocPage (r : KmemRun) : Except Crash (U64 × KmemRun) :=
  match kpageAlloc r.kmem 1 with
  | .error e => .error e
  | .ok (p, k) => .ok (p, ⟨k, ⟨p, 1⟩ :: r.live⟩)

/-- `kpage_alloc` and `kpage_free` with the blocks that are handed out. -/
def KmemRun.allocPages (r : KmemRun) (numPages : U64) : Except Crash (U64 × KmemRun) := do
  let (p, k) ← kpageAlloc r.kmem numPages
  .ok (p, ⟨k, ⟨p, numPages⟩ :: r.live⟩)

def KmemRun.freePages (r : KmemRun) (b : Block) : KmemRun :=
  ⟨kpageFree r.kmem b.page b.numPages, r.live.erase b⟩

theorem KmemRun.allocPage_step {r r' : KmemRun} {p : U64} (h : r.allocPage = .ok (p, r')) :
    KmemStep r r' ∧ r'.live = ⟨p, 1⟩ :: r.live := by
  rw [allocPage] at h
  split at h
  · simp at h
  · next q k ha =>
    simp only [Except.ok.injEq, Prod.mk.injEq] at h
    obtain ⟨rfl, rfl⟩ := h
    exact ⟨.alloc (n := 1) (by decide) ha, rfl⟩

theorem KmemStep.region {r r' : KmemRun} (h : KmemStep r r') :
    r'.kmem.hhdmOffset = r.kmem.hhdmOffset ∧ r'.kmem.kmemStart = r.kmem.kmemStart ∧
      r'.kmem.kmemTotalPages = r.kmem.kmemTotalPages := by
  cases h with
  | alloc hn h =>
    obtain ⟨first, -, -, rfl⟩ := kpageAlloc_ok hn h
    exact ⟨rfl, rfl, rfl⟩
  | free hb => exact ⟨rfl, rfl, rfl⟩

theorem kmemSteps_region {r r' : KmemRun} (h : Relation.ReflTransGen KmemStep r r') :
    r'.kmem.hhdmOffset = r.kmem.hhdmOffset ∧ r'.kmem.kmemStart = r.kmem.kmemStart ∧
      r'.kmem.kmemTotalPages = r.kmem.kmemTotalPages := by
  induction h with
  | refl => exact ⟨rfl, rfl, rfl⟩
  | tail _ hstep ih =>
    obtain ⟨h₁, h₂, h₃⟩ := hstep.region
    exact ⟨h₁.trans ih.1, h₂.trans ih.2.1, h₃.trans ih.2.2⟩

theorem DirectMap.step {r r' : KmemRun} (hd : DirectMap r.kmem) (h : KmemStep r r') :
    DirectMap r'.kmem := by
  obtain ⟨h₁, h₂, h₃⟩ := h.region
  exact ⟨h₁ ▸ hd.offset_aligned, h₂ ▸ hd.start_aligned, h₁ ▸ h₂ ▸ hd.offset_le,
    h₂ ▸ h₃ ▸ hd.end_le⟩

theorem DirectMap.steps {r r' : KmemRun} (hd : DirectMap r.kmem)
    (h : Relation.ReflTransGen KmemStep r r') : DirectMap r'.kmem := by
  induction h with
  | refl => exact hd
  | tail _ hstep ih => exact ih.step hstep

theorem KmemReachable.directMap {k : Kmem} {r : KmemRun} (h : KmemReachable k r)
    (hd : DirectMap k) : DirectMap r.kmem ∧ r.kmem.hhdmOffset = k.hhdmOffset :=
  ⟨DirectMap.steps (r := ⟨k, []⟩) hd h, (kmemSteps_region h).1⟩

/-- Addresses of the pages of a live block. Page 0 holds the page array, so no
live block starts at the first byte of the region. -/
theorem KmemInv.page_toNat {r : KmemRun} (hr : KmemInv r) (hd : DirectMap r.kmem) {b : Block}
    (hb : b ∈ r.live) : PageAligned b.page ∧ r.kmem.kmemStart.toNat < b.page.toNat := by
  have hpos := hr.pos b hb
  have hle := hr.le_total b hb
  have hend := hd.end_le
  have hstart := hd.start_aligned
  have harray : ¬ pageIndex r.kmem.kmemStart b.page <
      (pageArrayPages r.kmem.kmemTotalPages).toNat := by
    intro hlt
    have hu := (hr.used _).mpr
      ⟨b, hb, Interval.mem_def.mpr ⟨Nat.le_refl _, Nat.lt_add_of_pos_right hpos⟩⟩
    exact absurd (hu.symm.trans ((hr.array _).mpr hlt)) (by simp)
  rw [pageArrayPages_toNat hr.total_lt] at harray
  have haddr : b.page.toNat =
      r.kmem.kmemStart.toNat + 4096 * pageIndex r.kmem.kmemStart b.page := by
    have he := congrArg BitVec.toNat (hr.address b hb)
    rw [pageAddress, BitVec.toNat_add, shiftLeft_toNat, BitVec.toNat_ofNat] at he
    omega
  simp only [PageAligned] at hstart ⊢
  omega

/-- A frame that `kpage_alloc` hands out is aligned, is no block that is still
live, and does not lie at physical address zero. -/
theorem KmemRun.allocPage_frame {r r' : KmemRun} {p : U64} (hr : KmemInv r)
    (hd : DirectMap r.kmem) (h : r.allocPage = .ok (p, r')) :
    PageAligned p ∧ ⟨p, 1⟩ ∉ r.live ∧ r.kmem.hhdmOffset.toNat < p.toNat := by
  obtain ⟨hstep, hlive⟩ := allocPage_step h
  have hr' := hstep.inv hr
  have hd' := hd.step hstep
  obtain ⟨halign, hlt⟩ := hr'.page_toNat hd' (b := ⟨p, 1⟩) (by rw [hlive]; exact List.mem_cons_self)
  have hnd := hr'.nodup
  rw [hlive] at hnd
  refine ⟨halign, (List.nodup_cons.mp hnd).1, ?_⟩
  rw [hstep.region.2.1] at hlt
  exact Nat.lt_of_le_of_lt hd.offset_le hlt

structure PageTables (r : KmemRun) (mem : Memory) (pml4 : U64) : Prop where
  kmem : KmemInv r
  direct : DirectMap r.kmem
  tree : TableTree (child r.kmem.hhdmOffset mem) pml4 LowerPath 3
  table : ∀ t, IsTable (child r.kmem.hhdmOffset mem) pml4 LowerPath 3 t →
    PageAligned t ∧ ⟨t, 1⟩ ∈ r.live

theorem child_eq_some {hhdm : U64} {mem : Memory} {t p attributes : U64} {i : Nat}
    (hp : PageAligned p) (hh : PageAligned hhdm) (hlt : hhdm.toNat < p.toNat)
    (ha : attributes &&& pageAddressMask = 0)
    (he : mem (entryAddress t i) = (p - hhdm) ||| attributes) : child hhdm mem t i = some p := by
  have halign : PageAligned (p - hhdm) := by
    simp only [PageAligned] at hp hh ⊢
    rw [BitVec.toNat_sub]
    omega
  have hne : p - hhdm ≠ 0 := by bv_omega
  rw [child, he, or_attributes_mask halign ha, if_neg hne, BitVec.sub_add_cancel]

theorem child_eq_none {hhdm : U64} {mem : Memory} {t : U64} {i : Nat}
    (he : mem (entryAddress t i) = 0) : child hhdm mem t i = none := by
  simp [child, he]

theorem child_congr {hhdm : U64} {mem mem' : Memory} {t : U64} {i : Nat}
    (he : mem' (entryAddress t i) = mem (entryAddress t i)) :
    child hhdm mem' t i = child hhdm mem t i := by
  simp only [child, he]

theorem leaf_congr {mem mem' : Memory} {t : U64} {i : Nat}
    (he : mem' (entryAddress t i) = mem (entryAddress t i)) : leaf mem' t i = leaf mem t i := by
  simp only [leaf, he]

/-- Tables are added in new frames, and nothing but tables is written in the frames
that were allocated before. -/
structure TablesGrow (pml4 : U64) (r : KmemRun) (mem : Memory) (r' : KmemRun) (mem' : Memory) :
    Prop where
  steps : Relation.ReflTransGen KmemStep r r'
  live : ∀ b ∈ r.live, b ∈ r'.live
  tables : ∀ t, IsTable (child r.kmem.hhdmOffset mem') pml4 LowerPath 3 t →
    IsTable (child r.kmem.hhdmOffset mem) pml4 LowerPath 3 t ∨ ⟨t, 1⟩ ∉ r.live
  outside : ∀ a, ⟨a &&& pageAddressMask, 1⟩ ∈ r.live →
    ¬IsTable (child r.kmem.hhdmOffset mem) pml4 LowerPath 3 (a &&& pageAddressMask) →
    mem' a = mem a

namespace TablesGrow

variable {r r' r'' : KmemRun} {mem mem' mem'' : Memory} {pml4 : U64}

theorem hhdm (h : TablesGrow pml4 r mem r' mem') : r'.kmem.hhdmOffset = r.kmem.hhdmOffset :=
  (kmemSteps_region h.steps).1

theorem refl (pml4 : U64) (r : KmemRun) (mem : Memory) : TablesGrow pml4 r mem r mem :=
  ⟨.refl, fun _ hb => hb, fun _ ht => Or.inl ht, fun _ _ _ => rfl⟩

theorem trans (h : TablesGrow pml4 r mem r' mem') (h' : TablesGrow pml4 r' mem' r'' mem'') :
    TablesGrow pml4 r mem r'' mem'' := by
  obtain ⟨hsteps', hlive', htables', houtside'⟩ := h'
  rw [h.hhdm] at htables' houtside'
  refine ⟨h.steps.trans hsteps', fun b hb => hlive' b (h.live b hb), ?_, ?_⟩
  · intro t ht
    rcases htables' t ht with ht | ht
    · exact h.tables t ht
    · exact Or.inr fun hl => ht (h.live _ hl)
  · intro a hl ht
    rw [← h.outside a hl ht]
    refine houtside' a (h.live _ hl) fun ht' => ?_
    exact (h.tables _ ht').elim ht fun hn => hn hl

end TablesGrow

section NextTable

variable {r : KmemRun} {mem : Memory} {pml4 : U64} {p : List Nat} {i : Nat} {t f : U64}

/-- Memory after `nextTable` has created table `f` under entry `i` of table `t`. -/
def graftTable (hhdm : U64) (mem : Memory) (t : U64) (i : Nat) (f : U64) : Memory :=
  writeWord (clearPage mem f) (entryAddress t i) ((f - hhdm) ||| pageDirectoryAttributes)

theorem graftTable_other {hhdm : U64} (ht : PageAligned t) (hi : i < 512) {u : U64} {j : Nat}
    (hu : PageAligned u) (hj : j < 512) (huf : u ≠ f) (hne : ¬ (u = t ∧ j = i)) :
    graftTable hhdm mem t i f (entryAddress u j) = mem (entryAddress u j) := by
  have h₁ : entryAddress u j ≠ entryAddress t i := fun he => hne (entryAddress_inj hu ht hj hi he)
  simp [graftTable, writeWord, clearPage, h₁, entryAddress_mask hu hj, huf]

theorem graftTable_new {hhdm : U64} (ht : PageAligned t) (hi : i < 512) (hf : PageAligned f)
    (htf : t ≠ f) {j : Nat} (hj : j < 512) :
    graftTable hhdm mem t i f (entryAddress f j) = 0 := by
  have h₁ : entryAddress f j ≠ entryAddress t i :=
    fun he => htf (entryAddress_inj hf ht hj hi he).1.symm
  simp [graftTable, writeWord, clearPage, h₁, entryAddress_mask hf hj]

theorem PageTables.descend_graft (h : PageTables r mem pml4) (hp : Paths LowerPath 3 (p ++ [i]))
    (ht : descend (child r.kmem.hhdmOffset mem) pml4 p = some t)
    (habsent : child r.kmem.hhdmOffset mem t i = none) (hf : PageAligned f)
    (hlt : r.kmem.hhdmOffset.toNat < f.toNat)
    (hfresh : ¬ IsTable (child r.kmem.hhdmOffset mem) pml4 LowerPath 3 f) {q : List Nat}
    (hq : Paths LowerPath 3 q) :
    descend (child r.kmem.hhdmOffset (graftTable r.kmem.hhdmOffset mem t i f)) pml4 q =
      if q = p ++ [i] then some f else descend (child r.kmem.hhdmOffset mem) pml4 q := by
  have hpre : ∀ path i, LowerPath (path ++ [i]) → LowerPath path := fun _ _ => LowerPath.of_snoc
  have hpp := (hp.of_snoc hpre).1
  have hta := (h.table t ⟨p, hpp, ht⟩).1
  have hi := LowerPath.lt_of_snoc hp.ok
  have htf : t ≠ f := by rintro rfl; exact hfresh ⟨p, hpp, ht⟩
  apply h.tree.descend_graft hp ht habsent
  · have ha : pageDirectoryAttributes &&& pageAddressMask = 0 := by decide
    exact child_eq_some hf h.direct.offset_aligned hlt ha (by simp [graftTable, writeWord])
  · intro j hj
    exact child_eq_none (graftTable_new hta hi hf htf (LowerPath.lt_of_snoc hj.ok))
  · intro q j u hqj hu hne
    have hqq := (hqj.of_snoc hpre).1
    refine child_congr (graftTable_other hta hi (h.table u ⟨q, hqq, hu⟩).1
      (LowerPath.lt_of_snoc hqj.ok) ?_ ?_)
    · rintro rfl
      exact hfresh ⟨q, hqq, hu⟩
    · intro hmem
      obtain ⟨rfl, rfl⟩ := hmem
      exact hne (by rw [h.tree.inj q p u hqq hpp hu ht])
  · exact hq

/-- Creating a table changes no translation: the pages it will serve were
absent and stay absent. -/
theorem PageTables.translate_graft (h : PageTables r mem pml4) (hp : Paths LowerPath 3 (p ++ [i]))
    (ht : descend (child r.kmem.hhdmOffset mem) pml4 p = some t)
    (habsent : child r.kmem.hhdmOffset mem t i = none) (hf : PageAligned f)
    (hlt : r.kmem.hhdmOffset.toNat < f.toNat)
    (hfresh : ¬ IsTable (child r.kmem.hhdmOffset mem) pml4 LowerPath 3 f) {v : U64}
    (hv : v.toNat < 2 ^ 47) :
    translate r.kmem.hhdmOffset (graftTable r.kmem.hhdmOffset mem t i f) pml4 v =
      translate r.kmem.hhdmOffset mem pml4 v := by
  have hpre : ∀ path i, LowerPath (path ++ [i]) → LowerPath path := fun _ _ => LowerPath.of_snoc
  have hpp := hp.of_snoc hpre
  have hta := (h.table t ⟨p, hpp.1, ht⟩).1
  have hi := LowerPath.lt_of_snoc hp.ok
  have htf : t ≠ f := by rintro rfl; exact hfresh ⟨p, hpp.1, ht⟩
  have hvp := tablePath_paths hv
  rw [translate, translate, h.descend_graft hp ht habsent hf hlt hfresh hvp]
  by_cases hvi : tablePath v = p ++ [i]
  · have hz : graftTable r.kmem.hhdmOffset mem t i f (entryAddress f (tableIndex v 12)) = 0 :=
      graftTable_new hta hi hf htf (tableIndex_lt v 12)
    rw [if_pos hvi, hvi, descend_snoc, ht]
    simp [habsent, leaf, hz]
  · rw [if_neg hvi]
    cases hd : descend (child r.kmem.hhdmOffset mem) pml4 (tablePath v) with
    | none => rfl
    | some u =>
      refine leaf_congr
        (graftTable_other hta hi (h.table u ⟨_, hvp, hd⟩).1 (tableIndex_lt v 12) ?_ ?_)
      · rintro rfl
        exact hfresh ⟨_, hvp, hd⟩
      · -- the table of a page is found after three indices, the changed one earlier
        intro hmem
        obtain ⟨rfl, -⟩ := hmem
        have he := congrArg List.length (h.tree.inj _ _ u hvp hpp.1 hd ht)
        have hl := hpp.2
        simp only [tablePath, List.length_cons, List.length_nil] at he
        omega

theorem PageTables.nextTable (h : PageTables r mem pml4) (hp : Paths LowerPath 3 (p ++ [i]))
    (ht : descend (child r.kmem.hhdmOffset mem) pml4 p = some t) {r' : KmemRun} {mem' : Memory}
    {u : U64} (hn : nextTable KmemRun.allocPage r.kmem.hhdmOffset r mem (entryAddress t i) =
      .ok (u, r', mem')) :
    PageTables r' mem' pml4 ∧ TablesGrow pml4 r mem r' mem' ∧
      descend (child r.kmem.hhdmOffset mem') pml4 (p ++ [i]) = some u ∧
      ∀ v : U64, v.toNat < 2 ^ 47 → translate r.kmem.hhdmOffset mem' pml4 v =
        translate r.kmem.hhdmOffset mem pml4 v := by
  rw [Persistos.nextTable] at hn
  split at hn
  · next habs =>
    have hz : mem (entryAddress t i) &&& pageAddressMask = 0 := by bv_omega
    have habsent : child r.kmem.hhdmOffset mem t i = none := by simp only [child, hz, if_true]
    split at hn
    · simp at hn
    · next f r₁ ha =>
      simp only [Except.ok.injEq, Prod.mk.injEq] at hn
      obtain ⟨rfl, rfl, rfl⟩ := hn
      obtain ⟨hf, hnl, hlt⟩ := KmemRun.allocPage_frame h.kmem h.direct ha
      obtain ⟨hstep, hlive⟩ := KmemRun.allocPage_step ha
      have hfresh : ¬ IsTable (child r.kmem.hhdmOffset mem) pml4 LowerPath 3 f :=
        fun hh => hnl (h.table f hh).2
      have hoff := hstep.region.1
      have hd := fun q (hq : Paths LowerPath 3 q) => h.descend_graft hp ht habsent hf hlt hfresh hq
      refine ⟨⟨hstep.inv h.kmem, h.direct.step hstep, ?_, ?_⟩, ⟨.single hstep, ?_, ?_, ?_⟩, ?_,
        fun v hv => h.translate_graft hp ht habsent hf hlt hfresh hv⟩
      · rw [hoff]
        exact h.tree.graft hfresh hd
      · rw [hoff, hlive]
        intro w hmem
        obtain ⟨q, hq, hw⟩ := hmem
        change descend (child r.kmem.hhdmOffset (graftTable r.kmem.hhdmOffset mem t i f)) pml4 q
          = _ at hw
        rw [hd q hq] at hw
        split at hw
        · obtain rfl := Option.some.inj hw
          exact ⟨hf, List.mem_cons_self⟩
        · have hh := h.table w ⟨q, hq, hw⟩
          exact ⟨hh.1, List.mem_cons_of_mem _ hh.2⟩
      · rw [hlive]
        exact fun b hb => List.mem_cons_of_mem _ hb
      · rintro w ⟨q, hq, hw⟩
        replace hw := (hd q hq).symm.trans hw
        split at hw
        · obtain rfl := Option.some.inj hw
          exact Or.inr hnl
        · exact Or.inl ⟨q, hq, hw⟩
      · intro a hl hnot
        have htt : IsTable (child r.kmem.hhdmOffset mem) pml4 LowerPath 3 t :=
          ⟨p, (hp.of_snoc fun _ _ => LowerPath.of_snoc).1, ht⟩
        refine (if_neg ?_).trans (if_neg ?_)
        · rintro rfl
          rw [entryAddress_mask (h.table t htt).1 (LowerPath.lt_of_snoc hp.ok)] at hnot
          exact hnot htt
        · rintro rfl
          exact hnl hl
      · exact (hd _ hp).trans (if_pos rfl)
  · next hpres =>
    simp only [Except.ok.injEq, Prod.mk.injEq] at hn
    obtain ⟨rfl, rfl, rfl⟩ := hn
    have hz : mem (entryAddress t i) &&& pageAddressMask ≠ 0 := by
      intro hz
      exact hpres (by rw [hz]; exact BitVec.zero_add _)
    refine ⟨h, .refl pml4 r mem, ?_, fun _ _ => rfl⟩
    rw [descend_snoc, ht]
    simp only [Option.bind_some, child, hz, if_false]

end NextTable

end Persistos
