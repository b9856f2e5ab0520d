import Persistos.MapTables

/-! `set_page_mapping` as an update of a map from virtual pages, over every run
of calls on a tree that starts without lower-half tables, while the rest of
the kernel allocates, frees and writes outside the tables. -/

namespace Persistos

open Theory

def leafAttributes (isMmio : Bool) : U64 :=
  if isMmio then pageTableMmioAttributes else pageTableAttributes

theorem leafAttributes_mask (isMmio : Bool) : leafAttributes isMmio &&& pageAddressMask = 0 := by
  cases isMmio <;> decide

theorem leafAttributes_offset (isMmio : Bool) :
    leafAttributes isMmio &&& 0xFFF = leafAttributes isMmio := by
  cases isMmio <;> decide

section Call

variable {r r' : KmemRun} {mem mem' : Memory} {pml4 virt phys : U64} {isMmio : Bool}

/-- Writing an entry of a page table changes no table, and the translation of
the one page whose entry it is. -/
theorem PageTables.writeLeaf (h : PageTables r mem pml4) (hv : virt.toNat < 2 ^ 47)
    (hp : PageAligned phys) (hp₀ : phys ≠ 0) {t : U64}
    (ht : descend (child r.kmem.hhdmOffset mem) pml4 (tablePath virt) = some t)
    (hm : mem' = writeWord mem (entryAddress t (tableIndex virt 12))
      (phys ||| leafAttributes isMmio)) :
    PageTables r mem' pml4 ∧ TablesGrow pml4 r mem r mem' ∧ ∀ v : U64, v.toNat < 2 ^ 47 →
      translate r.kmem.hhdmOffset mem' pml4 v =
        if v >>> 12 = virt >>> 12 then some (phys, leafAttributes isMmio)
        else translate r.kmem.hhdmOffset mem pml4 v := by
  have hpre : ∀ path i, LowerPath (path ++ [i]) → LowerPath path := fun _ _ => LowerPath.of_snoc
  have hvp := tablePath_paths hv
  have hta := (h.table t ⟨_, hvp, ht⟩).1
  have hother : ∀ u j, PageAligned u → j < 512 → ¬ (u = t ∧ j = tableIndex virt 12) →
      mem' (entryAddress u j) = mem (entryAddress u j) := by
    intro u j hu hj hne
    rw [hm, writeWord, if_neg]
    exact fun he => hne (entryAddress_inj hu hta hj (tableIndex_lt _ _) he)
  have hd : ∀ q, Paths LowerPath 3 q → descend (child r.kmem.hhdmOffset mem') pml4 q =
      descend (child r.kmem.hhdmOffset mem) pml4 q := by
    intro q hq
    refine descend_congr hpre ?_ hq
    intro q j u hqj hu
    have hqq := hqj.of_snoc hpre
    refine child_congr (hother u j (h.table u ⟨q, hqq.1, hu⟩).1 (LowerPath.lt_of_snoc hqj.ok) ?_)
    intro hmem
    obtain ⟨rfl, -⟩ := hmem
    have he := congrArg List.length (h.tree.inj _ _ u hvp hqq.1 ht hu)
    simp only [tablePath, List.length_cons, List.length_nil] at he
    omega
  refine ⟨⟨h.kmem, h.direct, h.tree.congr hd, ?_⟩, ⟨.refl, fun _ hb => hb, ?_, ?_⟩, ?_⟩
  · intro u hmem
    obtain ⟨q, hq, hu⟩ := hmem
    exact h.table u ⟨q, hq, hd q hq ▸ hu⟩
  · rintro u ⟨q, hq, hu⟩
    exact Or.inl ⟨q, hq, hd q hq ▸ hu⟩
  · intro a _ hnot
    rw [hm]
    refine if_neg ?_
    rintro rfl
    rw [entryAddress_mask hta (tableIndex_lt _ _)] at hnot
    exact hnot ⟨_, hvp, ht⟩
  · intro v hvv
    have hvq := tablePath_paths hvv
    rw [translate, translate, hd _ hvq]
    by_cases hpage : v >>> 12 = virt >>> 12
    · have hi := indices_of_page_eq hpage
      rw [if_pos hpage, hi.1, hi.2, ht]
      have he : mem' (entryAddress t (tableIndex virt 12)) = phys ||| leafAttributes isMmio := by
        rw [hm, writeWord, if_pos rfl]
      simp only [Option.bind_some, leaf, he, or_attributes_mask hp (leafAttributes_mask _),
        or_attributes_offset hp (leafAttributes_offset _), hp₀, if_false]
    · rw [if_neg hpage]
      cases hu : descend (child r.kmem.hhdmOffset mem) pml4 (tablePath v) with
      | none => rfl
      | some u =>
        refine leaf_congr (hother u _ (h.table u ⟨_, hvq, hu⟩).1 (tableIndex_lt _ _) ?_)
        intro hmem
        obtain ⟨rfl, hi⟩ := hmem
        exact hpage (page_eq_of_indices hvv hv (h.tree.inj _ _ u hvq hvp hu ht) hi)

theorem PageTables.setPageMapping (h : PageTables r mem pml4) (hv : virt.toNat < 2 ^ 47)
    (hp : PageAligned phys) (hp₀ : phys ≠ 0)
    (hs : setPageMapping KmemRun.allocPage r.kmem.hhdmOffset r mem pml4 virt phys isMmio =
      .ok (r', mem')) :
    PageTables r' mem' pml4 ∧ TablesGrow pml4 r mem r' mem' ∧
      ∀ v : U64, v.toNat < 2 ^ 47 → translate r.kmem.hhdmOffset mem' pml4 v =
        if v >>> 12 = virt >>> 12 then some (phys, leafAttributes isMmio)
        else translate r.kmem.hhdmOffset mem pml4 v := by
  have hpre : ∀ path i, LowerPath (path ++ [i]) → LowerPath path := fun _ _ => LowerPath.of_snoc
  have hp₃ := tablePath_paths hv
  have hp₂ : Paths LowerPath 3 ([tableIndex virt 39] ++ [tableIndex virt 30]) :=
    (show Paths LowerPath 3 ([_, _] ++ [_]) from hp₃).of_snoc hpre |>.1
  have hp₁ : Paths LowerPath 3 ([] ++ [tableIndex virt 39]) := (hp₂.of_snoc hpre).1
  simp only [Persistos.setPageMapping, and_pageOffset hp, ne_eq, not_true, if_false] at hs
  obtain ⟨⟨t₁, r₁, m₁⟩, h₁, hs⟩ := bind_eq_ok hs
  obtain ⟨⟨t₂, r₂, m₂⟩, h₂, hs⟩ := bind_eq_ok hs
  obtain ⟨⟨t₃, r₃, m₃⟩, h₃, hs⟩ := bind_eq_ok hs
  obtain ⟨i₁, g₁, d₁, e₁⟩ := h.nextTable hp₁ rfl h₁
  have o₁ := g₁.hhdm
  rw [← o₁] at h₂ d₁
  obtain ⟨i₂, g₂, d₂, e₂⟩ := i₁.nextTable hp₂ d₁ h₂
  have o₂ := g₂.hhdm
  rw [← o₁, ← o₂] at h₃
  rw [← o₂] at d₂
  obtain ⟨i₃, g₃, d₃, e₃⟩ := i₂.nextTable (p := [_, _]) hp₃ d₂ h₃
  have o₃ := g₃.hhdm
  rw [← o₃] at d₃
  obtain ⟨rfl, rfl⟩ := Prod.mk.inj (Except.ok.inj hs)
  obtain ⟨i₄, g₄, e₄⟩ := i₃.writeLeaf hv hp hp₀ d₃ rfl
  have ho : r₃.kmem.hhdmOffset = r.kmem.hhdmOffset := o₃.trans (o₂.trans o₁)
  refine ⟨i₄, ((g₁.trans g₂).trans g₃).trans g₄, ?_⟩
  intro v hvv
  have hh := e₄ v hvv
  rw [ho] at hh
  have htr : translate r.kmem.hhdmOffset m₃ pml4 v = translate r.kmem.hhdmOffset mem pml4 v := by
    rw [← e₁ v hvv, ← o₁, ← e₂ v hvv, ← o₂, ← e₃ v hvv]
  rw [← htr]
  exact hh

theorem PageTables.descend_outside (h : PageTables r mem pml4)
    (hm : ∀ a, IsTable (child r.kmem.hhdmOffset mem) pml4 LowerPath 3 (a &&& pageAddressMask) →
      mem' a = mem a) {q : List Nat} (hq : Paths LowerPath 3 q) :
    descend (child r.kmem.hhdmOffset mem') pml4 q = descend (child r.kmem.hhdmOffset mem) pml4 q := by
  have hpre : ∀ path i, LowerPath (path ++ [i]) → LowerPath path := fun _ _ => LowerPath.of_snoc
  refine descend_congr hpre ?_ hq
  intro q j u hqj hu
  have hj := LowerPath.lt_of_snoc hqj.ok
  have ht : IsTable (child r.kmem.hhdmOffset mem) pml4 LowerPath 3 u := ⟨q, (hqj.of_snoc hpre).1, hu⟩
  exact child_congr (hm _ (by rwa [entryAddress_mask (h.table u ht).1 hj]))

theorem PageTables.writeOutside (h : PageTables r mem pml4)
    (hm : ∀ a, IsTable (child r.kmem.hhdmOffset mem) pml4 LowerPath 3 (a &&& pageAddressMask) →
      mem' a = mem a) :
    PageTables r mem' pml4 ∧ ∀ v : U64, v.toNat < 2 ^ 47 →
      translate r.kmem.hhdmOffset mem' pml4 v = translate r.kmem.hhdmOffset mem pml4 v := by
  have hd := fun q (hq : Paths LowerPath 3 q) => h.descend_outside hm hq
  refine ⟨⟨h.kmem, h.direct, h.tree.congr hd, ?_⟩, ?_⟩
  · intro u hmem
    obtain ⟨q, hq, hu⟩ := hmem
    exact h.table u ⟨q, hq, hd q hq ▸ hu⟩
  · intro v hv
    have hvq := tablePath_paths hv
    rw [translate, translate, hd _ hvq]
    cases hu : descend (child r.kmem.hhdmOffset mem) pml4 (tablePath v) with
    | none => rfl
    | some u =>
      have ht : IsTable (child r.kmem.hhdmOffset mem) pml4 LowerPath 3 u := ⟨_, hvq, hu⟩
      refine leaf_congr (hm _ ?_)
      rwa [entryAddress_mask (h.table u ht).1 (tableIndex_lt _ _)]

/-- A root whose frame is live and whose lower half has no entries. -/
structure EmptyLowerHalf (r : KmemRun) (mem : Memory) (pml4 : U64) : Prop where
  aligned : PageAligned pml4
  live : ⟨pml4, 1⟩ ∈ r.live
  zero : ∀ i < 256, mem (entryAddress pml4 i) = 0

theorem descend_childless {hhdm : U64} (h : ∀ i < 256, child hhdm mem pml4 i = none) {q : List Nat}
    (hq : LowerPath q) : descend (child hhdm mem) pml4 q = if q = [] then some pml4 else none := by
  cases q with
  | nil => rfl
  | cons i q => simp [descend, h i (hq.2 i rfl)]

theorem translate_childless {hhdm v : U64} (h : ∀ i < 256, child hhdm mem pml4 i = none)
    (hv : v.toNat < 2 ^ 47) : translate hhdm mem pml4 v = none := by
  rw [translate, descend_childless h (tablePath_paths hv).ok]
  rfl

/-- A root alone is a tree of tables. -/
theorem PageTables.of_childless (hr : KmemInv r) (hd : DirectMap r.kmem) (ha : PageAligned pml4)
    (hl : ⟨pml4, 1⟩ ∈ r.live) (h : ∀ i < 256, child r.kmem.hhdmOffset mem pml4 i = none) :
    PageTables r mem pml4 := by
  have hnil : ∀ q t, Paths LowerPath 3 q → descend (child r.kmem.hhdmOffset mem) pml4 q = some t →
      q = [] ∧ t = pml4 := by
    intro q t hq hqt
    rw [descend_childless h hq.ok] at hqt
    split at hqt
    · next he => exact ⟨he, (Option.some.inj hqt).symm⟩
    · simp at hqt
  refine ⟨hr, hd, ⟨fun _ _ => LowerPath.of_snoc, ?_⟩, ?_⟩
  · intro p q t hp hq hpt hqt
    rw [(hnil p t hp hpt).1, (hnil q t hq hqt).1]
  · intro t hmem
    obtain ⟨q, hq, hqt⟩ := hmem
    rw [(hnil q t hq hqt).2]
    exact ⟨ha, hl⟩

theorem EmptyLowerHalf.childless (h : EmptyLowerHalf r mem pml4) (hhdm : U64) :
    ∀ i < 256, child hhdm mem pml4 i = none := fun i hi => child_eq_none (h.zero i hi)

theorem EmptyLowerHalf.pageTables (h : EmptyLowerHalf r mem pml4) (hr : KmemInv r)
    (hd : DirectMap r.kmem) : PageTables r mem pml4 :=
  .of_childless hr hd h.aligned h.live (h.childless _)

theorem EmptyLowerHalf.translate_eq (h : EmptyLowerHalf r mem pml4) {hhdm v : U64}
    (hv : v.toNat < 2 ^ 47) : translate hhdm mem pml4 v = none :=
  translate_childless (h.childless hhdm) hv

end Call

structure PagingRun where
  kernel : KmemRun
  mem : Memory
  calls : U64 → Option (U64 × U64)

inductive PagingStep (pml4 : U64) : PagingRun → PagingRun → Prop where
  | map {s : PagingRun} {virt phys : U64} {isMmio : Bool} {r : KmemRun} {mem : Memory}
      (hv : virt.toNat < 2 ^ 47) (hp : PageAligned phys) (hp₀ : phys ≠ 0)
      (h : setPageMapping KmemRun.allocPage s.kernel.kmem.hhdmOffset s.kernel s.mem pml4
        virt phys isMmio = .ok (r, mem)) :
      PagingStep pml4 s ⟨r, mem, fun page =>
        if page = virt >>> 12 then some (phys, leafAttributes isMmio) else s.calls page⟩
  | kernel {s : PagingRun} {r : KmemRun} (h : KmemStep s.kernel r)
      (hkeep : ∀ t, IsTable (child s.kernel.kmem.hhdmOffset s.mem) pml4 LowerPath 3 t →
        ⟨t, 1⟩ ∈ r.live) :
      PagingStep pml4 s ⟨r, s.mem, s.calls⟩
  | write {s : PagingRun} {mem : Memory}
      (h : ∀ a, IsTable (child s.kernel.kmem.hhdmOffset s.mem) pml4 LowerPath 3
        (a &&& pageAddressMask) → mem a = s.mem a) :
      PagingStep pml4 s ⟨s.kernel, mem, s.calls⟩

structure PagingInv (hhdm pml4 : U64) (s : PagingRun) : Prop where
  tables : PageTables s.kernel s.mem pml4
  offset : s.kernel.kmem.hhdmOffset = hhdm
  calls : ∀ v : U64, v.toNat < 2 ^ 47 → translate hhdm s.mem pml4 v = s.calls (v >>> 12)

theorem PagingStep.inv {hhdm pml4 : U64} {s t : PagingRun} (h : PagingStep pml4 s t)
    (hs : PagingInv hhdm pml4 s) : PagingInv hhdm pml4 t := by
  obtain ⟨htab, rfl, hcalls⟩ := hs
  cases h with
  | map hv hp hp₀ h =>
    obtain ⟨ht, hgrow, htr⟩ := htab.setPageMapping hv hp hp₀ h
    refine ⟨ht, hgrow.hhdm, fun v hvv => ?_⟩
    rw [htr v hvv, hcalls v hvv]
  | kernel h hkeep =>
    have ho := h.region.1
    refine ⟨⟨h.inv htab.kmem, htab.direct.step h, ?_, ?_⟩, ho, hcalls⟩
    · rw [ho]
      exact htab.tree
    · rw [ho]
      exact fun t ht => ⟨(htab.table t ht).1, hkeep t ht⟩
  | write h =>
    obtain ⟨ht, htr⟩ := htab.writeOutside h
    exact ⟨ht, rfl, fun v hv => (htr v hv).trans (hcalls v hv)⟩

/-- The four-level walk finds what the last call for a page said and nothing
for pages without a call, and no call touches the translation of another page. -/
theorem setPageMapping_is_map {hhdm : Option U64} {memmap : Option (List MemmapEntry)} {k : Kmem}
    (hk : kmemInit hhdm memmap = .ok k) (hd : DirectMap k) {r : KmemRun} (hr : KmemReachable k r)
    {mem : Memory} {pml4 : U64} (h₀ : EmptyLowerHalf r mem pml4) {s : PagingRun}
    (h : Relation.ReflTransGen (PagingStep pml4) ⟨r, mem, fun _ => none⟩ s) :
    (∀ v : U64, v.toNat < 2 ^ 47 →
      translate k.hhdmOffset s.mem pml4 v = s.calls (v >>> 12)) ∧
    ∀ (virt phys : U64) (isMmio : Bool) (r' : KmemRun) (mem' : Memory), virt.toNat < 2 ^ 47 →
      PageAligned phys → phys ≠ 0 →
      setPageMapping KmemRun.allocPage k.hhdmOffset s.kernel s.mem pml4 virt phys isMmio =
        .ok (r', mem') →
      ∀ v : U64, v.toNat < 2 ^ 47 → v >>> 12 ≠ virt >>> 12 →
        translate k.hhdmOffset mem' pml4 v = translate k.hhdmOffset s.mem pml4 v := by
  have hdr := hr.directMap hd
  have hs : PagingInv k.hhdmOffset pml4 s := by
    induction h with
    | refl =>
      exact ⟨h₀.pageTables (hr.inv hk) hdr.1, hdr.2, fun v hv => h₀.translate_eq hv⟩
    | tail _ hstep ih => exact hstep.inv ih
  refine ⟨hs.calls, ?_⟩
  intro virt phys isMmio r' mem' hv hp hp₀ hm v hvv hne
  have ho := hs.offset
  rw [← ho] at hm ⊢
  rw [(hs.tables.setPageMapping hv hp hp₀ hm).2.2 v hvv, if_neg hne]

/-- One page mapped below a root that is the first frame handed out. -/
theorem setPageMapping_is_map_one_call : ∃ k r s, ∃ pml4 : U64,
    kmemInit (some 0xffff800000000000) (some [⟨0x100000, 0x10000, 0⟩]) = .ok k ∧
      KmemReachable k r ∧
      Relation.ReflTransGen (PagingStep pml4) ⟨r, fun _ => 0, fun _ => none⟩ s ∧
      translate k.hhdmOffset s.mem pml4 0x400123 = some (0x200000, 0xE7) := by
  refine ⟨_, _, _, 0xffff800000101000, rfl, .single (.alloc (n := 1) (by decide) rfl),
    .single (@PagingStep.map _ _ 0x400000 0x200000 false _ _ (by decide) (by decide) (by decide)
      rfl), ?_⟩
  have hh := @setPageMapping_is_map (some 0xffff800000000000) (some [⟨0x100000, 0x10000, 0⟩]) _ rfl
    (by constructor <;> simp [PageAligned]) _ (.single (.alloc (n := 1) (by decide) rfl))
    (fun _ => 0) 0xffff800000101000 ⟨by decide, List.mem_cons_self, fun _ _ => rfl⟩ _
    (.single (@PagingStep.map _ _ 0x400000 0x200000 false _ _ (by decide) (by decide) (by decide)
      rfl))
  exact hh.1 0x400123 (by decide)

end Persistos
