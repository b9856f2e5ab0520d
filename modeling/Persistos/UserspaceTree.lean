import Persistos.Userspace

/-! The lower half of an address space as a tree that owns its frames: which frames
`map_user_page` adds to it, and that it writes nowhere else. -/

namespace Persistos

open Theory

variable {s s' s'' : UserSpace} {pml4 f t : U64} {p : List Nat} {i : Nat}

namespace UserSpace

/-- The table or page at the end of a path of entries. -/
def find (s : UserSpace) (pml4 : U64) (path : List Nat) : Option U64 :=
  descend (child s.hhdm s.mem) pml4 path

theorem widths_le : ∀ w ∈ widths, w ≤ 512 := by decide

/-- A table with a further entry on its path is no user page. -/
theorem fits_tables {q : List Nat} {j : Nat} (h : Fits widths (q ++ [j])) :
    Fits [256, 512, 512] q := by
  match q, h with
  | [], _ => trivial
  | [_], h => exact ⟨h.1, trivial⟩
  | [_, _], h => exact ⟨h.1, h.2.1, trivial⟩
  | [_, _, _], h => exact ⟨h.1, h.2.1, h.2.2.1, trivial⟩
  | _ :: _ :: _ :: _ :: q, h =>
    have hl := h.length_le
    simp only [widths, List.length_append, List.length_cons, List.length_nil] at hl
    omega

theorem mem_nodes : t ∈ s.nodes pml4 ↔
    ∃ q, q ≠ [] ∧ Fits widths q ∧ s.find pml4 q = some t := mem_below

theorem find_snoc : s.find pml4 (p ++ [i]) =
    (s.find pml4 p).bind fun t => child s.hhdm s.mem t i := descend_snoc _ _ _ _

theorem eq_or_mem_of_find {q : List Nat} (hq : Fits widths q) (h : s.find pml4 q = some t) :
    t = pml4 ∨ t ∈ s.nodes pml4 := by
  by_cases hnil : q = []
  · subst hnil
    exact Or.inl (Option.some.inj h).symm
  · exact Or.inr (mem_nodes.mpr ⟨q, hnil, hq, h⟩)

theorem isTable_iff : IsTable (child s.hhdm s.mem) pml4 (Fits widths) 4 t ↔
    t = pml4 ∨ t ∈ s.nodes pml4 := by
  constructor
  · rintro ⟨q, hq, h⟩
    exact eq_or_mem_of_find hq.ok h
  · rintro (rfl | h)
    · exact ⟨[], Fits.nil.paths, rfl⟩
    · obtain ⟨q, -, hq, hd⟩ := mem_nodes.mp h
      exact ⟨q, hq.paths, hd⟩

/-- The four entries that lead to the page of an address. -/
def userPath (v : U64) : List Nat := tablePath v ++ [tableIndex v 12]

theorem userPath_fits {v : U64} (hv : v.toNat < 2 ^ 47) : Fits widths (userPath v) := by
  refine ⟨?_, tableIndex_lt _ _, tableIndex_lt _ _, tableIndex_lt _ _, trivial⟩
  rw [tableIndex_eq]
  omega

theorem userPath_inj {v w : U64} (hv : v.toNat < 2 ^ 47) (hw : w.toNat < 2 ^ 47) :
    userPath v = userPath w ↔ v >>> 12 = w >>> 12 := by
  constructor
  · intro h
    obtain ⟨hp, hi⟩ := List.append_inj h rfl
    exact page_eq_of_indices hv hw hp (List.cons.inj hi).1
  · intro h
    obtain ⟨hp, hi⟩ := indices_of_page_eq h
    rw [userPath, userPath, hp, hi]

end UserSpace

open UserSpace

/-- A tree of tables and pages in frames of their own. The pending pages belong to it
but hang in no table yet. -/
structure UserTree (s : UserSpace) (pml4 : U64) (pending : List U64) : Prop where
  kmem : KmemInv s.kernel
  direct : DirectMap s.kernel.kmem
  tree : TableTree (child s.hhdm s.mem) pml4 (Fits widths) 4
  live : ∀ t, t = pml4 ∨ t ∈ pending ∨ t ∈ s.nodes pml4 → ⟨t, 1⟩ ∈ s.kernel.live
  pending : ∀ t ∈ pending, t ≠ pml4 ∧ t ∉ s.nodes pml4
  zero : ∀ i < 256, child s.hhdm s.mem pml4 i = none → s.mem (entryAddress pml4 i) = 0

/-- From `s` to `s'` the frames `new` were allocated, all for the tree, and nothing was
written outside the lower half of its root, its other frames and the new ones. -/
structure Grows (pml4 : U64) (s s' : UserSpace) (pending pending' new : List U64) : Prop where
  kernel : Relation.ReflTransGen KmemStep s.kernel s'.kernel
  live : s'.kernel.live = new.map (⟨·, 1⟩) ++ s.kernel.live
  nodes : ∀ t, t ∈ pending' ∨ t ∈ s'.nodes pml4 ↔ t ∈ new ∨ t ∈ pending ∨ t ∈ s.nodes pml4
  outside : ∀ a, a &&& pageAddressMask ≠ pml4 → a &&& pageAddressMask ∉ new →
    a &&& pageAddressMask ∉ pending → a &&& pageAddressMask ∉ s.nodes pml4 → s'.mem a = s.mem a
  upper : ∀ j, 256 ≤ j → j < 512 → s'.mem (entryAddress pml4 j) = s.mem (entryAddress pml4 j)

theorem Grows.hhdm {ps ps' new : List U64} (h : Grows pml4 s s' ps ps' new) :
    s'.hhdm = s.hhdm := (kmemSteps_region h.kernel).1

theorem Grows.refl (s : UserSpace) (pending : List U64) : Grows pml4 s s pending pending [] where
  kernel := .refl
  live := rfl
  nodes := by simp
  outside := fun _ _ _ _ _ => rfl
  upper := fun _ _ _ => rfl

theorem Grows.trans {ps ps' ps'' new new' : List U64} (h : Grows pml4 s s' ps ps' new)
    (h' : Grows pml4 s' s'' ps' ps'' new') : Grows pml4 s s'' ps ps'' (new' ++ new) where
  kernel := h.kernel.trans h'.kernel
  live := by rw [h'.live, h.live, List.map_append, List.append_assoc]
  nodes := by
    intro t
    rw [h'.nodes, h.nodes, List.mem_append, or_assoc]
  outside := by
    intro a hroot hnew hps hnodes
    rw [List.mem_append, not_or] at hnew
    have hh := mt (h.nodes _).mp (by simp only [not_or]; exact ⟨hnew.2, hps, hnodes⟩)
    rw [not_or] at hh
    rw [h'.outside a hroot hnew.1 hh.1 hh.2, h.outside a hroot hnew.2 hps hnodes]
  upper := fun j hj hj' => (h'.upper j hj hj').trans (h.upper j hj hj')

namespace UserTree

variable {ps : List U64}

theorem page (h : UserTree s pml4 ps) (ht : ⟨t, 1⟩ ∈ s.kernel.live) :
    PageAligned t ∧ s.hhdm.toNat < t.toNat := by
  obtain ⟨halign, hlt⟩ := h.kmem.page_toNat h.direct ht
  exact ⟨halign, Nat.lt_of_le_of_lt h.direct.offset_le hlt⟩

theorem live_of_find (h : UserTree s pml4 ps) {q : List Nat} (hq : Fits widths q)
    (ht : s.find pml4 q = some t) : ⟨t, 1⟩ ∈ s.kernel.live :=
  h.live t ((eq_or_mem_of_find hq ht).imp_right Or.inr)

/-- A change that keeps the entries of all tables keeps the tree. -/
theorem find_congr (h : UserTree s pml4 ps) (hhdm : s'.hhdm = s.hhdm)
    (hm : ∀ q j u, Fits widths (q ++ [j]) → s.find pml4 q = some u →
      s'.mem (entryAddress u j) = s.mem (entryAddress u j)) {q : List Nat} (hq : Fits widths q) :
    s'.find pml4 q = s.find pml4 q := by
  refine descend_congr h.tree.prefix_ok ?_ hq.paths
  intro q j u hqj hu
  rw [hhdm]
  exact child_congr (hm q j u hqj.ok hu)

theorem nodes_congr (hf : ∀ q, Fits widths q → s'.find pml4 q = s.find pml4 q) :
    t ∈ s'.nodes pml4 ↔ t ∈ s.nodes pml4 := by
  simp only [mem_nodes]
  refine exists_congr fun q => and_congr_right fun _ => and_congr_right fun hq => ?_
  rw [hf q hq]

/-- A new page that hangs in no table yet. -/
theorem allocCleared (h : UserTree s pml4 ps) (ha : s.allocCleared = .ok (f, s')) :
    UserTree s' pml4 (f :: ps) ∧ Grows pml4 s s' ps (f :: ps) [f] ∧ ⟨f, 1⟩ ∉ s.kernel.live ∧
      (∀ q, Fits widths q → s'.find pml4 q = s.find pml4 q) ∧
      ∀ j < 512, s'.mem (entryAddress f j) = 0 := by
  obtain ⟨⟨f, kernel⟩, hp, he⟩ := bind_eq_ok ha
  simp only [Except.ok.injEq, Prod.mk.injEq] at he
  obtain ⟨rfl, hs⟩ := he
  obtain ⟨halign, hfresh, -⟩ := KmemRun.allocPage_frame h.kmem h.direct hp
  obtain ⟨hstep, hlive⟩ := KmemRun.allocPage_step hp
  have hkernel : s'.kernel = kernel := by rw [← hs]
  rw [← hkernel] at hstep hlive
  have hhdm : s'.hhdm = s.hhdm := hstep.region.1
  have hkeep : ∀ a, a &&& pageAddressMask ≠ f → s'.mem a = s.mem a := by
    intro a hne
    rw [← hs]
    exact if_neg hne
  have hentry : ∀ u j, ⟨u, 1⟩ ∈ s.kernel.live → j < 512 →
      s'.mem (entryAddress u j) = s.mem (entryAddress u j) := by
    intro u j hu hj
    refine hkeep _ ?_
    rw [entryAddress_mask (h.page hu).1 hj]
    rintro rfl
    exact hfresh hu
  have hfind : ∀ q, Fits widths q → s'.find pml4 q = s.find pml4 q := by
    intro q hq
    refine h.find_congr hhdm (fun q j u hqj hu => ?_) hq
    exact hentry u j (h.live_of_find hqj.of_append hu) (hqj.lt_of_snoc widths_le)
  have hnodes : ∀ t, t ∈ s'.nodes pml4 ↔ t ∈ s.nodes pml4 := fun t => nodes_congr hfind
  have hroot := h.live pml4 (Or.inl rfl)
  refine ⟨⟨hstep.inv h.kmem, h.direct.step hstep, ?_, ?_, ?_, ?_⟩, ⟨.single hstep, hlive, ?_, ?_, ?_⟩,
    hfresh, hfind, ?_⟩
  · exact h.tree.congr fun q hq => hfind q hq.ok
  · intro t ht
    rw [hnodes, List.mem_cons, or_assoc] at ht
    rw [hlive]
    rcases ht with rfl | rfl | ht | ht
    · exact List.mem_cons_of_mem _ hroot
    · exact List.mem_cons_self
    · exact List.mem_cons_of_mem _ (h.live t (Or.inr (Or.inl ht)))
    · exact List.mem_cons_of_mem _ (h.live t (Or.inr (Or.inr ht)))
  · intro t ht
    rw [hnodes]
    rcases List.mem_cons.mp ht with rfl | ht
    · refine ⟨?_, fun hmem => hfresh (h.live t (Or.inr (Or.inr hmem)))⟩
      rintro rfl
      exact hfresh hroot
    · exact h.pending t ht
  · intro i hi hc
    have he := hentry pml4 i hroot (by omega)
    rw [hhdm, child_congr he] at hc
    exact he.trans (h.zero i hi hc)
  · intro t
    rw [hnodes, List.mem_cons, List.mem_singleton, or_assoc]
  · intro a _ hnew _ _
    exact hkeep a (by simpa using hnew)
  · exact fun j _ hj => hentry pml4 j hroot hj
  · intro j hj
    rw [← hs]
    exact if_pos (entryAddress_mask halign hj)

/-- A pending page put under an entry without an address. -/
theorem link (h : UserTree s pml4 (f :: ps)) (hnd : f ∉ ps) (hp : Fits widths (p ++ [i]))
    (ht : s.find pml4 p = some t) (habsent : child s.hhdm s.mem t i = none) (attributes : U64)
    (ha : attributes &&& pageAddressMask = 0)
    (hempty : p.length < 3 → ∀ j < 512, s.mem (entryAddress f j) = 0)
    (hs : s' = ⟨s.kernel, writeWord s.mem (entryAddress t i) ((f - s.hhdm) ||| attributes)⟩) :
    UserTree s' pml4 ps ∧ Grows pml4 s s' (f :: ps) ps [] ∧
      ∀ q, Fits widths q → s'.find pml4 q = if q = p ++ [i] then some f else s.find pml4 q := by
  have hkernel : s'.kernel = s.kernel := by rw [hs]
  have hhdm : s'.hhdm = s.hhdm := by rw [hs]; rfl
  have hi := hp.lt_of_snoc widths_le
  obtain ⟨halign, hlt⟩ := h.page (h.live f (Or.inr (Or.inl List.mem_cons_self)))
  obtain ⟨hfroot, hfnodes⟩ := h.pending f List.mem_cons_self
  have hroot := (h.page (h.live pml4 (Or.inl rfl))).1
  have hta := (h.page (h.live_of_find hp.of_append ht)).1
  have htmem := eq_or_mem_of_find hp.of_append ht
  have htf : f ≠ t := by
    rintro rfl
    exact htmem.elim hfroot hfnodes
  have hentry : child s'.hhdm s'.mem t i = some f := by
    rw [hhdm]
    refine child_eq_some halign h.direct.offset_aligned hlt ha ?_
    rw [hs]
    exact if_pos rfl
  have hkeep : ∀ a, a ≠ entryAddress t i → s'.mem a = s.mem a := by
    intro a hne
    rw [hs]
    exact if_neg hne
  have hother : ∀ u j, PageAligned u → j < 512 → ¬(u = t ∧ j = i) →
      s'.mem (entryAddress u j) = s.mem (entryAddress u j) := by
    intro u j hu hj hne
    exact hkeep _ fun he => hne (entryAddress_inj hu hta hj hi he)
  have hfresh : ¬IsTable (child s.hhdm s.mem) pml4 (Fits widths) 4 f :=
    fun hmem => (isTable_iff.mp hmem).elim hfroot hfnodes
  have hfind : ∀ q, Fits widths q →
      s'.find pml4 q = if q = p ++ [i] then some f else s.find pml4 q := by
    intro q hq
    refine h.tree.descend_graft hp.paths ht habsent hentry ?_ ?_ hq.paths
    · intro j hj
      have hl := hj.length_le
      simp only [List.length_append, List.length_singleton] at hl
      have hj' := hj.ok.lt_of_snoc widths_le
      refine child_eq_none ?_
      rw [hother f j halign hj' fun hh => htf hh.1]
      exact hempty (by omega) j hj'
    · intro q j u hqj hu hne
      have hqf := hqj.ok.of_append
      rw [hhdm]
      refine child_congr (hother u j (h.page (h.live_of_find hqf hu)).1
        (hqj.ok.lt_of_snoc widths_le) ?_)
      rintro ⟨rfl, rfl⟩
      exact hne (by rw [h.tree.inj q p u hqf.paths hp.of_append.paths hu ht])
  have hnodes : ∀ u, u ∈ s'.nodes pml4 ↔ u = f ∨ u ∈ s.nodes pml4 := by
    intro u
    rw [mem_nodes, mem_nodes]
    constructor
    · rintro ⟨q, hnil, hq, hu⟩
      rw [hfind q hq] at hu
      split at hu
      · exact Or.inl (Option.some.inj hu).symm
      · exact Or.inr ⟨q, hnil, hq, hu⟩
    · rintro (rfl | ⟨q, hnil, hq, hu⟩)
      · exact ⟨p ++ [i], by simp, hp, (hfind _ hp).trans (if_pos rfl)⟩
      · refine ⟨q, hnil, hq, (hfind q hq).trans (Eq.trans (if_neg ?_) hu)⟩
        rintro rfl
        rw [find_snoc, ht, Option.bind_some, habsent] at hu
        cases hu
  refine ⟨⟨hkernel ▸ h.kmem, hkernel ▸ h.direct, ?_, ?_, ?_, ?_⟩, ⟨by rw [hkernel], by
    rw [hkernel]; rfl, ?_, ?_, ?_⟩, hfind⟩
  · exact h.tree.graft hfresh fun q hq => hfind q hq.ok
  · intro u hu
    rw [hnodes] at hu
    rw [hkernel]
    refine h.live u ?_
    rw [List.mem_cons]
    tauto
  · intro u hu
    obtain ⟨huroot, hunodes⟩ := h.pending u (List.mem_cons_of_mem f hu)
    refine ⟨huroot, fun hmem => ?_⟩
    rcases (hnodes u).mp hmem with rfl | hmem
    · exact hnd hu
    · exact hunodes hmem
  · intro j hj hc
    by_cases hti : pml4 = t ∧ j = i
    · obtain ⟨rfl, rfl⟩ := hti
      exact absurd (hentry.symm.trans hc) (Option.some_ne_none f)
    · have he := hother pml4 j hroot (by omega) hti
      rw [hhdm, child_congr he] at hc
      exact he.trans (h.zero j hj hc)
  · intro u
    rw [hnodes, List.mem_cons]
    simp only [List.not_mem_nil, false_or]
    tauto
  · intro a hroot' _ _ hmem
    refine hkeep a ?_
    rintro rfl
    rw [entryAddress_mask hta hi] at hroot' hmem
    exact htmem.elim hroot' hmem
  · intro j hj hj'
    refine hother pml4 j hroot hj' ?_
    rintro ⟨rfl, rfl⟩
    -- only the empty path leads to the root, and its entries are in the lower half
    obtain rfl := h.tree.inj p [] pml4 hp.of_append.paths Fits.nil.paths ht rfl
    exact absurd hp.1 (by omega)

/-- The next table on the way to a page, which is created where it is missing. -/
theorem nextTable (h : UserTree s pml4 ps) (hp : Fits widths (p ++ [i])) (hl : p.length < 3)
    (ht : s.find pml4 p = some t) {u : U64} {kernel : KmemRun} {mem : Memory}
    (hn : nextTable KmemRun.allocPage s.hhdm s.kernel s.mem (entryAddress t i) =
      .ok (u, kernel, mem)) :
    ∃ s' new, s' = ⟨kernel, mem⟩ ∧ UserTree s' pml4 ps ∧ Grows pml4 s s' ps ps new ∧
      s'.find pml4 (p ++ [i]) = some u ∧
      ∀ q, Fits widths q → q.length = 4 → s'.find pml4 q = s.find pml4 q := by
  rw [Persistos.nextTable] at hn
  split at hn
  · next habs =>
    have hz : s.mem (entryAddress t i) &&& pageAddressMask = 0 := by bv_omega
    have habsent : child s.hhdm s.mem t i = none := if_pos hz
    split at hn
    · cases hn
    · next f kernel' ha =>
      simp only [Except.ok.injEq, Prod.mk.injEq] at hn
      obtain ⟨rfl, rfl, rfl⟩ := hn
      have hc : s.allocCleared = .ok (f, ⟨kernel', clearPage s.mem f⟩) := by
        rw [UserSpace.allocCleared, ha]
        rfl
      obtain ⟨h₁, g₁, -, hfind, hclear⟩ := h.allocCleared hc
      have hlive := h.live_of_find hp.of_append ht
      have hnd : f ∉ ps := by
        intro hmem
        have hnd := h₁.kmem.nodup
        rw [g₁.live] at hnd
        exact (List.nodup_cons.mp hnd).1 (h.live f (Or.inr (Or.inl hmem)))
      have habsent₁ : child (UserSpace.hhdm ⟨kernel', clearPage s.mem f⟩) (clearPage s.mem f) t i =
          none := by
        have hh := hfind _ hp
        rw [find_snoc, find_snoc, hfind p hp.of_append, ht] at hh
        exact hh.trans habsent
      obtain ⟨h₂, g₂, hfind₂⟩ := h₁.link hnd hp ((hfind p hp.of_append).trans ht) habsent₁
        pageDirectoryAttributes (by decide) (fun _ => hclear) rfl
      rw [g₁.hhdm] at h₂ g₂ hfind₂
      refine ⟨_, _, rfl, h₂, g₁.trans g₂, (hfind₂ _ hp).trans (if_pos rfl), ?_⟩
      intro q hq hlen
      refine (hfind₂ q hq).trans ((if_neg ?_).trans (hfind q hq))
      rintro rfl
      rw [List.length_append, List.length_singleton] at hlen
      omega
  · next hpres =>
    simp only [Except.ok.injEq, Prod.mk.injEq] at hn
    obtain ⟨rfl, rfl, rfl⟩ := hn
    have hz : s.mem (entryAddress t i) &&& pageAddressMask ≠ 0 := by
      intro hz
      exact hpres (by rw [hz]; exact BitVec.zero_add _)
    refine ⟨s, [], rfl, h, .refl s ps, ?_, fun _ _ _ => rfl⟩
    rw [find_snoc, ht]
    exact if_neg hz

/-- A page mapped where none was. -/
theorem mapUserPage (h : UserTree s pml4 []) {v : U64} (hv : v.toNat < 2 ^ 47)
    (hnone : s.find pml4 (userPath v) = none) (hm : s.mapUserPage pml4 v = .ok (f, s')) :
    UserTree s' pml4 [] ∧ (∃ new, Grows pml4 s s' [] [] new) ∧
      ∀ w : U64, w.toNat < 2 ^ 47 → s'.find pml4 (userPath w) =
        if w >>> 12 = v >>> 12 then some f else s.find pml4 (userPath w) := by
  obtain ⟨⟨f, s₀⟩, ha, hm⟩ := bind_eq_ok hm
  obtain ⟨⟨kernel, mem⟩, hset, he⟩ := bind_eq_ok hm
  simp only [Except.ok.injEq, Prod.mk.injEq] at he
  obtain ⟨rfl, rfl⟩ := he
  obtain ⟨h₀, g₀, hfresh, hfind₀, -⟩ := h.allocCleared ha
  have hpath := userPath_fits hv
  have h₃₂ : Fits widths ([tableIndex v 39, tableIndex v 30] ++ [tableIndex v 21]) :=
    hpath.of_append (r := [_])
  have h₂₁ : Fits widths ([tableIndex v 39] ++ [tableIndex v 30]) := h₃₂.of_append (r := [_])
  have halign := (h₀.page (h₀.live f (Or.inr (Or.inl List.mem_cons_self)))).1
  have hphys : PageAligned (f - s₀.hhdm) := by
    have hoff := h₀.direct.offset_aligned
    simp only [PageAligned, UserSpace.hhdm] at halign hoff ⊢
    rw [BitVec.toNat_sub]
    omega
  simp only [setPageMapping, and_pageOffset hphys, ne_eq, not_true, if_false] at hset
  obtain ⟨⟨t₁, k₁, m₁⟩, hn₁, hset⟩ := bind_eq_ok hset
  obtain ⟨⟨t₂, k₂, m₂⟩, hn₂, hset⟩ := bind_eq_ok hset
  obtain ⟨⟨t₃, k₃, m₃⟩, hn₃, hset⟩ := bind_eq_ok hset
  obtain ⟨s₁, new₁, rfl, h₁, g₁, d₁, e₁⟩ :=
    h₀.nextTable (p := []) h₂₁.of_append (by simp) rfl hn₁
  rw [← g₁.hhdm] at hn₂ hn₃ hset
  obtain ⟨s₂, new₂, rfl, h₂, g₂, d₂, e₂⟩ := h₁.nextTable h₂₁ (by simp) d₁ hn₂
  rw [← g₂.hhdm] at hn₃ hset
  obtain ⟨s₃, new₃, rfl, h₃, g₃, d₃, e₃⟩ := h₂.nextTable h₃₂ (by simp) d₂ hn₃
  rw [← g₃.hhdm] at hset
  obtain ⟨rfl, rfl⟩ := Prod.mk.inj (Except.ok.inj hset)
  have hfind : ∀ q, Fits widths q → q.length = 4 →
      UserSpace.find ⟨k₃, m₃⟩ pml4 q = s.find pml4 q := fun q hq hl =>
    (e₃ q hq hl).trans ((e₂ q hq hl).trans ((e₁ q hq hl).trans (hfind₀ q hq)))
  have habsent : child (UserSpace.hhdm ⟨k₃, m₃⟩) m₃ t₃ (tableIndex v 12) = none := by
    have hh := (hfind _ hpath rfl).trans hnone
    rw [userPath, find_snoc] at hh
    rw [show UserSpace.find ⟨k₃, m₃⟩ pml4 (tablePath v) = some t₃ from d₃] at hh
    exact hh
  obtain ⟨h₄, g₄, d₄⟩ := h₃.link List.not_mem_nil hpath d₃ habsent pageTableAttributes (by decide)
    (fun hl => absurd hl (by simp [tablePath])) rfl
  refine ⟨h₄, ⟨_, (((g₀.trans g₁).trans g₂).trans g₃).trans g₄⟩, ?_⟩
  intro w hw
  refine (d₄ _ (userPath_fits hw)).trans ?_
  rw [hfind _ (userPath_fits hw) rfl]
  exact if_congr (userPath_inj hw hv) rfl rfl

end UserTree

end Persistos
