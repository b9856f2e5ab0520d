import Persistos.UserspaceTree
import Persistos.SlabRuns
import Persistos.MapRuns

/-! `free_userspace_memory` after any calls of `map_user_page`: the walk over the
tables frees what was allocated for them, each frame once, and nothing else. -/

namespace Persistos

open Theory UserSpace

/-- From `s` to `s'` the pages of `order` were freed, in this order, and nothing was
written but in these pages and in `table`. -/
structure Freed (s s' : Teardown) (order : List U64) (table : Option U64) : Prop where
  kernel : s'.space.kernel = order.foldl (fun r p => r.freePages ⟨p, 1⟩) s.space.kernel
  freed : s'.freed = s.freed ++ order
  outside : ∀ a, table ≠ some (a &&& pageAddressMask) → a &&& pageAddressMask ∉ order →
    s'.space.mem a = s.space.mem a

section Loops

variable {s s' s'' : Teardown} {order order' : List U64} {t : U64}

theorem freeAll_region (order : List U64) (r : KmemRun) :
    (order.foldl (fun r p => r.freePages ⟨p, 1⟩) r).kmem.hhdmOffset = r.kmem.hhdmOffset ∧
      (order.foldl (fun r p => r.freePages ⟨p, 1⟩) r).kmem.kmemStart = r.kmem.kmemStart ∧
      (order.foldl (fun r p => r.freePages ⟨p, 1⟩) r).kmem.kmemTotalPages =
        r.kmem.kmemTotalPages := by
  induction order generalizing r with
  | nil => exact ⟨rfl, rfl, rfl⟩
  | cons p order ih => exact ih (r.freePages ⟨p, 1⟩)

theorem Freed.hhdm {table : Option U64} (h : Freed s s' order table) :
    s'.space.hhdm = s.space.hhdm := by
  rw [UserSpace.hhdm, h.kernel]
  exact (freeAll_region order _).1

theorem Freed.trans {table : Option U64} (h : Freed s s' order table)
    (h' : Freed s' s'' order' table) : Freed s s'' (order ++ order') table where
  kernel := by rw [h'.kernel, h.kernel, List.foldl_append]
  freed := by rw [h'.freed, h.freed, List.append_assoc]
  outside := by
    intro a ht ha
    rw [List.mem_append, not_or] at ha
    rw [h'.outside a ht ha.2, h.outside a ht ha.1]

theorem Freed.mono (h : Freed s s' order none) (table : Option U64) : Freed s s' order table :=
  ⟨h.kernel, h.freed, fun a _ ha => h.outside a (Option.some_ne_none _).symm ha⟩

theorem Freed.inside (h : Freed s s' order (some t)) (ht : t ∈ order) : Freed s s' order none := by
  refine ⟨h.kernel, h.freed, fun a _ ha => h.outside a ?_ ha⟩
  rintro he
  exact ha (Option.some.inj he ▸ ht)

theorem Teardown.kpageFree_freed (s : Teardown) (t : U64) : Freed s (s.kpageFree t) [t] none :=
  ⟨rfl, rfl, fun _ _ _ => rfl⟩

theorem Freed.write (h : Freed s s' order (some t)) (ht : PageAligned t) {i : Nat} (hi : i < 512)
    (value : U64) : Freed s (s'.write (entryAddress t i) value) order (some t) := by
  refine ⟨h.kernel, h.freed, fun a hta ha => (if_neg ?_).trans (h.outside a hta ha)⟩
  rintro rfl
  exact hta (by rw [entryAddress_mask ht hi])

/-- `free` frees a table or page after what is below it. -/
def Frees (ws : List Nat) (free : Teardown → U64 → Teardown) : Prop :=
  ∀ s t, (t :: below (child s.space.hhdm s.space.mem) ws t).Nodup →
    (∀ u ∈ t :: below (child s.space.hhdm s.space.mem) ws t, PageAligned u) →
    Freed s (free s t) (below (child s.space.hhdm s.space.mem) ws t ++ [t]) none

theorem Teardown.freeEntries_succ (free : Teardown → U64 → Teardown) (w : Nat) (s : Teardown)
    (t : U64) : Teardown.freeEntries free (w + 1) s t =
      let s₁ := Teardown.freeEntries free w s t
      let entry := s₁.space.mem (entryAddress t w)
      if entry &&& pageAddressMask = 0 then s₁
      else (free s₁ ((entry &&& pageAddressMask) + s₁.space.hhdm)).write (entryAddress t w) 0 := by
  simp [Teardown.freeEntries, List.range_succ]

/-- The loop over the entries of a table. What hangs below one entry is no part of the
table and is not below another, so freeing it leaves the later entries alone. -/
theorem Frees.freeEntries {ws : List Nat} {free : Teardown → U64 → Teardown} (hf : Frees ws free)
    (hws : ∀ w ∈ ws, w ≤ 512) {w : Nat} (hw : w ≤ 512)
    (hnd : (t :: below (child s.space.hhdm s.space.mem) (w :: ws) t).Nodup)
    (halign : ∀ u ∈ t :: below (child s.space.hhdm s.space.mem) (w :: ws) t, PageAligned u) :
    Freed s (Teardown.freeEntries free w s t)
        (below (child s.space.hhdm s.space.mem) (w :: ws) t) (some t) ∧
      ∀ j < 512, (Teardown.freeEntries free w s t).space.mem (entryAddress t j) =
        if j < w ∧ child s.space.hhdm s.space.mem t j ≠ none then 0
        else s.space.mem (entryAddress t j) := by
  induction w with
  | zero =>
    refine ⟨⟨rfl, by simp [Teardown.freeEntries, below], fun _ _ _ => rfl⟩, ?_⟩
    simp [Teardown.freeEntries]
  | succ w ih =>
    have hbelow : below (child s.space.hhdm s.space.mem) ((w + 1) :: ws) t =
        below (child s.space.hhdm s.space.mem) (w :: ws) t ++
          (child s.space.hhdm s.space.mem t w).elim [] fun u =>
            below (child s.space.hhdm s.space.mem) ws u ++ [u] := by
      simp [below, List.range_succ]
    rw [hbelow] at hnd halign ⊢
    rw [← List.cons_append] at hnd halign
    obtain ⟨hnd₁, hnd₂, hdisj⟩ := List.nodup_append.mp hnd
    have hta := halign t (by simp)
    obtain ⟨h₁, he₁⟩ := ih (by omega) hnd₁ fun u hu => halign u (List.mem_append_left _ hu)
    have hentry := he₁ w (by omega)
    rw [if_neg (by omega)] at hentry
    rw [Teardown.freeEntries_succ]
    dsimp only
    rw [hentry, h₁.hhdm]
    generalize hs₁ : Teardown.freeEntries free w s t = s₁ at h₁ he₁ ⊢
    have hstay : ∀ j, j ≠ w → (j < w + 1 ↔ j < w) := fun j hj => by omega
    split
    · next hz =>
      have hc : child s.space.hhdm s.space.mem t w = none := if_pos hz
      rw [hc, Option.elim_none, List.append_nil]
      refine ⟨h₁, fun j hj => (he₁ j hj).trans (if_congr ?_ rfl rfl)⟩
      by_cases hjw : j = w
      · subst hjw
        simp [hc]
      · rw [hstay j hjw]
    · next hz =>
      have hc : child s.space.hhdm s.space.mem t w =
          some ((s.space.mem (entryAddress t w) &&& pageAddressMask) + s.space.hhdm) := if_neg hz
      generalize (s.space.mem (entryAddress t w) &&& pageAddressMask) + s.space.hhdm = u at hc ⊢
      rw [hc, Option.elim_some] at hnd₂ hdisj halign ⊢
      have hapart : ∀ v ∈ below (child s.space.hhdm s.space.mem) ws u ++ [u],
          v ≠ t ∧ v ∉ below (child s.space.hhdm s.space.mem) (w :: ws) t := by
        intro v hv
        refine ⟨?_, fun hmem => hdisj v (List.mem_cons_of_mem t hmem) v hv rfl⟩
        rintro rfl
        exact hdisj v List.mem_cons_self v hv rfl
      have hmem : ∀ v, v ∈ u :: below (child s.space.hhdm s.space.mem) ws u ↔
          v ∈ below (child s.space.hhdm s.space.mem) ws u ++ [u] := by
        intro v
        rw [List.mem_cons, List.mem_append, List.mem_singleton, or_comm]
      have hsub : below (child s₁.space.hhdm s₁.space.mem) ws u =
          below (child s.space.hhdm s.space.mem) ws u := by
        refine below_congr hws fun v hv j hj => ?_
        have hva := halign v (List.mem_append_right _ ((hmem v).mp hv))
        have hh := hapart v ((hmem v).mp hv)
        rw [h₁.hhdm]
        refine child_congr (h₁.outside _ ?_ ?_)
        · rw [entryAddress_mask hva hj]
          exact fun he => hh.1 (Option.some.inj he).symm
        · rw [entryAddress_mask hva hj]
          exact hh.2
      have h₂ := hf s₁ u (by rw [hsub]; exact List.nodup_append_comm.mp hnd₂) (by
        rw [hsub]
        exact fun v hv => halign v (List.mem_append_right _ ((hmem v).mp hv)))
      rw [hsub] at h₂
      refine ⟨(h₁.trans (h₂.mono (some t))).write hta (by omega) 0, fun j hj => ?_⟩
      by_cases hjw : j = w
      · subst hjw
        rw [if_pos ⟨by omega, by rw [hc]; exact Option.some_ne_none u⟩]
        exact if_pos rfl
      · rw [if_congr (and_congr_left' (hstay j hjw)) rfl rfl, ← he₁ j hj]
        refine (if_neg ?_).trans (h₂.outside _ (Option.some_ne_none _).symm ?_)
        · exact fun he => hjw (entryAddress_inj hta hta hj (by omega) he).2
        · rw [entryAddress_mask hta hj]
          exact fun ht => (hapart t ht).1 rfl

theorem Frees.table {ws : List Nat} {free : Teardown → U64 → Teardown} (hf : Frees ws free)
    (hws : ∀ w ∈ ws, w ≤ 512) {w : Nat} (hw : w ≤ 512) :
    Frees (w :: ws) fun s t => (Teardown.freeEntries free w s t).kpageFree t := by
  intro s t hnd halign
  have hh := (hf.freeEntries hws hw hnd halign).1.trans
    ((Teardown.kpageFree_freed _ t).mono (some t))
  exact hh.inside (by simp)

theorem frees_kpageFree : Frees [] Teardown.kpageFree := fun s t _ _ => s.kpageFree_freed t

theorem frees_freePt : Frees [512] Teardown.freePt :=
  frees_kpageFree.table (by simp) (Nat.le_refl _)

theorem frees_freePd : Frees [512, 512] Teardown.freePd :=
  frees_freePt.table (by simp) (Nat.le_refl _)

theorem frees_freePtpd : Frees [512, 512, 512] Teardown.freePtpd :=
  frees_freePd.table (by simp) (Nat.le_refl _)

theorem Teardown.freePml4_spec {pml4 : U64} (h : UserTree s.space pml4 []) :
    Freed s (s.freePml4 pml4) (s.space.nodes pml4) (some pml4) ∧
      (pml4 :: s.space.nodes pml4).Nodup ∧
      ∀ j < 512, (s.freePml4 pml4).space.mem (entryAddress pml4 j) =
        if j < 256 then 0 else s.space.mem (entryAddress pml4 j) := by
  have hnd : (pml4 :: s.space.nodes pml4).Nodup :=
    nodup_below fun p q u hp hq => h.tree.inj p q u hp.paths hq.paths
  have halign : ∀ u ∈ pml4 :: s.space.nodes pml4, PageAligned u := by
    intro u hu
    refine (h.page (h.live u ?_)).1
    exact (List.mem_cons.mp hu).imp_right Or.inr
  obtain ⟨hfreed, hentries⟩ := frees_freePtpd.freeEntries (by simp) (w := 256) (by omega) hnd halign
  refine ⟨hfreed, hnd, fun j hj => (hentries j hj).trans ?_⟩
  by_cases hj' : j < 256
  · by_cases hc : child s.space.hhdm s.space.mem pml4 j = none
    · rw [if_neg (by simp [hc]), if_pos hj', h.zero j hj' hc]
    · rw [if_pos ⟨hj', hc⟩, if_pos hj']
  · rw [if_neg (fun hh => hj' hh.1), if_neg hj']

end Loops

section Kernel

variable {r r' : KmemRun} {order : List U64} {rest : List Block}

/-- Frames that are allocated and distinct may be freed in any order. -/
theorem freeAll_steps (hr : KmemInv r) (h : r.live.Perm (order.map (⟨·, 1⟩) ++ rest)) :
    Relation.ReflTransGen KmemStep r (order.foldl (fun r p => r.freePages ⟨p, 1⟩) r) ∧
      (order.foldl (fun r p => r.freePages ⟨p, 1⟩) r).live.Perm rest := by
  induction order generalizing r with
  | nil => exact ⟨.refl, h⟩
  | cons p order ih =>
    have hp : (⟨p, 1⟩ : Block) ∈ r.live := h.mem_iff.mpr (by simp)
    have hstep : KmemStep r (r.freePages ⟨p, 1⟩) := .free hp
    have herase : (r.freePages ⟨p, 1⟩).live.Perm (order.map (⟨·, 1⟩) ++ rest) := by
      have hh := h.erase ⟨p, 1⟩
      rwa [List.map_cons, List.cons_append, List.erase_cons_head] at hh
    obtain ⟨hsteps, hlive⟩ := ih (hstep.inv hr) herase
    exact ⟨.head hstep hsteps, hlive⟩

theorem PageStatus.eq_of_iff {a b : PageStatus} (harray : a = .pageArray ↔ b = .pageArray)
    (hused : a = .used ↔ b = .used) : a = b := by
  cases a <;> cases b <;> simp_all

variable (h : KmemInv r) (h' : KmemInv r') (hstart : r'.kmem.kmemStart = r.kmem.kmemStart)
  (htotal : r'.kmem.kmemTotalPages = r.kmem.kmemTotalPages)

include h h' hstart htotal

/-- The allocated blocks determine the status of every page and the count. -/
theorem KmemInv.kmem_eq (hp : r'.live.Perm r.live) :
    r'.kmem.kmemPageArray = r.kmem.kmemPageArray ∧
      r'.kmem.kmemUsedPages = r.kmem.kmemUsedPages := by
  constructor
  · funext i
    refine PageStatus.eq_of_iff ?_ ?_
    · rw [h'.array, h.array, htotal]
    · simp only [h'.used, h.used, hstart, hp.mem_iff]
  · rw [h'.count, h.count, (hp.map _).sum_eq]

/-- The frames by which two states differ are used in one and free in the other. -/
theorem KmemInv.frames_only {frames : List U64}
    (hlive : r'.live = frames.map (⟨·, 1⟩) ++ r.live) :
    (∀ p ∈ frames, r'.kmem.kmemPageArray (pageIndex r.kmem.kmemStart p) = .used ∧
      r.kmem.kmemPageArray (pageIndex r.kmem.kmemStart p) = .free) ∧
    ∀ i, (∀ p ∈ frames, pageIndex r.kmem.kmemStart p ≠ i) →
      r.kmem.kmemPageArray i = r'.kmem.kmemPageArray i := by
  have harray : ∀ i, r.kmem.kmemPageArray i = .pageArray ↔ r'.kmem.kmemPageArray i = .pageArray := by
    intro i
    rw [h'.array, h.array, htotal]
  have hused : ∀ i, r'.kmem.kmemPageArray i = .used ↔
      (∃ p ∈ frames, pageIndex r.kmem.kmemStart p = i) ∨ r.kmem.kmemPageArray i = .used := by
    intro i
    simp only [h'.used, h.used, hstart, hlive, List.mem_append, or_and_right, exists_or,
      List.mem_map, exists_exists_and_eq_and, Block.mem_pages_one, @eq_comm _ i]
  refine ⟨fun p hp => ?_, fun i hi => PageStatus.eq_of_iff (harray i) ?_⟩
  · have hold := (hused _).mpr (Or.inl ⟨p, hp, rfl⟩)
    refine ⟨hold, ?_⟩
    cases hs : r.kmem.kmemPageArray (pageIndex r.kmem.kmemStart p) with
    | pageArray => exact absurd (hold.symm.trans ((harray _).mp hs)) (by simp)
    | free => rfl
    | used =>
      obtain ⟨b, hb, hin⟩ := (h.used _).mp hs
      have hapart := h'.apart
      rw [hlive, hstart, List.map_append, List.pairwise_append] at hapart
      refine absurd hin (hapart.2.2 (Block.pages r.kmem.kmemStart ⟨p, 1⟩) ?_ _ (List.mem_map_of_mem hb) _ ?_)
      · exact List.mem_map_of_mem (List.mem_map_of_mem hp)
      · exact (Block.mem_pages_one _ _ _).mpr rfl
  · rw [hused, or_iff_right]
    rintro ⟨p, hp, hpi⟩
    exact hi p hp hpi

end Kernel

/-- The range objects of a list are live, so each can be freed. -/
theorem freeRanges_ok {size : U16} {s : SlabRun} (hs : SlabRunInv size s) {ranges : List U64}
    (h : ranges.Subperm s.live) :
    ∃ a, freeRanges s.allocator ranges = .ok a ∧
      Relation.ReflTransGen SlabStep s ⟨s.supply, a, s.live.diff ranges⟩ := by
  induction ranges generalizing s with
  | nil => exact ⟨s.allocator, rfl, by rw [List.diff_nil]⟩
  | cons x ranges ih =>
    have hx : x ∈ s.live := h.subset List.mem_cons_self
    obtain ⟨b, hb, -⟩ := hs.slab.free hx
    have hstep : SlabStep s ⟨s.supply, b, s.live.erase x⟩ := .free hx hb
    have hsub : ranges.Subperm (s.live.erase x) := by
      simpa using h.erase x
    obtain ⟨a, ha, hsteps⟩ := ih (hstep.inv hs) hsub
    refine ⟨a, ?_, ?_⟩
    · rw [freeRanges, hb]
      exact ha
    · rw [List.diff_cons]
      exact .head hstep hsteps

/-- A user space with the pages that were mapped so far. -/
structure UserRun where
  space : UserSpace
  pages : List U64

/-- The kernel maps a page that was not mapped, or somebody writes outside the tables. -/
inductive UserStep (pml4 : U64) (s : UserRun) : UserRun → Prop where
  | map {virt page : U64} {space : UserSpace} (hv : virt.toNat < 2 ^ 47)
      (hnew : virt >>> 12 ∉ s.pages) (h : s.space.mapUserPage pml4 virt = .ok (page, space)) :
      UserStep pml4 s ⟨space, virt >>> 12 :: s.pages⟩
  | write {mem : Memory}
      (h : ∀ a, a &&& pageAddressMask ∈ s.space.tables pml4 → mem a = s.space.mem a) :
      UserStep pml4 s ⟨⟨s.space.kernel, mem⟩, s.pages⟩

/-- All that was allocated since `r` is in the tree, and all that is in the tree was
allocated since `r`. -/
structure UserInv (r : KmemRun) (mem : Memory) (pml4 : U64) (s : UserRun) : Prop where
  tree : UserTree s.space pml4 []
  absent : ∀ v : U64, v.toNat < 2 ^ 47 → v >>> 12 ∉ s.pages → s.space.find pml4 (userPath v) = none
  kernel : Relation.ReflTransGen KmemStep r s.space.kernel
  frames : ∃ frames : List U64, s.space.kernel.live = frames.map (⟨·, 1⟩) ++ r.live ∧
    ∀ t, t ∈ s.space.nodes pml4 ↔ t ∈ frames
  upper : ∀ j, 256 ≤ j → j < 512 → s.space.mem (entryAddress pml4 j) = mem (entryAddress pml4 j)

section Runs

variable {r : KmemRun} {mem : Memory} {pml4 : U64} {s t : UserRun}

theorem EmptyLowerHalf.find_eq (h : EmptyLowerHalf r mem pml4) {q : List Nat}
    (hq : Fits widths q) : UserSpace.find ⟨r, mem⟩ pml4 q = if q = [] then some pml4 else none := by
  cases q with
  | nil => rfl
  | cons i q =>
    rw [UserSpace.find, descend_cons, child_eq_none (h.zero i hq.1)]
    rfl

theorem EmptyLowerHalf.nodes_eq (h : EmptyLowerHalf r mem pml4) (t : U64) :
    t ∉ UserSpace.nodes ⟨r, mem⟩ pml4 := by
  rw [mem_nodes]
  rintro ⟨q, hnil, hq, ht⟩
  rw [h.find_eq hq, if_neg hnil] at ht
  cases ht

theorem EmptyLowerHalf.userInv (h : EmptyLowerHalf r mem pml4) (hr : KmemInv r)
    (hd : DirectMap r.kmem) : UserInv r mem pml4 ⟨⟨r, mem⟩, []⟩ := by
  refine ⟨⟨hr, hd, ⟨fun _ _ hq => hq.of_append, ?_⟩, ?_, ?_, fun i hi _ => h.zero i hi⟩, ?_, .refl,
    ⟨[], rfl, ?_⟩, fun _ _ _ => rfl⟩
  · intro p q t hp hq hpt hqt
    have hp' := (h.find_eq hp.ok).symm.trans hpt
    have hq' := (h.find_eq hq.ok).symm.trans hqt
    split at hp'
    · next hnil =>
      split at hq'
      · next hnil' => exact hnil.trans hnil'.symm
      · cases hq'
    · cases hp'
  · rintro t (rfl | ht | ht)
    · exact h.live
    · cases ht
    · exact absurd ht (h.nodes_eq t)
  · simp
  · intro v hv _
    exact (h.find_eq (userPath_fits hv)).trans (if_neg (by simp [userPath]))
  · intro t
    exact iff_of_false (h.nodes_eq t) List.not_mem_nil

theorem UserStep.inv (h : UserStep pml4 s t) (hs : UserInv r mem pml4 s) :
    UserInv r mem pml4 t := by
  obtain ⟨frames, hlive, hnodes⟩ := hs.frames
  cases h with
  | @map virt page space hv hnew h =>
    obtain ⟨htree, ⟨new, hgrows⟩, hfind⟩ := hs.tree.mapUserPage hv (hs.absent virt hv hnew) h
    refine ⟨htree, ?_, hs.kernel.trans hgrows.kernel, ⟨new ++ frames, ?_, ?_⟩, ?_⟩
    · intro v hvv hmem
      rw [List.mem_cons, not_or] at hmem
      exact (hfind v hvv).trans ((if_neg hmem.1).trans (hs.absent v hvv hmem.2))
    · rw [hgrows.live, hlive, List.map_append, List.append_assoc]
    · intro u
      have hu := hgrows.nodes u
      simp only [List.not_mem_nil, false_or, hnodes] at hu
      rw [hu, List.mem_append]
    · exact fun j hj hj' => (hgrows.upper j hj hj').trans (hs.upper j hj hj')
  | @write mem' h =>
    have hentry : ∀ u j, u ∈ s.space.tables pml4 → ⟨u, 1⟩ ∈ s.space.kernel.live → j < 512 →
        mem' (entryAddress u j) = s.space.mem (entryAddress u j) := by
      intro u j hu hlive hj
      exact h _ (by rwa [entryAddress_mask (hs.tree.page hlive).1 hj])
    have hfind : ∀ q, Fits widths q →
        UserSpace.find ⟨s.space.kernel, mem'⟩ pml4 q = s.space.find pml4 q := by
      intro q hq
      have hhdm : UserSpace.hhdm ⟨s.space.kernel, mem'⟩ = s.space.hhdm := rfl
      refine hs.tree.find_congr hhdm (fun q j u hqj hu => ?_) hq
      refine hentry u j ?_ (hs.tree.live_of_find hqj.of_append hu) (hqj.lt_of_snoc widths_le)
      by_cases hnil : q = []
      · subst hnil
        obtain rfl := Option.some.inj hu
        exact List.mem_cons_self
      · exact List.mem_cons_of_mem _ (mem_below.mpr ⟨q, hnil, fits_tables hqj, hu⟩)
    have hroot : ∀ j < 512, mem' (entryAddress pml4 j) = s.space.mem (entryAddress pml4 j) :=
      fun j hj => hentry pml4 j List.mem_cons_self (hs.tree.live pml4 (Or.inl rfl)) hj
    have hmem : ∀ u, u ∈ UserSpace.nodes ⟨s.space.kernel, mem'⟩ pml4 ↔ u ∈ s.space.nodes pml4 :=
      fun u => UserTree.nodes_congr hfind
    refine ⟨⟨hs.tree.kmem, hs.tree.direct, hs.tree.tree.congr fun q hq => hfind q hq.ok, ?_, ?_, ?_⟩,
      ?_, hs.kernel, ⟨frames, hlive, fun u => (hmem u).trans (hnodes u)⟩, ?_⟩
    · intro u hu
      rw [hmem] at hu
      exact hs.tree.live u hu
    · simp
    · intro i hi hc
      have he := hroot i (by omega)
      exact he.trans (hs.tree.zero i hi (by rw [← child_congr he]; exact hc))
    · exact fun v hv hnot => (hfind _ (userPath_fits hv)).trans (hs.absent v hv hnot)
    · exact fun j hj hj' => (hroot j hj').trans (hs.upper j hj hj')

end Runs

/-- What `free_userspace_memory` leaves of a user space `s` that grew out of the kernel
state `r` and the memory `mem`, and of the slab of its range objects. -/
structure TornDown (r : KmemRun) (mem : Memory) (pml4 : U64) (s : UserSpace) (slab : SlabRun)
    (ranges : List U64) (s' : UserMemory) : Prop where
  frames : ∃ frames : List U64, s.kernel.live = frames.map (⟨·, 1⟩) ++ r.live ∧ frames.Nodup ∧
    s'.pages.freed.Perm frames ∧
    (∀ p ∈ frames, s.kernel.kmem.kmemPageArray (pageIndex r.kmem.kmemStart p) = .used ∧
      s'.pages.space.kernel.kmem.kmemPageArray (pageIndex r.kmem.kmemStart p) = .free) ∧
    ∀ i, (∀ p ∈ frames, pageIndex r.kmem.kmemStart p ≠ i) →
      s'.pages.space.kernel.kmem.kmemPageArray i = s.kernel.kmem.kmemPageArray i
  pageArray : s'.pages.space.kernel.kmem.kmemPageArray = r.kmem.kmemPageArray
  usedPages : s'.pages.space.kernel.kmem.kmemUsedPages = r.kmem.kmemUsedPages
  lower : ∀ i < 256, s'.pages.space.mem (entryAddress pml4 i) = 0
  upper : ∀ i, 256 ≤ i → i < 512 →
    s'.pages.space.mem (entryAddress pml4 i) = mem (entryAddress pml4 i)
  outside : ∀ a, a &&& pageAddressMask ≠ pml4 → a &&& pageAddressMask ∉ s'.pages.freed →
    s'.pages.space.mem a = s.mem a
  memoryRangesLh : s'.memoryRangesLh = []
  ranges : ranges.Nodup ∧
    Relation.ReflTransGen SlabStep slab ⟨slab.supply, s'.ranges, slab.live.diff ranges⟩

theorem UserInv.tornDown {r : KmemRun} {mem : Memory} {pml4 : U64} {s : UserRun}
    (h : UserInv r mem pml4 s) (hr : KmemInv r) {slab : SlabRun} {ranges : List U64}
    (hslab : SlabRunInv userspaceMemoryRangeSize slab) (hranges : ranges.Subperm slab.live) :
    ∃ s', freeUserspaceMemory ⟨⟨s.space, []⟩, slab.allocator, ranges⟩ pml4 = .ok s' ∧
      TornDown r mem pml4 s.space slab ranges s' := by
  obtain ⟨a, ha, hsteps⟩ := freeRanges_ok hslab hranges
  obtain ⟨frames, hlive, hnodes⟩ := h.frames
  obtain ⟨pages, hpages⟩ : ∃ pages, Teardown.freePml4 ⟨s.space, []⟩ pml4 = pages := ⟨_, rfl⟩
  have hrun : freeUserspaceMemory ⟨⟨s.space, []⟩, slab.allocator, ranges⟩ pml4 =
      .ok ⟨pages, a, []⟩ := by
    simp only [freeUserspaceMemory, ha, hpages, ok_bind]
  have hspec := Teardown.freePml4_spec (s := ⟨s.space, []⟩) h.tree
  rw [hpages] at hspec
  obtain ⟨hfreed, hnd, hroot⟩ := hspec
  have hlist : pages.freed = s.space.nodes pml4 := hfreed.freed.trans (List.nil_append _)
  have hframes : frames.Nodup := by
    have hh := h.tree.kmem.nodup
    rw [hlive] at hh
    exact (List.nodup_append.mp hh).1.of_map _
  have hperm : (s.space.nodes pml4).Perm frames :=
    (List.perm_ext_iff_of_nodup (List.nodup_cons.mp hnd).2 hframes).mpr hnodes
  have hall : s.space.kernel.live.Perm ((s.space.nodes pml4).map (⟨·, 1⟩) ++ r.live) := by
    rw [hlive]
    exact (hperm.symm.map _).append_right _
  obtain ⟨hkernel, hrest⟩ := freeAll_steps h.tree.kmem hall
  rw [← hfreed.kernel] at hkernel hrest
  have hinv : KmemInv pages.space.kernel :=
    h.tree.kmem.steps hkernel
  have hregion := kmemSteps_region (h.kernel.trans hkernel)
  have hbefore := kmemSteps_region h.kernel
  have hdiff := hr.frames_only h.tree.kmem hbefore.2.1 hbefore.2.2 hlive
  obtain ⟨harray, hused⟩ := hr.kmem_eq hinv hregion.2.1 hregion.2.2 hrest
  refine ⟨_, hrun, ⟨frames, hlive, hframes, ?_, ?_, ?_⟩, harray, hused, ?_, ?_, ?_, rfl, ?_, hsteps⟩
  · rw [hlist]
    exact hperm
  · rw [harray]
    exact hdiff.1
  · rw [harray]
    exact hdiff.2
  · intro i hi
    exact (hroot i (by omega)).trans (if_pos hi)
  · intro i hi hi'
    exact (hroot i hi').trans ((if_neg (by omega)).trans (h.upper i hi hi'))
  · intro b hb hfr
    rw [hlist] at hfr
    exact hfreed.outside b (fun he => hb (Option.some.inj he).symm) hfr
  · obtain ⟨l, hl, hsub⟩ := hranges
    exact hl.nodup_iff.mp (hsub.nodup hslab.slab.live_nodup)

/-- Whatever pages were mapped and whatever was written to them, teardown gives back
every frame that was allocated on the way, each once, and nothing else. -/
theorem free_userspace_memory_exact {hhdm : Option U64} {memmap : Option (List MemmapEntry)}
    {k : Kmem} (hk : kmemInit hhdm memmap = .ok k) (hd : DirectMap k) {r : KmemRun}
    (hr : KmemReachable k r) {mem : Memory} {pml4 : U64} (h₀ : EmptyLowerHalf r mem pml4)
    {s : UserRun} (hs : Relation.ReflTransGen (UserStep pml4) ⟨⟨r, mem⟩, []⟩ s)
    {supply : PageSupply} {slab : SlabRun}
    (hslab : SlabReachable userspaceMemoryRangeSize supply slab) {ranges : List U64}
    (hranges : ranges.Subperm slab.live) :
    ∃ s', freeUserspaceMemory ⟨⟨s.space, []⟩, slab.allocator, ranges⟩ pml4 = .ok s' ∧
      TornDown r mem pml4 s.space slab ranges s' := by
  have hinv : UserInv r mem pml4 s := by
    induction hs with
    | refl => exact h₀.userInv (hr.inv hk) (hr.directMap hd).1
    | tail _ hstep ih => exact hstep.inv ih
  exact hinv.tornDown (hr.inv hk) (hslab.inv (by decide) (by decide)) hranges

/-- One page mapped below a root that is the first frame handed out. -/
theorem free_userspace_memory_exact_one_page : ∃ (s : UserSpace) (s' : UserMemory),
    s.kernel.kmem.kmemUsedPages = 5 ∧
      freeUserspaceMemory ⟨⟨s, []⟩, slabOf userspaceMemoryRangeSize, []⟩ 0xffff800000101000 =
        .ok s' ∧ s'.pages.space.kernel.kmem.kmemUsedPages = 1 := by
  have hrun : ∃ r, KmemReachable ⟨0xffff800000000000, 0xffff800000100000, 0x10000, 0x10,
      fun i => if i < 1 then .pageArray else .free, 0⟩ r ∧ r.live = [⟨0xffff800000101000, 1⟩] ∧
      r.kmem.kmemUsedPages = 1 ∧ ∃ page space,
        UserSpace.mapUserPage ⟨r, fun _ => 0⟩ 0xffff800000101000 0x400000 = .ok (page, space) ∧
          space.kernel.kmem.kmemUsedPages = 5 :=
    ⟨_, .single (.alloc (n := 1) (by decide) rfl), rfl, rfl, _, _, rfl, rfl⟩
  obtain ⟨r, hr, hlive, hused, page, space, hmap, hfive⟩ := hrun
  obtain ⟨s', hs', hdown⟩ := @free_userspace_memory_exact (some 0xffff800000000000)
    (some [⟨0x100000, 0x10000, 0⟩]) _ rfl (by constructor <;> simp [PageAligned]) r hr (fun _ => 0)
    0xffff800000101000 ⟨by decide, by rw [hlive]; exact List.mem_cons_self, fun _ _ => rfl⟩ _
    (.single (.map (by decide) List.not_mem_nil hmap)) ⟨[], by simp, List.nodup_nil⟩ _ .refl []
    (List.nil_subperm)
  exact ⟨space, s', hfive, hs', hdown.usedPages.trans hused⟩

end Persistos
