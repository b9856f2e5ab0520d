import Mathlib.Data.Set.Insert

/-! A cache of translations that nobody tells of changes to the tables. The hardware may add
to it, at any moment, what the tables have then, and an access uses whatever it holds. -/

namespace Persistos.Theory

variable {π φ σ α : Type}

/-- From `cache` to `cache'` the hardware has added translations of the tables. -/
structure Fills (tables : π → Option φ) (cache cache' : Set (π × φ)) : Prop where
  keeps : cache ⊆ cache'
  present : ∀ x ∈ cache', x ∈ cache ∨ tables x.1 = some x.2

/-- The tables are changed from one of the given moments to the next. -/
inductive Through : List (π → Option φ) → Set (π × φ) → Set (π × φ) → Prop where
  | nil {cache : Set (π × φ)} : Through [] cache cache
  | cons {tables : π → Option φ} {moments : List (π → Option φ)} {cache cache₁ cache' : Set (π × φ)}
      (hfill : Fills tables cache cache₁) (h : Through moments cache₁ cache') :
      Through (tables :: moments) cache cache'

/-- What the program does through the cache, or the reload that empties it. -/
inductive Access (α : Type) where
  | reload
  | use (a : α)
  deriving DecidableEq

/-- The uses of a part of a run, each with the frame that it reached. `perform` is what a use
does to the memory behind the frame, in which the tables are as well. -/
inductive Accesses (tables : σ → π → Option φ) (perform : σ → α → φ → σ) (page : α → π) :
    σ → Set (π × φ) → List (Access α) → List (α × φ) → Prop where
  | stop {s : σ} {cache : Set (π × φ)} {accesses : List (Access α)} :
      Accesses tables perform page s cache accesses []
  | reload {s : σ} {cache : Set (π × φ)} {accesses : List (Access α)} {reached : List (α × φ)}
      (h : Accesses tables perform page s ∅ accesses reached) :
      Accesses tables perform page s cache (.reload :: accesses) reached
  | use {s : σ} {cache cache' : Set (π × φ)} {a : α} {f : φ} {accesses : List (Access α)}
      {reached : List (α × φ)} (hfill : Fills (tables s) cache cache') (hf : (page a, f) ∈ cache')
      (h : Accesses tables perform page (perform s a f) cache' accesses reached) :
      Accesses tables perform page s cache (.use a :: accesses) ((a, f) :: reached)

section Moments

variable {tables : π → Option φ} {moments : List (π → Option φ)} {cache cache' : Set (π × φ)}
  {p : π} {f : φ}

theorem Fills.refl (tables : π → Option φ) (cache : Set (π × φ)) : Fills tables cache cache :=
  ⟨subset_rfl, fun _ hx => .inl hx⟩

theorem Fills.insert (h : tables p = some f) : Fills tables cache (insert (p, f) cache) := by
  refine ⟨Set.subset_insert _ _, fun x hx => ?_⟩
  rcases hx with rfl | hx
  · exact .inr h
  · exact .inl hx

theorem Through.keeps (h : Through moments cache cache') : cache ⊆ cache' := by
  induction h with
  | nil => exact subset_rfl
  | cons hfill _ ih => exact hfill.keeps.trans ih

theorem Through.present (h : Through moments cache cache') (hx : (p, f) ∈ cache') :
    (p, f) ∈ cache ∨ ∃ tables ∈ moments, tables p = some f := by
  induction h with
  | nil => exact .inl hx
  | cons hfill _ ih =>
    rcases ih hx with hx | ⟨tables, ht, hp⟩
    · rcases hfill.present _ hx with hx | hp
      · exact .inl hx
      · exact .inr ⟨_, List.mem_cons_self, hp⟩
    · exact .inr ⟨tables, List.mem_cons_of_mem _ ht, hp⟩

theorem Through.rest (moments : List (π → Option φ)) (cache : Set (π × φ)) :
    Through moments cache cache := by
  induction moments with
  | nil => exact .nil
  | cons tables moments ih => exact .cons (.refl _ _) ih

/-- What the tables have at one of the moments may be in the cache after the last. -/
theorem Through.exists_mem {tables : π → Option φ} (ht : tables ∈ moments)
    (hp : tables p = some f) : ∃ cache', Through moments cache cache' ∧ (p, f) ∈ cache' := by
  induction moments with
  | nil => cases ht
  | cons first moments ih =>
    rcases List.mem_cons.mp ht with rfl | ht
    · exact ⟨_, .cons (.insert hp) (.rest _ _), Set.mem_insert _ _⟩
    · obtain ⟨cache', h, hin⟩ := ih ht
      exact ⟨cache', .cons (.refl _ _) h, hin⟩

end Moments

section Accesses

theorem Accesses.mem {tables : σ → π → Option φ} {perform : σ → α → φ → σ} {page : α → π} {s : σ}
    {cache : Set (π × φ)} {accesses : List (Access α)} {reached : List (α × φ)}
    (h : Accesses tables perform page s cache accesses reached) :
    ∀ x ∈ reached, .use x.1 ∈ accesses := by
  induction h with
  | stop => exact fun x hx => absurd hx List.not_mem_nil
  | reload _ ih => exact fun x hx => List.mem_cons_of_mem _ (ih x hx)
  | use _ _ _ ih =>
    exact List.forall_mem_cons.mpr ⟨List.mem_cons_self, fun x hx => List.mem_cons_of_mem _ (ih x hx)⟩

variable {tables : σ → π → Option φ} {perform : σ → α → φ → σ} {page : α → π} {s : σ}
  {cache : Set (π × φ)} {accesses : List (Access α)} {reached : List (α × φ)}
  {final : π → Option φ} {Inv : σ → Prop} {Ok : α → Prop}

/-- The uses before a reload find no translation but the final one, as far as those before
them have found that. -/
def Coherent (final : π → Option φ) (page : α → π) (accesses : List (Access α))
    (Old : π → φ → Prop) : Prop :=
  ∀ before a after, accesses = before ++ .use a :: after → .reload ∉ before →
    (∀ b, .use b ∈ before → (final (page b)).isSome) →
    ∀ f, Old (page a) f → final (page a) = some f

variable (hfinal : ∀ s a, Inv s → Ok a → tables s (page a) = final (page a))
  (hperform : ∀ s a f, Inv s → Ok a → final (page a) = some f → Inv (perform s a f))

include hfinal hperform

theorem Accesses.coherent (h : Accesses tables perform page s cache accesses reached) (hs : Inv s)
    (hok : ∀ a, .use a ∈ accesses → Ok a)
    (hc : Coherent final page accesses fun p f => (p, f) ∈ cache) :
    ∀ x ∈ reached, final (page x.1) = some x.2 := by
  induction h with
  | stop => exact fun x hx => absurd hx List.not_mem_nil
  | reload _ ih =>
    refine ih hs (fun a ha => hok a (List.mem_cons_of_mem _ ha)) ?_
    exact fun _ _ _ _ _ _ _ hf => hf.elim
  | @use s cache cache' a f accesses reached hfill hf _ ih =>
    have hadd : ∀ b g, Ok b → (page b, g) ∈ cache' →
        (page b, g) ∈ cache ∨ final (page b) = some g := by
      intro b g hb hg
      rw [← hfinal s b hs hb]
      exact hfill.present _ hg
    have ha := hok a List.mem_cons_self
    have hnow : final (page a) = some f :=
      (hadd a f ha hf).elim (hc [] a accesses rfl List.not_mem_nil (by simp) f) id
    refine List.forall_mem_cons.mpr ⟨hnow, ih (hperform s a f hs ha hnow)
      (fun b hb => hok b (List.mem_cons_of_mem _ hb)) ?_⟩
    intro before b after he hreload hsome g hg
    have hb : Ok b := hok b (by rw [he]; simp)
    refine (hadd b g hb hg).elim (hc (.use a :: before) b after (by rw [he]; rfl) ?_ ?_ g) id
    · exact fun hin => hreload ((List.mem_cons.mp hin).resolve_left (by simp))
    · intro d hd
      rcases List.mem_cons.mp hd with hd | hd
      · rw [Access.use.inj hd, hnow]
        rfl
      · exact hsome d hd

/-- An old translation in the cache stays there until it is used. -/
theorem Accesses.exists_of_mem {before after : List (Access α)} {a : α} {f : φ} (hs : Inv s)
    (hok : ∀ b, .use b ∈ before → Ok b) (hreload : .reload ∉ before)
    (hsome : ∀ b, .use b ∈ before → (final (page b)).isSome) (hf : (page a, f) ∈ cache) :
    ∃ reached, Accesses tables perform page s cache (before ++ .use a :: after) reached ∧
      (a, f) ∈ reached := by
  induction before generalizing s cache with
  | nil => exact ⟨[(a, f)], .use (.refl _ _) hf .stop, List.mem_singleton_self _⟩
  | cons access before ih =>
    obtain ⟨hfirst, hrest⟩ := not_or.mp (mt List.mem_cons.mpr hreload)
    cases access with
    | reload => exact absurd rfl hfirst
    | use b =>
      have hb := hok b List.mem_cons_self
      obtain ⟨g, hg⟩ := Option.isSome_iff_exists.mp (hsome b List.mem_cons_self)
      have hwalk : tables s (page b) = some g := (hfinal s b hs hb).trans hg
      obtain ⟨reached, h, hin⟩ := ih (hperform s b g hs hb hg)
        (fun d hd => hok d (List.mem_cons_of_mem _ hd)) hrest
        (fun d hd => hsome d (List.mem_cons_of_mem _ hd)) (Set.mem_insert_of_mem (page b, g) hf)
      exact ⟨_, .use (.insert hwalk) (Set.mem_insert _ _) h, List.mem_cons_of_mem _ hin⟩

/-- Whatever the hardware caches and whenever it does, all uses reach what the final tables
say exactly if nothing else could be cached for them. -/
theorem coherent_iff {moments : List (π → Option φ)} (hs : Inv s)
    (hok : ∀ a, .use a ∈ accesses → Ok a) :
    (∀ cache', Through moments cache cache' → ∀ reached,
      Accesses tables perform page s cache' accesses reached →
        ∀ x ∈ reached, final (page x.1) = some x.2) ↔
      Coherent final page accesses fun p f =>
        (p, f) ∈ cache ∨ ∃ tables ∈ moments, tables p = some f := by
  constructor
  · intro h before a after he hreload hsome f hold
    have hcached : ∃ cache', Through moments cache cache' ∧ (page a, f) ∈ cache' := by
      rcases hold with hin | ⟨tables, ht, hp⟩
      · exact ⟨cache, .rest _ _, hin⟩
      · exact Through.exists_mem ht hp
    obtain ⟨cache', hthrough, hin⟩ := hcached
    have hokb : ∀ b, .use b ∈ before → Ok b := by
      intro b hb
      exact hok b (by rw [he]; exact List.mem_append_left _ hb)
    obtain ⟨reached, hrun, hx⟩ : ∃ reached,
        Accesses tables perform page s cache' (before ++ .use a :: after) reached ∧
          (a, f) ∈ reached :=
      Accesses.exists_of_mem hfinal hperform hs hokb hreload hsome hin
    exact h cache' hthrough reached (he ▸ hrun) _ hx
  · intro hc cache' hthrough reached hrun
    refine hrun.coherent hfinal hperform hs hok ?_
    exact fun before a after he hreload hsome f hf =>
      hc before a after he hreload hsome f (hthrough.present hf)

end Accesses

end Persistos.Theory
