import Mathlib.Data.List.Basic

/-! Loops over a list, as folds: what the pass for one element establishes and the other
passes keep. -/

namespace Persistos.Theory

variable {σ α β : Type} {step : σ → α → σ} {l : List α} {s : σ} {a : α}

/-- What the pass for `a` makes true is true after the loop. -/
theorem foldl_establishes {P D : σ → Prop} (ha : a ∈ l) (h : P s)
    (hinv : ∀ s, ∀ k ∈ l, P s → P (step s k)) (hset : ∀ s, P s → D (step s a))
    (hkeep : ∀ s, ∀ k ∈ l, k ≠ a → P s → D s → D (step s k)) : D (l.foldl step s) := by
  have hlater : ∀ (l' : List α) (s : σ), (∀ k ∈ l', k ∈ l) → P s → D s → D (l'.foldl step s) := by
    intro l' s hsub hp hd
    refine (List.foldlRecOn (motive := fun s => P s ∧ D s) l' step ⟨hp, hd⟩ ?_).2
    intro s ⟨hp, hd⟩ k hk
    refine ⟨hinv s k (hsub k hk) hp, ?_⟩
    by_cases hka : k = a
    · exact hka ▸ hset s hp
    · exact hkeep s k (hsub k hk) hka hp hd
  obtain ⟨l₁, l₂, rfl⟩ := List.append_of_mem ha
  have hfirst : P (l₁.foldl step s) :=
    List.foldlRecOn l₁ step h fun s hp k hk => hinv s k (List.mem_append_left _ hk) hp
  rw [List.foldl_append, List.foldl_cons]
  apply hlater
  · intro k hk
    exact List.mem_append_right _ (List.mem_cons_of_mem _ hk)
  · exact hinv _ a (by simp) hfirst
  · exact hset _ hfirst

/-- What no pass changes is as before the loop. -/
theorem foldl_keeps {f : σ → β} (hkeep : ∀ s, ∀ k ∈ l, f (step s k) = f s) :
    f (l.foldl step s) = f s :=
  List.foldlRecOn (motive := fun s' => f s' = f s) l step rfl
    fun s' h k hk => (hkeep s' k hk).trans h

/-- What the pass for `a` sets, whatever was before it. -/
theorem foldl_sets {f : σ → β} {b : β} (ha : a ∈ l) (hset : ∀ s, f (step s a) = b)
    (hkeep : ∀ s, ∀ k ∈ l, k ≠ a → f (step s k) = f s) : f (l.foldl step s) = b :=
  foldl_establishes (P := fun _ => True) (D := fun s => f s = b) ha trivial
    (fun _ _ _ _ => trivial) (fun s _ => hset s)
    fun s k hk hka _ hd => (hkeep s k hk hka).trans hd

/-- A loop with checks that never fail does what the loop without them does. -/
theorem foldlM_tracks {ε τ : Type} (stepM : τ → α → Except ε τ) (step : σ → α → σ)
    {R : τ → σ → Prop}
    (hstep : ∀ t s, ∀ k ∈ l, R t s → ∃ t', stepM t k = .ok t' ∧ R t' (step s k)) {t : τ}
    (h : R t s) : ∃ t', l.foldlM stepM t = .ok t' ∧ R t' (l.foldl step s) := by
  induction l generalizing t s with
  | nil => exact ⟨t, rfl, h⟩
  | cons k l ih =>
    obtain ⟨t₁, ht₁, h₁⟩ := hstep t s k List.mem_cons_self h
    obtain ⟨t', hrun, h'⟩ := ih (fun t s k hk => hstep t s k (List.mem_cons_of_mem _ hk)) h₁
    refine ⟨t', ?_, h'⟩
    rw [List.foldlM_cons, ht₁]
    exact hrun

end Persistos.Theory
