import Mathlib.Order.Basic

/-! Runs that draw from a stock. A run ends and has taken no more than its cost, or it stops
because less than that was there. -/

namespace Persistos.Theory

variable {ε α β : Type}

/-- `before` is what there is before the run, and `after` what a result leaves. -/
def Affords (run : Except ε α) (stop : ε) (before : Nat) (after : α → Nat) (cost : Nat) : Prop :=
  (∃ a, run = .ok a ∧ before ≤ after a + cost) ∨ run = .error stop ∧ before < cost

namespace Affords

variable {run : Except ε α} {stop : ε} {before cost : Nat} {after : α → Nat}

theorem ok {a : α} (hrun : run = .ok a) (h : before ≤ after a) :
    Affords run stop before after cost :=
  .inl ⟨a, hrun, Nat.le_add_right_of_le h⟩

theorem mono (h : Affords run stop before after cost) {cost' : Nat} (hc : cost ≤ cost') :
    Affords run stop before after cost' := by
  rcases h with ⟨a, hrun, hleft⟩ | ⟨hrun, hleft⟩
  · exact .inl ⟨a, hrun, Nat.le_trans hleft (Nat.add_le_add_left hc _)⟩
  · exact .inr ⟨hrun, Nat.lt_of_lt_of_le hleft hc⟩

/-- What is left over pays for what follows. -/
theorem bind (h : Affords run stop before after cost) {f : α → Except ε β} {after' : β → Nat}
    {cost' : Nat} (hf : ∀ a, run = .ok a → Affords (f a) stop (after a) after' cost') :
    Affords (run >>= f) stop before after' (cost' + cost) := by
  rcases h with ⟨a, hrun, hleft⟩ | ⟨hrun, hleft⟩
  · rcases hf a hrun with ⟨b, hrun', hleft'⟩ | ⟨hrun', hleft'⟩
    · refine .inl ⟨b, ?_, by omega⟩
      rw [hrun]
      exact hrun'
    · refine .inr ⟨?_, by omega⟩
      rw [hrun]
      exact hrun'
  · refine .inr ⟨?_, by omega⟩
    rw [hrun]
    rfl

theorem bind_free (h : Affords run stop before after cost) {f : α → Except ε β}
    {after' : β → Nat} (hf : ∀ a, run = .ok a → Affords (f a) stop (after a) after' 0) :
    Affords (run >>= f) stop before after' cost :=
  Nat.zero_add cost ▸ h.bind hf

/-- Where there is enough, the run ends. -/
theorem returns (h : Affords run stop before after cost) {n : Nat} (hn : n + cost ≤ before) :
    ∃ a, run = .ok a ∧ n ≤ after a := by
  obtain ⟨a, hrun, hleft⟩ := h.resolve_right fun hh => absurd hh.2 (by omega)
  exact ⟨a, hrun, by omega⟩

theorem mapError (h : Affords run stop before after cost) {ε' : Type} (f : ε → ε') :
    Affords (run.mapError f) (f stop) before after cost := by
  rcases h with ⟨a, hrun, hleft⟩ | ⟨hrun, hleft⟩
  · refine .inl ⟨a, ?_, hleft⟩
    rw [hrun]
    rfl
  · refine .inr ⟨?_, hleft⟩
    rw [hrun]
    rfl

end Affords

end Persistos.Theory
