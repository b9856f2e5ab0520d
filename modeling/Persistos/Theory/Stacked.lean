import Persistos.Theory.Interval

/-! Intervals laid one after another from a bottom up, the last one first: what an
allocator that only moves its top gives out. -/

namespace Persistos.Theory

inductive Stacked (bottom : Nat) : List Interval → Nat → Prop where
  | nil : Stacked bottom [] bottom
  | cons {l : List Interval} {top : Nat} (n : Nat) (h : Stacked bottom l top) :
      Stacked bottom (⟨top, n⟩ :: l) (top + n)

namespace Stacked

variable {bottom top : Nat} {l : List Interval}

theorem top_eq (h : Stacked bottom l top) : top = bottom + (l.map Interval.length).sum := by
  induction h with
  | nil => rfl
  | cons n _ ih =>
    rw [List.map_cons, List.sum_cons, ih, Nat.add_assoc, Nat.add_comm n]

theorem bottom_le (h : Stacked bottom l top) : bottom ≤ top :=
  h.top_eq ▸ Nat.le_add_right bottom _

theorem within (h : Stacked bottom l top) {a : Interval} (ha : a ∈ l) {i : Nat} (hi : i ∈ a) :
    bottom ≤ i ∧ i < top := by
  induction h with
  | nil => cases ha
  | cons n h ih =>
    have hle := h.bottom_le
    rcases List.mem_cons.mp ha with rfl | ha
    · obtain ⟨h₁, h₂⟩ := Interval.mem_def.mp hi
      exact ⟨Nat.le_trans hle h₁, h₂⟩
    · obtain ⟨h₁, h₂⟩ := ih ha
      exact ⟨h₁, Nat.lt_of_lt_of_le h₂ (Nat.le_add_right _ n)⟩

theorem apart (h : Stacked bottom l top) : l.Pairwise Interval.Apart := by
  induction h with
  | nil => exact .nil
  | cons n h ih =>
    refine List.pairwise_cons.mpr ⟨fun a ha i hi hia => ?_, ih⟩
    have hlt := (h.within ha hia).2
    exact absurd (Interval.mem_def.mp hi).1 (Nat.not_le.mpr hlt)

end Stacked

end Persistos.Theory
