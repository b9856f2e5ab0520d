import Mathlib.Computability.Language

/-! Languages given by rules with repetition, and the induction that takes a repeated
part off the front of a word. -/

namespace Persistos.Theory

open Computability

variable {α : Type} {l : Language α} {p : α → Prop} {x y : List α}

/-- One letter of a kind. -/
def oneOf (p : α → Prop) : Language α := {w | ∃ a, p a ∧ w = [a]}

/-- One or more of a kind. -/
def plus (l : Language α) : Language α := l * l∗

theorem singleton_mem_oneOf {a : α} (h : p a) : [a] ∈ oneOf p := ⟨a, h, rfl⟩

theorem kstar_induction {P : List α → Prop} (nil : P [])
    (append : ∀ x ∈ l, ∀ y, P y → P (x ++ y)) (h : x ∈ l∗) : P x := by
  obtain ⟨parts, rfl, hparts⟩ := Language.mem_kstar.mp h
  clear h
  induction parts with
  | nil => exact nil
  | cons part parts ih =>
    exact append part (hparts part List.mem_cons_self) parts.flatten
      (ih fun y hy => hparts y (List.mem_cons_of_mem part hy))

theorem append_mem_kstar (hx : x ∈ l) (hy : y ∈ l∗) : x ++ y ∈ l∗ := by
  rw [← Language.one_add_self_mul_kstar_eq_kstar]
  exact .inr (Language.append_mem_mul hx hy)

theorem kstar_append_mem (hx : x ∈ l∗) (hy : y ∈ l) : x ++ y ∈ l∗ := by
  rw [← Language.one_add_kstar_mul_self_eq_kstar]
  exact .inr (Language.append_mem_mul hx hy)

theorem mem_plus (hx : x ∈ l) : x ∈ plus l := by
  have h := Language.append_mem_mul hx (Language.nil_mem_kstar l)
  rwa [List.append_nil] at h

theorem plus_append_mem (hx : x ∈ plus l) (hy : y ∈ l) : x ++ y ∈ plus l := by
  obtain ⟨a, ha, b, hb, rfl⟩ := Language.mem_mul.mp hx
  rw [List.append_assoc]
  exact Language.append_mem_mul ha (kstar_append_mem hb hy)

theorem mem_kstar_oneOf : x ∈ (oneOf p)∗ ↔ ∀ a ∈ x, p a := by
  constructor
  · intro h
    refine kstar_induction (P := fun x => ∀ a ∈ x, p a) (List.forall_mem_nil p) ?_ h
    rintro _ ⟨a, ha, rfl⟩ y hy
    exact List.forall_mem_cons.mpr ⟨ha, hy⟩
  · intro h
    induction x with
    | nil => exact Language.nil_mem_kstar _
    | cons a x ih =>
      obtain ⟨ha, hx⟩ := List.forall_mem_cons.mp h
      exact append_mem_kstar (singleton_mem_oneOf ha) (ih hx)

theorem mem_plus_oneOf : x ∈ plus (oneOf p) ↔ x ≠ [] ∧ ∀ a ∈ x, p a := by
  constructor
  · intro h
    obtain ⟨_, ⟨a, ha, rfl⟩, y, hy, rfl⟩ := Language.mem_mul.mp h
    exact ⟨List.cons_ne_nil a y, List.forall_mem_cons.mpr ⟨ha, mem_kstar_oneOf.mp hy⟩⟩
  · rintro ⟨hne, h⟩
    cases x with
    | nil => exact absurd rfl hne
    | cons a x =>
      obtain ⟨ha, hx⟩ := List.forall_mem_cons.mp h
      exact Language.append_mem_mul (singleton_mem_oneOf ha) (mem_kstar_oneOf.mpr hx)

end Persistos.Theory
