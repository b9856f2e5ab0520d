import Mathlib.Data.List.Basic
import Mathlib.Logic.Function.Basic

/-! A ring of slots that is written and read at the same speed: what is written and not yet
read, while the writer is less than the ring ahead. -/

namespace Persistos.Theory

variable {α : Type} {size taken : Nat} {slots : Nat → α} {items : List α} {e : α}

/-- The slots hold the items that a reader who has taken `taken` of them has still to take. -/
def Pending (size : Nat) (slots : Nat → α) (items : List α) (taken : Nat) : Prop :=
  ∀ k e, taken ≤ k → items[k]? = some e → slots (k % size) = e

theorem mod_ne_mod_of_lt {a b : Nat} (hlt : a < b) (hb : b < a + size) : a % size ≠ b % size := by
  intro hmod
  have hd := Nat.sub_mod_eq_zero_of_mod_eq hmod.symm
  rw [Nat.mod_eq_of_lt (by omega)] at hd
  omega

/-- How far apart two positions are, as their slots tell. -/
theorem mod_distance {a b : Nat} (hle : a ≤ b) (hb : b < a + size) :
    (size + b % size - a % size) % size = b - a := by
  obtain ⟨d, rfl⟩ := Nat.exists_eq_add_of_le hle
  have hd : d < size := by omega
  have hr := Nat.mod_lt a (Nat.zero_lt_of_lt hd)
  rw [Nat.add_sub_cancel_left, Nat.add_mod a d, Nat.mod_eq_of_lt hd]
  by_cases hwrap : a % size + d < size
  · rw [Nat.mod_eq_of_lt hwrap]
    have hsum : size + (a % size + d) - a % size = d + size := by omega
    rw [hsum, Nat.add_mod_right, Nat.mod_eq_of_lt hd]
  · have hsub : (a % size + d) % size = a % size + d - size := by
      rw [Nat.mod_eq_sub_mod (by omega), Nat.mod_eq_of_lt (by omega)]
    have hsum : size + (a % size + d - size) - a % size = d := by omega
    rw [hsub, hsum, Nat.mod_eq_of_lt hd]

namespace Pending

theorem nil : Pending size slots [] taken := by
  intro k e _ hk
  cases hk

/-- A write to the slot of the next item touches none that is still to be taken. -/
theorem write (h : Pending size slots items taken) (hroom : items.length < taken + size) :
    Pending size (Function.update slots (items.length % size) e) items taken := by
  intro k x hle hk
  have hlt := (List.getElem?_eq_some_iff.mp hk).1
  rw [Function.update_of_ne (mod_ne_mod_of_lt hlt (by omega))]
  exact h k x hle hk

theorem append (h : Pending size slots items taken) (he : slots (items.length % size) = e) :
    Pending size slots (items ++ [e]) taken := by
  intro k x hle hk
  rcases Nat.lt_or_ge k items.length with hlt | hge
  · rw [List.getElem?_append_left hlt] at hk
    exact h k x hle hk
  · have hlast := (List.getElem?_eq_some_iff.mp hk).1
    rw [List.length_append, List.length_singleton] at hlast
    obtain rfl : k = items.length := by omega
    rw [List.getElem?_concat_length] at hk
    exact he.trans (Option.some.inj hk)

theorem advance (h : Pending size slots items taken) : Pending size slots items (taken + 1) :=
  fun k e hle => h k e (Nat.le_of_succ_le hle)

/-- The reader takes the next item. -/
theorem take (h : Pending size slots items taken) (hlt : taken < items.length) :
    items.take taken ++ [slots (taken % size)] = items.take (taken + 1) := by
  have hget := List.getElem?_eq_getElem hlt
  rw [h taken _ (Nat.le_refl _) hget, List.take_add_one, hget]
  rfl

/-- What is between the slots of the reader and of the writer. -/
theorem between (h : Pending size slots items taken) (hle : taken ≤ items.length)
    (hroom : items.length < taken + size) :
    (List.range ((size + items.length % size - taken % size) % size)).map
        (fun k => slots ((taken % size + k) % size)) = items.drop taken := by
  rw [mod_distance hle hroom]
  refine List.ext_getElem? fun k => ?_
  rw [List.getElem?_map, List.getElem?_drop]
  rcases Nat.lt_or_ge k (items.length - taken) with hlt | hge
  · have hget := List.getElem?_eq_getElem (show taken + k < items.length by omega)
    rw [List.getElem?_range hlt, hget, Option.map_some, Nat.mod_add_mod,
      h (taken + k) _ (Nat.le_add_right _ _) hget]
  · rw [List.getElem?_eq_none (by rwa [List.length_range]), List.getElem?_eq_none (by omega)]
    rfl

end Pending

end Persistos.Theory
