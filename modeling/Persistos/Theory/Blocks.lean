import Persistos.Theory.Overlay

/-! An array stored in blocks of equal length. Past the last block it has a
fixed value, so that appending a cleared block does not change it. -/

namespace Persistos.Theory

variable {β : Type}

def joinBlocks (b : Nat) (zero : β) : List (Nat → β) → Nat → β
  | [], _ => zero
  | block :: rest, i => if i < b then block i else joinBlocks b zero rest (i - b)

variable {b : Nat} {zero : β}

theorem joinBlocks_of_ge (blocks : List (Nat → β)) {i : Nat} (h : b * blocks.length ≤ i) :
    joinBlocks b zero blocks i = zero := by
  induction blocks generalizing i with
  | nil => rfl
  | cons block rest ih =>
    rw [List.length_cons, Nat.mul_succ] at h
    rw [joinBlocks, if_neg (by omega), ih (by omega)]

theorem joinBlocks_append (blocks blocks' : List (Nat → β)) (i : Nat) :
    joinBlocks b zero (blocks ++ blocks') i =
      if i < b * blocks.length then joinBlocks b zero blocks i
      else joinBlocks b zero blocks' (i - b * blocks.length) := by
  induction blocks generalizing i with
  | nil => simp
  | cons block rest ih =>
    rw [List.cons_append, joinBlocks, joinBlocks, ih, List.length_cons, Nat.mul_succ]
    by_cases h : i < b
    · rw [if_pos h, if_pos h, if_pos (by omega)]
    · rw [if_neg h, if_neg h]
      by_cases hi : i - b < b * rest.length
      · rw [if_pos hi, if_pos (by omega)]
      · rw [if_neg hi, if_neg (by omega)]
        congr 1
        omega

theorem joinBlocks_replicate (blocks : List (Nat → β)) (n : Nat) :
    joinBlocks b zero (blocks ++ List.replicate n fun _ => zero) = joinBlocks b zero blocks := by
  have hz : ∀ n i, joinBlocks b zero (List.replicate n fun _ => zero) i = zero := by
    intro n
    induction n with
    | zero => exact fun i => rfl
    | succ n ih =>
      intro i
      rw [List.replicate_succ, joinBlocks, ih, ite_self]
  funext i
  rw [joinBlocks_append]
  split
  · rfl
  · next h => rw [hz, joinBlocks_of_ge blocks (Nat.le_of_not_lt h)]

theorem joinBlocks_take (blocks : List (Nat → β)) (k i : Nat) :
    joinBlocks b zero (blocks.take k) i =
      if i < b * k then joinBlocks b zero blocks i else zero := by
  by_cases hk : k ≤ blocks.length
  · have hlen : (blocks.take k).length = k := List.length_take_of_le hk
    split
    · next h =>
      have hh := @joinBlocks_append _ b zero (blocks.take k) (blocks.drop k) i
      rw [List.take_append_drop, hlen, if_pos h] at hh
      exact hh.symm
    · next h => exact joinBlocks_of_ge _ (by rw [hlen]; exact Nat.le_of_not_lt h)
  · rw [List.take_of_length_le (by omega)]
    split
    · rfl
    · next h =>
      have hmul := Nat.mul_le_mul_left b (Nat.le_of_not_le hk)
      exact joinBlocks_of_ge _ (by omega)

end Persistos.Theory
