import Mathlib.Logic.Function.Basic

/-! Single bits of a bit vector under the shifts and masks by which C code
reads and writes them. -/

namespace Persistos.Theory

variable {w : Nat} (x : BitVec w)

theorem shiftRight_and_one (j : Nat) :
    (x >>> j) &&& 1#w = if x.getLsbD j then 1#w else 0#w := by
  ext i hi
  by_cases h : i = 0
  · subst h
    cases hx : x.getLsbD j <;> simp [hx]
  · cases hx : x.getLsbD j <;> simp [h]

theorem getLsbD_one_shiftLeft (i j : Nat) (hj : j < w) :
    (1#w <<< j).getLsbD i = decide (i = j) := by
  have h := BitVec.getLsbD_twoPow (w := w) j i
  rw [BitVec.twoPow_eq] at h
  simp [h, hj, eq_comm]

theorem getLsbD_xor_bit (i j : Nat) (hj : j < w) :
    (x ^^^ (1#w <<< j)).getLsbD i = if i = j then !x.getLsbD i else x.getLsbD i := by
  rw [BitVec.getLsbD_xor, getLsbD_one_shiftLeft i j hj]
  by_cases h : i = j <;> simp [h]

theorem getLsbD_or_bit (i j : Nat) (hj : j < w) :
    (x ||| (1#w <<< j)).getLsbD i = if i = j then true else x.getLsbD i := by
  rw [BitVec.getLsbD_or, getLsbD_one_shiftLeft i j hj]
  by_cases h : i = j <;> simp [h]

end Persistos.Theory
