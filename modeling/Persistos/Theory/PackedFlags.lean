import Persistos.Theory.Bits

/-! Flags that are packed eight to a byte. -/

namespace Persistos.Theory

variable (flags : Nat → BitVec 8) (i j : Nat)

def flagMask (i : Nat) : BitVec 8 := 1 <<< (i % 8)

def testFlag : Bool := flags (i >>> 3) &&& flagMask i ≠ 0

def setFlag : Nat → BitVec 8 :=
  Function.update flags (i >>> 3) (flags (i >>> 3) ||| flagMask i)

def flipFlag : Nat → BitVec 8 :=
  Function.update flags (i >>> 3) (flags (i >>> 3) ^^^ flagMask i)

theorem testFlag_eq : testFlag flags i = (flags (i >>> 3)).getLsbD (i % 8) := by
  have hlt : i % 8 < 8 := Nat.mod_lt _ (by decide)
  rw [Bool.eq_iff_iff, testFlag, decide_eq_true_iff]
  constructor
  · intro hne
    by_contra hbit
    apply hne
    apply BitVec.eq_of_getLsbD_eq
    intro k hk
    have hmask := getLsbD_one_shiftLeft (w := 8) k (i % 8) hlt
    change ((1#8) <<< (i % 8)).getLsbD k = _ at hmask
    rw [BitVec.getLsbD_and, flagMask]
    change (_ && ((1#8) <<< (i % 8)).getLsbD k) = _
    rw [hmask]
    by_cases hki : k = i % 8
    · subst hki
      simpa using hbit
    · simp [hki]
  · intro hbit hzero
    have hh := congrArg (fun x => x.getLsbD (i % 8)) hzero
    have hmask := getLsbD_one_shiftLeft (w := 8) (i % 8) (i % 8) hlt
    change ((1#8) <<< (i % 8)).getLsbD (i % 8) = _ at hmask
    simp only [flagMask, BitVec.getLsbD_and, hbit] at hh
    change (true && ((1#8) <<< (i % 8)).getLsbD (i % 8)) = _ at hh
    rw [hmask] at hh
    simp at hh

theorem same_place {i j : Nat} (hbyte : i >>> 3 = j >>> 3) (hbit : i % 8 = j % 8) : i = j := by
  rw [Nat.shiftRight_eq_div_pow, Nat.shiftRight_eq_div_pow] at hbyte
  omega

@[simp] theorem testFlag_setFlag :
    testFlag (setFlag flags i) j = (decide (j = i) || testFlag flags j) := by
  rw [testFlag_eq, testFlag_eq, setFlag]
  by_cases hbyte : j >>> 3 = i >>> 3
  · rw [hbyte, Function.update_self]
    have hbit := getLsbD_or_bit (flags (i >>> 3)) (j % 8) (i % 8) (Nat.mod_lt _ (by decide))
    refine hbit.trans ?_
    by_cases hj : j % 8 = i % 8
    · simp [same_place hbyte hj]
    · have hne : j ≠ i := fun he => hj (congrArg (· % 8) he)
      simp [hj, hne]
  · have hne : j ≠ i := fun he => hbyte (congrArg (· >>> 3) he)
    rw [Function.update_of_ne hbyte]
    simp [hne]

@[simp] theorem testFlag_flipFlag :
    testFlag (flipFlag flags i) j = (decide (j = i) ^^ testFlag flags j) := by
  rw [testFlag_eq, testFlag_eq, flipFlag]
  by_cases hbyte : j >>> 3 = i >>> 3
  · rw [hbyte, Function.update_self]
    have hbit := getLsbD_xor_bit (flags (i >>> 3)) (j % 8) (i % 8) (Nat.mod_lt _ (by decide))
    refine hbit.trans ?_
    by_cases hj : j % 8 = i % 8
    · simp [same_place hbyte hj]
    · have hne : j ≠ i := fun he => hj (congrArg (· % 8) he)
      simp [hj, hne]
  · have hne : j ≠ i := fun he => hbyte (congrArg (· >>> 3) he)
    rw [Function.update_of_ne hbyte]
    simp [hne]

theorem testFlag_of_full {flags : Nat → BitVec 8} {i : Nat} (h : flags (i >>> 3) = 0xFF) :
    testFlag flags i = true := by
  have hfull : (0xFF : BitVec 8) = BitVec.allOnes 8 := rfl
  rw [testFlag_eq, h, hfull, BitVec.getLsbD_allOnes]
  exact decide_eq_true (Nat.mod_lt _ (by decide))

end Persistos.Theory
