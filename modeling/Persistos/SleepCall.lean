import Persistos.Word
import Mathlib.Logic.Relation

/-! SLEEP, from its first look at the timer to its return. -/

namespace Persistos

def timerTicksPerSecond : U64 := 100

/-- `arg3` is the number of milliseconds. -/
def sleepEndTicks (startTicks arg3 : U64) : U64 :=
  startTicks + 1 + (arg3 - 1) * timerTicksPerSecond / 1000

/-- `advanced` counts the interrupts of the timer since SLEEP has read it. -/
structure SleepState where
  timerTicks : U64
  endTicks : U64
  advanced : Nat
  returned : Bool

namespace SleepState

def start (startTicks arg3 : U64) : SleepState where
  timerTicks := startTicks
  endTicks := sleepEndTicks startTicks arg3
  advanced := 0
  returned := false

/-- The condition of the loop. -/
def Waiting (s : SleepState) : Prop := s.timerTicks < s.endTicks

instance (s : SleepState) : Decidable s.Waiting := inferInstanceAs (Decidable (_ < _))

/-- The timer's interrupt. -/
def tick (s : SleepState) : SleepState :=
  { s with timerTicks := s.timerTicks + 1, advanced := s.advanced + 1 }

/-- The task is scheduled again and tests its condition. -/
def test (s : SleepState) : SleepState := if s.Waiting then s else { s with returned := true }

end SleepState

inductive SleepStep (s : SleepState) : SleepState → Prop
  | tick : SleepStep s s.tick
  | test (sleeps : s.returned = false) : SleepStep s s.test

/-- The states of a SLEEP for `arg3` milliseconds that begins at `startTicks`. -/
def SleepRun (startTicks arg3 : U64) : SleepState → Prop :=
  Relation.ReflTransGen SleepStep (.start startTicks arg3)

/-- The ticks of ten milliseconds in so many milliseconds, rounded up. -/
def ticksFor (millis : U64) : Nat := (millis.toNat + 9) / 10

structure SleepsAsAsked (startTicks millis : U64) : Prop where
  notBefore : ∀ s, SleepRun startTicks millis s → s.returned = true →
    ticksFor millis ≤ s.advanced
  atOnce : startTicks.toNat + ticksFor millis < 2 ^ 64 → ∀ s, SleepRun startTicks millis s →
    s.advanced = ticksFor millis → ¬s.Waiting

variable {startTicks millis : U64} {s s' : SleepState}

/-- What the timer shows, and when SLEEP has returned. -/
structure SleepInv (startTicks millis : U64) (s : SleepState) : Prop where
  timer : s.timerTicks = startTicks + BitVec.ofNat 64 s.advanced
  ends : s.endTicks = sleepEndTicks startTicks millis
  done : s.returned = true → ∃ d ≤ s.advanced,
    ¬startTicks + BitVec.ofNat 64 d < sleepEndTicks startTicks millis

theorem SleepInv.step (h : SleepInv startTicks millis s) (hs : SleepStep s s') :
    SleepInv startTicks millis s' := by
  cases hs with
  | tick =>
    refine ⟨?_, h.ends, fun hr => ?_⟩
    · change s.timerTicks + 1 = startTicks + BitVec.ofNat 64 (s.advanced + 1)
      rw [h.timer, BitVec.ofNat_add, BitVec.add_assoc]
      rfl
    · obtain ⟨d, hd, hlt⟩ := h.done hr
      exact ⟨d, Nat.le_succ_of_le hd, hlt⟩
  | test sleeps =>
    rw [SleepState.test]
    split
    · exact h
    · next hw =>
      refine ⟨h.timer, h.ends, fun _ => ⟨s.advanced, Nat.le_refl _, ?_⟩⟩
      rw [SleepState.Waiting, h.timer, h.ends] at hw
      exact hw

theorem SleepRun.inv (h : SleepRun startTicks millis s) : SleepInv startTicks millis s := by
  induction h with
  | refl => exact ⟨(BitVec.add_zero _).symm, rfl, fun hr => absurd hr Bool.false_ne_true⟩
  | tail _ hstep ih => exact ih.step hstep

/-- Any number of ticks may pass before the task is scheduled again. -/
theorem exists_sleepRun (startTicks millis : U64) (d : Nat) :
    ∃ s, SleepRun startTicks millis s ∧ s.advanced = d ∧ s.returned = false := by
  induction d with
  | zero => exact ⟨_, .refl, rfl, rfl⟩
  | succ d ih =>
    obtain ⟨s, hrun, hd, hr⟩ := ih
    exact ⟨s.tick, hrun.tail .tick, congrArg (· + 1) hd, hr⟩

theorem waiting_iff (h : SleepRun startTicks millis s) :
    s.Waiting ↔ startTicks + BitVec.ofNat 64 s.advanced < sleepEndTicks startTicks millis := by
  rw [SleepState.Waiting, h.inv.timer, h.inv.ends]

/-- A return is late enough just if the condition holds at every earlier tick. -/
theorem notBefore_iff (n : Nat) :
    (∀ s, SleepRun startTicks millis s → s.returned = true → n ≤ s.advanced) ↔
      ∀ d < n, startTicks + BitVec.ofNat 64 d < sleepEndTicks startTicks millis := by
  constructor
  · intro h d hd
    by_contra hlt
    obtain ⟨s, hrun, rfl, hr⟩ := exists_sleepRun startTicks millis d
    have hreturned : s.test = { s with returned := true } :=
      if_neg fun hw => hlt ((waiting_iff hrun).mp hw)
    have hle := h _ (hrun.tail (.test hr)) (by rw [hreturned])
    rw [hreturned] at hle
    exact absurd hle (Nat.not_le_of_lt hd)
  · intro h s hrun hr
    obtain ⟨d, hd, hlt⟩ := hrun.inv.done hr
    by_contra hn
    exact hlt (h d (by omega))

theorem sleepEndTicks_toNat (startTicks millis : U64) : (sleepEndTicks startTicks millis).toNat =
    (startTicks.toNat + 1 + (2 ^ 64 - 1 + millis.toNat) % 2 ^ 64 * 100 % 2 ^ 64 / 1000) % 2 ^ 64 := by
  have hone : (1 : U64).toNat = 1 := rfl
  have hrate : timerTicksPerSecond.toNat = 100 := rfl
  have hthousand : (1000 : U64).toNat = 1000 := rfl
  rw [sleepEndTicks, BitVec.toNat_add, BitVec.toNat_add, BitVec.toNat_udiv, BitVec.toNat_mul,
    BitVec.toNat_sub, hone, hrate, hthousand]
  omega

theorem sleepEndTicks_zero (startTicks : U64) : (sleepEndTicks startTicks 0).toNat =
    (startTicks.toNat + 18446744073709552) % 2 ^ 64 := by
  have htarget : (1 : U64) + (0 - 1) * timerTicksPerSecond / 1000 = 18446744073709552 := by decide
  have hnat : (18446744073709552 : U64).toNat = 18446744073709552 := rfl
  rw [sleepEndTicks, BitVec.add_assoc, htarget, BitVec.toNat_add, hnat]

/-- In front of the product's wrap-around the division rounds up, and behind it the target is too
early. -/
theorem sleepEndTicks_pos {startTicks millis : U64} (hmillis : millis ≠ 0)
    (hend : startTicks.toNat + ticksFor millis < 2 ^ 64) :
    ((millis.toNat - 1) * 100 < 2 ^ 64 →
      (sleepEndTicks startTicks millis).toNat = startTicks.toNat + ticksFor millis) ∧
    (2 ^ 64 ≤ (millis.toNat - 1) * 100 →
      (sleepEndTicks startTicks millis).toNat < startTicks.toNat + ticksFor millis) := by
  have hpos : millis.toNat ≠ 0 := fun hz => hmillis (BitVec.eq_of_toNat_eq hz)
  have hlt := millis.isLt
  have hpred : (2 ^ 64 - 1 + millis.toNat) % 2 ^ 64 = millis.toNat - 1 := by omega
  have hticks : ticksFor millis = (millis.toNat - 1) / 10 + 1 := by
    rw [ticksFor]
    omega
  rw [sleepEndTicks_toNat, hpred]
  rw [hticks] at hend ⊢
  generalize millis.toNat - 1 = p at hend ⊢
  constructor
  · intro hproduct
    have hquotient : p * 100 / 1000 = p / 10 := by omega
    rw [Nat.mod_eq_of_lt hproduct, hquotient, Nat.mod_eq_of_lt (by omega)]
    omega
  · intro hproduct
    have hwrapped : p * 100 % 2 ^ 64 ≤ p * 100 - 2 ^ 64 := by
      rw [Nat.mod_eq_sub_mod hproduct]
      exact Nat.mod_le _ _
    have hquotient : p * 100 % 2 ^ 64 / 1000 < p / 10 := by omega
    rw [Nat.mod_eq_of_lt (by omega)]
    omega

/-- The target is the right one unless the product wraps around, or there is nothing to wait for. -/
theorem sleepsAsAsked_iff : SleepsAsAsked startTicks millis ↔
    startTicks.toNat + ticksFor millis < 2 ^ 64 ∧
      if millis = 0 then 2 ^ 64 ≤ startTicks.toNat + 18446744073709552
      else (millis.toNat - 1) * 100 < 2 ^ 64 := by
  have hstart := startTicks.isLt
  have hbefore := @notBefore_iff startTicks millis (ticksFor millis)
  simp only [BitVec.lt_def, BitVec.toNat_add, BitVec.toNat_ofNat, Nat.add_mod_mod] at hbefore
  have hwaits : ∀ s, SleepRun startTicks millis s → s.advanced = ticksFor millis →
      (s.Waiting ↔ (startTicks.toNat + ticksFor millis) % 2 ^ 64 <
        (sleepEndTicks startTicks millis).toNat) := by
    intro s hrun hadvanced
    rw [waiting_iff hrun, hadvanced, BitVec.lt_def, BitVec.toNat_add, BitVec.toNat_ofNat,
      Nat.add_mod_mod]
  constructor
  · intro h
    have hticks := hbefore.mp h.notBefore
    have hend : startTicks.toNat + ticksFor millis < 2 ^ 64 := by
      by_contra hover
      have hlast := hticks (2 ^ 64 - 1 - startTicks.toNat) (by omega)
      have hlt := (sleepEndTicks startTicks millis).isLt
      omega
    obtain ⟨s, hrun, hadvanced, -⟩ := exists_sleepRun startTicks millis (ticksFor millis)
    have hdone := h.atOnce hend s hrun hadvanced
    rw [hwaits s hrun hadvanced, Nat.mod_eq_of_lt hend] at hdone
    refine ⟨hend, ?_⟩
    split
    · next hzero =>
      subst hzero
      rw [sleepEndTicks_zero] at hdone
      have hnone : ticksFor 0 = 0 := rfl
      omega
    · next hpos =>
      by_contra hproduct
      have hearly := (sleepEndTicks_pos hpos hend).2 (by omega)
      have hsome : 0 < ticksFor millis := by
        have hne : millis.toNat ≠ 0 := fun hz => hpos (BitVec.eq_of_toNat_eq hz)
        rw [ticksFor]
        omega
      have hlast := hticks (ticksFor millis - 1) (by omega)
      omega
  · rintro ⟨hend, hcondition⟩
    refine ⟨hbefore.mpr fun d hd => ?_, fun _ s hrun hadvanced => ?_⟩
    · split at hcondition
      · next hzero =>
        subst hzero
        exact absurd hd (Nat.not_lt_zero d)
      · next hpos =>
        rw [(sleepEndTicks_pos hpos hend).1 hcondition]
        omega
    · rw [hwaits s hrun hadvanced, Nat.mod_eq_of_lt hend]
      split at hcondition
      · next hzero =>
        subst hzero
        rw [sleepEndTicks_zero]
        have hnone : ticksFor 0 = 0 := rfl
        omega
      · next hpos =>
        rw [(sleepEndTicks_pos hpos hend).1 hcondition]
        exact Nat.lt_irrefl _

/-- A SLEEP for no time at all does not return, and one for long enough returns at the next
tick. -/
theorem sleeps_too_long_or_too_short : ¬SleepsAsAsked 0 0 ∧
    ¬SleepsAsAsked 0 184467440737095518 := by
  constructor
  · intro h
    exact h.atOnce (by decide) _ .refl rfl (by decide)
  · intro h
    have hrun : SleepRun 0 184467440737095518 (SleepState.start 0 184467440737095518).tick.test :=
      (Relation.ReflTransGen.refl.tail .tick).tail (.test rfl)
    exact absurd (h.notBefore _ hrun (by decide)) (by decide)

end Persistos
