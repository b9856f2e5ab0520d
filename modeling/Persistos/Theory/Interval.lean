import Mathlib.Order.Interval.Finset.Nat
import Mathlib.Algebra.BigOperators.Group.List.Basic
import Mathlib.Algebra.GroupWithZero.Nat

/-! Half-open intervals of natural numbers, given by a first element and a
length, and the first run of a predicate that has a given length. -/

namespace Persistos.Theory

structure Interval where
  first : Nat
  length : Nat
  deriving DecidableEq, Repr

namespace Interval

def Mem (i : Nat) (a : Interval) : Prop := a.first ≤ i ∧ i < a.first + a.length

instance : Membership Nat Interval := ⟨fun a i => Mem i a⟩

theorem mem_def {i : Nat} {a : Interval} :
    i ∈ a ↔ a.first ≤ i ∧ i < a.first + a.length := Iff.rfl

instance (i : Nat) (a : Interval) : Decidable (i ∈ a) :=
  decidable_of_iff _ mem_def.symm

def Apart (a b : Interval) : Prop := ∀ i, i ∈ a → i ∉ b

theorem Apart.symm {a b : Interval} (h : Apart a b) : Apart b a :=
  fun i hb ha => h i ha hb

theorem exists_finset {l : List Interval} (hd : l.Pairwise Apart) :
    ∃ s : Finset Nat, s.card = (l.map length).sum ∧ ∀ i ∈ s, ∃ a ∈ l, i ∈ a := by
  induction l with
  | nil => exact ⟨∅, rfl, by simp⟩
  | cons a l ih =>
    have hp := List.pairwise_cons.mp hd
    obtain ⟨s, hs, hmem⟩ := ih hp.2
    have hdis : Disjoint (Finset.Ico a.first (a.first + a.length)) s := by
      rw [Finset.disjoint_left]
      intro i hi his
      obtain ⟨b, hbl, hib⟩ := hmem i his
      exact hp.1 b hbl i (mem_def.mpr (Finset.mem_Ico.mp hi)) hib
    refine ⟨Finset.Ico a.first (a.first + a.length) ∪ s, ?_, ?_⟩
    · rw [Finset.card_union_of_disjoint hdis, Nat.card_Ico, hs, Nat.add_sub_cancel_left,
        List.map_cons, List.sum_cons]
    · intro i hi
      rcases Finset.mem_union.mp hi with h | h
      · exact ⟨a, List.mem_cons_self, mem_def.mpr (Finset.mem_Ico.mp h)⟩
      · obtain ⟨b, hm, hib⟩ := hmem i h
        exact ⟨b, List.mem_cons_of_mem _ hm, hib⟩

/-- Intervals that are pairwise apart and lie below a bound have total length
at most the bound. -/
theorem sum_length_le {l : List Interval} {total : Nat} (hd : l.Pairwise Apart)
    (hb : ∀ a ∈ l, a.first + a.length ≤ total) : (l.map length).sum ≤ total := by
  obtain ⟨s, hs, hmem⟩ := exists_finset hd
  have hsub : s ⊆ Finset.range total := by
    intro i hi
    obtain ⟨a, ha, hia⟩ := hmem i hi
    have hlt := (mem_def.mp hia).2
    exact Finset.mem_range.mpr (Nat.lt_of_lt_of_le hlt (hb a ha))
  calc (l.map length).sum = s.card := hs.symm
    _ ≤ (Finset.range total).card := Finset.card_le_card hsub
    _ = total := Finset.card_range total

end Interval

/-- Every element of the interval of length `n` from `a` satisfies `p`. -/
def Run (p : Nat → Prop) (a n : Nat) : Prop := ∀ i, a ≤ i → i < a + n → p i

/-- The lowest run of length `n` that ends at or below `total`. -/
structure FirstRun (p : Nat → Prop) (total n a : Nat) : Prop where
  run : Run p a n
  le_total : a + n ≤ total
  least : ∀ b, b + n ≤ total → Run p b n → a ≤ b

/-- What a left to right scan for a run of length `n` knows at index `i` when
its counter is `c`: the last `c` elements satisfy `p`, the one before them
does not, and no run of length `n` ends at or before `i`. -/
structure Scanned (p : Nat → Prop) (n i c : Nat) : Prop where
  lt : c < n
  le : c ≤ i
  run : Run p (i - c) c
  stop : c < i → ¬ p (i - c - 1)
  none : ∀ b, b + n ≤ i → ¬ Run p b n

namespace Scanned

variable {p : Nat → Prop} {n i c : Nat}

theorem zero (hn : 0 < n) : Scanned p n 0 0 where
  lt := hn
  le := Nat.le_refl 0
  run := fun j h₁ h₂ => by omega
  stop := fun h => by omega
  none := fun b hb => by omega

theorem reset (h : Scanned p n i c) (hp : ¬ p i) : Scanned p n (i + 1) 0 where
  lt := Nat.lt_of_le_of_lt (Nat.zero_le c) h.lt
  le := Nat.zero_le _
  run := fun j h₁ h₂ => by omega
  stop := fun _ => by simpa using hp
  none := by
    intro b hb hr
    have hlt := h.lt
    by_cases hbi : b + n ≤ i
    · exact h.none b hbi hr
    · exact hp (hr i (by omega) (by omega))

theorem run_succ (h : Scanned p n i c) (hp : p i) : Run p (i - c) (c + 1) := by
  intro j h₁ h₂
  have hle := h.le
  by_cases hj : j = i
  · exact hj ▸ hp
  · exact h.run j h₁ (by omega)

theorem count (h : Scanned p n i c) (hp : p i) (hc : c + 1 < n) : Scanned p n (i + 1) (c + 1) where
  lt := hc
  le := Nat.succ_le_succ h.le
  run := by simpa using h.run_succ hp
  stop := fun hlt => by simpa using h.stop (by omega)
  none := by
    intro b hb hr
    by_cases hbi : b + n ≤ i
    · exact h.none b hbi hr
    · -- a run that ends at `i` is longer than the counter, so it holds the element before it
      have hstop := h.stop (by omega)
      exact hstop (hr (i - c - 1) (by omega) (by omega))

theorem found (h : Scanned p n i c) (hp : p i) (hc : c + 1 = n) {total : Nat} (hi : i < total) :
    FirstRun p total n (i + 1 - n) where
  run := by
    have hr := h.run_succ hp
    have hle := h.le
    rwa [show i + 1 - n = i - c by omega, ← hc]
  le_total := by have hle := h.le; omega
  least := by
    intro b _ hr
    by_contra hlt
    exact h.none b (by omega) hr

end Scanned

end Persistos.Theory
