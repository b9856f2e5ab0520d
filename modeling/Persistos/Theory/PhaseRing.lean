import Mathlib.Data.List.Basic
import Mathlib.Data.Bool.Basic
import Mathlib.Data.Nat.Find
import Mathlib.Logic.Function.Basic

/-! A ring of slots without a count of its items. The writer changes a phase each
time around, and the reader knows a new item by a phase that is not the old one. -/

namespace Persistos.Theory

variable {α : Type} {size n r : Nat} {phase : α → Bool} {slots : Nat → α} {posted : List α}

/-- The phase of the item number `n`. -/
def ringPhase (size n : Nat) : Bool := n / size % 2 = 0

/-- The slots after the items `posted` went into a ring whose phases were all false. -/
structure Posted (phase : α → Bool) (size : Nat) (slots : Nat → α) (posted : List α) : Prop where
  item : ∀ k e, posted[k]? = some e → posted.length ≤ k + size → slots (k % size) = e
  tagged : ∀ k e, posted[k]? = some e → phase e = ringPhase size k
  fresh : ∀ i, posted.length ≤ i → i < size → phase (slots i) = false

/-- The place and the old phase of a reader that has taken `r` items. -/
structure ReadsAt (size r head : Nat) (old : Bool) : Prop where
  head : head = r % size
  old : old = !ringPhase size r

theorem ringPhase_add_size (hs : 0 < size) (n : Nat) :
    ringPhase size (n + size) = !ringPhase size n := by
  have hdiv : (n + size) / size = n / size + 1 := Nat.add_div_right n hs
  by_cases h : n / size % 2 = 0
  · have hn : (n / size + 1) % 2 ≠ 0 := by omega
    simp [ringPhase, hdiv, h, hn]
  · have hn : (n / size + 1) % 2 = 0 := by omega
    simp [ringPhase, hdiv, h, hn]

theorem Posted.nil (h : ∀ i < size, phase (slots i) = false) : Posted phase size slots [] := by
  constructor
  · simp
  · simp
  · exact fun i _ hi => h i hi

theorem Posted.post (h : Posted phase size slots posted) {e : α}
    (he : phase e = ringPhase size posted.length) :
    Posted phase size (Function.update slots (posted.length % size) e) (posted ++ [e]) := by
  constructor
  · intro k x hk hle
    simp only [List.length_append, List.length_singleton] at hle
    by_cases hlast : k = posted.length
    · subst hlast
      have hx : e = x := by simpa using hk
      simp [hx]
    · have hlt : k < posted.length := by
        have hh := (List.getElem?_eq_some_iff.mp hk).1
        simp only [List.length_append, List.length_singleton] at hh
        omega
      have hne : k % size ≠ posted.length % size := by
        intro hmod
        have hd := Nat.sub_mod_eq_zero_of_mod_eq hmod.symm
        rw [Nat.mod_eq_of_lt (by omega)] at hd
        omega
      rw [Function.update_of_ne hne]
      exact h.item k x (by rwa [List.getElem?_append_left hlt] at hk) (by omega)
  · intro k x hk
    by_cases hlast : k = posted.length
    · subst hlast
      have hx : e = x := by simpa using hk
      rwa [← hx]
    · have hlt : k < posted.length := by
        have hh := (List.getElem?_eq_some_iff.mp hk).1
        simp only [List.length_append, List.length_singleton] at hh
        omega
      exact h.tagged k x (by rwa [List.getElem?_append_left hlt] at hk)
  · intro i hle hi
    simp only [List.length_append, List.length_singleton] at hle
    have hmod : posted.length % size = posted.length := Nat.mod_eq_of_lt (by omega)
    rw [Function.update_of_ne (by omega)]
    exact h.fresh i (by omega) hi

theorem Posted.read (h : Posted phase size slots posted) (hr : r < posted.length)
    (hle : posted.length ≤ r + size) : slots (r % size) = posted[r] :=
  h.item r _ (List.getElem?_eq_getElem hr) hle

/-- A reader sees the old phase in its slot exactly when it has taken every item. -/
theorem Posted.caught_up_iff (h : Posted phase size slots posted) (hs : 0 < size)
    (hr : r ≤ posted.length) (hle : posted.length ≤ r + size) :
    phase (slots (r % size)) = !ringPhase size r ↔ r = posted.length := by
  constructor
  · intro hold
    by_contra hne
    have hlt : r < posted.length := by omega
    have ht := h.tagged r _ (List.getElem?_eq_getElem hlt)
    rw [h.read hlt hle, ht] at hold
    simp at hold
  · intro heq
    by_cases hsize : r < size
    · have hz : r / size = 0 := Nat.div_eq_of_lt hsize
      rw [Nat.mod_eq_of_lt hsize, h.fresh r (by omega) hsize]
      simp [ringPhase, hz]
    · obtain ⟨k, rfl⟩ : ∃ k, r = k + size := ⟨r - size, by omega⟩
      have hk : k < posted.length := by omega
      have ht := h.tagged k _ (List.getElem?_eq_getElem hk)
      rw [Nat.add_mod_right, h.read hk (by omega), ht, ringPhase_add_size hs, Bool.not_not]

theorem ReadsAt.zero : ReadsAt size 0 0 false := by
  constructor
  · simp
  · simp [ringPhase]

theorem ReadsAt.head_lt {head : Nat} {old : Bool} (h : ReadsAt size r head old) (hs : 0 < size) :
    head < size := by
  rw [h.head]
  exact Nat.mod_lt r hs

theorem ReadsAt.advance {head : Nat} {old : Bool} (h : ReadsAt size r head old) (hs : 0 < size) :
    ReadsAt size (r + 1) (if head + 1 = size then 0 else head + 1)
      (if head + 1 = size then !old else old) := by
  have hdm := Nat.div_add_mod r size
  have hlt := h.head_lt hs
  rw [← h.head] at hdm
  by_cases hw : head + 1 = size
  · have hr : r + 1 = size * (r / size + 1) := by rw [Nat.mul_add]; omega
    have hdiv : (r + 1) / size = r / size + 1 := by rw [hr, Nat.mul_div_cancel_left _ hs]
    have hmod : (r + 1) % size = 0 := by rw [hr, Nat.mul_mod_right]
    constructor
    · simp [hw, hmod]
    · by_cases hp : r / size % 2 = 0
      · have hn : (r / size + 1) % 2 ≠ 0 := by omega
        simp [hw, h.old, ringPhase, hdiv, hp, hn]
      · have hn : (r / size + 1) % 2 = 0 := by omega
        simp [hw, h.old, ringPhase, hdiv, hp, hn]
  · have hr : r + 1 = size * (r / size) + (head + 1) := by omega
    have hdiv : (r + 1) / size = r / size := by
      rw [hr, Nat.mul_add_div hs, Nat.div_eq_of_lt (show head + 1 < size by omega), Nat.add_zero]
    have hmod : (r + 1) % size = head + 1 := by
      rw [hr, Nat.mul_add_mod, Nat.mod_eq_of_lt (by omega)]
    constructor
    · simp [hw, hmod]
    · simp [hw, h.old, ringPhase, hdiv]

/-- Whatever the slots hold, a reader comes to an old phase when it has been around once. -/
theorem exists_old (phase : α → Bool) (slots : Nat → α) (hs : 0 < size) (r : Nat) :
    ∃ n ≤ size, phase (slots ((r + n) % size)) ≠ ringPhase size (r + n) ∧
      ∀ k < n, phase (slots ((r + k) % size)) = ringPhase size (r + k) := by
  have hex : ∃ n, phase (slots ((r + n) % size)) ≠ ringPhase size (r + n) := by
    by_cases hold : phase (slots (r % size)) = ringPhase size r
    · refine ⟨size, ?_⟩
      rw [Nat.add_mod_right, hold, ringPhase_add_size hs]
      exact (Bool.not_ne_self _).symm
    · exact ⟨0, hold⟩
  have hnew : ∀ k < Nat.find hex, phase (slots ((r + k) % size)) = ringPhase size (r + k) :=
    fun k hk => not_not.mp (Nat.find_min hex hk)
  refine ⟨Nat.find hex, ?_, Nat.find_spec hex, hnew⟩
  by_contra hlt
  have hfirst := hnew 0 (by omega)
  have hsecond := hnew size (by omega)
  rw [Nat.add_zero] at hfirst
  rw [Nat.add_mod_right, hfirst, ringPhase_add_size hs] at hsecond
  exact Bool.not_ne_self _ hsecond.symm

/-- Any place and phase are those of some reader. -/
theorem exists_readsAt {head : Nat} (hhead : head < size) (old : Bool) :
    ∃ r, ReadsAt size r head old := by
  have hphase : ringPhase size head = true := by simp [ringPhase, Nat.div_eq_of_lt hhead]
  cases old with
  | false =>
    refine ⟨head, (Nat.mod_eq_of_lt hhead).symm, ?_⟩
    rw [hphase]
    rfl
  | true =>
    refine ⟨head + size, ?_, ?_⟩
    · rw [Nat.add_mod_right, Nat.mod_eq_of_lt hhead]
    · rw [ringPhase_add_size (by omega), hphase]
      rfl

/-- The phase that a reader looks for changes when it wraps around. -/
theorem ReadsAt.phase_add {head k : Nat} {old : Bool} (h : ReadsAt size r head old)
    (hs : 0 < size) (hk : k ≤ size) :
    (!ringPhase size (r + k)) = if head + k < size then old else !old := by
  have hdm := Nat.div_add_mod r size
  have hlt := h.head_lt hs
  rw [← h.head] at hdm
  have hsum : r + k = size * (r / size) + (head + k) := by omega
  split
  · next hin =>
    have hdiv : (r + k) / size = r / size := by
      rw [hsum, Nat.mul_add_div hs, Nat.div_eq_of_lt hin, Nat.add_zero]
    rw [h.old, ringPhase, ringPhase, hdiv]
  · next hout =>
    have hdiv : (r + k) / size = (r + size) / size := by
      have hrest : (head + k) / size = 1 := Nat.div_eq_of_lt_le (by omega) (by omega)
      rw [hsum, Nat.mul_add_div hs, hrest, Nat.add_div_right r hs]
    have hphase : ringPhase size (r + k) = ringPhase size (r + size) := by
      rw [ringPhase, ringPhase, hdiv]
    rw [hphase, ringPhase_add_size hs, h.old]

end Persistos.Theory
