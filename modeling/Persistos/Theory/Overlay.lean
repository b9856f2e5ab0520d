import Mathlib.Data.List.Nodup

/-! A stretch of an array replaced by other data. Arrays are functions of the
position, so that only the compared positions matter. -/

namespace Persistos.Theory

variable {β : Type}

/-- `m` with the positions from `o` to `o + n` taken from `d`. -/
def overlay (m : Nat → β) (o n : Nat) (d : Nat → β) : Nat → β :=
  fun i => if o ≤ i ∧ i < o + n then d (i - o) else m i

def slice (m : Nat → β) (o n : Nat) : List β := (List.range n).map fun i => m (o + i)

@[simp] theorem slice_length (m : Nat → β) (o n : Nat) : (slice m o n).length = n := by
  simp [slice]

theorem slice_getD (m : Nat → β) (o : Nat) {n i : Nat} (fallback : β) (h : i < n) :
    (slice m o n).getD i fallback = m (o + i) := by
  simp [slice, List.getD, h]

theorem slice_getD_self (l : List β) (fallback : β) : slice (l.getD · fallback) 0 l.length = l := by
  apply List.ext_getElem
  · simp
  · intro i _ hi
    simp [slice, List.getD, hi]

theorem slice_add (m : Nat → β) (o a b : Nat) :
    slice m o (a + b) = slice m o a ++ slice m (o + a) b := by
  rw [slice, List.range_add, List.map_append, List.map_map]
  simp [slice, Function.comp_def, Nat.add_assoc]

theorem slice_congr {m m' : Nat → β} {o o' n : Nat} (h : ∀ i < n, m (o + i) = m' (o' + i)) :
    slice m o n = slice m' o' n :=
  List.map_congr_left fun i hi => h i (List.mem_range.mp hi)

theorem slice_eq_replicate_iff {m : Nat → β} {o n : Nat} {zero : β} :
    slice m o n = List.replicate n zero ↔ ∀ i < n, m (o + i) = zero := by
  have hh := List.map_eq_replicate_iff (l := List.range n) (f := fun i => m (o + i)) (b := zero)
  rw [List.length_range] at hh
  simpa [slice] using hh

theorem slice_shift (m : Nat → β) (o n : Nat) : slice (fun i => m (o + i)) 0 n = slice m o n :=
  slice_congr fun i _ => by rw [Nat.zero_add]

theorem overlay_of_lt {m d : Nat → β} {o n i : Nat} (h : i < o) : overlay m o n d i = m i :=
  if_neg fun hh => Nat.not_lt.mpr hh.1 h

theorem overlay_of_ge {m d : Nat → β} {o n i : Nat} (h : o + n ≤ i) : overlay m o n d i = m i :=
  if_neg fun hh => Nat.not_lt.mpr h hh.2

theorem overlay_add {m d : Nat → β} {o n i : Nat} (h : i < n) : overlay m o n d (o + i) = d i := by
  rw [overlay, if_pos ⟨Nat.le_add_right o i, Nat.add_lt_add_left h o⟩, Nat.add_sub_cancel_left]

@[simp] theorem overlay_zero (m d : Nat → β) (o : Nat) : overlay m o 0 d = m := by
  funext i
  exact if_neg (by omega)

theorem overlay_congr {m d d' : Nat → β} {o n : Nat} (h : ∀ i < n, d i = d' i) :
    overlay m o n d = overlay m o n d' := by
  funext i
  simp only [overlay]
  by_cases hi : o ≤ i ∧ i < o + n
  · rw [if_pos hi, if_pos hi]
    exact h (i - o) (by omega)
  · rw [if_neg hi, if_neg hi]

/-- A replacement done in two parts. -/
theorem overlay_append (m d : Nat → β) (o a b : Nat) :
    overlay (overlay m o a d) (o + a) b (fun i => d (a + i)) = overlay m o (a + b) d := by
  funext i
  simp only [overlay]
  by_cases hlow : i < o + a
  · rw [if_neg (by omega)]
    by_cases ho : o ≤ i
    · rw [if_pos ⟨ho, hlow⟩, if_pos ⟨ho, by omega⟩]
    · rw [if_neg (by omega), if_neg (by omega)]
  · have harg : a + (i - (o + a)) = i - o := by omega
    have hout : ¬(o ≤ i ∧ i < o + a) := fun h => hlow h.2
    rw [if_neg hout, harg]
    by_cases hhigh : i < o + a + b
    · rw [if_pos (by omega), if_pos (by omega)]
    · rw [if_neg (by omega), if_neg (by omega)]

theorem slice_overlay_self (m d : Nat → β) (o n : Nat) :
    slice (overlay m o n d) o n = slice d 0 n := by
  apply slice_congr
  intro i hi
  rw [overlay_add hi, Nat.zero_add]

/-- An array of length `s` after a replacement that may lengthen it. -/
theorem slice_overlay (m d : Nat → β) (o n s : Nat) :
    slice (overlay m o n d) 0 (max s (o + n)) =
      slice m 0 o ++ slice d 0 n ++ slice m (o + n) (s - (o + n)) := by
  have hs : max s (o + n) = o + n + (s - (o + n)) := by omega
  rw [hs, slice_add, slice_add, Nat.zero_add, Nat.zero_add, slice_overlay_self]
  congr 1
  · congr 1
    apply slice_congr
    intro i hi
    exact overlay_of_lt (by omega)
  · apply slice_congr
    intro i _
    exact overlay_of_ge (by omega)

theorem slice_take (m : Nat → β) (o : Nat) {a n : Nat} (h : a ≤ n) :
    (slice m o n).take a = slice m o a := by
  obtain ⟨b, rfl⟩ := Nat.exists_eq_add_of_le h
  rw [slice_add, List.take_append_of_le_length (by simp), List.take_of_length_le (by simp)]

theorem slice_drop (m : Nat → β) (o a n : Nat) :
    (slice m o n).drop a = slice m (o + a) (n - a) := by
  by_cases h : a ≤ n
  · obtain ⟨b, rfl⟩ := Nat.exists_eq_add_of_le h
    rw [slice_add, List.drop_left' (by simp), Nat.add_sub_cancel_left]
  · have hz : n - a = 0 := by omega
    rw [List.drop_of_length_le (by rw [slice_length]; omega), hz]
    rfl

/-- The stretch from one position up to another. -/
def span (m : Nat → β) (i j : Nat) : List β := slice m i (j - i)

@[simp] theorem span_self (m : Nat → β) (i : Nat) : span m i i = [] := by
  rw [span, Nat.sub_self]
  rfl

theorem span_append (m : Nat → β) {i j k : Nat} (hi : i ≤ j) (hj : j ≤ k) :
    span m i k = span m i j ++ span m j k := by
  have hlength : k - i = (j - i) + (k - j) := by omega
  rw [span, hlength, slice_add, Nat.add_sub_cancel' hi]
  rfl

theorem span_one (m : Nat → β) (i : Nat) : span m i (i + 1) = [m i] := by
  rw [span, Nat.add_sub_cancel_left]
  rfl

theorem span_cons (m : Nat → β) {i k : Nat} (h : i < k) : span m i k = m i :: span m (i + 1) k := by
  rw [span_append m (Nat.le_succ i) h, span_one]
  rfl

theorem span_of_ge (m : Nat → β) {i k : Nat} (h : k ≤ i) : span m i k = [] := by
  rw [span, Nat.sub_eq_zero_of_le h]
  rfl

theorem span_eq_cons {m : Nat → β} {i k : Nat} {a : β} {l : List β} (h : span m i k = a :: l) :
    i < k ∧ m i = a ∧ span m (i + 1) k = l := by
  by_cases hlt : i < k
  · rw [span_cons m hlt] at h
    obtain ⟨ha, hl⟩ := List.cons.inj h
    exact ⟨hlt, ha, hl⟩
  · rw [span_of_ge m (Nat.le_of_not_lt hlt)] at h
    cases h

theorem mem_span {m : Nat → β} {i j : Nat} {a : β} :
    a ∈ span m i j ↔ ∃ k, i ≤ k ∧ k < j ∧ m k = a := by
  rw [span, slice, List.mem_map]
  constructor
  · rintro ⟨k, hk, rfl⟩
    have hlt := List.mem_range.mp hk
    exact ⟨i + k, Nat.le_add_right i k, by omega, rfl⟩
  · rintro ⟨k, hi, hj, rfl⟩
    refine ⟨k - i, List.mem_range.mpr (by omega), ?_⟩
    rw [Nat.add_sub_cancel' hi]

end Persistos.Theory
