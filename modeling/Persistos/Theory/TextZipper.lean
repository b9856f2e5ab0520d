import Mathlib.Data.List.Basic
import Mathlib.Logic.Function.Basic
import Mathlib.Data.Int.Order.Basic

/-! A text with a cursor as two lists, and the loops that make or close a gap in an array. -/

namespace Persistos.Theory

variable {α : Type}

/-- The text on the left of the cursor and on the right of it. -/
structure TextZipper (α : Type) where
  left : List α
  right : List α

namespace TextZipper

def text (z : TextZipper α) : List α := z.left ++ z.right

def insert (z : TextZipper α) (c : α) : TextZipper α := ⟨z.left ++ [c], z.right⟩

def erase (z : TextZipper α) : TextZipper α := ⟨z.left.dropLast, z.right⟩

def moveLeft (z : TextZipper α) : TextZipper α :=
  match z.left.getLast? with
  | none => z
  | some c => ⟨z.left.dropLast, c :: z.right⟩

def moveRight (z : TextZipper α) : TextZipper α :=
  match z.right with
  | [] => z
  | c :: r => ⟨z.left ++ [c], r⟩

theorem text_moveLeft (z : TextZipper α) : z.moveLeft.text = z.text := by
  rw [moveLeft]
  split
  · rfl
  · next c h =>
    obtain ⟨l, hl⟩ := List.getLast?_eq_some_iff.mp h
    simp [text, hl]

theorem text_moveRight (z : TextZipper α) : z.moveRight.text = z.text := by
  rw [moveRight]
  split
  · rfl
  · next c r h => simp [text, h]

theorem length_right_moveLeft (z : TextZipper α) :
    z.moveLeft.right.length = if z.left.length = 0 then z.right.length else z.right.length + 1 := by
  rw [moveLeft]
  split
  · next h => simp [List.getLast?_eq_none_iff.mp h]
  · next c h =>
    have hne : z.left ≠ [] := by
      rintro hnil
      simp [hnil] at h
    simp [hne]

theorem length_right_moveRight (z : TextZipper α) :
    z.moveRight.right.length = z.right.length - 1 := by
  rw [moveRight]
  split
  · next h => simp [h]
  · next c r h => simp [h]

end TextZipper

/-- The array begins with the items of the list. -/
def ArrayHolds (b : Int → α) (l : List α) : Prop := ∀ (i : Nat) (c : α), l[i]? = some c → b i = c

section

variable {b b' : Int → α} {l r : List α} {c : α}

/-- The items from the gap on are one place further on. -/
theorem ArrayHolds.insert (h : ArrayHolds b (l ++ r)) (hleft : ∀ i : Nat, i < l.length → b' i = b i)
    (hgap : b' l.length = c)
    (hright : ∀ i : Nat, l.length ≤ i → i < l.length + r.length → b' (i + 1) = b i) :
    ArrayHolds b' (l ++ c :: r) := by
  intro i d hd
  rcases Nat.lt_trichotomy i l.length with hi | rfl | hi
  · rw [List.getElem?_append_left hi] at hd
    rw [hleft i hi]
    exact h i d (by rwa [List.getElem?_append_left hi])
  · simp at hd
    rw [hgap, hd]
  · obtain ⟨j, rfl⟩ : ∃ j, i = j + 1 := ⟨i - 1, by omega⟩
    have hlt := (List.getElem?_eq_some_iff.mp hd).1
    rw [List.length_append, List.length_cons] at hlt
    rw [List.getElem?_append_right (by omega), Nat.succ_sub (by omega), List.getElem?_cons_succ] at hd
    rw [Int.natCast_add, Int.natCast_one, hright j (by omega) (by omega)]
    exact h j d (by rwa [List.getElem?_append_right (by omega)])

/-- The items behind the one that goes are one place nearer. -/
theorem ArrayHolds.erase (h : ArrayHolds b (l ++ c :: r))
    (hleft : ∀ i : Nat, i < l.length → b' i = b i)
    (hright : ∀ i : Nat, l.length ≤ i → i < l.length + r.length → b' i = b (i + 1)) :
    ArrayHolds b' (l ++ r) := by
  intro i d hd
  rcases Nat.lt_or_ge i l.length with hi | hi
  · rw [List.getElem?_append_left hi] at hd
    rw [hleft i hi]
    exact h i d (by rwa [List.getElem?_append_left hi])
  · have hlt := (List.getElem?_eq_some_iff.mp hd).1
    rw [List.length_append] at hlt
    rw [List.getElem?_append_right hi] at hd
    rw [hright i hi hlt]
    refine h (i + 1) d ?_
    rwa [List.getElem?_append_right (by omega), Nat.succ_sub hi, List.getElem?_cons_succ]

end

/-- The assignments `b[dest] = b[src]` in turn. -/
def moveItems (moves : List (Int × Int)) (b : Int → α) : Int → α :=
  moves.foldl (fun b move => Function.update b move.1 (b move.2)) b

/-- A loop from the top makes a gap. -/
theorem moveItems_up (b : Int → α) (n : Int) (k : Nat) (x : Int) :
    moveItems ((List.range k).map fun i : Nat => (n - i - 1, n - i - 2)) b x =
      if n - k ≤ x ∧ x < n then b (x - 1) else b x := by
  induction k generalizing x with
  | zero =>
    rw [if_neg (by omega)]
    rfl
  | succ k ih =>
    rw [moveItems] at ih ⊢
    rw [List.range_succ, List.map_append, List.foldl_append]
    simp only [List.map_cons, List.map_nil, List.foldl_cons, List.foldl_nil]
    by_cases hx : x = n - k - 1
    · have hsource : n - (k : Int) - 2 = x - 1 := by omega
      rw [hx, Function.update_self, ih, if_neg (by omega), if_pos (by omega), ← hx, hsource]
    · rw [Function.update_of_ne hx, ih]
      have hiff : (n - (k : Int) ≤ x ∧ x < n) ↔ (n - ((k + 1 : Nat) : Int) ≤ x ∧ x < n) := by omega
      simp only [hiff]

/-- A loop from the bottom closes a gap. -/
theorem moveItems_down (b : Int → α) (n : Int) (k : Nat) (x : Int) :
    moveItems ((List.range k).map fun i : Nat => (n + i, n + i + 1)) b x =
      if n ≤ x ∧ x < n + k then b (x + 1) else b x := by
  induction k generalizing x with
  | zero =>
    rw [if_neg (by omega)]
    rfl
  | succ k ih =>
    rw [moveItems] at ih ⊢
    rw [List.range_succ, List.map_append, List.foldl_append]
    simp only [List.map_cons, List.map_nil, List.foldl_cons, List.foldl_nil]
    by_cases hx : x = n + k
    · rw [hx, Function.update_self, ih, if_neg (by omega), if_pos (by omega)]
    · rw [Function.update_of_ne hx, ih]
      have hiff : (n ≤ x ∧ x < n + (k : Int)) ↔ (n ≤ x ∧ x < n + ((k + 1 : Nat) : Int)) := by omega
      simp only [hiff]

end Persistos.Theory
