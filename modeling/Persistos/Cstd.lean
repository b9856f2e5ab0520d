import Persistos.Word
import Mathlib.Data.List.TakeWhile

/-! The string functions of the kernel's C library. A pointer to characters is
the list of those from it on, and a zero byte follows the last one. -/

namespace Persistos

/-- `*buf` -/
def charAt (buf : List U8) : U8 := buf.headD 0

/-- The characters before the first zero byte. -/
def cString (buf : List U8) : List U8 := buf.takeWhile (· ≠ 0)

def strlen : List U8 → Nat
  | [] => 0
  | c :: rest => if c = 0 then 0 else strlen rest + 1

/-- The result is compared with zero only, so that its sign plays no part. -/
def strncmp (buf1 buf2 : List U8) : Nat → U8
  | 0 => 0
  | n + 1 =>
    if charAt buf1 = charAt buf2 ∧ charAt buf1 ≠ 0 ∧ charAt buf2 ≠ 0 then
      strncmp buf1.tail buf2.tail n
    else charAt buf1 - charAt buf2

/-- `x ? x : 1` -/
def orOne (x : U8) : U8 := if x ≠ 0 then x else 1

def strklcmp (cstr klstr : List U8) (n : Nat) : U8 :=
  let m := strlen cstr
  if m > n then orOne (strncmp cstr klstr n)
  else if m < n then orOne (strncmp cstr klstr m)
  else strncmp cstr klstr n

theorem cString_zero (rest : List U8) : cString (0 :: rest) = [] := rfl

theorem cString_cons {c : U8} (h : c ≠ 0) (rest : List U8) :
    cString (c :: rest) = c :: cString rest :=
  List.takeWhile_cons_of_pos (decide_eq_true h)

theorem ne_zero_of_mem_cString {buf : List U8} {c : U8} (h : c ∈ cString buf) : c ≠ 0 :=
  of_decide_eq_true (List.mem_takeWhile_imp (p := fun c : U8 => decide (c ≠ 0)) h)

theorem charAt_eq_zero_iff {buf : List U8} : charAt buf = 0 ↔ cString buf = [] := by
  cases buf with
  | nil => simp [charAt, cString]
  | cons c rest =>
    by_cases h : c = 0
    · simp [h, charAt, cString]
    · rw [cString_cons h]
      simpa [charAt] using h

theorem cString_append {w rest : List U8} (h : 0 ∉ w) :
    cString (w ++ rest) = w ++ cString rest := by
  apply List.takeWhile_append_of_pos
  intro c hc
  exact decide_eq_true (ne_of_mem_of_not_mem hc h)

/-- A string without zero bytes is all of itself. -/
theorem cString_of_notMem {w : List U8} (h : 0 ∉ w) : cString w = w := by
  have happ : cString (w ++ []) = w ++ cString [] := cString_append h
  rw [List.append_nil] at happ
  exact happ.trans (List.append_nil w)

@[simp] theorem cString_cString (buf : List U8) : cString (cString buf) = cString buf :=
  cString_of_notMem fun h => ne_zero_of_mem_cString h rfl

theorem cString_dropWhile {sep : U8} (h : sep ≠ 0) (buf : List U8) :
    cString (buf.dropWhile (· = sep)) = (cString buf).dropWhile (· = sep) := by
  induction buf with
  | nil => rfl
  | cons c rest ih =>
    by_cases hc : c = sep
    · subst hc
      rw [cString_cons h, List.dropWhile_cons_of_pos (by simp), ih,
        List.dropWhile_cons_of_pos (by simp)]
    · rw [List.dropWhile_cons_of_neg (by simpa using hc)]
      by_cases hz : c = 0
      · subst hz
        rfl
      · rw [cString_cons hz, List.dropWhile_cons_of_neg (by simpa using hc)]

theorem strlen_eq (buf : List U8) : strlen buf = (cString buf).length := by
  induction buf with
  | nil => rfl
  | cons c rest ih =>
    by_cases h : c = 0
    · rw [h, cString_zero]
      rfl
    · rw [strlen, if_neg h, ih, cString_cons h, List.length_cons]

theorem orOne_ne_zero (x : U8) : orOne x ≠ 0 := by
  rw [orOne]
  split
  · next h => exact h
  · decide

theorem sub_ne_zero_of_ne {c d : U8} (h : c ≠ d) : c - d ≠ 0 := by
  intro hh
  apply h
  rw [BitVec.sub_eq_iff_eq_add.mp hh]
  exact BitVec.zero_add d

theorem exists_cons_of_length_cString {buf : List U8} {n : Nat}
    (h : n + 1 ≤ (cString buf).length) :
    ∃ c rest, buf = c :: rest ∧ c ≠ 0 ∧ n ≤ (cString rest).length := by
  cases buf with
  | nil => simp [cString] at h
  | cons c rest =>
    by_cases hc : c = 0
    · rw [hc, cString_zero] at h
      simp at h
    · rw [cString_cons hc, List.length_cons] at h
      exact ⟨c, rest, rfl, hc, by omega⟩

theorem strncmp_eq_zero_iff {buf1 buf2 : List U8} {n : Nat} (h1 : n ≤ (cString buf1).length)
    (h2 : n ≤ (cString buf2).length) :
    strncmp buf1 buf2 n = 0 ↔ (cString buf1).take n = (cString buf2).take n := by
  induction n generalizing buf1 buf2 with
  | zero => simp [strncmp]
  | succ n ih =>
    obtain ⟨c, rest1, rfl, hc, hn1⟩ := exists_cons_of_length_cString h1
    obtain ⟨d, rest2, rfl, hd, hn2⟩ := exists_cons_of_length_cString h2
    rw [cString_cons hc, cString_cons hd, List.take_succ_cons, List.take_succ_cons, strncmp]
    by_cases hcd : c = d
    · subst hcd
      rw [if_pos ⟨rfl, hc, hc⟩]
      simpa using ih hn1 hn2
    · rw [if_neg (fun hh => hcd hh.1)]
      exact ⟨fun hh => absurd hh (sub_ne_zero_of_ne hcd), fun hh => absurd (List.cons.inj hh).1 hcd⟩

/-- The comparison of a string with `n` characters, none of which is zero. -/
theorem strklcmp_eq_zero_iff {cstr klstr : List U8} {n : Nat} (h : n ≤ (cString klstr).length) :
    strklcmp cstr klstr n = 0 ↔ cString cstr = (cString klstr).take n := by
  have hlen : ((cString klstr).take n).length = n := List.length_take_of_le h
  have hne : (cString cstr).length ≠ n → cString cstr ≠ (cString klstr).take n :=
    fun hm hh => hm (hh ▸ hlen)
  rw [strklcmp, strlen_eq]
  split
  · next hm => exact ⟨fun hh => absurd hh (orOne_ne_zero _), fun hh => absurd hh (hne (by omega))⟩
  · split
    · next hm =>
      exact ⟨fun hh => absurd hh (orOne_ne_zero _), fun hh => absurd hh (hne (by omega))⟩
    · next h1 h2 =>
      have hm : (cString cstr).length = n := by omega
      rw [strncmp_eq_zero_iff hm.ge h, List.take_of_length_le hm.le]

end Persistos
