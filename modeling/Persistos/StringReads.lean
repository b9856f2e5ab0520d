import Persistos.Cstd

/-! The comparison of names with every byte that it reads. A buffer is the bytes from the pointer
on that may be read, and a read behind them has no result. -/

namespace Persistos.StringReads

def strlen : List U8 → Option Nat
  | [] => none
  | c :: str => if c = 0 then some 0 else (strlen str).map (· + 1)

/-- The last argument is `n - i`. The result is narrowed to 8 bits. -/
def strncmp (buf1 buf2 : List U8) : Nat → Option U8
  | 0 => do
    let _ ← buf1.head?
    let _ ← buf2.head?
    some 0
  | n + 1 => do
    let c1 ← buf1.head?
    let c2 ← buf2.head?
    if c1 = c2 ∧ c1 ≠ 0 ∧ c2 ≠ 0 then strncmp buf1.tail buf2.tail n else some (c1 - c2)

def strklcmp (cstr klstr : List U8) (n : Nat) : Option U8 := do
  let m ← strlen cstr
  if m > n then do
    let x ← strncmp cstr klstr n
    some (orOne x)
  else if m < n then do
    let x ← strncmp cstr klstr m
    some (orOne x)
  else strncmp cstr klstr n

variable {w rest buf1 buf2 b : List U8} {n k : Nat} {x : U8}

theorem strlen_terminated (hw : 0 ∉ w) : strlen (w ++ 0 :: rest) = some w.length := by
  induction w with
  | nil => rfl
  | cons c w ih =>
    obtain ⟨hc, hw⟩ := not_or.mp (mt List.mem_cons.mpr hw)
    rw [List.cons_append, strlen, if_neg (Ne.symm hc), ih hw]
    rfl

/-- As far as the string and the buffer reach, a comparison reads no further. -/
theorem strncmp_reads (hw : 0 ∉ w) (hk : k ≤ w.length) (hb : k < b.length) :
    ∃ x, strncmp (w ++ [0]) b k = some x ∧ (x = 0 ↔ w.take k = b.take k) := by
  induction k generalizing w b with
  | zero =>
    obtain ⟨d, b, rfl⟩ := List.exists_cons_of_length_pos hb
    cases w with
    | nil => exact ⟨0, rfl, iff_of_true rfl rfl⟩
    | cons c w => exact ⟨0, rfl, iff_of_true rfl rfl⟩
  | succ k ih =>
    obtain ⟨c, w, rfl⟩ := List.exists_cons_of_length_pos (Nat.lt_of_lt_of_le k.succ_pos hk)
    obtain ⟨d, b, rfl⟩ := List.exists_cons_of_length_pos (Nat.lt_trans k.succ_pos hb)
    obtain ⟨hc, hw⟩ := not_or.mp (mt List.mem_cons.mpr hw)
    have hrun : strncmp (c :: w ++ [0]) (d :: b) (k + 1) =
        if c = d ∧ c ≠ 0 ∧ d ≠ 0 then strncmp (w ++ [0]) b k else some (c - d) := rfl
    rw [hrun, List.take_succ_cons, List.take_succ_cons, List.cons.injEq]
    by_cases hcd : c = d
    · subst hcd
      rw [if_pos ⟨rfl, Ne.symm hc, Ne.symm hc⟩, and_iff_right rfl]
      exact ih hw (Nat.le_of_succ_le_succ hk) (Nat.lt_of_succ_lt_succ hb)
    · rw [if_neg fun hh => hcd hh.1]
      exact ⟨c - d, rfl, fun hh => absurd hh (sub_ne_zero_of_ne hcd), fun hh => absurd hh.1 hcd⟩

/-- Where all reads have a result, it is that of the comparison of whole lists. -/
theorem strncmp_refines (h : strncmp buf1 buf2 n = some x) : Persistos.strncmp buf1 buf2 n = x := by
  induction n generalizing buf1 buf2 with
  | zero =>
    obtain ⟨c, -, h⟩ := Option.bind_eq_some_iff.mp h
    obtain ⟨d, -, h⟩ := Option.bind_eq_some_iff.mp h
    exact Option.some.inj h
  | succ n ih =>
    obtain ⟨c, hc, h⟩ := Option.bind_eq_some_iff.mp h
    obtain ⟨d, hd, h⟩ := Option.bind_eq_some_iff.mp h
    obtain ⟨buf1, rfl⟩ := List.head?_eq_some_iff.mp hc
    obtain ⟨buf2, rfl⟩ := List.head?_eq_some_iff.mp hd
    have hrun : Persistos.strncmp (c :: buf1) (d :: buf2) (n + 1) =
        if c = d ∧ c ≠ 0 ∧ d ≠ 0 then Persistos.strncmp buf1 buf2 n else c - d := rfl
    rw [hrun]
    split at h
    · next hsame =>
      rw [if_pos hsame]
      exact ih h
    · next hdiffers =>
      rw [if_neg hdiffers]
      exact Option.some.inj h

theorem strklcmp_refines (hw : 0 ∉ w) (h : strklcmp (w ++ [0]) b n = some x) :
    Persistos.strklcmp (w ++ [0]) b n = x := by
  have hlength : Persistos.strlen (w ++ [0]) = w.length := by
    rw [strlen_eq, cString_append hw, cString_zero, List.append_nil]
  rw [strklcmp, strlen_terminated hw] at h
  rw [Persistos.strklcmp, hlength]
  dsimp only [Option.bind_eq_bind, Option.bind_some] at h ⊢
  split at h
  · next hm =>
    obtain ⟨y, hy, h⟩ := Option.bind_eq_some_iff.mp h
    rw [if_pos hm, strncmp_refines hy]
    exact Option.some.inj h
  · next hm =>
    rw [if_neg hm]
    split at h
    · next hm' =>
      obtain ⟨y, hy, h⟩ := Option.bind_eq_some_iff.mp h
      rw [if_pos hm', strncmp_refines hy]
      exact Option.some.inj h
    · next hm' =>
      rw [if_neg hm', strncmp_refines h]

/-- A name matches `n` bytes just if it is these bytes, and nothing behind its end is read. -/
theorem strklcmp_exact (hw : 0 ∉ w) (hb : n < b.length) :
    ∃ x, strklcmp (w ++ [0]) b n = some x ∧ (x = 0 ↔ w.length = n ∧ w = b.take n) := by
  rw [strklcmp, strlen_terminated hw]
  dsimp only [Option.bind_eq_bind, Option.bind_some]
  split
  · next hm =>
    obtain ⟨x, hx, -⟩ := strncmp_reads hw (Nat.le_of_lt hm) hb
    rw [hx]
    exact ⟨_, rfl, fun hh => absurd hh (orOne_ne_zero x), fun hh => absurd hh.1 hm.ne'⟩
  · next hm =>
    split
    · next hm' =>
      obtain ⟨x, hx, -⟩ := strncmp_reads hw (Nat.le_refl _) (Nat.lt_trans hm' hb)
      rw [hx]
      exact ⟨_, rfl, fun hh => absurd hh (orOne_ne_zero x), fun hh => absurd hh.1 hm'.ne⟩
    · next hm' =>
      have hn : w.length = n := by omega
      obtain ⟨x, hx, hzero⟩ := strncmp_reads hw hn.ge hb
      refine ⟨x, hx, hzero.trans ?_⟩
      rw [List.take_of_length_le hn.le, and_iff_right hn]

/-- The name `ab` against the first two bytes of `abc`. -/
theorem strklcmp_exact_prefix : ∃ x, strklcmp ([0x61, 0x62] ++ [0]) [0x61, 0x62, 0x63] 2 = some x ∧
    x = 0 := by
  obtain ⟨x, hx, hzero⟩ := strklcmp_exact (w := [0x61, 0x62]) (b := [0x61, 0x62, 0x63]) (n := 2)
    (by decide) (by decide)
  exact ⟨x, hx, hzero.mpr ⟨rfl, rfl⟩⟩

end Persistos.StringReads
