import Persistos.UserCalls
import Mathlib.Data.Nat.Digits.Lemmas

/-! Decimal numerals as text, and the two functions of the C library that read and write them. -/

namespace Persistos

/-- A character from 0 to 9. -/
def DigitChar (c : U8) : Prop := 0x30 ≤ c ∧ c ≤ 0x39

instance : DecidablePred DigitChar := fun c => inferInstanceAs (Decidable (0x30 ≤ c ∧ c ≤ 0x39))

def Numeral (w : List U8) : Prop := w ≠ [] ∧ ∀ c ∈ w, DigitChar c

def digitValue (c : U8) : Nat := c.toNat - 0x30

/-- The number that the digits are, from the highest one on. -/
def decimalValue (w : List U8) : Nat := w.foldl (fun n c => 10 * n + digitValue c) 0

/-- No other numeral of the number has fewer digits. -/
structure ShortestNumeral (w : List U8) (x : Nat) : Prop where
  numeral : Numeral w
  value : decimalValue w = x
  shortest : ∀ v, Numeral v → decimalValue v = x → w.length ≤ v.length

variable {w str : List U8} {n x : Nat} {c : U8}

theorem DigitChar.value_lt (h : DigitChar c) : digitValue c < 10 := by
  have hle := h.2
  rw [BitVec.le_def] at hle
  change c.toNat ≤ 57 at hle
  rw [digitValue]
  omega

theorem decimalValue_concat (w : List U8) (c : U8) :
    decimalValue (w ++ [c]) = 10 * decimalValue w + digitValue c := by
  rw [decimalValue, List.foldl_append]
  rfl

theorem decimalValue_eq_ofDigits (w : List U8) :
    decimalValue w = Nat.ofDigits 10 (w.reverse.map digitValue) := by
  induction w using List.reverseRecOn with
  | nil => rfl
  | append_singleton w c ih =>
    rw [decimalValue_concat, ih, List.reverse_append, List.reverse_singleton, List.singleton_append,
      List.map_cons, Nat.ofDigits_cons]
    exact Nat.add_comm _ _

theorem Numeral.decimalValue_lt (h : Numeral w) : decimalValue w < 10 ^ w.length := by
  rw [decimalValue_eq_ofDigits]
  have hdigits : ∀ d ∈ w.reverse.map digitValue, d < 10 := by
    intro d hd
    obtain ⟨c, hc, rfl⟩ := List.mem_map.mp hd
    exact (h.2 c (List.mem_reverse.mp hc)).value_lt
  have hlt := Nat.ofDigits_lt_base_pow_length (by decide) hdigits
  rwa [List.length_map, List.length_reverse] at hlt

/-- The digits at the front, of which `parse_n_dec` takes at most `n`. -/
def leadingDigits (str : List U8) (n : Nat) : List U8 :=
  (str.take n).takeWhile fun c => decide (DigitChar c)

theorem leadingDigits_length_le (str : List U8) (n : Nat) : (leadingDigits str n).length ≤ n :=
  ((List.takeWhile_prefix _).length_le).trans (List.length_take_le n str)

theorem leadingDigits_numeral (h : Numeral w) (rest : List U8) (hn : w.length ≤ n) :
    leadingDigits (w ++ 0 :: rest) n = w := by
  have hall : ∀ c ∈ w, decide (DigitChar c) = true := fun c hc => decide_eq_true (h.2 c hc)
  rw [leadingDigits, List.take_append, List.take_of_length_le hn,
    List.takeWhile_append_of_pos hall]
  cases hk : n - w.length with
  | zero => rw [List.take_zero, List.takeWhile_nil, List.append_nil]
  | succ k => rw [List.take_succ_cons, List.takeWhile_cons_of_neg (by decide), List.append_nil]

theorem digit_setWidth (h : DigitChar c) (t : Nat) :
    BitVec.ofNat 64 t * 10 + (c - 0x30).setWidth 64 = BitVec.ofNat 64 (10 * t + digitValue c) := by
  have hle := h.1
  rw [BitVec.le_def] at hle
  change 48 ≤ c.toNat at hle
  have hsub : (c - 0x30).toNat = c.toNat - 0x30 := BitVec.toNat_sub_of_le h.1
  have hlt := c.isLt
  apply BitVec.eq_of_toNat_eq
  have hten : (10 : U64).toNat = 10 := rfl
  rw [BitVec.toNat_add, BitVec.toNat_mul, BitVec.toNat_setWidth, hsub, digitValue, hten]
  simp only [BitVec.toNat_ofNat]
  omega

theorem parseNDecFrom_eq (n : Nat) (str : List U8) (c t : Nat) :
    parseNDecFrom n str c (BitVec.ofNat 64 t) =
      (BitVec.ofNat 8 (c + (leadingDigits str n).length),
        BitVec.ofNat 64 ((leadingDigits str n).foldl (fun n c => 10 * n + digitValue c) t)) := by
  induction n generalizing str c t with
  | zero => rfl
  | succ n ih =>
    cases str with
    | nil => rfl
    | cons d str =>
      rw [parseNDecFrom, leadingDigits, List.take_succ_cons]
      by_cases hd : DigitChar d
      · rw [if_pos (show 0x30 ≤ charAt (d :: str) ∧ charAt (d :: str) ≤ 0x39 from hd),
          List.takeWhile_cons_of_pos (p := fun c => decide (DigitChar c)) (decide_eq_true hd),
          List.length_cons, List.foldl_cons]
        change parseNDecFrom n str (c + 1) (BitVec.ofNat 64 t * 10 + (d - 0x30).setWidth 64) = _
        rw [digit_setWidth hd, ih, leadingDigits, Nat.add_assoc, Nat.add_comm 1]
      · rw [if_neg (show ¬(0x30 ≤ charAt (d :: str) ∧ charAt (d :: str) ≤ 0x39) from hd),
          List.takeWhile_cons_of_neg (p := fun c => decide (DigitChar c))
            (ne_true_of_eq_false (decide_eq_false hd))]
        rfl

/-- The digits that are read, and their number modulo 2^64. -/
theorem parseNDec_eq (str : List U8) (n : Nat) :
    parseNDec str n = (BitVec.ofNat 8 (leadingDigits str n).length,
      BitVec.ofNat 64 (decimalValue (leadingDigits str n))) := by
  have hrun := parseNDecFrom_eq n str 0 0
  rw [Nat.zero_add] at hrun
  exact hrun

/-- The digits of the number, and 0 for zero. -/
def decimalText (x : Nat) : List U8 :=
  if x = 0 then [0x30] else (Nat.digits 10 x).reverse.map fun d => BitVec.ofNat 8 (0x30 + d)

theorem digitChar_ofNat {d : Nat} (h : d < 10) :
    DigitChar (BitVec.ofNat 8 (0x30 + d)) ∧ digitValue (BitVec.ofNat 8 (0x30 + d)) = d := by
  have hnat : (BitVec.ofNat 8 (0x30 + d)).toNat = 0x30 + d := by
    rw [BitVec.toNat_ofNat]
    omega
  have hlow : (0x30 : U8).toNat = 0x30 := rfl
  have hhigh : (0x39 : U8).toNat = 0x39 := rfl
  refine ⟨⟨?_, ?_⟩, ?_⟩
  · rw [BitVec.le_def, hnat, hlow]
    omega
  · rw [BitVec.le_def, hnat, hhigh]
    omega
  · rw [digitValue, hnat]
    omega

theorem decimalText_length (hx : x ≠ 0) : (decimalText x).length = (Nat.digits 10 x).length := by
  rw [decimalText, if_neg hx, List.length_map, List.length_reverse]

theorem decimalText_numeral (x : Nat) : Numeral (decimalText x) := by
  by_cases hx : x = 0
  · rw [decimalText, if_pos hx]
    exact ⟨List.cons_ne_nil _ _, by decide⟩
  · constructor
    · rw [← List.length_pos_iff, decimalText_length hx, List.length_pos_iff]
      exact Nat.digits_ne_nil_iff_ne_zero.mpr hx
    · intro c hc
      rw [decimalText, if_neg hx] at hc
      obtain ⟨d, hd, rfl⟩ := List.mem_map.mp hc
      exact (digitChar_ofNat (Nat.digits_lt_base (by decide) (List.mem_reverse.mp hd))).1

theorem decimalValue_decimalText (x : Nat) : decimalValue (decimalText x) = x := by
  by_cases hx : x = 0
  · rw [decimalText, if_pos hx, hx]
    rfl
  · have hdigits : (Nat.digits 10 x).map
        (digitValue ∘ fun d => BitVec.ofNat 8 (0x30 + d)) = Nat.digits 10 x := by
      refine (List.map_congr_left fun d hd => ?_).trans (List.map_id _)
      exact (digitChar_ofNat (Nat.digits_lt_base (by decide) hd)).2
    rw [decimalValue_eq_ofDigits, decimalText, if_neg hx, ← List.map_reverse, List.reverse_reverse,
      List.map_map, hdigits, Nat.ofDigits_digits]

theorem decimalText_shortest (x : Nat) : ShortestNumeral (decimalText x) x := by
  refine ⟨decimalText_numeral x, decimalValue_decimalText x, fun v hv hx => ?_⟩
  by_cases hzero : x = 0
  · rw [decimalText, if_pos hzero]
    exact List.length_pos_iff.mpr hv.1
  · rw [decimalText_length hzero, Nat.digits_length_le_iff (by decide), ← hx]
    exact hv.decimalValue_lt

theorem decimalText_of_lt (hx : x ≠ 0) (hlt : x < 10) :
    decimalText x = [BitVec.ofNat 8 (0x30 + x)] := by
  rw [decimalText, if_neg hx, Nat.digits_of_lt 10 x hx hlt]
  rfl

theorem decimalText_step (hx : x / 10 ≠ 0) :
    decimalText x = decimalText (x / 10) ++ [BitVec.ofNat 8 (0x30 + x % 10)] := by
  have hpos : 0 < x := by omega
  rw [decimalText, decimalText, if_neg hx, if_neg hpos.ne', Nat.digits_def' (by decide) hpos,
    List.reverse_cons, List.map_append, List.map_singleton]

theorem sprintfDecDigits_zero (n : Nat) (buffer : List U8) (first : Nat) :
    sprintfDecDigits n 0 buffer first = (List.replicate n 0x30 ++ buffer, first) := by
  induction n generalizing buffer with
  | zero => rfl
  | succ n ih =>
    change sprintfDecDigits n 0 (0x30 :: buffer) first = _
    rw [ih, List.replicate_succ', List.append_assoc]
    rfl

theorem lastDigit_toNat (data : U32) : ((data % 10).setWidth 8).toNat = data.toNat % 10 := by
  have hten : (10 : U32).toNat = 10 := rfl
  rw [BitVec.toNat_setWidth, BitVec.toNat_umod, hten]
  omega

theorem lastDigit_char (data : U32) :
    0x30 + (data % 10).setWidth 8 = BitVec.ofNat 8 (0x30 + data.toNat % 10) := by
  have hlow : (0x30 : U8).toNat = 0x30 := rfl
  apply BitVec.eq_of_toNat_eq
  rw [BitVec.toNat_add, lastDigit_toNat, hlow, BitVec.toNat_ofNat]

/-- The digits stand at the end of the buffer, behind zeros, and the first one at the index. -/
theorem sprintfDecDigits_eq {n : Nat} {data : U32} (hdata : data.toNat ≠ 0)
    (hn : data.toNat < 10 ^ n) (buffer : List U8) (first : Nat) :
    (decimalText data.toNat).length ≤ n ∧ sprintfDecDigits n data buffer first =
      (List.replicate (n - (decimalText data.toNat).length) 0x30 ++ decimalText data.toNat ++ buffer,
        n - (decimalText data.toNat).length) := by
  induction n generalizing data buffer first with
  | zero =>
    rw [Nat.pow_zero] at hn
    omega
  | succ n ih =>
    have hdiv : (data / 10).toNat = data.toNat / 10 := BitVec.toNat_udiv
    rw [sprintfDecDigits, lastDigit_char]
    by_cases hq : data.toNat / 10 = 0
    · have hlt : data.toNat < 10 := by omega
      have hnext : data / 10 = 0 := BitVec.eq_of_toNat_eq (hdiv.trans hq)
      have hdigit : (data % 10).setWidth 8 ≠ (0 : U8) := by
        intro hh
        have hh := congrArg BitVec.toNat hh
        rw [lastDigit_toNat, Nat.mod_eq_of_lt hlt] at hh
        exact hdata hh
      rw [hnext, sprintfDecDigits_zero, if_pos hdigit, Nat.mod_eq_of_lt hlt,
        decimalText_of_lt hdata hlt, List.length_singleton, Nat.add_sub_cancel, List.append_assoc]
      exact ⟨Nat.le_add_left 1 n, rfl⟩
    · obtain ⟨hle, hrun⟩ := @ih (data / 10) (by rwa [hdiv]) (by rw [hdiv]; omega)
        (BitVec.ofNat 8 (0x30 + data.toNat % 10) :: buffer)
        (if (data % 10).setWidth 8 ≠ (0 : U8) then n else first)
      rw [hrun, hdiv, decimalText_step hq, List.length_append, List.length_singleton,
        Nat.add_sub_add_right, List.append_assoc, List.append_assoc, List.append_assoc]
      rw [hdiv] at hle
      exact ⟨Nat.succ_le_succ hle, rfl⟩

/-- The ten digits of a number, and the index of the first one that counts. -/
theorem sprintfDecDigits_ten (x : U32) :
    (decimalText x.toNat).length ≤ 10 ∧ sprintfDecDigits 10 x [] 9 =
      (List.replicate (10 - (decimalText x.toNat).length) 0x30 ++ decimalText x.toNat,
        10 - (decimalText x.toNat).length) := by
  by_cases hx : x.toNat = 0
  · obtain rfl : x = 0 := BitVec.eq_of_toNat_eq hx
    exact ⟨by decide, rfl⟩
  · have hlt : x.toNat < 10 ^ 10 := Nat.lt_trans x.isLt (by decide)
    have hdigits := sprintfDecDigits_eq hx hlt [] 9
    rw [List.append_nil] at hdigits
    exact hdigits

theorem sprintfDec_plain (x : U32) : sprintfDec x 0 0 =
    decimalText x.toNat ++ List.replicate (11 - (decimalText x.toNat).length) 0 := by
  obtain ⟨hle, hdigits⟩ := sprintfDecDigits_ten x
  have hdrop : ∀ w : List U8, w.length ≤ 10 →
      (List.replicate (10 - w.length) 0x30 ++ w).drop (10 - (10 - (10 - w.length))) = w := by
    intro w hw
    have hindex : 10 - (10 - (10 - w.length)) = (List.replicate (10 - w.length) (0x30 : U8)).length := by
      rw [List.length_replicate]
      omega
    rw [hindex, List.drop_left]
  have hzero : (0 : U8).toNat = 0 := rfl
  rw [sprintfDec, hdigits]
  dsimp only
  rw [if_neg (not_not.mpr rfl), if_pos hzero, hdrop _ hle]

theorem sprintfDec_padded {x : U32} {pad k : U8} (hpad : pad ≠ 0) (hk : k.toNat ≤ 10)
    (hlength : (decimalText x.toNat).length ≤ k.toNat) : sprintfDec x pad k =
      List.replicate (k.toNat - (decimalText x.toNat).length) pad ++ decimalText x.toNat ++
        List.replicate (11 - k.toNat) 0 := by
  obtain ⟨hle, hdigits⟩ := sprintfDecDigits_ten x
  rw [sprintfDec, hdigits]
  dsimp only
  rw [if_pos hpad]
  generalize decimalText x.toNat = w at hle hlength ⊢
  have hbuffer : (List.replicate (10 - w.length) (0x30 : U8) ++ w).drop (10 - w.length) = w :=
    List.drop_left' List.length_replicate
  have htext : ((List.replicate (10 - w.length) pad ++ w).drop (10 - k.toNat)).take k.toNat =
      List.replicate (k.toNat - w.length) pad ++ w := by
    have hdrop : 10 - w.length - (10 - k.toNat) = k.toNat - w.length := by omega
    rw [List.drop_append_of_le_length (by rw [List.length_replicate]; omega), List.drop_replicate,
      hdrop, List.take_of_length_le]
    rw [List.length_append, List.length_replicate]
    omega
  rw [hbuffer, htext]
  have hall : (List.replicate (k.toNat - w.length) pad ++ w).length = k.toNat := by
    rw [List.length_append, List.length_replicate]
    omega
  rw [hall]

/-- Writing a number and reading it back: the numeral is the shortest one, ends within the buffer,
and is at the right end of its columns where the number is padded. -/
theorem sprintfDec_parseNDec (x : U32) : ∃ w, ShortestNumeral w x.toNat ∧ w.length ≤ 10 ∧
    sprintfDec x 0 0 = w ++ List.replicate (11 - w.length) 0 ∧
    (∀ n, w.length ≤ n →
      parseNDec (sprintfDec x 0 0) n = (BitVec.ofNat 8 w.length, x.setWidth 64)) ∧
    ∀ pad k : U8, pad ≠ 0 → 1 ≤ k.toNat → k.toNat ≤ 10 → w.length ≤ k.toNat →
      sprintfDec x pad k =
        List.replicate (k.toNat - w.length) pad ++ w ++ List.replicate (11 - k.toNat) 0 := by
  have hle := (sprintfDecDigits_ten x).1
  refine ⟨decimalText x.toNat, decimalText_shortest x.toNat, hle, sprintfDec_plain x, fun n hn => ?_,
    fun pad k hpad _ hk hlength => sprintfDec_padded hpad hk hlength⟩
  obtain ⟨m, hm⟩ := Nat.exists_eq_add_of_lt (Nat.lt_succ_of_le hle)
  have hzeros : List.replicate (11 - (decimalText x.toNat).length) (0 : U8) =
      0 :: List.replicate m 0 := by
    rw [← List.replicate_succ]
    congr
    omega
  rw [parseNDec_eq, sprintfDec_plain, hzeros, leadingDigits_numeral (decimalText_numeral _) _ hn,
    decimalValue_decimalText, BitVec.ofNat_toNat]

end Persistos
