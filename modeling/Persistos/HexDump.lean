import Persistos.ShellParser
import Persistos.Sprintf

/-! A file as a hexadecimal dump: a line for every 16 bytes, with the offset of the first one, and
a last line with the length. The bytes can be read back from the lines. -/

namespace Persistos

def hexDigitOf (c : U8) : Nat := if c < 0x3A then c.toNat - 0x30 else c.toNat - 0x37

/-- The number that the digits are, from the highest one on. -/
def hexValue (digits : List U8) : Nat := digits.foldl (fun n c => 16 * n + hexDigitOf c) 0

theorem hexDigitOf_hexCharacter : ∀ d : U8, d < 16 →
    hexDigitOf (hexCharacter d) = d.toNat ∧ 0x30 ≤ hexCharacter d := by decide +kernel

theorem sprintfHex_append {w : Nat} (n : Nat) (value : BitVec w) (buffer : List U8) :
    sprintfHex n value buffer = sprintfHex n value [] ++ buffer := by
  induction n generalizing value buffer with
  | zero => rfl
  | succ n ih =>
    rw [sprintfHex, sprintfHex, ih, ih _ [_], List.append_assoc]
    rfl

theorem sprintfHex_succ {w : Nat} (n : Nat) (value : BitVec w) : sprintfHex (n + 1) value [] =
    sprintfHex n (value >>> 4) [] ++ [hexCharacter ((value &&& 0x0f).setWidth 8)] :=
  sprintfHex_append n (value >>> 4) [_]

section

variable {w : Nat} (hw : 8 ≤ w)

include hw

theorem lowDigit_toNat (value : BitVec w) :
    ((value &&& 0x0f).setWidth 8).toNat = value.toNat % 16 := by
  have hmask : (15 : BitVec w).toNat = 2 ^ 4 - 1 := by
    have hlt : 15 < 2 ^ w := Nat.lt_of_lt_of_le (by decide) (Nat.pow_le_pow_right (by decide) hw)
    exact Nat.mod_eq_of_lt hlt
  rw [BitVec.toNat_setWidth, BitVec.toNat_and, hmask, Nat.and_two_pow_sub_one_eq_mod]
  omega

theorem lowDigit_lt (value : BitVec w) : (value &&& 0x0f).setWidth 8 < 16 := by
  rw [BitVec.lt_def, lowDigit_toNat hw]
  exact Nat.mod_lt _ (by decide)

/-- The digits say the number. -/
theorem hexValue_sprintfHex (n : Nat) (value : BitVec w) :
    hexValue (sprintfHex n value []) = value.toNat % 16 ^ n := by
  induction n generalizing value with
  | zero => simp [sprintfHex, hexValue, Nat.mod_one]
  | succ n ih =>
    have hrest := ih (value >>> 4)
    have hdigit := (hexDigitOf_hexCharacter _ (lowDigit_lt hw value)).1
    have hpow : 16 ^ (n + 1) = 16 * 16 ^ n := Nat.pow_succ'
    have hshift : (value >>> 4).toNat = value.toNat / 16 := Nat.shiftRight_eq_div_pow _ 4
    rw [hexValue] at hrest ⊢
    rw [sprintfHex_succ, List.foldl_append, hrest, List.foldl_cons, List.foldl_nil, hdigit,
      lowDigit_toNat hw, hshift, hpow, Nat.mod_mul]
    exact Nat.add_comm _ _

theorem le_of_mem_sprintfHex {n : Nat} {value : BitVec w} {c : U8}
    (hc : c ∈ sprintfHex n value []) : 0x30 ≤ c := by
  induction n generalizing value with
  | zero => cases hc
  | succ n ih =>
    rw [sprintfHex_succ] at hc
    rcases List.mem_append.mp hc with hc | hc
    · exact ih hc
    · rw [List.mem_singleton.mp hc]
      exact (hexDigitOf_hexCharacter _ (lowDigit_lt hw value)).2

end

/-- The bytes that pairs of digits are. -/
def hexBytes : List U8 → List U8
  | a :: b :: rest => BitVec.ofNat 8 (hexValue [a, b]) :: hexBytes rest
  | _ => []

/-- The two digits of a byte. -/
def byteDigits (b : U8) : List U8 := sprintfHex 2 b []

theorem hexBytes_byteDigits (b : U8) (rest : List U8) :
    hexBytes (byteDigits b ++ rest) = b :: hexBytes rest := by
  have hvalue := hexValue_sprintfHex (Nat.le_refl 8) 2 b
  have hlt := b.isLt
  rw [Nat.mod_eq_of_lt (by omega)] at hvalue
  obtain ⟨c, d, hdigits⟩ : ∃ c d, byteDigits b = [c, d] := ⟨_, _, rfl⟩
  rw [byteDigits] at hdigits
  rw [hdigits] at hvalue
  rw [byteDigits, hdigits, List.cons_append, List.singleton_append, hexBytes, hvalue,
    BitVec.ofNat_toNat, BitVec.setWidth_eq]

theorem hexBytes_flatMap (piece : List U8) : hexBytes (piece.flatMap byteDigits) = piece := by
  induction piece with
  | nil => rfl
  | cons b piece ih => rw [List.flatMap_cons, hexBytes_byteDigits, ih]

/-- The digits of the byte `j` of a piece, with a space in front of every fourth byte. -/
def byteText (j : Nat) (b : U8) : List U8 := (if j % 4 = 0 then [space] else []) ++ byteDigits b

def pieceText (piece : List U8) : List U8 := piece.zipIdx.flatMap fun (b, j) => byteText j b

theorem pieceText_append (piece : List U8) (b : U8) :
    pieceText (piece ++ [b]) = pieceText piece ++ byteText piece.length b := by
  simp [pieceText, List.zipIdx_append]

theorem pieceText_length (piece : List U8) :
    (pieceText piece).length = 2 * piece.length + (piece.length + 3) / 4 := by
  induction piece using List.reverseRecOn with
  | nil => rfl
  | append_singleton piece b ih =>
    have hdigits : (byteDigits b).length = 2 := sprintfHex_length 2 b []
    rw [pieceText_append, List.length_append, ih, byteText, List.length_append, hdigits,
      List.length_append, List.length_singleton]
    split
    · rw [List.length_singleton]
      omega
    · rw [List.length_nil]
      omega

theorem filter_pieceText (piece : List U8) :
    (pieceText piece).filter (· ≠ space) = piece.flatMap byteDigits := by
  induction piece using List.reverseRecOn with
  | nil => rfl
  | append_singleton piece b ih =>
    have hdigits : (byteDigits b).filter (· ≠ space) = byteDigits b := by
      refine List.filter_eq_self.mpr fun c hc => ?_
      have hle := le_of_mem_sprintfHex (Nat.le_refl 8) hc
      have hne : c ≠ space := by
        rintro rfl
        exact absurd hle (by decide)
      simpa using hne
    have hspace : (byteText piece.length b).filter (· ≠ space) = byteDigits b := by
      rw [byteText, List.filter_append, hdigits]
      split <;> rfl
    rw [pieceText_append, List.filter_append, ih, hspace, List.flatMap_append,
      List.flatMap_singleton]

/-- The address field of a line. -/
def addressText (offset : Nat) : List U8 := sprintfHex 8 (BitVec.ofNat 32 offset) [] ++ ascii ":"

def dumpLine (offset : Nat) (piece : List U8) : List U8 := addressText offset ++ pieceText piece

def pieceAt (content : List U8) (i : Nat) : List U8 := (content.drop (16 * i)).take 16

def pieceCount (content : List U8) : Nat := (content.length + 15) / 16

def dumpLines (content : List U8) : List (List U8) :=
  ((List.range (pieceCount content)).map fun i => dumpLine (16 * i) (pieceAt content i)) ++
    if content = [] then [] else [addressText content.length]

def linesText (lines : List (List U8)) : List U8 := lines.flatMap (· ++ [newline])

/-- The bytes of a line behind its address field. -/
def lineBytes (line : List U8) : List U8 := hexBytes ((line.drop 9).filter (· ≠ space))

def textBytes (text : List U8) : List U8 := (text.splitOn newline).flatMap lineBytes

theorem addressText_length (offset : Nat) : (addressText offset).length = 9 := by
  rw [addressText, List.length_append, sprintfHex_length]
  rfl

/-- The address field says the offset. -/
theorem hexValue_dumpLine {offset : Nat} (h : offset < 2 ^ 32) (piece : List U8) :
    hexValue ((dumpLine offset piece).take 8) = offset := by
  have hlength : (sprintfHex 8 (BitVec.ofNat 32 offset) []).length = 8 := sprintfHex_length 8 _ []
  rw [dumpLine, addressText, List.append_assoc, List.take_left' hlength,
    hexValue_sprintfHex (by decide), BitVec.toNat_ofNat]
  omega

theorem lineBytes_dumpLine (offset : Nat) (piece : List U8) :
    lineBytes (dumpLine offset piece) = piece := by
  rw [lineBytes, dumpLine, List.drop_left' (addressText_length offset), filter_pieceText,
    hexBytes_flatMap]

theorem lineBytes_addressText (offset : Nat) : lineBytes (addressText offset) = [] := by
  have hdrop : (addressText offset ++ []).drop 9 = [] := List.drop_left' (addressText_length offset)
  rw [List.append_nil] at hdrop
  rw [lineBytes, hdrop]
  rfl

theorem splitOn_linesText {lines : List (List U8)} (h : ∀ line ∈ lines, newline ∉ line) :
    (linesText lines).splitOn newline = lines ++ [[]] := by
  have hjoin : linesText lines = [newline].intercalate (lines ++ [[]]) := by
    induction lines with
    | nil => rfl
    | cons line lines ih =>
      rw [linesText, List.flatMap_cons, ← linesText, ih fun l hl => h l (List.mem_cons_of_mem _ hl)]
      cases lines <;> simp [List.intercalate]
  rw [hjoin]
  refine List.splitOn_intercalate newline (fun line hline => ?_) (by simp)
  rcases List.mem_append.mp hline with hline | hline
  · exact h line hline
  · rw [List.mem_singleton.mp hline]
    exact List.not_mem_nil

theorem newline_notMem_addressText (offset : Nat) : newline ∉ addressText offset := by
  intro hc
  rcases List.mem_append.mp hc with hc | hc
  · exact absurd (le_of_mem_sprintfHex (by decide) hc) (by decide)
  · exact absurd hc (by decide)

theorem newline_notMem_pieceText (piece : List U8) : newline ∉ pieceText piece := by
  intro hc
  obtain ⟨⟨b, j⟩, -, hc⟩ := List.mem_flatMap.mp hc
  rcases List.mem_append.mp hc with hc | hc
  · split at hc
    · exact absurd hc (by decide)
    · cases hc
  · exact absurd (le_of_mem_sprintfHex (Nat.le_refl 8) hc) (by decide)

theorem flatMap_pieceAt (content : List U8) (n : Nat) :
    (List.range n).flatMap (pieceAt content) = content.take (16 * n) := by
  induction n with
  | zero => rfl
  | succ n ih =>
    rw [List.range_succ, List.flatMap_append, ih, List.flatMap_singleton, pieceAt, Nat.mul_succ,
      List.take_add]

/-- What the dump was made of can be read from it. -/
theorem textBytes_dumpLines (content : List U8) :
    textBytes (linesText (dumpLines content)) = content := by
  have hlines : ∀ line ∈ dumpLines content, newline ∉ line := by
    intro line hline
    rcases List.mem_append.mp hline with hline | hline
    · obtain ⟨i, -, rfl⟩ := List.mem_map.mp hline
      intro hc
      rcases List.mem_append.mp hc with hc | hc
      · exact newline_notMem_addressText _ hc
      · exact newline_notMem_pieceText _ hc
    · split at hline
      · cases hline
      · rw [List.mem_singleton.mp hline]
        exact newline_notMem_addressText _
  have hlast : ((if content = [] then [] else [addressText content.length]) ++
      [[]] : List (List U8)).flatMap lineBytes = [] := by
    split
    · rfl
    · rw [List.flatMap_append, List.flatMap_singleton, lineBytes_addressText]
      rfl
  rw [textBytes, splitOn_linesText hlines, dumpLines, List.append_assoc, List.flatMap_append, hlast,
    List.append_nil, List.flatMap_map]
  simp only [lineBytes_dumpLine]
  rw [flatMap_pieceAt, pieceCount]
  exact List.take_of_length_le (by omega)

end Persistos
