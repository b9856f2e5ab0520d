import Persistos.Cstd

/-! Numbers as text: the functions of the C library that write the digits of a
number into a buffer, from the last digit to the first. -/

namespace Persistos

def ascii (s : String) : List U8 := s.toList.map fun c => BitVec.ofNat 8 c.toNat

def hexCharacter (hexDigit : U8) : U8 :=
  if hexDigit < 10 then 0x30 + hexDigit else 0x41 + hexDigit - 10

/-- The loop of `sprintf_uint64` and its like for `n` digits, in front of `buffer`. -/
def sprintfHex {w : Nat} : Nat → BitVec w → List U8 → List U8
  | 0, _, buffer => buffer
  | n + 1, value, buffer =>
    let hexDigit := (value &&& 0x0f).setWidth 8
    sprintfHex n (value >>> 4) (hexCharacter hexDigit :: buffer)

theorem sprintfHex_length {w : Nat} (n : Nat) (value : BitVec w) (buffer : List U8) :
    (sprintfHex n value buffer).length = n + buffer.length := by
  induction n generalizing value buffer with
  | zero => simp [sprintfHex]
  | succ n ih =>
    rw [sprintfHex, ih, List.length_cons]
    omega

def sprintfUint64 (value : U64) : List U8 := sprintfHex 16 value [0]

def sprintfUint32 (value : U32) : List U8 := sprintfHex 8 value [0]

def sprintfUint16 (data : U16) : List U8 := sprintfHex 4 data [0]

def sprintfUint8 (value : U8) : List U8 := sprintfHex 2 value [0]

/-- The loop of `sprintf_dec` for `n` digits, with `buffer` from `buffer[n]` on, and
`first_nonzero_digit_index`. -/
def sprintfDecDigits : Nat → U32 → List U8 → Nat → List U8 × Nat
  | 0, _, buffer, first => (buffer, first)
  | n + 1, data, buffer, first =>
    let hexDigit : U8 := (data % 10).setWidth 8
    sprintfDecDigits n (data / 10) ((0x30 + hexDigit) :: buffer)
      (if hexDigit ≠ 0 then n else first)

/-- The eleven bytes at `result`. -/
def sprintfDec (data : U32) (padChar maxDigits : U8) : List U8 :=
  let (buffer, firstNonzeroDigitIndex) := sprintfDecDigits 10 data [] 9
  let max := maxDigits.toNat
  let text :=
    if padChar ≠ 0 then
      let buffer := List.replicate firstNonzeroDigitIndex padChar ++
        buffer.drop firstNonzeroDigitIndex
      (buffer.drop (10 - max)).take max
    else
      let numDigits :=
        if max = 0 then 10 - firstNonzeroDigitIndex
        else if max ≥ 10 - firstNonzeroDigitIndex then 10 - firstNonzeroDigitIndex
        else max
      buffer.drop (10 - numDigits)
  text ++ List.replicate (11 - text.length) 0

example : cString (sprintfDec 1024 0 0) = ascii "1024" := by decide

end Persistos
