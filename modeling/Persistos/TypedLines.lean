import Persistos.Keyboard
import Persistos.ShellKeys

/-! What the keys of a keyboard do to the lines of a shell: a text with a cursor in it, the line
before it, which the arrow up brings back, and the lines that are executed. -/

namespace Persistos

open Theory

/-- The printable characters and the tabulator. -/
def Typeable (c : U8) : Prop := 0x20 ≤ c ∧ c ≤ 0x7E ∨ c = 0x09

instance : DecidablePred Typeable := fun _ => inferInstanceAs (Decidable (_ ∨ _))

theorem typeable_plain : ∀ c : U8, Typeable c →
    c ≠ escapeCharacter ∧ c ≠ eraseCharacter ∧ c ≠ newline := by
  decide +kernel

structure EditedLine where
  zipper : TextZipper U8
  prev : List U8
  entered : List (List U8)

namespace EditedLine

def start : EditedLine := ⟨⟨[], []⟩, [], []⟩

def press (l : EditedLine) (e : KeyboardEvent) : EditedLine :=
  if e.symbolType = kbdAscii then
    if e.symbol = newline then ⟨⟨[], []⟩, l.zipper.text, l.entered ++ [l.zipper.text]⟩
    else { l with zipper := l.zipper.insert e.symbol }
  else if e.symbol = kbdBackspace then { l with zipper := l.zipper.erase }
  else if e.symbol = kbdArrowUp then { l with zipper := ⟨l.prev, []⟩, prev := l.zipper.text }
  else if e.symbol = kbdArrowRight then { l with zipper := l.zipper.moveRight }
  else if e.symbol = kbdArrowLeft then { l with zipper := l.zipper.moveLeft }
  else l

/-- Enter comes at the end of a line from which `exec_shell_line` returns, a symbol when there is
room, and Escape, which makes the shell swallow two characters, does not come. -/
def Takes (returns : List U8 → Bool) (l : EditedLine) (e : KeyboardEvent) : Prop :=
  if e.symbolType = kbdAscii then
    if e.symbol = newline then l.zipper.right = [] ∧ returns l.zipper.text = true
    else l.zipper.text.length < keyboardCommandBufferLength
  else e.symbol ≠ kbdEsc

instance (returns : List U8 → Bool) (l : EditedLine) (e : KeyboardEvent) :
    Decidable (l.Takes returns e) :=
  inferInstanceAs (Decidable (if e.symbolType = kbdAscii then
    if e.symbol = newline then l.zipper.right = [] ∧ returns l.zipper.text = true
    else l.zipper.text.length < keyboardCommandBufferLength
  else e.symbol ≠ kbdEsc))

end EditedLine

/-- An event of the keymaps. -/
structure KeyboardEvent.Mapped (e : KeyboardEvent) : Prop where
  type : e.symbolType = kbdAscii ∨ e.symbolType = kbdNonascii
  plain : e.symbolType = kbdAscii → e.symbol ≠ escapeCharacter ∧ e.symbol ≠ eraseCharacter

/-- A shell in its loop, with the lines that it has given to `exec_shell_line`. -/
structure Shell where
  editor : LineEditor
  entered : List (List U8)

namespace Shell

def start : Shell := ⟨.start, []⟩

section

variable (returns : List U8 → Bool)

def step (s : Shell) (c : U8) : Option Shell :=
  (s.editor.step returns c).map fun editor =>
    ⟨editor, match s.editor.place with
      | .character => if c = newline then s.entered ++ [s.editor.line] else s.entered
      | _ => s.entered⟩

def run (s : Shell) (input : List U8) : Option Shell := input.foldlM (step returns) s

end

/-- The arrays of the shell hold the line and the one before it. -/
structure Shows (s : Shell) (l : EditedLine) : Prop where
  represents : s.editor.Represents l.zipper
  prevLength : s.editor.prevKeyboardCommandLength.toNat = l.prev.length
  prevText : ArrayHolds s.editor.prevKeyboardCommandBuffer l.prev
  length : l.zipper.text.length ≤ keyboardCommandBufferLength
  prevBound : l.prev.length ≤ keyboardCommandBufferLength
  entered : s.entered = l.entered

theorem start_shows : start.Shows .start where
  represents := ⟨rfl, rfl, rfl, fun i c hc => by simp [EditedLine.start, TextZipper.text] at hc⟩
  prevLength := rfl
  prevText i c hc := by simp [EditedLine.start] at hc
  length := Nat.zero_le _
  prevBound := Nat.zero_le _
  entered := rfl

variable {s s' : Shell} {l : EditedLine} {e : KeyboardEvent} {returns : List U8 → Bool} {c : U8}

theorem run_append (s : Shell) (a b : List U8) :
    s.run returns (a ++ b) = (s.run returns a).bind fun s' => s'.run returns b := by
  simp [run, List.foldlM_append]

theorem run_singleton (s : Shell) (c : U8) : s.run returns [c] = s.step returns c := by
  simp [run]

/-- A character that does not execute the line. -/
theorem run_character (hplace : s.editor.place = .character) (hescape : c ≠ escapeCharacter)
    (hnewline : c ≠ newline) :
    s.run returns [c] = some ⟨s.editor.character c, s.entered⟩ := by
  simp [run, step, LineEditor.step, hplace, hescape, hnewline]

theorem run_escapeCode (hplace : s.editor.place = .character) (first second : U8) :
    s.run returns [escapeCharacter, first, second] =
      some ⟨{ s.editor.escapeCode first second with place := .character }, s.entered⟩ := by
  have hnewline : escapeCharacter ≠ newline := by decide
  rw [← s.editor.escapeCode_place (.arrowCode (some first))]
  simp [run, step, LineEditor.step, hplace, hnewline]

/-- The line before the one that is edited stays. -/
structure KeepsPrev (s s' : LineEditor) : Prop where
  length : s'.prevKeyboardCommandLength = s.prevKeyboardCommandLength
  buffer : s'.prevKeyboardCommandBuffer = s.prevKeyboardCommandBuffer

theorem erase_keepsPrev (s : LineEditor) : KeepsPrev s s.erase := by
  rw [LineEditor.erase]
  split <;> exact ⟨rfl, rfl⟩

theorem arrowLeft_keepsPrev (s : LineEditor) : KeepsPrev s s.arrowLeft := by
  rw [LineEditor.arrowLeft]
  split <;> exact ⟨rfl, rfl⟩

theorem arrowRight_keepsPrev (s : LineEditor) : KeepsPrev s s.arrowRight := by
  rw [LineEditor.arrowRight]
  split <;> exact ⟨rfl, rfl⟩

namespace Shows

/-- The line is another one, and the one before is the same. -/
theorem edit (h : s.Shows l) {editor : LineEditor} {z : TextZipper U8}
    (hz : editor.Represents z) (hlength : z.text.length ≤ keyboardCommandBufferLength)
    (hprev : KeepsPrev s.editor editor) :
    Shows ⟨editor, s.entered⟩ { l with zipper := z } where
  represents := hz
  prevLength := hprev.length ▸ h.prevLength
  prevText := hprev.buffer ▸ h.prevText
  length := hlength
  prevBound := h.prevBound
  entered := h.entered

theorem symbol (h : s.Shows l) (hnewline : c ≠ newline) (hescape : c ≠ escapeCharacter)
    (herase : c ≠ eraseCharacter) (hroom : l.zipper.text.length < keyboardCommandBufferLength) :
    ∃ s', s.run returns [c] = some s' ∧ s'.Shows { l with zipper := l.zipper.insert c } := by
  have hlength := h.represents.length
  rw [keyboardCommandBufferLength, TextZipper.text, List.length_append] at hroom
  have hlt : s.editor.keyboardCommandLength.toNat < 0xFFFF := by omega
  have hbound : (l.zipper.insert c).text.length ≤ keyboardCommandBufferLength := by
    simp only [TextZipper.insert, TextZipper.text, List.length_append, List.length_singleton,
      keyboardCommandBufferLength]
    omega
  refine ⟨_, run_character h.represents.place hescape hnewline, ?_⟩
  rw [LineEditor.character, if_neg herase, if_neg hnewline]
  split
  · exact h.edit (h.represents.insertSymbol hlt c) hbound ⟨rfl, rfl⟩
  · next hle =>
    exact h.edit (h.represents.appendSymbol hlt (by bv_omega) c) hbound ⟨rfl, rfl⟩

theorem backspace (h : s.Shows l) : ∃ s', s.run returns [eraseCharacter] = some s' ∧
    s'.Shows { l with zipper := l.zipper.erase } := by
  have hescape : eraseCharacter ≠ escapeCharacter := by decide
  have hnewline : eraseCharacter ≠ newline := by decide
  have hbound : l.zipper.erase.text.length ≤ keyboardCommandBufferLength := by
    have hlength := h.length
    simp only [TextZipper.erase, TextZipper.text, List.length_append, List.length_dropLast]
      at hlength ⊢
    omega
  refine ⟨_, run_character h.represents.place hescape hnewline, ?_⟩
  rw [LineEditor.character, if_pos rfl]
  exact h.edit h.represents.erase hbound (erase_keepsPrev s.editor)

theorem enter (h : s.Shows l) (hend : l.zipper.right = [])
    (hreturns : returns l.zipper.text = true) :
    ∃ s', s.run returns [newline] = some s' ∧
      s'.Shows ⟨⟨[], []⟩, l.zipper.text, l.entered ++ [l.zipper.text]⟩ := by
  have hescape : newline ≠ escapeCharacter := by decide
  have herase : newline ≠ eraseCharacter := by decide
  have hline := h.represents.line_eq
  have hcursor := h.represents.cursor
  rw [hend, List.length_nil] at hcursor
  have hlength := h.represents.length
  refine ⟨⟨s.editor.enter, s.entered ++ [s.editor.line]⟩, ?_, ?_⟩
  · simp [run, step, LineEditor.step, h.represents.place, hescape, hline, hreturns,
      LineEditor.character, herase]
  · refine ⟨⟨h.represents.place, rfl, hcursor, fun i c hc => ?_⟩, ?_, fun i c hc => ?_,
      Nat.zero_le _, h.length, ?_⟩
    · simp [TextZipper.text] at hc
    · rw [TextZipper.text, List.length_append]
      exact hlength
    · have hi : i < keyboardCommandBufferLength :=
        Nat.lt_of_lt_of_le (List.getElem?_eq_some_iff.mp hc).1 h.length
      simp only [LineEditor.enter]
      rw [if_pos ⟨Int.natCast_nonneg i, Int.ofNat_lt.mpr hi⟩]
      exact h.represents.text i c hc
    · rw [hline, h.entered]

/-- An escape code moves the cursor. -/
theorem move (h : s.Shows l) {code : U8} {z : TextZipper U8} {editor : LineEditor}
    (hcode : s.editor.escapeCode openBracket code = editor) (hz : editor.Represents z)
    (htext : z.text = l.zipper.text) (hprev : KeepsPrev s.editor editor) :
    ∃ s', s.run returns [escapeCharacter, openBracket, code] = some s' ∧
      s'.Shows { l with zipper := z } := by
  refine ⟨_, run_escapeCode h.represents.place _ _, ?_⟩
  rw [hcode]
  exact h.edit ⟨rfl, hz.length, hz.cursor, hz.text⟩ (htext ▸ h.length) ⟨hprev.length, hprev.buffer⟩

theorem arrowUp (h : s.Shows l) :
    ∃ s', s.run returns [escapeCharacter, openBracket, 0x41] = some s' ∧
      s'.Shows { l with zipper := ⟨l.prev, []⟩, prev := l.zipper.text } := by
  have hlength := h.represents.length
  have hin : ∀ (t : List U8) (i : Nat) (c : U8), t.length ≤ keyboardCommandBufferLength →
      t[i]? = some c → (0 : Int) ≤ i ∧ (i : Int) < keyboardCommandBufferLength := by
    intro t i c ht hc
    have hi := (List.getElem?_eq_some_iff.mp hc).1
    exact ⟨Int.natCast_nonneg i, Int.ofNat_lt.mpr (Nat.lt_of_lt_of_le hi ht)⟩
  have hcode : s.editor.escapeCode openBracket 0x41 = s.editor.arrowUp := rfl
  refine ⟨_, run_escapeCode h.represents.place _ _, ?_⟩
  rw [hcode]
  refine ⟨⟨rfl, ?_, rfl, fun i c hc => ?_⟩, ?_, fun i c hc => ?_, ?_, h.length, h.entered⟩
  · exact h.prevLength
  · rw [TextZipper.text, List.append_nil] at hc
    simp only [LineEditor.arrowUp, LineEditor.rewriteCommandLine, CommandBuffer.use,
      CommandBuffer.overwrite]
    rw [if_pos (hin l.prev i c h.prevBound hc)]
    exact h.prevText i c hc
  · rw [TextZipper.text, List.length_append]
    exact hlength
  · simp only [LineEditor.arrowUp, LineEditor.rewriteCommandLine]
    rw [if_pos (hin l.zipper.text i c h.length hc)]
    exact h.represents.text i c hc
  · rw [TextZipper.text, List.append_nil]
    exact h.prevBound

/-- The shell takes the characters of a key as the key is meant. -/
theorem press (h : s.Shows l) (he : e.Mapped) (htakes : l.Takes returns e) :
    ∃ s', s.run returns e.encoding = some s' ∧ s'.Shows (l.press e) := by
  rw [EditedLine.Takes] at htakes
  rw [KeyboardEvent.encoding, EditedLine.press]
  by_cases hascii : e.symbolType = kbdAscii
  · obtain ⟨hescape, herase⟩ := he.plain hascii
    rw [if_pos hascii] at htakes
    rw [if_pos hascii, if_pos hascii]
    by_cases hnewline : e.symbol = newline
    · rw [if_pos hnewline] at htakes ⊢
      rw [hnewline]
      exact h.enter htakes.1 htakes.2
    · rw [if_neg hnewline] at htakes ⊢
      exact h.symbol hnewline hescape herase htakes
  have hnonascii : e.symbolType = kbdNonascii := he.type.resolve_left hascii
  rw [if_neg hascii] at htakes
  rw [if_neg hascii, if_neg hascii, if_pos hnonascii, if_neg htakes]
  by_cases hback : e.symbol = kbdBackspace
  · rw [if_pos hback, if_pos hback]
    exact h.backspace
  rw [if_neg hback, if_neg hback]
  by_cases hup : e.symbol = kbdArrowUp
  · rw [if_pos hup, if_pos hup]
    exact h.arrowUp
  rw [if_neg hup, if_neg hup]
  by_cases hdown : e.symbol = kbdArrowDown
  · have hright : e.symbol ≠ kbdArrowRight := by rw [hdown]; decide
    have hleft : e.symbol ≠ kbdArrowLeft := by rw [hdown]; decide
    rw [if_pos hdown, if_neg hright, if_neg hleft]
    exact h.move rfl h.represents rfl ⟨rfl, rfl⟩
  rw [if_neg hdown]
  by_cases hright : e.symbol = kbdArrowRight
  · rw [if_pos hright, if_pos hright]
    exact h.move rfl h.represents.arrowRight l.zipper.text_moveRight (arrowRight_keepsPrev _)
  rw [if_neg hright, if_neg hright]
  by_cases hleft : e.symbol = kbdArrowLeft
  · rw [if_pos hleft, if_pos hleft]
    exact h.move rfl h.represents.arrowLeft l.zipper.text_moveLeft (arrowLeft_keepsPrev _)
  · rw [if_neg hleft, if_neg hleft]
    exact ⟨s, rfl, h⟩

end Shows

end Shell

end Persistos
