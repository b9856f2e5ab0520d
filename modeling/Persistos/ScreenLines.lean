import Persistos.TtyPage
import Persistos.TypedLines

/-! The row of the screen on which a line is edited. The shell writes the line again after a key,
with escape codes that clear the row and move the cursor back. -/

namespace Persistos

open Theory

namespace VtDevice

/-- Since `vt₀` only the row of the cursor has changed, to these characters. -/
structure RowIs (vt₀ : VtDevice) (column : Nat) (cells : Nat → U8) (vt : VtDevice) : Prop where
  within : vt.Within
  plain : vt.escapeType = vtEscapeNone
  screen : SameScreen vt₀ vt
  row : vt.cursorRow = vt₀.cursorRow
  column : vt.cursorColumn = column
  cells : ∀ c < vt₀.terminalWidth, vt.cell vt₀.cursorRow c = cells c
  others : ∀ r c, r ≠ vt₀.cursorRow → c < vt₀.terminalWidth → vt.cell r c = vt₀.cell r c

variable {vt₀ vt : VtDevice} {column n : Nat} {cells cells' : Nat → U8} {byte : U8}

theorem vtWriteByte_plain (h : vt.escapeType = vtEscapeNone) (byte : U8) :
    vt.vtWriteByte byte = .ok (vt.vtWritePlain byte) := by
  rw [vtWriteByte, h, if_neg (by decide), if_neg (by decide), if_pos rfl]

/-- The three bytes of an escape code. -/
theorem vtWriteByte_escape (h : vt.escapeType = vtEscapeNone) (byte : U8) :
    [0x1B, 0x5B, byte].foldlM vtWriteByte vt =
      (vtWriteEscape { vt with escapeType := vtEscapeEscParen } byte).map escapeNone := by
  have hescape : vt.vtWriteByte 0x1B = .ok { vt with escapeType := vtEscapeEsc } :=
    vtWriteByte_plain h 0x1B
  have hparen : ({ vt with escapeType := vtEscapeEsc } : VtDevice).vtWriteByte 0x5B =
      .ok { vt with escapeType := vtEscapeEscParen } := by
    have hne : vtEscapeEsc ≠ vtEscapeEscParen := by decide
    rw [vtWriteByte, if_neg hne, if_pos rfl]
    rfl
  rw [List.foldlM_cons, hescape, ok_bind, List.foldlM_cons, hparen, ok_bind, List.foldlM_cons,
    vtWriteByte, if_pos rfl]
  cases vtWriteEscape { vt with escapeType := vtEscapeEscParen } byte <;> rfl

namespace RowIs

theorem congr (h : RowIs vt₀ column cells vt) (hc : ∀ c < vt₀.terminalWidth, cells c = cells' c) :
    RowIs vt₀ column cells' vt :=
  { h with cells := fun c hlt => (h.cells c hlt).trans (hc c hlt) }

theorem start (hw : vt.Within) (hplain : vt.escapeType = vtEscapeNone) :
    RowIs vt vt.cursorColumn (vt.cell vt.cursorRow) vt :=
  ⟨hw, hplain, .refl vt, rfl, rfl, fun _ _ => rfl, fun _ _ _ _ => rfl⟩

theorem width_le (h : RowIs vt₀ column cells vt) : vt₀.terminalWidth ≤ vtMaxWidth :=
  h.screen.width ▸ h.within.width

/-- The cursor moves in its row. -/
theorem setCursor (h : RowIs vt₀ column cells vt) {k : Nat} (hk : k < vt₀.terminalWidth) :
    RowIs vt₀ k cells (vt.vtSetCursor vt.cursorRow k) where
  within := ⟨h.within.row, h.screen.width.symm ▸ hk, h.within.width, h.within.height,
    h.within.painted, h.within.escape⟩
  plain := h.plain
  screen := ⟨h.screen.width, h.screen.height, h.screen.framebuffer, h.screen.deviceNumber⟩
  row := h.row
  column := rfl
  cells := h.cells
  others := h.others

theorem setChar (h : RowIs vt₀ column cells vt) {k : Nat} (hk : k < vt₀.terminalWidth) (byte : U8) :
    RowIs vt₀ column (Function.update cells k byte) (vt.vtSetChar byte vt.cursorRow k) where
  within := ⟨h.within.row, h.within.column, h.within.width, h.within.height, h.within.painted,
    h.within.escape⟩
  plain := h.plain
  screen := ⟨h.screen.width, h.screen.height, h.screen.framebuffer, h.screen.deviceNumber⟩
  row := h.row
  column := h.column
  cells c hc := by
    have hmax := h.width_le
    rw [vtSetChar_cell vt byte (by omega) (by omega), h.row, h.cells c hc, Function.update_apply]
    simp
  others r c hr hc := by
    have hmax := h.width_le
    rw [vtSetChar_cell vt byte (by omega) (by omega), h.row, if_neg fun hh => hr hh.1]
    exact h.others r c hr hc

theorem char (h : RowIs vt₀ column cells vt) (hbyte : Typeable byte)
    (hk : column + 1 < vt₀.terminalWidth) : ∃ vt', vt.vtWriteByte byte = .ok vt' ∧
      RowIs vt₀ (column + 1) (Function.update cells column byte) vt' := by
  refine ⟨_, vtWriteByte_plain h.plain byte, ?_⟩
  have hcontrol : byte ≠ 0x1B ∧ byte ≠ 0x0A ∧ byte ≠ 0x0D ∧ byte ≠ 0x08 := by
    refine ⟨?_, ?_, ?_, ?_⟩ <;> rintro rfl <;> revert hbyte <;> decide
  obtain ⟨h1, h2, h3, h4⟩ := hcontrol
  have hset := h.setChar (Nat.lt_of_succ_lt hk) byte
  have hwidth := h.screen.width
  have hcolumn := h.column
  rw [vtWritePlain, if_neg h1, if_neg h2, if_neg h3, if_neg h4, hcolumn]
  dsimp only
  have hnot : ¬(vt.vtSetChar byte vt.cursorRow column).cursorColumn =
      (vt.vtSetChar byte vt.cursorRow column).terminalWidth - 1 := by
    change ¬vt.cursorColumn = vt.terminalWidth - 1
    omega
  rw [if_neg hnot]
  have hmove := hset.setCursor hk
  change RowIs vt₀ (column + 1) _
    ((vt.vtSetChar byte vt.cursorRow column).vtSetCursor vt.cursorRow (vt.cursorColumn + 1))
  rw [hcolumn]
  exact hmove

/-- A text replaces the characters from the cursor on. -/
theorem text (h : RowIs vt₀ column cells vt) {t : List U8} (ht : ∀ c ∈ t, Typeable c)
    (hk : column + t.length < vt₀.terminalWidth) : ∃ vt', t.foldlM vtWriteByte vt = .ok vt' ∧
      RowIs vt₀ (column + t.length)
        (fun c => if column ≤ c then (t[c - column]?).getD (cells c) else cells c) vt' := by
  induction t generalizing column cells vt with
  | nil => exact ⟨vt, rfl, h.congr fun c _ => by simp⟩
  | cons byte t ih =>
    rw [List.length_cons] at hk
    obtain ⟨vt₁, hvt₁, h₁⟩ := h.char (ht byte List.mem_cons_self) (by omega)
    obtain ⟨vt', hvt', h'⟩ := ih h₁ (fun c hc => ht c (List.mem_cons_of_mem _ hc)) (by omega)
    refine ⟨vt', ?_, ?_⟩
    · rw [List.foldlM_cons, hvt₁, ok_bind]
      exact hvt'
    · have hlength : column + 1 + t.length = column + (byte :: t).length := by
        rw [List.length_cons]
        omega
      rw [← hlength]
      refine h'.congr fun c _ => ?_
      rcases Nat.lt_trichotomy c column with hlt | rfl | hgt
      · rw [if_neg (by omega), if_neg (by omega), Function.update_of_ne (by omega)]
      · rw [if_neg (by omega), if_pos (Nat.le_refl c), Nat.sub_self, Function.update_self]
        rfl
      · have hindex : c - column = c - (column + 1) + 1 := by omega
        rw [if_pos (by omega), if_pos (by omega), hindex, List.getElem?_cons_succ,
          Function.update_of_ne (by omega)]

/-- `ESC [ K` -/
theorem clearFrom (h : RowIs vt₀ column cells vt) :
    ∃ vt', [0x1B, 0x5B, 0x4B].foldlM vtWriteByte vt = .ok vt' ∧
      RowIs vt₀ column (fun c => if column ≤ c then 0x20 else cells c) vt' := by
  let vt₁ : VtDevice := { vt with escapeType := vtEscapeEscParen }
  have hwithin : vt₁.Within := ⟨h.within.row, h.within.column, h.within.width, h.within.height,
    h.within.painted, .inr (.inr rfl)⟩
  have hedits : Edits vt₁ (vt₁.vtClearFrom vt.cursorRow vt.cursorColumn) :=
    vtClearFrom_edits h.within.row
  have hafter := hedits.within hwithin
  have hscreen := hedits.sameScreen
  have hcursor := vtClearFrom_cursor vt₁ vt.cursorRow vt.cursorColumn
  simp only [cursor, Prod.mk.injEq] at hcursor
  have hcell : ∀ r c, c < vt₀.terminalWidth →
      (vt₁.vtClearFrom vt.cursorRow vt.cursorColumn).cell r c =
        if r = vt₀.cursorRow ∧ column ≤ c then 0x20 else vt.cell r c := by
    intro r c hc
    have hclear : (vt₁.vtClearFrom vt.cursorRow vt.cursorColumn).cell r c =
        if r = vt.cursorRow ∧ vt.cursorColumn ≤ c then 0x20 else vt.cell r c :=
      vtClearFrom_cell h.within.width (h.screen.width.symm ▸ hc)
    rwa [h.row, h.column] at hclear ⊢
  refine ⟨(vt₁.vtClearFrom vt.cursorRow vt.cursorColumn).escapeNone, ?_, ?_⟩
  · rw [vtWriteByte_escape h.plain]
    rfl
  · refine ⟨⟨hafter.row, hafter.column, hafter.width, hafter.height, hafter.painted, .inl rfl⟩, rfl,
      ⟨hscreen.width.trans h.screen.width, hscreen.height.trans h.screen.height,
        hscreen.framebuffer.trans h.screen.framebuffer,
        hscreen.deviceNumber.trans h.screen.deviceNumber⟩,
      hcursor.1.trans h.row, hcursor.2.1.trans h.column, fun c hc => ?_, fun r c hr hc => ?_⟩
    · refine (hcell vt₀.cursorRow c hc).trans ?_
      by_cases hle : column ≤ c
      · rw [if_pos ⟨rfl, hle⟩, if_pos hle]
      · rw [if_neg fun hh => hle hh.2, if_neg hle]
        exact h.cells c hc
    · refine (hcell r c hc).trans ?_
      rw [if_neg fun hh => hr hh.1]
      exact h.others r c hr hc

/-- `\r` and `ESC [ K`. -/
theorem clear (h : RowIs vt₀ column cells vt) :
    ∃ vt', [0x0D, 0x1B, 0x5B, 0x4B].foldlM vtWriteByte vt = .ok vt' ∧
      RowIs vt₀ 0 (fun _ => 0x20) vt' := by
  have hzero := h.setCursor (h.screen.width ▸ Nat.zero_lt_of_lt h.within.column)
  have hreturn : vt.vtWriteByte 0x0D = .ok (vt.vtSetCursor vt.cursorRow 0) :=
    vtWriteByte_plain h.plain 0x0D
  obtain ⟨vt', hvt', h'⟩ := hzero.clearFrom
  refine ⟨vt', ?_, h'⟩
  rw [List.foldlM_cons, hreturn, ok_bind]
  exact hvt'

/-- `ESC [ D` -/
theorem back (h : RowIs vt₀ (column + 1) cells vt) :
    ∃ vt', [0x1B, 0x5B, 0x44].foldlM vtWriteByte vt = .ok vt' ∧ RowIs vt₀ column cells vt' := by
  have hlt : column < vt₀.terminalWidth := by
    have hcolumn := h.within.column
    rw [h.column, h.screen.width] at hcolumn
    exact Nat.lt_of_succ_lt hcolumn
  have hmove := h.setCursor hlt
  have hne : vt.cursorColumn ≠ 0 := by
    rw [h.column]
    exact Nat.succ_ne_zero column
  have hcolumn : vt.cursorColumn - 1 = column := by
    rw [h.column, Nat.add_sub_cancel]
  refine ⟨vt.vtSetCursor vt.cursorRow column, ?_, hmove⟩
  rw [vtWriteByte_escape h.plain, vtWriteEscape, if_neg (by decide), if_neg (by decide),
    if_neg (by decide), if_pos rfl, if_pos hne]
  change Except.ok (escapeNone (vtSetCursor _ vt.cursorRow (vt.cursorColumn - 1))) = _
  rw [hcolumn]
  have hsame : ({ vt with escapeType := vtEscapeNone } : VtDevice) = vt := by rw [← h.plain]
  exact congrArg (fun w => Except.ok (vtSetCursor w vt.cursorRow column)) hsame

theorem backs (h : RowIs vt₀ (column + n) cells vt) :
    ∃ vt', (List.replicate n [0x1B, 0x5B, 0x44]).flatten.foldlM vtWriteByte vt = .ok vt' ∧
      RowIs vt₀ column cells vt' := by
  induction n generalizing vt with
  | zero => exact ⟨vt, rfl, h⟩
  | succ n ih =>
    obtain ⟨vt₁, hvt₁, h₁⟩ := h.back
    obtain ⟨vt', hvt', h'⟩ := ih h₁
    refine ⟨vt', ?_, h'⟩
    rw [List.replicate_succ, List.flatten_cons, List.foldlM_append, hvt₁, ok_bind]
    exact hvt'

end RowIs

/-- The row of the cursor shows the prompt and the line, and the cursor stands where it is in the
line. -/
structure Displays (vt₀ : VtDevice) (z : TextZipper U8) (vt : VtDevice) : Prop where
  cells : ∃ cells, RowIs vt₀ (LineEditor.commandPrompt.length + z.left.length) cells vt
  shown : ∀ c < vt₀.terminalWidth,
    blankNul (vt.cell vt₀.cursorRow c) = ((LineEditor.commandPrompt ++ z.text)[c]?).getD 0x20

end VtDevice

/-- What `rewrite_command_line` writes. -/
def rewriting (z : TextZipper U8) : List U8 :=
  [0x0D, 0x1B, 0x5B, 0x4B] ++ (LineEditor.commandPrompt ++ z.text) ++
    (List.replicate z.right.length [0x1B, 0x5B, 0x44]).flatten

namespace VtDevice

theorem commandPrompt_typeable : ∀ c ∈ LineEditor.commandPrompt, Typeable c := by decide

theorem blankNul_typeable (h : Typeable byte) : blankNul byte = byte := by
  refine if_neg ?_
  rintro rfl
  revert h
  decide

theorem Displays.rewrite {z z' : TextZipper U8} (h : Displays vt₀ z vt)
    (hz : ∀ c ∈ z'.text, Typeable c)
    (hfits : LineEditor.commandPrompt.length + z'.text.length < vt₀.terminalWidth) :
    ∃ vt', (rewriting z').foldlM vtWriteByte vt = .ok vt' ∧ Displays vt₀ z' vt' := by
  obtain ⟨cells, hcells⟩ := h.cells
  obtain ⟨vt₁, hvt₁, h₁⟩ := hcells.clear
  have htypeable : ∀ c ∈ LineEditor.commandPrompt ++ z'.text, Typeable c := by
    intro c hc
    exact (List.mem_append.mp hc).elim (commandPrompt_typeable c) (hz c)
  obtain ⟨vt₂, hvt₂, h₂⟩ := h₁.text htypeable (by rw [List.length_append]; omega)
  have hlength : 0 + (LineEditor.commandPrompt ++ z'.text).length =
      LineEditor.commandPrompt.length + z'.left.length + z'.right.length := by
    rw [List.length_append, TextZipper.text, List.length_append]
    omega
  rw [hlength] at h₂
  obtain ⟨vt₃, hvt₃, h₃⟩ := h₂.backs
  refine ⟨vt₃, ?_, ⟨_, h₃⟩, fun c hc => ?_⟩
  · rw [rewriting, List.foldlM_append, List.foldlM_append, hvt₁, ok_bind, hvt₂, ok_bind, hvt₃]
  · rw [h₃.cells c hc, if_pos (Nat.zero_le c), Nat.sub_zero]
    cases hget : (LineEditor.commandPrompt ++ z'.text)[c]? with
    | none => rfl
    | some byte => exact blankNul_typeable (htypeable byte (List.mem_of_getElem? hget))

theorem Displays.append {z : TextZipper U8} (h : Displays vt₀ z vt) (hend : z.right = [])
    (hbyte : Typeable byte)
    (hfits : LineEditor.commandPrompt.length + (z.insert byte).text.length < vt₀.terminalWidth) :
    ∃ vt', vt.vtWriteByte byte = .ok vt' ∧ Displays vt₀ (z.insert byte) vt' := by
  obtain ⟨cells, hcells⟩ := h.cells
  have htext : z.text = z.left := by rw [TextZipper.text, hend, List.append_nil]
  have hinsert : (z.insert byte).text = z.text ++ [byte] := by
    rw [TextZipper.text, TextZipper.insert, hend, List.append_nil, htext]
  rw [hinsert, List.length_append, List.length_singleton] at hfits
  have hleft := congrArg List.length htext
  obtain ⟨vt', hvt', h'⟩ := hcells.char hbyte (by omega)
  have hinserted : LineEditor.commandPrompt.length + (z.insert byte).left.length =
      LineEditor.commandPrompt.length + z.left.length + 1 := by
    rw [TextZipper.insert, List.length_append, List.length_singleton, Nat.add_assoc]
  refine ⟨vt', hvt', ⟨_, hinserted ▸ h'⟩, fun c hc => ?_⟩
  have hplace : LineEditor.commandPrompt.length + z.left.length =
      (LineEditor.commandPrompt ++ z.text).length := by
    rw [List.length_append, htext]
  have hshown := h.shown c hc
  rw [hcells.cells c hc] at hshown
  rw [h'.cells c hc, hinsert, ← List.append_assoc, hplace]
  by_cases hce : c = (LineEditor.commandPrompt ++ z.text).length
  · subst hce
    rw [Function.update_self, List.getElem?_concat_length, blankNul_typeable hbyte]
    rfl
  · rw [Function.update_of_ne hce, hshown]
    rcases Nat.lt_or_gt_of_ne hce with hlt | hgt
    · rw [List.getElem?_append_left hlt]
    · rw [List.getElem?_eq_none (by omega), List.getElem?_eq_none]
      rw [List.length_append, List.length_singleton]
      omega

end VtDevice

/-- A key that edits the line: one of a character that can be typed, or of the cursor. -/
inductive KeyboardEvent.Edits (e : KeyboardEvent) : Prop
  | symbol (ascii : e.symbolType = kbdAscii) (typeable : Typeable e.symbol)
  | cursor (nonascii : e.symbolType = kbdNonascii) (key : e.symbol ≠ kbdEsc)

theorem KeyboardEvent.Edits.mapped {e : KeyboardEvent} (h : e.Edits) : e.Mapped := by
  cases h with
  | symbol ascii typeable =>
    obtain ⟨hescape, herase, -⟩ := typeable_plain e.symbol typeable
    exact ⟨.inl ascii, fun _ => ⟨hescape, herase⟩⟩
  | cursor nonascii key =>
    refine ⟨.inr nonascii, fun hascii => ?_⟩
    exact absurd (hascii.symm.trans nonascii) (by decide)

namespace Shell

/-- What the shell writes for a key that makes `z'` of the line `z`. -/
inductive Echoes (s s' : Shell) (z z' : TextZipper U8) : Prop
  | quiet (output : s'.editor.output = s.editor.output) (same : z' = z)
  | rewritten (output : s'.editor.output = s.editor.output ++ rewriting z')
  | appended {c : U8} (typeable : Typeable c) (output : s'.editor.output = s.editor.output ++ [c])
      (inserted : z' = z.insert c) (atEnd : z.right = [])

variable {s s' : Shell} {l : EditedLine} {e : KeyboardEvent} {returns : List U8 → Bool} {c : U8}
  {z z' : TextZipper U8}

theorem rewriteCommandLine_output {s : LineEditor} (h : s.rewriteCommandLine.Represents z) :
    s.rewriteCommandLine.output = s.output ++ rewriting z := by
  have hline : s.line = z.text := h.line_eq
  have hcursor : s.cursorEndOffset.toNat = z.right.length := h.cursor
  simp only [LineEditor.rewriteCommandLine, rewriting, hline, hcursor, List.append_assoc]
  rfl

theorem Shows.symbol_echoes (h : s.Shows l) (hc : Typeable c)
    (hs : Shows ⟨s.editor.character c, s.entered⟩ { l with zipper := l.zipper.insert c }) :
    Echoes s ⟨s.editor.character c, s.entered⟩ l.zipper (l.zipper.insert c) := by
  obtain ⟨-, herase, hnewline⟩ := typeable_plain c hc
  have hrep := hs.represents
  rw [LineEditor.character, if_neg herase, if_neg hnewline] at hrep ⊢
  by_cases hcursor : s.editor.cursorEndOffset > 0
  · rw [if_pos hcursor] at hrep ⊢
    exact .rewritten (rewriteCommandLine_output hrep)
  · rw [if_neg hcursor] at hrep ⊢
    have hright := h.represents.cursor
    refine .appended hc rfl rfl (List.length_eq_zero_iff.mp ?_)
    rw [← hright]
    bv_omega

theorem Shows.erase_echoes (h : s.Shows l) :
    Echoes s ⟨s.editor.erase, s.entered⟩ l.zipper l.zipper.erase := by
  have hrep := h.represents.erase
  rw [LineEditor.erase] at hrep ⊢
  split at hrep
  · next hgt =>
    rw [if_pos hgt]
    exact .rewritten (rewriteCommandLine_output hrep)
  · next hle =>
    rw [if_neg hle]
    exact .rewritten (rewriteCommandLine_output hrep)

theorem Shows.arrowLeft_echoes (h : s.Shows l) :
    Echoes s ⟨{ s.editor.arrowLeft with place := .character }, s.entered⟩ l.zipper
      l.zipper.moveLeft := by
  have hrep := h.represents.arrowLeft
  rw [LineEditor.arrowLeft] at hrep ⊢
  split at hrep
  · next hlt =>
    rw [if_pos hlt]
    exact .rewritten (rewriteCommandLine_output hrep)
  · next hge =>
    rw [if_neg hge]
    refine .quiet rfl ?_
    have hlength := h.represents.length
    have hcursor := h.represents.cursor
    have hleft : l.zipper.left = [] := by
      apply List.length_eq_zero_iff.mp
      bv_omega
    rw [TextZipper.moveLeft, hleft]
    rfl

theorem Shows.arrowRight_echoes (h : s.Shows l) :
    Echoes s ⟨{ s.editor.arrowRight with place := .character }, s.entered⟩ l.zipper
      l.zipper.moveRight := by
  have hrep := h.represents.arrowRight
  rw [LineEditor.arrowRight] at hrep ⊢
  split at hrep
  · next hgt =>
    rw [if_pos hgt]
    exact .rewritten (rewriteCommandLine_output hrep)
  · next hle =>
    rw [if_neg hle]
    refine .quiet rfl ?_
    have hcursor := h.represents.cursor
    have hright : l.zipper.right = [] := by
      apply List.length_eq_zero_iff.mp
      bv_omega
    rw [TextZipper.moveRight, hright]

theorem Shows.arrowUp_echoes {z : TextZipper U8} (h : s.Shows l)
    (hrep : LineEditor.Represents { s.editor.arrowUp with place := .character } z) :
    Echoes s ⟨{ s.editor.arrowUp with place := .character }, s.entered⟩ l.zipper z := by
  have hup : s.editor.arrowUp.Represents z :=
    ⟨h.represents.place, hrep.length, hrep.cursor, hrep.text⟩
  rw [LineEditor.arrowUp] at hup
  exact .rewritten (rewriteCommandLine_output hup)

/-- A key that edits the line, and what the shell writes for it. -/
theorem Shows.press_echoes (h : s.Shows l) (he : e.Edits) (htakes : l.Takes returns e) :
    ∃ s', s.run returns e.encoding = some s' ∧ s'.Shows (l.press e) ∧
      Echoes s s' l.zipper (l.press e).zipper := by
  obtain ⟨s', hrun, hshows⟩ := h.press he.mapped htakes
  refine ⟨s', hrun, hshows, ?_⟩
  have hplace := h.represents.place
  rw [KeyboardEvent.encoding] at hrun
  rw [EditedLine.press] at hshows ⊢
  cases he with
  | symbol ascii typeable =>
    obtain ⟨hescape, -, hnewline⟩ := typeable_plain e.symbol typeable
    rw [if_pos ascii, run_character hplace hescape hnewline] at hrun
    obtain rfl := Option.some.inj hrun
    rw [if_pos ascii, if_neg hnewline] at hshows ⊢
    exact h.symbol_echoes typeable hshows
  | cursor nonascii key =>
    have hascii : e.symbolType ≠ kbdAscii := by
      rw [nonascii]
      decide
    rw [if_neg hascii, if_pos nonascii, if_neg key] at hrun
    rw [if_neg hascii] at hshows ⊢
    by_cases hback : e.symbol = kbdBackspace
    · have hescape : eraseCharacter ≠ escapeCharacter := by decide
      have hnewline : eraseCharacter ≠ newline := by decide
      rw [if_pos hback] at hrun ⊢
      change s.run returns [eraseCharacter] = some s' at hrun
      rw [run_character hplace hescape hnewline] at hrun
      obtain rfl := Option.some.inj hrun
      rw [LineEditor.character, if_pos rfl]
      exact h.erase_echoes
    rw [if_neg hback] at hrun hshows ⊢
    by_cases hup : e.symbol = kbdArrowUp
    · rw [if_pos hup] at hrun hshows ⊢
      change s.run returns [escapeCharacter, openBracket, 0x41] = some s' at hrun
      rw [run_escapeCode hplace] at hrun
      obtain rfl := Option.some.inj hrun
      exact h.arrowUp_echoes hshows.represents
    rw [if_neg hup] at hrun hshows ⊢
    by_cases hdown : e.symbol = kbdArrowDown
    · have hright : e.symbol ≠ kbdArrowRight := by rw [hdown]; decide
      have hleft : e.symbol ≠ kbdArrowLeft := by rw [hdown]; decide
      rw [if_pos hdown] at hrun
      rw [if_neg hright, if_neg hleft]
      change s.run returns [escapeCharacter, openBracket, 0x42] = some s' at hrun
      rw [run_escapeCode hplace] at hrun
      obtain rfl := Option.some.inj hrun
      exact .quiet rfl rfl
    rw [if_neg hdown] at hrun
    by_cases hright : e.symbol = kbdArrowRight
    · rw [if_pos hright] at hrun ⊢
      change s.run returns [escapeCharacter, openBracket, 0x43] = some s' at hrun
      rw [run_escapeCode hplace] at hrun
      obtain rfl := Option.some.inj hrun
      exact h.arrowRight_echoes
    rw [if_neg hright] at hrun ⊢
    by_cases hleft : e.symbol = kbdArrowLeft
    · rw [if_pos hleft] at hrun ⊢
      change s.run returns [escapeCharacter, openBracket, 0x44] = some s' at hrun
      rw [run_escapeCode hplace] at hrun
      obtain rfl := Option.some.inj hrun
      exact h.arrowLeft_echoes
    · rw [if_neg hleft] at hrun ⊢
      obtain rfl := Option.some.inj hrun
      exact .quiet rfl rfl

end Shell

open VtDevice Shell

/-- The keys edit a line that fits in the row from the prompt on. -/
def EditsRow (width : Nat) (keys : List KeyboardEvent) : Prop :=
  (∀ e ∈ keys, e.Edits) ∧ ∀ pre, pre <+: keys →
    LineEditor.commandPrompt.length +
      (pre.foldl EditedLine.press .start).zipper.text.length < width

/-- Both lines are of characters that can be typed. -/
structure EditedLine.Plain (l : EditedLine) : Prop where
  text : ∀ c ∈ l.zipper.text, Typeable c
  prev : ∀ c ∈ l.prev, Typeable c

theorem EditedLine.Plain.press {l : EditedLine} {e : KeyboardEvent} (h : l.Plain) (he : e.Edits) :
    (l.press e).Plain := by
  have htext := h.text
  simp only [TextZipper.text, List.mem_append] at htext
  rw [EditedLine.press]
  cases he with
  | symbol ascii typeable =>
    have hnewline := (typeable_plain e.symbol typeable).2.2
    rw [if_pos ascii, if_neg hnewline]
    refine ⟨fun c hc => ?_, h.prev⟩
    simp only [TextZipper.insert, TextZipper.text, List.mem_append, List.mem_singleton] at hc
    rcases hc with (hc | rfl) | hc
    · exact htext c (.inl hc)
    · exact typeable
    · exact htext c (.inr hc)
  | cursor nonascii key =>
    have hascii : e.symbolType ≠ kbdAscii := by
      rw [nonascii]
      decide
    rw [if_neg hascii]
    split
    · refine ⟨fun c hc => ?_, h.prev⟩
      rcases List.mem_append.mp hc with hc | hc
      · exact htext c (.inl (List.mem_of_mem_dropLast hc))
      · exact htext c (.inr hc)
    split
    · refine ⟨fun c hc => ?_, h.text⟩
      rw [TextZipper.text, List.append_nil] at hc
      exact h.prev c hc
    split
    · exact ⟨fun c hc => h.text c (l.zipper.text_moveRight ▸ hc), h.prev⟩
    split
    · exact ⟨fun c hc => h.text c (l.zipper.text_moveLeft ▸ hc), h.prev⟩
    · exact h

variable {vt₀ : VtDevice}

theorem display_start (hw : vt₀.Within) (hplain : vt₀.escapeType = vtEscapeNone)
    (hcolumn : vt₀.cursorColumn = 0)
    (hblank : ∀ c < vt₀.terminalWidth, blankNul (vt₀.cell vt₀.cursorRow c) = 0x20)
    (hfits : LineEditor.commandPrompt.length < vt₀.terminalWidth) :
    ∃ vt, LineEditor.commandPrompt.foldlM vtWriteByte vt₀ = .ok vt ∧
      Displays vt₀ ⟨[], []⟩ vt := by
  have hstart := RowIs.start hw hplain
  rw [hcolumn] at hstart
  obtain ⟨vt, hvt, hrow⟩ := hstart.text commandPrompt_typeable (by omega)
  rw [Nat.zero_add] at hrow
  refine ⟨vt, hvt, ⟨_, hrow⟩, fun c hc => ?_⟩
  rw [hrow.cells c hc, if_pos (Nat.zero_le c), Nat.sub_zero, TextZipper.text, List.append_nil,
    List.append_nil]
  cases hget : LineEditor.commandPrompt[c]? with
  | none => exact hblank c hc
  | some byte => exact blankNul_typeable (commandPrompt_typeable byte (List.mem_of_getElem? hget))

/-- The screen after a key. -/
theorem display_key {s s' : Shell} {z z' : TextZipper U8} {vt : VtDevice} (h : Displays vt₀ z vt)
    (hout : s.editor.output.foldlM vtWriteByte vt₀ = .ok vt) (he : Echoes s s' z z')
    (hz : ∀ c ∈ z'.text, Typeable c)
    (hfits : LineEditor.commandPrompt.length + z'.text.length < vt₀.terminalWidth) :
    ∃ vt', s'.editor.output.foldlM vtWriteByte vt₀ = .ok vt' ∧ Displays vt₀ z' vt' := by
  cases he with
  | quiet output same =>
    rw [output, same]
    exact ⟨vt, hout, h⟩
  | rewritten output =>
    obtain ⟨vt', hvt', h'⟩ := h.rewrite hz hfits
    rw [output, List.foldlM_append, hout]
    exact ⟨vt', hvt', h'⟩
  | @appended c typeable output inserted atEnd =>
    subst inserted
    obtain ⟨vt', hvt', h'⟩ := h.append atEnd typeable hfits
    refine ⟨vt', ?_, h'⟩
    rw [output, List.foldlM_append, hout, ok_bind, List.foldlM_cons, hvt']
    rfl

theorem EditedLine.takes_of_fits {returns : List U8 → Bool} {l : EditedLine} {e : KeyboardEvent}
    (he : e.Edits) (h : l.zipper.text.length < keyboardCommandBufferLength) :
    l.Takes returns e := by
  rw [EditedLine.Takes]
  cases he with
  | symbol ascii typeable =>
    have hnewline := (typeable_plain e.symbol typeable).2.2
    rw [if_pos ascii, if_neg hnewline]
    exact h
  | cursor nonascii key =>
    have hascii : e.symbolType ≠ kbdAscii := by
      rw [nonascii]
      decide
    rw [if_neg hascii]
    exact key

/-- A screen of two rows of ten characters. -/
def smallScreen : VtDevice := vtDeviceInit ⟨160, 32, 640, by decide, by decide, by decide⟩ 1

end Persistos
