import Persistos.ShellEditor

/-! The keys that edit a line do to the array and its two counters what they do to a text with a
cursor in it. -/

namespace Persistos

open Theory

inductive LineKey where
  | symbol (c : U8) (plain : c ≠ escapeCharacter ∧ c ≠ eraseCharacter ∧ c ≠ newline)
  | backspace
  | left
  | right

namespace LineKey

def bytes : LineKey → List U8
  | symbol c _ => [c]
  | backspace => [eraseCharacter]
  | left => [escapeCharacter, openBracket, 0x44]
  | right => [escapeCharacter, openBracket, 0x43]

def edit (z : TextZipper U8) : LineKey → TextZipper U8
  | symbol c _ => z.insert c
  | backspace => z.erase
  | left => z.moveLeft
  | right => z.moveRight

end LineKey

/-- The arrow up, which gets the previous line. -/
def upKey : List U8 := [escapeCharacter, openBracket, 0x41]

namespace LineEditor

/-- The line on both sides of the cursor. -/
def zipper (s : LineEditor) : TextZipper U8 :=
  ⟨s.line.take (s.keyboardCommandLength.toNat - s.cursorEndOffset.toNat),
    s.line.drop (s.keyboardCommandLength.toNat - s.cursorEndOffset.toNat)⟩

structure Represents (s : LineEditor) (z : TextZipper U8) : Prop where
  place : s.place = .character
  length : s.keyboardCommandLength.toNat = z.left.length + z.right.length
  cursor : s.cursorEndOffset.toNat = z.right.length
  text : ArrayHolds s.keyboardCommandBuffer.bytes z.text

variable {s s' : LineEditor} {z : TextZipper U8} {returns : List U8 → Bool} {c : U8}

theorem arrayHolds_line (s : LineEditor) : ArrayHolds s.keyboardCommandBuffer.bytes s.line := by
  intro i c hc
  rw [line, CommandBuffer.first, List.getElem?_map] at hc
  obtain ⟨k, hk, rfl⟩ := Option.map_eq_some_iff.mp hc
  obtain ⟨-, rfl⟩ := List.getElem?_eq_some_iff.mp hk
  simp

theorem represents_zipper (hplace : s.place = .character)
    (hcursor : s.cursorEndOffset.toNat ≤ s.keyboardCommandLength.toNat) :
    s.Represents s.zipper := by
  have hlength : s.line.length = s.keyboardCommandLength.toNat := by
    simp [line, CommandBuffer.first]
  refine ⟨hplace, ?_, ?_, ?_⟩
  · simp only [zipper, List.length_take, List.length_drop]
    omega
  · simp only [zipper, List.length_drop]
    omega
  · simp only [zipper, TextZipper.text, List.take_append_drop]
    exact s.arrayHolds_line

/-- The first bytes of the array are the text. -/
theorem Represents.line_eq (h : s.Represents z) : s.line = z.text := by
  have hlength : s.line.length = z.text.length := by
    simp [line, CommandBuffer.first, h.length, TextZipper.text]
  refine List.ext_getElem hlength fun i hi hi' => ?_
  have hline := s.arrayHolds_line i _ (List.getElem?_eq_getElem hi)
  have htext := h.text i _ (List.getElem?_eq_getElem hi')
  exact hline.symm.trans htext

theorem escapeCode_place (s : LineEditor) (place : EditorPlace) (first second : U8) :
    { ({ s with place } : LineEditor).escapeCode first second with place := .character } =
      { s.escapeCode first second with place := .character } := by
  simp only [escapeCode, arrowUp, arrowRight, arrowLeft, rewriteCommandLine]
  split_ifs <;> rfl

/-- The three bytes of an escape code. -/
theorem run_escapeCode (hplace : s.place = .character) (first second : U8) :
    s.run returns [escapeCharacter, first, second] =
      some { s.escapeCode first second with place := .character } := by
  rw [← s.escapeCode_place (.arrowCode (some first))]
  simp [run, step, hplace]

namespace Represents

theorem rewriteCommandLine (h : s.Represents z) : s.rewriteCommandLine.Represents z :=
  ⟨h.place, h.length, h.cursor, h.text⟩

theorem insertSymbol (h : s.Represents z) (hlt : s.keyboardCommandLength.toNat < 0xFFFF) (c : U8) :
    (s.insertSymbol c).Represents (z.insert c) := by
  have hlength := h.length
  have hcursor := h.cursor
  have hone : (s.keyboardCommandLength + 1).toNat = s.keyboardCommandLength.toNat + 1 := by bv_omega
  have hgap : ((s.keyboardCommandLength + 1).toNat : Int) - s.cursorEndOffset.toNat - 1 =
      z.left.length := by omega
  refine rewriteCommandLine ⟨h.place, ?_, h.cursor, ?_⟩
  · simp only [hone, hlength, TextZipper.insert, List.length_append, List.length_singleton]
    omega
  · have hmoved := moveItems_up s.keyboardCommandBuffer.bytes
      (s.keyboardCommandLength + 1).toNat s.cursorEndOffset.toNat
    simp only [CommandBuffer.set, CommandBuffer.move, insertMoves, hgap, TextZipper.insert,
      TextZipper.text, List.append_assoc, List.singleton_append]
    refine h.text.insert (fun i hi => ?_) (Function.update_self _ _ _) fun i hi hi' => ?_
    · rw [Function.update_of_ne (by omega), hmoved, if_neg (by omega)]
    · rw [Function.update_of_ne (by omega), hmoved, if_pos (by omega), Int.add_sub_cancel]

theorem appendSymbol (h : s.Represents z) (hlt : s.keyboardCommandLength.toNat < 0xFFFF)
    (hend : s.cursorEndOffset = 0) (c : U8) : (s.appendSymbol c).Represents (z.insert c) := by
  have hlength := h.length
  have hcursor := h.cursor
  have hone : (s.keyboardCommandLength + 1).toNat = s.keyboardCommandLength.toNat + 1 := by bv_omega
  have hright : z.right = [] := by
    rw [hend] at hcursor
    exact List.length_eq_zero_iff.mp hcursor.symm
  refine ⟨h.place, ?_, h.cursor, ?_⟩
  · simp only [LineEditor.appendSymbol, hone, hlength, TextZipper.insert, List.length_append,
      List.length_singleton]
    omega
  · have hleft : s.keyboardCommandLength.toNat = z.left.length := by simp [hlength, hright]
    simp only [LineEditor.appendSymbol, CommandBuffer.set, hleft, TextZipper.insert,
      TextZipper.text, List.append_assoc, List.singleton_append]
    refine h.text.insert (fun i hi => ?_) (Function.update_self _ _ _) fun i hi hi' => ?_
    · exact Function.update_of_ne (by omega) _ _
    · rw [hright, List.length_nil] at hi'
      omega

theorem erase (h : s.Represents z) : s.erase.Represents z.erase := by
  have hlength := h.length
  have hcursor := h.cursor
  rw [LineEditor.erase]
  cases hl : z.left using List.reverseRecOn with
  | nil =>
    have hempty : ¬s.keyboardCommandLength > s.cursorEndOffset := by
      rw [hl, List.length_nil] at hlength
      bv_omega
    rw [if_neg hempty, TextZipper.erase, hl, List.dropLast_nil, ← hl]
    exact h.rewriteCommandLine
  | append_singleton l d =>
    rw [hl, List.length_append, List.length_singleton] at hlength
    have hgt : s.keyboardCommandLength > s.cursorEndOffset := by bv_omega
    have hone : (s.keyboardCommandLength - 1).toNat = s.keyboardCommandLength.toNat - 1 := by
      bv_omega
    have hfirst : (s.keyboardCommandLength - 1 - s.cursorEndOffset).toNat = l.length := by bv_omega
    have hcount : (s.keyboardCommandLength - 1).toNat - l.length = z.right.length := by omega
    rw [if_pos hgt, TextZipper.erase, hl, List.dropLast_concat]
    refine rewriteCommandLine ⟨h.place, ?_, h.cursor, ?_⟩
    · simp only [hone]
      omega
    · have htext := h.text
      rw [TextZipper.text, hl, List.append_assoc, List.singleton_append] at htext
      have hmoved := moveItems_down s.keyboardCommandBuffer.bytes l.length z.right.length
      simp only [CommandBuffer.move, eraseMoves, hfirst, hcount, TextZipper.text]
      refine htext.erase (fun i hi => ?_) fun i hi hi' => ?_
      · rw [hmoved, if_neg (by omega)]
      · rw [hmoved, if_pos (by omega)]

theorem arrowLeft (h : s.Represents z) : s.arrowLeft.Represents z.moveLeft := by
  have hlength := h.length
  have hcursor := h.cursor
  have hright := z.length_right_moveLeft
  have htext := congrArg List.length z.text_moveLeft
  simp only [TextZipper.text, List.length_append] at htext
  have hsum : s.keyboardCommandLength.toNat =
      z.moveLeft.left.length + z.moveLeft.right.length := by omega
  rw [LineEditor.arrowLeft]
  split
  · next hlt =>
    rw [if_neg (by bv_omega)] at hright
    refine rewriteCommandLine ⟨h.place, hsum, ?_, ?_⟩
    · simp only [hright]
      bv_omega
    · rw [TextZipper.text_moveLeft]
      exact h.text
  · next hge =>
    rw [if_pos (by bv_omega)] at hright
    refine ⟨h.place, hsum, by omega, ?_⟩
    rw [TextZipper.text_moveLeft]
    exact h.text

theorem arrowRight (h : s.Represents z) : s.arrowRight.Represents z.moveRight := by
  have hlength := h.length
  have hcursor := h.cursor
  have hright := z.length_right_moveRight
  have htext := congrArg List.length z.text_moveRight
  simp only [TextZipper.text, List.length_append] at htext
  have hsum : s.keyboardCommandLength.toNat =
      z.moveRight.left.length + z.moveRight.right.length := by omega
  rw [LineEditor.arrowRight]
  split
  · next hgt =>
    refine rewriteCommandLine ⟨h.place, hsum, ?_, ?_⟩
    · simp only [hright]
      bv_omega
    · rw [TextZipper.text_moveRight]
      exact h.text
  · next hle =>
    refine ⟨h.place, hsum, by bv_omega, ?_⟩
    rw [TextZipper.text_moveRight]
    exact h.text

/-- One key, in a line that stays shorter than its counter can tell. -/
theorem edit (h : s.Represents z) (hlt : s.keyboardCommandLength.toNat < 0xFFFF) (k : LineKey) :
    ∃ s', s.run returns k.bytes = some s' ∧ s'.Represents (k.edit z) := by
  have hplace := h.place
  cases k with
  | symbol c plain =>
    obtain ⟨hescape, herase, hnewline⟩ := plain
    refine ⟨s.character c, ?_, ?_⟩
    · simp [LineKey.bytes, LineEditor.run, LineEditor.step, hplace, hescape, hnewline]
    · rw [LineKey.edit, LineEditor.character, if_neg herase, if_neg hnewline]
      split
      · exact h.insertSymbol hlt c
      · next hle => exact h.appendSymbol hlt (by bv_omega) c
  | backspace =>
    refine ⟨s.erase, ?_, h.erase⟩
    have hescape : eraseCharacter ≠ escapeCharacter := by decide
    have hnewline : eraseCharacter ≠ newline := by decide
    simp [LineKey.bytes, LineEditor.run, LineEditor.step, hplace, hescape, hnewline, character]
  | left =>
    have hleft := h.arrowLeft
    exact ⟨_, run_escapeCode hplace _ _, rfl, hleft.length, hleft.cursor, hleft.text⟩
  | right =>
    have hright := h.arrowRight
    exact ⟨_, run_escapeCode hplace _ _, rfl, hright.length, hright.cursor, hright.text⟩

end Represents

theorem run_append (s : LineEditor) (a b : List U8) :
    s.run returns (a ++ b) = (s.run returns a).bind fun s' => s'.run returns b := by
  simp [run, List.foldlM_append]

theorem Represents.edits (h : s.Represents z) (keys : List LineKey)
    (hroom : ∀ pre, pre <+: keys → ∀ s', s.run returns (pre.flatMap LineKey.bytes) = some s' →
      s'.keyboardCommandLength.toNat ≤ keyboardCommandBufferLength) :
    ∃ s', s.run returns (keys.flatMap LineKey.bytes) = some s' ∧
      s'.Represents (keys.foldl LineKey.edit z) := by
  induction keys generalizing s z with
  | nil => exact ⟨s, rfl, h⟩
  | cons k keys ih =>
    have hfirst := hroom [] List.nil_prefix s rfl
    rw [keyboardCommandBufferLength] at hfirst
    obtain ⟨s₁, hrun₁, h₁⟩ : ∃ s₁, s.run returns k.bytes = some s₁ ∧ s₁.Represents (k.edit z) :=
      h.edit (by omega) k
    obtain ⟨s', hrun, hs'⟩ := ih h₁ fun pre hpre s₂ hs₂ => by
      refine hroom (k :: pre) (List.cons_prefix_cons.mpr ⟨rfl, hpre⟩) s₂ ?_
      rw [List.flatMap_cons, run_append, hrun₁, Option.bind_some]
      exact hs₂
    refine ⟨s', ?_, hs'⟩
    rw [List.flatMap_cons, run_append, hrun₁, Option.bind_some]
    exact hrun

/-- The line that is edited and the previous one, as the loop keeps them. -/
def current (s : LineEditor) : U16 × List U8 :=
  (s.keyboardCommandLength, s.keyboardCommandBuffer.first keyboardCommandBufferLength)

def previous (s : LineEditor) : U16 × List U8 :=
  (s.prevKeyboardCommandLength,
    (List.range keyboardCommandBufferLength).map fun i : Nat => s.prevKeyboardCommandBuffer i)

/-- The lines are exchanged, and the cursor is at the end. -/
structure Swapped (s s' : LineEditor) : Prop where
  place : s'.place = .character
  cursor : s'.cursorEndOffset = 0
  current : s'.current = s.previous
  previous : s'.previous = s.current

theorem run_upKey (hplace : s.place = .character) :
    ∃ s', s.run returns upKey = some s' ∧ s.Swapped s' := by
  refine ⟨{ s.arrowUp with place := .character }, run_escapeCode hplace _ _, rfl, rfl, ?_, ?_⟩
  · simp only [current, previous, CommandBuffer.first, arrowUp, rewriteCommandLine,
      CommandBuffer.use, CommandBuffer.overwrite, Prod.mk.injEq, true_and]
    refine List.map_congr_left fun i hi => ?_
    rw [List.mem_range] at hi
    exact if_pos ⟨Int.natCast_nonneg i, Int.ofNat_lt.mpr hi⟩
  · simp only [current, previous, CommandBuffer.first, arrowUp, rewriteCommandLine, Prod.mk.injEq,
      true_and]
    refine List.map_congr_left fun i hi => ?_
    rw [List.mem_range] at hi
    exact if_pos ⟨Int.natCast_nonneg i, Int.ofNat_lt.mpr hi⟩

/-- Editing a line is editing a text with a cursor in it. The arrow up exchanges the line with the
previous one, and the second time exchanges them back. -/
theorem line_editor_zipper (hplace : s.place = .character)
    (hcursor : s.cursorEndOffset.toNat ≤ s.keyboardCommandLength.toNat)
    (returns : List U8 → Bool) :
    (∀ keys : List LineKey,
      (∀ pre, pre <+: keys → ∀ s', s.run returns (pre.flatMap LineKey.bytes) = some s' →
        s'.keyboardCommandLength.toNat ≤ keyboardCommandBufferLength) →
      ∃ s', s.run returns (keys.flatMap LineKey.bytes) = some s' ∧
        s'.Represents (keys.foldl LineKey.edit s.zipper)) ∧
    (∃ s', s.run returns upKey = some s' ∧ s.Swapped s') ∧
    ∃ s', s.run returns (upKey ++ upKey) = some s' ∧ s'.cursorEndOffset = 0 ∧
      s'.current = s.current ∧ s'.previous = s.previous := by
  refine ⟨fun keys => (represents_zipper hplace hcursor).edits keys, run_upKey hplace, ?_⟩
  obtain ⟨s₁, hrun₁, h₁⟩ : ∃ s₁, s.run returns upKey = some s₁ ∧ s.Swapped s₁ :=
    run_upKey hplace
  obtain ⟨s₂, hrun₂, h₂⟩ : ∃ s₂, s₁.run returns upKey = some s₂ ∧ s₁.Swapped s₂ :=
    run_upKey h₁.place
  refine ⟨s₂, ?_, h₂.cursor, h₂.current.trans h₁.previous, h₂.previous.trans h₁.current⟩
  rw [run_append, hrun₁]
  exact hrun₂

/-- `a`, `c`, the arrow to the left, and `b` between them. -/
theorem line_editor_zipper_insert : ∃ s', start.run (fun _ => true)
    [0x61, 0x63, 0x1B, 0x5B, 0x44, 0x62] = some s' ∧ s'.Represents ⟨[0x61, 0x62], [0x63]⟩ := by
  have hkeys := (line_editor_zipper (s := start) rfl (Nat.le_refl 0) (fun _ => true)).1
    [.symbol 0x61 (by decide), .symbol 0x63 (by decide), .left, .symbol 0x62 (by decide)]
  refine hkeys fun pre hpre s' hs' => ?_
  have hall : ∀ l ∈ ([.symbol 0x61 (by decide), .symbol 0x63 (by decide), .left,
      .symbol 0x62 (by decide)] : List LineKey).inits,
      (start.run (fun _ => true) (l.flatMap LineKey.bytes)).all
        (fun s => s.keyboardCommandLength.toNat ≤ 400) = true := by
    decide +kernel
  have hlast := hall pre ((List.mem_inits pre _).mpr hpre)
  rw [hs'] at hlast
  exact of_decide_eq_true hlast

end LineEditor

end Persistos
