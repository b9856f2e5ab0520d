import Persistos.ShellParser
import Persistos.Theory.TextZipper

/-! The interactive loop of the shell, which edits a line of at most 400 bytes in place. An index
outside of the buffer is a place of its own. -/

namespace Persistos

open Theory

def escapeCharacter : U8 := 0x1B
def eraseCharacter : U8 := 0xFF
def openBracket : U8 := 0x5B

def keyboardCommandBufferLength : Nat := 400

/-- The array `keyboard_command_buffer` and the indexes that it has been used with. -/
structure CommandBuffer where
  bytes : Int → U8
  indices : List Int

namespace CommandBuffer

def set (b : CommandBuffer) (i : Int) (c : U8) : CommandBuffer :=
  ⟨Function.update b.bytes i c, b.indices ++ [i]⟩

/-- The assignments `buffer[dest] = buffer[src]` in turn. -/
def move (b : CommandBuffer) (moves : List (Int × Int)) : CommandBuffer :=
  ⟨moveItems moves b.bytes, b.indices ++ moves.flatMap fun m => [m.2, m.1]⟩

/-- The first `n` bytes are read. -/
def use (b : CommandBuffer) (n : Nat) : CommandBuffer :=
  { b with indices := b.indices ++ (List.range n).map Int.ofNat }

/-- `memcpy` or `memset` of the whole array. -/
def overwrite (b : CommandBuffer) (bytes : Int → U8) : CommandBuffer :=
  ⟨fun i => if 0 ≤ i ∧ i < keyboardCommandBufferLength then bytes i else b.bytes i,
    b.indices ++ (List.range keyboardCommandBufferLength).map Int.ofNat⟩

def first (b : CommandBuffer) (n : Nat) : List U8 := (List.range n).map fun i : Nat => b.bytes i

end CommandBuffer

/-- The read that the loop waits in: of a character, or of `arrow_code`, of which one byte may
have come. -/
inductive EditorPlace where
  | character
  | arrowCode (first : Option U8)

/-- The variables of the loop, and what it has written to the terminal. -/
structure LineEditor where
  place : EditorPlace
  cursorEndOffset : U16
  keyboardCommandLength : U16
  keyboardCommandBuffer : CommandBuffer
  prevKeyboardCommandLength : U16
  prevKeyboardCommandBuffer : Int → U8
  output : List U8

namespace LineEditor

def commandPrompt : List U8 := [0x23, space]

/-- At the first prompt. Both arrays are cleared with `memset`. -/
def start : LineEditor where
  place := .character
  cursorEndOffset := 0
  keyboardCommandLength := 0
  keyboardCommandBuffer := CommandBuffer.overwrite ⟨fun _ => 0, []⟩ fun _ => 0
  prevKeyboardCommandLength := 0
  prevKeyboardCommandBuffer := fun _ => 0
  output := commandPrompt

/-- The bytes of the line that is edited. -/
def line (s : LineEditor) : List U8 :=
  s.keyboardCommandBuffer.first s.keyboardCommandLength.toNat

def rewriteCommandLine (s : LineEditor) : LineEditor :=
  { s with
    keyboardCommandBuffer := s.keyboardCommandBuffer.use s.keyboardCommandLength.toNat
    output := s.output ++ [0x0D, escapeCharacter, openBracket, 0x4B] ++ commandPrompt ++ s.line ++
      (List.replicate s.cursorEndOffset.toNat [escapeCharacter, openBracket, 0x44]).flatten }

def arrowUp (s : LineEditor) : LineEditor :=
  rewriteCommandLine { s with
    cursorEndOffset := 0
    keyboardCommandLength := s.prevKeyboardCommandLength
    keyboardCommandBuffer := (s.keyboardCommandBuffer.use keyboardCommandBufferLength).overwrite
      s.prevKeyboardCommandBuffer
    prevKeyboardCommandLength := s.keyboardCommandLength
    prevKeyboardCommandBuffer := fun i =>
      if 0 ≤ i ∧ i < keyboardCommandBufferLength then s.keyboardCommandBuffer.bytes i
      else s.prevKeyboardCommandBuffer i }

def arrowRight (s : LineEditor) : LineEditor :=
  if s.cursorEndOffset > 0 then
    rewriteCommandLine { s with cursorEndOffset := s.cursorEndOffset - 1 }
  else s

def arrowLeft (s : LineEditor) : LineEditor :=
  if s.cursorEndOffset < s.keyboardCommandLength then
    rewriteCommandLine { s with cursorEndOffset := s.cursorEndOffset + 1 }
  else s

/-- `memcmp` of `arrow_code` with the four arrows. -/
def escapeCode (s : LineEditor) (first second : U8) : LineEditor :=
  if first = openBracket ∧ second = 0x41 then s.arrowUp
  else if first = openBracket ∧ second = 0x42 then s
  else if first = openBracket ∧ second = 0x43 then s.arrowRight
  else if first = openBracket ∧ second = 0x44 then s.arrowLeft
  else s

/-- The loop that moves the bytes behind the erased one. -/
def eraseMoves (keyboardCommandLength cursorEndOffset : U16) : List (Int × Int) :=
  let first := keyboardCommandLength - cursorEndOffset
  (List.range (keyboardCommandLength.toNat - first.toNat)).map fun i : Nat =>
    ((first.toNat : Int) + i, (first.toNat : Int) + i + 1)

def erase (s : LineEditor) : LineEditor :=
  if s.keyboardCommandLength > s.cursorEndOffset then
    let keyboardCommandLength := s.keyboardCommandLength - 1
    rewriteCommandLine { s with
      keyboardCommandLength
      keyboardCommandBuffer :=
        s.keyboardCommandBuffer.move (eraseMoves keyboardCommandLength s.cursorEndOffset) }
  else s.rewriteCommandLine

/-- What Enter does when `exec_shell_line` returns. -/
def enter (s : LineEditor) : LineEditor :=
  { s with
    keyboardCommandLength := 0
    keyboardCommandBuffer :=
      ((s.keyboardCommandBuffer.use keyboardCommandBufferLength).use
        s.keyboardCommandLength.toNat).overwrite fun _ => 0
    prevKeyboardCommandLength := s.keyboardCommandLength
    prevKeyboardCommandBuffer := fun i =>
      if 0 ≤ i ∧ i < keyboardCommandBufferLength then s.keyboardCommandBuffer.bytes i
      else s.prevKeyboardCommandBuffer i
    output := s.output ++ [newline] ++ commandPrompt }

/-- The loop that makes room for a symbol. -/
def insertMoves (keyboardCommandLength cursorEndOffset : U16) : List (Int × Int) :=
  (List.range cursorEndOffset.toNat).map fun i : Nat =>
    ((keyboardCommandLength.toNat : Int) - i - 1, (keyboardCommandLength.toNat : Int) - i - 2)

def insertSymbol (s : LineEditor) (c : U8) : LineEditor :=
  let keyboardCommandLength := s.keyboardCommandLength + 1
  rewriteCommandLine { s with
    keyboardCommandLength
    keyboardCommandBuffer :=
      (s.keyboardCommandBuffer.move (insertMoves keyboardCommandLength s.cursorEndOffset)).set
        ((keyboardCommandLength.toNat : Int) - s.cursorEndOffset.toNat - 1) c }

def appendSymbol (s : LineEditor) (c : U8) : LineEditor :=
  { s with
    keyboardCommandLength := s.keyboardCommandLength + 1
    keyboardCommandBuffer := s.keyboardCommandBuffer.set s.keyboardCommandLength.toNat c
    output := s.output ++ [c] }

/-- What the loop does with a character that is not the beginning of an escape code. -/
def character (s : LineEditor) (c : U8) : LineEditor :=
  if c = eraseCharacter then s.erase
  else if c = newline then s.enter
  else if s.cursorEndOffset > 0 then s.insertSymbol c
  else s.appendSymbol c

section

-- Whether `exec_shell_line` comes back from a line. It may end the shell.
variable (returns : List U8 → Bool)

/-- The loop with the next byte that comes. -/
def step (s : LineEditor) (c : U8) : Option LineEditor :=
  match s.place with
  | .arrowCode none => some { s with place := .arrowCode (some c) }
  | .arrowCode (some first) => some { s.escapeCode first c with place := .character }
  | .character =>
    if c = escapeCharacter then some { s with place := .arrowCode none }
    else if c = newline ∧ ¬returns s.line then none
    else some (s.character c)

def run (s : LineEditor) (input : List U8) : Option LineEditor := input.foldlM (step returns) s

end

/-- The counters are in order, and every index has been one of the array. -/
structure Bounded (s : LineEditor) : Prop where
  cursor : s.cursorEndOffset.toNat ≤ s.keyboardCommandLength.toNat
  length : s.keyboardCommandLength.toNat ≤ keyboardCommandBufferLength
  indices : ∀ i ∈ s.keyboardCommandBuffer.indices, 0 ≤ i ∧ i < keyboardCommandBufferLength

/-- Enter comes only with the cursor at the end, and a symbol only when there is room. -/
def Fits (s : LineEditor) (c : U8) : Prop :=
  match s.place with
  | .arrowCode _ => True
  | .character => c = escapeCharacter ∨ c = eraseCharacter ∨
    c = newline ∧ s.cursorEndOffset = 0 ∨
    c ≠ newline ∧ s.keyboardCommandLength.toNat < keyboardCommandBufferLength

structure Inv (s : LineEditor) : Prop extends Bounded s where
  prev : s.prevKeyboardCommandLength.toNat ≤ keyboardCommandBufferLength

variable {s s' : LineEditor} {returns : List U8 → Bool} {c : U8}

theorem mem_range_map {n : Nat} {i : Int} (h : i ∈ (List.range n).map Int.ofNat) :
    0 ≤ i ∧ i < n := by
  obtain ⟨k, hk, rfl⟩ := List.mem_map.mp h
  rw [List.mem_range] at hk
  exact ⟨Int.natCast_nonneg k, Int.ofNat_lt.mpr hk⟩

theorem inBounds_append {l : List Int} {n : Nat}
    (h : ∀ i ∈ l, 0 ≤ i ∧ i < keyboardCommandBufferLength) (hn : n ≤ keyboardCommandBufferLength) :
    ∀ i ∈ l ++ (List.range n).map Int.ofNat, 0 ≤ i ∧ i < keyboardCommandBufferLength := by
  intro i hi
  rcases List.mem_append.mp hi with hi | hi
  · exact h i hi
  · have hr := mem_range_map hi
    omega

theorem start_inv : Inv start where
  cursor := Nat.le_refl _
  length := Nat.zero_le _
  indices := inBounds_append (l := []) nofun (Nat.le_refl _)
  prev := Nat.zero_le _

namespace Inv

theorem rewriteCommandLine (h : s.Inv) : s.rewriteCommandLine.Inv :=
  ⟨⟨h.cursor, h.length, inBounds_append h.indices h.length⟩, h.prev⟩

theorem arrowUp (h : s.Inv) : s.arrowUp.Inv := by
  refine rewriteCommandLine ⟨⟨Nat.zero_le _, h.prev, ?_⟩, h.length⟩
  exact inBounds_append (inBounds_append h.indices (Nat.le_refl _)) (Nat.le_refl _)

theorem arrowRight (h : s.Inv) : s.arrowRight.Inv := by
  rw [LineEditor.arrowRight]
  split
  · refine rewriteCommandLine ⟨⟨?_, h.length, h.indices⟩, h.prev⟩
    have hcursor := h.cursor
    simp only
    bv_omega
  · exact h

theorem arrowLeft (h : s.Inv) : s.arrowLeft.Inv := by
  rw [LineEditor.arrowLeft]
  split
  · refine rewriteCommandLine ⟨⟨?_, h.length, h.indices⟩, h.prev⟩
    simp only
    bv_omega
  · exact h

theorem escapeCode (h : s.Inv) (first second : U8) : (s.escapeCode first second).Inv := by
  rw [LineEditor.escapeCode]
  split
  · exact h.arrowUp
  split
  · exact h
  split
  · exact h.arrowRight
  split
  · exact h.arrowLeft
  · exact h

theorem erase (h : s.Inv) : s.erase.Inv := by
  rw [LineEditor.erase]
  have hcursor := h.cursor
  have hlength := h.length
  split
  · next hgt =>
    have hone : (s.keyboardCommandLength - 1).toNat = s.keyboardCommandLength.toNat - 1 := by
      bv_omega
    have hsub : (s.keyboardCommandLength - 1 - s.cursorEndOffset).toNat =
        s.keyboardCommandLength.toNat - 1 - s.cursorEndOffset.toNat := by bv_omega
    have hlt : s.cursorEndOffset.toNat < s.keyboardCommandLength.toNat := BitVec.lt_def.mp hgt
    refine rewriteCommandLine ⟨⟨?_, ?_, ?_⟩, h.prev⟩
    · simp only [hone]
      omega
    · simp only [hone]
      omega
    · intro i hi
      rcases List.mem_append.mp hi with hi | hi
      · exact h.indices i hi
      · obtain ⟨move, hmove, hi⟩ := List.mem_flatMap.mp hi
        obtain ⟨k, hk, rfl⟩ := List.mem_map.mp hmove
        rw [List.mem_range, hone, hsub] at hk
        simp only [hsub, List.mem_cons, List.not_mem_nil, or_false] at hi
        omega
  · exact h.rewriteCommandLine

theorem enter (h : s.Inv) (hc : s.cursorEndOffset = 0) : s.enter.Inv := by
  refine ⟨⟨?_, Nat.zero_le _, ?_⟩, h.length⟩
  · simp [LineEditor.enter, hc]
  · exact inBounds_append (inBounds_append (inBounds_append h.indices (Nat.le_refl _)) h.length)
      (Nat.le_refl _)

theorem insertSymbol (h : s.Inv) (hroom : s.keyboardCommandLength.toNat < keyboardCommandBufferLength)
    (c : U8) : (s.insertSymbol c).Inv := by
  have hcursor := h.cursor
  rw [keyboardCommandBufferLength] at hroom
  have hone : (s.keyboardCommandLength + 1).toNat = s.keyboardCommandLength.toNat + 1 := by bv_omega
  refine rewriteCommandLine ⟨⟨?_, ?_, ?_⟩, h.prev⟩
  · simp only [hone]
    omega
  · simp only [hone, keyboardCommandBufferLength]
    omega
  · intro i hi
    rw [keyboardCommandBufferLength]
    rcases List.mem_append.mp hi with hi | hi
    · rcases List.mem_append.mp hi with hi | hi
      · exact h.indices i hi
      · obtain ⟨move, hmove, hi⟩ := List.mem_flatMap.mp hi
        obtain ⟨k, hk, rfl⟩ := List.mem_map.mp hmove
        rw [List.mem_range] at hk
        simp only [hone, List.mem_cons, List.not_mem_nil, or_false] at hi
        omega
    · rw [List.mem_singleton, hone] at hi
      omega

theorem appendSymbol (h : s.Inv) (hroom : s.keyboardCommandLength.toNat < keyboardCommandBufferLength)
    (hc : s.cursorEndOffset = 0) (c : U8) : (s.appendSymbol c).Inv := by
  rw [keyboardCommandBufferLength] at hroom
  have hone : (s.keyboardCommandLength + 1).toNat = s.keyboardCommandLength.toNat + 1 := by bv_omega
  refine ⟨⟨?_, ?_, ?_⟩, h.prev⟩
  · simp [LineEditor.appendSymbol, hc]
  · simp only [LineEditor.appendSymbol, hone, keyboardCommandBufferLength]
    omega
  · intro i hi
    rw [keyboardCommandBufferLength]
    rcases List.mem_append.mp hi with hi | hi
    · exact h.indices i hi
    · rw [List.mem_singleton] at hi
      omega

theorem character (h : s.Inv) (hplace : s.place = .character) (hc : c ≠ escapeCharacter)
    (hfits : s.Fits c) : (s.character c).Inv := by
  simp only [Fits, hplace] at hfits
  rw [LineEditor.character]
  split
  · exact h.erase
  next herase =>
  split
  · next hnewline =>
    rcases hfits with hescape | herase' | ⟨-, hcursor⟩ | ⟨hne, -⟩
    · exact absurd hescape hc
    · exact absurd herase' herase
    · exact h.enter hcursor
    · exact absurd hnewline hne
  next hnewline =>
  have hroom : s.keyboardCommandLength.toNat < keyboardCommandBufferLength := by
    simpa [hc, herase, hnewline] using hfits
  split
  · exact h.insertSymbol hroom c
  · next hgt =>
    refine h.appendSymbol hroom ?_ c
    bv_omega

theorem step (h : s.Inv) (hfits : s.Fits c) (hs : s.step returns c = some s') : s'.Inv := by
  rw [LineEditor.step] at hs
  split at hs
  · cases hs
    exact ⟨⟨h.cursor, h.length, h.indices⟩, h.prev⟩
  · next first _ =>
    cases hs
    have hcode := h.escapeCode first c
    exact ⟨⟨hcode.cursor, hcode.length, hcode.indices⟩, hcode.prev⟩
  · next hplace =>
    split at hs
    · cases hs
      exact ⟨⟨h.cursor, h.length, h.indices⟩, h.prev⟩
    · next hc =>
      split at hs
      · cases hs
      · cases hs
        exact h.character hplace hc hfits

end Inv

/-- A step that does not fit breaks the bounds at once. -/
theorem Bounded.fits (h : s.Bounded) (h' : s'.Bounded) (hs : s.step returns c = some s') :
    s.Fits c := by
  rw [Fits]
  split
  · trivial
  next hplace =>
  by_contra hnot
  simp only [not_or, not_and, Nat.not_lt] at hnot
  obtain ⟨hescape, herase, hnewline, hfull⟩ := hnot
  simp only [step, hplace, if_neg hescape] at hs
  split at hs
  · cases hs
  cases hs
  have hcursor := h'.cursor
  have hlength := h'.length
  rw [keyboardCommandBufferLength] at hlength hfull
  simp only [character, if_neg herase] at hcursor hlength
  by_cases hn : c = newline
  · simp only [hn, if_true, enter] at hcursor
    apply hnewline hn
    bv_omega
  · have hle := h.length
    have hfull' := hfull hn
    rw [keyboardCommandBufferLength] at hle
    have hone : (s.keyboardCommandLength + 1).toNat = s.keyboardCommandLength.toNat + 1 := by
      bv_omega
    simp only [if_neg hn] at hlength
    split at hlength
    · simp only [insertSymbol, rewriteCommandLine, hone] at hlength
      omega
    · simp only [appendSymbol, hone] at hlength
      omega

/-- The counters and the indexes stay in their bounds in every state of a run if and only if every
byte fits that comes. -/
theorem line_editor_bounded (returns : List U8 → Bool) (input : List U8) :
    (∀ pre, pre <+: input → ∀ s, start.run returns pre = some s → s.Bounded) ↔
      ∀ pre c, pre ++ [c] <+: input → ∀ s s', start.run returns pre = some s →
        s.step returns c = some s' → s.Fits c := by
  have hsplit : ∀ pre c s', start.run returns (pre ++ [c]) = some s' ↔
      ∃ s, start.run returns pre = some s ∧ s.step returns c = some s' := by
    intro pre c s'
    simp [run, List.foldlM_append, Option.bind_eq_some_iff]
  constructor
  · intro h pre c hpre s s' hs hs'
    have hbefore := h pre ((List.prefix_append pre [c]).trans hpre) s hs
    exact hbefore.fits (h _ hpre s' ((hsplit pre c s').mpr ⟨s, hs, hs'⟩)) hs'
  · intro h
    have hinv : ∀ pre, pre <+: input → ∀ s, start.run returns pre = some s → s.Inv := by
      intro pre
      induction pre using List.reverseRecOn with
      | nil =>
        intro _ s hs
        cases hs
        exact start_inv
      | append_singleton pre c ih =>
        intro hpre s' hs'
        obtain ⟨s, hs, hstep⟩ := (hsplit pre c s').mp hs'
        have hbefore := ih ((List.prefix_append pre [c]).trans hpre) s hs
        exact hbefore.step (h pre c hpre s s' hs hstep) hstep
    exact fun pre hpre s hs => (hinv pre hpre s hs).toBounded

/-- After `ab`, the arrow to the left and Enter, the cursor is beyond the end of the empty line,
and the next symbol is moved from the place before the array. -/
theorem line_editor_enter_inside :
    (start.run (fun _ => true) [0x61, 0x62, 0x1B, 0x5B, 0x44, 0x0A, 0x63]).map (fun s =>
      (s.cursorEndOffset, s.keyboardCommandLength,
        decide (-1 ∈ s.keyboardCommandBuffer.indices))) = some (1, 1, true) ∧
    ¬∀ pre, pre <+: [0x61, 0x62, 0x1B, 0x5B, 0x44, 0x0A, 0x63] → ∀ s,
      start.run (fun _ => true) pre = some s → s.Bounded := by
  have hrun : (start.run (fun _ => true) [0x61, 0x62, 0x1B, 0x5B, 0x44, 0x0A, 0x63]).map (fun s =>
      (s.cursorEndOffset, s.keyboardCommandLength,
        decide (-1 ∈ s.keyboardCommandBuffer.indices))) = some (1, 1, true) := by
    decide +kernel
  refine ⟨hrun, fun h => ?_⟩
  obtain ⟨s, hs, heq⟩ := Option.map_eq_some_iff.mp hrun
  have hbounded := h _ (List.prefix_refl _) s hs
  have hused : -1 ∈ s.keyboardCommandBuffer.indices :=
    of_decide_eq_true (congrArg (·.2.2) heq)
  have hin := hbounded.indices (-1) hused
  omega

end LineEditor

end Persistos
