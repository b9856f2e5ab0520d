import Persistos.Console

/-! Lines that are typed on the three terminals in any order, with the keys that make their
characters. -/

namespace Persistos

open Theory Console

/-- The scancodes of the key of a character, pressed with Shift where that is needed. -/
def keystroke (c : U8) : List U8 :=
  let plain := BitVec.ofNat 8 (keymapNoModifiers.idxOf ⟨kbdAscii, c⟩)
  let shifted := BitVec.ofNat 8 (keymapShift.idxOf ⟨kbdAscii, c⟩)
  if plain.toNat < keymapNoModifiers.length then [plain, plain ||| 0x80]
  else [0x2A, shifted, shifted ||| 0x80, 0xAA]

/-- The scancode of the digit that shows a terminal. -/
def digit : Terminal → U8
  | .tty1 => 0x02
  | .tty2 => 0x03
  | .tty3 => 0x04

/-- Ctrl with the digit, the line, and Enter. -/
def session (s : Terminal × List U8) : List U8 :=
  [0x1D, digit s.1, digit s.1 ||| 0x80, 0x9D] ++ (s.2 ++ [newline]).flatMap keystroke

namespace Desk

variable {returns : List U8 → Bool} {u v : Terminal} {lines : Terminal → EditedLine} {c : U8}
  {shift : Bool}

/-- A key that makes a character. -/
def Makes (shift : Bool) (code c : U8) : Prop :=
  (if shift then keymapShift else keymapNoModifiers).getD code.toNat ⟨0, 0⟩ = ⟨kbdAscii, c⟩ ∧
    c ≠ 0 ∧ 0x80 < code ||| 0x80 ∧ code ||| 0x80 ≠ 0x9D ∧ code ||| 0x80 ≠ 0xAA

instance (shift : Bool) (code c : U8) : Decidable (Makes shift code c) :=
  inferInstanceAs (Decidable (_ ∧ _))

theorem keystroke_cases : ∀ c : U8, Typeable c ∨ c = newline →
    (∃ code, keystroke c = [code, code ||| 0x80] ∧ Makes false code c) ∨
      ∃ code, keystroke c = [0x2A, code, code ||| 0x80, 0xAA] ∧ Makes true code c := by
  have hplain : ∀ c : U8, Typeable c ∨ c = newline →
      (BitVec.ofNat 8 (keymapNoModifiers.idxOf ⟨kbdAscii, c⟩)).toNat < keymapNoModifiers.length →
        Makes false (BitVec.ofNat 8 (keymapNoModifiers.idxOf ⟨kbdAscii, c⟩)) c := by
    decide +kernel
  have hshifted : ∀ c : U8, Typeable c ∨ c = newline →
      ¬(BitVec.ofNat 8 (keymapNoModifiers.idxOf ⟨kbdAscii, c⟩)).toNat < keymapNoModifiers.length →
        Makes true (BitVec.ofNat 8 (keymapShift.idxOf ⟨kbdAscii, c⟩)) c := by
    decide +kernel
  intro c hc
  rw [keystroke]
  split
  · next hlt => exact .inl ⟨_, rfl, hplain c hc hlt⟩
  · next hge => exact .inr ⟨_, rfl, hshifted c hc hge⟩

theorem run_cons (d : Desk) (code : U8) (codes : List U8) :
    d.run (code :: codes) = (d.scancode code).run codes := rfl

theorem run_append (d : Desk) (a b : List U8) : d.run (a ++ b) = (d.run a).run b :=
  List.foldl_append

theorem takes_cons_none {d : Desk} {code : U8} {codes : List U8} (h : d.key code = none) :
    d.Takes returns (code :: codes) ↔ (d.scancode code).Takes returns codes := by
  rw [Takes, h]
  exact and_iff_right fun _ he => absurd he (Option.not_mem_none _)

/-- The desk with no modifier pressed, or Shift. -/
theorem key_makes {code : U8} (h : Makes shift code c) :
    (Desk.mk false shift v lines).key code = some ⟨kbdAscii, c⟩ := by
  obtain ⟨hentry, hne, -⟩ := h
  have hkeycap : (Desk.mk false shift v lines).keycap code = ⟨kbdAscii, c⟩ := hentry
  rw [key, hkeycap, if_neg]
  rintro (⟨hctrl, -⟩ | hzero)
  · exact absurd hctrl Bool.false_ne_true
  · exact hne hzero

theorem scancode_up {d : Desk} {code : U8} (h : 0x80 < code) (hctrl : code ≠ 0x9D)
    (hshift : code ≠ 0xAA) : d.key code = none ∧ d.scancode code = d := by
  have hdown : code ≠ 0x1D ∧ code ≠ 0x2A := by
    constructor <;> rintro rfl <;> exact absurd h (by decide)
  have hkey := key_eq_none (d.keycap_silent (.inr h))
  refine ⟨hkey, ?_⟩
  rw [scancode, hkey, shownBy_silent code (.inr h)]
  simp only [if_neg hdown.1, if_neg hctrl, if_neg hdown.2, if_neg hshift, Option.getD_none,
    ite_self]

/-- A key that is pressed and let go. -/
theorem run_makes (returns : List U8 → Bool) (v : Terminal)
    (lines : Terminal → EditedLine) {code : U8} (h : Makes shift code c) :
    (Desk.mk false shift v lines).run [code, code ||| 0x80] =
      ⟨false, shift, v, Function.update lines v ((lines v).press ⟨kbdAscii, c⟩)⟩ ∧
    ((Desk.mk false shift v lines).Takes returns [code, code ||| 0x80] ↔
      (lines v).Takes returns ⟨kbdAscii, c⟩) := by
  have hkey : (Desk.mk false shift v lines).key code = some ⟨kbdAscii, c⟩ := key_makes h
  obtain ⟨-, -, hup, hctrl, hshift⟩ := h
  have hpress : (Desk.mk false shift v lines).scancode code =
      ⟨false, shift, v, Function.update lines v ((lines v).press ⟨kbdAscii, c⟩)⟩ := by
    rw [scancode, hkey]
  constructor
  · rw [run, List.foldl_cons, List.foldl_cons, List.foldl_nil, hpress]
    exact (scancode_up hup hctrl hshift).2
  · rw [Takes, Takes, hkey, hpress, (scancode_up hup hctrl hshift).1]
    simp [Takes]

theorem shift_down (v : Terminal) (lines : Terminal → EditedLine) :
    (Desk.mk false false v lines).key 0x2A = none ∧
      (Desk.mk false false v lines).scancode 0x2A = ⟨false, true, v, lines⟩ := by
  have hkey := key_eq_none (keycap_silent (Desk.mk false false v lines) (c := 0x2A) (by decide))
  refine ⟨hkey, ?_⟩
  rw [scancode, hkey]
  rfl

theorem shift_up (v : Terminal) (lines : Terminal → EditedLine) :
    (Desk.mk false true v lines).key 0xAA = none ∧
      (Desk.mk false true v lines).scancode 0xAA = ⟨false, false, v, lines⟩ := by
  have hkey := key_eq_none (keycap_silent (Desk.mk false true v lines) (c := 0xAA) (by decide))
  refine ⟨hkey, ?_⟩
  rw [scancode, hkey]
  rfl

theorem run_keystroke (returns : List U8 → Bool) (v : Terminal)
    (lines : Terminal → EditedLine) (hc : Typeable c ∨ c = newline) :
    (Desk.mk false false v lines).run (keystroke c) =
      ⟨false, false, v, Function.update lines v ((lines v).press ⟨kbdAscii, c⟩)⟩ ∧
    ((Desk.mk false false v lines).Takes returns (keystroke c) ↔
      (lines v).Takes returns ⟨kbdAscii, c⟩) := by
  rcases keystroke_cases c hc with ⟨code, hcodes, hmakes⟩ | ⟨code, hcodes, hmakes⟩
  · rw [hcodes]
    exact run_makes returns v lines hmakes
  · have hmade := run_makes returns v lines hmakes
    obtain ⟨hdown, hdown'⟩ := shift_down v lines
    obtain ⟨hup, hup'⟩ :=
      shift_up v (Function.update lines v ((lines v).press ⟨kbdAscii, c⟩))
    have hsplit : ([code, code ||| 0x80, 0xAA] : List U8) = [code, code ||| 0x80] ++ [0xAA] := rfl
    rw [hcodes, run_cons, takes_cons_none hdown, hdown', hsplit, run_append, takes_append, hmade.1,
      run_cons, takes_cons_none hup, hup']
    exact ⟨rfl, (and_iff_left trivial).trans hmade.2⟩

/-- Text goes in at the end of a line. -/
theorem run_text (returns : List U8 → Bool) (v : Terminal)
    (lines : Terminal → EditedLine) {w t : List U8} (hw : ∀ c ∈ w, Typeable c)
    (ht : (lines v).zipper = ⟨t, []⟩)
    (hlength : t.length + w.length ≤ keyboardCommandBufferLength) :
    (Desk.mk false false v lines).run (w.flatMap keystroke) =
      ⟨false, false, v, Function.update lines v { lines v with zipper := ⟨t ++ w, []⟩ }⟩ ∧
    (Desk.mk false false v lines).Takes returns (w.flatMap keystroke) := by
  induction w generalizing t lines with
  | nil =>
    refine ⟨?_, trivial⟩
    rw [List.append_nil, ← ht, Function.update_eq_self]
    rfl
  | cons c w ih =>
    have hc := hw c (List.mem_cons_self)
    obtain ⟨hrun, htakes⟩ := run_keystroke returns v lines (.inl hc)
    have hnewline := (typeable_plain c hc).2.2
    have hpress : (lines v).press ⟨kbdAscii, c⟩ = { lines v with zipper := ⟨t ++ [c], []⟩ } := by
      rw [EditedLine.press, if_pos rfl, if_neg hnewline, ht]
      rfl
    rw [List.length_cons] at hlength
    have htake : (lines v).Takes returns ⟨kbdAscii, c⟩ := by
      rw [EditedLine.Takes, if_pos rfl, if_neg hnewline, ht, TextZipper.text, List.append_nil]
      change t.length < _
      omega
    obtain ⟨hrun', htakes'⟩ := ih
      (Function.update lines v { lines v with zipper := ⟨t ++ [c], []⟩ }) (t := t ++ [c])
      (fun c' hc' => hw c' (List.mem_cons_of_mem _ hc')) (by rw [Function.update_self])
      (by rw [List.length_append, List.length_singleton]; omega)
    rw [List.flatMap_cons, run_append, takes_append, hrun, hpress]
    refine ⟨?_, htakes.mpr htake, htakes'⟩
    rw [hrun', Function.update_self, Function.update_idem, List.append_assoc, List.singleton_append]

/-- Ctrl with a digit. -/
theorem run_show (returns : List U8 → Bool) (u v : Terminal) (lines : Terminal → EditedLine) :
    (Desk.mk false false u lines).run [0x1D, digit v, digit v ||| 0x80, 0x9D] =
      ⟨false, false, v, lines⟩ ∧
    (Desk.mk false false u lines).Takes returns [0x1D, digit v, digit v ||| 0x80, 0x9D] := by
  have hdown : (Desk.mk false false u lines).key 0x1D = none ∧
      (Desk.mk false false u lines).scancode 0x1D = ⟨true, false, u, lines⟩ := by
    have hkey := key_eq_none (keycap_silent (Desk.mk false false u lines) (c := 0x1D) (by decide))
    refine ⟨hkey, ?_⟩
    rw [scancode, hkey]
    rfl
  have hdigit : (Desk.mk true false u lines).key (digit v) = none ∧
      (Desk.mk true false u lines).scancode (digit v) = ⟨true, false, v, lines⟩ := by
    have hkey : (Desk.mk true false u lines).key (digit v) = none := by
      rw [key, if_pos (.inl ⟨rfl, by cases v <;> rfl⟩)]
    refine ⟨hkey, ?_⟩
    rw [scancode, hkey]
    cases v <;> rfl
  obtain ⟨hrelease, hrelease'⟩ : (Desk.mk true false v lines).key (digit v ||| 0x80) = none ∧
      (Desk.mk true false v lines).scancode (digit v ||| 0x80) = ⟨true, false, v, lines⟩ := by
    apply scancode_up <;> cases v <;> decide
  have hup : (Desk.mk true false v lines).key 0x9D = none ∧
      (Desk.mk true false v lines).scancode 0x9D = ⟨false, false, v, lines⟩ := by
    have hkey := key_eq_none (keycap_silent (Desk.mk true false v lines) (c := 0x9D) (by decide))
    refine ⟨hkey, ?_⟩
    rw [scancode, hkey]
    rfl
  rw [run_cons, run_cons, run_cons, run_cons, takes_cons_none hdown.1, hdown.2,
    takes_cons_none hdigit.1, hdigit.2, takes_cons_none hrelease, hrelease',
    takes_cons_none hup.1, hup.2]
  exact ⟨rfl, trivial⟩

/-- A line that is typed and entered on a terminal whose line was empty. -/
theorem run_session {w : List U8} (hw : ∀ c ∈ w, Typeable c)
    (hlength : w.length ≤ keyboardCommandBufferLength) (hreturns : returns w = true)
    (hempty : (lines v).zipper = ⟨[], []⟩) :
    (Desk.mk false false u lines).run (session (v, w)) = ⟨false, false, v,
      Function.update lines v ⟨⟨[], []⟩, w, (lines v).entered ++ [w]⟩⟩ ∧
    (Desk.mk false false u lines).Takes returns (session (v, w)) := by
  obtain ⟨hshow, hshow'⟩ := run_show returns u v lines
  obtain ⟨htext, htext'⟩ := run_text returns v lines hw hempty (by simpa using hlength)
  rw [List.nil_append] at htext
  obtain ⟨henter, henter'⟩ := run_keystroke returns v
    (Function.update lines v { lines v with zipper := ⟨w, []⟩ }) (c := newline) (.inr rfl)
  have hpress : EditedLine.press { lines v with zipper := ⟨w, []⟩ } ⟨kbdAscii, newline⟩ =
      ⟨⟨[], []⟩, w, (lines v).entered ++ [w]⟩ := by
    rw [EditedLine.press, if_pos rfl, if_pos rfl, TextZipper.text, List.append_nil]
  have htake : EditedLine.Takes returns { lines v with zipper := ⟨w, []⟩ } ⟨kbdAscii, newline⟩ := by
    rw [EditedLine.Takes, if_pos rfl, if_pos rfl, TextZipper.text, List.append_nil]
    exact ⟨rfl, hreturns⟩
  rw [Function.update_self] at henter henter'
  rw [session, List.flatMap_append, List.flatMap_singleton, run_append, run_append, takes_append,
    takes_append, hshow, htext, henter, hpress, Function.update_idem]
  exact ⟨rfl, hshow', htext', henter'.mpr htake⟩

/-- A line that can be typed and that the shell comes back from. -/
structure Enterable (returns : List U8 → Bool) (w : List U8) : Prop where
  typeable : ∀ c ∈ w, Typeable c
  length : w.length ≤ keyboardCommandBufferLength
  returns : returns w = true

/-- The lines that are meant for a terminal. -/
def meantFor (v : Terminal) (sessions : List (Terminal × List U8)) : List (List U8) :=
  (sessions.filter fun s => s.1 = v).map Prod.snd

theorem run_sessions (u : Terminal) (lines : Terminal → EditedLine)
    {sessions : List (Terminal × List U8)}
    (hs : ∀ s ∈ sessions, Enterable returns s.2) (hempty : ∀ v, (lines v).zipper = ⟨[], []⟩) :
    (Desk.mk false false u lines).Takes returns (sessions.flatMap session) ∧
      ∀ v, (((Desk.mk false false u lines).run (sessions.flatMap session)).lines v).zipper =
          ⟨[], []⟩ ∧
        (((Desk.mk false false u lines).run (sessions.flatMap session)).lines v).entered =
          (lines v).entered ++ meantFor v sessions := by
  induction sessions generalizing u lines with
  | nil => exact ⟨trivial, fun v => ⟨hempty v, (List.append_nil _).symm⟩⟩
  | cons s sessions ih =>
    obtain ⟨v, w⟩ := s
    have hw := hs (v, w) List.mem_cons_self
    obtain ⟨hrun, htakes⟩ : _ ∧ (Desk.mk false false u lines).Takes returns (session (v, w)) :=
      run_session hw.typeable hw.length hw.returns (hempty v)
    obtain ⟨htakes', hall⟩ := ih v
      (Function.update lines v ⟨⟨[], []⟩, w, (lines v).entered ++ [w]⟩)
      (fun s hs' => hs s (List.mem_cons_of_mem _ hs')) fun x => by
        by_cases hx : x = v
        · rw [hx, Function.update_self]
        · rw [Function.update_of_ne hx]
          exact hempty x
    rw [List.flatMap_cons, run_append, takes_append, hrun]
    refine ⟨⟨htakes, htakes'⟩, fun x => ⟨(hall x).1, (hall x).2.trans ?_⟩⟩
    by_cases hx : x = v
    · subst hx
      rw [Function.update_self, List.append_assoc, meantFor, meantFor,
        List.filter_cons_of_pos (by simp)]
      rfl
    · rw [Function.update_of_ne hx, meantFor, meantFor,
        List.filter_cons_of_neg (by simpa using Ne.symm hx)]

end Desk

open Desk

/-- The statements with which a shell reads one character. -/
def readCharacter (v : Terminal) : List ConsoleEvent :=
  [.read v, .resume v, .next v, .next v, .next v, .next v]

end Persistos
