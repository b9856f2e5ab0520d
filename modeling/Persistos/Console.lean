import Persistos.TypedLines

/-! The console: the keyboard, three terminals and a shell on each. Scancodes come between any two
statements of the reads of the shells. -/

namespace Persistos

open Theory

/-- Someone at the keyboard, and the lines of the three shells as they are meant. -/
structure Desk where
  ctrl : Bool
  shift : Bool
  active : Terminal
  lines : Terminal → EditedLine

namespace Desk

def start : Desk := ⟨false, false, .tty1, fun _ => .start⟩

def keycap (d : Desk) (scancode : U8) : KeyboardEvent :=
  (if d.shift then keymapShift else keymapNoModifiers).getD scancode.toNat ⟨0, 0⟩

/-- The terminal that Ctrl with a digit shows. -/
def shownBy (scancode : U8) : Option Terminal :=
  if scancode = 0x02 then some .tty1
  else if scancode = 0x03 then some .tty2
  else if scancode = 0x04 then some .tty3
  else none

/-- The event that a scancode makes, if it is not one of a modifier or of Ctrl with a digit. -/
def key (d : Desk) (scancode : U8) : Option KeyboardEvent :=
  if (d.ctrl ∧ (shownBy scancode).isSome) ∨ (d.keycap scancode).symbol = 0 then none
  else some (d.keycap scancode)

def scancode (d : Desk) (scancode : U8) : Desk :=
  match d.key scancode with
  | some e => { d with lines := Function.update d.lines d.active ((d.lines d.active).press e) }
  | none => { d with
      ctrl := if scancode = 0x1D then true else if scancode = 0x9D then false else d.ctrl
      shift := if scancode = 0x2A then true else if scancode = 0xAA then false else d.shift
      active := if d.ctrl then (shownBy scancode).getD d.active else d.active }

def run (d : Desk) (scancodes : List U8) : Desk := scancodes.foldl scancode d

/-- The keys are ones that the lines take. -/
def Takes (returns : List U8 → Bool) : Desk → List U8 → Prop
  | _, [] => True
  | d, c :: scancodes => (∀ e ∈ d.key c, (d.lines d.active).Takes returns e) ∧
    Takes returns (d.scancode c) scancodes

instance decidableTakes (returns : List U8 → Bool) :
    (scancodes : List U8) → (d : Desk) → Decidable (d.Takes returns scancodes)
  | [], _ => .isTrue trivial
  | c :: scancodes, d =>
    let _ := decidableTakes returns scancodes (d.scancode c)
    inferInstanceAs (Decidable ((∀ e ∈ d.key c, (d.lines d.active).Takes returns e) ∧
      Takes returns (d.scancode c) scancodes))

theorem takes_append {returns : List U8 → Bool} (d : Desk) (a b : List U8) :
    d.Takes returns (a ++ b) ↔ d.Takes returns a ∧ (d.run a).Takes returns b := by
  induction a generalizing d with
  | nil => exact (and_iff_right trivial).symm
  | cons c a ih =>
    rw [List.cons_append, Takes, Takes, ih, and_assoc]
    rfl

/-- What the kernel knows of the desk. -/
structure Of (d : Desk) (k : Keyboard) : Prop where
  ctrl : d.ctrl = decide (k.depressedModKeys &&& modCtrl ≠ 0)
  shift : d.shift = decide (k.depressedModKeys &&& modShift ≠ 0)
  active : d.active = k.activeVtDevice

theorem start_of : start.Of .init := ⟨by decide, by decide, rfl⟩

theorem keymap_mapped : ∀ e ∈ keymapNoModifiers ++ keymapShift,
    (e.symbolType = kbdAscii ∨ e.symbolType = kbdNonascii) ∧
      (e.symbolType = kbdAscii → e.symbol ≠ escapeCharacter ∧ e.symbol ≠ eraseCharacter) := by
  decide +kernel

variable {d : Desk} {k k' : Keyboard} {c : U8} {event : Option KeyboardEvent} {e : KeyboardEvent}

theorem key_mapped (h : d.key c = some e) : e.Mapped := by
  rw [key] at h
  split at h
  · cases h
  next hne =>
  cases h
  have hsymbol : (d.keycap c).symbol ≠ 0 := fun hz => hne (.inr hz)
  have hmem : d.keycap c ∈ keymapNoModifiers ++ keymapShift := by
    rw [keycap, List.getD_eq_getElem?_getD] at hsymbol ⊢
    cases hget : (if d.shift then keymapShift else keymapNoModifiers)[c.toNat]? with
    | none =>
      rw [hget] at hsymbol
      exact absurd rfl hsymbol
    | some e =>
      have hkeymap := List.mem_of_getElem? hget
      rw [Option.getD_some, List.mem_append]
      split at hkeymap
      · exact .inr hkeymap
      · exact .inl hkeymap
  exact ⟨(keymap_mapped _ hmem).1, (keymap_mapped _ hmem).2⟩

/-- The bits of the modifiers. -/
theorem modifiers (m : U8) :
    ((m ||| modShift) &&& modShift ≠ 0 ∧ (m &&& ~~~modShift) &&& modShift = 0 ∧
      (m ||| modCtrl) &&& modCtrl ≠ 0 ∧ (m &&& ~~~modCtrl) &&& modCtrl = 0) ∧
    ((m ||| modShift) &&& modCtrl = m &&& modCtrl ∧
      (m &&& ~~~modShift) &&& modCtrl = m &&& modCtrl ∧
      (m ||| modCtrl) &&& modShift = m &&& modShift ∧
      (m &&& ~~~modCtrl) &&& modShift = m &&& modShift) ∧
    (m ||| modAlt) &&& modCtrl = m &&& modCtrl ∧ (m ||| modAlt) &&& modShift = m &&& modShift ∧
      (m &&& ~~~modAlt) &&& modCtrl = m &&& modCtrl ∧
      (m &&& ~~~modAlt) &&& modShift = m &&& modShift := by
  revert m
  decide +kernel

theorem keycap_silent (d : Desk) (h : c ∈ [0x2A, 0x1D, 0x38] ∨ 0x80 < c) :
    (d.keycap c).symbol = 0 := by
  have hshort : ∀ keymap ∈ [keymapShift, keymapNoModifiers], keymap.length = 89 ∧
      ∀ c ∈ ([0x2A, 0x1D, 0x38] : List U8), (keymap.getD c.toNat ⟨0, 0⟩).symbol = 0 := by
    decide +kernel
  have hkeymap : (if d.shift then keymapShift else keymapNoModifiers) ∈
      [keymapShift, keymapNoModifiers] := by
    split <;> simp
  obtain ⟨hlength, hmodifiers⟩ := hshort _ hkeymap
  rcases h with hc | hc
  · exact hmodifiers c hc
  · have hle : (if d.shift then keymapShift else keymapNoModifiers).length ≤ c.toNat := by
      rw [hlength]
      have hlt := BitVec.lt_def.mp hc
      change 128 < _ at hlt
      omega
    rw [keycap, List.getD_eq_getElem?_getD, List.getElem?_eq_none hle]
    rfl

theorem key_eq_none (h : (d.keycap c).symbol = 0) : d.key c = none := if_pos (.inr h)

theorem shownBy_silent (c : U8) (h : c ∈ [0x2A, 0x1D, 0x38] ∨ 0x80 < c) : shownBy c = none := by
  revert c
  decide +kernel

/-- A scancode that makes no character and shows no terminal. -/
theorem Of.silent (h : d.Of k) (hc : c ∈ [0x2A, 0x1D, 0x38] ∨ 0x80 < c) {m : U8}
    (hctrl : (if c = 0x1D then true else if c = 0x9D then false else d.ctrl) =
      decide (m &&& modCtrl ≠ 0))
    (hshift : (if c = 0x2A then true else if c = 0xAA then false else d.shift) =
      decide (m &&& modShift ≠ 0)) :
    none = d.key c ∧ (d.scancode c).Of { k with depressedModKeys := m } := by
  have hkey := key_eq_none (keycap_silent d hc)
  rw [scancode, hkey, shownBy_silent c hc]
  refine ⟨rfl, hctrl, hshift, ?_⟩
  rw [Option.getD_none, ite_self]
  exact h.active

/-- Ctrl with a digit. -/
theorem Of.shows (h : d.Of k) {v : Terminal} (hv : shownBy c = some v)
    (hctrl : k.depressedModKeys &&& modCtrl ≠ 0) :
    none = d.key c ∧ (d.scancode c).Of { k with activeVtDevice := v } := by
  have hdown : d.ctrl = true := h.ctrl.trans (decide_eq_true hctrl)
  have hkey : d.key c = none := if_pos (.inl ⟨hdown, by rw [hv]; rfl⟩)
  have hcode : c ≠ 0x1D ∧ c ≠ 0x9D ∧ c ≠ 0x2A ∧ c ≠ 0xAA := by
    have hall : ∀ c : U8, (shownBy c).isSome → c ≠ 0x1D ∧ c ≠ 0x9D ∧ c ≠ 0x2A ∧ c ≠ 0xAA := by
      decide +kernel
    exact hall c (by rw [hv]; rfl)
  obtain ⟨h1, h2, h3, h4⟩ := hcode
  rw [scancode, hkey]
  refine ⟨rfl, ?_, ?_, ?_⟩
  · simp only [if_neg h1, if_neg h2]
    exact h.ctrl
  · simp only [if_neg h3, if_neg h4]
    exact h.shift
  · simp only [hdown, if_true, hv, Option.getD_some]

/-- One turn of the loop of the driver. -/
theorem Of.turn (h : d.Of k) (ht : k.turn c = .ok (k', event)) :
    event = d.key c ∧ (d.scancode c).Of k' := by
  obtain ⟨⟨hs, hs', hc, hc'⟩, ⟨hsc, hsc', hcs, hcs'⟩, hac, has, hac', has'⟩ :=
    modifiers k.depressedModKeys
  have hctrl := h.ctrl
  have hshift := h.shift
  rw [Keyboard.turn] at ht
  by_cases h1 : c = 0x2A
  · rw [if_pos h1] at ht
    obtain ⟨rfl, rfl⟩ := Prod.mk.inj (Except.ok.inj ht)
    refine h.silent (.inl (by simp [h1])) ?_ ?_
    · rw [hsc, h1]
      exact hctrl
    · rw [if_pos h1, decide_eq_true hs]
  rw [if_neg h1] at ht
  by_cases h2 : c = 0xAA
  · rw [if_pos h2] at ht
    obtain ⟨rfl, rfl⟩ := Prod.mk.inj (Except.ok.inj ht)
    refine h.silent (.inr (by rw [h2]; decide)) ?_ ?_
    · rw [hsc', h2]
      exact hctrl
    · rw [if_neg h1, if_pos h2, decide_eq_false (not_not.mpr hs')]
  rw [if_neg h2] at ht
  by_cases h3 : c = 0x1D
  · rw [if_pos h3] at ht
    obtain ⟨rfl, rfl⟩ := Prod.mk.inj (Except.ok.inj ht)
    refine h.silent (.inl (by simp [h3])) ?_ ?_
    · rw [if_pos h3, decide_eq_true hc]
    · rw [hcs, if_neg h1, if_neg h2]
      exact hshift
  rw [if_neg h3] at ht
  by_cases h4 : c = 0x9D
  · rw [if_pos h4] at ht
    obtain ⟨rfl, rfl⟩ := Prod.mk.inj (Except.ok.inj ht)
    refine h.silent (.inr (by rw [h4]; decide)) ?_ ?_
    · rw [if_neg h3, if_pos h4, decide_eq_false (not_not.mpr hc')]
    · rw [hcs', if_neg h1, if_neg h2]
      exact hshift
  rw [if_neg h4] at ht
  -- The other scancodes leave Ctrl and Shift as they are.
  have hother : ∀ m : U8, m &&& modCtrl = k.depressedModKeys &&& modCtrl →
      m &&& modShift = k.depressedModKeys &&& modShift →
      (if c = 0x1D then true else if c = 0x9D then false else d.ctrl) =
          decide (m &&& modCtrl ≠ 0) ∧
        (if c = 0x2A then true else if c = 0xAA then false else d.shift) =
          decide (m &&& modShift ≠ 0) := by
    intro m hmc hms
    rw [if_neg h1, if_neg h2, if_neg h3, if_neg h4, hmc, hms]
    exact ⟨hctrl, hshift⟩
  by_cases h5 : c = 0x38
  · rw [if_pos h5] at ht
    obtain ⟨rfl, rfl⟩ := Prod.mk.inj (Except.ok.inj ht)
    exact h.silent (.inl (by simp [h5])) (hother _ hac has).1 (hother _ hac has).2
  rw [if_neg h5] at ht
  by_cases h6 : c = 0xB8
  · rw [if_pos h6] at ht
    obtain ⟨rfl, rfl⟩ := Prod.mk.inj (Except.ok.inj ht)
    exact h.silent (.inr (by rw [h6]; decide)) (hother _ hac' has').1 (hother _ hac' has').2
  rw [if_neg h6] at ht
  by_cases h7 : c > 0x80
  · rw [if_pos h7] at ht
    obtain ⟨rfl, rfl⟩ := Prod.mk.inj (Except.ok.inj ht)
    exact h.silent (.inr h7) (hother _ rfl rfl).1 (hother _ rfl rfl).2
  rw [if_neg h7] at ht
  have hdigit : ∀ v : Terminal, shownBy c = some v ∧ k.depressedModKeys &&& modCtrl ≠ 0 →
      none = d.key c ∧ (d.scancode c).Of { k with activeVtDevice := v } :=
    fun v hv => h.shows hv.1 hv.2
  by_cases h8 : c = 0x02 ∧ k.depressedModKeys &&& modCtrl ≠ 0
  · rw [if_pos h8] at ht
    obtain ⟨rfl, rfl⟩ := Prod.mk.inj (Except.ok.inj ht)
    exact hdigit .tty1 ⟨by rw [h8.1]; rfl, h8.2⟩
  rw [if_neg h8] at ht
  by_cases h9 : c = 0x03 ∧ k.depressedModKeys &&& modCtrl ≠ 0
  · rw [if_pos h9] at ht
    obtain ⟨rfl, rfl⟩ := Prod.mk.inj (Except.ok.inj ht)
    exact hdigit .tty2 ⟨by rw [h9.1]; rfl, h9.2⟩
  rw [if_neg h9] at ht
  by_cases h10 : c = 0x04 ∧ k.depressedModKeys &&& modCtrl ≠ 0
  · rw [if_pos h10] at ht
    obtain ⟨rfl, rfl⟩ := Prod.mk.inj (Except.ok.inj ht)
    exact hdigit .tty3 ⟨by rw [h10.1]; rfl, h10.2⟩
  rw [if_neg h10] at ht
  obtain ⟨e, he, ht⟩ := bind_eq_ok ht
  obtain ⟨rfl, rfl⟩ := Prod.mk.inj (Except.ok.inj ht)
  have hkeycap : e = d.keycap c := by
    rw [keymapEntry] at he
    split at he
    · rw [keycap, hshift]
      simpa using (Except.ok.inj he).symm
    · cases he
  have hshown : ¬(d.ctrl = true ∧ (shownBy c).isSome = true) := by
    rintro ⟨hdown, hsome⟩
    have hbit := of_decide_eq_true (hctrl.symm.trans hdown)
    have hcode : ∀ c : U8, (shownBy c).isSome → c = 0x02 ∨ c = 0x03 ∨ c = 0x04 := by decide +kernel
    rcases hcode c hsome with hcode | hcode | hcode
    · exact h8 ⟨hcode, hbit⟩
    · exact h9 ⟨hcode, hbit⟩
    · exact h10 ⟨hcode, hbit⟩
  have hkey : (if e.symbol = 0 then none else some e) = d.key c := by
    rw [key, hkeycap]
    by_cases hsymbol : (d.keycap c).symbol = 0
    · rw [if_pos hsymbol, if_pos (.inr hsymbol)]
    · rw [if_neg hsymbol, if_neg fun hh => hh.elim hshown hsymbol]
  refine ⟨hkey, ?_⟩
  rw [scancode, ← hkey]
  split
  · exact ⟨hctrl, hshift, h.active⟩
  · refine ⟨(hother _ rfl rfl).1, (hother _ rfl rfl).2, ?_⟩
    change (if d.ctrl = true then (shownBy c).getD d.active else d.active) = k.activeVtDevice
    split
    · next hdown =>
      have hnone : shownBy c = none := by simpa [hdown] using hshown
      rw [hnone]
      exact h.active
    · exact h.active

end Desk

/-- A shell that has left its loop reads no more. -/
structure Console where
  keyboard : Keyboard
  terminals : Terminal → VtKeys Unit
  shells : Terminal → Option Shell

inductive ConsoleEvent where
  | scancode (c : U8)
  | read (v : Terminal)
  | resume (v : Terminal)
  | next (v : Terminal)

/-- The bytes that the shell reads next: a character, or the two of `arrow_code`. -/
def Shell.wants (s : Shell) : Nat :=
  match s.editor.place with
  | .character => 1
  | .arrowCode none => 2
  | .arrowCode (some _) => 1

namespace Console

def start : Console := ⟨.init, fun _ => .init, fun _ => some .start⟩

/-- The shell after a statement of its read. It goes on when the read returns. -/
def after (returns : List U8 → Bool) (r r' : VtReaders Unit) (shell : Option Shell) :
    Option Shell :=
  match r.calls (), r'.calls () with
  | some call, none => shell.bind fun s => s.run returns call.buf
  | _, _ => shell

/-- One turn of `keyboard_rb_fill`, or a statement of a read. -/
def step (returns : List U8 → Bool) (c : Console) : ConsoleEvent → Option Console
  | .scancode code => (c.keyboard.turn code).toOption.map fun r =>
    { c with
      keyboard := r.1
      terminals := match r.2 with
        | none => c.terminals
        | some e => Function.update c.terminals r.1.activeVtDevice
          ((c.terminals r.1.activeVtDevice).press e) }
  | .read v => do
    let shell ← c.shells v
    let terminal ← (c.terminals v).step (.read () shell.wants)
    some { c with terminals := Function.update c.terminals v terminal }
  | .resume v => do
    let terminal ← (c.terminals v).step (.resume ())
    some { c with terminals := Function.update c.terminals v terminal }
  | .next v => do
    let terminal ← (c.terminals v).step .next
    some { c with
      terminals := Function.update c.terminals v terminal
      shells := Function.update c.shells v
        (after returns (c.terminals v).readers terminal.readers (c.shells v)) }

def run (returns : List U8 → Bool) (c : Console) (events : List ConsoleEvent) : Option Console :=
  events.foldlM (step returns) c

/-- What the driver works on. -/
def driver (c : Console) : Keyboard × (Terminal → VtInput) :=
  (c.keyboard, fun v => (c.terminals v).readers.vt)

theorem step_fill (returns : List U8 → Bool) (c : Console) (code : U8) :
    (c.step returns (.scancode code)).map driver = (Keyboard.fill c.driver code).toOption := by
  rw [step, Keyboard.fill, driver]
  cases hturn : c.keyboard.turn code with
  | error crash => rfl
  | ok r =>
    obtain ⟨k, event⟩ := r
    cases event with
    | none => rfl
    | some e =>
      change some (k, _) = some (k, _)
      refine congrArg some (Prod.ext rfl (funext fun v => ?_))
      by_cases hv : v = k.activeVtDevice
      · subst hv
        simp [VtKeys.press_vt]
      · simp [hv]

/-- The turns of one interrupt are steps of the console. -/
theorem run_keyboardRbFill (returns : List U8 → Bool) (c : Console) (codes : List U8) :
    (c.run returns (codes.map .scancode)).map driver =
      (Keyboard.keyboardRbFill c.driver codes).toOption := by
  induction codes generalizing c with
  | nil => rfl
  | cons code codes ih =>
    have hstep := step_fill returns c code
    rw [List.map_cons, run, List.foldlM_cons, Keyboard.keyboardRbFill, List.foldlM_cons]
    cases hfill : Keyboard.fill c.driver code with
    | error crash =>
      rw [hfill] at hstep
      rw [Option.map_eq_none_iff.mp hstep]
      rfl
    | ok s =>
      rw [hfill] at hstep
      obtain ⟨c₁, hc₁, rfl⟩ := Option.map_eq_some_iff.mp hstep
      rw [hc₁]
      exact ih c₁

/-- The shell has worked through what its reads returned, and a read is under way, or none. -/
inductive Reads (returns : List U8 → Bool) (r : VtReaders Unit) (shell : Option Shell) : Prop
  | between (calls : r.calls () = none) (inside : r.inside = none)
      (worked : Shell.start.run returns r.consumed = shell)
  | within {call : VtRead} {done : List U8} {s : Shell} (calls : r.calls () = some call)
      (inside : ∀ u c, r.inside ≠ some (u, .advance c)) (consumed : r.consumed = done ++ call.buf)
      (worked : Shell.start.run returns done = some s) (now : shell = some s)
      (wants : call.length = s.wants) (room : call.buf.length < call.length)
  | stored {call : VtRead} {done pre : List U8} {s : Shell} {c : U8}
      (calls : r.calls () = some call) (inside : r.inside = some ((), .advance c))
      (buf : call.buf = pre ++ [c]) (consumed : r.consumed = done ++ pre)
      (worked : Shell.start.run returns done = some s) (now : shell = some s)
      (wants : call.length = s.wants) (room : call.buf.length ≤ call.length)

variable {returns : List U8 → Bool} {r r' : VtReaders Unit} {shell : Option Shell} {s : Shell}

theorem start_reads : Reads returns VtReaders.init (some .start) := .between rfl rfl rfl

/-- A key leaves the readers where they are. -/
theorem Reads.keys (h : Reads returns r shell) (bytes : List U8) :
    Reads returns (bytes.foldl VtReaders.key r) shell := by
  induction bytes generalizing r with
  | nil => exact h
  | cons c bytes ih =>
    refine ih ?_
    cases h with
    | between calls inside worked => exact .between calls inside worked
    | within calls inside consumed worked now wants room =>
      exact .within calls inside consumed worked now wants room
    | stored calls inside buf consumed worked now wants room =>
      exact .stored calls inside buf consumed worked now wants room

theorem Reads.read (h : Reads returns r (some s)) (hs : r.step (.read () s.wants) = some r') :
    Reads returns r' (some s) := by
  rw [VtReaders.step] at hs
  split at hs
  · next hinside hcalls =>
    cases hs
    cases h with
    | between calls inside worked =>
      have hwants : 0 < s.wants := by
        rw [Shell.wants]
        split <;> decide
      have hcalls : Function.update r.calls () (some ⟨s.wants, []⟩) () = some ⟨s.wants, []⟩ :=
        Function.update_self _ _ _
      refine .within hcalls (fun u c hh => ?_) (List.append_nil _).symm worked rfl rfl hwants
      cases hinside.symm.trans hh
    | within calls => cases hcalls.symm.trans calls
    | stored calls => cases hcalls.symm.trans calls
  · cases hs

theorem Reads.resume (h : Reads returns r shell) (hs : r.step (.resume ()) = some r') :
    Reads returns r' shell := by
  rw [VtReaders.step] at hs
  split at hs
  · next call hinside hcalls =>
    cases hs
    cases h with
    | between calls => cases hcalls.symm.trans calls
    | within calls inside consumed worked now wants room =>
      refine .within calls (fun u c hh => ?_) consumed worked now wants room
      cases hh
    | stored calls inside => cases hinside.symm.trans inside
  · cases hs

theorem after_calls (r : VtReaders Unit) {call : VtRead} (h : r'.calls () = some call) :
    after returns r r' shell = shell := by
  rw [after, h]
  split
  · next hh => cases hh
  · rfl

theorem Reads.next (h : Reads returns r shell) (hs : r.step .next = some r') :
    Reads returns r' (after returns r r' shell) := by
  rw [VtReaders.step] at hs
  split at hs
  · next u place hplace =>
    obtain ⟨call', hcall, rfl⟩ := Option.map_eq_some_iff.mp hs
    obtain ⟨⟩ := u
    cases h with
    | between calls => cases hcall.symm.trans calls
    | @within call done s calls inside consumed worked now wants room =>
      obtain rfl : call = call' := Option.some.inj (calls.symm.trans hcall)
      cases place with
      | test =>
        have hcalls : (r.next () call .test).calls () = some call := calls
        rw [after_calls r hcalls]
        refine .within calls (fun u c hh => ?_) consumed worked now wants room
        rw [VtReaders.next] at hh
        split at hh <;> cases hh
      | load =>
        have hcalls : (r.next () call .load).calls () = some call := calls
        rw [after_calls r hcalls]
        refine .within calls (fun u c hh => ?_) consumed worked now wants room
        cases hh
      | store c =>
        have hcalls : Function.update r.calls () (some { call with buf := call.buf ++ [c] }) () =
            some { call with buf := call.buf ++ [c] } := Function.update_self _ _ _
        change (r.next () call (.store c)).calls () = _ at hcalls
        rw [after_calls r hcalls]
        refine .stored hcalls rfl rfl consumed worked now wants ?_
        rw [List.length_append]
        exact room
      | advance c => exact absurd hplace (inside () c)
    | @stored call done pre s c calls inside buf consumed worked now wants room =>
      obtain rfl : call = call' := Option.some.inj (calls.symm.trans hcall)
      obtain rfl : place = .advance c := by
        rw [inside] at hplace
        cases hplace
        rfl
      have hconsumed : r.consumed ++ [c] = done ++ call.buf := by
        rw [consumed, buf, List.append_assoc]
      by_cases hfull : call.buf.length = call.length
      · have hnext : r.next () call (.advance c) = { r with
            vt := { r.vt with inputRbHeadIdx := (r.vt.inputRbHeadIdx + 1) % 4096 }
            consumed := r.consumed ++ [c]
            calls := Function.update r.calls () none
            inside := none } := if_pos hfull
        have hcalls : (r.next () call (.advance c)).calls () = none := by
          have hupdate : Function.update r.calls () none () = none := Function.update_self _ _ _
          rw [hnext]
          exact hupdate
        have hafter : after returns r (r.next () call (.advance c)) shell =
            s.run returns call.buf := by
          rw [after, calls, hcalls, now]
          rfl
        rw [hafter]
        refine .between hcalls (by rw [hnext]) ?_
        rw [hnext, hconsumed, Shell.run_append, worked]
        rfl
      · have hnext : r.next () call (.advance c) = { r with
            vt := { r.vt with inputRbHeadIdx := (r.vt.inputRbHeadIdx + 1) % 4096 }
            consumed := r.consumed ++ [c]
            inside := some ((), .test) } := if_neg hfull
        have hcalls : (r.next () call (.advance c)).calls () = some call := by
          rw [hnext]
          exact calls
        rw [after_calls r hcalls]
        refine .within hcalls (fun v c' hh => ?_) (by rw [hnext, hconsumed]) worked now wants
          (Nat.lt_of_le_of_ne room hfull)
        rw [hnext] at hh
        cases hh
  · cases hs

/-- A shell that is at the beginning of a key has no part of one. -/
theorem run_short {buf : List U8} {s₀ : Shell} (hrun : s₀.run returns buf = some s)
    (hplace : s.editor.place = .character) (hlt : buf.length < s₀.wants) : s₀ = s := by
  cases buf with
  | nil => exact Option.some.inj hrun
  | cons c buf =>
    exfalso
    rw [Shell.wants, List.length_cons] at hlt
    split at hlt
    · omega
    · next harrow =>
      obtain rfl : buf = [] := List.length_eq_zero_iff.mp (by omega)
      rw [Shell.run_singleton, Shell.step, LineEditor.step, harrow] at hrun
      cases hrun
      cases hplace
    · omega

/-- When the buffer is empty and no statement of a read is under way, the shell has worked through
all that was accepted. -/
theorem Reads.waiting (h : Reads returns r shell) (hfifo : r.Fifo) (hpending : r.vt.pending = [])
    (hinside : r.inside = none) (hrun : Shell.start.run returns r.accepted = some s)
    (hplace : s.editor.place = .character) : shell = some s := by
  have hall : r.consumed = r.accepted := by
    have hle := List.drop_eq_nil_iff.mp (hfifo.pending_eq ▸ hpending)
    exact hfifo.taken.trans (List.take_of_length_le hle)
  rw [← hall] at hrun
  cases h with
  | between calls inside worked => exact worked.symm.trans hrun
  | @within call done s₀ calls inside consumed worked now wants room =>
    rw [consumed, Shell.run_append, worked, Option.bind_some] at hrun
    rw [now, run_short hrun hplace (wants ▸ room)]
  | stored calls inside => cases hinside.symm.trans inside

/-- The shell is the one that has worked through a part of what was accepted. -/
theorem Reads.worked (h : Reads returns r shell) (hfifo : r.Fifo) :
    ∃ done, done <+: r.accepted ∧ Shell.start.run returns done = shell := by
  have hprefix : r.consumed <+: r.accepted := by
    rw [hfifo.taken]
    exact List.take_prefix _ _
  cases h with
  | between calls inside worked => exact ⟨_, hprefix, worked⟩
  | within calls inside consumed worked now wants room =>
    exact ⟨_, (List.prefix_append _ _).trans (consumed ▸ hprefix), worked.trans now.symm⟩
  | stored calls inside buf consumed worked now wants room =>
    exact ⟨_, (List.prefix_append _ _).trans (consumed ▸ hprefix), worked.trans now.symm⟩

/-- The console does what is meant at the desk. -/
structure Inv (returns : List U8 → Bool) (c : Console) (d : Desk) : Prop where
  keyboard : d.Of c.keyboard
  keys : ∀ v, (c.terminals v).Inv
  reads : ∀ v, Reads returns (c.terminals v).readers (c.shells v)
  typed : ∀ v, ∃ s, Shell.start.run returns (c.terminals v).readers.accepted = some s ∧
    s.Shows (d.lines v)

/-- A key finds room for its characters. -/
def RoomFor (c : Console) : ConsoleEvent → Prop
  | .scancode code => ∀ k e, c.keyboard.turn code = .ok (k, some e) →
    (c.terminals k.activeVtDevice).readers.vt.pending.length + e.encoding.length ≤ 4095
  | _ => True

/-- Every key of a run does. -/
def Roomy (returns : List U8 → Bool) : Console → List ConsoleEvent → Prop
  | _, [] => True
  | c, event :: events => c.RoomFor event ∧
    ∀ c', c.step returns event = some c' → Roomy returns c' events

/-- The scancodes of a run. -/
def scancodes (events : List ConsoleEvent) : List U8 :=
  events.filterMap fun
    | .scancode c => some c
    | _ => none

theorem scancodes_cons (event : ConsoleEvent) (events : List ConsoleEvent) :
    scancodes (event :: events) = scancodes [event] ++ scancodes events := by
  rw [scancodes, scancodes, scancodes, ← List.filterMap_append, List.singleton_append]

variable {c c' : Console} {d : Desk} {v : Terminal}

theorem start_inv : Inv returns start .start where
  keyboard := Desk.start_of
  keys _ := VtKeys.init_inv
  reads _ := start_reads
  typed _ := ⟨.start, rfl, Shell.start_shows⟩

/-- A step is a turn of the keyboard driver, or a statement of a read, which accepts nothing. -/
theorem step_cases {event : ConsoleEvent} (hs : c.step returns event = some c') :
    (∃ code k e, event = .scancode code ∧ c.keyboard.turn code = .ok (k, e) ∧
      c' = { c with
        keyboard := k
        terminals := match e with
          | none => c.terminals
          | some e => Function.update c.terminals k.activeVtDevice
            ((c.terminals k.activeVtDevice).press e) }) ∨
    ∃ v readers shell, scancodes [event] = [] ∧
      c' = { c with
        terminals := Function.update c.terminals v { c.terminals v with readers }
        shells := Function.update c.shells v shell } ∧
      readers.accepted = (c.terminals v).readers.accepted ∧
      ((c.terminals v).Inv → VtKeys.Inv { c.terminals v with readers }) ∧
      (Reads returns (c.terminals v).readers (c.shells v) → Reads returns readers shell) := by
  cases event with
  | scancode code =>
    left
    cases hturn : c.keyboard.turn code with
    | error crash =>
      rw [Console.step, hturn] at hs
      cases hs
    | ok r =>
      rw [Console.step, hturn] at hs
      exact ⟨code, r.1, r.2, rfl, hturn, (Option.some.inj hs).symm⟩
  | read v =>
    right
    obtain ⟨s, hshell, hs⟩ := Option.bind_eq_some_iff.mp hs
    obtain ⟨terminal, hterminal, hs⟩ := Option.bind_eq_some_iff.mp hs
    obtain rfl := Option.some.inj hs
    obtain ⟨readers, hreaders, rfl⟩ := Option.map_eq_some_iff.mp hterminal
    have hstep : (c.terminals v).step (.read () s.wants) = some { c.terminals v with readers } :=
      hterminal
    refine ⟨v, readers, c.shells v, rfl, ?_, VtKeys.reader_step (fun _ hc => by cases hc) hreaders,
      fun hinv => hinv.step hstep, fun hreads => ?_⟩
    · rw [Function.update_eq_self]
    · rw [hshell] at hreads ⊢
      exact hreads.read hreaders
  | resume v =>
    right
    obtain ⟨terminal, hterminal, hs⟩ := Option.bind_eq_some_iff.mp hs
    obtain rfl := Option.some.inj hs
    obtain ⟨readers, hreaders, rfl⟩ := Option.map_eq_some_iff.mp hterminal
    have hstep : (c.terminals v).step (.resume ()) = some { c.terminals v with readers } :=
      hterminal
    refine ⟨v, readers, c.shells v, rfl, ?_, VtKeys.reader_step (fun _ hc => by cases hc) hreaders,
      fun hinv => hinv.step hstep, fun hreads => hreads.resume hreaders⟩
    rw [Function.update_eq_self]
  | next v =>
    right
    obtain ⟨terminal, hterminal, hs⟩ := Option.bind_eq_some_iff.mp hs
    obtain rfl := Option.some.inj hs
    obtain ⟨readers, hreaders, rfl⟩ := Option.map_eq_some_iff.mp hterminal
    have hstep : (c.terminals v).step .next = some { c.terminals v with readers } := hterminal
    exact ⟨v, readers, _, rfl, rfl, VtKeys.reader_step (fun _ hc => by cases hc) hreaders,
      fun hinv => hinv.step hstep, fun hreads => hreads.next hreaders⟩

/-- A step that is one of the reads of a shell. -/
theorem Inv.reader (h : Inv returns c d) {terminal : VtKeys Unit} {shell : Option Shell}
    (hinv : terminal.Inv) (hreads : Reads returns terminal.readers shell)
    (haccepted : terminal.readers.accepted = (c.terminals v).readers.accepted) :
    Inv returns { c with
      terminals := Function.update c.terminals v terminal
      shells := Function.update c.shells v shell } d where
  keyboard := h.keyboard
  keys u := by
    by_cases hu : u = v
    · subst hu
      simpa using hinv
    · simpa [hu] using h.keys u
  reads u := by
    by_cases hu : u = v
    · subst hu
      simpa using hreads
    · simpa [hu] using h.reads u
  typed u := by
    by_cases hu : u = v
    · subst hu
      simpa [haccepted] using h.typed u
    · simpa [hu] using h.typed u

/-- The characters of a key that finds room are accepted. -/
theorem press_accepted {t : VtKeys Unit} (h : t.Inv) {e : KeyboardEvent}
    (hroom : t.readers.vt.pending.length + e.encoding.length ≤ 4095) :
    (t.press e).readers.accepted = t.readers.accepted ++ e.encoding := by
  have haccepted := (VtKeys.foldl_key h.fifo e.encoding).2.2
  have hle := h.fifo.le
  rw [h.fifo.pending_eq, List.length_drop] at hroom
  rw [List.take_of_length_le (by omega)] at haccepted
  exact haccepted

theorem Inv.press (h : Inv returns c d) {e : KeyboardEvent} (he : e.Mapped)
    (hroom : (c.terminals d.active).readers.vt.pending.length + e.encoding.length ≤ 4095)
    (htakes : (d.lines d.active).Takes returns e) :
    Inv returns { c with
      terminals := Function.update c.terminals d.active ((c.terminals d.active).press e) }
      { d with lines := Function.update d.lines d.active ((d.lines d.active).press e) } where
  keyboard := ⟨h.keyboard.ctrl, h.keyboard.shift, h.keyboard.active⟩
  keys u := by
    by_cases hu : u = d.active
    · subst hu
      simpa using (h.keys d.active).press e
    · simpa [hu] using h.keys u
  reads u := by
    by_cases hu : u = d.active
    · subst hu
      simp only [Function.update_self]
      exact (h.reads d.active).keys e.encoding
    · simpa [hu] using h.reads u
  typed u := by
    by_cases hu : u = d.active
    · subst hu
      obtain ⟨s, hrun, hshows⟩ := h.typed d.active
      obtain ⟨s', hrun', hshows'⟩ := hshows.press he htakes
      refine ⟨s', ?_, by simpa using hshows'⟩
      simp only [Function.update_self]
      rw [press_accepted (h.keys d.active) hroom, Shell.run_append, hrun]
      exact hrun'
    · simpa [hu] using h.typed u

/-- A statement of a read is none of the desk. -/
theorem Inv.step (h : Inv returns c d) {event : ConsoleEvent}
    (hs : c.step returns event = some c') (hroom : c.RoomFor event)
    (htakes : d.Takes returns (scancodes [event])) :
    Inv returns c' (d.run (scancodes [event])) := by
  rcases step_cases hs with ⟨code, k, event, rfl, hturn, rfl⟩ |
    ⟨v, readers, shell, hnone, rfl, haccepted, hinv, hreads⟩
  · obtain ⟨hevent, hof⟩ := h.keyboard.turn hturn
    change Inv returns _ (d.scancode code)
    cases event with
    | none =>
      have hlines : (d.scancode code).lines = d.lines := by
        rw [Desk.scancode, ← hevent]
      exact ⟨hof, h.keys, h.reads, fun v => hlines ▸ h.typed v⟩
    | some e =>
      have hdesk : d.scancode code =
          { d with lines := Function.update d.lines d.active ((d.lines d.active).press e) } := by
        rw [Desk.scancode, ← hevent]
      have hactive : k.activeVtDevice = d.active := by
        rw [← hof.active, hdesk]
      have hspace := hroom k e hturn
      rw [hactive] at hspace
      have hpress := h.press (Desk.key_mapped hevent.symm) hspace (htakes.1 e hevent.symm)
      rw [← hdesk] at hpress
      dsimp only
      rw [hactive]
      exact ⟨hof, hpress.keys, hpress.reads, hpress.typed⟩
  · rw [hnone]
    exact h.reader (hinv (h.keys v)) (hreads (h.reads v)) haccepted

theorem Inv.run (h : Inv returns c d) {events : List ConsoleEvent}
    (hrun : c.run returns events = some c') (hroom : Roomy returns c events)
    (htakes : d.Takes returns (scancodes events)) : Inv returns c' (d.run (scancodes events)) := by
  induction events generalizing c d with
  | nil =>
    cases hrun
    exact h
  | cons event events ih =>
    rw [Console.run, List.foldlM_cons] at hrun
    obtain ⟨c₁, hs, hrest⟩ := Option.bind_eq_some_iff.mp hrun
    rw [scancodes_cons, Desk.takes_append] at htakes
    rw [scancodes_cons, Desk.run, List.foldl_append]
    exact ih (h.step hs hroom.1 htakes.1) hrest (hroom.2 c₁ hs) htakes.2

theorem encoding_length_le (e : KeyboardEvent) : e.encoding.length ≤ 3 := by
  rw [KeyboardEvent.encoding]
  split_ifs <;> simp

/-- No terminal has accepted more than this. -/
def Within (c : Console) (n : Nat) : Prop :=
  ∀ v, (c.terminals v).Inv ∧ (c.terminals v).readers.accepted.length ≤ n

theorem Within.reader {n : Nat} (h : c.Within n) {terminal : VtKeys Unit}
    (hinv : terminal.Inv) (haccepted : terminal.readers.accepted.length ≤ n) :
    ∀ u, ((Function.update c.terminals v terminal) u).Inv ∧
      ((Function.update c.terminals v terminal) u).readers.accepted.length ≤ n := by
  intro u
  by_cases hu : u = v
  · subst hu
    rw [Function.update_self]
    exact ⟨hinv, haccepted⟩
  · rw [Function.update_of_ne hu]
    exact h u

theorem Within.step {n : Nat} (h : c.Within n) {event : ConsoleEvent}
    (hs : c.step returns event = some c') : c'.Within (n + 3 * (scancodes [event]).length) := by
  rcases step_cases hs with ⟨code, k, event, rfl, hturn, rfl⟩ |
    ⟨v, readers, shell, hnone, rfl, haccepted, hinv, -⟩
  · have hmore : c.Within (n + 3) := fun v => ⟨(h v).1, Nat.le_add_right_of_le (h v).2⟩
    cases event with
    | none => exact hmore
    | some e =>
      obtain ⟨hinv, hle⟩ := h k.activeVtDevice
      refine hmore.reader (hinv.press e) ?_
      have haccepted : ((c.terminals k.activeVtDevice).press e).readers.accepted = _ :=
        (VtKeys.foldl_key hinv.fifo e.encoding).2.2
      have hencoding := encoding_length_le e
      rw [haccepted, List.length_append, List.length_take]
      omega
  · rw [hnone]
    refine h.reader (hinv (h v).1) ?_
    rw [haccepted]
    exact (h v).2

/-- Few keys find room, whatever the shells do. -/
theorem Within.roomy {n : Nat} (h : c.Within n) {events : List ConsoleEvent}
    (hle : n + 3 * (scancodes events).length ≤ 4095) : Roomy returns c events := by
  induction events generalizing c n with
  | nil => trivial
  | cons event events ih =>
    rw [scancodes_cons, List.length_append] at hle
    refine ⟨?_, fun c' hs => ih (h.step hs) (by omega)⟩
    cases event with
    | scancode code =>
      intro k e _
      obtain ⟨hinv, hmost⟩ := h k.activeVtDevice
      have hencoding := encoding_length_le e
      change n + 3 * (1 + _) ≤ 4095 at hle
      rw [hinv.fifo.pending_eq, List.length_drop]
      omega
    | read v => trivial
    | resume v => trivial
    | next v => trivial

theorem start_within : start.Within 0 := fun _ => ⟨VtKeys.init_inv, Nat.le_refl _⟩

end Console

open Console

end Persistos
