import Persistos.TtyInput

/-! The keys that the keyboard buffer of a terminal takes. A key is up to three characters,
and each of them is put in or dropped for itself. -/

namespace Persistos

def kbdAscii : U8 := 0xD1
def kbdNonascii : U8 := 0xD2

def kbdEsc : U8 := 0xE1
def kbdBackspace : U8 := 0xE2
def kbdArrowUp : U8 := 0xE3
def kbdArrowDown : U8 := 0xE4
def kbdArrowRight : U8 := 0xE5
def kbdArrowLeft : U8 := 0xE6

/-- `struct keyboard_event` -/
structure KeyboardEvent where
  symbolType : U8
  symbol : U8
  deriving DecidableEq

namespace VtInput

/-- The escape code of an arrow key. -/
def appendArrow (vt : VtInput) (letter : U8) : VtInput :=
  ((vt.vtAppendInputCharacter 0x1B).vtAppendInputCharacter 91).vtAppendInputCharacter letter

def vtUpdateInput (vt : VtInput) (keyboardEvent : KeyboardEvent) : VtInput :=
  if keyboardEvent.symbolType = kbdAscii then vt.vtAppendInputCharacter keyboardEvent.symbol
  else if keyboardEvent.symbolType = kbdNonascii then
    if keyboardEvent.symbol = kbdEsc then vt.vtAppendInputCharacter 0x1B
    else if keyboardEvent.symbol = kbdBackspace then vt.vtAppendInputCharacter 0xFF
    else if keyboardEvent.symbol = kbdArrowUp then vt.appendArrow 65
    else if keyboardEvent.symbol = kbdArrowDown then vt.appendArrow 66
    else if keyboardEvent.symbol = kbdArrowRight then vt.appendArrow 67
    else if keyboardEvent.symbol = kbdArrowLeft then vt.appendArrow 68
    else vt
  else vt

end VtInput

/-- The characters of a key. -/
def KeyboardEvent.encoding (e : KeyboardEvent) : List U8 :=
  if e.symbolType = kbdAscii then [e.symbol]
  else if e.symbolType = kbdNonascii then
    if e.symbol = kbdEsc then [0x1B]
    else if e.symbol = kbdBackspace then [0xFF]
    else if e.symbol = kbdArrowUp then [0x1B, 91, 65]
    else if e.symbol = kbdArrowDown then [0x1B, 91, 66]
    else if e.symbol = kbdArrowRight then [0x1B, 91, 67]
    else if e.symbol = kbdArrowLeft then [0x1B, 91, 68]
    else []
  else []

theorem VtInput.vtUpdateInput_eq (vt : VtInput) (e : KeyboardEvent) :
    vt.vtUpdateInput e = e.encoding.foldl VtInput.vtAppendInputCharacter vt := by
  simp only [vtUpdateInput, KeyboardEvent.encoding, appendArrow,
    apply_ite (List.foldl vtAppendInputCharacter vt), List.foldl_cons, List.foldl_nil]

/-- The terminal with its readers, and each key that was pressed with the characters that
were accepted of it. -/
structure VtKeys (τ : Type) where
  readers : VtReaders τ
  keys : List (KeyboardEvent × List U8)

/-- A key, which the interrupt handler puts in as a whole, or a step of a reader. -/
inductive VtKeyEvent (τ : Type) where
  | press (e : KeyboardEvent)
  | read (t : τ) (length : Nat)
  | resume (t : τ)
  | next

namespace VtKeys

variable {τ : Type}

def init : VtKeys τ := ⟨.init, []⟩

def press (s : VtKeys τ) (e : KeyboardEvent) : VtKeys τ :=
  let readers := e.encoding.foldl VtReaders.key s.readers
  ⟨readers, s.keys ++ [(e, readers.accepted.drop s.readers.accepted.length)]⟩

def step [DecidableEq τ] (s : VtKeys τ) : VtKeyEvent τ → Option (VtKeys τ)
  | .press e => some (s.press e)
  | .read t length => (s.readers.step (.read t length)).map fun readers => { s with readers }
  | .resume t => (s.readers.step (.resume t)).map fun readers => { s with readers }
  | .next => (s.readers.step .next).map fun readers => { s with readers }

def run [DecidableEq τ] (events : List (VtKeyEvent τ)) : Option (VtKeys τ) :=
  events.foldlM step init

/-- The accepted characters are those of whole keys. -/
structure Whole (s : VtKeys τ) : Prop where
  stream : s.readers.accepted = s.keys.flatMap Prod.snd
  keys : ∀ key ∈ s.keys, key.2 = key.1.encoding ∨ key.2 = []

/-- A key finds the buffer full, or room for all of its characters. -/
def RoomFor (s : VtKeys τ) : VtKeyEvent τ → Prop
  | .press e => s.readers.vt.pending.length = 4095 ∨
    s.readers.vt.pending.length + e.encoding.length ≤ 4095
  | _ => True

/-- Every key of a run does. -/
def Roomy [DecidableEq τ] : VtKeys τ → List (VtKeyEvent τ) → Prop
  | _, [] => True
  | s, event :: events => s.RoomFor event ∧ ∀ s', s.step event = some s' → Roomy s' events

/-- What a handler does to the terminal is `vt_update_input`. -/
theorem press_vt (s : VtKeys τ) (e : KeyboardEvent) :
    (s.press e).readers.vt = s.readers.vt.vtUpdateInput e := by
  have hfold : ∀ (bytes : List U8) (r : VtReaders τ),
      (bytes.foldl VtReaders.key r).vt = bytes.foldl VtInput.vtAppendInputCharacter r.vt := by
    intro bytes
    induction bytes with
    | nil => exact fun r => rfl
    | cons c bytes ih => exact fun r => ih (r.key c)
  rw [VtInput.vtUpdateInput_eq]
  exact hfold e.encoding s.readers

/-- The characters of a key are accepted up to the one that finds the buffer full. -/
theorem foldl_key {r : VtReaders τ} (h : r.Fifo) (bytes : List U8) :
    (bytes.foldl VtReaders.key r).Fifo ∧ (bytes.foldl VtReaders.key r).consumed = r.consumed ∧
      (bytes.foldl VtReaders.key r).accepted =
        r.accepted ++ bytes.take (r.consumed.length + 4095 - r.accepted.length) := by
  induction bytes generalizing r with
  | nil =>
    refine ⟨h, rfl, ?_⟩
    rw [List.take_nil, List.append_nil]
    rfl
  | cons c bytes ih =>
    obtain ⟨hfifo, hsame, hrest⟩ := ih (h.key c)
    refine ⟨hfifo, hsame, ?_⟩
    have hconsumed : (r.key c).consumed = r.consumed := rfl
    by_cases hfull : r.vt.full = true
    · have hlength := h.full_iff.mp hfull
      have haccepted : (r.key c).accepted = r.accepted := if_pos hfull
      rw [haccepted, hconsumed] at hrest
      have hnone : r.consumed.length + 4095 - r.accepted.length = 0 := by omega
      rw [hnone, List.take_zero] at hrest ⊢
      exact hrest
    · have hlength := mt h.full_iff.mpr hfull
      have hroom := h.room
      rw [vtInputBufferLength] at hroom
      have haccepted : (r.key c).accepted = r.accepted ++ [c] := if_neg hfull
      have hsome : r.consumed.length + 4095 - r.accepted.length =
          r.consumed.length + 4095 - (r.accepted.length + 1) + 1 := by omega
      rw [haccepted, hconsumed, List.length_append, List.length_singleton] at hrest
      rw [hsome, List.take_succ_cons]
      exact hrest.trans (List.append_assoc _ _ _)

/-- What is known of a terminal at any time. -/
structure Inv (s : VtKeys τ) : Prop where
  fifo : s.readers.Fifo
  stream : s.readers.accepted = s.keys.flatMap Prod.snd

theorem init_inv : Inv (init : VtKeys τ) := ⟨VtReaders.init_fifo, rfl⟩

theorem Inv.press_keys {s : VtKeys τ} (h : Inv s) (e : KeyboardEvent) :
    (s.press e).keys = s.keys ++ [(e, e.encoding.take (4095 - s.readers.vt.pending.length))] := by
  have hpending : s.readers.vt.pending.length =
      s.readers.accepted.length - s.readers.consumed.length := by
    rw [h.fifo.pending_eq, List.length_drop]
  have hle := h.fifo.le
  have hcount : s.readers.consumed.length + 4095 - s.readers.accepted.length =
      4095 - s.readers.vt.pending.length := by omega
  have haccepted := (foldl_key h.fifo e.encoding).2.2
  rw [press]
  dsimp only
  rw [haccepted, List.drop_left, hcount]

theorem Inv.press_pending {s : VtKeys τ} (h : Inv s) (e : KeyboardEvent) :
    (s.press e).readers.vt.pending.length = s.readers.vt.pending.length +
      min (4095 - s.readers.vt.pending.length) e.encoding.length := by
  obtain ⟨hfifo, hconsumed, haccepted⟩ := foldl_key h.fifo e.encoding
  have hle := h.fifo.le
  rw [VtKeys.press]
  dsimp only
  rw [hfifo.pending_eq, h.fifo.pending_eq, hconsumed, haccepted, List.length_drop,
    List.length_drop, List.length_append, List.length_take]
  omega

theorem Inv.press {s : VtKeys τ} (h : Inv s) (e : KeyboardEvent) : Inv (s.press e) := by
  have haccepted := (foldl_key h.fifo e.encoding).2.2
  refine ⟨(foldl_key h.fifo e.encoding).1, ?_⟩
  rw [VtKeys.press]
  dsimp only
  rw [List.flatMap_append, ← h.stream, haccepted, List.drop_left, List.flatMap_singleton]

theorem take_whole_iff {bytes : List U8} {room : Nat} :
    (bytes.take room = bytes ∨ bytes.take room = []) ↔ room = 0 ∨ bytes.length ≤ room := by
  have hlength : (bytes.take room).length = min room bytes.length := List.length_take
  constructor
  · rintro (hall | hnone)
    · rw [hall] at hlength
      omega
    · rw [hnone, List.length_nil] at hlength
      omega
  · rintro (rfl | hfits)
    · exact .inr List.take_zero
    · exact .inl (List.take_of_length_le hfits)

theorem Inv.pending_le {s : VtKeys τ} (h : Inv s) : s.readers.vt.pending.length ≤ 4095 := by
  have hroom := h.fifo.room
  rw [h.fifo.pending_eq, List.length_drop]
  rw [vtInputBufferLength] at hroom
  omega

theorem init_whole : Whole (init : VtKeys τ) := ⟨rfl, fun _ hkey => absurd hkey List.not_mem_nil⟩

variable [DecidableEq τ]

/-- A step of a reader accepts nothing. -/
theorem next_accepted (r : VtReaders τ) (t : τ) (call : VtRead) (place : VtReadPlace) :
    (r.next t call place).accepted = r.accepted := by
  cases place with
  | test => rfl
  | load => rfl
  | store c => rfl
  | advance c =>
    rw [VtReaders.next]
    split <;> rfl

theorem reader_step {r r' : VtReaders τ} {event : VtInputEvent τ} (hkey : ∀ c, event ≠ .key c)
    (hs : r.step event = some r') : r'.accepted = r.accepted := by
  cases event with
  | key c => exact absurd rfl (hkey c)
  | read t length =>
    rw [VtReaders.step] at hs
    split at hs <;> cases hs
    rfl
  | resume t =>
    rw [VtReaders.step] at hs
    split at hs <;> cases hs
    rfl
  | next =>
    rw [VtReaders.step] at hs
    split at hs
    · next t place _ =>
      obtain ⟨call, -, rfl⟩ := Option.map_eq_some_iff.mp hs
      exact next_accepted r t call place
    · cases hs

/-- A step is a key, or one of a reader that leaves the keys alone. -/
theorem step_cases {s s' : VtKeys τ} {event : VtKeyEvent τ} (hs : s.step event = some s') :
    (∃ e, event = .press e ∧ s' = s.press e) ∨
      ∃ readerEvent, (∀ c, readerEvent ≠ .key c) ∧ s.readers.step readerEvent = some s'.readers ∧
        s'.keys = s.keys ∧ s.RoomFor event := by
  cases event with
  | press e => exact .inl ⟨e, rfl, (Option.some.inj hs).symm⟩
  | read t length =>
    obtain ⟨readers, hreaders, rfl⟩ := Option.map_eq_some_iff.mp hs
    exact .inr ⟨.read t length, (fun _ hc => by cases hc), hreaders, rfl, trivial⟩
  | resume t =>
    obtain ⟨readers, hreaders, rfl⟩ := Option.map_eq_some_iff.mp hs
    exact .inr ⟨.resume t, (fun _ hc => by cases hc), hreaders, rfl, trivial⟩
  | next =>
    obtain ⟨readers, hreaders, rfl⟩ := Option.map_eq_some_iff.mp hs
    exact .inr ⟨.next, (fun _ hc => by cases hc), hreaders, rfl, trivial⟩

theorem Inv.step {s s' : VtKeys τ} (h : Inv s) {event : VtKeyEvent τ}
    (hs : s.step event = some s') : Inv s' := by
  rcases step_cases hs with ⟨e, -, rfl⟩ | ⟨readerEvent, hkey, hreaders, hkeys, -⟩
  · exact h.press e
  · refine ⟨h.fifo.step hreaders, ?_⟩
    rw [reader_step hkey hreaders, hkeys]
    exact h.stream

/-- A step keeps the keys whole exactly when the key that is pressed has room. -/
theorem Inv.step_whole {s s' : VtKeys τ} (h : Inv s) {event : VtKeyEvent τ}
    (hs : s.step event = some s') : s'.Whole ↔ s.Whole ∧ s.RoomFor event := by
  have hstream := (h.step hs).stream
  rcases step_cases hs with ⟨e, rfl, rfl⟩ | ⟨readerEvent, hkey, hreaders, hkeys, hroom⟩
  · have hle := h.pending_le
    have hnew : (s.press e).Whole ↔ (∀ key ∈ s.keys, key.2 = key.1.encoding ∨ key.2 = []) ∧
        (4095 - s.readers.vt.pending.length = 0 ∨
          e.encoding.length ≤ 4095 - s.readers.vt.pending.length) := by
      rw [← take_whole_iff]
      constructor
      · intro hw
        have hall := hw.keys
        rw [h.press_keys e] at hall
        exact ⟨fun key hkey => hall key (List.mem_append_left _ hkey),
          hall _ (List.mem_append_right _ (List.mem_singleton_self _))⟩
      · rintro ⟨hold, hlast⟩
        refine ⟨hstream, ?_⟩
        rw [h.press_keys e]
        intro key hkey
        rcases List.mem_append.mp hkey with hkey | hkey
        · exact hold key hkey
        · obtain rfl := List.mem_singleton.mp hkey
          exact hlast
    rw [hnew, RoomFor]
    constructor
    · rintro ⟨hold, hlast⟩
      exact ⟨⟨h.stream, hold⟩, by omega⟩
    · rintro ⟨hold, hlast⟩
      exact ⟨hold.keys, by omega⟩
  · constructor
    · intro hw
      refine ⟨⟨h.stream, ?_⟩, hroom⟩
      rw [← hkeys]
      exact hw.keys
    · rintro ⟨hw, -⟩
      refine ⟨hstream, ?_⟩
      rw [hkeys]
      exact hw.keys

theorem Inv.run_whole {s s' : VtKeys τ} (h : Inv s) {events : List (VtKeyEvent τ)}
    (hrun : events.foldlM VtKeys.step s = some s') : s'.Whole ↔ s.Whole ∧ Roomy s events := by
  induction events generalizing s with
  | nil =>
    cases hrun
    exact (and_iff_left trivial).symm
  | cons event events ih =>
    rw [List.foldlM_cons] at hrun
    obtain ⟨s₁, hs, hrest⟩ := Option.bind_eq_some_iff.mp hrun
    have hroomy : Roomy s (event :: events) ↔ s.RoomFor event ∧ Roomy s₁ events := by
      rw [Roomy]
      refine and_congr_right fun _ => ⟨fun hall => hall s₁ hs, fun h₁ s₂ hs₂ => ?_⟩
      obtain rfl := Option.some.inj (hs.symm.trans hs₂)
      exact h₁
    rw [ih (h.step hs) hrest, h.step_whole hs, hroomy, and_assoc]

/-- In any run of keys and readers the accepted characters are those of whole keys exactly when
no key finds room for only some of its characters. -/
theorem key_events_whole_iff {s : VtKeys τ} (events : List (VtKeyEvent τ))
    (hrun : run events = some s) : s.Whole ↔ Roomy init events := by
  rw [init_inv.run_whole hrun]
  exact and_iff_right init_whole

theorem key_events_whole_arrow : ∃ s : VtKeys Bool,
    run [.press ⟨kbdNonascii, kbdArrowUp⟩, .read true 1, .resume true] = some s ∧ s.Whole := by
  refine ⟨_, rfl, ?_⟩
  refine (key_events_whole_iff (τ := Bool)
    [.press ⟨kbdNonascii, kbdArrowUp⟩, .read true 1, .resume true] rfl).mpr ?_
  refine ⟨.inr (by decide), fun s₁ _ => ⟨trivial, fun s₂ _ => ⟨trivial, fun _ _ => trivial⟩⟩⟩

/-- Characters that nobody reads. -/
theorem run_typed (n : Nat) (hn : n ≤ 4095) : ∃ s : VtKeys τ,
    run (List.replicate n (.press ⟨kbdAscii, 97⟩)) = some s ∧
      Inv s ∧ s.readers.vt.pending.length = n := by
  induction n with
  | zero => exact ⟨init, rfl, init_inv, by rw [init_inv.fifo.pending_eq]; rfl⟩
  | succ n ih =>
    obtain ⟨s, hrun, hinv, hpending⟩ := ih (by omega)
    refine ⟨s.press ⟨kbdAscii, 97⟩, ?_, hinv.press _, ?_⟩
    · rw [run] at hrun ⊢
      rw [List.replicate_succ', List.foldlM_append, hrun]
      rfl
    · have hlength : (KeyboardEvent.encoding ⟨kbdAscii, 97⟩).length = 1 := by decide
      rw [hinv.press_pending, hpending, hlength]
      omega

/-- An arrow key with room for its first character. -/
theorem arrow_key_cut : ¬ ∀ (events : List (VtKeyEvent Bool)) (s : VtKeys Bool),
    run events = some s → s.Whole := by
  intro h
  obtain ⟨s, hrun, hinv, hpending⟩ := run_typed (τ := Bool) 4094 (by decide)
  have hpress : s.step (.press ⟨kbdNonascii, kbdArrowUp⟩) =
      some (s.press ⟨kbdNonascii, kbdArrowUp⟩) := rfl
  have hwhole := h (List.replicate 4094 (.press ⟨kbdAscii, 97⟩) ++
    [.press ⟨kbdNonascii, kbdArrowUp⟩]) (s.press ⟨kbdNonascii, kbdArrowUp⟩) (by
      rw [run] at hrun ⊢
      rw [List.foldlM_append, hrun]
      rfl)
  have hroom := ((hinv.step_whole hpress).mp hwhole).2
  have hlength : (KeyboardEvent.encoding ⟨kbdNonascii, kbdArrowUp⟩).length = 3 := by decide
  rw [RoomFor, hpending, hlength] at hroom
  omega

end VtKeys

end Persistos
