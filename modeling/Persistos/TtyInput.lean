import Persistos.Word
import Persistos.Theory.SlotRing

/-! The keyboard buffer of a terminal. The interrupt handler puts characters in while the
tasks in `vt_read` take them out, and it comes between any two of their steps. -/

namespace Persistos

open Theory

def vtInputBufferLength : Nat := 4096

structure VtInput where
  inputRbHeadIdx : U32
  inputRbTailIdx : U32
  inputRb : Nat → U8

namespace VtInput

/-- The test of `vt_append_input_character` for a full buffer. -/
def full (vt : VtInput) : Bool := (4096 + vt.inputRbHeadIdx - vt.inputRbTailIdx) % 4096 = 1

def vtAppendInputCharacter (vt : VtInput) (character : U8) : VtInput :=
  if vt.full then vt
  else { vt with
    inputRb := Function.update vt.inputRb vt.inputRbTailIdx.toNat character
    inputRbTailIdx := (vt.inputRbTailIdx + 1) % 4096 }

/-- The bytes from the head up to the tail. -/
def pending (vt : VtInput) : List U8 :=
  (List.range ((vtInputBufferLength + vt.inputRbTailIdx.toNat - vt.inputRbHeadIdx.toNat) %
    vtInputBufferLength)).map fun k =>
      vt.inputRb ((vt.inputRbHeadIdx.toNat + k) % vtInputBufferLength)

end VtInput

/-- The statement of the inner loop of `vt_read` that comes next. -/
inductive VtReadPlace where
  | test
  | load
  | store (c : U8)
  | advance (c : U8)

/-- A call of `vt_read`, and what it has put into its buffer. -/
structure VtRead where
  length : Nat
  buf : List U8

/-- At most one task is in the inner loop, and the other calls are in `task_yield`. -/
structure VtReaders (τ : Type) where
  vt : VtInput
  calls : τ → Option VtRead
  inside : Option (τ × VtReadPlace)
  accepted : List U8
  consumed : List U8

inductive VtInputEvent (τ : Type) where
  | key (character : U8)
  | read (t : τ) (length : Nat)
  | resume (t : τ)
  | next

namespace VtReaders

variable {τ : Type}

def init : VtReaders τ := ⟨⟨0, 0, fun _ => 0⟩, fun _ => none, none, [], []⟩

/-- One statement of the inner loop. -/
def next [DecidableEq τ] (s : VtReaders τ) (t : τ) (call : VtRead) : VtReadPlace → VtReaders τ
  | .test =>
    { s with inside :=
        if s.vt.inputRbHeadIdx ≠ s.vt.inputRbTailIdx then some (t, .load) else none }
  | .load => { s with inside := some (t, .store (s.vt.inputRb s.vt.inputRbHeadIdx.toNat)) }
  | .store c =>
    { s with
      calls := Function.update s.calls t (some { call with buf := call.buf ++ [c] })
      inside := some (t, .advance c) }
  | .advance c =>
    let s := { s with
      vt := { s.vt with inputRbHeadIdx := (s.vt.inputRbHeadIdx + 1) % 4096 }
      consumed := s.consumed ++ [c] }
    if call.buf.length = call.length then
      { s with
        calls := Function.update s.calls t none
        inside := none }
    else { s with inside := some (t, .test) }

/-- What the interrupt handler does with a character, at any time. -/
def key (s : VtReaders τ) (character : U8) : VtReaders τ :=
  { s with
    vt := s.vt.vtAppendInputCharacter character
    accepted := if s.vt.full then s.accepted else s.accepted ++ [character] }

def step [DecidableEq τ] (s : VtReaders τ) : VtInputEvent τ → Option (VtReaders τ)
  | .key character => some (s.key character)
  | .read t length =>
    match s.inside, s.calls t with
    | none, none => some { s with calls := Function.update s.calls t (some ⟨length, []⟩) }
    | _, _ => none
  | .resume t =>
    match s.inside, s.calls t with
    | none, some _ => some { s with inside := some (t, .test) }
    | _, _ => none
  | .next =>
    match s.inside with
    | some (t, place) => (s.calls t).map fun call => s.next t call place
    | none => none

def run [DecidableEq τ] (events : List (VtInputEvent τ)) : Option (VtReaders τ) :=
  events.foldlM step init

/-- What a task knows at a place of the loop. -/
def Knows (s : VtReaders τ) : VtReadPlace → Prop
  | .test => True
  | .load => s.consumed.length < s.accepted.length
  | .store c => s.consumed.length < s.accepted.length ∧
    s.vt.inputRb (s.consumed.length % vtInputBufferLength) = c
  | .advance c => s.consumed.length < s.accepted.length ∧
    s.vt.inputRb (s.consumed.length % vtInputBufferLength) = c

structure Fifo (s : VtReaders τ) : Prop where
  head : s.vt.inputRbHeadIdx.toNat = s.consumed.length % vtInputBufferLength
  tail : s.vt.inputRbTailIdx.toNat = s.accepted.length % vtInputBufferLength
  room : s.accepted.length < s.consumed.length + vtInputBufferLength
  pending : Pending vtInputBufferLength s.vt.inputRb s.accepted s.consumed.length
  taken : s.consumed = s.accepted.take s.consumed.length
  place : ∀ t place, s.inside = some (t, place) → s.Knows place

variable {s s' : VtReaders τ}

theorem init_fifo : Fifo (init : VtReaders τ) where
  head := rfl
  tail := rfl
  room := Nat.zero_lt_succ 4095
  pending := .nil
  taken := rfl
  place _ _ h := by cases h

theorem Fifo.le (h : Fifo s) : s.consumed.length ≤ s.accepted.length := by
  have htaken := congrArg List.length h.taken
  rw [List.length_take] at htaken
  omega

/-- The buffer is full with 4095 bytes. -/
theorem Fifo.full_iff (h : Fifo s) :
    s.vt.full = true ↔ s.accepted.length = s.consumed.length + 4095 := by
  have hle := h.le
  have hroom := h.room
  have hhead := h.head
  have htail := h.tail
  rw [vtInputBufferLength] at hroom hhead htail
  rw [VtInput.full, decide_eq_true_iff, ← BitVec.toNat_inj, BitVec.toNat_umod, BitVec.toNat_sub,
    BitVec.toNat_add, hhead, htail]
  change (2 ^ 32 - s.accepted.length % 4096 + (4096 + s.consumed.length % 4096) % 2 ^ 32) % 2 ^ 32 %
    4096 = 1 ↔ _
  omega

theorem Fifo.pending_eq (h : Fifo s) : s.vt.pending = s.accepted.drop s.consumed.length := by
  rw [VtInput.pending, h.head, h.tail]
  exact h.pending.between h.le h.room

theorem Fifo.index_next (n : Nat) {i : U32} (hi : i.toNat = n % vtInputBufferLength) :
    ((i + 1) % 4096 : U32).toNat = (n + 1) % vtInputBufferLength := by
  rw [vtInputBufferLength] at hi ⊢
  rw [BitVec.toNat_umod, BitVec.toNat_add, hi]
  change (n % 4096 + 1) % 2 ^ 32 % 4096 = _
  omega

theorem Fifo.index_lt (n : Nat) {i : U32} (hi : i.toNat = n % vtInputBufferLength) :
    i.toNat < 4096 := by
  rw [hi]
  exact Nat.mod_lt _ (Nat.zero_lt_succ 4095)

theorem Fifo.key (h : Fifo s) (character : U8) : Fifo (s.key character) := by
  rw [VtReaders.key, VtInput.vtAppendInputCharacter]
  by_cases hfull : s.vt.full = true
  · rw [if_pos hfull, if_pos hfull]
    exact h
  · have hle := h.le
    have hroom : s.accepted.length + 1 < s.consumed.length + vtInputBufferLength := by
      have hne := mt h.full_iff.mpr hfull
      have hlt := h.room
      rw [vtInputBufferLength] at hlt ⊢
      omega
    have hpending := h.pending.write (e := character) (Nat.lt_of_succ_lt hroom)
    rw [← h.tail] at hpending
    have hslot : s.consumed.length < s.accepted.length →
        Function.update s.vt.inputRb s.vt.inputRbTailIdx.toNat character
            (s.consumed.length % vtInputBufferLength) =
          s.vt.inputRb (s.consumed.length % vtInputBufferLength) := by
      intro hlt
      refine Function.update_of_ne ?_ _ _
      rw [h.tail]
      exact mod_ne_mod_of_lt hlt (Nat.lt_of_succ_lt hroom)
    rw [if_neg hfull, if_neg hfull]
    constructor
    · exact h.head
    · rw [List.length_append, List.length_singleton]
      exact index_next _ h.tail
    · rw [List.length_append, List.length_singleton]
      exact hroom
    · refine hpending.append ?_
      rw [← h.tail]
      exact Function.update_self _ _ _
    · have htaken := h.taken
      rw [List.take_append_of_le_length hle]
      exact htaken
    · intro t place hp
      have hknows := h.place t place hp
      have hgrow : s.consumed.length < s.accepted.length →
          s.consumed.length < (s.accepted ++ [character]).length := by
        intro hlt
        rw [List.length_append]
        omega
      cases place with
      | test => trivial
      | load => exact hgrow hknows
      | store c => exact ⟨hgrow hknows.1, (hslot hknows.1).trans hknows.2⟩
      | advance c => exact ⟨hgrow hknows.1, (hslot hknows.1).trans hknows.2⟩

/-- A step that leaves the buffer alone. -/
theorem Fifo.frame (h : Fifo s) (hvt : s'.vt = s.vt) (haccepted : s'.accepted = s.accepted)
    (hconsumed : s'.consumed = s.consumed)
    (hplace : ∀ t place, s'.inside = some (t, place) → s.Knows place) : Fifo s' := by
  obtain ⟨vt, calls, inside, accepted, consumed⟩ := s'
  obtain rfl : vt = s.vt := hvt
  obtain rfl : accepted = s.accepted := haccepted
  obtain rfl : consumed = s.consumed := hconsumed
  refine ⟨h.head, h.tail, h.room, h.pending, h.taken, ?_⟩
  intro t place hp
  have hknows := hplace t place hp
  cases place <;> exact hknows

theorem Fifo.unread (h : Fifo s) (hne : s.vt.inputRbHeadIdx ≠ s.vt.inputRbTailIdx) :
    s.consumed.length < s.accepted.length := by
  refine Nat.lt_of_le_of_ne h.le fun heq => hne ?_
  apply BitVec.eq_of_toNat_eq
  rw [h.head, h.tail, heq]

variable [DecidableEq τ]

/-- The character leaves the buffer when the head moves past it. -/
theorem Fifo.advance (h : Fifo s) {c : U8} (hknows : s.Knows (.advance c)) (t : τ)
    (call : VtRead) : Fifo (s.next t call (.advance c)) := by
  obtain ⟨hlt, hslot⟩ := hknows
  have htake : s.consumed ++ [c] = s.accepted.take (s.consumed.length + 1) := by
    rw [← h.pending.take hlt, hslot, ← h.taken]
  have hroom := h.room
  have hlength : (s.consumed ++ [c]).length = s.consumed.length + 1 := List.length_append
  have hmoved : ∀ calls inside, (∀ t place, inside = some (t, place) → place = .test) →
      Fifo (VtReaders.mk (τ := τ)
        { s.vt with inputRbHeadIdx := (s.vt.inputRbHeadIdx + 1) % 4096 } calls inside s.accepted
        (s.consumed ++ [c])) := by
    intro calls inside hinside
    constructor
    · rw [hlength]
      exact index_next _ h.head
    · exact h.tail
    · rw [hlength]
      change s.accepted.length < _
      omega
    · rw [hlength]
      exact h.pending.advance
    · rw [hlength]
      exact htake
    · intro u place hp
      rw [hinside u place hp]
      trivial
  rw [VtReaders.next]
  split
  · exact hmoved _ _ fun _ _ hp => by cases hp
  · exact hmoved _ _ fun _ _ hp => by cases hp; rfl

theorem Fifo.next (h : Fifo s) {t : τ} {place : VtReadPlace} (hplace : s.inside = some (t, place))
    (call : VtRead) : Fifo (s.next t call place) := by
  have hknows := h.place t place hplace
  cases place with
  | test =>
    refine h.frame rfl rfl rfl ?_
    intro u place hp
    rw [VtReaders.next] at hp
    split at hp
    · next hne =>
      cases hp
      exact h.unread hne
    · cases hp
  | load =>
    refine h.frame rfl rfl rfl ?_
    intro u place hp
    cases hp
    exact ⟨hknows, congrArg s.vt.inputRb h.head.symm⟩
  | store c =>
    refine h.frame rfl rfl rfl ?_
    intro u place hp
    cases hp
    exact hknows
  | advance c => exact h.advance hknows t call

theorem Fifo.step (h : Fifo s) {event : VtInputEvent τ} (hs : s.step event = some s') :
    Fifo s' := by
  cases event with
  | key character =>
    cases hs
    exact h.key character
  | read t length =>
    rw [VtReaders.step] at hs
    split at hs
    · next hinside _ =>
      cases hs
      exact h.frame rfl rfl rfl fun u place hp => by cases hinside.symm.trans hp
    · cases hs
  | resume t =>
    rw [VtReaders.step] at hs
    split at hs
    · cases hs
      exact h.frame rfl rfl rfl fun u place hp => by cases hp; trivial
    · cases hs
  | next =>
    rw [VtReaders.step] at hs
    split at hs
    · next t place hinside =>
      obtain ⟨call, -, rfl⟩ := Option.map_eq_some_iff.mp hs
      exact h.next hinside call
    · cases hs

theorem Fifo.run {events : List (VtInputEvent τ)} (h : Fifo s)
    (hrun : events.foldlM VtReaders.step s = some s') : Fifo s' := by
  induction events generalizing s with
  | nil =>
    cases hrun
    exact h
  | cons event events ih =>
    rw [List.foldlM_cons] at hrun
    obtain ⟨s₁, hs, hrest⟩ := Option.bind_eq_some_iff.mp hrun
    exact ih (h.step hs) hrest

/-- Whatever the keys and the readers do and in whatever order, the bytes consumed and the bytes
pending are those accepted, and a byte is dropped only when 4095 are pending. -/
theorem keyboard_fifo {s : VtReaders τ} (events : List (VtInputEvent τ))
    (hrun : run events = some s) :
    s.vt.inputRbHeadIdx.toNat < 4096 ∧ s.vt.inputRbTailIdx.toNat < 4096 ∧
      s.accepted = s.consumed ++ s.vt.pending ∧
      ∀ character, (s.key character).accepted = s.accepted ++ [character] ∨
        s.key character = s ∧ s.vt.pending.length = 4095 := by
  have hfifo : Fifo s := init_fifo.run hrun
  refine ⟨Fifo.index_lt _ hfifo.head, Fifo.index_lt _ hfifo.tail, ?_, ?_⟩
  · rw [hfifo.pending_eq]
    conv_lhs => rw [← List.take_append_drop s.consumed.length s.accepted, ← hfifo.taken]
  · intro character
    rw [key, VtInput.vtAppendInputCharacter]
    by_cases hfull : s.vt.full = true
    · right
      rw [if_pos hfull, if_pos hfull, hfifo.pending_eq, List.length_drop,
        hfifo.full_iff.mp hfull]
      exact ⟨rfl, by omega⟩
    · left
      exact if_neg hfull

/-- A key between the load and the advance of a read. -/
theorem keyboard_fifo_between : ∃ s, run (τ := Bool)
    [.key 97, .read true 2, .resume true, .next, .next, .key 98, .next, .next] = some s ∧
    s.consumed = [97] ∧ s.accepted = s.consumed ++ s.vt.pending := by
  refine ⟨_, rfl, rfl, ?_⟩
  exact (keyboard_fifo (τ := Bool)
    [.key 97, .read true 2, .resume true, .next, .next, .key 98, .next, .next] rfl).2.2.1

end VtReaders

end Persistos
