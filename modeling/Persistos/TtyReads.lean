import Persistos.TtyInput
import Persistos.Theory.ByteMemory

/-! One call of `vt_read` with its pointers. Keys come between any two of its statements, and
other calls take characters while it is in `task_yield`. -/

namespace Persistos

open Theory

namespace VtInput

variable {vt : VtInput}

def InRange (vt : VtInput) : Prop := vt.inputRbHeadIdx.toNat < 4096 ∧ vt.inputRbTailIdx.toNat < 4096

def moveHead (vt : VtInput) : VtInput :=
  { vt with inputRbHeadIdx := (vt.inputRbHeadIdx + 1) % 4096 }

/-- The buffer of readers that took as many characters as the head says. -/
theorem InRange.exists_fifo (h : vt.InRange) : ∃ accepted consumed : List U8,
    VtReaders.Fifo (τ := Unit) ⟨vt, fun _ => none, none, accepted, consumed⟩ := by
  obtain ⟨hhead, htail⟩ := h
  have hmod := Nat.mod_lt (4096 + vt.inputRbTailIdx.toNat - vt.inputRbHeadIdx.toNat)
    (Nat.zero_lt_succ 4095)
  have hlength : vt.pending.length =
      (4096 + vt.inputRbTailIdx.toNat - vt.inputRbHeadIdx.toNat) % 4096 := by
    simp [pending, vtInputBufferLength]
  refine ⟨List.replicate vt.inputRbHeadIdx.toNat 0 ++ vt.pending,
    List.replicate vt.inputRbHeadIdx.toNat 0, ?_⟩
  constructor
  · simp [vtInputBufferLength, Nat.mod_eq_of_lt hhead]
  · simp only [List.length_append, List.length_replicate, hlength, vtInputBufferLength]
    omega
  · simp only [List.length_append, List.length_replicate, hlength, vtInputBufferLength]
    omega
  · intro k e hk he
    simp only [List.length_replicate] at hk
    obtain ⟨j, rfl⟩ := Nat.exists_eq_add_of_le hk
    rw [List.getElem?_append_right (by simp), List.length_replicate, Nat.add_sub_cancel_left,
      pending, List.getElem?_map] at he
    obtain ⟨i, hi, rfl⟩ := Option.map_eq_some_iff.mp he
    obtain ⟨-, rfl⟩ := List.getElem?_eq_some_iff.mp hi
    simp [List.getElem_range]
  · simp
  · intro t place hp
    cases hp

theorem InRange.head_ne_tail_iff (h : vt.InRange) :
    vt.inputRbHeadIdx ≠ vt.inputRbTailIdx ↔ vt.pending ≠ [] := by
  obtain ⟨accepted, consumed, hfifo⟩ := h.exists_fifo
  have hpending := hfifo.pending_eq
  dsimp only at hpending
  rw [hpending, ne_eq (List.drop _ _), List.drop_eq_nil_iff, Nat.not_le]
  refine ⟨hfifo.unread, fun hlt heq => mod_ne_mod_of_lt hlt hfifo.room ?_⟩
  rw [← hfifo.head, ← hfifo.tail, heq]

theorem InRange.append (h : vt.InRange) (c : U8) : (vt.vtAppendInputCharacter c).InRange ∧
    (vt.vtAppendInputCharacter c).pending = if vt.full then vt.pending else vt.pending ++ [c] := by
  obtain ⟨accepted, consumed, hfifo⟩ := h.exists_fifo
  have hkey := hfifo.key c
  refine ⟨⟨VtReaders.Fifo.index_lt _ hkey.head, VtReaders.Fifo.index_lt _ hkey.tail⟩, ?_⟩
  have hpending := hfifo.pending_eq
  have hpending' := hkey.pending_eq
  have hle := hfifo.le
  dsimp only [VtReaders.key] at hpending hpending' hle
  rw [hpending', hpending]
  split
  · rfl
  · exact List.drop_append_of_le_length hle

/-- The character at the head is the first that is pending. -/
theorem InRange.moveHead (h : vt.InRange) (hne : vt.pending ≠ []) : vt.moveHead.InRange ∧
    vt.pending = vt.inputRb vt.inputRbHeadIdx.toNat :: vt.moveHead.pending := by
  obtain ⟨accepted, consumed, hfifo⟩ := h.exists_fifo
  have hlt := hfifo.unread (h.head_ne_tail_iff.mpr hne)
  have hnext := hfifo.advance ⟨hlt, rfl⟩ () ⟨0, []⟩
  have hmoved : ∀ r : VtReaders Unit, r.Fifo → r.vt = vt.moveHead → r.accepted = accepted →
      r.consumed.length = consumed.length + 1 → vt.moveHead.InRange ∧
        vt.moveHead.pending = accepted.drop (consumed.length + 1) := by
    intro r hr hvt ha hc
    rw [← hvt, hr.pending_eq, ha, hc]
    exact ⟨⟨VtReaders.Fifo.index_lt _ hr.head, VtReaders.Fifo.index_lt _ hr.tail⟩, rfl⟩
  have hafter : vt.moveHead.InRange ∧
      vt.moveHead.pending = accepted.drop (consumed.length + 1) := by
    refine hmoved _ hnext ?_ ?_ ?_ <;> simp only [VtReaders.next] <;> split <;>
      simp [VtInput.moveHead]
  have hpending := hfifo.pending_eq
  have hslot := hfifo.pending consumed.length _ (Nat.le_refl _) (List.getElem?_eq_getElem hlt)
  have hhead := hfifo.head
  dsimp only at hpending hslot hhead hlt
  refine ⟨hafter.1, ?_⟩
  rw [hafter.2, hpending, hhead, hslot]
  exact List.drop_eq_getElem_cons hlt

end VtInput

inductive VtCallPlace where
  | yield
  | inside (place : VtReadPlace)
  | returned (result : U64)

/-- The stream is what was in the buffer of the terminal at the call or has come since, less what
other calls took. -/
structure VtCall where
  vt : VtInput
  memory : ByteMemory
  buf : U64
  place : VtCallPlace
  stream : List U8
  taken : List U8

inductive VtCallEvent where
  | key (character : U8)
  | otherTakes
  | next
  deriving DecidableEq

namespace VtCall

def start (vt : VtInput) (memory : ByteMemory) (buffer : U64) : VtCall :=
  ⟨vt, memory, buffer, .yield, vt.pending, []⟩

section Run

variable (buffer length : U64)

def nextInside (s : VtCall) : VtReadPlace → VtCall
  | .test =>
    { s with place := if s.vt.inputRbHeadIdx ≠ s.vt.inputRbTailIdx then .inside .load else .yield }
  | .load => { s with place := .inside (.store (s.vt.inputRb s.vt.inputRbHeadIdx.toNat)) }
  | .store c =>
    { s with
      memory := Function.update s.memory s.buf c
      buf := s.buf + 1
      place := .inside (.advance c) }
  | .advance c =>
    { s with
      vt := s.vt.moveHead
      taken := s.taken ++ [c]
      place := if s.buf = buffer + length then .returned length else .inside .test }

/-- The next statement. `task_yield` ends in the test of the inner loop. -/
def next (s : VtCall) : VtCall :=
  match s.place with
  | .yield => { s with place := .inside .test }
  | .inside place => s.nextInside buffer length place
  | .returned _ => s

def key (s : VtCall) (character : U8) : VtCall :=
  { s with
    vt := s.vt.vtAppendInputCharacter character
    stream := if s.vt.full then s.stream else s.stream ++ [character] }

def step (s : VtCall) : VtCallEvent → Option VtCall
  | .key character => some (s.key character)
  | .otherTakes =>
    match s.place with
    | .yield =>
      if s.vt.inputRbHeadIdx ≠ s.vt.inputRbTailIdx then
        some { s with vt := s.vt.moveHead, stream := s.stream.eraseIdx s.taken.length }
      else none
    | _ => none
  | .next => some (s.next buffer length)

def run (s : VtCall) (events : List VtCallEvent) : Option VtCall :=
  events.foldlM (step buffer length) s

end Run

/-- What a read promises in each state it reaches: it has put what it took into its buffer and
nothing else, and once the stream is long enough only its own steps are left. -/
structure Fills (buffer length : U64) (memory : ByteMemory) (s : VtCall) : Prop where
  frame : ∀ x, length.toNat ≤ (x - buffer).toNat → s.memory x = memory x
  stored : ∀ i c, s.taken[i]? = some c → s.memory (buffer + BitVec.ofNat 64 i) = c
  stream : s.stream = s.taken ++ s.vt.pending
  bounded : s.taken.length ≤ length.toNat
  result : ∀ r, s.place = .returned r → r = length ∧ s.taken.length = length.toNat
  prompt : length.toNat ≤ s.stream.length → ∀ events s', run buffer length s events = some s' →
    .otherTakes ∉ events → 4 * length.toNat + 1 ≤ events.count .next →
      s'.place = .returned length

def ReadFills (length : U64) : Prop :=
  ∀ (vt : VtInput) (memory : ByteMemory) (buffer : U64), vt.InRange → ∀ events s,
    run buffer length (start vt memory buffer) events = some s → s.Fills buffer length memory

/-- The call has taken characters, but not all that it wants. -/
structure Under (buffer length : U64) (s : VtCall) (written : Nat) : Prop where
  taken : s.taken.length < length.toNat
  buf : s.buf = buffer + BitVec.ofNat 64 written

def Knows (buffer length : U64) (s : VtCall) : VtCallPlace → Prop
  | .yield => s.Under buffer length s.taken.length
  | .inside .test => s.Under buffer length s.taken.length
  | .inside .load => s.Under buffer length s.taken.length ∧ s.vt.pending ≠ []
  | .inside (.store c) => s.Under buffer length s.taken.length ∧ s.vt.pending.head? = some c
  | .inside (.advance c) => s.Under buffer length (s.taken.length + 1) ∧
    s.vt.pending.head? = some c ∧ s.memory (buffer + BitVec.ofNat 64 s.taken.length) = c
  | .returned r => r = length ∧ s.taken.length = length.toNat

structure Reading (buffer length : U64) (memory : ByteMemory) (s : VtCall) : Prop where
  ring : s.vt.InRange
  frame : ∀ x, length.toNat ≤ (x - buffer).toNat → s.memory x = memory x
  stored : ∀ i c, s.taken[i]? = some c → s.memory (buffer + BitVec.ofNat 64 i) = c
  stream : s.stream = s.taken ++ s.vt.pending
  knows : s.Knows buffer length s.place

variable {vt : VtInput} {memory : ByteMemory} {buffer length : U64} {s s' : VtCall}

theorem start_reading (h : vt.InRange) (hlength : length ≠ 0) :
    (start vt memory buffer).Reading buffer length memory where
  ring := h
  frame _ _ := rfl
  stored i c hc := by simp [start] at hc
  stream := by simp [start]
  knows := by
    refine ⟨?_, by simp [start]⟩
    simp only [start, List.length_nil]
    bv_omega

theorem Knows.bounded (h : s.Knows buffer length s.place) : s.taken.length ≤ length.toNat := by
  cases hp : s.place with
  | yield =>
    rw [hp] at h
    exact Nat.le_of_lt h.taken
  | inside place =>
    rw [hp] at h
    cases place with
    | test => exact Nat.le_of_lt h.taken
    | load => exact Nat.le_of_lt h.1.taken
    | store c => exact Nat.le_of_lt h.1.taken
    | advance c => exact Nat.le_of_lt h.1.taken
  | returned r =>
    rw [hp] at h
    exact Nat.le_of_eq h.2

namespace Reading

theorem key (h : s.Reading buffer length memory) (c : U8) :
    (s.key c).Reading buffer length memory := by
  obtain ⟨hring, hpending⟩ := h.ring.append c
  have hgrow : ∃ more, (s.key c).vt.pending = s.vt.pending ++ more := by
    rw [VtCall.key, hpending]
    split
    · exact ⟨[], by simp⟩
    · exact ⟨[c], rfl⟩
  obtain ⟨more, hmore⟩ := hgrow
  have hfirst : ∀ d, s.vt.pending.head? = some d → (s.key c).vt.pending.head? = some d := by
    intro d hd
    rw [hmore, List.head?_append, hd, Option.some_or]
  have hknows : ∀ place, s.Knows buffer length place → (s.key c).Knows buffer length place := by
    intro place hk
    have hunder : ∀ n, s.Under buffer length n → (s.key c).Under buffer length n :=
      fun _ hu => ⟨hu.taken, hu.buf⟩
    cases place with
    | yield => exact hunder _ hk
    | inside place =>
      cases place with
      | test => exact hunder _ hk
      | load => exact ⟨hunder _ hk.1, by simp [hmore, hk.2]⟩
      | store d => exact ⟨hunder _ hk.1, hfirst d hk.2⟩
      | advance d => exact ⟨hunder _ hk.1, hfirst d hk.2.1, hk.2.2⟩
    | returned r => exact hk
  refine ⟨hring, h.frame, h.stored, ?_, hknows _ h.knows⟩
  simp only [VtCall.key, hpending, h.stream]
  split <;> simp

theorem otherTakes (h : s.Reading buffer length memory)
    (hs : s.step buffer length .otherTakes = some s') : s'.Reading buffer length memory := by
  simp only [step] at hs
  split at hs
  · next hplace =>
    split at hs
    · next hne =>
      cases hs
      have hpending := h.ring.head_ne_tail_iff.mp hne
      obtain ⟨hring, hfirst⟩ := h.ring.moveHead hpending
      have hknows := h.knows
      rw [hplace] at hknows
      refine ⟨hring, h.frame, h.stored, ?_, ?_⟩
      · simp only [h.stream]
        rw [List.eraseIdx_append_of_length_le (Nat.le_refl _), Nat.sub_self, hfirst,
          List.eraseIdx_zero, List.tail_cons]
      · simp only [hplace]
        exact ⟨hknows.taken, hknows.buf⟩
    · cases hs
  · cases hs

theorem store (h : s.Reading buffer length memory) {c : U8} (hplace : s.place = .inside (.store c)) :
    (s.nextInside buffer length (.store c)).Reading buffer length memory := by
  have hknows := h.knows
  rw [hplace] at hknows
  obtain ⟨⟨htaken, hbuf⟩, hfirst⟩ := hknows
  have hlt := length.isLt
  refine ⟨h.ring, ?_, ?_, h.stream, ?_⟩
  · intro x hx
    have hne : x ≠ s.buf := by
      rintro rfl
      rw [hbuf] at hx
      bv_omega
    simp only [nextInside, Function.update_of_ne hne]
    exact h.frame x hx
  · intro i d hd
    have hi := (List.getElem?_eq_some_iff.mp hd).1
    have hne : buffer + BitVec.ofNat 64 i ≠ s.buf := by
      rw [hbuf]
      intro heq
      simp only [nextInside] at hi
      bv_omega
    simp only [nextInside, Function.update_of_ne hne]
    exact h.stored i d hd
  · refine ⟨⟨htaken, ?_⟩, hfirst, ?_⟩
    · simp only [nextInside, hbuf]
      bv_omega
    · simp [nextInside, hbuf]

theorem advance (h : s.Reading buffer length memory) {c : U8}
    (hplace : s.place = .inside (.advance c)) :
    (s.nextInside buffer length (.advance c)).Reading buffer length memory := by
  have hknows := h.knows
  rw [hplace] at hknows
  obtain ⟨⟨htaken, hbuf⟩, hfirst, hmemory⟩ := hknows
  have hlt := length.isLt
  have hne : s.vt.pending ≠ [] := by
    intro hnil
    rw [hnil] at hfirst
    cases hfirst
  obtain ⟨hring, hpending⟩ := h.ring.moveHead hne
  rw [hpending, List.head?_cons, Option.some_inj] at hfirst
  refine ⟨hring, h.frame, ?_, ?_, ?_⟩
  · intro i d hd
    rcases Nat.lt_or_ge i s.taken.length with hi | hi
    · simp only [nextInside, List.getElem?_append_left hi] at hd
      exact h.stored i d hd
    · have hlast := (List.getElem?_eq_some_iff.mp hd).1
      simp only [nextInside, List.length_append, List.length_singleton] at hlast
      obtain rfl : i = s.taken.length := by omega
      simp only [nextInside, List.getElem?_concat_length, Option.some_inj] at hd
      rw [← hd]
      exact hmemory
  · simp only [nextInside, h.stream]
    rw [hpending, hfirst, List.append_assoc, List.singleton_append]
  · have hlength : (s.taken ++ [c]).length = s.taken.length + 1 := by simp
    simp only [nextInside]
    split
    · next hend =>
      refine ⟨rfl, ?_⟩
      rw [hlength]
      rw [hbuf] at hend
      bv_omega
    · next hend =>
      refine ⟨?_, ?_⟩
      · rw [hlength]
        rw [hbuf] at hend
        have hall : s.taken.length + 1 ≠ length.toNat := by
          intro heq
          apply hend
          rw [heq, BitVec.ofNat_toNat, BitVec.setWidth_eq]
        omega
      · rw [hlength]
        exact hbuf

theorem next (h : s.Reading buffer length memory) :
    (s.next buffer length).Reading buffer length memory := by
  have hknows := h.knows
  cases hplace : s.place with
  | yield =>
    rw [hplace] at hknows
    simp only [VtCall.next, hplace]
    exact ⟨h.ring, h.frame, h.stored, h.stream, ⟨hknows.taken, hknows.buf⟩⟩
  | inside place =>
    rw [hplace] at hknows
    simp only [VtCall.next, hplace]
    cases place with
    | test =>
      refine ⟨h.ring, h.frame, h.stored, h.stream, ?_⟩
      simp only [nextInside]
      split
      · next hne => exact ⟨⟨hknows.taken, hknows.buf⟩, h.ring.head_ne_tail_iff.mp hne⟩
      · exact ⟨hknows.taken, hknows.buf⟩
    | load =>
      obtain ⟨hunder, hne⟩ := hknows
      refine ⟨h.ring, h.frame, h.stored, h.stream, ⟨hunder.taken, hunder.buf⟩, ?_⟩
      simp only [nextInside]
      rw [(h.ring.moveHead hne).2, List.head?_cons]
    | store c => exact h.store hplace
    | advance c => exact h.advance hplace
  | returned r =>
    simp only [VtCall.next, hplace]
    exact h

theorem step (h : s.Reading buffer length memory) {event : VtCallEvent}
    (hs : s.step buffer length event = some s') : s'.Reading buffer length memory := by
  cases event with
  | key c =>
    cases hs
    exact h.key c
  | otherTakes => exact h.otherTakes hs
  | next =>
    cases hs
    exact h.next

theorem run {events : List VtCallEvent} (h : s.Reading buffer length memory)
    (hrun : run buffer length s events = some s') : s'.Reading buffer length memory := by
  induction events generalizing s with
  | nil =>
    cases hrun
    exact h
  | cons event events ih =>
    rw [VtCall.run, List.foldlM_cons] at hrun
    obtain ⟨s₁, hs, hrest⟩ := Option.bind_eq_some_iff.mp hrun
    exact ih (h.step hs) hrest

end Reading

/-- The steps that are left when the characters that are wanted have come. -/
def stepsLeft (length : U64) (s : VtCall) : Nat :=
  let wanted := 4 * (length.toNat - s.taken.length)
  match s.place with
  | .yield => wanted + 1
  | .inside .test => wanted
  | .inside .load => wanted - 1
  | .inside (.store _) => wanted - 2
  | .inside (.advance _) => wanted - 3
  | .returned _ => 0

theorem stepsLeft_le (s : VtCall) : s.stepsLeft length ≤ 4 * length.toNat + 1 := by
  simp only [stepsLeft]
  split <;> omega

theorem Reading.returned (h : s.Reading buffer length memory) (hzero : s.stepsLeft length = 0) :
    s.place = .returned length := by
  have hknows := h.knows
  simp only [stepsLeft] at hzero
  cases hplace : s.place with
  | yield => simp [hplace] at hzero
  | inside place =>
    rw [hplace] at hknows
    cases place with
    | test =>
      simp only [hplace] at hzero
      have htaken := hknows.taken
      omega
    | load =>
      simp only [hplace] at hzero
      have htaken := hknows.1.taken
      omega
    | store c =>
      simp only [hplace] at hzero
      have htaken := hknows.1.taken
      omega
    | advance c =>
      simp only [hplace] at hzero
      have htaken := hknows.1.taken
      omega
  | returned r =>
    rw [hplace] at hknows
    rw [hknows.1]

theorem Reading.stepsLeft_next (h : s.Reading buffer length memory)
    (hstream : length.toNat ≤ s.stream.length) :
    (s.next buffer length).stepsLeft length ≤ s.stepsLeft length - 1 := by
  have hknows := h.knows
  have hbehind : s.taken.length < length.toNat → s.vt.pending ≠ [] := by
    intro hlt hnil
    rw [h.stream, hnil, List.append_nil] at hstream
    omega
  cases hplace : s.place with
  | yield => simp [VtCall.next, stepsLeft, hplace]
  | inside place =>
    rw [hplace] at hknows
    cases place with
    | test =>
      have hne := h.ring.head_ne_tail_iff.mpr (hbehind hknows.taken)
      simp [VtCall.next, nextInside, stepsLeft, hplace, hne]
    | load =>
      simp only [VtCall.next, nextInside, stepsLeft, hplace]
      omega
    | store c =>
      simp only [VtCall.next, nextInside, stepsLeft, hplace]
      omega
    | advance c =>
      simp only [VtCall.next, nextInside, stepsLeft, hplace]
      by_cases hend : s.buf = buffer + length
      · simp [hend]
      · simp only [if_neg hend, List.length_append, List.length_singleton]
        omega
  | returned r => simp [VtCall.next, stepsLeft, hplace]

theorem Reading.stepsLeft_run {events : List VtCallEvent} (h : s.Reading buffer length memory)
    (hstream : length.toNat ≤ s.stream.length) (hother : .otherTakes ∉ events)
    (hrun : VtCall.run buffer length s events = some s') :
    s'.stepsLeft length ≤ s.stepsLeft length - events.count .next := by
  induction events generalizing s with
  | nil =>
    cases hrun
    simp
  | cons event events ih =>
    rw [VtCall.run, List.foldlM_cons] at hrun
    obtain ⟨s₁, hs, hrest⟩ := Option.bind_eq_some_iff.mp hrun
    have hreading := h.step hs
    rw [List.mem_cons, not_or] at hother
    cases event with
    | key c =>
      cases hs
      have hlonger : length.toNat ≤ (s.key c).stream.length := by
        simp only [VtCall.key]
        split
        · exact hstream
        · rw [List.length_append]
          omega
      have hleft := ih hreading hlonger hother.2 hrest
      simp only [List.count_cons_of_ne (show VtCallEvent.key c ≠ .next by simp)]
      exact hleft
    | otherTakes => exact absurd rfl hother.1
    | next =>
      cases hs
      have hsame : (s.next buffer length).stream = s.stream := by
        simp only [VtCall.next]
        split
        · rfl
        · next place _ => cases place <;> rfl
        · rfl
      have hleft := ih hreading (by rwa [hsame]) hother.2 hrest
      have hnext := h.stepsLeft_next hstream
      rw [List.count_cons_self]
      omega

theorem Reading.fills (h : s.Reading buffer length memory) : s.Fills buffer length memory where
  frame := h.frame
  stored := h.stored
  stream := h.stream
  bounded := h.knows.bounded
  result r hr := by
    have hknows := h.knows
    rw [hr] at hknows
    exact hknows
  prompt hstream events s' hrun hother hcount := by
    have hleft := h.stepsLeft_run hstream hother hrun
    have hmost : s.stepsLeft length ≤ 4 * length.toNat + 1 := stepsLeft_le s
    exact (h.run hrun).returned (by omega)

theorem run_key_store (b : U64) : ∃ s, run b 0 (start ⟨0, 0, fun _ => 0⟩ (fun _ => 0) b)
    [.key 97, .next, .next, .next, .next, .next] = some s ∧ s.memory b = 97 ∧ s.taken = [97] ∧
      s.place = .inside .test := by
  simp [run, step, start, key, next, nextInside, VtInput.vtAppendInputCharacter, VtInput.full,
    VtInput.moveHead]

theorem not_readFills_zero : ¬ReadFills 0 := by
  intro h
  obtain ⟨s, hrun, -, htaken, -⟩ := run_key_store 0
  have hbounded := (h _ _ _ ⟨by decide, by decide⟩ _ _ hrun).bounded
  simp [htaken] at hbounded

/-- The end test comes after a store, so a read of length 0 misses it. -/
theorem vt_read_fills (length : U64) : ReadFills length ↔ length ≠ 0 := by
  constructor
  · rintro h rfl
    exact not_readFills_zero h
  · intro hlength vt memory buffer hring events s hrun
    exact ((start_reading hring hlength).run hrun).fills

/-- A key ends up at the address of a buffer of length 0, and the read goes on. -/
theorem vt_read_empty : ¬ReadFills 0 ∧
    ∃ s, run 0x1000 0 (start ⟨0, 0, fun _ => 0⟩ (fun _ => 0) 0x1000)
      [.key 97, .next, .next, .next, .next, .next] = some s ∧ s.memory 0x1000 = 97 ∧
        s.taken = [97] ∧ s.place = .inside .test :=
  ⟨not_readFills_zero, run_key_store 0x1000⟩

end VtCall

end Persistos
