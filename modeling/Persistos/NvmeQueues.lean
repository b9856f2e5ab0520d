import Persistos.Word
import Persistos.Theory.PhaseRing

/-! The completion queues of an NVMe device and the interrupt handler that empties
them. Only the phase bit of an entry says whether it is new. -/

namespace Persistos

open Theory

def nvmeQueueSize : Nat := 64
def nvmeMaxCommands : Nat := 128

def nvmeCommandFree : U8 := 0x91
def nvmeCommandInFlight : U8 := 0x92
def nvmeCommandCompleted : U8 := 0x93

structure NvmeCqEntry where
  sqHeadPointer : U16
  commandIdentifier : U16
  statusField : U16
  deriving DecidableEq, Repr

/-- `head_acq_entry->status_field & 0x1` -/
def NvmeCqEntry.phase (entry : NvmeCqEntry) : Bool := entry.statusField &&& 1 ≠ 0

inductive NvmeQueue where
  | admin
  | io
  deriving DecidableEq, Repr

/-- For the admin queue `acq`, `acq_head`, `acq_phase`, `asq_tail`, `asq_head` and the
doorbell register of the head, for the other one `iocq`, `iocq_head` and so on. -/
structure NvmeQueueState where
  cq : Nat → NvmeCqEntry
  cqHead : U8
  cqPhase : Bool
  sqTail : U8
  sqHead : U8
  headDoorbell : U32

/-- The members of `struct nvme_device` that the commands and their completions use.
`commandStatuses` are the bytes from the start of that array on, and `finished` is the
history of the calls of `finish_command` for either queue. -/
structure NvmeQueues where
  queue : NvmeQueue → NvmeQueueState
  commandStatuses : Nat → U8
  finished : NvmeQueue → List U16

/-- A queue over memory that `memset` cleared. -/
def emptyQueueState : NvmeQueueState := ⟨fun _ => ⟨0, 0, 0⟩, 0, false, 0, 0, 0⟩

/-- The queues as `nvme_probe_2` sets them up. -/
def nvmeProbe2 : NvmeQueues := ⟨fun _ => emptyQueueState, fun _ => nvmeCommandFree, fun _ => []⟩

def finishCommand (commandStatuses : Nat → U8) (commandId : U16) : Nat → U8 :=
  Function.update commandStatuses commandId.toNat nvmeCommandCompleted

namespace NvmeQueueState

/-- `head_acq_entry` and `head_iocq_entry` -/
def headEntry (q : NvmeQueueState) : NvmeCqEntry := q.cq q.cqHead.toNat

/-- The head moves behind its entry, and wraps around with a new phase. -/
def takeHead (q : NvmeQueueState) : NvmeQueueState :=
  let q' := { q with cqHead := q.cqHead + 1, sqHead := q.headEntry.sqHeadPointer.setWidth 8 }
  if q'.cqHead = 64 then { q' with cqHead := 0, cqPhase := !q.cqPhase } else q'

def writeHeadDoorbell (q : NvmeQueueState) (doorbellWriteNeeded : Bool) : NvmeQueueState :=
  if doorbellWriteNeeded then { q with headDoorbell := q.cqHead.setWidth 32 } else q

theorem takeHead_readsAt {q : NvmeQueueState} {r : Nat}
    (h : ReadsAt nvmeQueueSize r q.cqHead.toNat q.cqPhase) :
    ReadsAt nvmeQueueSize (r + 1) q.takeHead.cqHead.toNat q.takeHead.cqPhase := by
  have hlt := h.head_lt (by decide)
  have hadv := h.advance (by decide)
  have hsucc : (q.cqHead + 1).toNat = q.cqHead.toNat + 1 := by
    simp only [nvmeQueueSize] at hlt
    bv_omega
  by_cases hw : q.cqHead + 1 = 64
  · have hn : q.cqHead.toNat + 1 = nvmeQueueSize := by rw [← hsucc, hw]; rfl
    rw [if_pos hn, if_pos hn] at hadv
    rwa [takeHead, if_pos hw]
  · have hn : q.cqHead.toNat + 1 ≠ nvmeQueueSize := by
      intro he
      apply hw
      apply BitVec.eq_of_toNat_eq
      rw [hsucc, he]
      rfl
    rw [if_neg hn, if_neg hn, ← hsucc] at hadv
    rwa [takeHead, if_neg hw]

end NvmeQueueState

namespace NvmeQueues

def setQueue (dev : NvmeQueues) (id : NvmeQueue) (q : NvmeQueueState) : NvmeQueues :=
  { dev with queue := Function.update dev.queue id q }

/-- One pass of either loop of `nvme_handle_interrupt`, or none when the loop is left. -/
def completionPass (dev : NvmeQueues) (id : NvmeQueue) : Option NvmeQueues :=
  let q := dev.queue id
  if q.headEntry.phase = q.cqPhase then none
  else
    let commandId := q.headEntry.commandIdentifier
    some {
      queue := Function.update dev.queue id q.takeHead
      commandStatuses := finishCommand dev.commandStatuses commandId
      finished := Function.update dev.finished id (dev.finished id ++ [commandId]) }

/-- Either loop, with `doorbell_write_needed` after it. -/
def completionLoop (id : NvmeQueue) :
    Nat → NvmeQueues → Bool → Except Crash (NvmeQueues × Bool)
  | 0, _, _ => .error .endless
  | passes + 1, dev, doorbellWriteNeeded =>
    match dev.completionPass id with
    | none => .ok (dev, doorbellWriteNeeded)
    | some dev => completionLoop id passes dev true

def writeHeadDoorbell (dev : NvmeQueues) (id : NvmeQueue) (doorbellWriteNeeded : Bool) :
    NvmeQueues :=
  dev.setQueue id ((dev.queue id).writeHeadDoorbell doorbellWriteNeeded)

/-- What the handler does for one queue of a device. -/
def handleQueue (passes : Nat) (id : NvmeQueue) (dev : NvmeQueues) :
    Except Crash NvmeQueues := do
  let (dev, doorbellWriteNeeded) ← completionLoop id passes dev false
  .ok (dev.writeHeadDoorbell id doorbellWriteNeeded)

def handleDevice (passes : Nat) (dev : NvmeQueues) : Except Crash NvmeQueues := do
  let dev ← dev.handleQueue passes .admin
  dev.handleQueue passes .io

end NvmeQueues

/-- The handler on `nvme_devices`, with at most `passes` passes of each of its inner loops. -/
def nvmeHandleInterrupt (passes : Nat) (devices : List NvmeQueues) :
    Except Crash (List NvmeQueues) :=
  devices.mapM (NvmeQueues.handleDevice passes)

/-- A device with its controller: all that it posted to either queue, and the loop that
the interrupt handler is in, with `doorbell_write_needed`. -/
structure NvmeRun where
  dev : NvmeQueues
  posted : NvmeQueue → List NvmeCqEntry
  handler : Option (NvmeQueue × Bool)

namespace NvmeRun

def init : NvmeRun := ⟨nvmeProbe2, fun _ => [], none⟩

/-- The controller posts to the slot behind its last one. -/
def post (s : NvmeRun) (id : NvmeQueue) (entry : NvmeCqEntry) : NvmeRun :=
  let q := s.dev.queue id
  let slot := (s.posted id).length % nvmeQueueSize
  { s with
    dev := s.dev.setQueue id { q with cq := Function.update q.cq slot entry }
    posted := Function.update s.posted id (s.posted id ++ [entry]) }

/-- The handler goes on from the loop over one queue to the next, or returns. -/
def leaveLoop (s : NvmeRun) (id : NvmeQueue) (doorbellWriteNeeded : Bool) : NvmeRun :=
  { s with
    dev := s.dev.writeHeadDoorbell id doorbellWriteNeeded
    handler := match id with
      | .admin => some (.io, false)
      | .io => none }

end NvmeRun

/-- The controller may post between any two passes of the handler, but into no slot
whose last entry was not read. -/
inductive NvmeStep : NvmeRun → NvmeRun → Prop
  | post {s : NvmeRun} {id : NvmeQueue} {entry : NvmeCqEntry}
      (room : (s.posted id).length < (s.dev.finished id).length + nvmeQueueSize)
      (phase : entry.phase = ringPhase nvmeQueueSize (s.posted id).length) :
      NvmeStep s (s.post id entry)
  | interrupt {s : NvmeRun} (idle : s.handler = none) :
      NvmeStep s { s with handler := some (.admin, false) }
  | pass {s : NvmeRun} {id : NvmeQueue} {doorbellWriteNeeded : Bool} {dev : NvmeQueues}
      (within : s.handler = some (id, doorbellWriteNeeded))
      (taken : s.dev.completionPass id = some dev) :
      NvmeStep s { s with dev, handler := some (id, true) }
  | leave {s : NvmeRun} {id : NvmeQueue} {doorbellWriteNeeded : Bool}
      (within : s.handler = some (id, doorbellWriteNeeded))
      (nothing : s.dev.completionPass id = none) :
      NvmeStep s (s.leaveLoop id doorbellWriteNeeded)

abbrev NvmeReachable : NvmeRun → Prop := Relation.ReflTransGen NvmeStep NvmeRun.init

/-- What the driver, the ring in memory and the controller agree on. -/
structure NvmeQueueInv (q : NvmeQueueState) (posted : List NvmeCqEntry) (finished : List U16) :
    Prop where
  ring : Posted NvmeCqEntry.phase nvmeQueueSize q.cq posted
  reads : ReadsAt nvmeQueueSize finished.length q.cqHead.toNat q.cqPhase
  taken : finished = (posted.take finished.length).map NvmeCqEntry.commandIdentifier
  behind : finished.length ≤ posted.length
  room : posted.length ≤ finished.length + nvmeQueueSize

def NvmeInv (dev : NvmeQueues) (posted : NvmeQueue → List NvmeCqEntry) : Prop :=
  ∀ id, NvmeQueueInv (dev.queue id) (posted id) (dev.finished id)

namespace NvmeQueueInv

variable {q : NvmeQueueState} {posted : List NvmeCqEntry} {finished : List U16}

theorem init : NvmeQueueInv emptyQueueState [] [] where
  ring := .nil fun i _ => by simp [emptyQueueState, NvmeCqEntry.phase]
  reads := .zero
  taken := rfl
  behind := Nat.le_refl 0
  room := Nat.zero_le _

/-- The phase of the entry at the head is the old one when no posted entry is left. -/
theorem headEntry_phase_iff (h : NvmeQueueInv q posted finished) :
    q.headEntry.phase = q.cqPhase ↔ finished.length = posted.length := by
  rw [NvmeQueueState.headEntry, h.reads.head, h.reads.old]
  exact h.ring.caught_up_iff (by decide) h.behind h.room

theorem headEntry (h : NvmeQueueInv q posted finished) (hlt : finished.length < posted.length) :
    posted[finished.length]? = some q.headEntry := by
  rw [NvmeQueueState.headEntry, h.reads.head, h.ring.read hlt h.room, List.getElem?_eq_getElem hlt]

theorem prefix_posted (h : NvmeQueueInv q posted finished) :
    finished <+: posted.map NvmeCqEntry.commandIdentifier := by
  rw [h.taken]
  exact (List.take_prefix _ _).map _

theorem finished_eq (h : NvmeQueueInv q posted finished)
    (hlen : finished.length = posted.length) :
    finished = posted.map NvmeCqEntry.commandIdentifier := by
  have hh := h.taken
  rwa [hlen, List.take_length] at hh

theorem headDoorbell (h : NvmeQueueInv q posted finished) (headDoorbell : U32) :
    NvmeQueueInv { q with headDoorbell } posted finished :=
  ⟨h.ring, h.reads, h.taken, h.behind, h.room⟩

theorem sqTail (h : NvmeQueueInv q posted finished) (sqTail : U8) :
    NvmeQueueInv { q with sqTail } posted finished :=
  ⟨h.ring, h.reads, h.taken, h.behind, h.room⟩

theorem post (h : NvmeQueueInv q posted finished) {entry : NvmeCqEntry}
    (hroom : posted.length < finished.length + nvmeQueueSize)
    (hphase : entry.phase = ringPhase nvmeQueueSize posted.length) :
    NvmeQueueInv { q with cq := Function.update q.cq (posted.length % nvmeQueueSize) entry }
      (posted ++ [entry]) finished where
  ring := h.ring.post hphase
  reads := h.reads
  taken := by rw [List.take_append_of_le_length h.behind]; exact h.taken
  behind := by have := h.behind; simp; omega
  room := by simp; omega

theorem takeHead_reads (h : NvmeQueueInv q posted finished) :
    ReadsAt nvmeQueueSize (finished.length + 1) q.takeHead.cqHead.toNat q.takeHead.cqPhase :=
  NvmeQueueState.takeHead_readsAt h.reads

theorem takeHead_cq (q : NvmeQueueState) : q.takeHead.cq = q.cq := by
  rw [NvmeQueueState.takeHead]
  split <;> rfl

theorem takeHead (h : NvmeQueueInv q posted finished) (hlt : finished.length < posted.length) :
    NvmeQueueInv q.takeHead posted (finished ++ [q.headEntry.commandIdentifier]) where
  ring := by rw [takeHead_cq]; exact h.ring
  reads := by simpa using h.takeHead_reads
  taken := by
    have hhead := h.headEntry hlt
    rw [List.length_append, List.length_singleton, List.take_add_one, hhead, List.map_append,
      ← h.taken]
    rfl
  behind := by rw [List.length_append]; exact hlt
  room := by have := h.room; simp; omega

end NvmeQueueInv

namespace NvmeInv

variable {dev dev' : NvmeQueues} {posted : NvmeQueue → List NvmeCqEntry} {id : NvmeQueue}

theorem completionPass_none (h : NvmeInv dev posted) :
    dev.completionPass id = none ↔ (dev.finished id).length = (posted id).length := by
  rw [← (h id).headEntry_phase_iff]
  simp [NvmeQueues.completionPass]

/-- A pass takes the next entry that was posted. -/
theorem completionPass (h : NvmeInv dev posted) (hp : dev.completionPass id = some dev') :
    ∃ entry, (posted id)[(dev.finished id).length]? = some entry ∧
      dev'.finished = Function.update dev.finished id
        (dev.finished id ++ [entry.commandIdentifier]) ∧
      dev'.commandStatuses = finishCommand dev.commandStatuses entry.commandIdentifier ∧
      dev'.queue = Function.update dev.queue id (dev.queue id).takeHead ∧
      NvmeInv dev' posted := by
  have hlt : (dev.finished id).length < (posted id).length := by
    apply Nat.lt_of_le_of_ne (h id).behind
    intro he
    rw [h.completionPass_none.mpr he] at hp
    cases hp
  simp only [NvmeQueues.completionPass] at hp
  split at hp
  · cases hp
  · obtain rfl := Option.some.inj hp
    refine ⟨_, (h id).headEntry hlt, rfl, rfl, rfl, ?_⟩
    intro other
    by_cases ho : other = id
    · subst ho
      simpa using (h other).takeHead hlt
    · simpa [ho] using h other

theorem writeHeadDoorbell (h : NvmeInv dev posted) (id : NvmeQueue) (needed : Bool) :
    NvmeInv (dev.writeHeadDoorbell id needed) posted := by
  intro other
  by_cases ho : other = id
  · subst ho
    have hh := h other
    cases needed
    · simpa [NvmeQueues.writeHeadDoorbell, NvmeQueues.setQueue, NvmeQueueState.writeHeadDoorbell]
        using hh
    · simpa [NvmeQueues.writeHeadDoorbell, NvmeQueues.setQueue, NvmeQueueState.writeHeadDoorbell]
        using hh.headDoorbell _
  · simpa [NvmeQueues.writeHeadDoorbell, NvmeQueues.setQueue, ho] using h other

/-- The loop over a queue takes all that was posted to it, in order. -/
theorem completionLoop (h : NvmeInv dev posted) {passes : Nat}
    (hf : (posted id).length < (dev.finished id).length + passes) (needed : Bool) :
    ∃ dev' needed', NvmeQueues.completionLoop id passes dev needed = .ok (dev', needed') ∧
      NvmeInv dev' posted ∧
      dev'.finished id = (posted id).map NvmeCqEntry.commandIdentifier ∧
      ∀ other, other ≠ id → dev'.finished other = dev.finished other := by
  induction passes generalizing dev needed with
  | zero =>
    have hle := (h id).behind
    omega
  | succ passes ih =>
    cases hp : dev.completionPass id with
    | none =>
      refine ⟨dev, needed, ?_, h, (h id).finished_eq (h.completionPass_none.mp hp), ?_⟩
      · simp [NvmeQueues.completionLoop, hp]
      · simp
    | some dev₁ =>
      obtain ⟨entry, -, hfin, -, -, h₁⟩ := h.completionPass hp
      obtain ⟨dev', needed', hrun, hinv, hall, hothers⟩ := ih h₁ (by simp [hfin]; omega) true
      refine ⟨dev', needed', ?_, hinv, hall, ?_⟩
      · simpa [NvmeQueues.completionLoop, hp] using hrun
      · intro other ho
        simpa [hfin, ho] using hothers other ho

theorem handleQueue (h : NvmeInv dev posted) (id : NvmeQueue) :
    ∃ dev', dev.handleQueue (nvmeQueueSize + 1) id = .ok dev' ∧ NvmeInv dev' posted ∧
      dev'.finished id = (posted id).map NvmeCqEntry.commandIdentifier ∧
      ∀ other, other ≠ id → dev'.finished other = dev.finished other := by
  have hroom := (h id).room
  obtain ⟨dev', needed, hrun, hinv, hall, hothers⟩ :=
    h.completionLoop (show (posted id).length < _ + (nvmeQueueSize + 1) by omega) false
  refine ⟨dev'.writeHeadDoorbell id needed, ?_, hinv.writeHeadDoorbell id needed, hall, hothers⟩
  rw [NvmeQueues.handleQueue, hrun]
  rfl

theorem handleDevice (h : NvmeInv dev posted) :
    ∃ dev', dev.handleDevice (nvmeQueueSize + 1) = .ok dev' ∧ NvmeInv dev' posted ∧
      ∀ id, dev'.finished id = (posted id).map NvmeCqEntry.commandIdentifier := by
  obtain ⟨dev₁, hadmin, h₁, hall₁, -⟩ := h.handleQueue .admin
  obtain ⟨dev', hio, hinv, hall, hothers⟩ := h₁.handleQueue .io
  refine ⟨dev', ?_, hinv, ?_⟩
  · rw [NvmeQueues.handleDevice, hadmin]
    exact hio
  · intro id
    cases id with
    | admin => rw [hothers .admin (by decide), hall₁]
    | io => exact hall

end NvmeInv

namespace NvmeStep

variable {s s' : NvmeRun}

theorem inv (h : NvmeStep s s') (hinv : NvmeInv s.dev s.posted) : NvmeInv s'.dev s'.posted := by
  cases h with
  | @post id entry room phase =>
    intro other
    by_cases ho : other = id
    · subst ho
      simpa [NvmeRun.post, NvmeQueues.setQueue] using (hinv other).post room phase
    · simpa [NvmeRun.post, NvmeQueues.setQueue, ho] using hinv other
  | interrupt => exact hinv
  | pass within taken =>
    obtain ⟨-, -, -, -, -, hinv'⟩ := hinv.completionPass taken
    exact hinv'
  | leave => exact hinv.writeHeadDoorbell _ _

end NvmeStep

theorem NvmeReachable.inv {s : NvmeRun} (h : NvmeReachable s) : NvmeInv s.dev s.posted := by
  induction h with
  | refl => exact fun _ => NvmeQueueInv.init
  | tail _ hstep ih => exact hstep.inv ih

theorem nvmeHandleInterrupt_ok {runs : List NvmeRun}
    (h : ∀ s ∈ runs, NvmeInv s.dev s.posted) :
    ∃ devs, nvmeHandleInterrupt (nvmeQueueSize + 1) (runs.map NvmeRun.dev) = .ok devs ∧
      List.Forall₂ (fun s dev => ∀ id, NvmeQueues.finished dev id =
        (NvmeRun.posted s id).map NvmeCqEntry.commandIdentifier) runs devs := by
  induction runs with
  | nil => exact ⟨[], rfl, .nil⟩
  | cons s runs ih =>
    obtain ⟨devs, hrun, hall⟩ := ih fun s hs => h s (List.mem_cons_of_mem _ hs)
    obtain ⟨dev, hdev, -, hfin⟩ := (h s List.mem_cons_self).handleDevice
    refine ⟨dev :: devs, ?_, .cons hfin hall⟩
    rw [nvmeHandleInterrupt] at hrun ⊢
    rw [List.map_cons, List.mapM_cons, hdev, ok_bind, hrun]
    rfl

/-- While the controller posts, the ids that go to `finish_command` are in order those of
the first completions of each queue, and of all of them when a loop is left. From any
state on, the loops end and miss none. -/
theorem completions_consumed_once {runs : List NvmeRun} (h : ∀ s ∈ runs, NvmeReachable s) :
    (∀ s ∈ runs, ∀ id,
      s.dev.finished id <+: (s.posted id).map NvmeCqEntry.commandIdentifier ∧
      (s.dev.completionPass id = none →
        s.dev.finished id = (s.posted id).map NvmeCqEntry.commandIdentifier) ∧
      ∀ needed, ∃ dev needed',
        NvmeQueues.completionLoop id (nvmeQueueSize + 1) s.dev needed = .ok (dev, needed') ∧
        dev.finished id = (s.posted id).map NvmeCqEntry.commandIdentifier) ∧
    ∃ devs, nvmeHandleInterrupt (nvmeQueueSize + 1) (runs.map NvmeRun.dev) = .ok devs ∧
      List.Forall₂ (fun s dev => ∀ id, NvmeQueues.finished dev id =
        (NvmeRun.posted s id).map NvmeCqEntry.commandIdentifier) runs devs := by
  constructor
  · intro s hs id
    have hinv := (h s hs).inv
    refine ⟨(hinv id).prefix_posted, ?_, ?_⟩
    · intro hnone
      exact (hinv id).finished_eq (hinv.completionPass_none.mp hnone)
    · intro needed
      have hroom := (hinv id).room
      obtain ⟨dev, needed', hrun, -, hall, -⟩ :=
        hinv.completionLoop (show (s.posted id).length < _ + (nvmeQueueSize + 1) by omega) needed
      exact ⟨dev, needed', hrun, hall⟩
  · exact nvmeHandleInterrupt_ok fun s hs => (h s hs).inv

theorem completions_consumed_once_two_postings :
    ∃ dev : NvmeQueues, nvmeHandleInterrupt (nvmeQueueSize + 1)
        [((NvmeRun.init.post .io ⟨1, 7, 1⟩).post .io ⟨2, 5, 1⟩).dev] = .ok [dev] ∧
      dev.finished .admin = [] ∧ dev.finished .io = [7, 5] := by
  have hreach : NvmeReachable ((NvmeRun.init.post .io ⟨1, 7, 1⟩).post .io ⟨2, 5, 1⟩) :=
    (Relation.ReflTransGen.single (.post (by decide) (by decide))).tail
      (.post (by decide) (by decide))
  have h := (completions_consumed_once fun s hs => List.mem_singleton.mp hs ▸ hreach).2
  obtain ⟨devs, hrun, hall⟩ := h
  obtain ⟨dev, hdev, rfl⟩ : ∃ dev : NvmeQueues, (∀ id, dev.finished id =
      (((NvmeRun.init.post .io ⟨1, 7, 1⟩).post .io ⟨2, 5, 1⟩).posted id).map
        NvmeCqEntry.commandIdentifier) ∧ devs = [dev] := by
    cases hall with
    | cons hdev htail =>
      cases htail
      exact ⟨_, hdev, rfl⟩
  exact ⟨dev, hrun, hdev .admin, hdev .io⟩

end Persistos
