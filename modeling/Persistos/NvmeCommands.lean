import Persistos.NvmeQueues

/-! The command ids of an NVMe device. Tasks take them for `nvme_readpage` and
`nvme_writepage`, and the interrupt handler marks them as completed. -/

namespace Persistos

open Theory

/-- Where a task is in `nvme_readpage` or `nvme_writepage`: before the call, in the wait
for room, before a test of a status, before the write that takes a free id, before the
submission, in `await_command_finish`, before `free_command`. -/
inductive CommandPc where
  | idle
  | waitRoom
  | scan (commandId : U16)
  | take (commandId : U16)
  | submit (commandId : U16)
  | await (number : Nat) (commandId : U16)
  | release (commandId : U16)
  deriving DecidableEq, Repr

/-- The command number `number`, with the task that submitted it. -/
structure NvmeCommand where
  task : Nat
  number : Nat
  commandId : U16
  deriving DecidableEq, Repr

/-- `tail_iosq_entry->command`, where `opcode` is 1 or 2. -/
def sqCommand (opcode : U32) (commandId : U16) : U32 := opcode ||| (commandId.setWidth 32 <<< 16)

/-- The id that the controller finds in a submission. -/
def sqCommandId (command : U32) : U16 := (command >>> 16).setWidth 16

/-- A device and the tasks that use it. `inFlight` are the submitted commands that the
controller has not completed, `completed` the others in the order of their completion. -/
structure NvmeTasks where
  run : NvmeRun
  current : Nat
  pc : Nat → CommandPc
  killed : Nat → Bool
  submitted : Nat
  inFlight : List NvmeCommand
  completed : List NvmeCommand

/-- The id after `commandId` in the search of `start_command`. -/
def nextCommandId (commandId : U16) : U16 :=
  if commandId + 1 = BitVec.ofNat 16 nvmeMaxCommands then 0 else commandId + 1

namespace NvmeTasks

def init : NvmeTasks := ⟨NvmeRun.init, 0, fun _ => .idle, fun _ => false, 0, [], []⟩

def status (s : NvmeTasks) (commandId : U16) : U8 := s.run.dev.commandStatuses commandId.toNat

def setStatus (s : NvmeTasks) (commandId : U16) (status : U8) : NvmeTasks :=
  { s with run.dev.commandStatuses :=
      Function.update s.run.dev.commandStatuses commandId.toNat status }

def goto (s : NvmeTasks) (pc : CommandPc) : NvmeTasks :=
  { s with pc := Function.update s.pc s.current pc }

/-- `(dev->iosq_tail + 1) % NVME_QUEUE_SIZE == dev->iosq_head` -/
def SubmissionQueueFull (s : NvmeTasks) : Prop :=
  ((s.run.dev.queue .io).sqTail.toNat + 1) % nvmeQueueSize = (s.run.dev.queue .io).sqHead.toNat

instance (s : NvmeTasks) : Decidable s.SubmissionQueueFull := inferInstanceAs (Decidable (_ = _))

/-- The entry at the tail and the write to the tail doorbell. -/
def submitCommand (s : NvmeTasks) (opcode : U32) (commandId : U16) : NvmeTasks :=
  let q := s.run.dev.queue .io
  let sqTail := BitVec.ofNat 8 ((q.sqTail.toNat + 1) % nvmeQueueSize)
  let command := ⟨s.current, s.submitted, sqCommandId (sqCommand opcode commandId)⟩
  { s with
    run.dev := s.run.dev.setQueue .io { q with sqTail }
    submitted := s.submitted + 1
    inFlight := s.inFlight ++ [command] }

/-- The controller completes a command. -/
def complete (s : NvmeTasks) (command : NvmeCommand) (entry : NvmeCqEntry) : NvmeTasks :=
  { s with
    run := s.run.post .io entry
    inFlight := s.inFlight.erase command
    completed := s.completed ++ [command] }

/-- The current task runs: the kernel switches tasks in `task_yield` alone. -/
def CanRun (s : NvmeTasks) : Prop := s.run.handler = none ∧ s.killed s.current = false

instance (s : NvmeTasks) : Decidable s.CanRun := inferInstanceAs (Decidable (_ ∧ _))

/-- The current task is in user mode, in another system call or in one of the two loops
that call `task_yield`, or has ended. -/
def CanYield (s : NvmeTasks) : Prop :=
  s.killed s.current = true ∨ s.pc s.current = .idle ∨
    (s.pc s.current = .waitRoom ∧ s.SubmissionQueueFull) ∨
    ∃ number commandId, s.pc s.current = .await number commandId ∧
      s.status commandId = nvmeCommandInFlight

end NvmeTasks

inductive NvmeTaskStep : NvmeTasks → NvmeTasks → Prop
  | call {s : NvmeTasks} (runs : s.CanRun) (at_pc : s.pc s.current = .idle) :
      NvmeTaskStep s (s.goto .waitRoom)
  | room {s : NvmeTasks} (runs : s.CanRun) (at_pc : s.pc s.current = .waitRoom)
      (room : ¬s.SubmissionQueueFull) : NvmeTaskStep s (s.goto (.scan 0))
  | skip {s : NvmeTasks} {commandId : U16} (runs : s.CanRun)
      (at_pc : s.pc s.current = .scan commandId) (taken : s.status commandId ≠ nvmeCommandFree) :
      NvmeTaskStep s (s.goto (.scan (nextCommandId commandId)))
  | find {s : NvmeTasks} {commandId : U16} (runs : s.CanRun)
      (at_pc : s.pc s.current = .scan commandId) (free : s.status commandId = nvmeCommandFree) :
      NvmeTaskStep s (s.goto (.take commandId))
  | take {s : NvmeTasks} {commandId : U16} (runs : s.CanRun)
      (at_pc : s.pc s.current = .take commandId) :
      NvmeTaskStep s ((s.setStatus commandId nvmeCommandInFlight).goto (.submit commandId))
  | submit {s : NvmeTasks} {opcode : U32} {commandId : U16} (runs : s.CanRun)
      (at_pc : s.pc s.current = .submit commandId) (read_or_write : opcode = 1 ∨ opcode = 2) :
      NvmeTaskStep s ((s.submitCommand opcode commandId).goto (.await s.submitted commandId))
  | pass {s : NvmeTasks} {number : Nat} {commandId : U16} (runs : s.CanRun)
      (at_pc : s.pc s.current = .await number commandId)
      (done : s.status commandId ≠ nvmeCommandInFlight) :
      NvmeTaskStep s (s.goto (.release commandId))
  | release {s : NvmeTasks} {commandId : U16} (runs : s.CanRun)
      (at_pc : s.pc s.current = .release commandId) :
      NvmeTaskStep s ((s.setStatus commandId nvmeCommandFree).goto .idle)
  | yield {s : NvmeTasks} {t : Nat} (idle : s.run.handler = none) (yields : s.CanYield)
      (alive : s.killed t = false) : NvmeTaskStep s { s with current := t }
  | kill {s : NvmeTasks} {t : Nat} (runs : s.CanRun) (at_pc : s.pc s.current = .idle) :
      NvmeTaskStep s { s with killed := Function.update s.killed t true }
  | interrupt {s : NvmeTasks} {run : NvmeRun} (step : NvmeStep s.run run)
      (no_post : run.posted = s.run.posted) : NvmeTaskStep s { s with run }
  | complete {s : NvmeTasks} {command : NvmeCommand} {entry : NvmeCqEntry}
      (mem : command ∈ s.inFlight) (same : entry.commandIdentifier = command.commandId)
      (step : NvmeStep s.run (s.run.post .io entry)) : NvmeTaskStep s (s.complete command entry)

abbrev NvmeTasksReachable : NvmeTasks → Prop :=
  Relation.ReflTransGen NvmeTaskStep NvmeTasks.init

/-- The id that a task has taken. -/
def CommandPc.holds : CommandPc → Option U16
  | .submit commandId => some commandId
  | .await _ commandId => some commandId
  | .release commandId => some commandId
  | _ => none

theorem sqCommandId_sqCommand {opcode : U32} (h : opcode = 1 ∨ opcode = 2) (commandId : U16) :
    sqCommandId (sqCommand opcode commandId) = commandId := by
  have hcmd : opcode >>> 16 = 0 := by rcases h with rfl | rfl <;> rfl
  have hid : (commandId.setWidth 32 <<< 16) >>> 16 = commandId.setWidth 32 := by
    apply BitVec.eq_of_toNat_eq
    have hlt := commandId.isLt
    simp only [BitVec.toNat_ushiftRight, BitVec.toNat_shiftLeft, BitVec.toNat_setWidth,
      Nat.shiftLeft_eq, Nat.shiftRight_eq_div_pow]
    omega
  rw [sqCommandId, sqCommand, BitVec.ushiftRight_or_distrib, hcmd, hid]
  simp

namespace NvmeTasks

variable {s s' : NvmeTasks} {t u n : Nat} {c : U16}

/-- The commands whose completion the driver has not seen. -/
def outstanding (s : NvmeTasks) : List NvmeCommand :=
  s.inFlight ++ s.completed.drop (s.run.dev.finished .io).length

/-- What a task may rely on where it is. -/
def Facts (s : NvmeTasks) (t : Nat) : CommandPc → Prop
  | .idle => True
  | .waitRoom => True
  | .scan _ => t = s.current
  | .take commandId => t = s.current ∧ s.status commandId = nvmeCommandFree
  | .submit commandId => t = s.current ∧ s.status commandId = nvmeCommandInFlight ∧
      ∀ command ∈ s.outstanding, command.commandId ≠ commandId
  | .await number commandId => ⟨t, number, commandId⟩ ∈ s.outstanding ∨
      s.status commandId = nvmeCommandCompleted ∧ ⟨t, number, commandId⟩ ∈ s.completed
  | .release commandId => t = s.current ∧ s.status commandId = nvmeCommandCompleted

structure Inv (s : NvmeTasks) : Prop where
  queues : NvmeInv s.run.dev s.run.posted
  ids : s.completed.map NvmeCommand.commandId =
    (s.run.posted .io).map NvmeCqEntry.commandIdentifier
  admin : s.run.posted .admin = []
  nodup : (s.outstanding.map NvmeCommand.commandId).Nodup
  waiting : ∀ command ∈ s.outstanding, s.status command.commandId = nvmeCommandInFlight ∧
    s.pc command.task = .await command.number command.commandId
  facts : ∀ t, s.Facts t (s.pc t)
  unique : ∀ t u c, (s.pc t).holds = some c → (s.pc u).holds = some c → t = u
  dead : s.killed s.current = true → s.pc s.current = .idle

/-- The part of the invariant that does not depend on where the current task is. -/
structure Rest (s : NvmeTasks) : Prop where
  queues : NvmeInv s.run.dev s.run.posted
  ids : s.completed.map NvmeCommand.commandId =
    (s.run.posted .io).map NvmeCqEntry.commandIdentifier
  admin : s.run.posted .admin = []
  nodup : (s.outstanding.map NvmeCommand.commandId).Nodup
  waiting : ∀ command ∈ s.outstanding, command.task ≠ s.current ∧
    s.status command.commandId = nvmeCommandInFlight ∧
    s.pc command.task = .await command.number command.commandId
  facts : ∀ t, t ≠ s.current → s.Facts t (s.pc t)
  unique : ∀ t u c, t ≠ s.current → u ≠ s.current →
    (s.pc t).holds = some c → (s.pc u).holds = some c → t = u
  alive : s.killed s.current = false

@[simp] theorem setStatus_status (s : NvmeTasks) (c d : U16) (v : U8) :
    (s.setStatus c v).status d = if d = c then v else s.status d := by
  by_cases h : d = c
  · simp [setStatus, status, h]
  · have hn : d.toNat ≠ c.toNat := fun he => h (BitVec.eq_of_toNat_eq he)
    simp [setStatus, status, h, hn]

@[simp] theorem setStatus_pc (s : NvmeTasks) (c : U16) (v : U8) : (s.setStatus c v).pc = s.pc := rfl

@[simp] theorem setStatus_outstanding (s : NvmeTasks) (c : U16) (v : U8) :
    (s.setStatus c v).outstanding = s.outstanding := rfl

theorem submitCommand_outstanding (s : NvmeTasks) {opcode : U32} (h : opcode = 1 ∨ opcode = 2)
    (c : U16) : (s.submitCommand opcode c).outstanding.Perm
      (⟨s.current, s.submitted, c⟩ :: s.outstanding) := by
  have heq : (s.submitCommand opcode c).outstanding =
      s.inFlight ++ ⟨s.current, s.submitted, c⟩ ::
        s.completed.drop (s.run.dev.finished .io).length := by
    simp [outstanding, submitCommand, sqCommandId_sqCommand h, NvmeQueues.setQueue]
  rw [heq]
  exact List.perm_middle

@[simp] theorem goto_status (s : NvmeTasks) (pc : CommandPc) : (s.goto pc).status = s.status := rfl

@[simp] theorem goto_outstanding (s : NvmeTasks) (pc : CommandPc) :
    (s.goto pc).outstanding = s.outstanding := rfl

@[simp] theorem goto_pc_current (s : NvmeTasks) (pc : CommandPc) :
    (s.goto pc).pc s.current = pc := by simp [goto]

theorem goto_pc_ne (s : NvmeTasks) (pc : CommandPc) (h : t ≠ s.current) :
    (s.goto pc).pc t = s.pc t := by simp [goto, h]

/-- Facts stay true while the ids they are about keep their statuses. -/
theorem Facts.mono {pc : CommandPc} (h : s.Facts t pc) (hcur : s'.current = s.current)
    (hstatus : ∀ c, pc = .take c ∨ pc.holds = some c → s'.status c = s.status c)
    (hout : ∀ command, command ∈ s'.outstanding ↔ command ∈ s.outstanding)
    (hdone : ∀ command ∈ s.completed, command ∈ s'.completed) : s'.Facts t pc := by
  cases pc with
  | idle => trivial
  | waitRoom => trivial
  | scan c => exact h.trans hcur.symm
  | take c => exact ⟨h.1.trans hcur.symm, (hstatus c (.inl rfl)).trans h.2⟩
  | submit c =>
    exact ⟨h.1.trans hcur.symm, (hstatus c (.inr rfl)).trans h.2.1,
      fun command hm => h.2.2 command ((hout command).mp hm)⟩
  | await n c =>
    rcases h with h | h
    · exact .inl ((hout _).mpr h)
    · exact .inr ⟨(hstatus c (.inr rfl)).trans h.1, hdone _ h.2⟩
  | release c => exact ⟨h.1.trans hcur.symm, (hstatus c (.inr rfl)).trans h.2⟩

/-- Tasks that are not running wait in one of the two loops, or do something else. -/
theorem Facts.not_running {pc : CommandPc} (h : s.Facts t pc) (ht : t ≠ s.current) :
    pc = .idle ∨ pc = .waitRoom ∨ ∃ n c, pc = .await n c := by
  cases pc with
  | idle => exact .inl rfl
  | waitRoom => exact .inr (.inl rfl)
  | scan c => exact absurd h ht
  | take c => exact absurd h.1 ht
  | submit c => exact absurd h.1 ht
  | await n c => exact .inr (.inr ⟨n, c, rfl⟩)
  | release c => exact absurd h.1 ht

namespace Inv

theorem status_ne_free (h : s.Inv) (hc : (s.pc t).holds = some c) :
    s.status c ≠ nvmeCommandFree := by
  have hf := h.facts t
  intro hfree
  cases hpc : s.pc t with
  | idle => simp [hpc, CommandPc.holds] at hc
  | waitRoom => simp [hpc, CommandPc.holds] at hc
  | scan d => simp [hpc, CommandPc.holds] at hc
  | take d => simp [hpc, CommandPc.holds] at hc
  | submit d =>
    rw [hpc] at hf hc
    obtain rfl := Option.some.inj hc
    rw [hf.2.1] at hfree
    exact absurd hfree (by decide)
  | await n d =>
    rw [hpc] at hf hc
    obtain rfl := Option.some.inj hc
    rcases hf with hf | hf
    · have hw := (h.waiting _ hf).1
      rw [hfree] at hw
      exact absurd hw (by decide)
    · rw [hf.1] at hfree
      exact absurd hfree (by decide)
  | release d =>
    rw [hpc] at hf hc
    obtain rfl := Option.some.inj hc
    rw [hf.2] at hfree
    exact absurd hfree (by decide)

theorem rest (h : s.Inv) (halive : s.killed s.current = false)
    (hout : ∀ n c, s.pc s.current = .await n c → s.status c ≠ nvmeCommandInFlight) :
    s.Rest where
  queues := h.queues
  ids := h.ids
  admin := h.admin
  nodup := h.nodup
  waiting := by
    intro command hm
    have hw := h.waiting command hm
    refine ⟨?_, hw⟩
    intro he
    exact hout command.number command.commandId (he ▸ hw.2) hw.1
  facts := fun t _ => h.facts t
  unique := fun t u c _ _ => h.unique t u c
  alive := halive

end Inv

namespace Rest

theorem goto (h : s.Rest) (pc : CommandPc) : (s.goto pc).Rest where
  queues := h.queues
  ids := h.ids
  admin := h.admin
  nodup := h.nodup
  waiting := by
    intro command hm
    obtain ⟨hne, hstatus, hpc⟩ := h.waiting command hm
    exact ⟨hne, hstatus, (goto_pc_ne s pc hne).trans hpc⟩
  facts := by
    intro t ht
    rw [goto_pc_ne s pc ht]
    exact (h.facts t ht).mono rfl (fun _ _ => rfl) (fun _ => Iff.rfl) fun _ hm => hm
  unique := by
    intro t u c ht hu
    rw [goto_pc_ne s pc ht, goto_pc_ne s pc hu]
    exact h.unique t u c ht hu
  alive := h.alive

theorem setStatus (h : s.Rest) {v : U8}
    (hfree : ∀ t, t ≠ s.current → (s.pc t).holds ≠ some c) : (s.setStatus c v).Rest where
  queues := h.queues
  ids := h.ids
  admin := h.admin
  nodup := h.nodup
  waiting := by
    intro command hm
    obtain ⟨hne, hstatus, hpc⟩ := h.waiting command hm
    have hc : command.commandId ≠ c := by
      rintro rfl
      exact hfree command.task hne (by rw [hpc]; rfl)
    refine ⟨hne, ?_, hpc⟩
    simpa [hc] using hstatus
  facts := by
    intro t ht
    have hf := h.facts t ht
    refine hf.mono rfl ?_ (fun _ => Iff.rfl) fun _ hm => hm
    intro d hd
    have hdc : d ≠ c := by
      rintro rfl
      rcases hd with hd | hd
      · have hd' : s.pc t = .take d := hd
        rw [hd'] at hf
        exact ht hf.1
      · exact hfree t ht hd
    simp [hdc]
  unique := h.unique
  alive := h.alive

theorem inv (h : s.Rest) (hf : s.Facts s.current (s.pc s.current))
    (hu : ∀ c, (s.pc s.current).holds = some c → ∀ t, t ≠ s.current → (s.pc t).holds ≠ some c) :
    s.Inv where
  queues := h.queues
  ids := h.ids
  admin := h.admin
  nodup := h.nodup
  waiting := fun command hm => (h.waiting command hm).2
  facts := by
    intro t
    by_cases ht : t = s.current
    · exact ht ▸ hf
    · exact h.facts t ht
  unique := by
    intro t u c hct hcu
    by_cases ht : t = s.current
    · by_contra hne
      subst ht
      exact hu c hct u (Ne.symm hne) hcu
    · by_cases hcur : u = s.current
      · subst hcur
        exact absurd hct (hu c hcu t ht)
      · exact h.unique t u c ht hcur hct hcu
  dead := by
    intro hk
    rw [h.alive] at hk
    cases hk

theorem inv_goto (h : s.Rest) {pc : CommandPc} (hf : s.Facts s.current pc)
    (hu : ∀ c, pc.holds = some c → ∀ t, t ≠ s.current → (s.pc t).holds ≠ some c) :
    (s.goto pc).Inv := by
  apply (h.goto pc).inv
  · change (s.goto pc).Facts s.current ((s.goto pc).pc s.current)
    rw [goto_pc_current]
    exact hf.mono rfl (fun _ _ => rfl) (fun _ => Iff.rfl) fun _ hm => hm
  · intro c hc t ht
    change ((s.goto pc).pc s.current).holds = some c at hc
    rw [goto_pc_current] at hc
    rw [goto_pc_ne s pc ht]
    exact hu c hc t ht

end Rest

namespace Inv

theorem rest_of_pc (h : s.Inv) (hr : s.CanRun) {pc : CommandPc} (hpc : s.pc s.current = pc)
    (hne : ∀ n c, pc ≠ .await n c) : s.Rest := by
  apply h.rest hr.2
  intro n c he
  exact absurd (hpc.symm.trans he) (hne n c)

theorem take (h : s.Inv) (hr : s.CanRun) (hpc : s.pc s.current = .take c) :
    ((s.setStatus c nvmeCommandInFlight).goto (.submit c)).Inv := by
  have hrest := h.rest_of_pc hr hpc (by simp)
  have hf := h.facts s.current
  rw [hpc] at hf
  have hfree : ∀ t, t ≠ s.current → (s.pc t).holds ≠ some c :=
    fun t _ ht => h.status_ne_free ht hf.2
  apply (hrest.setStatus hfree).inv_goto
  · refine ⟨rfl, by simp, ?_⟩
    rintro command hm rfl
    have hw := (h.waiting command hm).1
    rw [hf.2] at hw
    exact absurd hw (by decide)
  · intro d hd
    obtain rfl := Option.some.inj hd
    exact hfree

/-- A task that sees another status than in flight sees that of its own completion. -/
theorem awaited (h : s.Inv) (hpc : s.pc t = .await n c)
    (hdone : s.status c ≠ nvmeCommandInFlight) :
    s.status c = nvmeCommandCompleted ∧ ⟨t, n, c⟩ ∈ s.completed := by
  have hf := h.facts t
  rw [hpc] at hf
  rcases hf with hf | hf
  · exact absurd (h.waiting _ hf).1 hdone
  · exact hf

theorem pass (h : s.Inv) (hr : s.CanRun) (hpc : s.pc s.current = .await n c)
    (hdone : s.status c ≠ nvmeCommandInFlight) : (s.goto (.release c)).Inv := by
  have hrest : s.Rest := by
    apply h.rest hr.2
    intro m d he
    rw [hpc] at he
    cases he
    exact hdone
  have hstatus := (h.awaited hpc hdone).1
  refine @Rest.inv_goto s hrest (.release c) ⟨rfl, hstatus⟩ ?_
  intro d hd t ht hc
  obtain rfl := Option.some.inj hd
  exact ht (h.unique t s.current c hc (by rw [hpc]; rfl))

theorem release (h : s.Inv) (hr : s.CanRun) (hpc : s.pc s.current = .release c) :
    ((s.setStatus c nvmeCommandFree).goto .idle).Inv := by
  have hrest := h.rest_of_pc hr hpc (by simp)
  have hfree : ∀ t, t ≠ s.current → (s.pc t).holds ≠ some c :=
    fun t ht hc => ht (h.unique t s.current c hc (by rw [hpc]; rfl))
  exact (hrest.setStatus hfree).inv_goto trivial (by simp [CommandPc.holds])

theorem submit (h : s.Inv) (hr : s.CanRun) (hpc : s.pc s.current = .submit c) {opcode : U32}
    (hop : opcode = 1 ∨ opcode = 2) :
    ((s.submitCommand opcode c).goto (.await s.submitted c)).Inv := by
  have hf := h.facts s.current
  rw [hpc] at hf
  have hrest := h.rest_of_pc hr hpc (by simp)
  have hperm := s.submitCommand_outstanding hop c
  have hmem : ∀ command, command ∈ (s.submitCommand opcode c).outstanding ↔
      command = ⟨s.current, s.submitted, c⟩ ∨ command ∈ s.outstanding := by
    intro command
    rw [hperm.mem_iff, List.mem_cons]
  have hcur : ((s.submitCommand opcode c).goto (.await s.submitted c)).pc s.current =
      .await s.submitted c := goto_pc_current (s.submitCommand opcode c) _
  have hpcs : ∀ t, t ≠ s.current →
      ((s.submitCommand opcode c).goto (.await s.submitted c)).pc t = s.pc t :=
    fun t ht => goto_pc_ne (s.submitCommand opcode c) _ ht
  constructor
  · intro id
    cases id with
    | admin => simpa [submitCommand, goto, NvmeQueues.setQueue] using h.queues .admin
    | io => simpa [submitCommand, goto, NvmeQueues.setQueue] using (h.queues .io).sqTail _
  · exact h.ids
  · exact h.admin
  · rw [goto_outstanding, (hperm.map _).nodup_iff, List.map_cons, List.nodup_cons]
    refine ⟨?_, h.nodup⟩
    intro hc
    obtain ⟨command, hm, he⟩ := List.mem_map.mp hc
    exact hf.2.2 command hm he
  · intro command hm
    rcases (hmem command).mp hm with rfl | hm
    · exact ⟨hf.2.1, hcur⟩
    · obtain ⟨hne, hst, hp⟩ := hrest.waiting command hm
      exact ⟨hst, (hpcs _ hne).trans hp⟩
  · intro t
    by_cases ht : t = s.current
    · subst ht
      rw [hcur]
      exact .inl ((hmem _).mpr (.inl rfl))
    · have hft := h.facts t
      rw [hpcs t ht]
      rcases hft.not_running ht with hp | hp | ⟨m, d, hp⟩
      · rw [hp]
        trivial
      · rw [hp]
        trivial
      · rw [hp] at hft ⊢
        exact hft.imp (fun hm => (hmem _).mpr (.inr hm)) id
  · have hholds : ∀ t, (((s.submitCommand opcode c).goto (.await s.submitted c)).pc t).holds =
        (s.pc t).holds := by
      intro t
      by_cases ht : t = s.current
      · rw [ht, hcur, hpc]
        rfl
      · rw [hpcs t ht]
    intro t u d ht hu
    rw [hholds] at ht hu
    exact h.unique t u d ht hu
  · intro hk
    have halive : s.killed s.current = true := hk
    rw [hr.2] at halive
    cases halive

theorem yields (h : s.Inv) (hy : s.CanYield) (ht : s.killed t = false) :
    NvmeTasks.Inv { s with current := t } where
  queues := h.queues
  ids := h.ids
  admin := h.admin
  nodup := h.nodup
  waiting := h.waiting
  facts := by
    intro u
    have hf := h.facts u
    have hp : s.pc u = .idle ∨ s.pc u = .waitRoom ∨ ∃ n c, s.pc u = .await n c := by
      by_cases hu : u = s.current
      · subst hu
        rcases hy with hy | hy | hy | ⟨n, c, hy, -⟩
        · exact .inl (h.dead hy)
        · exact .inl hy
        · exact .inr (.inl hy.1)
        · exact .inr (.inr ⟨n, c, hy⟩)
      · exact hf.not_running hu
    change NvmeTasks.Facts _ u (s.pc u)
    rcases hp with hp | hp | ⟨n, c, hp⟩
    · rw [hp]
      trivial
    · rw [hp]
      trivial
    · rw [hp] at hf ⊢
      exact hf
  unique := h.unique
  dead := by
    intro hk
    rw [ht] at hk
    cases hk

theorem kill (h : s.Inv) (hpc : s.pc s.current = .idle) (t : Nat) :
    NvmeTasks.Inv { s with killed := Function.update s.killed t true } where
  queues := h.queues
  ids := h.ids
  admin := h.admin
  nodup := h.nodup
  waiting := h.waiting
  facts := fun u => (h.facts u).mono rfl (fun _ _ => rfl) (fun _ => Iff.rfl) fun _ hm => hm
  unique := h.unique
  dead := fun _ => hpc

theorem finished_le (h : s.Inv) : (s.run.dev.finished .io).length ≤ s.completed.length := by
  have hlen := congrArg List.length h.ids
  rw [List.length_map, List.length_map] at hlen
  exact hlen ▸ (h.queues .io).behind

theorem complete (h : s.Inv) {command : NvmeCommand} {entry : NvmeCqEntry}
    (hm : command ∈ s.inFlight) (he : entry.commandIdentifier = command.commandId)
    (hstep : NvmeStep s.run (s.run.post .io entry)) : (s.complete command entry).Inv := by
  have hperm : (s.complete command entry).outstanding.Perm s.outstanding := by
    have heq : (s.complete command entry).outstanding = s.inFlight.erase command ++
        (s.completed.drop (s.run.dev.finished .io).length ++ [command]) := by
      rw [← List.drop_append_of_le_length h.finished_le]
      rfl
    have hcycle := @List.perm_append_comm _ (s.inFlight.erase command ++
      s.completed.drop (s.run.dev.finished .io).length) [command]
    rw [heq, ← List.append_assoc]
    refine hcycle.trans ?_
    exact (List.perm_cons_erase hm).symm.append_right _
  constructor
  · exact hstep.inv h.queues
  · have hposted : (s.complete command entry).run.posted .io = s.run.posted .io ++ [entry] := by
      simp [NvmeTasks.complete, NvmeRun.post]
    have hcompleted : (s.complete command entry).completed = s.completed ++ [command] := rfl
    rw [hposted, hcompleted, List.map_append, List.map_append, h.ids]
    simp [he]
  · exact h.admin
  · exact (hperm.map _).nodup_iff.mpr h.nodup
  · exact fun other hmem => h.waiting other (hperm.mem_iff.mp hmem)
  · exact fun t => (h.facts t).mono rfl (fun _ _ => rfl) (fun _ => hperm.mem_iff)
      fun _ hc => List.mem_append_left _ hc
  · exact h.unique
  · exact h.dead

/-- The handler takes the completion that was posted first, and no other task waits
for its id. -/
theorem handled (h : s.Inv) {dev : NvmeQueues} {id : NvmeQueue}
    (hp : s.run.dev.completionPass id = some dev) {handler : Option (NvmeQueue × Bool)} :
    NvmeTasks.Inv { s with run := { s.run with dev, handler } } := by
  obtain ⟨entry, hentry, hfin, hst, -, hqueues⟩ := h.queues.completionPass hp
  obtain rfl : id = .io := by
    cases id with
    | admin => simp [h.admin] at hentry
    | io => rfl
  obtain ⟨command, hcommand, hid⟩ : ∃ command,
      s.completed[(s.run.dev.finished .io).length]? = some command ∧
        command.commandId = entry.commandIdentifier := by
    have hh := congrArg (fun l => l[(s.run.dev.finished .io).length]?) h.ids
    simp only [List.getElem?_map, hentry, Option.map_some] at hh
    exact Option.map_eq_some_iff.mp hh
  have hdrop : s.completed.drop (s.run.dev.finished .io).length =
      command :: s.completed.drop ((s.run.dev.finished .io).length + 1) := by
    obtain ⟨hlt, rfl⟩ := List.getElem?_eq_some_iff.mp hcommand
    exact List.drop_eq_getElem_cons hlt
  have hperm : s.outstanding.Perm (command :: NvmeTasks.outstanding
      { s with run := { s.run with dev, handler } }) := by
    have heq : NvmeTasks.outstanding { s with run := { s.run with dev, handler } } =
        s.inFlight ++ s.completed.drop ((s.run.dev.finished .io).length + 1) := by
      simp [outstanding, hfin]
    rw [heq, outstanding, hdrop]
    exact List.perm_middle
  have hnodup := (hperm.map NvmeCommand.commandId).nodup_iff.mp h.nodup
  rw [List.map_cons, List.nodup_cons] at hnodup
  have hstatus : ∀ c, NvmeTasks.status { s with run := { s.run with dev, handler } } c =
      if c = command.commandId then nvmeCommandCompleted else s.status c := by
    intro c
    change dev.commandStatuses c.toNat = _
    rw [hst, hid, finishCommand]
    by_cases hc : c = entry.commandIdentifier
    · simp [hc]
    · have hne : c.toNat ≠ entry.commandIdentifier.toNat := fun hn => hc (BitVec.eq_of_toNat_eq hn)
      simp [hc, hne, NvmeTasks.status]
  have hflight := (h.waiting command (hperm.mem_iff.mpr List.mem_cons_self)).1
  constructor
  · exact hqueues
  · exact h.ids
  · exact h.admin
  · exact hnodup.2
  · intro other hm
    have hne : other.commandId ≠ command.commandId := fun heq =>
      hnodup.1 (List.mem_map.mpr ⟨other, hm, heq⟩)
    rw [hstatus, if_neg hne]
    exact h.waiting other (hperm.mem_iff.mpr (List.mem_cons_of_mem _ hm))
  · intro t
    have hf := h.facts t
    change NvmeTasks.Facts _ t (s.pc t)
    cases hpc : s.pc t with
    | idle => trivial
    | waitRoom => trivial
    | scan c =>
      rw [hpc] at hf
      exact hf
    | take c =>
      rw [hpc] at hf
      have hne : c ≠ command.commandId := by
        rintro rfl
        exact absurd (hflight.symm.trans hf.2) (by decide)
      exact ⟨hf.1, by rw [hstatus, if_neg hne]; exact hf.2⟩
    | submit c =>
      rw [hpc] at hf
      have hne : c ≠ command.commandId :=
        fun heq => hf.2.2 command (hperm.mem_iff.mpr List.mem_cons_self) heq.symm
      refine ⟨hf.1, by rw [hstatus, if_neg hne]; exact hf.2.1, ?_⟩
      exact fun other hm => hf.2.2 other (hperm.mem_iff.mpr (List.mem_cons_of_mem _ hm))
    | await n c =>
      rw [hpc] at hf
      rcases hf with hf | hf
      · rcases List.mem_cons.mp (hperm.mem_iff.mp hf) with heq | hm
        · refine .inr ⟨by rw [hstatus, ← heq, if_pos rfl], ?_⟩
          exact heq ▸ List.mem_of_getElem? hcommand
        · exact .inl hm
      · refine .inr ⟨?_, hf.2⟩
        rw [hstatus, hf.1, ite_self]
    | release c =>
      rw [hpc] at hf
      exact ⟨hf.1, by rw [hstatus, hf.2, ite_self]⟩
  · exact h.unique
  · exact h.dead

theorem interrupt (h : s.Inv) {run : NvmeRun} (hstep : NvmeStep s.run run)
    (hpost : run.posted = s.run.posted) : NvmeTasks.Inv { s with run } := by
  cases hstep with
  | @post id entry room phase =>
    have hlen := congrArg (fun posted => (posted id).length) hpost
    simp [NvmeRun.post] at hlen
  | interrupt =>
    exact ⟨h.queues, h.ids, h.admin, h.nodup, h.waiting, h.facts, h.unique, h.dead⟩
  | pass within taken => exact h.handled taken
  | leave =>
    exact ⟨h.queues.writeHeadDoorbell _ _, h.ids, h.admin, h.nodup, h.waiting, h.facts, h.unique,
      h.dead⟩

end Inv

end NvmeTasks

theorem NvmeTaskStep.inv {s s' : NvmeTasks} (h : NvmeTaskStep s s') (hi : s.Inv) : s'.Inv := by
  cases h with
  | call runs at_pc =>
    exact (hi.rest_of_pc runs at_pc (by simp)).inv_goto trivial (by simp [CommandPc.holds])
  | room runs at_pc =>
    exact (hi.rest_of_pc runs at_pc (by simp)).inv_goto rfl (by simp [CommandPc.holds])
  | skip runs at_pc =>
    exact (hi.rest_of_pc runs at_pc (by simp)).inv_goto rfl (by simp [CommandPc.holds])
  | find runs at_pc free =>
    exact (hi.rest_of_pc runs at_pc (by simp)).inv_goto ⟨rfl, free⟩ (by simp [CommandPc.holds])
  | take runs at_pc => exact hi.take runs at_pc
  | submit runs at_pc read_or_write => exact hi.submit runs at_pc read_or_write
  | pass runs at_pc done => exact hi.pass runs at_pc done
  | release runs at_pc => exact hi.release runs at_pc
  | yield idle yields alive => exact hi.yields yields alive
  | kill runs at_pc => exact hi.kill at_pc _
  | interrupt step no_post => exact hi.interrupt step no_post
  | complete mem same step => exact hi.complete mem same step

/-- Only the current task leaves `await_command_finish`, by the test of its status. -/
theorem NvmeTaskStep.leaves_await {s s' : NvmeTasks} (h : NvmeTaskStep s s') {t number : Nat}
    {commandId : U16} (hpc : s.pc t = .await number commandId)
    (hleft : s'.pc t ≠ .await number commandId) :
    t = s.current ∧ s.status commandId ≠ nvmeCommandInFlight := by
  have hgoto : ∀ (s₁ : NvmeTasks) (pc : CommandPc), s₁.pc = s.pc → s₁.current = s.current →
      (s₁.goto pc).pc t ≠ .await number commandId → t = s.current := by
    intro s₁ pc hp hcur hne
    by_contra ht
    rw [← hcur] at ht
    rw [NvmeTasks.goto_pc_ne s₁ pc ht, hp] at hne
    exact hne hpc
  cases h with
  | call runs at_pc =>
    obtain rfl := hgoto _ _ rfl rfl hleft
    exact absurd (at_pc.symm.trans hpc) (by simp)
  | room runs at_pc =>
    obtain rfl := hgoto _ _ rfl rfl hleft
    exact absurd (at_pc.symm.trans hpc) (by simp)
  | skip runs at_pc =>
    obtain rfl := hgoto _ _ rfl rfl hleft
    exact absurd (at_pc.symm.trans hpc) (by simp)
  | find runs at_pc =>
    obtain rfl := hgoto _ _ rfl rfl hleft
    exact absurd (at_pc.symm.trans hpc) (by simp)
  | take runs at_pc =>
    obtain rfl := hgoto _ _ rfl rfl hleft
    exact absurd (at_pc.symm.trans hpc) (by simp)
  | submit runs at_pc =>
    obtain rfl := hgoto _ _ rfl rfl hleft
    exact absurd (at_pc.symm.trans hpc) (by simp)
  | pass runs at_pc done =>
    obtain rfl := hgoto _ _ rfl rfl hleft
    obtain ⟨-, rfl⟩ := CommandPc.await.inj (at_pc.symm.trans hpc)
    exact ⟨rfl, done⟩
  | release runs at_pc =>
    obtain rfl := hgoto _ _ rfl rfl hleft
    exact absurd (at_pc.symm.trans hpc) (by simp)
  | yield => exact absurd hpc hleft
  | kill => exact absurd hpc hleft
  | interrupt => exact absurd hpc hleft
  | complete => exact absurd hpc hleft

theorem NvmeTasksReachable.inv {s : NvmeTasks} (h : NvmeTasksReachable s) : s.Inv := by
  induction h with
  | refl =>
    constructor
    · exact fun _ => NvmeQueueInv.init
    · rfl
    · rfl
    · exact List.nodup_nil
    · intro command hm
      cases hm
    · exact fun _ => trivial
    · intro t u c ht
      cases ht
    · intro hk
      cases hk
  | tail _ hstep ih => exact hstep.inv ih

/-- The id that a task uses as an index of `command_statuses`. -/
def CommandPc.index : CommandPc → Option U16
  | .scan commandId => some commandId
  | .take commandId => some commandId
  | pc => pc.holds

theorem nextCommandId_lt {c : U16} (h : c.toNat < nvmeMaxCommands) :
    (nextCommandId c).toNat < nvmeMaxCommands := by
  have hlt : c.toNat < 128 := h
  by_cases hw : c + 1 = BitVec.ofNat 16 nvmeMaxCommands
  · rw [nextCommandId, if_pos hw]
    decide
  · rw [nextCommandId, if_neg hw]
    simp only [nvmeMaxCommands] at hw ⊢
    bv_omega

/-- The tasks use `command_statuses` inside its bounds. -/
def InBounds (s : NvmeTasks) : Prop :=
  ∀ t c, (s.pc t).index = some c → c.toNat < nvmeMaxCommands

theorem InBounds.goto {s s₁ : NvmeTasks} (h : InBounds s) (hpc : s₁.pc = s.pc) {pc : CommandPc}
    (hi : ∀ c, pc.index = some c → c.toNat < nvmeMaxCommands) : InBounds (s₁.goto pc) := by
  intro t c hc
  by_cases ht : t = s₁.current
  · rw [ht, NvmeTasks.goto_pc_current] at hc
    exact hi c hc
  · rw [NvmeTasks.goto_pc_ne s₁ pc ht, hpc] at hc
    exact h t c hc

theorem NvmeTaskStep.inBounds {s s' : NvmeTasks} (h : NvmeTaskStep s s') (hs : InBounds s) :
    InBounds s' := by
  cases h with
  | call => exact hs.goto rfl (by simp [CommandPc.index, CommandPc.holds])
  | room => exact hs.goto rfl (by simp [CommandPc.index, nvmeMaxCommands])
  | @skip c runs at_pc =>
    have hc := nextCommandId_lt (hs s.current c (by rw [at_pc]; rfl))
    exact hs.goto rfl fun d hd => Option.some.inj hd ▸ hc
  | @find c runs at_pc =>
    have hc := hs s.current c (by rw [at_pc]; rfl)
    exact hs.goto rfl fun d hd => Option.some.inj hd ▸ hc
  | @take c runs at_pc =>
    have hc := hs s.current c (by rw [at_pc]; rfl)
    exact hs.goto rfl fun d hd => Option.some.inj hd ▸ hc
  | @submit opcode c runs at_pc =>
    have hc := hs s.current c (by rw [at_pc]; rfl)
    exact hs.goto rfl fun d hd => Option.some.inj hd ▸ hc
  | @pass number c runs at_pc =>
    have hc := hs s.current c (by rw [at_pc]; rfl)
    exact hs.goto rfl fun d hd => Option.some.inj hd ▸ hc
  | release => exact hs.goto rfl (by simp [CommandPc.index, CommandPc.holds])
  | yield => exact hs
  | kill => exact hs
  | interrupt => exact hs
  | complete => exact hs

theorem NvmeTasksReachable.inBounds {s : NvmeTasks} (h : NvmeTasksReachable s) : InBounds s := by
  induction h with
  | refl =>
    intro t c hc
    cases hc
  | tail _ hstep ih => exact hstep.inBounds ih

/-- No two commands that the controller has still to complete, or whose completion the
driver has still to see, have one id, and a task leaves `await_command_finish` only
when its own command is completed. -/
theorem command_ids_not_confused {s : NvmeTasks} (h : NvmeTasksReachable s) :
    (s.outstanding.map NvmeCommand.commandId).Nodup ∧
      ∀ s' t number commandId, NvmeTaskStep s s' → s.pc t = .await number commandId →
        s'.pc t ≠ .await number commandId → ⟨t, number, commandId⟩ ∈ s.completed := by
  have hi := h.inv
  refine ⟨hi.nodup, ?_⟩
  intro s' t number commandId hstep hpc hleft
  obtain ⟨-, hdone⟩ := hstep.leaves_await hpc hleft
  exact (hi.awaited hpc hdone).2

/-- Two tasks with a command each. -/
theorem command_ids_not_confused_two_tasks : ∃ s : NvmeTasks,
    s.outstanding = [⟨0, 0, 0⟩, ⟨1, 1, 1⟩] ∧ (s.outstanding.map NvmeCommand.commandId).Nodup ∧
      ∀ s' t number commandId, NvmeTaskStep s s' → s.pc t = .await number commandId →
        s'.pc t ≠ .await number commandId → ⟨t, number, commandId⟩ ∈ s.completed := by
  have h₁ : NvmeTasksReachable _ := .single (.call ⟨rfl, rfl⟩ rfl)
  have h₂ := h₁.tail (.room ⟨rfl, rfl⟩ rfl (by decide))
  have h₃ := h₂.tail (.find ⟨rfl, rfl⟩ rfl rfl)
  have h₄ := h₃.tail (.take ⟨rfl, rfl⟩ rfl)
  have h₅ := h₄.tail (.submit ⟨rfl, rfl⟩ rfl (.inl rfl))
  have h₆ := h₅.tail (.yield (t := 1) rfl (.inr (.inr (.inr ⟨0, 0, rfl, rfl⟩))) rfl)
  have h₇ := h₆.tail (.call ⟨rfl, rfl⟩ rfl)
  have h₈ := h₇.tail (.room ⟨rfl, rfl⟩ rfl (by decide))
  have h₉ := h₈.tail (.skip ⟨rfl, rfl⟩ rfl (by decide))
  have h₁₀ := h₉.tail (.find ⟨rfl, rfl⟩ rfl rfl)
  have h₁₁ := h₁₀.tail (.take ⟨rfl, rfl⟩ rfl)
  have h₁₂ := h₁₁.tail (.submit ⟨rfl, rfl⟩ rfl (.inr rfl))
  exact ⟨_, rfl, command_ids_not_confused h₁₂⟩

end Persistos
