import Persistos.NvmeCommands
import Persistos.Theory.SlotRing

/-! The submission queue of an NVMe device. The driver knows how far the controller has
read it only from the completions that it has seen. -/

namespace Persistos

open Theory

/-- `struct nvme_sq_entry` -/
structure NvmeSqEntry where
  command : U32
  nsid : U32
  reserved1 : U32
  reserved2 : U32
  metadata1 : U32
  metadata2 : U32
  data1 : U32
  data2 : U32
  data3 : U32
  data4 : U32
  suffix1 : U32
  suffix2 : U32
  suffix3 : U32
  suffix4 : U32
  suffix5 : U32
  suffix6 : U32
  deriving DecidableEq, Repr

/-- What a call of `nvme_readpage` (opcode 2) or `nvme_writepage` (opcode 1) asks for. -/
structure PageCommand where
  opcode : U32
  commandId : U16
  resultPagePhys : U64
  lba : U32
  deriving DecidableEq, Repr

namespace PageCommand

def entry (lbadsExponent : U8) (p : PageCommand) : NvmeSqEntry where
  command := sqCommand p.opcode p.commandId
  nsid := 1
  reserved1 := 0
  reserved2 := 0
  metadata1 := 0
  metadata2 := 0
  data1 := p.resultPagePhys.setWidth 32
  data2 := (p.resultPagePhys >>> 32).setWidth 32
  data3 := 0
  data4 := 0
  suffix1 := p.lba
  suffix2 := 0
  suffix3 := 4095 >>> lbadsExponent.toNat
  suffix4 := 0
  suffix5 := 0
  suffix6 := 0

/-- The assignments to `tail_iosq_entry`, one after the other. -/
def stores (lbadsExponent : U8) (p : PageCommand) : List (NvmeSqEntry → NvmeSqEntry) :=
  [fun tailIosqEntry => { tailIosqEntry with command := sqCommand p.opcode p.commandId },
    fun tailIosqEntry => { tailIosqEntry with nsid := 1 },
    fun tailIosqEntry => { tailIosqEntry with reserved1 := 0 },
    fun tailIosqEntry => { tailIosqEntry with reserved2 := 0 },
    fun tailIosqEntry => { tailIosqEntry with metadata1 := 0 },
    fun tailIosqEntry => { tailIosqEntry with metadata2 := 0 },
    fun tailIosqEntry => { tailIosqEntry with data1 := p.resultPagePhys.setWidth 32 },
    fun tailIosqEntry => { tailIosqEntry with data2 := (p.resultPagePhys >>> 32).setWidth 32 },
    fun tailIosqEntry => { tailIosqEntry with data3 := 0 },
    fun tailIosqEntry => { tailIosqEntry with data4 := 0 },
    fun tailIosqEntry => { tailIosqEntry with suffix1 := p.lba },
    fun tailIosqEntry => { tailIosqEntry with suffix2 := 0 },
    fun tailIosqEntry => { tailIosqEntry with suffix3 := 4095 >>> lbadsExponent.toNat },
    fun tailIosqEntry => { tailIosqEntry with suffix4 := 0 },
    fun tailIosqEntry => { tailIosqEntry with suffix5 := 0 },
    fun tailIosqEntry => { tailIosqEntry with suffix6 := 0 }]

/-- The slot after the assignments that are left. -/
def storeAll (left : List (NvmeSqEntry → NvmeSqEntry)) (e : NvmeSqEntry) : NvmeSqEntry :=
  left.foldl (fun e store => store e) e

theorem storeAll_stores (lbadsExponent : U8) (p : PageCommand) (e : NvmeSqEntry) :
    storeAll (p.stores lbadsExponent) e = p.entry lbadsExponent := rfl

end PageCommand

/-- The tasks with the memory of the submission queue. `writing` is the command whose
entry the current task is about to write, with the assignments left, `written` are the
commands that were submitted, `fetched` the entries that the controller has read, and
`heads` the controller's heads in the completions it posted, counted from the start. -/
structure NvmeSubmissions where
  tasks : NvmeTasks
  iosq : Nat → NvmeSqEntry
  writing : Option (PageCommand × List (NvmeSqEntry → NvmeSqEntry))
  tailDoorbell : U32
  written : List PageCommand
  fetched : List NvmeSqEntry
  heads : List Nat

namespace NvmeSubmissions

def init (iosq : Nat → NvmeSqEntry) : NvmeSubmissions :=
  ⟨NvmeTasks.init, iosq, none, 0, [], [], []⟩

/-- `dev->iosq_tail` -/
def tail (s : NvmeSubmissions) : Nat := (s.tasks.run.dev.queue .io).sqTail.toNat

/-- The controller has not read all up to the tail that it was told. -/
def CanFetch (s : NvmeSubmissions) : Prop :=
  s.fetched.length % nvmeQueueSize ≠ s.tailDoorbell.toNat

/-- No entry that was written to the slot at the tail is still to be read. -/
def TailSlotFree (s : NvmeSubmissions) : Prop :=
  ∀ n < s.written.length, n % nvmeQueueSize = s.tail → n < s.fetched.length

end NvmeSubmissions

inductive NvmeSubmissionStep (lbadsExponent : U8) : NvmeSubmissions → NvmeSubmissions → Prop
  | start {s : NvmeSubmissions} {p : PageCommand} (runs : s.tasks.CanRun)
      (at_pc : s.tasks.pc s.tasks.current = .submit p.commandId)
      (read_or_write : p.opcode = 1 ∨ p.opcode = 2) (fresh : s.writing = none) :
      NvmeSubmissionStep lbadsExponent s { s with writing := some (p, p.stores lbadsExponent) }
  | store {s : NvmeSubmissions} {p : PageCommand} {store : NvmeSqEntry → NvmeSqEntry}
      {left : List (NvmeSqEntry → NvmeSqEntry)} (runs : s.tasks.CanRun)
      (writes : s.writing = some (p, store :: left)) :
      NvmeSubmissionStep lbadsExponent s { s with
        iosq := Function.update s.iosq s.tail (store (s.iosq s.tail))
        writing := some (p, left) }
  | submit {s : NvmeSubmissions} {p : PageCommand} (runs : s.tasks.CanRun)
      (writes : s.writing = some (p, [])) :
      NvmeSubmissionStep lbadsExponent s { s with
        tasks := (s.tasks.submitCommand p.opcode p.commandId).goto
          (.await s.tasks.submitted p.commandId)
        writing := none
        tailDoorbell := BitVec.ofNat 32 ((s.tail + 1) % nvmeQueueSize)
        written := s.written ++ [p] }
  | task {s : NvmeSubmissions} {tasks : NvmeTasks}
      (between : ∀ commandId, s.tasks.pc s.tasks.current ≠ .submit commandId)
      (step : NvmeTaskStep s.tasks tasks) (no_completion : tasks.completed = s.tasks.completed) :
      NvmeSubmissionStep lbadsExponent s { s with tasks }
  | interrupt {s : NvmeSubmissions} {run : NvmeRun} (step : NvmeStep s.tasks.run run)
      (no_post : run.posted = s.tasks.run.posted) :
      NvmeSubmissionStep lbadsExponent s { s with tasks := { s.tasks with run } }
  | fetch {s : NvmeSubmissions} (can : s.CanFetch) :
      NvmeSubmissionStep lbadsExponent s { s with
        fetched := s.fetched ++ [s.iosq (s.fetched.length % nvmeQueueSize)] }
  | complete {s : NvmeSubmissions} {command : NvmeCommand} {entry : NvmeCqEntry}
      (mem : command ∈ s.tasks.inFlight) (was_fetched : command.number < s.fetched.length)
      (same : entry.commandIdentifier = command.commandId)
      (head : entry.sqHeadPointer = BitVec.ofNat 16 (s.fetched.length % nvmeQueueSize))
      (step : NvmeStep s.tasks.run (s.tasks.run.post .io entry)) :
      NvmeSubmissionStep lbadsExponent s { s with
        tasks := s.tasks.complete command entry
        heads := s.heads ++ [s.fetched.length] }

abbrev NvmeSubmissionsReachable (lbadsExponent : U8) (iosq : Nat → NvmeSqEntry) :
    NvmeSubmissions → Prop :=
  Relation.ReflTransGen (NvmeSubmissionStep lbadsExponent) (NvmeSubmissions.init iosq)

/-- A task that has left the wait for room and not submitted its command yet. -/
def CommandPc.hasRoom : CommandPc → Bool
  | .scan _ => true
  | .take _ => true
  | .submit _ => true
  | _ => false

namespace NvmeSubmissions

variable {lbadsExponent : U8} {s : NvmeSubmissions}

/-- The commands as the entries that the tasks write for them. -/
def entries (lbadsExponent : U8) (s : NvmeSubmissions) : List NvmeSqEntry :=
  s.written.map (PageCommand.entry lbadsExponent)

/-- The driver's copy `head` of the controller's head is not more than the ring behind. -/
structure Knows (s : NvmeSubmissions) (head : Nat) : Prop where
  seen : (0 :: s.heads)[(s.tasks.run.dev.finished .io).length]? = some head
  copy : (s.tasks.run.dev.queue .io).sqHead.toNat = head % nvmeQueueSize
  within : s.written.length < head + nvmeQueueSize
  room : (s.tasks.pc s.tasks.current).hasRoom = true → s.written.length + 1 < head + nvmeQueueSize

/-- What the current task has still to store makes its entry. -/
structure Writes (lbadsExponent : U8) (s : NvmeSubmissions) (p : PageCommand)
    (left : List (NvmeSqEntry → NvmeSqEntry)) : Prop where
  at_pc : s.tasks.pc s.tasks.current = .submit p.commandId
  read_or_write : p.opcode = 1 ∨ p.opcode = 2
  makes : PageCommand.storeAll left (s.iosq s.tail) = p.entry lbadsExponent

structure Inv (lbadsExponent : U8) (s : NvmeSubmissions) : Prop where
  tasks : s.tasks.Inv
  submitted : s.tasks.submitted = s.written.length
  tail : s.tail = s.written.length % nvmeQueueSize
  doorbell : s.tailDoorbell.toNat = s.written.length % nvmeQueueSize
  knows : ∃ head, s.Knows head
  posted : (s.tasks.run.posted .io).map NvmeCqEntry.sqHeadPointer =
    s.heads.map fun head => BitVec.ofNat 16 (head % nvmeQueueSize)
  sorted : (0 :: s.heads).Pairwise (· ≤ ·)
  reached : ∀ head ∈ s.heads, head ≤ s.fetched.length
  behind : s.fetched.length ≤ s.written.length
  fetched : s.fetched = (s.entries lbadsExponent).take s.fetched.length
  pending : Pending nvmeQueueSize s.iosq (s.entries lbadsExponent) s.fetched.length
  writing : ∀ p left, s.writing = some (p, left) → s.Writes lbadsExponent p left
  ids : ∀ command, command ∈ s.tasks.inFlight ∨ command ∈ s.tasks.completed →
    ∃ p, s.written[command.number]? = some p ∧ p.commandId = command.commandId

namespace Inv

theorem head_le (h : s.Inv lbadsExponent) {head : Nat} (hk : s.Knows head) :
    head ≤ s.fetched.length := by
  rcases List.mem_cons.mp (List.mem_of_getElem? hk.seen) with rfl | hm
  · exact Nat.zero_le _
  · exact h.reached head hm

/-- The controller is less than the ring behind the tasks. -/
theorem written_lt (h : s.Inv lbadsExponent) :
    s.written.length < s.fetched.length + nvmeQueueSize := by
  obtain ⟨head, hk⟩ := h.knows
  have hle := h.head_le hk
  have hlt := hk.within
  omega

theorem canFetch_iff (h : s.Inv lbadsExponent) :
    s.CanFetch ↔ s.fetched.length < s.written.length := by
  have hle := h.behind
  rw [CanFetch, h.doorbell]
  constructor
  · intro hne
    apply Nat.lt_of_le_of_ne hle
    intro he
    exact hne (congrArg (· % nvmeQueueSize) he)
  · intro hlt
    exact mod_ne_mod_of_lt hlt h.written_lt

theorem tailSlotFree (h : s.Inv lbadsExponent)
    (hroom : (s.tasks.pc s.tasks.current).hasRoom = true) : s.TailSlotFree := by
  obtain ⟨head, hk⟩ := h.knows
  have hle := h.head_le hk
  have hlt := hk.room hroom
  intro n hn hslot
  by_contra hpending
  rw [h.tail] at hslot
  exact mod_ne_mod_of_lt hn (by omega) hslot

/-- A step of the tasks that neither submits nor sees a completion. -/
theorem keep (h : s.Inv lbadsExponent) {tasks : NvmeTasks} (hi : tasks.Inv)
    (hqueue : tasks.run.dev.queue .io = s.tasks.run.dev.queue .io)
    (hfinished : tasks.run.dev.finished .io = s.tasks.run.dev.finished .io)
    (hposted : tasks.run.posted .io = s.tasks.run.posted .io)
    (hsubmitted : tasks.submitted = s.tasks.submitted)
    (hflight : tasks.inFlight = s.tasks.inFlight) (hcompleted : tasks.completed = s.tasks.completed)
    (hwriting : s.writing = none)
    (hroom : (tasks.pc tasks.current).hasRoom = true →
      (s.tasks.pc s.tasks.current).hasRoom = true ∨ ¬s.tasks.SubmissionQueueFull) :
    NvmeSubmissions.Inv lbadsExponent { s with tasks } where
  tasks := hi
  submitted := hsubmitted.trans h.submitted
  tail := (congrArg (fun q => q.sqTail.toNat) hqueue).trans h.tail
  doorbell := h.doorbell
  knows := by
    obtain ⟨head, hk⟩ := h.knows
    have hcopy := (congrArg (fun q => q.sqHead.toNat) hqueue).trans hk.copy
    have hlt := hk.within
    refine ⟨head, ⟨by rw [hfinished]; exact hk.seen, hcopy, hk.within, ?_⟩⟩
    intro hpc
    rcases hroom hpc with hold | hfree
    · exact hk.room hold
    · by_contra hge
      dsimp only at hge
      have hlen : s.written.length + 1 = head + nvmeQueueSize := by omega
      apply hfree
      have htail : (s.tasks.run.dev.queue .io).sqTail.toNat = s.written.length % nvmeQueueSize :=
        h.tail
      rw [NvmeTasks.SubmissionQueueFull, htail, hk.copy, Nat.mod_add_mod, hlen,
        Nat.add_mod_right]
  posted := by
    change (tasks.run.posted .io).map _ = _
    rw [hposted]
    exact h.posted
  sorted := h.sorted
  reached := h.reached
  behind := h.behind
  fetched := h.fetched
  pending := h.pending
  writing := by
    intro p left hw
    cases hwriting.symm.trans hw
  ids := by
    intro command hm
    apply h.ids command
    rwa [← hflight, ← hcompleted]

/-- The handler takes over the head that the next completion carries. -/
theorem interrupt (h : s.Inv lbadsExponent) {run : NvmeRun} (hstep : NvmeStep s.tasks.run run)
    (hpost : run.posted = s.tasks.run.posted) :
    NvmeSubmissions.Inv lbadsExponent { s with tasks := { s.tasks with run } } := by
  have hi := h.tasks.interrupt hstep hpost
  obtain ⟨htail, hknows⟩ : (run.dev.queue .io).sqTail = (s.tasks.run.dev.queue .io).sqTail ∧
      ∃ head, NvmeSubmissions.Knows { s with tasks := { s.tasks with run } } head := by
    obtain ⟨head, hk⟩ := h.knows
    cases hstep with
    | @post id entry room phase =>
      have hlen := congrArg (fun posted => (posted id).length) hpost
      simp [NvmeRun.post] at hlen
    | interrupt => exact ⟨rfl, head, hk.seen, hk.copy, hk.within, hk.room⟩
    | @leave id needed within nothing =>
      have hq : ((s.tasks.run.leaveLoop id needed).dev.queue .io).sqTail =
            (s.tasks.run.dev.queue .io).sqTail ∧
          ((s.tasks.run.leaveLoop id needed).dev.queue .io).sqHead =
            (s.tasks.run.dev.queue .io).sqHead := by
        cases id <;> cases needed <;> exact ⟨rfl, rfl⟩
      exact ⟨hq.1, head, hk.seen, (congrArg BitVec.toNat hq.2).trans hk.copy, hk.within, hk.room⟩
    | @pass id needed dev within taken =>
      obtain ⟨entry, hentry, hfin, -, hqueue, -⟩ := h.tasks.queues.completionPass taken
      obtain rfl : id = .io := by
        cases id with
        | admin => simp [h.tasks.admin] at hentry
        | io => rfl
      have hseen : s.heads[(s.tasks.run.dev.finished .io).length]?.map
          (fun head => BitVec.ofNat 16 (head % nvmeQueueSize)) = some entry.sqHeadPointer := by
        rw [← List.getElem?_map, ← h.posted, List.getElem?_map, hentry]
        rfl
      obtain ⟨next, hnext, hcopy⟩ := Option.map_eq_some_iff.mp hseen
      have hle : head ≤ next := by
        have hlt := (List.getElem?_eq_some_iff.mp hk.seen).1
        have hnlt := (List.getElem?_eq_some_iff.mp hnext).1
        have hh := List.pairwise_iff_getElem.mp h.sorted _ _ hlt (Nat.succ_lt_succ hnlt)
          (Nat.lt_succ_self _)
        rwa [(List.getElem?_eq_some_iff.mp hk.seen).2, List.getElem_cons_succ,
          (List.getElem?_eq_some_iff.mp hnext).2] at hh
      have htake : dev.queue .io = (s.tasks.run.dev.queue .io).takeHead := by
        rw [hqueue, Function.update_self]
      have hhead : ((s.tasks.run.dev.queue .io).headEntry) = entry := by
        have hlt := (List.getElem?_eq_some_iff.mp hentry).1
        exact Option.some.inj (((h.tasks.queues .io).headEntry hlt).symm.trans hentry)
      have hlt := hk.within
      refine ⟨?_, next, ?_, ?_, ?_, ?_⟩
      · rw [htake, NvmeQueueState.takeHead]
        split <;> rfl
      · simpa [hfin] using hnext
      · have hsq : (dev.queue .io).sqHead = entry.sqHeadPointer.setWidth 8 := by
          rw [htake, NvmeQueueState.takeHead, hhead]
          split <;> rfl
        have hmod : next % nvmeQueueSize < 64 := Nat.mod_lt _ (by decide)
        change (dev.queue .io).sqHead.toNat = next % nvmeQueueSize
        rw [hsq, ← hcopy, BitVec.toNat_setWidth, BitVec.toNat_ofNat]
        omega
      · change s.written.length < next + nvmeQueueSize
        omega
      · intro hroom
        have hold := hk.room hroom
        change s.written.length + 1 < next + nvmeQueueSize
        omega
  refine ⟨hi, h.submitted, (congrArg BitVec.toNat htail).trans h.tail, h.doorbell, hknows, ?_,
    h.sorted, h.reached, h.behind, h.fetched, h.pending, ?_, h.ids⟩
  · change (run.posted .io).map _ = _
    rw [hpost]
    exact h.posted
  · intro p left hw
    obtain ⟨hpc, hop, hmakes⟩ := h.writing p left hw
    have hslot : NvmeSubmissions.tail { s with tasks := { s.tasks with run } } = s.tail :=
      congrArg BitVec.toNat htail
    refine ⟨hpc, hop, ?_⟩
    rw [hslot]
    exact hmakes

theorem goto_hasRoom (tasks : NvmeTasks) {pc : CommandPc} (hpc : pc.hasRoom = false) {P : Prop}
    (hroom : ((tasks.goto pc).pc (tasks.goto pc).current).hasRoom = true) : P := by
  have hcur := NvmeTasks.goto_pc_current tasks pc
  change ((tasks.goto pc).pc tasks.current).hasRoom = true at hroom
  rw [hcur, hpc] at hroom
  cases hroom

theorem task (h : s.Inv lbadsExponent) {tasks : NvmeTasks}
    (hbetween : ∀ c, s.tasks.pc s.tasks.current ≠ .submit c) (hstep : NvmeTaskStep s.tasks tasks)
    (hsame : tasks.completed = s.tasks.completed) :
    NvmeSubmissions.Inv lbadsExponent { s with tasks } := by
  have hi := hstep.inv h.tasks
  have hwriting : s.writing = none := by
    cases hw : s.writing with
    | none => rfl
    | some write => exact absurd (h.writing write.1 write.2 hw).at_pc (hbetween _)
  cases hstep with
  | call runs at_pc =>
    exact h.keep hi rfl rfl rfl rfl rfl rfl hwriting (goto_hasRoom _ rfl)
  | room runs at_pc room =>
    exact h.keep hi rfl rfl rfl rfl rfl rfl hwriting fun _ => .inr room
  | skip runs at_pc taken =>
    exact h.keep hi rfl rfl rfl rfl rfl rfl hwriting fun _ => .inl (by rw [at_pc]; rfl)
  | find runs at_pc free =>
    exact h.keep hi rfl rfl rfl rfl rfl rfl hwriting fun _ => .inl (by rw [at_pc]; rfl)
  | take runs at_pc =>
    exact h.keep hi rfl rfl rfl rfl rfl rfl hwriting fun _ => .inl (by rw [at_pc]; rfl)
  | submit runs at_pc => exact absurd at_pc (hbetween _)
  | pass runs at_pc done =>
    exact h.keep hi rfl rfl rfl rfl rfl rfl hwriting (goto_hasRoom _ rfl)
  | release runs at_pc =>
    exact h.keep hi rfl rfl rfl rfl rfl rfl hwriting (goto_hasRoom _ rfl)
  | @yield t idle yields alive =>
    refine h.keep hi rfl rfl rfl rfl rfl rfl hwriting fun hroom => ?_
    by_cases ht : t = s.tasks.current
    · exact .inl (ht ▸ hroom)
    · change (s.tasks.pc t).hasRoom = true at hroom
      rcases (h.tasks.facts t).not_running ht with hpc | hpc | ⟨n, c, hpc⟩
      all_goals
        rw [hpc] at hroom
        cases hroom
  | kill runs at_pc => exact h.keep hi rfl rfl rfl rfl rfl rfl hwriting .inl
  | interrupt step no_post => exact h.interrupt step no_post
  | @complete command entry mem same step =>
    have hlen := congrArg List.length hsame
    simp [NvmeTasks.complete] at hlen

theorem start (h : s.Inv lbadsExponent) {p : PageCommand}
    (hpc : s.tasks.pc s.tasks.current = .submit p.commandId)
    (hop : p.opcode = 1 ∨ p.opcode = 2) :
    NvmeSubmissions.Inv lbadsExponent { s with writing := some (p, p.stores lbadsExponent) } where
  tasks := h.tasks
  submitted := h.submitted
  tail := h.tail
  doorbell := h.doorbell
  knows := h.knows.imp fun _ hk => ⟨hk.seen, hk.copy, hk.within, hk.room⟩
  posted := h.posted
  sorted := h.sorted
  reached := h.reached
  behind := h.behind
  fetched := h.fetched
  pending := h.pending
  writing := by
    rintro _ _ ⟨⟩
    exact ⟨hpc, hop, PageCommand.storeAll_stores lbadsExponent p _⟩
  ids := h.ids

theorem entries_length (lbadsExponent : U8) (s : NvmeSubmissions) :
    (s.entries lbadsExponent).length = s.written.length := List.length_map _

theorem store (h : s.Inv lbadsExponent) {p : PageCommand} {store : NvmeSqEntry → NvmeSqEntry}
    {left : List (NvmeSqEntry → NvmeSqEntry)} (hw : s.writing = some (p, store :: left)) :
    NvmeSubmissions.Inv lbadsExponent { s with
      iosq := Function.update s.iosq s.tail (store (s.iosq s.tail))
      writing := some (p, left) } where
  tasks := h.tasks
  submitted := h.submitted
  tail := h.tail
  doorbell := h.doorbell
  knows := h.knows.imp fun _ hk => ⟨hk.seen, hk.copy, hk.within, hk.room⟩
  posted := h.posted
  sorted := h.sorted
  reached := h.reached
  behind := h.behind
  fetched := h.fetched
  pending := by
    have hlt := h.written_lt
    rw [← entries_length lbadsExponent] at hlt
    have hwrite := h.pending.write (e := store (s.iosq s.tail)) hlt
    rwa [entries_length, ← h.tail] at hwrite
  writing := by
    rintro _ _ ⟨⟩
    obtain ⟨hpc, hop, hmakes⟩ := h.writing p _ hw
    refine ⟨hpc, hop, ?_⟩
    change PageCommand.storeAll left (Function.update s.iosq s.tail _ s.tail) = _
    rw [Function.update_self]
    exact hmakes
  ids := h.ids

/-- The slot at the tail holds the whole entry when the doorbell is written. -/
theorem submit (h : s.Inv lbadsExponent) {p : PageCommand} (hr : s.tasks.CanRun)
    (hw : s.writing = some (p, [])) :
    NvmeSubmissions.Inv lbadsExponent { s with
      tasks := (s.tasks.submitCommand p.opcode p.commandId).goto
        (.await s.tasks.submitted p.commandId)
      writing := none
      tailDoorbell := BitVec.ofNat 32 ((s.tail + 1) % nvmeQueueSize)
      written := s.written ++ [p] } := by
  obtain ⟨hpc, hop, hmakes⟩ := h.writing p [] hw
  have hentries : (s.written ++ [p]).map (PageCommand.entry lbadsExponent) =
      s.entries lbadsExponent ++ [p.entry lbadsExponent] := List.map_append
  have hnext : (s.tail + 1) % nvmeQueueSize = (s.written.length + 1) % nvmeQueueSize := by
    rw [h.tail, Nat.mod_add_mod]
  have hlt : (s.written.length + 1) % nvmeQueueSize < 64 := Nat.mod_lt _ (by decide)
  constructor
  · exact h.tasks.submit hr hpc hop
  · change s.tasks.submitted + 1 = (s.written ++ [p]).length
    rw [h.submitted, List.length_append, List.length_singleton]
  · change (BitVec.ofNat 8 ((s.tail + 1) % nvmeQueueSize)).toNat = _
    rw [hnext, BitVec.toNat_ofNat, List.length_append, List.length_singleton]
    omega
  · change (BitVec.ofNat 32 ((s.tail + 1) % nvmeQueueSize)).toNat = _
    rw [hnext, BitVec.toNat_ofNat, List.length_append, List.length_singleton]
    omega
  · obtain ⟨head, hk⟩ := h.knows
    have hroom := hk.room (by rw [hpc]; rfl)
    refine ⟨head, hk.seen, hk.copy, ?_, ?_⟩
    · rw [List.length_append, List.length_singleton]
      exact hroom
    · exact goto_hasRoom (s.tasks.submitCommand p.opcode p.commandId) rfl
  · exact h.posted
  · exact h.sorted
  · exact h.reached
  · have hle := h.behind
    change s.fetched.length ≤ (s.written ++ [p]).length
    rw [List.length_append]
    omega
  · have hle := h.behind
    change s.fetched = ((s.written ++ [p]).map (PageCommand.entry lbadsExponent)).take _
    rw [hentries, List.take_append_of_le_length (by rwa [entries_length])]
    exact h.fetched
  · change Pending _ s.iosq ((s.written ++ [p]).map (PageCommand.entry lbadsExponent)) _
    rw [hentries]
    apply h.pending.append
    rw [entries_length, ← h.tail]
    exact hmakes
  · rintro _ _ ⟨⟩
  · intro command hm
    have hflight : (s.tasks.submitCommand p.opcode p.commandId).inFlight =
        s.tasks.inFlight ++ [⟨s.tasks.current, s.tasks.submitted, p.commandId⟩] := by
      simp [NvmeTasks.submitCommand, sqCommandId_sqCommand hop]
    have hcases : (command ∈ s.tasks.inFlight ∨ command ∈ s.tasks.completed) ∨
        command = ⟨s.tasks.current, s.tasks.submitted, p.commandId⟩ := by
      rcases hm with hm | hm
      · change command ∈ (s.tasks.submitCommand p.opcode p.commandId).inFlight at hm
        rw [hflight] at hm
        exact (List.mem_append.mp hm).imp .inl List.mem_singleton.mp
      · exact .inl (.inr hm)
    rcases hcases with hold | rfl
    · obtain ⟨q, hq, hid⟩ := h.ids command hold
      have hqlt := (List.getElem?_eq_some_iff.mp hq).1
      exact ⟨q, by rwa [List.getElem?_append_left hqlt], hid⟩
    · refine ⟨p, ?_, rfl⟩
      change (s.written ++ [p])[s.tasks.submitted]? = some p
      rw [h.submitted, List.getElem?_concat_length]

theorem fetch (h : s.Inv lbadsExponent) (hcan : s.CanFetch) :
    NvmeSubmissions.Inv lbadsExponent { s with
      fetched := s.fetched ++ [s.iosq (s.fetched.length % nvmeQueueSize)] } := by
  have hlt := h.canFetch_iff.mp hcan
  have hlen : (s.fetched ++ [s.iosq (s.fetched.length % nvmeQueueSize)]).length =
      s.fetched.length + 1 := List.length_append
  constructor
  · exact h.tasks
  · exact h.submitted
  · exact h.tail
  · exact h.doorbell
  · exact h.knows.imp fun _ hk => ⟨hk.seen, hk.copy, hk.within, hk.room⟩
  · exact h.posted
  · exact h.sorted
  · intro head hm
    change head ≤ (s.fetched ++ [s.iosq (s.fetched.length % nvmeQueueSize)]).length
    have hle := h.reached head hm
    omega
  · exact Nat.le_trans (Nat.le_of_eq hlen) hlt
  · have htake := h.pending.take (by rwa [entries_length])
    rw [hlen]
    refine Eq.trans ?_ htake
    rw [← h.fetched]
  · rw [hlen]
    exact h.pending.advance
  · intro p left hw
    obtain ⟨hpc, hop, hmakes⟩ := h.writing p left hw
    exact ⟨hpc, hop, hmakes⟩
  · exact h.ids

theorem complete (h : s.Inv lbadsExponent) {command : NvmeCommand} {entry : NvmeCqEntry}
    (hm : command ∈ s.tasks.inFlight) (hid : entry.commandIdentifier = command.commandId)
    (hhead : entry.sqHeadPointer = BitVec.ofNat 16 (s.fetched.length % nvmeQueueSize))
    (hstep : NvmeStep s.tasks.run (s.tasks.run.post .io entry)) :
    NvmeSubmissions.Inv lbadsExponent { s with
      tasks := s.tasks.complete command entry
      heads := s.heads ++ [s.fetched.length] } := by
  have hqueue : ((s.tasks.complete command entry).run.dev.queue .io).sqTail =
        (s.tasks.run.dev.queue .io).sqTail ∧
      ((s.tasks.complete command entry).run.dev.queue .io).sqHead =
        (s.tasks.run.dev.queue .io).sqHead := by
    simp [NvmeTasks.complete, NvmeRun.post, NvmeQueues.setQueue]
  have hslot : (s.tasks.complete command entry).run.posted .io =
      s.tasks.run.posted .io ++ [entry] := by
    simp [NvmeTasks.complete, NvmeRun.post]
  constructor
  · exact h.tasks.complete hm hid hstep
  · exact h.submitted
  · exact (congrArg BitVec.toNat hqueue.1).trans h.tail
  · exact h.doorbell
  · obtain ⟨head, hk⟩ := h.knows
    refine ⟨head, ?_, (congrArg BitVec.toNat hqueue.2).trans hk.copy, hk.within, hk.room⟩
    have hlt := (List.getElem?_eq_some_iff.mp hk.seen).1
    change (0 :: (s.heads ++ [s.fetched.length]))[_]? = some head
    rw [← List.cons_append]
    exact (List.getElem?_append_left hlt).trans hk.seen
  · change ((s.tasks.complete command entry).run.posted .io).map _ = _
    rw [hslot, List.map_append, List.map_append, h.posted]
    simp [hhead]
  · change (0 :: (s.heads ++ [s.fetched.length])).Pairwise (· ≤ ·)
    rw [← List.cons_append, List.pairwise_append]
    refine ⟨h.sorted, List.pairwise_singleton _ _, ?_⟩
    intro a ha b hb
    rw [List.mem_singleton.mp hb]
    rcases List.mem_cons.mp ha with rfl | ha
    · exact Nat.zero_le _
    · exact h.reached a ha
  · intro head hmem
    rcases List.mem_append.mp hmem with hold | hnew
    · exact h.reached head hold
    · exact Nat.le_of_eq (List.mem_singleton.mp hnew)
  · exact h.behind
  · exact h.fetched
  · exact h.pending
  · intro p left hw
    obtain ⟨hpc, hop, hmakes⟩ := h.writing p left hw
    refine ⟨hpc, hop, ?_⟩
    have htail : NvmeSubmissions.tail { s with
        tasks := s.tasks.complete command entry
        heads := s.heads ++ [s.fetched.length] } = s.tail := congrArg BitVec.toNat hqueue.1
    rw [htail]
    exact hmakes
  · intro other hmem
    apply h.ids other
    rcases hmem with hmem | hmem
    · exact .inl (List.mem_of_mem_erase hmem)
    · rcases List.mem_append.mp hmem with hold | hnew
      · exact .inr hold
      · exact .inl (List.mem_singleton.mp hnew ▸ hm)

theorem init (iosq : Nat → NvmeSqEntry) :
    (NvmeSubmissions.init iosq).Inv lbadsExponent where
  tasks := NvmeTasksReachable.inv .refl
  submitted := rfl
  tail := rfl
  doorbell := rfl
  knows := ⟨0, rfl, rfl, Nat.zero_lt_succ 63, fun hroom => Bool.noConfusion hroom⟩
  posted := rfl
  sorted := List.pairwise_singleton _ _
  reached := by simp [NvmeSubmissions.init]
  behind := Nat.le_refl 0
  fetched := rfl
  pending := .nil
  writing := by rintro _ _ ⟨⟩
  ids := by
    intro command hm
    simp [NvmeSubmissions.init, NvmeTasks.init] at hm

end Inv

end NvmeSubmissions

theorem NvmeSubmissionStep.inv {lbadsExponent : U8} {s s' : NvmeSubmissions}
    (h : NvmeSubmissionStep lbadsExponent s s') (hi : s.Inv lbadsExponent) :
    s'.Inv lbadsExponent := by
  cases h with
  | start runs at_pc read_or_write fresh => exact hi.start at_pc read_or_write
  | store runs writes => exact hi.store writes
  | submit runs writes => exact hi.submit runs writes
  | task between step no_completion => exact hi.task between step no_completion
  | interrupt step no_post => exact hi.interrupt step no_post
  | fetch can => exact hi.fetch can
  | complete mem was_fetched same head step => exact hi.complete mem same head step

theorem NvmeSubmissionsReachable.inv {lbadsExponent : U8} {iosq : Nat → NvmeSqEntry}
    {s : NvmeSubmissions} (h : NvmeSubmissionsReachable lbadsExponent iosq s) :
    s.Inv lbadsExponent := by
  induction h with
  | refl => exact .init iosq
  | tail _ hstep ih => exact hstep.inv ih

/-- The assignments to an entry end with nothing left to store. -/
theorem NvmeSubmissionsReachable.storeAll {lbadsExponent : U8} {iosq : Nat → NvmeSqEntry}
    {left : List (NvmeSqEntry → NvmeSqEntry)} {s : NvmeSubmissions} {p : PageCommand}
    (h : NvmeSubmissionsReachable lbadsExponent iosq s) (hr : s.tasks.CanRun)
    (hw : s.writing = some (p, left)) :
    ∃ slots, NvmeSubmissionsReachable lbadsExponent iosq
      { s with iosq := slots, writing := some (p, []) } := by
  induction left generalizing s with
  | nil => exact ⟨s.iosq, by rwa [← hw]⟩
  | cons store left ih =>
    have hnext := h.tail (.store hr hw)
    obtain ⟨slots, hslots⟩ := ih hnext hr rfl
    exact ⟨slots, hslots⟩

/-- While the tasks submit commands, the controller reads them and completes them and the
handler runs, an entry is written only to a slot that was read or not used, and the
controller reads every entry once, as its task wrote it. -/
theorem submission_queue_not_overrun {lbadsExponent : U8} {iosq : Nat → NvmeSqEntry}
    {s : NvmeSubmissions} (h : NvmeSubmissionsReachable lbadsExponent iosq s) :
    (s.writing ≠ none → s.TailSlotFree) ∧ s.fetched <+: s.entries lbadsExponent ∧
      (s.CanFetch ↔ s.fetched.length < s.written.length) ∧
      ∀ command, command ∈ s.tasks.inFlight ∨ command ∈ s.tasks.completed →
        ∃ p, s.written[command.number]? = some p ∧ p.commandId = command.commandId := by
  have hi := h.inv
  refine ⟨?_, ?_, hi.canFetch_iff, hi.ids⟩
  · intro hw
    obtain ⟨write, hw⟩ := Option.ne_none_iff_exists'.mp hw
    apply hi.tailSlotFree
    rw [(hi.writing write.1 write.2 hw).at_pc]
    rfl
  · rw [hi.fetched]
    exact List.take_prefix _ _

/-- A command that is written and fetched. -/
theorem submission_queue_not_overrun_one_command :
    ∃ s : NvmeSubmissions, s.fetched.length = 1 ∧ s.written = [⟨2, 0, 0x1000, 8⟩] ∧
      s.fetched <+: s.entries 9 := by
  have h₁ : NvmeSubmissionsReachable 9 (fun _ => (⟨0, 0, 0, 0⟩ : PageCommand).entry 9) _ :=
    .single (.task (fun _ => nofun) (.call ⟨rfl, rfl⟩ rfl) rfl)
  have h₂ := h₁.tail (.task (fun _ => nofun) (.room ⟨rfl, rfl⟩ rfl (by decide +kernel)) rfl)
  have h₃ := h₂.tail (.task (fun _ => nofun) (@NvmeTaskStep.find _ 0 ⟨rfl, rfl⟩ rfl rfl) rfl)
  have h₄ := h₃.tail (.task (fun _ => nofun) (@NvmeTaskStep.take _ 0 ⟨rfl, rfl⟩ rfl) rfl)
  have h₅ := h₄.tail (@NvmeSubmissionStep.start _ _ ⟨2, 0, 0x1000, 8⟩ ⟨rfl, rfl⟩ rfl (.inr rfl) rfl)
  obtain ⟨slots, h₆⟩ := NvmeSubmissionsReachable.storeAll h₅ ⟨rfl, rfl⟩ rfl
  have h₇ := h₆.tail (.submit ⟨rfl, rfl⟩ rfl)
  have hahead : (0 : Nat) % nvmeQueueSize ≠ (BitVec.ofNat 32 ((0 + 1) % nvmeQueueSize)).toNat := by
    decide
  have h₈ := h₇.tail (.fetch hahead)
  exact ⟨_, rfl, rfl, (submission_queue_not_overrun h₈).2.1⟩

end Persistos
