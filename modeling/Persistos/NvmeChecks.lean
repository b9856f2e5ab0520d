import Persistos.NvmeCommands

/-! The status that a call of `nvme_readpage` or `nvme_writepage` checks. The call notes
the head of the completion queue before it submits its command, and looks there when the
command is completed. -/

namespace Persistos

open Theory

/-- The local variable `iocq_head` of a call, with the number of its command once that is
submitted. The check is due after `free_command`. -/
inductive StatusCheck where
  | none
  | noted (iocqHead : U8)
  | submitted (iocqHead : U8) (number : Nat)
  | due (iocqHead : U8) (number : Nat)
  deriving DecidableEq, Repr

def StatusCheck.isDue : StatusCheck → Bool
  | .due _ _ => true
  | _ => false

/-- The places at which a call notes the head or releases its id. -/
def CommandPc.movesCheck : CommandPc → Bool
  | .submit _ => true
  | .release _ => true
  | _ => false

structure NvmeCalls where
  tasks : NvmeTasks
  check : Nat → StatusCheck

namespace NvmeCalls

def init : NvmeCalls := ⟨NvmeTasks.init, fun _ => .none⟩

def setCheck (s : NvmeCalls) (check : StatusCheck) : NvmeCalls :=
  { s with check := Function.update s.check s.tasks.current check }

/-- `((struct nvme_cq_entry*)(dev->iocq))[iocq_head]` -/
def checkedEntry (s : NvmeCalls) (iocqHead : U8) : NvmeCqEntry :=
  (s.tasks.run.dev.queue .io).cq iocqHead.toNat

/-- The number of completions that the controller has posted. -/
def posted (s : NvmeCalls) : Nat := (s.tasks.run.posted .io).length

/-- The current task is between two of its steps that concern its check. -/
def Between (s : NvmeCalls) : Prop :=
  (s.check s.tasks.current).isDue = false ∧ (s.tasks.pc s.tasks.current).movesCheck = false

instance (s : NvmeCalls) : Decidable s.Between := inferInstanceAs (Decidable (_ ∧ _))

end NvmeCalls

/-- A call notes the head in a state with `Notes`, and the controller posts in one with
`Posts`. -/
inductive NvmeCallStep (Notes Posts : NvmeCalls → Prop) : NvmeCalls → NvmeCalls → Prop
  | note {s : NvmeCalls} {commandId : U16} (notes : Notes s) (runs : s.tasks.CanRun)
      (at_pc : s.tasks.pc s.tasks.current = .submit commandId)
      (fresh : s.check s.tasks.current = .none) :
      NvmeCallStep Notes Posts s (s.setCheck (.noted (s.tasks.run.dev.queue .io).cqHead))
  | submit {s : NvmeCalls} {opcode : U32} {commandId : U16} {iocqHead : U8} (runs : s.tasks.CanRun)
      (at_pc : s.tasks.pc s.tasks.current = .submit commandId)
      (noted : s.check s.tasks.current = .noted iocqHead)
      (read_or_write : opcode = 1 ∨ opcode = 2) :
      NvmeCallStep Notes Posts s { s.setCheck (.submitted iocqHead s.tasks.submitted) with
        tasks := (s.tasks.submitCommand opcode commandId).goto
          (.await s.tasks.submitted commandId) }
  | release {s : NvmeCalls} {commandId : U16} {iocqHead : U8} {number : Nat}
      (runs : s.tasks.CanRun) (at_pc : s.tasks.pc s.tasks.current = .release commandId)
      (submitted : s.check s.tasks.current = .submitted iocqHead number) :
      NvmeCallStep Notes Posts s { s.setCheck (.due iocqHead number) with
        tasks := (s.tasks.setStatus commandId nvmeCommandFree).goto .idle }
  | inspect {s : NvmeCalls} {iocqHead : U8} {number : Nat} (runs : s.tasks.CanRun)
      (due : s.check s.tasks.current = .due iocqHead number) :
      NvmeCallStep Notes Posts s (s.setCheck .none)
  | task {s : NvmeCalls} {tasks : NvmeTasks} (between : s.Between)
      (step : NvmeTaskStep s.tasks tasks) (no_completion : tasks.completed = s.tasks.completed) :
      NvmeCallStep Notes Posts s { s with tasks }
  | interrupt {s : NvmeCalls} {run : NvmeRun} (step : NvmeStep s.tasks.run run)
      (no_post : run.posted = s.tasks.run.posted) :
      NvmeCallStep Notes Posts s { s with tasks := { s.tasks with run } }
  | complete {s : NvmeCalls} {command : NvmeCommand} {entry : NvmeCqEntry} (posts : Posts s)
      (mem : command ∈ s.tasks.inFlight) (same : entry.commandIdentifier = command.commandId)
      (step : NvmeStep s.tasks.run (s.tasks.run.post .io entry)) :
      NvmeCallStep Notes Posts s { s with tasks := s.tasks.complete command entry }

abbrev NvmeCallRun (Notes Posts : NvmeCalls → Prop) : NvmeCalls → Prop :=
  Relation.ReflTransGen (NvmeCallStep Notes Posts) NvmeCalls.init

namespace NvmeCalls

/-- The entry that a task checks is the one that was posted for its command. -/
def ChecksOwn (s : NvmeCalls) : Prop :=
  ∀ t iocqHead number, s.tasks.killed t = false → s.check t = .due iocqHead number →
    ∃ (k : Nat) (command : NvmeCommand), s.tasks.completed[k]? = some command ∧
      command.task = t ∧ command.number = number ∧
      (s.tasks.run.posted .io)[k]? = some (s.checkedEntry iocqHead)

/-- The task has still to check the entry at `iocqHead` for its command. -/
def HasToCheck (s : NvmeCalls) (t number : Nat) (iocqHead : U8) : Prop :=
  s.tasks.killed t = false ∧
    (s.check t = .submitted iocqHead number ∨ s.check t = .due iocqHead number)

/-- The driver has seen the completion of every command. -/
def AllSeen (s : NvmeCalls) : Prop := s.tasks.outstanding = []

/-- The next slot of the completion queue is none that a completed command has still to
be checked in. -/
def NextUnchecked (s : NvmeCalls) : Prop :=
  ∀ t number iocqHead, s.HasToCheck t number iocqHead →
    (∃ command ∈ s.tasks.completed, command.task = t ∧ command.number = number) →
    s.posted % nvmeQueueSize ≠ iocqHead.toNat

/-- What a task that has to check an entry may rely on: its command is the only one in
flight and will be completed there, or it was completed there last. -/
def Predicted (s : NvmeCalls) (t number : Nat) (iocqHead : U8) : Prop :=
  (∃ command ∈ s.tasks.inFlight, command.task = t ∧ command.number = number ∧
    iocqHead.toNat = s.posted % nvmeQueueSize) ∨
  ∃ (k : Nat) (command : NvmeCommand), s.tasks.completed[k]? = some command ∧
    command.task = t ∧ command.number = number ∧ iocqHead.toNat = k % nvmeQueueSize ∧
    s.posted ≤ k + nvmeQueueSize

structure Inv (s : NvmeCalls) : Prop where
  tasks : s.tasks.Inv
  single : s.tasks.inFlight.length ≤ 1
  noted : ∀ t iocqHead, s.check t = .noted iocqHead → t = s.tasks.current ∧
    (∃ commandId, s.tasks.pc t = .submit commandId) ∧ s.tasks.outstanding = [] ∧
    iocqHead.toNat = s.posted % nvmeQueueSize
  due : ∀ t iocqHead number, s.check t = .due iocqHead number →
    t = s.tasks.current ∧ s.tasks.pc t = .idle
  predicted : ∀ t number iocqHead, s.HasToCheck t number iocqHead → s.Predicted t number iocqHead

variable {s : NvmeCalls}

theorem setCheck_current (s : NvmeCalls) (check : StatusCheck) :
    (s.setCheck check).check s.tasks.current = check := Function.update_self _ _ _

theorem setCheck_ne (s : NvmeCalls) (check : StatusCheck) {t : Nat} (h : t ≠ s.tasks.current) :
    (s.setCheck check).check t = s.check t := Function.update_of_ne h _ _

theorem inFlight_eq_nil (h : s.tasks.outstanding = []) : s.tasks.inFlight = [] :=
  (List.append_eq_nil_iff.mp h).1

/-- Commands and completions are counted alike. -/
theorem Inv.completed_length (h : s.Inv) : s.tasks.completed.length = s.posted := by
  have hlen := congrArg List.length h.tasks.ids
  rwa [List.length_map, List.length_map] at hlen

theorem Inv.head_eq (h : s.Inv) (hseen : s.AllSeen) :
    (s.tasks.run.dev.queue .io).cqHead.toNat = s.posted % nvmeQueueSize := by
  have hq := h.tasks.queues .io
  have hdrop := (List.append_eq_nil_iff.mp hseen).2
  have hle := List.drop_eq_nil_iff.mp hdrop
  rw [h.completed_length] at hle
  have hbehind := hq.behind
  have heq : (s.tasks.run.dev.finished .io).length = s.posted := Nat.le_antisymm hbehind hle
  rw [hq.reads.head, heq]

/-- Steps that leave the commands and the completions as they are. -/
theorem Predicted.congr {s' : NvmeCalls} {t number : Nat} {iocqHead : U8}
    (h : s.Predicted t number iocqHead) (hflight : s'.tasks.inFlight = s.tasks.inFlight)
    (hcompleted : s'.tasks.completed = s.tasks.completed) (hposted : s'.posted = s.posted) :
    s'.Predicted t number iocqHead := by
  rw [Predicted, hflight, hcompleted, hposted]
  exact h

/-- The steps of a task between two that concern its check. -/
theorem Between.frame (h : s.Between) {tasks : NvmeTasks} (hstep : NvmeTaskStep s.tasks tasks)
    (hsame : tasks.completed = s.tasks.completed) :
    tasks.inFlight = s.tasks.inFlight ∧ (tasks.run.posted .io) = (s.tasks.run.posted .io) ∧
      ∀ t, tasks.killed t = false → s.tasks.killed t = false := by
  cases hstep with
  | call => exact ⟨rfl, rfl, fun _ hk => hk⟩
  | room => exact ⟨rfl, rfl, fun _ hk => hk⟩
  | skip => exact ⟨rfl, rfl, fun _ hk => hk⟩
  | find => exact ⟨rfl, rfl, fun _ hk => hk⟩
  | take => exact ⟨rfl, rfl, fun _ hk => hk⟩
  | submit runs at_pc =>
    have hmoves := h.2.symm.trans (congrArg CommandPc.movesCheck at_pc)
    exact absurd hmoves (by simp [CommandPc.movesCheck])
  | pass => exact ⟨rfl, rfl, fun _ hk => hk⟩
  | release runs at_pc =>
    have hmoves := h.2.symm.trans (congrArg CommandPc.movesCheck at_pc)
    exact absurd hmoves (by simp [CommandPc.movesCheck])
  | yield => exact ⟨rfl, rfl, fun _ hk => hk⟩
  | @kill u =>
    refine ⟨rfl, rfl, fun t hk => ?_⟩
    by_cases ht : t = u
    · subst ht
      exact absurd (hk : Function.update s.tasks.killed t true t = false) (by simp)
    · exact (Function.update_of_ne ht true s.tasks.killed).symm.trans hk
  | interrupt step no_post => exact ⟨rfl, congrFun no_post .io, fun _ hk => hk⟩
  | complete =>
    have hlen := congrArg List.length hsame
    simp [NvmeTasks.complete] at hlen

theorem outstanding_interrupt (h : s.Inv) {run : NvmeRun} (hstep : NvmeStep s.tasks.run run)
    (hpost : run.posted = s.tasks.run.posted) (hnil : s.tasks.outstanding = []) :
    NvmeTasks.outstanding { s.tasks with run } = [] := by
  cases hstep with
  | @post id entry room phase =>
    have hlen := congrArg (fun posted => (posted id).length) hpost
    simp [NvmeRun.post] at hlen
  | interrupt => exact hnil
  | leave => exact hnil
  | @pass id needed dev within taken =>
    obtain ⟨hflight, hdrop⟩ := List.append_eq_nil_iff.mp hnil
    obtain ⟨entry, -, hfin, -, -, -⟩ := h.tasks.queues.completionPass taken
    have hle := List.drop_eq_nil_iff.mp hdrop
    refine List.append_eq_nil_iff.mpr ⟨hflight, List.drop_eq_nil_iff.mpr ?_⟩
    change s.tasks.completed.length ≤ (dev.finished .io).length
    rw [hfin]
    by_cases hid : NvmeQueue.io = id
    · rw [← hid, Function.update_self, List.length_append]
      omega
    · rwa [Function.update_of_ne hid]

namespace Inv

theorem note (h : s.Inv) (hseen : s.AllSeen) {commandId : U16}
    (hpc : s.tasks.pc s.tasks.current = .submit commandId) :
    (s.setCheck (.noted (s.tasks.run.dev.queue .io).cqHead)).Inv where
  tasks := h.tasks
  single := h.single
  noted t iocqHead ht := by
    have htc : t = s.tasks.current := by
      by_contra hne
      rw [setCheck_ne s _ hne] at ht
      exact hne (h.noted t iocqHead ht).1
    subst htc
    rw [setCheck_current] at ht
    cases ht
    exact ⟨rfl, ⟨commandId, hpc⟩, hseen, h.head_eq hseen⟩
  due t iocqHead number ht := by
    by_cases hne : t = s.tasks.current
    · subst hne
      rw [setCheck_current] at ht
      cases ht
    · rw [setCheck_ne s _ hne] at ht
      exact h.due t iocqHead number ht
  predicted t number iocqHead ht := by
    by_cases hne : t = s.tasks.current
    · subst hne
      have ht := ht.2
      rw [setCheck_current] at ht
      rcases ht with ht | ht <;> cases ht
    · have ht' : s.HasToCheck t number iocqHead := by
        rw [HasToCheck, setCheck_ne s _ hne] at ht
        exact ht
      exact (h.predicted t number iocqHead ht').congr rfl rfl rfl

theorem submit (h : s.Inv) {opcode : U32} {commandId : U16} {iocqHead : U8}
    (hruns : s.tasks.CanRun) (hpc : s.tasks.pc s.tasks.current = .submit commandId)
    (hnoted : s.check s.tasks.current = .noted iocqHead) (hop : opcode = 1 ∨ opcode = 2) :
    NvmeCalls.Inv { s.setCheck (.submitted iocqHead s.tasks.submitted) with
      tasks := (s.tasks.submitCommand opcode commandId).goto
        (.await s.tasks.submitted commandId) } := by
  obtain ⟨-, -, hnil, hhead⟩ := h.noted _ _ hnoted
  have hflight := inFlight_eq_nil hnil
  have hflight' : ((s.tasks.submitCommand opcode commandId).goto
      (.await s.tasks.submitted commandId)).inFlight =
      [⟨s.tasks.current, s.tasks.submitted, sqCommandId (sqCommand opcode commandId)⟩] := by
    change s.tasks.inFlight ++ [_] = _
    rw [hflight]
    rfl
  constructor
  · exact h.tasks.submit hruns hpc hop
  · rw [hflight']
    exact Nat.le_refl 1
  · intro t head ht
    by_cases hne : t = s.tasks.current
    · subst hne
      cases (setCheck_current s _).symm.trans ht
    · have ht' := (setCheck_ne s _ hne).symm.trans ht
      exact absurd (h.noted t head ht').1 hne
  · intro t head number ht
    by_cases hne : t = s.tasks.current
    · subst hne
      cases (setCheck_current s _).symm.trans ht
    · have ht' := (setCheck_ne s _ hne).symm.trans ht
      exact absurd (h.due t head number ht').1 hne
  · intro t number head ht
    obtain ⟨halive, ht⟩ := ht
    by_cases hne : t = s.tasks.current
    · subst hne
      rcases ht with ht | ht
      · cases (setCheck_current s _).symm.trans ht
        refine .inl ⟨⟨s.tasks.current, s.tasks.submitted, sqCommandId (sqCommand opcode commandId)⟩,
          ?_, rfl, rfl, hhead⟩
        rw [hflight']
        exact List.mem_cons_self
      · cases (setCheck_current s _).symm.trans ht
    · have hcheck := setCheck_ne s (.submitted iocqHead s.tasks.submitted) hne
      have ht' : s.HasToCheck t number head := ⟨halive, ht.imp hcheck.symm.trans hcheck.symm.trans⟩
      rcases h.predicted t number head ht' with ⟨command, hmem, -⟩ | hk
      · rw [hflight] at hmem
        cases hmem
      · exact .inr hk

theorem release (h : s.Inv) {commandId : U16} {iocqHead : U8} {number : Nat}
    (hruns : s.tasks.CanRun) (hpc : s.tasks.pc s.tasks.current = .release commandId)
    (hsubmitted : s.check s.tasks.current = .submitted iocqHead number) :
    NvmeCalls.Inv { s.setCheck (.due iocqHead number) with
      tasks := (s.tasks.setStatus commandId nvmeCommandFree).goto .idle } := by
  constructor
  · exact h.tasks.release hruns hpc
  · exact h.single
  · intro t head ht
    by_cases hne : t = s.tasks.current
    · subst hne
      cases (setCheck_current s _).symm.trans ht
    · have ht' := (setCheck_ne s _ hne).symm.trans ht
      exact absurd (h.noted t head ht').1 hne
  · intro t head n ht
    by_cases hne : t = s.tasks.current
    · subst hne
      exact ⟨rfl, NvmeTasks.goto_pc_current (s.tasks.setStatus commandId nvmeCommandFree) .idle⟩
    · have ht' := (setCheck_ne s _ hne).symm.trans ht
      exact absurd (h.due t head n ht').1 hne
  · intro t n head ht
    obtain ⟨halive, ht⟩ := ht
    refine (h.predicted t n head ⟨halive, ?_⟩).congr rfl rfl rfl
    by_cases hne : t = s.tasks.current
    · subst hne
      rcases ht with ht | ht
      · cases (setCheck_current s _).symm.trans ht
      · cases (setCheck_current s _).symm.trans ht
        exact .inl hsubmitted
    · have hcheck := setCheck_ne s (.due iocqHead number) hne
      exact ht.imp hcheck.symm.trans hcheck.symm.trans

theorem inspect (h : s.Inv) : (s.setCheck .none).Inv where
  tasks := h.tasks
  single := h.single
  noted t head ht := by
    by_cases hne : t = s.tasks.current
    · subst hne
      rw [setCheck_current] at ht
      cases ht
    · rw [setCheck_ne s _ hne] at ht
      exact h.noted t head ht
  due t head n ht := by
    by_cases hne : t = s.tasks.current
    · subst hne
      rw [setCheck_current] at ht
      cases ht
    · rw [setCheck_ne s _ hne] at ht
      exact h.due t head n ht
  predicted t n head ht := by
    by_cases hne : t = s.tasks.current
    · subst hne
      have ht := ht.2
      rw [setCheck_current] at ht
      rcases ht with ht | ht <;> cases ht
    · rw [HasToCheck, setCheck_ne s _ hne] at ht
      exact (h.predicted t n head ht).congr rfl rfl rfl

theorem task (h : s.Inv) (hbetween : s.Between) {tasks : NvmeTasks}
    (hstep : NvmeTaskStep s.tasks tasks) (hsame : tasks.completed = s.tasks.completed) :
    NvmeCalls.Inv { s with tasks } := by
  obtain ⟨hflight, hposted, halive⟩ := hbetween.frame hstep hsame
  constructor
  · exact hstep.inv h.tasks
  · rw [hflight]
    exact h.single
  · intro t head ht
    obtain ⟨rfl, ⟨commandId, hpc⟩, -⟩ := h.noted t head ht
    have hmoves := hbetween.2
    rw [hpc] at hmoves
    cases hmoves
  · intro t head number ht
    obtain ⟨rfl, -⟩ := h.due t head number ht
    have hdue := hbetween.1
    rw [show s.check s.tasks.current = .due head number from ht] at hdue
    cases hdue
  · intro t number head ht
    exact (h.predicted t number head ⟨halive t ht.1, ht.2⟩).congr hflight hsame
      (congrArg List.length hposted)

theorem interrupt (h : s.Inv) {run : NvmeRun} (hstep : NvmeStep s.tasks.run run)
    (hpost : run.posted = s.tasks.run.posted) :
    NvmeCalls.Inv { s with tasks := { s.tasks with run } } where
  tasks := h.tasks.interrupt hstep hpost
  single := h.single
  noted t head ht := by
    obtain ⟨htc, hpc, hnil, hhead⟩ := h.noted t head ht
    have hlen : run.posted .io = s.tasks.run.posted .io := congrFun hpost .io
    refine ⟨htc, hpc, outstanding_interrupt h hstep hpost hnil, ?_⟩
    rw [hhead, posted, posted, hlen]
  due := h.due
  predicted t number head ht :=
    (h.predicted t number head ht).congr rfl rfl (congrArg List.length (congrFun hpost .io))

theorem complete (h : s.Inv) (hnext : s.NextUnchecked) {command : NvmeCommand}
    {entry : NvmeCqEntry} (hmem : command ∈ s.tasks.inFlight)
    (hid : entry.commandIdentifier = command.commandId)
    (hstep : NvmeStep s.tasks.run (s.tasks.run.post .io entry)) :
    NvmeCalls.Inv { s with tasks := s.tasks.complete command entry } := by
  have hone : s.tasks.inFlight = [command] := by
    obtain ⟨l, hl⟩ : ∃ l, s.tasks.inFlight = command :: l := by
      cases hf : s.tasks.inFlight with
      | nil =>
        rw [hf] at hmem
        cases hmem
      | cons first rest =>
        have hsingle := h.single
        rw [hf, List.length_cons] at hsingle
        obtain rfl : rest = [] := List.eq_nil_of_length_eq_zero (by omega)
        rw [hf, List.mem_singleton] at hmem
        exact ⟨[], by rw [hmem]⟩
    have hsingle := h.single
    rw [hl, List.length_cons] at hsingle
    rw [hl, List.eq_nil_of_length_eq_zero (l := l) (by omega)]
  have hposted : NvmeCalls.posted { s with tasks := s.tasks.complete command entry } =
      s.posted + 1 := by
    simp [posted, NvmeTasks.complete, NvmeRun.post]
  constructor
  · exact h.tasks.complete hmem hid hstep
  · change (s.tasks.inFlight.erase command).length ≤ 1
    rw [hone, List.erase_cons_head]
    exact Nat.zero_le 1
  · intro t head ht
    obtain ⟨-, -, hnil, -⟩ := h.noted t head ht
    rw [inFlight_eq_nil hnil] at hmem
    cases hmem
  · exact h.due
  · intro t number head ht
    have hcompleted : (s.tasks.complete command entry).completed =
        s.tasks.completed ++ [command] := rfl
    have hlength := h.completed_length
    right
    rw [hposted, hcompleted]
    rcases h.predicted t number head ht with ⟨c, hc, htask, hnumber, hhead⟩ |
        ⟨k, c, hk, htask, hnumber, hhead, hle⟩
    · rw [hone, List.mem_singleton] at hc
      subst hc
      refine ⟨s.tasks.completed.length, c, ?_, htask, hnumber, by rw [hhead, hlength],
        by simp only [nvmeQueueSize]; omega⟩
      rw [List.getElem?_append_right (Nat.le_refl _), Nat.sub_self]
      rfl
    · have hlt := (List.getElem?_eq_some_iff.mp hk).1
      refine ⟨k, c, ?_, htask, hnumber, hhead, ?_⟩
      · rw [List.getElem?_append_left hlt]
        exact hk
      · have hne := hnext t number head ht ⟨c, List.mem_of_getElem? hk, htask, hnumber⟩
        have hlast : s.posted ≠ k + nvmeQueueSize := by
          intro he
          rw [he, Nat.add_mod_right] at hne
          exact hne hhead.symm
        omega

theorem checksOwn (h : s.Inv) : s.ChecksOwn := by
  intro t head number halive hdue
  obtain ⟨-, hidle⟩ := h.due t head number hdue
  rcases h.predicted t number head ⟨halive, .inr hdue⟩ with ⟨c, hc, rfl, -, -⟩ |
      ⟨k, c, hk, htask, hnumber, hhead, hle⟩
  · have hw := (h.tasks.waiting c (List.mem_append_left _ hc)).2
    rw [hidle] at hw
    cases hw
  · refine ⟨k, c, hk, htask, hnumber, ?_⟩
    have hlt : k < (s.tasks.run.posted .io).length := by
      have hk' := (List.getElem?_eq_some_iff.mp hk).1
      rwa [h.completed_length] at hk'
    have hget := List.getElem?_eq_getElem hlt
    rw [checkedEntry, hhead, (h.tasks.queues .io).ring.item k _ hget hle]
    exact hget

end Inv

end NvmeCalls

theorem NvmeCallStep.inv {s s' : NvmeCalls}
    (h : NvmeCallStep NvmeCalls.AllSeen NvmeCalls.NextUnchecked s s') (hi : s.Inv) : s'.Inv := by
  cases h with
  | note notes runs at_pc fresh => exact hi.note notes at_pc
  | submit runs at_pc noted read_or_write => exact hi.submit runs at_pc noted read_or_write
  | release runs at_pc submitted => exact hi.release runs at_pc submitted
  | inspect runs due => exact hi.inspect
  | task between step no_completion => exact hi.task between step no_completion
  | interrupt step no_post => exact hi.interrupt step no_post
  | complete posts mem same step => exact hi.complete posts mem same step

theorem NvmeCallRun.inv {s : NvmeCalls}
    (h : NvmeCallRun NvmeCalls.AllSeen NvmeCalls.NextUnchecked s) : s.Inv := by
  induction h with
  | refl =>
    constructor
    · exact NvmeTasksReachable.inv .refl
    · exact Nat.zero_le 1
    · intro t head ht
      cases ht
    · intro t head number ht
      cases ht
    · rintro t number head ⟨-, ht | ht⟩ <;> cases ht
  | tail _ hstep ih => exact hstep.inv ih

/-- While a call notes the head only when the driver has seen all completions, and the
controller leaves the entries that are still to be checked, every call checks its own. -/
theorem own_status_checked {s : NvmeCalls}
    (h : NvmeCallRun NvmeCalls.AllSeen NvmeCalls.NextUnchecked s) : s.ChecksOwn := h.inv.checksOwn

theorem NvmeCalls.not_checksOwn {s : NvmeCalls} (halive : s.tasks.killed 1 = false)
    (hdue : s.check 1 = .due 0 1) (hcompleted : s.tasks.completed = [⟨0, 0, 0⟩, ⟨1, 1, 1⟩])
    (hposted : s.tasks.run.posted .io = [⟨2, 0, 1⟩, ⟨2, 1, 0x285⟩])
    (hentry : s.checkedEntry 0 = ⟨2, 0, 1⟩) : ¬s.ChecksOwn := by
  intro hown
  obtain ⟨k, command, hk, htask, -, hp⟩ := hown 1 0 1 halive hdue
  rw [hcompleted] at hk
  rw [hposted, hentry] at hp
  match k with
  | 0 =>
    obtain rfl := Option.some.inj hk
    cases htask
  | 1 => exact absurd hp (by decide)
  | k + 2 => cases hk

/-- Two tasks submit a command each before either is completed. The second one's fails,
and that task checks the status of the first one's. -/
theorem status_of_other_command_checked : ∃ s : NvmeCalls,
    NvmeCallRun (fun _ => True) (fun _ => True) s ∧ ¬s.ChecksOwn := by
  have h₁ : NvmeCallRun (fun _ => True) (fun _ => True) _ :=
    .single (.task ⟨rfl, rfl⟩ (.call ⟨rfl, rfl⟩ rfl) rfl)
  have h₂ := h₁.tail (.task (by decide +kernel) (.room (by decide +kernel) (by decide +kernel)
    (by decide +kernel)) rfl)
  have h₃ := h₂.tail (.task (by decide +kernel) (@NvmeTaskStep.find _ 0 (by decide +kernel)
    (by decide +kernel) (by decide +kernel)) rfl)
  have h₄ := h₃.tail (.task (by decide +kernel) (@NvmeTaskStep.take _ 0 (by decide +kernel)
    (by decide +kernel)) rfl)
  have h₅ := h₄.tail (@NvmeCallStep.note _ _ _ 0 trivial (by decide +kernel) (by decide +kernel)
    (by decide +kernel))
  have h₆ := h₅.tail (@NvmeCallStep.submit _ _ _ 2 0 0 (by decide +kernel) (by decide +kernel)
    (by decide +kernel) (.inr rfl))
  have h₇ := h₆.tail (.task (by decide +kernel) (@NvmeTaskStep.yield _ 1 (by decide +kernel)
    (.inr (.inr (.inr ⟨0, 0, (by decide +kernel), (by decide +kernel)⟩))) (by decide +kernel)) rfl)
  have h₈ := h₇.tail (.task (by decide +kernel) (.call (by decide +kernel) (by decide +kernel)) rfl)
  have h₉ := h₈.tail (.task (by decide +kernel) (.room (by decide +kernel) (by decide +kernel)
    (by decide +kernel)) rfl)
  have h₁₀ := h₉.tail (.task (by decide +kernel) (@NvmeTaskStep.skip _ 0 (by decide +kernel)
    (by decide +kernel) (by decide +kernel)) rfl)
  have h₁₁ := h₁₀.tail (.task (by decide +kernel) (@NvmeTaskStep.find _ 1 (by decide +kernel)
    (by decide +kernel) (by decide +kernel)) rfl)
  have h₁₂ := h₁₁.tail (.task (by decide +kernel) (@NvmeTaskStep.take _ 1 (by decide +kernel)
    (by decide +kernel)) rfl)
  have h₁₃ := h₁₂.tail (@NvmeCallStep.note _ _ _ 1 trivial (by decide +kernel) (by decide +kernel)
    (by decide +kernel))
  have h₁₄ := h₁₃.tail (@NvmeCallStep.submit _ _ _ 2 1 0 (by decide +kernel) (by decide +kernel)
    (by decide +kernel) (.inr rfl))
  have h₁₅ := h₁₄.tail (@NvmeCallStep.complete _ _ _ ⟨0, 0, 0⟩ ⟨2, 0, 1⟩ trivial (by decide +kernel)
    (by decide +kernel)
    (.post (by decide +kernel) (by decide +kernel)))
  have h₁₆ := h₁₅.tail (@NvmeCallStep.complete _ _ _ ⟨1, 1, 1⟩ ⟨2, 1, 0x285⟩ trivial
    (by decide +kernel) (by decide +kernel)
    (.post (by decide +kernel) (by decide +kernel)))
  have h₁₇ := h₁₆.tail (.interrupt (.interrupt (by decide +kernel)) rfl)
  have h₁₈ := h₁₇.tail (.interrupt (@NvmeStep.leave _ .admin false (by decide +kernel) rfl) rfl)
  have h₁₉ := h₁₈.tail (.interrupt (@NvmeStep.pass _ .io false _ (by decide +kernel) rfl) rfl)
  have h₂₀ := h₁₉.tail (.interrupt (@NvmeStep.pass _ .io true _ (by decide +kernel) rfl) rfl)
  have h₂₁ := h₂₀.tail (.interrupt (@NvmeStep.leave _ .io true (by decide +kernel) rfl) rfl)
  have h₂₂ := h₂₁.tail (.task (by decide +kernel) (@NvmeTaskStep.pass _ 1 1 (by decide +kernel)
    (by decide +kernel) (by decide +kernel)) rfl)
  have h₂₃ := h₂₂.tail (@NvmeCallStep.release _ _ _ 1 0 1 (by decide +kernel) (by decide +kernel)
    (by decide +kernel))
  exact ⟨_, h₂₃, NvmeCalls.not_checksOwn (by decide +kernel) (by decide +kernel) (by decide +kernel)
    (by decide +kernel) (by decide +kernel)⟩

/-- One call, up to its check. -/
theorem own_status_checked_one_call : ∃ s : NvmeCalls, s.check 0 = .due 0 0 ∧ s.ChecksOwn := by
  have hnext : ∀ s : NvmeCalls, s.tasks.completed = [] → s.NextUnchecked := by
    rintro s hs t number head - ⟨c, hc, -⟩
    rw [hs] at hc
    cases hc
  have h₁ : NvmeCallRun NvmeCalls.AllSeen NvmeCalls.NextUnchecked _ :=
    .single (.task ⟨rfl, rfl⟩ (.call ⟨rfl, rfl⟩ rfl) rfl)
  have h₂ := h₁.tail (.task (by decide +kernel) (.room (by decide +kernel) (by decide +kernel)
    (by decide +kernel)) rfl)
  have h₃ := h₂.tail (.task (by decide +kernel) (@NvmeTaskStep.find _ 0 (by decide +kernel)
    (by decide +kernel) (by decide +kernel)) rfl)
  have h₄ := h₃.tail (.task (by decide +kernel) (@NvmeTaskStep.take _ 0 (by decide +kernel)
    (by decide +kernel)) rfl)
  have h₅ := h₄.tail (@NvmeCallStep.note _ _ _ 0 rfl (by decide +kernel) (by decide +kernel)
    (by decide +kernel))
  have h₆ := h₅.tail (@NvmeCallStep.submit _ _ _ 2 0 0 (by decide +kernel) (by decide +kernel)
    (by decide +kernel) (.inr rfl))
  have h₇ := h₆.tail (@NvmeCallStep.complete _ _ _ ⟨0, 0, 0⟩ ⟨1, 0, 1⟩ (hnext _ rfl)
    (by decide +kernel) (by decide +kernel)
    (.post (by decide +kernel) (by decide +kernel)))
  have h₈ := h₇.tail (.interrupt (.interrupt (by decide +kernel)) rfl)
  have h₉ := h₈.tail (.interrupt (@NvmeStep.leave _ .admin false (by decide +kernel) rfl) rfl)
  have h₁₀ := h₉.tail (.interrupt (@NvmeStep.pass _ .io false _ (by decide +kernel) rfl) rfl)
  have h₁₁ := h₁₀.tail (.interrupt (@NvmeStep.leave _ .io true (by decide +kernel) rfl) rfl)
  have h₁₂ := h₁₁.tail (.task (by decide +kernel) (@NvmeTaskStep.pass _ 0 0 (by decide +kernel)
    (by decide +kernel) (by decide +kernel)) rfl)
  have h₁₃ := h₁₂.tail (@NvmeCallStep.release _ _ _ 0 0 0 (by decide +kernel) (by decide +kernel)
    (by decide +kernel))
  exact ⟨_, (by decide +kernel), own_status_checked h₁₃⟩

end Persistos
