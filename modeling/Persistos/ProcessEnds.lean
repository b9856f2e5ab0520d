import Persistos.Waitpid

/-! How processes end: one CPU on which the tasks run between their calls of `task_yield`, and the
events that make a process a zombie. -/

namespace Persistos

open Theory

namespace Processes

def Zombie (s : Processes) (x : U64) : Prop := (s.task x).taskState = tsZombie

instance (s : Processes) : DecidablePred s.Zombie := fun _ => inferInstanceAs (Decidable (_ = _))

/-- The task that `task_yield` switches to. -/
def yieldTarget (s : Processes) (t : U64) : Option U64 :=
  (after s.taskStructLh t).find? fun x => (s.task x).taskState = tsRunning

def waitYields (s : Processes) (process : Option U64) : Bool :=
  process.any fun x => ¬s.Zombie x

/-- Whether the kernel calls `task_yield` next. -/
def yields (s : Processes) : Action → Bool
  | .boot => false
  | .fork _ => false
  | .exit _ _ => true
  | .kill _ pid => (s.taskStructFind (pid.setWidth 32)).isSome
  | .waitpid _ pid => s.waitYields (s.waitpidFind pid)
  | .resume t => s.waitYields ((s.waiting t).map Prod.fst)

/-- `cpu_exception_handler` up to its call of `task_yield`. -/
def cpuExceptionHandler (s : Processes) (currentTaskTs interruptNumber : U64) :
    Except Crash Processes :=
  if interruptNumber = 0 then .ok (s.zombify currentTaskTs 1)
  else if interruptNumber = 8 then .error (.panic "Double fault\n")
  else if interruptNumber = 13 then .ok (s.zombify currentTaskTs (128 + 11))
  else if interruptNumber = 14 then .ok (s.zombify currentTaskTs 1)
  else .error (.panic "Unknown CPU exception")

end Processes

/-- Who has the CPU. It is idle where `task_yield` looks for a running task and there is none. -/
inductive CpuUser where
  | kmain
  | task (t : U64)
  | idle

structure Cpu where
  processes : Processes
  user : CpuUser

inductive CpuEvent where
  | boot
  | start
  | call (a : Action)
  | exception (interruptNumber : U64)
  | yield
  | other

namespace Cpu

def yieldFrom (s : Processes) (t : U64) : Cpu :=
  ⟨s, match s.yieldTarget t with
    | none => .idle
    | some u => .task u⟩

/-- What the task that has the CPU may call. Inside WAITPID it only goes on there. -/
def Calls (s : Processes) (t : U64) : Action → Prop
  | .boot => False
  | .fork u => u = t ∧ s.waiting t = none
  | .exit u _ => u = t ∧ s.waiting t = none
  | .kill u _ => u = t ∧ s.waiting t = none
  | .waitpid u _ => u = t ∧ s.waiting t = none
  | .resume u => u = t ∧ s.waiting t ≠ none

instance (s : Processes) (t : U64) : DecidablePred (Calls s t)
  | .boot => inferInstanceAs (Decidable False)
  | .fork u => inferInstanceAs (Decidable (u = t ∧ s.waiting t = none))
  | .exit u _ => inferInstanceAs (Decidable (u = t ∧ s.waiting t = none))
  | .kill u _ => inferInstanceAs (Decidable (u = t ∧ s.waiting t = none))
  | .waitpid u _ => inferInstanceAs (Decidable (u = t ∧ s.waiting t = none))
  | .resume u => inferInstanceAs (Decidable (u = t ∧ s.waiting t ≠ none))

/-- One event: `kmain` makes tasks and starts the first one, the task that has the CPU calls the
kernel, raises an exception or yields, or the kernel uses its pages in some other way. -/
inductive Step (c : Cpu) : CpuEvent → Cpu → Prop
  | boot {s : Processes} {r : Option U64} (user : c.user = .kmain)
      (run : c.processes.boot = .ok (s, r)) : Step c .boot ⟨s, .kmain⟩
  | start {t : U64} (user : c.user = .kmain) (first : c.processes.taskStructLh.head? = some t) :
      Step c .start ⟨c.processes, .task t⟩
  | call {t : U64} {a : Action} {s : Processes} {r : Option U64} (user : c.user = .task t)
      (calls : Calls c.processes t a) (run : c.processes.act a = .ok (s, r)) :
      Step c (.call a) (if c.processes.yields a then yieldFrom s t else ⟨s, .task t⟩)
  | exception {t interruptNumber : U64} {s : Processes} (user : c.user = .task t)
      (run : c.processes.cpuExceptionHandler t interruptNumber = .ok s) :
      Step c (.exception interruptNumber) (yieldFrom s t)
  | yield {t : U64} (user : c.user = .task t) : Step c .yield (yieldFrom c.processes t)
  | other {kernel : KmemRun} (step : KmemStep c.processes.kernel kernel)
      (blocks : c.processes.blocks.Subperm kernel.live) :
      Step c .other ⟨{ c.processes with kernel }, c.user⟩

/-- The processes that become zombies from one state to the next, with their exit codes. -/
def ends (s s' : Processes) : List (Nat × U8) :=
  (s.taskStructLh.filter fun x => ¬s.Zombie x ∧ s'.Zombie x).map
    fun x => (s.serial x, (s'.task x).exitCode)

/-- A run with all the ends of processes in it. -/
inductive Run (may : Cpu → CpuEvent → Prop) (c₀ : Cpu) : List (Nat × U8) → Cpu → Prop
  | refl : Run may c₀ [] c₀
  | step {ended : List (Nat × U8)} {c c' : Cpu} {e : CpuEvent} (run : Run may c₀ ended c)
      (allowed : may c e) (step : Step c e c') :
      Run may c₀ (ended ++ ends c.processes c'.processes) c'

def decidableOfSome {α : Type} {o : Option α} (p : α → Prop) [DecidablePred p] :
    Decidable (∀ a, o = some a → p a) :=
  match o with
  | none => .isTrue nofun
  | some a => decidable_of_iff (p a)
    ⟨fun h b hb => by rwa [← Option.some.inj hb], fun h => h a rfl⟩

/-- A process is freed by the only task that waits for it. -/
def Careful (c : Cpu) : CpuEvent → Prop
  | .call a => c.processes.Careful a
  | _ => True

instance (c : Cpu) (e : CpuEvent) : Decidable (c.Careful e) :=
  match e with
  | .call a =>
    let _ : DecidablePred fun r : U64 × U64 => c.processes.SoleWaiter r.1 r.2 := fun r =>
      List.decidableBAll (fun u => u ≠ r.1 → (c.processes.task u).taskState = tsRunning →
        (c.processes.waiting u).map Prod.fst ≠ some r.2) c.processes.taskStructLh
    decidableOfSome (o := c.processes.reaper a) fun r : U64 × U64 =>
      c.processes.SoleWaiter r.1 r.2
  | .boot => .isTrue trivial
  | .start => .isTrue trivial
  | .exception _ => .isTrue trivial
  | .yield => .isTrue trivial
  | .other => .isTrue trivial

/-- The process that a KILL finds. -/
def killed (c : Cpu) : CpuEvent → Option U64
  | .call (.kill _ pid) => c.processes.taskStructFind (pid.setWidth 32)
  | _ => none

/-- A KILL does not find a zombie, or only one with the code of a KILL. -/
def SparesZombies (c : Cpu) (e : CpuEvent) : Prop :=
  ∀ x, c.killed e = some x → c.processes.Zombie x → (c.processes.task x).exitCode = -1

instance (c : Cpu) (e : CpuEvent) : Decidable (c.SparesZombies e) :=
  decidableOfSome fun x => c.processes.Zombie x → (c.processes.task x).exitCode = -1

/-- Every process ends once, with the code that WAITPID reports, and does not come back. -/
structure EndsOnce (ended : List (Nat × U8)) (c : Cpu) : Prop where
  once : (ended.map Prod.fst).Nodup
  status : ∀ r ∈ c.processes.reaps, (r.task, r.status) ∈ ended
  exitCode : ∀ x ∈ c.processes.taskStructLh, c.processes.Zombie x →
    (c.processes.serial x, (c.processes.task x).exitCode) ∈ ended
  stays : ∀ x ∈ c.processes.taskStructLh, c.processes.serial x ∈ ended.map Prod.fst →
    c.processes.Zombie x
  user : ∀ t, c.user = .task t → c.processes.Running t

end Cpu

namespace Processes

variable {s s' : Processes} {x y t : U64} {killed : Option U64} {yields : Bool}

/-- All that an event can do to the processes, if it kills this process and yields or not. -/
inductive Effect (killed : Option U64) (yields : Bool) (s s' : Processes) : Prop
  | quiet (tasks : s'.tasks.objects = s.tasks.objects) (list : s'.taskStructLh = s.taskStructLh)
      (serial : s'.serial = s.serial) (forks : s'.forks = s.forks) (reaps : s'.reaps = s.reaps)
  | spawned {x : U64} (fresh : x ∉ s.taskStructLh) (list : s'.taskStructLh = s.taskStructLh ++ [x])
      (old : ∀ y ∈ s.taskStructLh, s'.task y = s.task y ∧ s'.serial y = s.serial y)
      (serial : s'.serial x = s.forks) (running : (s'.task x).taskState = tsRunning)
      (forks : s'.forks = s.forks + 1) (reaps : s'.reaps = s.reaps)
  | zombified {x : U64} {exitCode : U8} (mem : x ∈ s.taskStructLh)
      (state : s' = s.zombify x exitCode)
      (cause : (s.task x).taskState = tsRunning ∨ killed = some x ∧ exitCode = -1)
      (yield : yields = true)
  | reaped {x : U64} {r : Reap} (mem : x ∈ s.taskStructLh) (zombie : s.Zombie x)
      (tasks : s'.tasks.objects = s.tasks.objects) (list : s'.taskStructLh = s.taskStructLh.erase x)
      (serial : s'.serial = s.serial) (forks : s'.forks = s.forks)
      (reaps : s'.reaps = r :: s.reaps) (task : r.task = s.serial x)
      (status : r.status = (s.task x).exitCode)

theorem spawn_effect {setup : TaskStruct → TaskStruct} {r : Option U64} (h : ProcessInv s)
    (hsetup : ∀ task, (setup task).taskState = tsRunning) (hs : s.spawn setup = .ok (s', r)) :
    Effect killed yields s s' := by
  obtain ⟨⟨x, s₁⟩, ha, hs⟩ := bind_eq_ok hs
  obtain ⟨⟨stack, k₂⟩, -, hs⟩ := bind_eq_ok hs
  obtain ⟨⟨pml4, k₃⟩, -, hs⟩ := bind_eq_ok hs
  cases hs
  obtain ⟨k₁, tasks, rfl, hfresh, -, htask⟩ := taskStructAlloc_spec h.holds ha
  have hkeep : ∀ y ∈ s.taskStructLh, ∀ f, (tasks.modify x f).objects y = s.task y := by
    intro y hy f
    exact (tasks.modify_objects_ne (ne_of_mem_of_not_mem hy hfresh) f).trans (htask y hy)
  refine .spawned hfresh rfl (fun y hy => ⟨?_, ?_⟩) (Function.update_self _ _ _) ?_ rfl rfl
  · rw [task, hkeep y hy]
  · exact Function.update_of_ne (ne_of_mem_of_not_mem hy hfresh) _ _
  · simp only [task, Slab.modify_objects_self, hsetup]

theorem reap_effect {pid : U64} {r : Option U64} (hx : x ∈ s.taskStructLh) (hz : s.Zombie x)
    (hr : s.reap t x pid = .ok (s', r)) : Effect killed yields s s' := by
  obtain ⟨tasks, hfree, hr⟩ := bind_eq_ok hr
  cases hr
  have hobjects := (Slab.free_again hfree).1
  exact .reaped hx hz hobjects rfl rfl rfl rfl rfl (congrArg TaskStruct.exitCode (congrFun hobjects x))

theorem awaitZombie_effect {pid : U64} {r : Option U64} (hx : x ∈ s.taskStructLh)
    (hr : s.awaitZombie t x pid = .ok (s', r)) : Effect killed yields s s' := by
  rw [awaitZombie] at hr
  split at hr
  · cases hr
    exact .quiet rfl rfl rfl rfl rfl
  · next hz => exact reap_effect hx (not_not.mp hz) hr

theorem act_effect {user : CpuUser} {a : Action} {r : Option U64} (h : ProcessInv s)
    (he : s.Enabled a) (ha : s.act a = .ok (s', r)) :
    Effect (Cpu.killed ⟨s, user⟩ (.call a)) (s.yields a) s s' := by
  cases a with
  | boot => exact spawn_effect h (fun _ => rfl) ha
  | fork t =>
    have hstate : ∀ task : TaskStruct,
        { task with taskState := (s.task t).taskState }.taskState = tsRunning := fun _ => he.1.2
    exact spawn_effect h hstate ha
  | exit t code =>
    cases ha
    exact .zombified he.1.1 rfl (.inl he.1.2) rfl
  | kill t pid =>
    simp only [act, sysKill, Except.ok.injEq] at ha
    split at ha
    · cases ha
      exact .quiet rfl rfl rfl rfl rfl
    · next x hx =>
      cases ha
      refine .zombified (List.mem_of_find?_eq_some hx) rfl (.inr ⟨hx, rfl⟩) ?_
      rw [Processes.yields, hx]
      rfl
  | waitpid t pid =>
    simp only [act, sysWaitpid] at ha
    split at ha
    · cases ha
      exact .quiet rfl rfl rfl rfl rfl
    · next x hx => exact awaitZombie_effect (waitpidFind_some hx).1 ha
  | resume t =>
    simp only [act, resume] at ha
    split at ha
    · cases ha
      exact .quiet rfl rfl rfl rfl rfl
    · next x pid hw => exact awaitZombie_effect (h.waits t he.1 x pid hw).1 ha

theorem exception_effect {interruptNumber : U64} (h : ProcessInv s) (ht : s.Running t)
    (hs : s.cpuExceptionHandler t interruptNumber = .ok s') :
    ProcessInv s' ∧ Effect none true s s' := by
  have hall : ∀ exitCode, ProcessInv (s.zombify t exitCode) ∧
      Effect none true s (s.zombify t exitCode) := fun exitCode =>
    ⟨h.zombify ht.1 exitCode, .zombified ht.1 rfl (.inl ht.2) rfl⟩
  rw [cpuExceptionHandler] at hs
  split at hs
  · cases hs
    exact hall 1
  · split at hs
    · cases hs
    · split at hs
      · cases hs
        exact hall (128 + 11)
      · split at hs
        · cases hs
          exact hall 1
        · cases hs

theorem zombify_task_self (s : Processes) (x : U64) (exitCode : U8) :
    (s.zombify x exitCode).task x = { s.task x with taskState := tsZombie, exitCode } := by
  simp only [zombify, task, Slab.modify_objects_self]

theorem zombify_task_ne (s : Processes) {x y : U64} (h : y ≠ x) (exitCode : U8) :
    (s.zombify x exitCode).task y = s.task y := by
  simp only [zombify, task, Slab.modify_objects_ne _ h]

theorem Running.not_zombie (h : s.Running x) : ¬s.Zombie x := fun hz =>
  absurd (h.2.symm.trans hz) (by decide)

theorem Effect.zombie (h : Effect killed yields s s') (hy : y ∈ s.taskStructLh) (hz : s.Zombie y) :
    s'.Zombie y := by
  cases h with
  | quiet tasks => rwa [Zombie, task, tasks]
  | spawned fresh list old => rwa [Zombie, (old y hy).1]
  | @zombified x exitCode mem state =>
    subst state
    by_cases hyx : y = x
    · rw [hyx, Zombie, zombify_task_self]
    · rwa [Zombie, zombify_task_ne s hyx]
  | reaped mem zombie tasks => rwa [Zombie, task, tasks]

/-- No task that has ended gets another exit code, unless it is killed. -/
theorem Effect.exitCode (h : Effect killed yields s s') (hy : y ∈ s.taskStructLh)
    (hz : s.Zombie y)
    (hspares : ∀ x, killed = some x → s.Zombie x → (s.task x).exitCode = -1) :
    (s'.task y).exitCode = (s.task y).exitCode := by
  cases h with
  | quiet tasks => rw [task, tasks, task]
  | spawned fresh list old => rw [(old y hy).1]
  | @zombified x exitCode mem state cause =>
    subst state
    by_cases hyx : y = x
    · subst hyx
      rcases cause with hrunning | ⟨hkilled, rfl⟩
      · exact absurd hz (Running.not_zombie ⟨mem, hrunning⟩)
      · rw [zombify_task_self]
        exact (hspares y hkilled hz).symm
    · rw [zombify_task_ne s hyx]
  | reaped mem zombie tasks => rw [task, tasks, task]

/-- A task is an old one, or new and running. -/
theorem Effect.mem (h : Effect killed yields s s') (hy : y ∈ s'.taskStructLh) :
    (y ∈ s.taskStructLh ∧ s'.serial y = s.serial y) ∨
      (s'.serial y = s.forks ∧ s'.Running y) := by
  cases h with
  | quiet tasks list serial => exact .inl ⟨list ▸ hy, congrFun serial y⟩
  | @spawned x fresh list old serial running =>
    rcases List.mem_append.mp (list ▸ hy) with hold | hnew
    · exact .inl ⟨hold, (old y hold).2⟩
    · obtain rfl := List.mem_singleton.mp hnew
      exact .inr ⟨serial, hy, running⟩
  | zombified mem state =>
    subst state
    exact .inl ⟨hy, rfl⟩
  | reaped mem zombie tasks list serial =>
    exact .inl ⟨List.mem_of_mem_erase (list ▸ hy), congrFun serial y⟩

theorem Effect.reaps (h : Effect killed yields s s') {r : Reap} (hr : r ∈ s'.reaps) :
    r ∈ s.reaps ∨ ∃ x ∈ s.taskStructLh, s.Zombie x ∧ r.task = s.serial x ∧
      r.status = (s.task x).exitCode := by
  cases h with
  | quiet tasks list serial forks reaps => exact .inl (reaps ▸ hr)
  | spawned fresh list old serial running forks reaps => exact .inl (reaps ▸ hr)
  | zombified mem state =>
    subst state
    exact .inl hr
  | reaped mem zombie tasks list serial forks reaps task status =>
    rcases List.mem_cons.mp (reaps ▸ hr) with rfl | hr
    · exact .inr ⟨_, mem, zombie, task, status⟩
    · exact .inl hr

theorem Effect.forks_le (h : Effect killed yields s s') : s.forks ≤ s'.forks := by
  cases h with
  | quiet tasks list serial forks => exact forks.ge
  | spawned fresh list old serial running forks => exact forks ▸ Nat.le_succ _
  | zombified mem state => exact state ▸ Nat.le_refl _
  | reaped mem zombie tasks list serial forks => exact forks.ge

/-- A task that does not yield goes on. -/
theorem Effect.running (h : Effect killed false s s') (ht : s.Running t) : s'.Running t := by
  cases h with
  | quiet tasks list => exact ⟨list ▸ ht.1, by rw [task, tasks]; exact ht.2⟩
  | spawned fresh list old =>
    exact ⟨list ▸ List.mem_append_left _ ht.1, (old t ht.1).1 ▸ ht.2⟩
  | zombified mem state cause yield => cases yield
  | @reaped x r mem zombie tasks list =>
    have hne : t ≠ x := fun htx => ht.not_zombie (htx ▸ zombie)
    exact ⟨list ▸ (List.mem_erase_of_ne hne).mpr ht.1, by rw [task, tasks]; exact ht.2⟩

end Processes

namespace Cpu

open Processes

variable {s s' : Processes} {c c' : Cpu} {e : CpuEvent} {ended : List (Nat × U8)} {t : U64}
  {killed : Option U64} {yields : Bool}

theorem mem_ends {p : Nat × U8} : p ∈ ends s s' ↔ ∃ x ∈ s.taskStructLh, ¬s.Zombie x ∧
    s'.Zombie x ∧ (s.serial x, (s'.task x).exitCode) = p := by
  rw [ends, List.mem_map]
  refine exists_congr fun x => ?_
  rw [List.mem_filter, decide_eq_true_iff, and_assoc, and_assoc]

theorem ends_nodup (h : ProcessInv s) : ((ends s s').map Prod.fst).Nodup := by
  rw [ends, List.map_map]
  exact (List.nodup_append.mp h.serials).1.sublist (List.filter_sublist.map s.serial)

/-- The history of the ends fits the tasks. -/
structure EndInv (ended : List (Nat × U8)) (c : Cpu) : Prop extends EndsOnce ended c where
  inv : ProcessInv c.processes
  born : ∀ n ∈ ended.map Prod.fst, n < c.processes.forks
  booting : c.user = .kmain → ∀ x ∈ c.processes.taskStructLh, c.processes.Running x

theorem EndInv.effect (h : EndInv ended c) (he : Effect killed yields c.processes s')
    (hinv : ProcessInv s')
    (hspares : ∀ x, killed = some x → c.processes.Zombie x → (c.processes.task x).exitCode = -1)
    {user : CpuUser} (huser : ∀ t, user = .task t → s'.Running t)
    (hbooting : user = .kmain → ∀ x ∈ s'.taskStructLh, s'.Running x) :
    EndInv (ended ++ ends c.processes s') ⟨s', user⟩ := by
  have hborn : ∀ n ∈ (ended ++ ends c.processes s').map Prod.fst, n < c.processes.forks := by
    intro n hn
    rw [List.map_append] at hn
    rcases List.mem_append.mp hn with hn | hn
    · exact h.born n hn
    · obtain ⟨p, hp, rfl⟩ := List.mem_map.mp hn
      obtain ⟨x, hx, -, -, rfl⟩ := mem_ends.mp hp
      exact h.inv.born _ (List.mem_append_left _ (List.mem_map_of_mem hx))
  refine ⟨⟨?_, fun r hr => ?_, fun y hy hz => ?_, fun y hy hn => ?_, huser⟩, hinv,
    fun n hn => Nat.lt_of_lt_of_le (hborn n hn) he.forks_le, hbooting⟩
  · rw [List.map_append, List.nodup_append]
    refine ⟨h.once, ends_nodup h.inv, fun n hn n' hn' heq => ?_⟩
    obtain ⟨p, hp, rfl⟩ := List.mem_map.mp hn'
    obtain ⟨x, hx, hz, -, rfl⟩ := mem_ends.mp hp
    rw [heq] at hn
    exact hz (h.stays x hx hn)
  · rcases he.reaps hr with hold | ⟨x, hx, hz, htask, hstatus⟩
    · exact List.mem_append_left _ (h.status r hold)
    · rw [htask, hstatus]
      exact List.mem_append_left _ (h.exitCode x hx hz)
  · rcases he.mem hy with ⟨hold, hserial⟩ | ⟨-, hrunning⟩
    · change (s'.serial y, (s'.task y).exitCode) ∈ _
      rw [hserial]
      by_cases hbefore : c.processes.Zombie y
      · rw [he.exitCode hold hbefore hspares]
        exact List.mem_append_left _ (h.exitCode y hold hbefore)
      · exact List.mem_append_right _ (mem_ends.mpr ⟨y, hold, hbefore, hz, rfl⟩)
    · exact absurd hz hrunning.not_zombie
  · rcases he.mem hy with ⟨hold, hserial⟩ | ⟨hserial, -⟩
    · change s'.serial y ∈ _ at hn
      rw [hserial, List.map_append] at hn
      rcases List.mem_append.mp hn with hn | hn
      · exact he.zombie hold (h.stays y hold hn)
      · obtain ⟨p, hp, hpn⟩ := List.mem_map.mp hn
        obtain ⟨x, hx, -, hz, rfl⟩ := mem_ends.mp hp
        exact h.inv.serial_inj hx hold hpn ▸ hz
    · change s'.serial y ∈ _ at hn
      rw [hserial] at hn
      exact absurd (hborn _ hn) (Nat.lt_irrefl _)

theorem yieldFrom_running (s : Processes) (t : U64) {u : U64}
    (hu : (yieldFrom s t).user = .task u) : s.Running u := by
  cases htarget : s.yieldTarget t with
  | none =>
    rw [yieldFrom, htarget] at hu
    cases hu
  | some v =>
    rw [yieldFrom, htarget] at hu
    cases hu
    have hstate := List.find?_some htarget
    exact ⟨(after_perm _ _).subset (List.mem_of_find?_eq_some htarget), of_decide_eq_true hstate⟩

theorem yieldFrom_not_kmain (s : Processes) (t : U64) : (yieldFrom s t).user ≠ .kmain := by
  rw [yieldFrom]
  split <;> nofun

theorem EndInv.yieldFrom (h : EndInv ended c) (he : Effect killed yields c.processes s')
    (hinv : ProcessInv s')
    (hspares : ∀ x, killed = some x → c.processes.Zombie x → (c.processes.task x).exitCode = -1)
    (t : U64) : EndInv (ended ++ ends c.processes s') (yieldFrom s' t) :=
  h.effect he hinv hspares (fun _ hu => yieldFrom_running s' t hu)
    fun hk => absurd hk (yieldFrom_not_kmain s' t)

theorem Calls.enabled {a : Action} (h : Calls s t a) (ht : s.Running t) : s.Enabled a := by
  cases a with
  | boot => cases h
  | fork u => exact h.1 ▸ ⟨ht, h.2⟩
  | exit u code => exact h.1 ▸ ⟨ht, h.2⟩
  | kill u pid => exact h.1 ▸ ⟨ht, h.2⟩
  | waitpid u pid => exact h.1 ▸ ⟨ht, h.2⟩
  | resume u => exact h.1 ▸ ⟨ht, h.2⟩

theorem EndInv.step (h : EndInv ended c) (hs : Step c e c') (hcareful : c.Careful e)
    (hspares : c.SparesZombies e) : EndInv (ended ++ ends c.processes c'.processes) c' := by
  cases hs with
  | boot user run =>
    have he : Effect none false c.processes _ := spawn_effect h.inv (fun _ => rfl) run
    have hcareful : c.processes.Careful .boot := nofun
    have hinv := h.inv.act (a := .boot) trivial hcareful run
    refine h.effect he hinv nofun nofun fun _ x hx => ?_
    rcases he.mem hx with ⟨hold, -⟩ | ⟨-, hrunning⟩
    · exact he.running (h.booting user x hold)
    · exact hrunning
  | start user first =>
    have hmem : _ ∈ c.processes.taskStructLh := List.mem_of_mem_head? first
    have heffect : Effect none false c.processes c.processes := .quiet rfl rfl rfl rfl rfl
    refine h.effect heffect h.inv nofun (fun t ht => ?_) nofun
    cases ht
    exact h.booting user _ hmem
  | @call t a s r user calls run =>
    have he := calls.enabled (h.user t user)
    have heffect : Effect (c.killed (.call a)) (c.processes.yields a) c.processes s :=
      act_effect h.inv he run
    have hinv := h.inv.act he hcareful run
    split
    · exact h.yieldFrom heffect hinv hspares t
    · next hyields =>
      rw [Bool.eq_false_iff.mpr hyields] at heffect
      refine h.effect heffect hinv hspares (fun u hu => ?_) nofun
      cases hu
      exact heffect.running (h.user t user)
  | @exception t interruptNumber s user run =>
    obtain ⟨hinv, heffect⟩ := exception_effect h.inv (h.user t user) run
    exact h.yieldFrom heffect hinv nofun t
  | @yield t user =>
    have heffect : Effect none true c.processes c.processes := .quiet rfl rfl rfl rfl rfl
    exact h.yieldFrom heffect h.inv nofun t
  | @other kernel step blocks =>
    have heffect : Effect none false c.processes { c.processes with kernel } :=
      .quiet rfl rfl rfl rfl rfl
    exact h.effect heffect (h.inv.step (.other step blocks)) nofun h.user h.booting

theorem EndInv.run {c₀ : Cpu} (h₀ : EndInv [] c₀)
    (h : Run (fun c e => c.Careful e ∧ c.SparesZombies e) c₀ ended c) : EndInv ended c := by
  induction h with
  | refl => exact h₀
  | step _ allowed step ih => exact ih.step step allowed.1 allowed.2

theorem EndInv.init {kernel : KmemRun} (hk : KmemInv kernel) (hd : DirectMap kernel.kmem)
    (objects : U64 → TaskStruct) : EndInv [] ⟨Processes.init kernel objects, .kmain⟩ where
  once := List.nodup_nil
  status := nofun
  exitCode := nofun
  stays := nofun
  user := nofun
  inv := .init hk hd objects
  born := nofun
  booting _ := nofun

/-- A KILL gives a zombie its own code. -/
theorem kill_overwrites {u pid x : U64} {r : Option U64}
    (hx : s.taskStructFind (pid.setWidth 32) = some x) (hrun : s.act (.kill u pid) = .ok (s', r)) :
    s' = s.zombify x (-1) ∧ s.yields (.kill u pid) = true := by
  rw [act, sysKill, hx] at hrun
  cases hrun
  exact ⟨rfl, by rw [Processes.yields, hx]; rfl⟩

/-- An event that gives a zombie another code breaks the history. -/
theorem EndInv.spares (h : EndInv ended c) (hs : Step c e c')
    (hends : EndsOnce (ended ++ ends c.processes c'.processes) c') : c.SparesZombies e := by
  intro x hkilled hz
  cases hs with
  | @call t a s r user calls run =>
    cases a with
    | kill u pid =>
      have hmem : x ∈ c.processes.taskStructLh := List.mem_of_find?_eq_some hkilled
      obtain ⟨rfl, hyields⟩ := kill_overwrites hkilled run
      rw [if_pos hyields] at hends
      have hself := zombify_task_self c.processes x (-1)
      have hnew := hends.exitCode x hmem (congrArg TaskStruct.taskState hself)
      have hold := List.mem_append_left (ends c.processes (c.processes.zombify x (-1)))
        (h.exitCode x hmem hz)
      have hsame := List.inj_on_of_nodup_map hends.once hold hnew rfl
      exact (Prod.mk.inj hsame).2.trans (congrArg TaskStruct.exitCode hself)
    | _ => cases hkilled
  | _ => cases hkilled

end Cpu

open Cpu

/-- As long as no KILL finds a zombie with another code, every process ends once and is reported
with the code that it ended with. A KILL that does find one breaks this. -/
theorem processes_end_once {hhdm : Option U64} {memmap : Option (List MemmapEntry)} {k : Kmem}
    (hk : kmemInit hhdm memmap = .ok k) (hd : DirectMap k) {kernel : KmemRun}
    (hkernel : KmemReachable k kernel) (objects : U64 → TaskStruct) {ended : List (Nat × U8)}
    {c : Cpu} (hrun : Run (fun c e => c.Careful e ∧ c.SparesZombies e)
      ⟨Processes.init kernel objects, .kmain⟩ ended c) :
    EndsOnce ended c ∧ ∀ e c', Step c e c' → c.Careful e →
      (EndsOnce (ended ++ ends c.processes c'.processes) c' ↔ c.SparesZombies e) := by
  have hinv := (EndInv.init (hkernel.inv hk) (hkernel.directMap hd).1 objects).run hrun
  refine ⟨hinv.toEndsOnce, fun e c' hs hc => ⟨hinv.spares hs, fun hspares => ?_⟩⟩
  exact (hinv.step hs hc hspares).toEndsOnce

/-- The state after an event. -/
def Cpu.next (c : Cpu) : CpuEvent → Option Cpu
  | .boot =>
    match c.user with
    | .kmain => c.processes.boot.toOption.map fun r => ⟨r.1, .kmain⟩
    | _ => none
  | .start =>
    match c.user with
    | .kmain => c.processes.taskStructLh.head?.map fun t => ⟨c.processes, .task t⟩
    | _ => none
  | .call a =>
    match c.user with
    | .task t =>
      if Calls c.processes t a then (c.processes.act a).toOption.map fun r =>
        if c.processes.yields a then yieldFrom r.1 t else ⟨r.1, .task t⟩
      else none
    | _ => none
  | .exception n =>
    match c.user with
    | .task t => (c.processes.cpuExceptionHandler t n).toOption.map fun s => yieldFrom s t
    | _ => none
  | .yield =>
    match c.user with
    | .task t => some (yieldFrom c.processes t)
    | _ => none
  | .other => none

theorem toOption_eq_some {α : Type} {x : Except Crash α} {a : α} (h : x.toOption = some a) :
    x = .ok a := by
  cases x with
  | error e => cases h
  | ok b => exact congrArg _ (Option.some.inj h)

theorem Cpu.next_step {c c' : Cpu} {e : CpuEvent} (h : c.next e = some c') : Step c e c' := by
  cases e with
  | boot =>
    rw [next] at h
    split at h
    · next huser =>
      obtain ⟨r, hr, rfl⟩ := Option.map_eq_some_iff.mp h
      exact .boot huser (toOption_eq_some hr)
    · cases h
  | start =>
    rw [next] at h
    split at h
    · next huser =>
      obtain ⟨t, ht, rfl⟩ := Option.map_eq_some_iff.mp h
      exact .start huser ht
    · cases h
  | call a =>
    rw [next] at h
    split at h
    · next huser =>
      split at h
      · next hcalls =>
        obtain ⟨r, hr, rfl⟩ := Option.map_eq_some_iff.mp h
        exact .call huser hcalls (toOption_eq_some hr)
      · cases h
    · cases h
  | exception n =>
    rw [next] at h
    split at h
    · next huser =>
      obtain ⟨s, hs, rfl⟩ := Option.map_eq_some_iff.mp h
      exact .exception huser (toOption_eq_some hs)
    · cases h
  | yield =>
    rw [next] at h
    split at h
    · next huser =>
      cases h
      exact .yield huser
    · cases h
  | other => cases h

def Cpu.perform (may : Cpu → CpuEvent → Prop) [∀ c e, Decidable (may c e)] (c : Cpu)
    (e : CpuEvent) : Option Cpu := if may c e then c.next e else none

theorem Cpu.perform_step {may : Cpu → CpuEvent → Prop} [∀ c e, Decidable (may c e)] {c c' : Cpu}
    {e : CpuEvent} (h : c.perform may e = some c') : may c e ∧ Step c e c' := by
  rw [perform] at h
  split at h
  · next hmay => exact ⟨hmay, next_step h⟩
  · cases h

/-- The ends of processes and the state after a list of events. -/
def Cpu.performAll (may : Cpu → CpuEvent → Prop) [∀ c e, Decidable (may c e)]
    (events : List CpuEvent) (c : Cpu) : Option (List (Nat × U8) × Cpu) :=
  events.foldlM (fun (ended, c) e => (c.perform may e).map fun c' =>
    (ended ++ ends c.processes c'.processes, c')) ([], c)

theorem Cpu.performAll_run {may : Cpu → CpuEvent → Prop} [∀ c e, Decidable (may c e)]
    {events : List CpuEvent} {c c' : Cpu} {ended : List (Nat × U8)}
    (h : c.performAll may events = some (ended, c')) : Run may c ended c' := by
  induction events using List.reverseRecOn generalizing c' ended with
  | nil =>
    cases h
    exact .refl
  | append_singleton events e ih =>
    rw [performAll, List.foldlM_append] at h
    obtain ⟨⟨ended₁, c₁⟩, h₁, h⟩ := Option.bind_eq_some_iff.mp h
    rw [List.foldlM_cons] at h
    obtain ⟨⟨ended₂, c₂⟩, h₂, h⟩ := Option.bind_eq_some_iff.mp h
    cases h
    obtain ⟨c₃, hperform, hc⟩ := Option.map_eq_some_iff.mp h₂
    cases hc
    obtain ⟨hmay, hstep⟩ := perform_step hperform
    exact .step (ih h₁) hmay hstep

/-- `init` forks a child that exits with 7 and is waited for, after a KILL or not. -/
def childExits (kill : List CpuEvent) : List CpuEvent :=
  [.boot, .boot, .start, .call (.fork 0xffff800000101030), .yield, .yield,
    .call (.exit 0xffff8000001012E0 7)] ++ kill ++ [.call (.waitpid 0xffff800000101030 3)]

def smallCpu : Cpu := ⟨smallProcesses, .kmain⟩

theorem processes_end_once_childExits : ∃ ended c,
    Run (fun c e => c.Careful e ∧ c.SparesZombies e) smallCpu ended c ∧
      c.processes.reaps.map (fun r => (r.task, r.status)) = [(2, 7)] ∧ EndsOnce ended c := by
  have hevents : ((smallCpu.performAll (fun c e => c.Careful e ∧ c.SparesZombies e)
      (childExits [])).map fun p => p.2.processes.reaps.map fun r => (r.task, r.status)) =
      some [(2, 7)] := by decide +kernel
  obtain ⟨⟨ended, c⟩, hperform, hreaps⟩ := Option.map_eq_some_iff.mp hevents
  have hrun := performAll_run hperform
  exact ⟨ended, c, hrun, hreaps, (processes_end_once smallKmem_init
    ⟨by decide, by decide, by decide, by decide⟩ .refl _ hrun).1⟩

/-- A KILL of the child after its exit replaces the 7 by 255. -/
theorem kill_changes_status : ∃ ended c, Run (fun c e => c.Careful e) smallCpu ended c ∧
    ended = [(2, 7)] ∧ c.processes.reaps.map (fun r => (r.task, r.status)) = [(2, 255)] ∧
    ¬EndsOnce ended c := by
  have hevents : ((smallCpu.performAll (fun c e => c.Careful e)
      (childExits [.call (.kill 0xffff800000101030 3), .yield])).map fun p =>
        (p.1, p.2.processes.reaps.map fun r => (r.task, r.status))) =
      some ([(2, 7)], [(2, 255)]) := by decide +kernel
  obtain ⟨⟨ended, c⟩, hperform, hends⟩ := Option.map_eq_some_iff.mp hevents
  obtain ⟨hended, hreaps⟩ := Prod.mk.inj hends
  refine ⟨ended, c, performAll_run hperform, hended, hreaps, fun honce => ?_⟩
  obtain ⟨r, hr, hstatus⟩ : ∃ r ∈ c.processes.reaps, (r.task, r.status) = (2, 255) := by
    rw [← List.mem_map, hreaps]
    exact List.mem_singleton_self _
  have hmem := honce.status r hr
  rw [hstatus, show ended = [(2, 7)] from hended] at hmem
  exact absurd (List.mem_singleton.mp hmem) (by decide)

end Persistos
