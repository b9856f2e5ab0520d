import Persistos.Scheduler
import Persistos.SlabObjects
import Persistos.MapTables
import Mathlib.Data.List.Perm.Subperm

/-! Processes between FORK and WAITPID. WAITPID keeps the address of a
`task_struct` while other tasks run, and frees what is there in the end. -/

namespace Persistos

/-- The members of `struct task_struct` that FORK, EXIT, KILL and WAITPID use. -/
structure TaskStruct where
  pid : U32
  taskState : U8
  exitCode : U8
  kernelStackPages : U64
  pml4Page : U64
  deriving DecidableEq, Repr

namespace TaskStruct

def cleared : TaskStruct := ⟨0, 0, 0, 0, 0⟩

def stackBlock (task : TaskStruct) : Block := ⟨task.kernelStackPages, 2⟩

def pml4Block (task : TaskStruct) : Block := ⟨task.pml4Page, 1⟩

end TaskStruct

/-- A WAITPID that freed a process: which one it was by the order of the forks, its
pid, the pid that the caller named, the status that it reports, and whether all
that it freed was allocated. -/
structure Reap where
  task : Nat
  pid : U32
  argument : U64
  status : U8
  allocated : Bool
  deriving DecidableEq, Repr

/-- `waiting t` is the pair `process` and `arg3` on the stack of a task `t` inside
WAITPID. `serial`, `forks`, `exitCodes` and `reaps` are the history: the number of the
task in a slot, the last code that EXIT or KILL gave to a number, and the frees. -/
structure Processes where
  kernel : KmemRun
  tasks : Slab TaskStruct
  taskStructLh : List U64
  pidCounter : U32
  waiting : U64 → Option (U64 × U64)
  serial : U64 → Nat
  forks : Nat
  exitCodes : Nat → U8
  reaps : List Reap

/-- `sizeof(struct task_struct)` -/
def taskStructSize : U16 := 344

namespace Processes

/-- After `kmem_init` and `scheduler_init_1`. -/
def init (kernel : KmemRun) (objects : U64 → TaskStruct) : Processes where
  kernel := kernel
  tasks := Slab.init taskStructSize objects
  taskStructLh := []
  pidCounter := 1
  waiting _ := none
  serial _ := 0
  forks := 0
  exitCodes _ := 0
  reaps := []

def task (s : Processes) (t : U64) : TaskStruct := s.tasks.objects t

def taskStructAlloc (s : Processes) : Except Crash (U64 × Processes) := do
  let (x, kernel, allocator, new) ← slabAlloc KmemRun.allocPage s.kernel s.tasks.allocator
  .ok (x, { s with kernel, tasks := ⟨allocator, Slab.clearNew .cleared new s.tasks.objects⟩ })

/-- A new process, with `setup` for the members that its creators set differently. -/
def spawn (s : Processes) (setup : TaskStruct → TaskStruct) :
    Except Crash (Processes × Option U64) := do
  let (x, s) ← s.taskStructAlloc
  let (stack, kernel) ← s.kernel.allocPages 2
  let (pml4, kernel) ← kernel.allocPages 1
  .ok ({ s with
    kernel
    tasks := s.tasks.modify x fun task =>
      { setup task with pid := s.pidCounter, kernelStackPages := stack, pml4Page := pml4 }
    taskStructLh := s.taskStructLh ++ [x]
    pidCounter := s.pidCounter + 1
    waiting := Function.update s.waiting x none
    serial := Function.update s.serial x s.forks
    forks := s.forks + 1 }, some (s.pidCounter.setWidth 64))

/-- The tasks that `kmain` makes. -/
def boot (s : Processes) : Except Crash (Processes × Option U64) :=
  s.spawn fun task => { task with taskState := tsRunning, exitCode := 0 }

def sysFork (s : Processes) (t : U64) : Except Crash (Processes × Option U64) :=
  s.spawn fun task => { task with taskState := (s.task t).taskState }

/-- A task becomes a zombie. -/
def zombify (s : Processes) (t : U64) (exitCode : U8) : Processes :=
  { s with
    tasks := s.tasks.modify t fun task => { task with taskState := tsZombie, exitCode }
    exitCodes := Function.update s.exitCodes (s.serial t) exitCode }

def sysExit (s : Processes) (t code : U64) : Processes × Option U64 :=
  (s.zombify t (code.setWidth 8), none)

def taskStructFind (s : Processes) (pid : U32) : Option U64 :=
  s.taskStructLh.find? fun x => (s.task x).pid = pid

def sysKill (s : Processes) (pid : U64) : Processes × Option U64 :=
  match s.taskStructFind (pid.setWidth 32) with
  | none => (s, some (-1))
  | some x => (s.zombify x (-1), some 0)

/-- WAITPID by `t` once `process` is a zombie. The exit code is read after the free. -/
def reap (s : Processes) (t process pid : U64) : Except Crash (Processes × Option U64) := do
  let task := s.task process
  let kernel := s.kernel.freePages task.pml4Block
  let allocated := decide (process ∈ s.taskStructLh ∧ task.pml4Block ∈ s.kernel.live ∧
    task.stackBlock ∈ kernel.live)
  let kernel := kernel.freePages task.stackBlock
  let tasks ← s.tasks.free process
  .ok ({ s with
    kernel
    tasks
    taskStructLh := s.taskStructLh.erase process
    waiting := Function.update s.waiting t none
    reaps := ⟨s.serial process, task.pid, pid, (tasks.objects process).exitCode, allocated⟩ ::
      s.reaps }, some pid)

/-- The test of the loop in WAITPID, and what follows it. -/
def awaitZombie (s : Processes) (t process pid : U64) : Except Crash (Processes × Option U64) :=
  if (s.task process).taskState ≠ tsZombie then
    .ok ({ s with waiting := Function.update s.waiting t (some (process, pid)) }, none)
  else s.reap t process pid

def waitpidFind (s : Processes) (pid : U64) : Option U64 :=
  s.taskStructLh.find? fun x => (s.task x).pid.setWidth 64 = pid

def sysWaitpid (s : Processes) (t pid : U64) : Except Crash (Processes × Option U64) :=
  match s.waitpidFind pid with
  | none => .ok (s, some (-1))
  | some process => s.awaitZombie t process pid

/-- `t` returns from `task_yield` inside WAITPID. -/
def resume (s : Processes) (t : U64) : Except Crash (Processes × Option U64) :=
  match s.waiting t with
  | none => .ok (s, none)
  | some (process, pid) => s.awaitZombie t process pid

end Processes

inductive Action where
  | boot
  | fork (t : U64)
  | exit (t code : U64)
  | kill (t pid : U64)
  | waitpid (t pid : U64)
  | resume (t : U64)

namespace Processes

/-- What a task does between two calls of `task_yield`, and what its system call
returns, if it does. -/
def act (s : Processes) : Action → Except Crash (Processes × Option U64)
  | .boot => s.boot
  | .fork t => s.sysFork t
  | .exit t code => .ok (s.sysExit t code)
  | .kill _ pid => .ok (s.sysKill pid)
  | .waitpid t pid => s.sysWaitpid t pid
  | .resume t => s.resume t

def Running (s : Processes) (t : U64) : Prop :=
  t ∈ s.taskStructLh ∧ (s.task t).taskState = tsRunning

instance (s : Processes) (t : U64) : Decidable (s.Running t) := inferInstanceAs (Decidable (_ ∧ _))

/-- The scheduler may choose any running task, and a task inside WAITPID goes on there. -/
def Enabled (s : Processes) : Action → Prop
  | .boot => True
  | .fork t => s.Running t ∧ s.waiting t = none
  | .exit t _ => s.Running t ∧ s.waiting t = none
  | .kill t _ => s.Running t ∧ s.waiting t = none
  | .waitpid t _ => s.Running t ∧ s.waiting t = none
  | .resume t => s.Running t ∧ s.waiting t ≠ none

instance (s : Processes) (a : Action) : Decidable (s.Enabled a) := by
  cases a <;> unfold Enabled <;> infer_instance

/-- The process that a step of WAITPID by some task frees. -/
def frees (s : Processes) (t : U64) (process : Option U64) : Option (U64 × U64) :=
  process.bind fun x => if (s.task x).taskState ≠ tsZombie then none else some (t, x)

def reaper (s : Processes) : Action → Option (U64 × U64)
  | .waitpid t pid => s.frees t (s.waitpidFind pid)
  | .resume t => s.frees t ((s.waiting t).map Prod.fst)
  | _ => none

/-- No running task but `t` is inside WAITPID with `process`. -/
def SoleWaiter (s : Processes) (t process : U64) : Prop :=
  ∀ u ∈ s.taskStructLh, u ≠ t → (s.task u).taskState = tsRunning →
    (s.waiting u).map Prod.fst ≠ some process

instance (s : Processes) (t process : U64) : Decidable (s.SoleWaiter t process) :=
  inferInstanceAs (Decidable (∀ u ∈ s.taskStructLh, _))

/-- A process is freed by the only task that waits for it. -/
def Careful (s : Processes) (a : Action) : Prop :=
  ∀ r, s.reaper a = some r → s.SoleWaiter r.1 r.2

/-- The blocks of the page allocator that the tasks and their slab hold. -/
def blocks (s : Processes) : List Block :=
  s.tasks.allocator.pages.map (fun p => ⟨p, 1⟩) ++
    s.taskStructLh.flatMap fun x => [(s.task x).stackBlock, (s.task x).pml4Block]

end Processes

/-- One step of some task, or of the rest of the kernel, which frees none of the
tasks' blocks. -/
inductive ProcessStep (may : Processes → Action → Prop) (s : Processes) : Processes → Prop where
  | act {a : Action} {s' : Processes} {r : Option U64} (he : s.Enabled a) (hm : may s a)
      (h : s.act a = .ok (s', r)) : ProcessStep may s s'
  | other {kernel : KmemRun} (h : KmemStep s.kernel kernel)
      (hb : s.blocks.Subperm kernel.live) : ProcessStep may s { s with kernel }

/-- Every process is freed at most once, together with a kernel stack and a PML4 that
were allocated, and a WAITPID that frees one reports the exit code of the process
that it was called for. -/
structure ReapedOnce (s : Processes) : Prop where
  once : (s.reaps.map Reap.task).Nodup
  allocated : ∀ r ∈ s.reaps, r.allocated = true
  pid : ∀ r ∈ s.reaps, r.pid.setWidth 64 = r.argument
  status : ∀ r ∈ s.reaps, r.status = s.exitCodes r.task

end Persistos
