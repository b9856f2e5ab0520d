import Persistos.ProcessEnds
import Persistos.Theory.Waits

/-! How long a running task waits for the CPU: each other running task gets it at most once
before, and each task that is made in the meantime. -/

namespace Persistos

open Theory

theorem ProcessInv.nodup {s : Processes} (h : ProcessInv s) : s.taskStructLh.Nodup :=
  (List.nodup_append.mp h.serials).1.of_map

namespace Processes

variable {s s' : Processes} {w t u : U64} {killed : Option U64} {yields : Bool}

/-- Whether `task_yield` may switch to the task. -/
def runs (s : Processes) (x : U64) : Bool := (s.task x).taskState = tsRunning

/-- The running tasks to which `task_yield` switches from `t` before it switches to `w`. -/
def before (s : Processes) (t w : U64) : Nat := ahead s.runs s.taskStructLh t w

def runningCount (s : Processes) : Nat := s.taskStructLh.countP s.runs

theorem Running.runs (h : s.Running t) : s.runs t = true := decide_eq_true h.2

theorem before_le (ht : s.Running t) (hw : s.Running w) (hne : w ≠ t) :
    s.before t w + 2 ≤ s.runningCount :=
  ahead_le ht.1 hw.1 hne ht.runs hw.runs

/-- Whatever happens to the processes, no more tasks come before `w` than are made. -/
theorem Effect.before (h : Effect killed yields s s') (hinv : ProcessInv s) (ht : s.Running t)
    (hw : s.Running w) : s'.before t w + s.forks ≤ s.before t w + s'.forks := by
  cases h with
  | quiet tasks list serial forks =>
    have hruns : s'.runs = s.runs := funext fun x => by rw [runs, runs, task, task, tasks]
    rw [Processes.before, Processes.before, hruns, list, forks]
  | @spawned x fresh list old serial running forks =>
    have hmono : ahead s'.runs s.taskStructLh t w ≤ ahead s.runs s.taskStructLh t w :=
      ahead_mono fun a ha hr => by rwa [runs, ← (old a ha).1]
    have happend := ahead_append (p := s'.runs) (d := w) (x := x) ht.1
    rw [Processes.before, Processes.before, list, forks]
    omega
  | @zombified x exitCode mem state =>
    subst state
    have hmono : ahead (s.zombify x exitCode).runs s.taskStructLh t w ≤
        ahead s.runs s.taskStructLh t w := by
      refine ahead_mono fun a _ hr => ?_
      by_cases hax : a = x
      · rw [hax, runs, zombify_task_self] at hr
        have hstate : tsZombie = tsRunning := of_decide_eq_true hr
        exact absurd hstate (by decide)
      · rwa [runs, zombify_task_ne s hax] at hr
    exact Nat.add_le_add_right hmono _
  | @reaped x r mem zombie tasks list serial forks =>
    have hruns : s'.runs = s.runs := funext fun x => by rw [runs, runs, task, task, tasks]
    have hne : ∀ y, s.Running y → y ≠ x := fun y hy hyx => hy.not_zombie (hyx ▸ zombie)
    rw [Processes.before, Processes.before, hruns, list, forks]
    exact Nat.add_le_add_right (ahead_erase hinv.nodup ht.1 (hne t ht) (hne w hw)) _

end Processes

namespace Cpu

open Processes

variable {s s' : Processes} {c c' c₀ : Cpu} {e : CpuEvent} {w t u : U64} {n : Nat}

/-- `task_yield` switches to some task where one is running, and to a nearer one than `w`. -/
theorem yieldFrom_before (hn : s.taskStructLh.Nodup) (hw : s.Running w)
    (hne : (yieldFrom s t).user ≠ .task w) :
    ∃ u, (yieldFrom s t).user = .task u ∧ s.before t w = s.before u w + 1 := by
  rw [yieldFrom] at hne ⊢
  cases htarget : s.yieldTarget t with
  | none =>
    have hnone := List.find?_eq_none.mp htarget w ((after_perm _ _).symm.subset hw.1)
    exact absurd hw.runs hnone
  | some u =>
    rw [htarget] at hne
    refine ⟨u, rfl, ahead_of_find hn htarget hw.1 hw.runs ?_⟩
    intro hwu
    exact hne (hwu ▸ rfl)

/-- Whether the kernel goes through `task_yield`. -/
def switches (c : Cpu) : CpuEvent → Bool
  | .boot => false
  | .start => false
  | .call a => c.processes.yields a
  | .exception _ => true
  | .yield => true
  | .other => false

/-- A part of a run in which the running task `w` does not get the CPU, with the number of times
that the kernel goes through `task_yield` in it. -/
inductive Waits (w : U64) (c₀ : Cpu) : Nat → Cpu → Prop
  | refl : Waits w c₀ 0 c₀
  | step {n : Nat} {c c' : Cpu} {e : CpuEvent} (waits : Waits w c₀ n c) (careful : c.Careful e)
      (step : Step c e c') (running : c'.processes.Running w) (cpu : c'.user ≠ .task w) :
      Waits w c₀ (n + if c.switches e then 1 else 0) c'

/-- A task has the CPU, and the running tasks that come before `w` are at most `b` and those
made so far, less `k`. -/
structure Turn (w : U64) (b k : Nat) (c : Cpu) : Prop where
  inv : ProcessInv c.processes
  running : c.processes.Running w
  user : ∃ u, c.user = .task u ∧ c.processes.Running u ∧
    c.processes.before u w + k ≤ b + c.processes.forks

theorem Turn.effect {b k : Nat} {killed : Option U64} {yields : Bool} (h : Turn w b k c)
    (hu : c.user = .task u) (he : Effect killed yields c.processes s) :
    s.before u w + k ≤ b + s.forks := by
  obtain ⟨v, hv, hrunning, hle⟩ := h.user
  obtain rfl := CpuUser.task.inj (hv.symm.trans hu)
  have hbefore := he.before h.inv hrunning h.running
  have hforks := he.forks_le
  omega

/-- Where the kernel switches, a task has had the CPU. -/
theorem Turn.yieldFrom {b k : Nat} {killed : Option U64} {yields : Bool} (h : Turn w b k c)
    (hu : c.user = .task u) (he : Effect killed yields c.processes s) (hinv : ProcessInv s)
    (hw : s.Running w) (hne : (yieldFrom s u).user ≠ .task w) :
    Turn w b (k + 1) (yieldFrom s u) := by
  obtain ⟨v, hv, hbefore⟩ := yieldFrom_before hinv.nodup hw hne
  have hle := h.effect hu he
  refine ⟨hinv, hw, v, hv, yieldFrom_running s u hv, ?_⟩
  change s.before v w + (k + 1) ≤ b + s.forks
  omega

theorem Turn.step {b k : Nat} (h : Turn w b k c) (hs : Step c e c') (hcareful : c.Careful e)
    (hw : c'.processes.Running w) (hne : c'.user ≠ .task w) :
    Turn w b (k + if c.switches e then 1 else 0) c' := by
  obtain ⟨t, ht, hrunning, hle⟩ := h.user
  cases hs with
  | boot user => cases ht.symm.trans user
  | start user => cases ht.symm.trans user
  | @call u a s r user calls run =>
    obtain rfl := CpuUser.task.inj (ht.symm.trans user)
    have henabled := calls.enabled hrunning
    have heffect : Effect (c.killed (.call a)) (c.processes.yields a) c.processes s :=
      act_effect h.inv henabled run
    have hinv := h.inv.act henabled hcareful run
    by_cases hyields : c.processes.yields a = true
    · rw [if_pos hyields] at hw hne ⊢
      rw [switches, if_pos hyields]
      exact h.yieldFrom user heffect hinv hw hne
    · rw [if_neg hyields] at hw hne ⊢
      rw [switches, if_neg hyields]
      rw [Bool.eq_false_iff.mpr hyields] at heffect
      exact ⟨hinv, hw, t, rfl, heffect.running hrunning, h.effect user heffect⟩
  | @exception u interruptNumber s user run =>
    obtain rfl := CpuUser.task.inj (ht.symm.trans user)
    obtain ⟨hinv, heffect⟩ := exception_effect h.inv hrunning run
    exact h.yieldFrom user heffect hinv hw hne
  | @yield u user =>
    have heffect : Effect none true c.processes c.processes := .quiet rfl rfl rfl rfl rfl
    exact h.yieldFrom user heffect h.inv hw hne
  | @other kernel step blocks =>
    exact ⟨h.inv.step (.other step blocks), hw, t, ht, hrunning, hle⟩

theorem Turn.waits {c₀ : Cpu} {b k : Nat} (h₀ : Turn w b k c₀) (h : Waits w c₀ n c) :
    Turn w b (k + n) c := by
  induction h with
  | refl => exact h₀
  | step waits careful step running cpu ih =>
    rw [← Nat.add_assoc]
    exact ih.step step careful running cpu

/-- What holds of the CPU in every run in which processes are freed by their only waiters. -/
structure CpuInv (c : Cpu) : Prop where
  inv : ProcessInv c.processes
  user : ∀ t, c.user = .task t → c.processes.Running t
  booting : c.user = .kmain → ∀ x ∈ c.processes.taskStructLh, c.processes.Running x

theorem CpuInv.init {kernel : KmemRun} (hk : KmemInv kernel) (hd : DirectMap kernel.kmem)
    (objects : U64 → TaskStruct) : CpuInv ⟨Processes.init kernel objects, .kmain⟩ where
  inv := .init hk hd objects
  user := nofun
  booting _ := nofun

theorem CpuInv.yieldFrom (hinv : ProcessInv s) (t : U64) : CpuInv (yieldFrom s t) where
  inv := hinv
  user _ hu := yieldFrom_running s t hu
  booting hk := absurd hk (yieldFrom_not_kmain s t)

theorem CpuInv.step (h : CpuInv c) (hs : Step c e c') (hcareful : c.Careful e) : CpuInv c' := by
  cases hs with
  | @boot s r user run =>
    have he : Effect none false c.processes s := spawn_effect h.inv (fun _ => rfl) run
    have hboot : c.processes.Careful .boot := nofun
    refine ⟨h.inv.act (a := .boot) trivial hboot run, nofun, fun _ x hx => ?_⟩
    rcases he.mem hx with ⟨hold, -⟩ | ⟨-, hrunning⟩
    · exact he.running (h.booting user x hold)
    · exact hrunning
  | @start t user first =>
    refine ⟨h.inv, fun u hu => ?_, nofun⟩
    obtain rfl := CpuUser.task.inj hu
    exact h.booting user t (List.mem_of_mem_head? first)
  | @call t a s r user calls run =>
    have henabled := calls.enabled (h.user t user)
    have hinv := h.inv.act henabled hcareful run
    split
    · exact .yieldFrom hinv t
    · next hyields =>
      have he : Effect (c.killed (.call a)) (c.processes.yields a) c.processes s :=
        act_effect h.inv henabled run
      rw [Bool.eq_false_iff.mpr hyields] at he
      refine ⟨hinv, fun u hu => ?_, nofun⟩
      obtain rfl := CpuUser.task.inj hu
      exact he.running (h.user t user)
  | @exception t interruptNumber s user run =>
    exact .yieldFrom (exception_effect h.inv (h.user t user) run).1 t
  | @yield t user => exact .yieldFrom h.inv t
  | @other kernel step blocks =>
    exact ⟨h.inv.step (.other step blocks), h.user, h.booting⟩

theorem CpuInv.run {ended : List (Nat × U8)} (h₀ : CpuInv c₀)
    (h : Run (fun c e => c.Careful e) c₀ ended c) : CpuInv c := by
  induction h with
  | refl => exact h₀
  | step run allowed step ih => exact ih.step step allowed

theorem CpuInv.turn (h : CpuInv c) (hu : c.user = .task t) (hw : c.processes.Running w) :
    Turn w (c.processes.before t w) c.processes.forks c :=
  ⟨h.inv, hw, t, hu, h.user t hu, Nat.le_refl _⟩

end Cpu

open Cpu

/-- A running task waits at most until each other running task and each new one has had the CPU
once, whatever the processes do, and the CPU is not idle until then. -/
theorem running_task_gets_cpu {hhdm : Option U64} {memmap : Option (List MemmapEntry)} {k : Kmem}
    (hk : kmemInit hhdm memmap = .ok k) (hd : DirectMap k) {kernel : KmemRun}
    (hkernel : KmemReachable k kernel) (objects : U64 → TaskStruct) {ended : List (Nat × U8)}
    {c₀ c : Cpu} {t w : U64} {n : Nat}
    (hrun : Run (fun c e => c.Careful e) ⟨Processes.init kernel objects, .kmain⟩ ended c₀)
    (ht : c₀.user = .task t) (hw : c₀.processes.Running w) (hne : w ≠ t) (h : Waits w c₀ n c) :
    n + 2 + c₀.processes.forks ≤ c₀.processes.runningCount + c.processes.forks ∧
      ∃ u, c.user = .task u ∧ c.processes.Running u := by
  have hinv := (CpuInv.init (hkernel.inv hk) (hkernel.directMap hd).1 objects).run hrun
  obtain ⟨-, -, u, hu, hrunning, hle⟩ := (hinv.turn ht hw).waits h
  have hbefore := Processes.before_le (hinv.user t ht) hw hne
  exact ⟨by omega, u, hu, hrunning⟩

def Cpu.currentTaskTs (c : Cpu) : Option U64 :=
  match c.user with
  | .task t => some t
  | _ => none

theorem Cpu.currentTaskTs_eq_some {c : Cpu} {t : U64} : c.currentTaskTs = some t ↔
    c.user = .task t := by
  rw [currentTaskTs]
  split
  · next u hu => rw [hu, Option.some.injEq, CpuUser.task.injEq]
  · next hne => exact ⟨nofun, fun ht => absurd ht (hne t)⟩

/-- A child of the first task, 0xffff8000001012E0, waits until the second has had the CPU. -/
theorem running_task_gets_cpu_child : ∃ ended c₀ c,
    Run (fun c e => c.Careful e) smallCpu ended c₀ ∧ Waits 0xffff8000001012E0 c₀ 1 c ∧
      c₀.processes.runningCount = 3 ∧ c.processes.forks = 3 ∧
      (1 + 2 + c₀.processes.forks ≤ c₀.processes.runningCount + c.processes.forks ∧
        ∃ u, c.user = .task u ∧ c.processes.Running u) := by
  have hevents : ((smallCpu.performAll (fun c e => c.Careful e) [.boot, .boot, .start,
      .call (.fork 0xffff800000101030)]).bind fun p => (p.2.next .yield).map fun c =>
        (p.2.currentTaskTs, c.currentTaskTs, p.2.processes.runningCount, c.processes.forks,
          decide (p.2.processes.Running 0xffff8000001012E0))) =
      some (some 0xffff800000101030, some 0xffff800000101188, 3, 3, true) := by
    decide +kernel
  obtain ⟨⟨ended, c₀⟩, hperform, hevents⟩ := Option.bind_eq_some_iff.mp hevents
  obtain ⟨c, hyield, hevents⟩ := Option.map_eq_some_iff.mp hevents
  simp only [Prod.mk.injEq, currentTaskTs_eq_some, decide_eq_true_iff] at hevents
  obtain ⟨ht, hu, hcount, hforks, hw⟩ := hevents
  have hrun := performAll_run hperform
  have hyielded : c.processes = c₀.processes := by
    rw [next, ht] at hyield
    cases hyield
    rfl
  have hne : c.user ≠ .task 0xffff8000001012E0 := by
    rw [hu]
    exact fun heq => absurd (CpuUser.task.inj heq) (by decide)
  have hcareful : c₀.Careful .yield := trivial
  have hwaits : Waits 0xffff8000001012E0 c₀ 1 c :=
    .step .refl hcareful (next_step hyield) (hyielded ▸ hw) hne
  exact ⟨ended, c₀, c, hrun, hwaits, hcount, hforks, running_task_gets_cpu smallKmem_init
    ⟨by decide, by decide, by decide, by decide⟩ .refl _ hrun ht hw (by decide) hwaits⟩

end Persistos
