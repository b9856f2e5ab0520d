import Persistos.Lists

/-! The round robin of `task_yield` over the circular list of tasks. -/

namespace Persistos

open Theory

def tsRunning : U8 := 0x91
def tsWaiting : U8 := 0x92
def tsZombie : U8 := 0x93

/-- `taskState` is by the address of the `task_struct`, `taskStructLh` is the address
of the head, and `halts` counts the calls of `halt_until_any_interrupt`: no interrupt
handler changes a task or the list. -/
structure Scheduler where
  heads : ListMemory
  taskState : U64 → U8
  taskStructLh : U64
  currentTaskTs : U64
  halts : Nat

/-- `&ts->task_struct_le` -/
def taskStructLe (ts : U64) : U64 := ts + 312

/-- `container_of` for `task_struct_le` -/
def taskOfLe (le : U64) : U64 := le - 312

def nextTaskStruct (s : Scheduler) (ts : U64) : U64 :=
  let le := (s.heads (taskStructLe ts)).next
  let le := if le = s.taskStructLh then (s.heads le).next else le
  taskOfLe le

/-- The search of `task_yield`, for at most as many tasks as the first argument says. -/
def taskYieldFrom (s : Scheduler) : Nat → U64 → Nat → Except Crash (U64 × Nat)
  | 0, _, _ => .error .endless
  | fuel + 1, t, halts =>
    let t := nextTaskStruct s t
    let halts := if t = s.currentTaskTs then halts + 1 else halts
    if s.taskState t ≠ tsRunning then taskYieldFrom s fuel t halts else .ok (t, halts)

/-- `switch_to_task` as far as the scheduler's own data goes. -/
def Scheduler.switchToTask (s : Scheduler) (newTask : U64) : Scheduler :=
  { s with currentTaskTs := newTask }

def taskYield (fuel : Nat) (s : Scheduler) : Except Crash Scheduler := do
  let (t, halts) ← taskYieldFrom s fuel s.currentTaskTs s.halts
  .ok ({ s with halts }.switchToTask t)

namespace Scheduler

variable {s s' : Scheduler} {ts : List U64}

def running (s : Scheduler) (t : U64) : Bool := s.taskState t = tsRunning

/-- `ts` are the tasks of the list, in its order. -/
def TaskList (s : Scheduler) (ts : List U64) : Prop :=
  Linked s.heads s.taskStructLh (ts.map taskStructLe)

instance (s : Scheduler) (ts : List U64) : Decidable (s.TaskList ts) :=
  inferInstanceAs (Decidable (Linked _ _ _))

@[simp] theorem taskOfLe_taskStructLe (t : U64) : taskOfLe (taskStructLe t) = t :=
  BitVec.add_sub_cancel t 312

theorem taskStructLe_injective : Function.Injective taskStructLe :=
  Function.LeftInverse.injective taskOfLe_taskStructLe

theorem nextTaskStruct_eq (s : Scheduler) (t : U64) :
    nextTaskStruct s t = taskOfLe (skip s.heads s.taskStructLh (taskStructLe t)) := by
  by_cases h : (s.heads (taskStructLe t)).next = s.taskStructLh <;> simp [nextTaskStruct, skip, h]

theorem TaskList.nodup (h : s.TaskList ts) : ts.Nodup :=
  (List.nodup_cons.mp (Linked.nodup h)).2.of_map taskStructLe

theorem after_map {c : U64} (hc : c ∈ ts) :
    after (ts.map taskStructLe) (taskStructLe c) = (after ts c).map taskStructLe := by
  obtain ⟨l, r, rfl, hl⟩ := List.eq_append_cons_of_mem hc
  have hl' : taskStructLe c ∉ l.map taskStructLe := by
    rwa [List.mem_map_of_injective taskStructLe_injective]
  rw [after_append_cons hl, List.map_append, List.map_cons, after_append_cons hl']
  simp

/-- From any task, `next_task_struct` visits the tasks in cyclic order. -/
theorem TaskList.chain {c : U64} (h : s.TaskList ts) (hc : c ∈ ts) :
    (c :: after ts c).IsChain (fun a b => nextTaskStruct s a = b) := by
  have hh := Linked.skip_chain h (List.mem_map_of_mem hc)
  rw [after_map hc, ← List.map_cons, List.isChain_map] at hh
  refine hh.imp ?_
  intro a b hab
  rw [nextTaskStruct_eq, hab, taskOfLe_taskStructLe]

/-- The search passes over tasks that do not run, other than the current one. -/
theorem taskYieldFrom_eq {fuel : Nat} {t u : U64} {l : List U64} {halts : Nat}
    (h : (t :: l ++ [u]).IsChain (fun a b => nextTaskStruct s a = b))
    (hl : ∀ a ∈ l, s.running a = false) (hc : s.currentTaskTs ∉ l) (hu : s.running u = true)
    (hf : l.length < fuel) :
    taskYieldFrom s fuel t halts = .ok (u, if u = s.currentTaskTs then halts + 1 else halts) := by
  induction l generalizing t fuel with
  | nil =>
    obtain ⟨fuel, rfl⟩ := Nat.exists_eq_add_of_lt hf
    have ht : nextTaskStruct s t = u := by simpa using h
    have hr : s.taskState u = tsRunning := by simpa [running] using hu
    simp [taskYieldFrom, ht, hr]
  | cons a l ih =>
    cases fuel with
    | zero => simp at hf
    | succ fuel =>
      simp only [List.cons_append, List.isChain_cons_cons] at h
      simp only [List.mem_cons, not_or, forall_eq_or_imp] at hc hl
      have ha : s.taskState a ≠ tsRunning := by simpa [running] using hl.1
      rw [taskYieldFrom, h.1]
      simp only [ha, Ne.symm hc.1, if_false, ne_eq, not_false_eq_true, if_true]
      exact ih h.2 hl.2 hc.2 (by simpa using hf)

theorem taskYield_eq {fuel : Nat} {t : U64} (h : s.TaskList ts) (hc : s.currentTaskTs ∈ ts)
    (hf : (after ts s.currentTaskTs).find? s.running = some t) (hfuel : ts.length ≤ fuel) :
    taskYield fuel s =
      .ok { s with
        currentTaskTs := t
        halts := if t = s.currentTaskTs then s.halts + 1 else s.halts } := by
  obtain ⟨ht, l, r, hs, hl⟩ := List.find?_eq_some_iff_append.mp hf
  have hchain := h.chain hc
  rw [hs, ← List.cons_append] at hchain
  have hlen := (after_perm ts s.currentTaskTs).length_eq
  rw [hs, List.length_append, List.length_cons] at hlen
  have hh := @taskYieldFrom_eq s fuel s.currentTaskTs t l s.halts ((List.isChain_split).mp hchain).1
    (fun a ha => by simpa using hl a ha) (notMem_of_after_eq h.nodup hc hs) ht
    (by omega : l.length < fuel)
  rw [taskYield, hh]
  rfl

theorem taskYieldFrom_mono {fuel n : Nat} {t : U64} {halts : Nat} {r : U64 × Nat}
    (h : taskYieldFrom s fuel t halts = .ok r) : taskYieldFrom s (fuel + n) t halts = .ok r := by
  induction fuel generalizing t halts with
  | zero => cases h
  | succ fuel ih =>
    rw [Nat.succ_add]
    simp only [taskYieldFrom] at h ⊢
    split
    · next hr => exact ih (by rwa [if_pos hr] at h)
    · next hr => rwa [if_neg hr] at h

theorem taskYield_mono {fuel n : Nat} (h : taskYield fuel s = .ok s') :
    taskYield (fuel + n) s = .ok s' := by
  obtain ⟨r, hr, hs⟩ := bind_eq_ok h
  rw [taskYield, taskYieldFrom_mono hr]
  exact hs

theorem exists_find {c : U64} (hr : ∃ t ∈ ts, s.running t = true) :
    ∃ t, (after ts c).find? s.running = some t := by
  obtain ⟨t, ht, hr⟩ := hr
  have hh : ((after ts c).find? s.running).isSome :=
    List.find?_isSome.mpr ⟨t, (after_perm ts c).mem_iff.mpr ht, hr⟩
  exact Option.isSome_iff_exists.mp hh

/-- Without a running task the search goes round for ever. -/
theorem taskYield_endless (h : s.TaskList ts) (hc : s.currentTaskTs ∈ ts)
    (hr : ∀ t ∈ ts, s.running t = false) (fuel : Nat) : taskYield fuel s = .error .endless := by
  have hh : ∀ t ∈ ts, ∀ halts, taskYieldFrom s fuel t halts = .error .endless := by
    induction fuel with
    | zero => exact fun _ _ _ => rfl
    | succ fuel ih =>
      intro t ht halts
      obtain ⟨u, l, hl⟩ := List.exists_cons_of_ne_nil
        (List.ne_nil_of_mem ((after_perm ts t).mem_iff.mpr ht))
      have hnext : nextTaskStruct s t = u := by
        have hchain := h.chain ht
        rw [hl, List.isChain_cons_cons] at hchain
        exact hchain.1
      have hu : u ∈ ts := (after_perm ts t).subset (hl ▸ List.mem_cons_self)
      have hu' : s.taskState u ≠ tsRunning := by simpa [running] using hr u hu
      simp only [taskYieldFrom, hnext, hu', ne_eq, not_false_eq_true, if_true]
      exact ih u hu _
  rw [taskYield, hh _ hc]
  rfl

/-- What may change between two yields. -/
structure SameTasks (ts : List U64) (s s' : Scheduler) : Prop where
  currentTaskTs : s'.currentTaskTs = s.currentTaskTs
  list : s'.TaskList ts
  state : ∀ t ∈ ts, s'.taskState t = s.taskState t

/-- Consecutive yields, with the tasks that they switch to. -/
inductive YieldRun (ts : List U64) : Scheduler → List U64 → Scheduler → Prop where
  | nil (s : Scheduler) : YieldRun ts s [] s
  | cons {fuel : Nat} {s s₁ s₂ s₃ : Scheduler} {switched : List U64} :
      SameTasks ts s s₁ → taskYield fuel s₁ = .ok s₂ → YieldRun ts s₂ switched s₃ →
      YieldRun ts s (s₂.currentTaskTs :: switched) s₃

theorem SameTasks.running_eq (h : SameTasks ts s s') {t : U64} (ht : t ∈ ts) :
    s'.running t = s.running t := by
  simp [running, h.state t ht]

/-- A yield in a state with the same tasks switches as the search says. -/
theorem SameTasks.yield {fuel : Nat} {s₁ s₂ : Scheduler} (h : SameTasks ts s s₁)
    (hc : s.currentTaskTs ∈ ts) (hy : taskYield fuel s₁ = .ok s₂) :
    (after ts s.currentTaskTs).find? s.running = some s₂.currentTaskTs ∧ s₂.TaskList ts ∧
      ∀ t ∈ ts, s₂.taskState t = s.taskState t := by
  have hc' : s₁.currentTaskTs ∈ ts := h.currentTaskTs ▸ hc
  have hr : ∃ t ∈ ts, s₁.running t = true := by
    by_contra hh
    have hnone : ∀ t ∈ ts, s₁.running t = false := by simpa using hh
    rw [taskYield_endless h.list hc' hnone] at hy
    cases hy
  obtain ⟨t, ht⟩ := exists_find (c := s₁.currentTaskTs) hr
  have hm := taskYield_mono (n := ts.length) hy
  rw [taskYield_eq h.list hc' ht (Nat.le_add_left _ _)] at hm
  have hfind : (after ts s.currentTaskTs).find? s.running =
      (after ts s.currentTaskTs).find? s₁.running :=
    List.find?_congr fun a ha => (h.running_eq ((after_perm ts _).subset ha)).symm
  cases hm
  rw [hfind, ← h.currentTaskTs]
  exact ⟨ht, h.list, h.state⟩

theorem YieldRun.turns_eq {switched : List U64} (h : YieldRun ts s switched s')
    (hl : s.TaskList ts) (hc : s.currentTaskTs ∈ ts) :
    switched = turns s.running ts switched.length s.currentTaskTs := by
  induction h with
  | nil s => rfl
  | @cons fuel s s₁ s₂ s₃ switched hsame hy _ ih =>
    obtain ⟨hf, hl', hs⟩ := hsame.yield hc hy
    have hm := (after_of_find hl.nodup hf).1
    have hcongr : turns s₂.running ts switched.length s₂.currentTaskTs =
        turns s.running ts switched.length s₂.currentTaskTs :=
      turns_congr fun t ht => by simp [running, hs t ht]
    simp only [List.length_cons, turns, hf]
    exact congrArg (List.cons _) ((ih hl' hm).trans hcongr)

/-- A yield ends and switches to the next running task of the list, and as many
yields as there are running tasks switch once to each of them. -/
theorem task_yield_is_round_robin (s : Scheduler) (ts : List U64) (h : s.TaskList ts)
    (hc : s.currentTaskTs ∈ ts) :
    ((∃ t ∈ ts, s.running t = true) →
      ∃ t, (after ts s.currentTaskTs).find? s.running = some t ∧
        ∀ fuel, ts.length ≤ fuel → taskYield fuel s = .ok { s with
          currentTaskTs := t
          halts := if t = s.currentTaskTs then s.halts + 1 else s.halts }) ∧
    ∀ switched s', YieldRun ts s switched s' →
      switched.length = (ts.filter s.running).length →
      ∀ t, switched.count t = if t ∈ ts ∧ s.running t = true then 1 else 0 := by
  constructor
  · intro hr
    obtain ⟨t, ht⟩ := exists_find (c := s.currentTaskTs) hr
    exact ⟨t, ht, fun fuel hf => taskYield_eq h hc ht hf⟩
  · intro switched s' hrun hlen t
    have hperm := turns_perm (p := s.running) h.nodup s.currentTaskTs
    rw [← hlen, ← hrun.turns_eq h hc] at hperm
    rw [hperm.count_eq, (h.nodup.filter _).count]
    simp only [List.mem_filter]

/-- Two running tasks about a zombie, which is the current one. -/
def threeTasks : Scheduler where
  heads := listAddTail (listAddTail (listAddTail (initList (fun _ => ⟨0, 0⟩) 0x1000)
    (taskStructLe 0x2000) 0x1000) (taskStructLe 0x3000) 0x1000) (taskStructLe 0x4000) 0x1000
  taskState := fun t => if t = 0x3000 then tsZombie else tsRunning
  taskStructLh := 0x1000
  currentTaskTs := 0x3000
  halts := 0

theorem task_yield_is_round_robin_threeTasks :
    ∃ t, (after [0x2000, 0x3000, 0x4000] 0x3000).find? threeTasks.running = some t ∧
      ∀ fuel, 3 ≤ fuel → taskYield fuel threeTasks = .ok { threeTasks with
        currentTaskTs := t
        halts := if t = 0x3000 then 1 else 0 } :=
  (task_yield_is_round_robin threeTasks [0x2000, 0x3000, 0x4000] (by decide) (by decide)).1
    ⟨0x2000, by decide, by decide⟩

end Scheduler

end Persistos
