import Persistos.ContextSwitch

/-! Runs of the CPU among tasks with kernel stacks of their own. Whatever the
order of the switches, a task finds its own last call again. -/

namespace Persistos

open Theory

/-- Tasks whose kernel stacks and structures do not overlap. The stack of `t` has
the addresses from `low t` up to `top t`. -/
structure KernelStacks where
  task : U64 → Prop
  low : U64 → Nat
  top : U64 → Nat
  top_le : ∀ t, task t → top t ≤ 2 ^ 64
  structOutside : ∀ t u, task t → task u → StructOutside t (low u) (top u)
  stacksApart : ∀ t u, task t → task u → t ≠ u → top t ≤ low u ∨ top u ≤ low t
  structsApart : ∀ t u, task t → task u → t ≠ u → t.toNat + 344 ≤ u.toNat ∨ u.toNat + 344 ≤ t.toNat

/-- `lastCall` is the last call of `switch_to_task` that a task has made. For a
task that has made none it is the call that the stack built by its creator shows. -/
structure SwitchState where
  machine : Machine
  lastCall : U64 → Option SwitchCall

namespace SwitchState

def current (s : SwitchState) : U64 := s.machine.currentTaskTs

def sp (s : SwitchState) : Nat := (s.machine.reg .rsp).toNat

/-- The tasks that are on the CPU or have been. -/
def Live (s : SwitchState) (t : U64) : Prop := t = s.current ∨ s.lastCall t ≠ none

end SwitchState

/-- What the current task may do to memory between two calls. -/
structure RunsAs (L : KernelStacks) (s : SwitchState) (m' : Machine) : Prop where
  current : m'.currentTaskTs = s.current
  pages : ∀ t, L.task t → s.Live t →
    kernelStackPages m'.memory t = kernelStackPages s.machine.memory t
  rsp : ∀ t, L.task t → t ≠ s.current → s.lastCall t ≠ none →
    kernelRsp m'.memory t = kernelRsp s.machine.memory t
  stack : ∀ t, L.task t → t ≠ s.current → s.lastCall t ≠ none →
    SameOn s.machine.memory m'.memory (L.low t) (L.top t)

/-- The current task calls `switch_to_task(task)` and the routine has returned. -/
structure SwitchStep (L : KernelStacks) (hhdmOffset : U64) (handler : Machine → Machine → Prop)
    (s : SwitchState) (task : U64) (s' : SwitchState) : Prop where
  isTask : L.task task
  live : s.Live task
  rdi : s.machine.reg .rdi = task
  lower : L.low s.current + 48 ≤ s.sp
  upper : s.sp + 8 ≤ L.top s.current
  exec : Exec (kernelCalls hhdmOffset handler) switchToTask s.machine s'.machine
  lastCall : s'.lastCall = Function.update s.lastCall s.current (some s.machine.switchCall)

inductive ContextStep (L : KernelStacks) (hhdmOffset : U64)
    (handler : Machine → Machine → Prop) : SwitchState → SwitchState → Prop where
  | run {s : SwitchState} {m' : Machine} :
      RunsAs L s m' → ContextStep L hhdmOffset handler s ⟨m', s.lastCall⟩
  | create {s : SwitchState} {t : U64} {c : SwitchCall} :
      L.task t → ¬s.Live t → (kernelStackPages s.machine.memory t).toNat = L.low t →
      SavedAt s.machine.memory (kernelRsp s.machine.memory t) (L.low t) (L.top t) c →
      ContextStep L hhdmOffset handler s ⟨s.machine, Function.update s.lastCall t (some c)⟩
  | switch {s s' : SwitchState} {t : U64} :
      SwitchStep L hhdmOffset handler s t s' → ContextStep L hhdmOffset handler s s'

/-- The kernel runs as a task that has not called `switch_to_task`. -/
structure ContextStart (L : KernelStacks) (s : SwitchState) : Prop where
  current : L.task s.current
  pages : (kernelStackPages s.machine.memory s.current).toNat = L.low s.current
  lastCall : ∀ t, s.lastCall t = none

structure ContextInv (L : KernelStacks) (s : SwitchState) : Prop where
  current : L.task s.current
  pages : ∀ t, L.task t → s.Live t → (kernelStackPages s.machine.memory t).toNat = L.low t
  task : ∀ t, s.lastCall t ≠ none → L.task t
  saved : ∀ t c, t ≠ s.current → s.lastCall t = some c →
    SavedAt s.machine.memory (kernelRsp s.machine.memory t) (L.low t) (L.top t) c

variable {L : KernelStacks} {hhdmOffset : U64} {handler : Machine → Machine → Prop}
  {s s' : SwitchState} {task : U64}

theorem ContextStart.inv (h : ContextStart L s) : ContextInv L s := by
  constructor
  · exact h.current
  · intro t _ hl
    rcases hl with rfl | hl
    · exact h.pages
    · exact absurd (h.lastCall t) hl
  · intro t hl
    exact absurd (h.lastCall t) hl
  · intro t c _ hc
    rw [h.lastCall t] at hc
    cases hc

/-- Saving the registers of the caller writes its stack and its `kernel_rsp`. -/
theorem savedMemory_outside {m : Machine} {x : U64} (hb : m.currentTaskTs.toNat + 344 ≤ 2 ^ 64)
    (h48 : 48 ≤ (m.reg .rsp).toNat)
    (hs : x.toNat < (m.reg .rsp).toNat - 48 ∨ (m.reg .rsp).toNat ≤ x.toNat)
    (ht : x.toNat < m.currentTaskTs.toNat + 8 ∨ m.currentTaskTs.toNat + 16 ≤ x.toNat) :
    m.savedMemory x = m.memory x := by
  have hf := field_toNat taskStructKernelRspOffset hb (by decide)
  have h8 : taskStructKernelRspOffset.toNat = 8 := by decide
  have hlen : (switchRegs.reverse.map m.reg).length = 6 := rfl
  rw [Machine.savedMemory, store64_outside (by omega) (by omega),
    Machine.pushes_memory _ _ (by omega) (by omega)]

/-- The writes of `savedMemory` stay off a region that is apart from the stack and
the structure of the caller. -/
theorem SwitchStep.savedMemory_same (h : SwitchStep L hhdmOffset handler s task s')
    (hi : ContextInv L s) {lo top : Nat}
    (hs : top ≤ L.low s.current ∨ L.top s.current ≤ lo)
    (ht : top ≤ s.current.toNat + 8 ∨ s.current.toNat + 16 ≤ lo) :
    SameOn s.machine.memory s.machine.savedMemory lo top := by
  have hl := h.lower
  have hu := h.upper
  have hb := (L.structOutside _ _ hi.current hi.current).bound
  intro x hx hx'
  have hsp : s.sp = (s.machine.reg .rsp).toNat := rfl
  have hcur : s.current.toNat = s.machine.currentTaskTs.toNat := rfl
  exact savedMemory_outside hb (by omega) (by omega) (by omega)

/-- The field at `offset` of a task other than the kernel stack pointer of the caller. -/
theorem SwitchStep.savedMemory_field (h : SwitchStep L hhdmOffset handler s task s')
    (hi : ContextInv L s) {t offset : U64} (ht : L.task t) (ho : offset.toNat + 8 ≤ 344)
    (hne : t ≠ s.current ∨ 16 ≤ offset.toNat) :
    load64 s.machine.savedMemory (t + offset) = load64 s.machine.memory (t + offset) := by
  have hb := (L.structOutside t t ht ht).bound
  have hf := field_toNat offset hb ho
  have hout := (L.structOutside t s.current ht hi.current).outside
  refine load64_congr (h.savedMemory_same hi ?_ ?_) (by omega)
  · omega
  · rcases hne with hne | hne
    · have hap := L.structsApart t s.current ht hi.current hne
      omega
    · by_cases hc : t = s.current
      · subst hc
        omega
      · have hap := L.structsApart t s.current ht hi.current hc
        omega

/-- The caller finds its own call on its stack. -/
theorem SwitchStep.saved_caller (h : SwitchStep L hhdmOffset handler s task s')
    (hi : ContextInv L s) :
    SavedAt s.machine.savedMemory (kernelRsp s.machine.savedMemory s.current) (L.low s.current)
      (L.top s.current) s.machine.switchCall := by
  have hl := h.lower
  have hu := h.upper
  have hso := L.structOutside _ _ hi.current hi.current
  have hb := hso.bound
  have hout := hso.outside
  have htop := L.top_le _ hi.current
  have hsp : s.sp = (s.machine.reg .rsp).toNat := rfl
  have hf := field_toNat taskStructKernelRspOffset hb (by decide)
  have h8 : taskStructKernelRspOffset.toNat = 8 := by decide
  have hlen : (switchRegs.reverse.map s.machine.reg).length = 6 := rfl
  have hrsp := s.machine.pushes_rsp (switchRegs.reverse.map s.machine.reg) (by omega)
  have htopw : WordsAt s.machine.memory (s.machine.reg .rsp) [s.machine.top] := ⟨rfl, trivial⟩
  have hwords := s.machine.pushes_wordsAt (switchRegs.reverse.map s.machine.reg) (by omega) htopw
    (by change _ + 8 ≤ _; omega)
  rw [← List.map_reverse, List.reverse_reverse] at hwords
  have hk : kernelRsp s.machine.savedMemory s.current =
      (s.machine.pushes (switchRegs.reverse.map s.machine.reg)).reg .rsp := by
    rw [kernelRsp, kernelRspOffset_eq]
    exact load64_store64 (by change (s.current + _).toNat + 8 ≤ _; omega)
  rw [hk]
  constructor
  · refine hwords.congr (store64_same ?_ ?_) ?_
    · change (s.current + _).toNat + 8 ≤ _
      omega
    · change _ ≤ (s.current + _).toNat ∨ (s.current + _).toNat + 8 ≤ _
      have hlen7 : (switchRegs.map s.machine.reg ++ [s.machine.top]).length = 7 := rfl
      omega
    · change _ + 8 * 7 ≤ _
      omega
  · have hpush : (s.machine.pushes (switchRegs.reverse.map s.machine.reg)).reg .rsp =
        s.machine.reg .rsp - 8 - 8 - 8 - 8 - 8 - 8 := by
      simp [switchRegs, Machine.pushes]
    rw [hpush]
    change s.machine.drop.reg .rsp = _
    simp only [Machine.drop, Machine.setReg, Function.update_self]
    bv_omega
  · omega
  · omega

/-- Before the stack changes, every live task has its last call on its stack, the
caller the present one. -/
theorem SwitchStep.saved (h : SwitchStep L hhdmOffset handler s task s') (hi : ContextInv L s)
    {t : U64} {c : SwitchCall} (hc : s'.lastCall t = some c) (ht : t = s.current ∨ L.task t) :
    SavedAt s.machine.savedMemory (kernelRsp s.machine.savedMemory t) (L.low t) (L.top t) c := by
  rw [h.lastCall] at hc
  by_cases hcur : t = s.current
  · subst hcur
    rw [Function.update_self] at hc
    cases hc
    exact h.saved_caller hi
  · have htask := ht.resolve_left hcur
    rw [Function.update_of_ne hcur] at hc
    have hsaved := hi.saved t c hcur hc
    have hk : kernelRsp s.machine.savedMemory t = kernelRsp s.machine.memory t :=
      h.savedMemory_field hi htask (by decide) (Or.inl hcur)
    have hap := L.stacksApart t s.current htask hi.current hcur
    have hout := (L.structOutside s.current t hi.current htask).outside
    have hlo := hsaved.lower
    rw [hk]
    exact hsaved.congr (h.savedMemory_same hi (by omega) (by omega)) (L.top_le t htask)

theorem SwitchStep.pages (h : SwitchStep L hhdmOffset handler s task s') (hi : ContextInv L s)
    {t : U64} (ht : L.task t) (hl : s.Live t) :
    (kernelStackPages s.machine.savedMemory t).toNat = L.low t := by
  have hf : kernelStackPages s.machine.savedMemory t = kernelStackPages s.machine.memory t :=
    h.savedMemory_field hi ht (by decide) (Or.inr (by decide))
  rw [hf, hi.pages t ht hl]

theorem SwitchStep.lastCall_task (h : SwitchStep L hhdmOffset handler s task s') :
    ∃ c, s'.lastCall task = some c := by
  rw [h.lastCall]
  by_cases hcur : task = s.current
  · exact ⟨_, by rw [hcur, Function.update_self]⟩
  · rw [Function.update_of_ne hcur]
    exact Option.ne_none_iff_exists'.mp (h.live.resolve_left hcur)

/-- A switch resumes its target behind the target's last call, and writes no memory
but what saving the caller writes and the free part of the target's stack. -/
theorem SwitchStep.resumes (h : SwitchStep L hhdmOffset handler s task s')
    (hi : ContextInv L s) :
    ∃ c, s'.lastCall task = some c ∧ Resumed s'.machine c hhdmOffset task ∧
      SavedAt s.machine.savedMemory (kernelRsp s.machine.savedMemory task) (L.low task)
        (L.top task) c ∧
      ∀ x : U64, ¬(L.low task ≤ x.toNat ∧
        x.toNat < (kernelRsp s.machine.savedMemory task).toNat) →
        s'.machine.memory x = s.machine.savedMemory x := by
  obtain ⟨c, hc⟩ := h.lastCall_task
  have hsaved := h.saved hi hc (Or.inr h.isTask)
  have hpages := h.pages hi h.isTask h.live
  obtain ⟨hres, hmem⟩ := switchToTask_resumes h.exec h.rdi (hpages ▸ hsaved)
    (L.top_le task h.isTask) (hpages ▸ L.structOutside task task h.isTask h.isTask)
  exact ⟨c, hc, hres, hsaved, fun x hx => hmem x (by rwa [hpages])⟩

/-- The structure of any task keeps its fields once the caller's registers are saved. -/
theorem SwitchStep.field_eq (h : SwitchStep L hhdmOffset handler s task s')
    (hi : ContextInv L s) {t offset : U64} (ht : L.task t) (ho : offset.toNat + 8 ≤ 344) :
    load64 s'.machine.memory (t + offset) = load64 s.machine.savedMemory (t + offset) := by
  obtain ⟨_, -, -, hsaved, hmem⟩ := h.resumes hi
  have hso := L.structOutside t task ht h.isTask
  have hb := hso.bound
  have hout := hso.outside
  have hu := hsaved.upper
  have hf := field_toNat offset hb ho
  exact load64_congr (fun x hx hx' => hmem x (by omega)) (by omega)

/-- The stack of a task other than the caller and the target stays as it is. -/
theorem SwitchStep.stack_same (h : SwitchStep L hhdmOffset handler s task s')
    (hi : ContextInv L s) {t : U64} (ht : L.task t) (hne : t ≠ task) :
    SameOn s.machine.savedMemory s'.machine.memory (L.low t) (L.top t) := by
  obtain ⟨_, -, -, hsaved, hmem⟩ := h.resumes hi
  have hap := L.stacksApart t task ht h.isTask hne
  have hu := hsaved.upper
  exact fun x hx hx' => hmem x (by omega)

theorem SwitchStep.inv (h : SwitchStep L hhdmOffset handler s task s') (hi : ContextInv L s) :
    ContextInv L s' := by
  obtain ⟨c, hc, hres, -⟩ := h.resumes hi
  have hcur : s'.current = task := hres.currentTaskTs
  have hlive : ∀ t, s'.Live t → s.Live t := by
    intro t ht
    rcases ht with rfl | ht
    · exact hcur ▸ h.live
    · by_cases heq : t = s.current
      · exact Or.inl heq
      · rw [h.lastCall, Function.update_of_ne heq] at ht
        exact Or.inr ht
  have htask : ∀ t, s'.lastCall t ≠ none → L.task t := by
    intro t ht
    by_cases heq : t = s.current
    · exact heq ▸ hi.current
    · rw [h.lastCall, Function.update_of_ne heq] at ht
      exact hi.task t ht
  constructor
  · exact hcur ▸ h.isTask
  · intro t ht hl
    have hf : kernelStackPages s'.machine.memory t = kernelStackPages s.machine.savedMemory t :=
      h.field_eq hi ht (by decide)
    rw [hf, h.pages hi ht (hlive t hl)]
  · exact htask
  · intro t d hne hd
    have ht := htask t (by rw [hd]; exact Option.some_ne_none d)
    have hk : kernelRsp s'.machine.memory t = kernelRsp s.machine.savedMemory t :=
      h.field_eq hi ht (by decide)
    have hsaved := h.saved hi hd (Or.inr ht)
    have hlo := hsaved.lower
    rw [hk]
    exact hsaved.congr ((h.stack_same hi ht (hcur ▸ hne)).mono hlo (Nat.le_refl _)) (L.top_le t ht)

/-- A task that only changes registers. -/
theorem RunsAs.of_memory {m' : Machine} (hc : m'.currentTaskTs = s.current)
    (hm : m'.memory = s.machine.memory) : RunsAs L s m' := by
  constructor
  · exact hc
  · intro t _ _
    rw [hm]
  · intro t _ _ _
    rw [hm]
  · intro t _ _ _
    rw [hm]
    exact SameOn.refl _ _ _

theorem RunsAs.inv {m' : Machine} (h : RunsAs L s m') (hi : ContextInv L s) :
    ContextInv L ⟨m', s.lastCall⟩ := by
  have hcur : (SwitchState.mk m' s.lastCall).current = s.current := h.current
  constructor
  · exact hcur ▸ hi.current
  · intro t ht hl
    have hl' : s.Live t := hl.imp_left fun hh => hh.trans hcur
    change (kernelStackPages m'.memory t).toNat = _
    rw [h.pages t ht hl', hi.pages t ht hl']
  · exact hi.task
  · intro t c hne hc
    have hsome : s.lastCall t ≠ none := fun hn => by rw [hn] at hc; cases hc
    have ht := hi.task t hsome
    rw [hcur] at hne
    have hsaved := hi.saved t c hne hc
    have hlo := hsaved.lower
    change SavedAt m'.memory (kernelRsp m'.memory t) _ _ c
    rw [h.rsp t ht hne hsome]
    exact hsaved.congr ((h.stack t ht hne hsome).mono hlo (Nat.le_refl _)) (L.top_le t ht)

theorem ContextInv.create {t : U64} {c : SwitchCall} (hi : ContextInv L s) (ht : L.task t)
    (hp : (kernelStackPages s.machine.memory t).toNat = L.low t)
    (hs : SavedAt s.machine.memory (kernelRsp s.machine.memory t) (L.low t) (L.top t) c) :
    ContextInv L ⟨s.machine, Function.update s.lastCall t (some c)⟩ := by
  have hother (u : U64) (hu : u ≠ t) :
      Function.update s.lastCall t (some c) u = s.lastCall u := Function.update_of_ne hu _ _
  constructor
  · exact hi.current
  · intro u hu hl
    by_cases heq : u = t
    · exact heq ▸ hp
    · exact hi.pages u hu (hl.imp_right fun hh hn => hh ((hother u heq).trans hn))
  · intro u hu
    by_cases heq : u = t
    · exact heq ▸ ht
    · exact hi.task u fun hn => hu ((hother u heq).trans hn)
  · intro u d hu hd
    by_cases heq : u = t
    · subst heq
      have hcd : c = d := by simpa using hd
      exact hcd ▸ hs
    · exact hi.saved u d hu ((hother u heq).symm.trans hd)

theorem ContextStep.inv (h : ContextStep L hhdmOffset handler s s') (hi : ContextInv L s) :
    ContextInv L s' := by
  cases h with
  | switch h => exact h.inv hi
  | run h => exact h.inv hi
  | create ht _ hp hs => exact hi.create ht hp hs

theorem contextInv_run {s₀ : SwitchState} (h₀ : ContextStart L s₀)
    (h : Relation.ReflTransGen (ContextStep L hhdmOffset handler) s₀ s) : ContextInv L s := by
  induction h with
  | refl => exact h₀.inv
  | tail _ hstep ih => exact hstep.inv ih

/-- A task is off the CPU: its last call is `c`, and its stack and its stack pointer
are those in `memory`. -/
structure OffCpu (L : KernelStacks) (t : U64) (c : SwitchCall) (memory : ByteMemory)
    (s : SwitchState) : Prop where
  inv : ContextInv L s
  current : t ≠ s.current
  lastCall : s.lastCall t = some c
  stack : SameOn memory s.machine.memory (L.low t) (L.top t)
  rsp : kernelRsp s.machine.memory t = kernelRsp memory t

theorem OffCpu.isTask {t : U64} {c : SwitchCall} {memory : ByteMemory} (h : OffCpu L t c memory s) :
    L.task t := h.inv.task t fun hn => by have hh := h.lastCall; rw [hn] at hh; cases hh

/-- Saving the caller leaves a task that is off the CPU alone. -/
theorem OffCpu.saved {t : U64} {c : SwitchCall} {memory : ByteMemory}
    (h : OffCpu L t c memory s) (hs : SwitchStep L hhdmOffset handler s task s') :
    SameOn memory s.machine.savedMemory (L.low t) (L.top t) ∧
      kernelRsp s.machine.savedMemory t = kernelRsp memory t := by
  have hap := L.stacksApart t s.current h.isTask h.inv.current h.current
  have hout := (L.structOutside s.current t h.inv.current h.isTask).outside
  have hk : kernelRsp s.machine.savedMemory t = kernelRsp s.machine.memory t :=
    hs.savedMemory_field h.inv h.isTask (by decide) (Or.inl h.current)
  exact ⟨h.stack.trans (hs.savedMemory_same h.inv (by omega) (by omega)), hk.trans h.rsp⟩

theorem OffCpu.step {t : U64} {c : SwitchCall} {memory : ByteMemory} (h : OffCpu L t c memory s)
    (hs : ContextStep L hhdmOffset handler s s') (hne : t ≠ s'.current) :
    OffCpu L t c memory s' := by
  have hinv := hs.inv h.inv
  have hsome : s.lastCall t ≠ none := fun hn => by have hh := h.lastCall; rw [hn] at hh; cases hh
  cases hs with
  | run hr =>
    exact ⟨hinv, hne, h.lastCall, h.stack.trans (hr.stack t h.isTask h.current hsome),
      (hr.rsp t h.isTask h.current hsome).trans h.rsp⟩
  | @create u d hu hl hp hd =>
    have htu : t ≠ u := fun hh => hl (hh ▸ Or.inr hsome)
    exact ⟨hinv, hne, (Function.update_of_ne htu _ _).trans h.lastCall, h.stack, h.rsp⟩
  | @switch _ u hsw =>
    obtain ⟨_, -, hres, -⟩ := hsw.resumes h.inv
    have hne' : t ≠ u := fun hh => hne (hh.trans hres.currentTaskTs.symm)
    have hk : kernelRsp s'.machine.memory t = kernelRsp s.machine.savedMemory t :=
      hsw.field_eq h.inv h.isTask (by decide)
    obtain ⟨hstack, hrsp⟩ := h.saved hsw
    refine ⟨hinv, hne, ?_, hstack.trans (hsw.stack_same h.inv h.isTask hne'), hk.trans hrsp⟩
    rw [hsw.lastCall, Function.update_of_ne h.current, h.lastCall]

/-- Nothing happens to a task until a switch to it. -/
theorem OffCpu.run {t : U64} {c : SwitchCall} {memory : ByteMemory} (h : OffCpu L t c memory s)
    (hrun : Relation.ReflTransGen
      (fun a b => ContextStep L hhdmOffset handler a b ∧ t ≠ b.current) s s') :
    OffCpu L t c memory s' := by
  induction hrun with
  | refl => exact h
  | tail _ hstep ih => exact ih.step hstep.1 hstep.2

/-- In every run of switches among tasks with stacks of their own, a task that is
resumed is behind its own last call with the registers it had there, and the
current task, the page tables and the interrupt stack are its own. -/
theorem switch_to_task_resumes (L : KernelStacks) (hhdmOffset : U64)
    (handler : Machine → Machine → Prop) (s₀ s s' : SwitchState) (task : U64)
    (h₀ : ContextStart L s₀)
    (hrun : Relation.ReflTransGen (ContextStep L hhdmOffset handler) s₀ s)
    (h : SwitchStep L hhdmOffset handler s task s') :
    ∃ c, s'.lastCall task = some c ∧ s'.machine.rip = c.rip ∧
      (∀ r ∈ calleeSaved, s'.machine.reg r = c.reg r) ∧ s'.machine.currentTaskTs = task ∧
      s'.machine.cr3 = pml4Page s'.machine.memory task - hhdmOffset ∧
      s'.machine.rsp0 = kernelEntryRsp s'.machine.memory task := by
  obtain ⟨c, hc, hres, -⟩ := h.resumes (contextInv_run h₀ hrun)
  exact ⟨c, hc, hres.rip, hres.reg, hres.currentTaskTs, hres.cr3, hres.rsp0⟩

/-- Two tasks at `0x1000` and `0x2000`, the second one new. -/
def twoStacks : KernelStacks where
  task t := t = 0x1000 ∨ t = 0x2000
  low t := if t = 0x1000 then 0x10000 else 0x20000
  top t := if t = 0x1000 then 0x12000 else 0x22000
  top_le t ht := by rcases ht with rfl | rfl <;> decide
  structOutside t u ht hu := by
    rcases ht with rfl | rfl <;> rcases hu with rfl | rfl <;> exact ⟨by decide, by decide⟩
  stacksApart t u ht hu _ := by
    rcases ht with rfl | rfl <;> rcases hu with rfl | rfl <;> first | contradiction | decide
  structsApart t u ht hu _ := by
    rcases ht with rfl | rfl <;> rcases hu with rfl | rfl <;> first | contradiction | decide

def twoTasks : Machine where
  reg r := if r = .rsp then 0x11000 else if r = .rdi then 0x2000 else 0
  rip := 0
  cs := 0
  rflags := 0
  ss := 0
  memory := store64 (store64 (store64 (fun _ => 0) (0x1000 + kernelStackPagesOffset) 0x10000)
    (0x2000 + kernelStackPagesOffset) 0x20000) (0x2000 + kernelRspOffset) 0x21FC8
  cr3 := 0
  currentTaskTs := 0x1000
  rsp0Low := 0
  rsp0High := 0

def newCall : SwitchCall := ⟨0, fun r => if r = .rsp then 0x22000 else 0⟩

def afterTwoTasks : SwitchState :=
  ⟨switchToTask.foldl (fun m i => i.run (kernelFunctions 0) m) twoTasks,
    Function.update (Function.update (fun _ => none) 0x2000 (some newCall)) 0x1000
      (some twoTasks.switchCall)⟩

theorem switch_to_task_resumes_twoTasks :
    ∃ c, afterTwoTasks.lastCall 0x2000 = some c ∧ afterTwoTasks.machine.rip = c.rip ∧
      (∀ r ∈ calleeSaved, afterTwoTasks.machine.reg r = c.reg r) ∧
      afterTwoTasks.machine.currentTaskTs = 0x2000 ∧
      afterTwoTasks.machine.cr3 = pml4Page afterTwoTasks.machine.memory 0x2000 - 0 ∧
      afterTwoTasks.machine.rsp0 = kernelEntryRsp afterTwoTasks.machine.memory 0x2000 :=
  switch_to_task_resumes twoStacks 0 (fun m m' => m' = m) ⟨twoTasks, fun _ => none⟩
    ⟨twoTasks, Function.update (fun _ => none) 0x2000 (some newCall)⟩ afterTwoTasks 0x2000
    ⟨Or.inl rfl, by decide +kernel, fun _ => rfl⟩
    (.single (.create (Or.inr rfl) (by rintro (h | h) <;> simp_all [SwitchState.current, twoTasks])
      (by decide +kernel)
      ⟨by decide +kernel, by decide +kernel, by decide +kernel, by decide +kernel⟩))
    { isTask := Or.inr rfl
      live := Or.inr (by simp)
      rdi := rfl
      lower := by decide
      upper := by decide
      exec := exec_run (fun f _ m => kernelFunctions_calls 0 f m) _
      lastCall := rfl }

end Persistos
