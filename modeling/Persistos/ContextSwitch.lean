import Persistos.Machine
import Mathlib.Logic.Relation

/-! Switching between tasks. A task that is off the CPU has the registers of its
own last call of `switch_to_task` on its kernel stack. -/

namespace Persistos

open Theory

/-- Size and alignment of the members of `struct task_struct`, in order. -/
def taskStructMembers : List (Nat × Nat) :=
  [(4, 4), (1, 1), (1, 1), (8, 8), (8, 8), (8, 8), (8, 8), (256, 1), (16, 8), (16, 8), (16, 8)]

/-- The offset of member `i`, where the members before the list end at `at`. -/
def memberOffset : List (Nat × Nat) → Nat → Nat → Nat
  | [], _, offset => offset
  | (size, align) :: rest, i, offset =>
    let start := (offset + align - 1) / align * align
    if i = 0 then start else memberOffset rest (i - 1) (start + size)

def kernelRspOffset : U64 := BitVec.ofNat 64 (memberOffset taskStructMembers 3 0)
def kernelEntryRspOffset : U64 := BitVec.ofNat 64 (memberOffset taskStructMembers 4 0)
def kernelStackPagesOffset : U64 := BitVec.ofNat 64 (memberOffset taskStructMembers 5 0)
def pml4PageOffset : U64 := BitVec.ofNat 64 (memberOffset taskStructMembers 6 0)

/-- The constant of the assembly file. -/
def taskStructKernelRspOffset : U64 := 8

/-- `ct_assert(offsetof(struct task_struct, kernel_rsp) == 8)` -/
theorem kernelRspOffset_eq : kernelRspOffset = taskStructKernelRspOffset := by decide

def kernelRsp (memory : ByteMemory) (task : U64) : U64 := load64 memory (task + kernelRspOffset)

def kernelEntryRsp (memory : ByteMemory) (task : U64) : U64 :=
  load64 memory (task + kernelEntryRspOffset)

def kernelStackPages (memory : ByteMemory) (task : U64) : U64 :=
  load64 memory (task + kernelStackPagesOffset)

def pml4Page (memory : ByteMemory) (task : U64) : U64 := load64 memory (task + pml4PageOffset)

/-- A call by the convention on the kernel stack of the current task. -/
def KernelCall (m m' : Machine) : Prop :=
  AbiCall (kernelStackPages m.memory m.currentTaskTs).toNat m m' ∧
    m'.currentTaskTs = m.currentTaskTs

def LoadCr3From (hhdmOffset : U64) (m m' : Machine) : Prop :=
  KernelCall m m' ∧ m'.cr3 = pml4Page m.memory (m.reg .rdi) - hhdmOffset ∧ m'.rsp0 = m.rsp0

def SetTssFor (m m' : Machine) : Prop :=
  KernelCall m m' ∧ m'.cr3 = m.cr3 ∧
    m'.rsp0Low = (kernelEntryRsp m.memory (m.reg .rdi)).setWidth 32 ∧
    m'.rsp0High = (kernelEntryRsp m.memory (m.reg .rdi) >>> 32).setWidth 32

/-- The C functions that the assembly routines call. -/
def kernelCalls (hhdmOffset : U64) (handler : Machine → Machine → Prop) :
    CFunction → Machine → Machine → Prop
  | .loadCr3From => LoadCr3From hhdmOffset
  | .setTssFor => SetTssFor
  | .hwInterruptHandler => handler

/-- The two functions where they need no stack of their own. -/
def kernelFunctions (hhdmOffset : U64) : CFunction → Machine → Machine
  | .loadCr3From, m => { m with cr3 := pml4Page m.memory (m.reg .rdi) - hhdmOffset }
  | .setTssFor, m =>
    { m with
      rsp0Low := (kernelEntryRsp m.memory (m.reg .rdi)).setWidth 32
      rsp0High := (kernelEntryRsp m.memory (m.reg .rdi) >>> 32).setWidth 32 }
  | .hwInterruptHandler, m => m

theorem kernelFunctions_calls (hhdmOffset : U64) (f : CFunction) (m : Machine) :
    kernelCalls hhdmOffset (fun m m' => m' = m) f m (kernelFunctions hhdmOffset f m) := by
  cases f with
  | loadCr3From => exact ⟨⟨⟨fun _ _ => rfl, fun _ _ => rfl⟩, rfl⟩, rfl, rfl⟩
  | setTssFor => exact ⟨⟨⟨fun _ _ => rfl, fun _ _ => rfl⟩, rfl⟩, rfl, rfl, rfl⟩
  | hwInterruptHandler => rfl

def switchToTask : List Instr :=
  [.push .rbp, .push .rbx, .push .r12, .push .r13, .push .r14, .push .r15,
   .mov .rdi .r12,
   .loadCurrentTaskTs .rbx,
   .store .rsp taskStructKernelRspOffset .rbx,
   .storeCurrentTaskTs .rdi,
   .load taskStructKernelRspOffset .rdi .rsp,
   .call .loadCr3From,
   .mov .r12 .rdi,
   .call .setTssFor,
   .pop .r15, .pop .r14, .pop .r13, .pop .r12, .pop .rbx, .pop .rbp,
   .ret]

/-- The registers in the order in which `switch_to_task` pops them. -/
def switchRegs : List Reg := [.r15, .r14, .r13, .r12, .rbx, .rbp]

/-- A call of `switch_to_task`: the address behind it and the registers as they
were there. -/
structure SwitchCall where
  rip : U64
  reg : Reg → U64

/-- The call that has just entered `switch_to_task`. -/
def Machine.switchCall (m : Machine) : SwitchCall := ⟨m.top, m.drop.reg⟩

/-- The words of a call on the stack. -/
def SwitchCall.words (c : SwitchCall) : List U64 := switchRegs.map c.reg ++ [c.rip]

/-- Memory once the caller's registers are saved. -/
def Machine.savedMemory (m : Machine) : ByteMemory :=
  store64 (m.pushes (switchRegs.reverse.map m.reg)).memory
    (m.currentTaskTs + taskStructKernelRspOffset)
    ((m.pushes (switchRegs.reverse.map m.reg)).reg .rsp)

/-- The state in which `switch_to_task` has left the old stack. -/
structure SwitchedOut (m m₁ : Machine) (task : U64) : Prop where
  memory : m₁.memory = m.savedMemory
  rsp : m₁.reg .rsp = kernelRsp m.savedMemory task
  rdi : m₁.reg .rdi = task
  r12 : m₁.reg .r12 = task
  currentTaskTs : m₁.currentTaskTs = task

variable {hhdmOffset : U64} {handler : Machine → Machine → Prop} {m m' : Machine}

theorem switchToTask_split : switchToTask =
    switchRegs.reverse.map .push ++ ([.mov .rdi .r12, .loadCurrentTaskTs .rbx,
      .store .rsp taskStructKernelRspOffset .rbx, .storeCurrentTaskTs .rdi,
      .load taskStructKernelRspOffset .rdi .rsp] ++
      ([.call .loadCr3From, .mov .r12 .rdi, .call .setTssFor] ++
        (switchRegs.map .pop ++ [.ret]))) := rfl

theorem switchedOut {calls : CFunction → Machine → Machine → Prop} {p m₁ : Machine}
    (hp : Exec calls (switchRegs.reverse.map .push) m p)
    (h : Exec calls [.mov .rdi .r12, .loadCurrentTaskTs .rbx,
      .store .rsp taskStructKernelRspOffset .rbx, .storeCurrentTaskTs .rdi,
      .load taskStructKernelRspOffset .rdi .rsp] p m₁) : SwitchedOut m m₁ (m.reg .rdi) := by
  have hp' := exec_push (by decide) hp
  have hrdi : p.reg .rdi = m.reg .rdi := by
    rw [hp', Machine.pushes_reg _ _ (by decide)]
  have hcur : p.currentTaskTs = m.currentTaskTs := by
    rw [hp', Machine.pushes_rest]
  obtain ⟨_, rfl, _, rfl, _, rfl, _, rfl, _, rfl, rfl⟩ := h
  have hmem : m.savedMemory =
      store64 p.memory (p.currentTaskTs + taskStructKernelRspOffset) (p.reg .rsp) := by
    rw [hcur, hp']
    rfl
  constructor
  · simp [Instr.run, Machine.setReg, hmem]
  · simp [Instr.run, Machine.setReg, hmem, kernelRsp, kernelRspOffset_eq, hrdi]
  · simp [Instr.run, Machine.setReg, hrdi]
  · simp [Instr.run, Machine.setReg, hrdi]
  · simp [Instr.run, Machine.setReg, hrdi]

theorem rsp0_of_halves (m : Machine) (v : U64) (hl : m.rsp0Low = v.setWidth 32)
    (hh : m.rsp0High = (v >>> 32).setWidth 32) : m.rsp0 = v := by
  apply BitVec.eq_of_toNat_eq
  have hv := v.isLt
  rw [Machine.rsp0, hl, hh, BitVec.toNat_append, BitVec.toNat_setWidth, BitVec.toNat_setWidth,
    shiftRight_toNat, ← Nat.shiftLeft_add_eq_or_of_lt (Nat.mod_lt _ (by decide)), Nat.shiftLeft_eq]
  omega

theorem AbiCall.load {low : Nat} {a : U64} (h : AbiCall low m m') (ha : a.toNat + 8 ≤ 2 ^ 64)
    (hout : a.toNat + 8 ≤ low ∨ (m.reg .rsp).toNat ≤ a.toNat) :
    load64 m'.memory a = load64 m.memory a :=
  load64_congr (fun x hl hr => h.memory x (by omega)) ha

/-- The structure of `task` lies outside the addresses from `lo` up to `hi`. -/
structure StructOutside (task : U64) (lo hi : Nat) : Prop where
  bound : task.toNat + 344 ≤ 2 ^ 64
  outside : task.toNat + 344 ≤ lo ∨ hi ≤ task.toNat

theorem field_toNat {task : U64} (offset : U64) (h : task.toNat + 344 ≤ 2 ^ 64)
    (ho : offset.toNat + 8 ≤ 344) : (task + offset).toNat = task.toNat + offset.toNat :=
  BitVec.toNat_add_of_lt (by omega)

theorem AbiCall.load_field {low : Nat} {task offset : U64} (h : AbiCall low m m')
    (hs : StructOutside task low (m.reg .rsp).toNat) (ho : offset.toNat + 8 ≤ 344) :
    load64 m'.memory (task + offset) = load64 m.memory (task + offset) := by
  have ht := field_toNat offset hs.bound ho
  have hb := hs.bound
  have hout := hs.outside
  exact h.load (by omega) (by omega)

/-- What the two calls on the new stack leave. -/
structure SwitchedIn (m₁ m₂ : Machine) (hhdmOffset task : U64) : Prop where
  abi : AbiCall (kernelStackPages m₁.memory task).toNat m₁ m₂
  currentTaskTs : m₂.currentTaskTs = task
  cr3 : m₂.cr3 = pml4Page m₂.memory task - hhdmOffset
  rsp0 : m₂.rsp0 = kernelEntryRsp m₂.memory task

theorem switchedIn {m₁ m₂ : Machine} {task : U64}
    (h : Exec (kernelCalls hhdmOffset handler)
      [.call .loadCr3From, .mov .r12 .rdi, .call .setTssFor] m₁ m₂)
    (hcur : m₁.currentTaskTs = task) (hrdi : m₁.reg .rdi = task) (hr12 : m₁.reg .r12 = task)
    (hs : StructOutside task (kernelStackPages m₁.memory task).toNat (m₁.reg .rsp).toNat) :
    SwitchedIn m₁ m₂ hhdmOffset task := by
  obtain ⟨a, ⟨⟨habi, hcur₁⟩, hcr3, -⟩, b, hmov, _, ⟨⟨habi', hcur₂⟩, hcr3', hlow, hhigh⟩, rfl⟩ := h
  obtain rfl : b = a.setReg .rdi (a.reg .r12) := hmov
  rw [hcur] at habi hcur₁
  have hpages : kernelStackPages a.memory task = kernelStackPages m₁.memory task :=
    habi.load_field hs (by decide)
  have hrsp : a.reg .rsp = m₁.reg .rsp := habi.reg .rsp (by decide)
  have htask : (a.setReg .rdi (a.reg .r12)).reg .rdi = task := by
    simpa [Machine.setReg] using (habi.reg .r12 (by decide)).trans hr12
  have hcur' : (a.setReg .rdi (a.reg .r12)).currentTaskTs = task := hcur₁
  rw [hcur'] at habi' hcur₂
  rw [htask] at hlow hhigh
  have hreg : ∀ r ∈ calleeSaved, (a.setReg .rdi (a.reg .r12)).reg r = a.reg r := by
    intro r hr
    exact Function.update_of_ne (ne_of_mem_of_not_mem hr (by decide)) _ _
  have hmem : (a.setReg .rdi (a.reg .r12)).memory = a.memory := rfl
  rw [hmem, hpages] at habi'
  have hboth : AbiCall (kernelStackPages m₁.memory task).toNat m₁ m₂ := by
    constructor
    · intro r hr
      rw [habi'.reg r hr, hreg r hr, habi.reg r hr]
    · intro x hx
      have hx' := habi'.memory x (by rwa [hreg .rsp (by decide), hrsp])
      rw [hx']
      exact habi.memory x hx
  have hs' : StructOutside task (kernelStackPages m₁.memory task).toNat
      ((a.setReg .rdi (a.reg .r12)).reg .rsp).toNat := by
    rwa [hreg .rsp (by decide), hrsp]
  constructor
  · exact hboth
  · exact hcur₂
  · have h1 : pml4Page m₂.memory task = pml4Page m₁.memory task := hboth.load_field hs (by decide)
    rw [hcr3', h1, ← hrdi]
    exact hcr3
  · have hentry : kernelEntryRsp m₂.memory task =
        kernelEntryRsp (a.setReg .rdi (a.reg .r12)).memory task := habi'.load_field hs' (by decide)
    rw [hentry]
    exact rsp0_of_halves m₂ _ hlow hhigh

/-- `task` runs again, behind its call `c`, and the CPU's tables are its own. -/
structure Resumed (m : Machine) (c : SwitchCall) (hhdmOffset task : U64) : Prop where
  rip : m.rip = c.rip
  reg : ∀ r ∈ calleeSaved, m.reg r = c.reg r
  currentTaskTs : m.currentTaskTs = task
  cr3 : m.cr3 = pml4Page m.memory task - hhdmOffset
  rsp0 : m.rsp0 = kernelEntryRsp m.memory task

/-- The words of the call `c` are at `sp`, on a stack from `lo` up to `hi`. -/
structure SavedAt (memory : ByteMemory) (sp : U64) (lo hi : Nat) (c : SwitchCall) : Prop where
  words : WordsAt memory sp c.words
  rsp : c.reg .rsp = sp + 56
  lower : lo ≤ sp.toNat
  upper : sp.toNat + 56 ≤ hi

theorem SavedAt.congr {memory memory' : ByteMemory} {sp : U64} {lo hi : Nat} {c : SwitchCall}
    (h : SavedAt memory sp lo hi c) (hs : SameOn memory memory' sp.toNat hi) (hb : hi ≤ 2 ^ 64) :
    SavedAt memory' sp lo hi c := by
  have hu := h.upper
  have hlen : c.words.length = 7 := rfl
  exact ⟨h.words.congr (by rw [hlen]; exact hs.mono (Nat.le_refl _) hu) (by rw [hlen]; omega),
    h.rsp, h.lower, h.upper⟩

theorem switchToTask_resumes {task : U64} {c : SwitchCall} {hi : Nat}
    (h : Exec (kernelCalls hhdmOffset handler) switchToTask m m') (htask : m.reg .rdi = task)
    (hc : SavedAt m.savedMemory (kernelRsp m.savedMemory task)
      (kernelStackPages m.savedMemory task).toNat hi c) (hb : hi ≤ 2 ^ 64)
    (hs : StructOutside task (kernelStackPages m.savedMemory task).toNat hi) :
    Resumed m' c hhdmOffset task ∧ ∀ x : U64,
      ¬((kernelStackPages m.savedMemory task).toNat ≤ x.toNat ∧
        x.toNat < (kernelRsp m.savedMemory task).toNat) → m'.memory x = m.savedMemory x := by
  rw [switchToTask_split] at h
  obtain ⟨p, hp, h⟩ := exec_append.mp h
  obtain ⟨m₁, hout, h⟩ := exec_append.mp h
  obtain ⟨m₂, hin, h⟩ := exec_append.mp h
  obtain ⟨m₃, hpop, _, hret, rfl⟩ := exec_append.mp h
  have h₁ := htask ▸ switchedOut hp hout
  have hu := hc.upper
  have hs₁ : StructOutside task (kernelStackPages m₁.memory task).toNat (m₁.reg .rsp).toNat := by
    have hso := hs.outside
    rw [h₁.memory, h₁.rsp]
    exact ⟨hs.bound, by omega⟩
  have h₂ := switchedIn hin h₁.currentTaskTs h₁.rdi h₁.r12 hs₁
  have habi := h₂.abi
  rw [h₁.memory] at habi
  have hmem : ∀ x : U64, ¬((kernelStackPages m.savedMemory task).toNat ≤ x.toNat ∧
      x.toNat < (kernelRsp m.savedMemory task).toNat) → m₂.memory x = m.savedMemory x := by
    intro x hx
    rw [habi.memory x (by rwa [h₁.rsp]), h₁.memory]
  have hsp₂ : m₂.reg .rsp = kernelRsp m.savedMemory task := by
    rw [habi.reg .rsp (by decide), h₁.rsp]
  have hsame : SameOn m.savedMemory m₂.memory (kernelRsp m.savedMemory task).toNat hi :=
    fun x hl _ => hmem x (by omega)
  have hc₂ := hc.congr hsame hb
  rw [← hsp₂] at hc₂
  obtain ⟨hrest, hrsp, hin₃, -⟩ := exec_pop (by decide) (by decide) hc₂.words hpop
  have hmem₃ : m₃.memory = m₂.memory := by rw [hrest]
  have htop : m₃.top = c.rip := by
    have hw := (wordsAt_append.mp hc₂.words).2.1
    rw [Machine.top, hmem₃, hrsp]
    exact hw
  obtain rfl : m' = { m₃.drop with rip := m₃.top } := hret
  refine ⟨?_, ?_⟩
  · constructor
    · exact htop
    · intro r hr
      by_cases hsp : r = .rsp
      · subst hsp
        rw [hc.rsp]
        simp only [Machine.drop, Machine.setReg, Function.update_self, hrsp, hsp₂]
        rw [BitVec.add_assoc]
        rfl
      · have hr' : r ∈ switchRegs := by
          revert hr hsp
          cases r <;> decide
        simp only [Machine.drop, Machine.setReg, Function.update_of_ne hsp]
        exact hin₃ r hr'
    · rw [hrest]
      exact h₂.currentTaskTs
    · rw [hrest]
      exact h₂.cr3
    · rw [hrest]
      exact h₂.rsp0
  · intro x hx
    have hx' := hmem x hx
    rw [← hmem₃] at hx'
    exact hx'

end Persistos
