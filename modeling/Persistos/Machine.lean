import Persistos.Word
import Persistos.Theory.ByteMemory

/-! The CPU as the assembly routines use it: registers, a stack in memory, and
calls of C functions, which keep to the calling convention. -/

namespace Persistos

open Theory

inductive Reg where
  | rax | rbx | rcx | rdx | rsi | rdi | rbp | rsp
  | r8 | r9 | r10 | r11 | r12 | r13 | r14 | r15
  deriving DecidableEq, Repr

/-- `currentTaskTs`, `rsp0Low` and `rsp0High` are the variable `current_task_ts` and
the fields of `tss`. `rip` is where the last `ret` or `iretq` went. -/
structure Machine where
  reg : Reg → U64
  rip : U64
  cs : U64
  rflags : U64
  ss : U64
  memory : ByteMemory
  cr3 : U64
  currentTaskTs : U64
  rsp0Low : U32
  rsp0High : U32

inductive CFunction where
  | loadCr3From
  | setTssFor
  | hwInterruptHandler
  deriving DecidableEq, Repr

inductive Instr where
  | push (r : Reg)
  | pop (r : Reg)
  | mov (source target : Reg)
  | movImm (value : U64) (target : Reg)
  | load (offset : U64) (base target : Reg)
  | store (source : Reg) (offset : U64) (base : Reg)
  | loadCurrentTaskTs (target : Reg)
  | storeCurrentTaskTs (source : Reg)
  | call (f : CFunction)
  | ret
  | iretq
  deriving DecidableEq, Repr

namespace Machine

def setReg (m : Machine) (r : Reg) (v : U64) : Machine :=
  { m with reg := Function.update m.reg r v }

theorem setReg_self (m : Machine) (r : Reg) (v : U64) : (m.setReg r v).reg r = v := by
  simp [setReg]

theorem setReg_of_ne (m : Machine) {r r' : Reg} (v : U64) (h : r' ≠ r) :
    (m.setReg r v).reg r' = m.reg r' := Function.update_of_ne h _ _

/-- The word at the top of the stack. -/
def top (m : Machine) : U64 := load64 m.memory (m.reg .rsp)

def push (m : Machine) (v : U64) : Machine :=
  { m with
    reg := Function.update m.reg .rsp (m.reg .rsp - 8)
    memory := store64 m.memory (m.reg .rsp - 8) v }

/-- The stack without its top word. -/
def drop (m : Machine) : Machine := m.setReg .rsp (m.reg .rsp + 8)

/-- `iretq`: the words `rip`, `cs`, `rflags`, `rsp` and `ss` from the stack. -/
def iretq (m : Machine) : Machine :=
  let sp := m.reg .rsp
  { m with
    rip := load64 m.memory sp
    cs := load64 m.memory (sp + 8)
    rflags := load64 m.memory (sp + 16)
    reg := Function.update m.reg .rsp (load64 m.memory (sp + 24))
    ss := load64 m.memory (sp + 32) }

/-- `TSS.rsp0` -/
def rsp0 (m : Machine) : U64 := m.rsp0High ++ m.rsp0Low

end Machine

/-- What one instruction does, where the calls are functions. -/
def Instr.run (functions : CFunction → Machine → Machine) : Instr → Machine → Machine
  | .push r, m => m.push (m.reg r)
  | .pop r, m => m.drop.setReg r m.top
  | .mov source target, m => m.setReg target (m.reg source)
  | .movImm value target, m => m.setReg target value
  | .load offset base target, m => m.setReg target (load64 m.memory (m.reg base + offset))
  | .store source offset base, m =>
    { m with memory := store64 m.memory (m.reg base + offset) (m.reg source) }
  | .loadCurrentTaskTs target, m => m.setReg target m.currentTaskTs
  | .storeCurrentTaskTs source, m => { m with currentTaskTs := m.reg source }
  | .call f, m => functions f m
  | .ret, m => { m.drop with rip := m.top }
  | .iretq, m => m.iretq

/-- One instruction, where `calls` says what a call may do. -/
def Instr.Step (calls : CFunction → Machine → Machine → Prop) : Instr → Machine → Machine → Prop
  | .call f, m, m' => calls f m m'
  | i, m, m' => m' = i.run (fun _ m => m) m

def Exec (calls : CFunction → Machine → Machine → Prop) : List Instr → Machine → Machine → Prop
  | [], m, m' => m' = m
  | i :: rest, m, m' => ∃ m₁, i.Step calls m m₁ ∧ Exec calls rest m₁ m'

def calleeSaved : List Reg := [.rbx, .rbp, .rsp, .r12, .r13, .r14, .r15]

/-- A call by the calling convention, on a stack that ends at `low`: it keeps the
saved registers and the memory other than the free part of the stack. -/
structure AbiCall (low : Nat) (m m' : Machine) : Prop where
  reg : ∀ r ∈ calleeSaved, m'.reg r = m.reg r
  memory : ∀ x : U64, ¬(low ≤ x.toNat ∧ x.toNat < (m.reg .rsp).toNat) → m'.memory x = m.memory x

variable {calls : CFunction → Machine → Machine → Prop} {m m' : Machine}

theorem exec_append {p q : List Instr} :
    Exec calls (p ++ q) m m' ↔ ∃ m₁, Exec calls p m m₁ ∧ Exec calls q m₁ m' := by
  induction p generalizing m with
  | nil => simp [Exec]
  | cons i p ih =>
    simp only [List.cons_append, Exec, ih]
    constructor
    · intro ⟨m₁, hi, m₂, hp, hq⟩
      exact ⟨m₂, ⟨m₁, hi, hp⟩, hq⟩
    · intro ⟨m₂, ⟨m₁, hi, hp⟩, hq⟩
      exact ⟨m₁, hi, m₂, hp, hq⟩

/-- Functions that do what calls may do give a run. -/
theorem exec_run {functions : CFunction → Machine → Machine} {p : List Instr}
    (h : ∀ f, .call f ∈ p → ∀ m, calls f m (functions f m)) (m : Machine) :
    Exec calls p m (p.foldl (fun m i => i.run functions m) m) := by
  induction p generalizing m with
  | nil => rfl
  | cons i p ih =>
    refine ⟨i.run functions m, ?_, ih (fun f hf => h f (List.mem_cons_of_mem _ hf)) _⟩
    cases i with
    | call f => exact h f List.mem_cons_self m
    | _ => rfl

/-- What instructions without calls do. -/
def runCallFree (p : List Instr) (m : Machine) : Machine :=
  p.foldl (fun m i => i.run (fun _ m => m) m) m

theorem exec_callFree {p : List Instr} (h : ∀ f, .call f ∉ p) (m : Machine) :
    Exec calls p m (runCallFree p m) :=
  exec_run (fun f hf => absurd hf (h f)) m

namespace Machine

/-- The values are pushed in the order of the list. -/
def pushes (m : Machine) : List U64 → Machine
  | [] => m
  | v :: vs => (m.push v).pushes vs

theorem pushes_reg (m : Machine) (vs : List U64) {r : Reg} (hr : r ≠ .rsp) :
    (m.pushes vs).reg r = m.reg r := by
  induction vs generalizing m with
  | nil => rfl
  | cons v vs ih =>
    rw [pushes, ih]
    exact Function.update_of_ne hr _ _

theorem pushes_rest (m : Machine) (vs : List U64) :
    m.pushes vs = { m with reg := (m.pushes vs).reg, memory := (m.pushes vs).memory } := by
  induction vs generalizing m with
  | nil => rfl
  | cons v vs ih =>
    rw [pushes, ih]
    rfl

@[simp] theorem push_rsp (m : Machine) (v : U64) : (m.push v).reg .rsp = m.reg .rsp - 8 := by
  simp [push]

@[simp] theorem push_memory_eq (m : Machine) (v : U64) :
    (m.push v).memory = store64 m.memory (m.reg .rsp - 8) v := rfl

theorem push_rsp_toNat (m : Machine) (v : U64) (h : 8 ≤ (m.reg .rsp).toNat) :
    ((m.push v).reg .rsp).toNat = (m.reg .rsp).toNat - 8 := by
  rw [push_rsp, toNat_sub_eight h]

theorem push_wordsAt {ws : List U64} (v : U64) (h : 8 ≤ (m.reg .rsp).toNat)
    (hw : WordsAt m.memory (m.reg .rsp) ws) (hb : (m.reg .rsp).toNat + 8 * ws.length ≤ 2 ^ 64) :
    WordsAt (m.push v).memory ((m.push v).reg .rsp) (v :: ws) := by
  rw [push_rsp, push_memory_eq]
  exact hw.push h hb

theorem push_memory (m : Machine) (v : U64) {x : U64} (h : 8 ≤ (m.reg .rsp).toNat)
    (hx : x.toNat < (m.reg .rsp).toNat - 8 ∨ (m.reg .rsp).toNat ≤ x.toNat) :
    (m.push v).memory x = m.memory x := by
  have hsub := toNat_sub_eight h
  have hlt := (m.reg .rsp).isLt
  rw [push_memory_eq, store64_outside (by omega) (by omega)]

theorem pushes_rsp (m : Machine) (vs : List U64) (h : 8 * vs.length ≤ (m.reg .rsp).toNat) :
    ((m.pushes vs).reg .rsp).toNat = (m.reg .rsp).toNat - 8 * vs.length := by
  induction vs generalizing m with
  | nil => rfl
  | cons v vs ih =>
    rw [List.length_cons] at h ⊢
    have hsub := push_rsp_toNat m v (by omega)
    rw [pushes, ih (m.push v) (by omega), hsub]
    omega

theorem pushes_wordsAt (m : Machine) (vs : List U64) {ws : List U64}
    (h : 8 * vs.length ≤ (m.reg .rsp).toNat) (hw : WordsAt m.memory (m.reg .rsp) ws)
    (hb : (m.reg .rsp).toNat + 8 * ws.length ≤ 2 ^ 64) :
    WordsAt (m.pushes vs).memory ((m.pushes vs).reg .rsp) (vs.reverse ++ ws) := by
  induction vs generalizing m ws with
  | nil => exact hw
  | cons v vs ih =>
    rw [List.length_cons] at h
    have hsub := push_rsp_toNat m v (by omega)
    have hpush := push_wordsAt v (by omega) hw hb
    have hb' : ((m.push v).reg .rsp).toNat + 8 * (v :: ws).length ≤ 2 ^ 64 := by
      rw [hsub, List.length_cons]
      omega
    rw [pushes, List.reverse_cons, List.append_assoc]
    exact ih (m.push v) (by omega) hpush hb'

/-- Pushing writes below the stack pointer only. -/
theorem pushes_memory (m : Machine) (vs : List U64) {x : U64}
    (h : 8 * vs.length ≤ (m.reg .rsp).toNat)
    (hx : x.toNat < (m.reg .rsp).toNat - 8 * vs.length ∨ (m.reg .rsp).toNat ≤ x.toNat) :
    (m.pushes vs).memory x = m.memory x := by
  induction vs generalizing m with
  | nil => rfl
  | cons v vs ih =>
    rw [List.length_cons] at h hx
    have hsub := push_rsp_toNat m v (by omega)
    rw [pushes, ih (m.push v) (by omega) (by omega), push_memory m v (by omega) (by omega)]

end Machine

theorem exec_push {rs : List Reg} (hr : Reg.rsp ∉ rs) (h : Exec calls (rs.map .push) m m') :
    m' = m.pushes (rs.map m.reg) := by
  induction rs generalizing m with
  | nil => exact h
  | cons r rs ih =>
    simp only [List.mem_cons, not_or] at hr
    obtain ⟨m₁, hpush, hm⟩ := h
    obtain rfl : m₁ = m.push (m.reg r) := hpush
    have hsame : rs.map (m.push (m.reg r)).reg = rs.map m.reg := by
      apply List.map_congr_left
      intro a ha
      exact Function.update_of_ne (ne_of_mem_of_not_mem ha hr.2) _ _
    rw [ih hr.2 hm, hsame]
    rfl

theorem exec_pop_memory {rs : List Reg} (hr : Reg.rsp ∉ rs) (h : Exec calls (rs.map .pop) m m') :
    m'.memory = m.memory ∧ m'.reg .rsp = m.reg .rsp + BitVec.ofNat 64 (8 * rs.length) := by
  induction rs generalizing m with
  | nil =>
    obtain rfl : m' = m := h
    simp
  | cons r rs ih =>
    simp only [List.mem_cons, not_or] at hr
    obtain ⟨m₁, hpop, hm⟩ := h
    obtain rfl : m₁ = m.drop.setReg r m.top := hpop
    have hsp : (m.drop.setReg r m.top).reg .rsp = m.reg .rsp + 8 := by
      simp [Machine.drop, Machine.setReg, hr.1]
    obtain ⟨hmem, hrsp⟩ := ih hr.2 hm
    refine ⟨hmem, ?_⟩
    rw [hrsp, hsp, List.length_cons, BitVec.add_assoc, Nat.mul_add, Nat.add_comm (8 * _)]
    simp [BitVec.ofNat_add]

/-- Popping takes the words of the stack into the registers one after the other. -/
theorem exec_pop {rs : List Reg} {f : Reg → U64} {ws : List U64} (hr : Reg.rsp ∉ rs)
    (hn : rs.Nodup) (hw : WordsAt m.memory (m.reg .rsp) (rs.map f ++ ws))
    (h : Exec calls (rs.map .pop) m m') :
    m' = { m with reg := m'.reg } ∧
      m'.reg .rsp = m.reg .rsp + BitVec.ofNat 64 (8 * rs.length) ∧
      (∀ r ∈ rs, m'.reg r = f r) ∧ ∀ r ∉ rs, r ≠ .rsp → m'.reg r = m.reg r := by
  induction rs generalizing m with
  | nil =>
    obtain rfl : m' = m := h
    simp
  | cons r rs ih =>
    simp only [List.mem_cons, not_or] at hr
    obtain ⟨hnr, hn⟩ := List.nodup_cons.mp hn
    obtain ⟨m₁, hpop, hm⟩ := h
    obtain rfl : m₁ = m.drop.setReg r m.top := hpop
    have hsp : (m.drop.setReg r m.top).reg .rsp = m.reg .rsp + 8 := by
      simp [Machine.drop, Machine.setReg, hr.1]
    have htop : m.top = f r := hw.1
    obtain ⟨hrest, hrsp, hin, hout⟩ := ih hr.2 hn (by rw [hsp]; exact hw.2) hm
    refine ⟨?_, ?_, ?_, ?_⟩
    · rw [hrest]
      rfl
    · rw [hrsp, hsp, List.length_cons, BitVec.add_assoc, Nat.mul_add, Nat.add_comm (8 * _)]
      simp [BitVec.ofNat_add]
    · intro a ha
      rcases List.mem_cons.mp ha with rfl | ha
      · rw [hout a hnr (fun hh => hr.1 hh.symm)]
        simp [Machine.setReg, htop]
      · exact hin a ha
    · intro a ha hsp'
      simp only [List.mem_cons, not_or] at ha
      rw [hout a ha.2 hsp']
      simp [Machine.drop, Machine.setReg, ha.1, hsp']

end Persistos
