import Persistos.ContextRuns

/-! The way of a forked child into user mode. FORK copies the interrupt frame of
the parent to the child's kernel stack, below it the words that
`switch_to_task` pops. -/

namespace Persistos

open Theory

def syscallFork : U64 := 6

/-- `IDT_SYSCALL_NUM_SAVED_REGISTERS` -/
def idtSyscallNumSavedRegisters : Nat := 14

/-- What the CPU does for `int 0x80` in user mode: it takes the stack of the TSS,
aligned to 16 bytes, and saves the user's state there. -/
def Machine.interrupt (m : Machine) (entry kernelCs : U64) : Machine :=
  { (m.setReg .rsp (m.rsp0 &&& ~~~15)).pushes [m.ss, m.reg .rsp, m.rflags, m.cs, m.rip] with
    rip := entry
    cs := kernelCs
    ss := 0
    rflags := m.rflags &&& ~~~0x200 }

def skipZeroRax : List Instr :=
  [.pop .r15, .pop .r14, .pop .r13, .pop .r12, .pop .r11, .pop .r10, .pop .r9, .pop .r8,
   .pop .rbp, .pop .rdi, .pop .rsi, .pop .rbx, .pop .rdx, .pop .rcx,
   .iretq]

theorem skipZeroRax_noCall (f : CFunction) : .call f ∉ skipZeroRax := by
  cases f <;> decide

def zeroRaxAndIret : List Instr := .movImm 0 .rax :: skipZeroRax

def handleInterrupt128 : List Instr :=
  [.push .rcx, .push .rdx, .push .rbx, .push .rsi, .push .rdi, .push .rbp, .push .r8, .push .r9,
   .push .r10, .push .r11, .push .r12, .push .r13, .push .r14, .push .r15,
   .movImm 128 .rdi,
   .mov .rsp .rsi,
   .load 0x48 .rsp .rdx,
   .load 0x50 .rsp .rcx,
   .load 0x60 .rsp .r8,
   .load 0x68 .rsp .r9,
   .call .hwInterruptHandler] ++ skipZeroRax

/-- `*--q = *--p`, `n` times. -/
def copyDown : Nat → ByteMemory → U64 → U64 → ByteMemory × U64 × U64
  | 0, memory, p, q => (memory, p, q)
  | n + 1, memory, p, q =>
    copyDown n (store64 memory (q - 8) (load64 memory (p - 8))) (p - 8) (q - 8)

/-- `*--q = *(interrupt_rsp + n - 1)`, and so on down to `interrupt_rsp`. -/
def copyRegisters (interruptRsp : U64) : Nat → ByteMemory → U64 → ByteMemory × U64
  | 0, memory, q => (memory, q)
  | n + 1, memory, q =>
    copyRegisters interruptRsp n
      (store64 memory (q - 8) (load64 memory (interruptRsp + BitVec.ofNat 64 (8 * n)))) (q - 8)

/-- The stack of the new process and its `kernel_rsp`. `label` is the address of
`zero_rax_and_iret`. -/
def forkStack (memory : ByteMemory) (parent child interruptRsp label : U64) : ByteMemory :=
  let (memory, p, q) := copyDown 5 memory (kernelEntryRsp memory parent)
    (kernelEntryRsp memory child)
  let (memory, q) := copyRegisters interruptRsp idtSyscallNumSavedRegisters memory q
  let memory := store64 memory (q - 8) label
  let q := q - 8
  let p := p - 8
  let (memory, _, q) := copyDown 6 memory p q
  store64 memory (child + kernelRspOffset) q

variable {memory : ByteMemory} {p q : U64}

theorem sub_words_succ (p : U64) (n : Nat) :
    p - 8 - BitVec.ofNat 64 (8 * n) = p - BitVec.ofNat 64 (8 * (n + 1)) := by
  bv_omega

theorem sub_words_add (p : U64) (n : Nat) :
    p - BitVec.ofNat 64 (8 * (n + 1)) + BitVec.ofNat 64 (8 * n) = p - 8 := by
  bv_omega

theorem sub_words_toNat {p : U64} {n : Nat} (h : 8 * n ≤ p.toNat) :
    (p - BitVec.ofNat 64 (8 * n)).toNat = p.toNat - 8 * n := by
  have hp := p.isLt
  rw [BitVec.toNat_sub, BitVec.toNat_ofNat]
  omega

/-- A stack of the words `ws` from `q` up to `top`, built in `memory` without other
writes. -/
structure Built (memory memory' : ByteMemory) (q : U64) (ws : List U64) (top : Nat) : Prop where
  words : WordsAt memory' q ws
  size : q.toNat + 8 * ws.length = top
  bound : top ≤ 2 ^ 64
  outside : ∀ x : U64, x.toNat < q.toNat ∨ top ≤ x.toNat → memory' x = memory x

variable {memory' : ByteMemory} {ws : List U64} {top n : Nat}

theorem Built.start (memory : ByteMemory) (q : U64) : Built memory memory q [] q.toNat :=
  ⟨trivial, rfl, Nat.le_of_lt q.isLt, fun _ _ => rfl⟩

theorem Built.push (h : Built memory memory' q ws top) (v : U64) (hq : 8 ≤ q.toNat) :
    Built memory (store64 memory' (q - 8) v) (q - 8) (v :: ws) top := by
  have hq8 := toNat_sub_eight hq
  have htop := h.size
  have hb := h.bound
  constructor
  · exact h.words.push hq (by omega)
  · rw [List.length_cons]
    omega
  · exact hb
  · intro x hx
    rw [store64_outside (by omega) (by omega), h.outside x (by omega)]

/-- The words below `p` are copied below `q`, where those from `q` on stay. -/
theorem Built.copyDown {src : List U64} (h : Built memory memory' q ws top) (hlen : src.length = n)
    (hp : 8 * n ≤ p.toNat) (hq : 8 * n ≤ q.toNat)
    (hap : p.toNat ≤ q.toNat - 8 * n ∨ top ≤ p.toNat - 8 * n)
    (hsrc : WordsAt memory (p - BitVec.ofNat 64 (8 * n)) src) :
    (copyDown n memory' p q).2 = (p - BitVec.ofNat 64 (8 * n), q - BitVec.ofNat 64 (8 * n)) ∧
      Built memory (copyDown n memory' p q).1 (q - BitVec.ofNat 64 (8 * n)) (src ++ ws) top := by
  induction n generalizing memory' p q ws src with
  | zero =>
    have hnil : src = [] := List.length_eq_zero_iff.mp hlen
    subst hnil
    simpa [Persistos.copyDown] using h
  | succ n ih =>
    obtain ⟨src, w, rfl⟩ := (List.eq_nil_or_concat src).resolve_left
      (fun hh => by rw [hh] at hlen; simp at hlen)
    rw [List.concat_eq_append, List.length_append] at hlen
    have hlen' : src.length = n := by simpa using hlen
    have hp8 := toNat_sub_eight (a := p) (by omega)
    have hq8 := toNat_sub_eight (a := q) (by omega)
    obtain ⟨hsrc, hw, -⟩ := wordsAt_append.mp (List.concat_eq_append ▸ hsrc)
    rw [hlen', sub_words_add] at hw
    have hload : load64 memory' (p - 8) = w := by
      rw [← hw]
      exact load64_congr (fun x hx hx' => h.outside x (by omega)) (by omega)
    rw [← sub_words_succ] at hsrc
    obtain ⟨hpq, hbuilt⟩ := ih (h.push w (by omega)) hlen' (by omega) (by omega) (by omega) hsrc
    rw [Persistos.copyDown, hload, hpq, sub_words_succ, sub_words_succ]
    rw [sub_words_succ] at hbuilt
    exact ⟨rfl, by simpa using hbuilt⟩

theorem copyRegisters_eq (interruptRsp : U64) (n : Nat) (memory : ByteMemory) (q : U64) :
    copyRegisters interruptRsp n memory q =
      ((copyDown n memory (interruptRsp + BitVec.ofNat 64 (8 * n)) q).1,
        (copyDown n memory (interruptRsp + BitVec.ofNat 64 (8 * n)) q).2.2) := by
  induction n generalizing memory q with
  | zero => rfl
  | succ n ih =>
    have hsub : interruptRsp + BitVec.ofNat 64 (8 * (n + 1)) - 8 =
        interruptRsp + BitVec.ofNat 64 (8 * n) := by bv_omega
    rw [copyRegisters, copyDown, hsub]
    exact ih _ _

/-- Where FORK builds the child's stack: the parent's interrupt frame `regs ++ iret`
lies below `top`, the child's stack ends at `top'` and its structure at neither. -/
structure ForkFrame (memory : ByteMemory) (parent child interruptRsp : U64)
    (regs iret : List U64) : Prop where
  words : WordsAt memory interruptRsp (regs ++ iret)
  regs : regs.length = 14
  iret : iret.length = 5
  parentTop : kernelEntryRsp memory parent = interruptRsp + 152
  parentBound : interruptRsp.toNat + 152 < 2 ^ 64
  childRoom : 208 ≤ (kernelEntryRsp memory child).toNat
  apart : interruptRsp.toNat + 152 ≤ (kernelEntryRsp memory child).toNat - 208 ∨
    (kernelEntryRsp memory child).toNat ≤ interruptRsp.toNat
  childStruct : StructOutside child ((kernelEntryRsp memory child).toNat - 208)
    (kernelEntryRsp memory child).toNat

/-- The stack that FORK builds, before `kernel_rsp` is stored. -/
theorem ForkFrame.built {parent child interruptRsp : U64} {regs iret : List U64}
    (h : ForkFrame memory parent child interruptRsp regs iret) (label : U64) :
    ∃ junk memory', junk.length = 6 ∧
      Built memory memory' (kernelEntryRsp memory child - 208) (junk ++ label :: (regs ++ iret))
        (kernelEntryRsp memory child).toNat ∧
      forkStack memory parent child interruptRsp label =
        store64 memory' (child + kernelRspOffset) (kernelEntryRsp memory child - 208) := by
  have hb := h.parentBound
  have hroom := h.childRoom
  have hap := h.apart
  obtain ⟨hregs, hiret⟩ := wordsAt_append.mp h.words
  have hp₁ : interruptRsp + 152 - BitVec.ofNat 64 (8 * 5) =
      interruptRsp + BitVec.ofNat 64 (8 * 14) := by bv_omega
  have hp₁N : (interruptRsp + 152).toNat = interruptRsp.toNat + 152 := by bv_omega
  have hp₂N : (interruptRsp + BitVec.ofNat 64 (8 * 14)).toNat = interruptRsp.toNat + 112 := by
    bv_omega
  have hp₃ : interruptRsp + BitVec.ofNat 64 (8 * 14) - 8 - BitVec.ofNat 64 (8 * 6) =
      interruptRsp + 56 := by bv_omega
  have hp₃N : (interruptRsp + BitVec.ofNat 64 (8 * 14) - 8).toNat = interruptRsp.toNat + 104 := by
    bv_omega
  rw [h.regs, ← hp₁] at hiret
  generalize hq : kernelEntryRsp memory child = q at *
  -- the five words of `iretq`, then the registers that the entry stub saved
  obtain ⟨hr₁, hb₁⟩ := (Built.start memory q).copyDown h.iret (by omega) (by omega) (by omega) hiret
  rcases hc₁ : copyDown 5 memory (interruptRsp + 152) q with ⟨memory₁, p₁, q₁⟩
  rw [hc₁] at hr₁ hb₁
  obtain ⟨rfl, rfl⟩ := Prod.mk.inj hr₁
  have hq₁N := sub_words_toNat (p := q) (n := 5) (by omega)
  rw [← BitVec.add_sub_cancel interruptRsp (BitVec.ofNat 64 (8 * 14))] at hregs
  obtain ⟨hr₂, hb₂⟩ := hb₁.copyDown h.regs (by omega) (by omega) (by omega) hregs
  rcases hc₂ : copyDown 14 memory₁ (interruptRsp + BitVec.ofNat 64 (8 * 14))
    (q - BitVec.ofNat 64 (8 * 5)) with ⟨memory₂, p₂, q₂⟩
  rw [hc₂, List.append_nil] at hb₂
  rw [hc₂] at hr₂
  obtain ⟨rfl, rfl⟩ := Prod.mk.inj hr₂
  have hq₂N := sub_words_toNat (p := q - BitVec.ofNat 64 (8 * 5)) (n := 14) (by omega)
  -- the return address of `switch_to_task`, and six words that the child never reads
  have hb₃ := hb₂.push label (by omega)
  have hq₃N := toNat_sub_eight (a := q - BitVec.ofNat 64 (8 * 5) - BitVec.ofNat 64 (8 * 14))
    (by omega)
  rw [BitVec.add_sub_cancel, ← List.take_append_drop 7 regs] at hregs
  have hrest := (wordsAt_append.mp hregs).2
  rw [← List.take_append_drop 6 (regs.drop 7), List.length_take, h.regs] at hrest
  have hjunk := (wordsAt_append.mp hrest).1
  have hjlen : ((regs.drop 7).take 6).length = 6 := by
    rw [List.length_take, List.length_drop, h.regs]
    rfl
  obtain ⟨hr₄, hb₄⟩ := hb₃.copyDown (p := interruptRsp + BitVec.ofNat 64 (8 * 14) - 8) hjlen
    (by omega) (by omega) (by omega) (by rw [hp₃]; exact hjunk)
  have hq₄ : q - BitVec.ofNat 64 (8 * 5) - BitVec.ofNat 64 (8 * 14) - 8 - BitVec.ofNat 64 (8 * 6) =
      q - 208 := by bv_omega
  rw [hq₄] at hr₄ hb₄
  refine ⟨_, _, hjlen, hb₄, ?_⟩
  rw [hp₁] at hc₁
  simp only [Persistos.forkStack, h.parentTop, hq, hc₁, copyRegisters_eq,
    idtSyscallNumSavedRegisters, hc₂, hr₄]

theorem ForkFrame.forkStack {parent child interruptRsp : U64} {regs iret : List U64}
    (h : ForkFrame memory parent child interruptRsp regs iret) (label : U64) :
    kernelRsp (forkStack memory parent child interruptRsp label) child =
        kernelEntryRsp memory child - 208 ∧
      (∃ junk : List U64, junk.length = 6 ∧
        WordsAt (forkStack memory parent child interruptRsp label)
          (kernelEntryRsp memory child - 208) (junk ++ label :: (regs ++ iret))) ∧
      ∀ x : U64,
        (x.toNat < (kernelEntryRsp memory child).toNat - 208 ∨
          (kernelEntryRsp memory child).toNat ≤ x.toNat) →
        (x.toNat < child.toNat + 8 ∨ child.toNat + 16 ≤ x.toNat) →
        forkStack memory parent child interruptRsp label x = memory x := by
  obtain ⟨junk, memory', hjunk, hb, heq⟩ := h.built label
  have hroom := h.childRoom
  have hcs := h.childStruct
  have hbound := hcs.bound
  have hco := hcs.outside
  have hf := field_toNat kernelRspOffset hcs.bound (by decide)
  have h8 : kernelRspOffset.toNat = 8 := by decide
  have h208 : (kernelEntryRsp memory child - 208).toNat =
      (kernelEntryRsp memory child).toNat - 208 := by bv_omega
  have hsize := hb.size
  have hlt := (kernelEntryRsp memory child).isLt
  rw [heq]
  refine ⟨load64_store64 (by omega), ⟨junk, hjunk, ?_⟩, ?_⟩
  · exact hb.words.congr (store64_same (by omega) (by omega)) (by omega)
  · intro x hx hx'
    rw [store64_outside (by omega) (by omega), hb.outside x (by omega)]

end Persistos
