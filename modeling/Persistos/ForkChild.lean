import Persistos.ForkStack

/-! The two returns of a FORK: the parent leaves its interrupt, and the child
reaches user mode after the first switch to it. -/

namespace Persistos

open Theory

/-- The registers in the order in which the way out of the interrupt pops them. -/
def savedRegs : List Reg :=
  [.r15, .r14, .r13, .r12, .r11, .r10, .r9, .r8, .rbp, .rdi, .rsi, .rbx, .rdx, .rcx]

/-- The words of an interrupt frame, from its lowest address on. -/
def Machine.userFrame (user : Machine) : List U64 :=
  savedRegs.map user.reg ++ [user.rip, user.cs, user.rflags, user.reg .rsp, user.ss]

/-- `m` is in user mode where `user` was, with `rax` in its register. -/
structure SameUser (user m : Machine) (rax : U64) : Prop where
  rip : m.rip = user.rip
  cs : m.cs = user.cs
  rflags : m.rflags = user.rflags
  ss : m.ss = user.ss
  rax : m.reg .rax = rax
  reg : ∀ r, r ≠ .rax → m.reg r = user.reg r

variable {calls : CFunction → Machine → Machine → Prop} {user m m' : Machine}

theorem exec_skipZeroRax (hw : WordsAt m.memory (m.reg .rsp) user.userFrame)
    (h : Exec calls skipZeroRax m m') :
    SameUser user m' (m.reg .rax) ∧ m'.memory = m.memory ∧
      m'.currentTaskTs = m.currentTaskTs := by
  have hsplit : skipZeroRax = savedRegs.map .pop ++ [.iretq] := rfl
  rw [hsplit] at h
  obtain ⟨m₁, hpop, _, hiret, rfl⟩ := exec_append.mp h
  obtain rfl : m' = m₁.iretq := hiret
  obtain ⟨hrest, hrsp, hin, hout⟩ := exec_pop (by decide) (by decide) hw hpop
  have hframe := (wordsAt_append.mp hw).2
  have hmem : m₁.memory = m.memory := by rw [hrest]
  have hlen : (savedRegs.map user.reg).length = savedRegs.length := List.length_map ..
  rw [hlen, ← hrsp, ← hmem] at hframe
  obtain ⟨hrip, hcs, hrflags, hsp, hss, -⟩ := hframe
  have h16 (a : U64) : a + 8 + 8 = a + 16 := by bv_omega
  have h24 (a : U64) : a + 8 + 16 = a + 24 := by bv_omega
  have h32 (a : U64) : a + 8 + 24 = a + 32 := by bv_omega
  rw [h16] at hrflags hsp hss
  rw [h24] at hsp hss
  rw [h32] at hss
  refine ⟨⟨hrip, hcs, hrflags, hss, ?_, ?_⟩, hmem, by rw [hrest]; rfl⟩
  · rw [← hout .rax (by decide) (by decide)]
    rfl
  · intro r hr
    by_cases hs : r = .rsp
    · subst hs
      rw [← hsp]
      simp [Machine.iretq]
    · have hr' : r ∈ savedRegs := by
        revert hr hs
        cases r <;> decide
      rw [← hin r hr']
      exact Function.update_of_ne hs _ _

/-- The state in which the CPU enters the stub. -/
structure Interrupted (user m : Machine) : Prop where
  reg : ∀ r, r ≠ .rsp → m.reg r = user.reg r
  rsp : m.reg .rsp = (user.rsp0 &&& ~~~15) - 40
  currentTaskTs : m.currentTaskTs = user.currentTaskTs
  frame : WordsAt m.memory (m.reg .rsp)
    [user.rip, user.cs, user.rflags, user.reg .rsp, user.ss]
  memory : ∀ x : U64, x.toNat < (user.rsp0 &&& ~~~15).toNat - 40 ∨
    (user.rsp0 &&& ~~~15).toNat ≤ x.toNat → m.memory x = user.memory x

theorem Machine.interrupt_spec (user : Machine) (entry kernelCs : U64)
    (hk : 40 ≤ (user.rsp0 &&& ~~~15).toNat) : Interrupted user (user.interrupt entry kernelCs) := by
  have hlt := (user.rsp0 &&& ~~~15).isLt
  have hrsp : (user.setReg .rsp (user.rsp0 &&& ~~~15)).reg .rsp = user.rsp0 &&& ~~~15 :=
    user.setReg_self _ _
  constructor
  · intro r hr
    have hh := (user.setReg .rsp (user.rsp0 &&& ~~~15)).pushes_reg
      [user.ss, user.reg .rsp, user.rflags, user.cs, user.rip] hr
    exact hh.trans (user.setReg_of_ne _ hr)
  · simp only [Machine.interrupt, Machine.pushes, Machine.push_rsp, hrsp]
    bv_omega
  · rw [Machine.interrupt, Machine.pushes_rest]
    rfl
  · have hnil : WordsAt (user.setReg .rsp (user.rsp0 &&& ~~~15)).memory
        ((user.setReg .rsp (user.rsp0 &&& ~~~15)).reg .rsp) [] := trivial
    exact (user.setReg .rsp (user.rsp0 &&& ~~~15)).pushes_wordsAt
      [user.ss, user.reg .rsp, user.rflags, user.cs, user.rip]
      (by rw [hrsp]; exact hk) hnil (by rw [hrsp]; exact Nat.le_of_lt hlt)
  · intro x hx
    exact (user.setReg .rsp (user.rsp0 &&& ~~~15)).pushes_memory
      [user.ss, user.reg .rsp, user.rflags, user.cs, user.rip] (by rw [hrsp]; exact hk)
      (by rw [hrsp]; exact hx)

/-- The stub's arguments for `hw_interrupt_handler`. -/
structure HandlerCall (user m : Machine) : Prop where
  rdi : m.reg .rdi = 128
  rsi : m.reg .rsi = m.reg .rsp
  rdx : m.reg .rdx = user.reg .rdi
  currentTaskTs : m.currentTaskTs = user.currentTaskTs
  rsp : m.reg .rsp = (user.rsp0 &&& ~~~15) - 152
  frame : WordsAt m.memory (m.reg .rsp) user.userFrame
  memory : ∀ x : U64, x.toNat < (user.rsp0 &&& ~~~15).toNat - 152 ∨
    (user.rsp0 &&& ~~~15).toNat ≤ x.toNat → m.memory x = user.memory x

/-- The instructions between saving the registers and the call. -/
def handlerArguments : List Instr :=
  [.movImm 128 .rdi, .mov .rsp .rsi, .load 0x48 .rsp .rdx, .load 0x50 .rsp .rcx,
   .load 0x60 .rsp .r8, .load 0x68 .rsp .r9]

theorem handleInterrupt128_split : handleInterrupt128 =
    savedRegs.reverse.map .push ++
      (handlerArguments ++ ([.call .hwInterruptHandler] ++ skipZeroRax)) := rfl

/-- From user mode to the call of `hw_interrupt_handler`. -/
theorem exec_entry {entry kernelCs : U64} {m₁ m₂ : Machine}
    (hk : 152 ≤ (user.rsp0 &&& ~~~15).toNat)
    (h₁ : Exec calls (savedRegs.reverse.map .push) (user.interrupt entry kernelCs) m₁)
    (h₂ : Exec calls handlerArguments m₁ m₂) : HandlerCall user m₂ := by
  have hu := user.interrupt_spec entry kernelCs (by omega)
  generalize user.interrupt entry kernelCs = u at h₁ hu
  have hm₁ := exec_push (by decide) h₁
  have hregs : savedRegs.reverse.map u.reg = (savedRegs.map user.reg).reverse := by
    rw [← List.map_reverse]
    exact List.map_congr_left fun r hr => hu.reg r (ne_of_mem_of_not_mem hr (by decide))
  rw [hregs] at hm₁
  have hlen : (savedRegs.map user.reg).reverse.length = 14 := rfl
  have hrsp : u.reg .rsp = (user.rsp0 &&& ~~~15) - 40 := hu.rsp
  have hrspN : (u.reg .rsp).toNat = (user.rsp0 &&& ~~~15).toNat - 40 := by
    rw [hrsp]
    bv_omega
  have hlt := (user.rsp0 &&& ~~~15).isLt
  have hw := u.pushes_wordsAt (savedRegs.map user.reg).reverse (by omega) hu.frame
    (by change _ + 8 * 5 ≤ _; omega)
  rw [← hm₁, List.reverse_reverse] at hw
  have hsp₁ : m₁.reg .rsp = (user.rsp0 &&& ~~~15) - 152 := by
    have hh := u.pushes_rsp (savedRegs.map user.reg).reverse (by omega)
    rw [← hm₁, hlen, hrspN] at hh
    apply BitVec.eq_of_toNat_eq
    rw [hh]
    bv_omega
  have hcur₁ : m₁.currentTaskTs = user.currentTaskTs := by
    rw [hm₁, Machine.pushes_rest]
    exact hu.currentTaskTs
  have hrdi : load64 m₁.memory (m₁.reg .rsp + BitVec.ofNat 64 (8 * 9)) = user.reg .rdi :=
    hw.get (i := 9) rfl
  have hmem₁ : ∀ x : U64, x.toNat < (user.rsp0 &&& ~~~15).toNat - 152 ∨
      (user.rsp0 &&& ~~~15).toNat ≤ x.toNat → m₁.memory x = user.memory x := by
    intro x hx
    rw [hm₁, Machine.pushes_memory _ _ (by omega) (by omega), hu.memory x (by omega)]
  obtain ⟨_, rfl, _, rfl, _, rfl, _, rfl, _, rfl, _, rfl, rfl⟩ := h₂
  constructor
  · simp [Instr.run, Machine.setReg]
  · simp [Instr.run, Machine.setReg]
  · simpa [Instr.run, Machine.setReg] using hrdi
  · exact hcur₁
  · simpa [Instr.run, Machine.setReg] using hsp₁
  · simpa [Instr.run, Machine.setReg, Machine.userFrame] using hw
  · exact hmem₁

/-- `interrupt_line` of `hw_interrupt_handler` -/
def interruptLine (interruptNumber : U32) : U8 := (interruptNumber - 0x20).setWidth 8

/-- `hw_interrupt_handler` as far as it hands the FORK number to `fork`. -/
def HwInterruptHandler (fork : Machine → Machine → Prop) (m m' : Machine) : Prop :=
  interruptLine ((m.reg .rdi).setWidth 32) = 0x60 → m.reg .rdx = syscallFork → fork m m'

def taskPid (memory : ByteMemory) (task : U64) : U32 := (load64 memory task).setWidth 32

/-- FORK by `parent`, with `child` as the new process. It keeps off the interrupt
frame of its caller, gives the child a kernel stack, builds that stack and leaves
it alone from then on. -/
structure ForkCall (L : KernelStacks) (label parent child : U64) (m m' : Machine) : Prop where
  reg : ∀ r ∈ calleeSaved, m'.reg r = m.reg r
  rax : m'.reg .rax = (taskPid m'.memory child).setWidth 64
  currentTaskTs : m'.currentTaskTs = m.currentTaskTs
  built : ∃ memory,
    SameOn m.memory memory (m.reg .rsp).toNat (L.top parent) ∧
    kernelEntryRsp memory parent = kernelEntryRsp m.memory parent ∧
    (kernelEntryRsp memory child).toNat = L.top child ∧
    (kernelStackPages memory child).toNat = L.low child ∧
    SameOn (forkStack memory parent child (m.reg .rsi) label) m'.memory
      (m.reg .rsp).toNat (L.top parent) ∧
    SameOn (forkStack memory parent child (m.reg .rsi) label) m'.memory
      (L.low child) (L.top child) ∧
    kernelRsp m'.memory child =
      kernelRsp (forkStack memory parent child (m.reg .rsi) label) child ∧
    kernelStackPages m'.memory child =
      kernelStackPages (forkStack memory parent child (m.reg .rsi) label) child

/-- The child's stack once FORK is done, up to the frame of the parent's user state. -/
structure ForkedStack (L : KernelStacks) (label child : U64) (user : Machine)
    (memory : ByteMemory) : Prop where
  pages : (kernelStackPages memory child).toNat = L.low child
  rsp : (kernelRsp memory child).toNat + 208 = L.top child
  words : ∃ junk : List U64, junk.length = 6 ∧
    WordsAt memory (kernelRsp memory child) (junk ++ label :: user.userFrame)

/-- The current task is in user mode, and the TSS has the top of its kernel stack. -/
structure InUserMode (L : KernelStacks) (user : Machine) : Prop where
  task : L.task user.currentTaskTs
  rsp0 : user.rsp0 = kernelEntryRsp user.memory user.currentTaskTs
  top : user.rsp0.toNat = L.top user.currentTaskTs
  aligned : PageAligned user.rsp0
  room : L.low user.currentTaskTs + 8192 ≤ L.top user.currentTaskTs

theorem align_stack {a : U64} (h : PageAligned a) : a &&& ~~~15 = a := by
  have hm : pageAddressMask &&& ~~~15 = pageAddressMask := by decide
  rw [← mask_of_aligned h, BitVec.and_assoc, hm]

variable {L : KernelStacks} {label child : U64}

theorem HandlerCall.forkFrame {memory : ByteMemory} (hu : InUserMode L user)
    (hm : HandlerCall user m) (hc : L.task child) (hne : child ≠ user.currentTaskTs)
    (hroom : L.low child + 8192 ≤ L.top child)
    (hs : SameOn m.memory memory (m.reg .rsp).toNat (L.top user.currentTaskTs))
    (hp : kernelEntryRsp memory user.currentTaskTs = kernelEntryRsp m.memory user.currentTaskTs)
    (ht : (kernelEntryRsp memory child).toNat = L.top child) :
    ForkFrame memory user.currentTaskTs child (m.reg .rsi) (savedRegs.map user.reg)
      [user.rip, user.cs, user.rflags, user.reg .rsp, user.ss] := by
  have hrsp := hm.rsp
  rw [align_stack hu.aligned] at hrsp
  have htop := hu.top
  have hroom' := hu.room
  have hlt := user.rsp0.isLt
  have hrspN : (m.reg .rsp).toNat = user.rsp0.toNat - 152 := by
    rw [hrsp]
    bv_omega
  have hso := L.structOutside _ _ hu.task hu.task
  have hbound := hso.bound
  have hout := hso.outside
  have hf := field_toNat kernelEntryRspOffset hbound (by decide)
  have hentry : kernelEntryRsp m.memory user.currentTaskTs = user.rsp0 := by
    rw [hu.rsp0]
    refine load64_congr (fun x hx hx' => hm.memory x ?_) ?_
    · rw [align_stack hu.aligned]
      have h16 : kernelEntryRspOffset.toNat = 16 := by decide
      omega
    · have h16 : kernelEntryRspOffset.toNat = 16 := by decide
      omega
  have hap := L.stacksApart child user.currentTaskTs hc hu.task hne
  constructor
  · rw [hm.rsi]
    have hlen : user.userFrame.length = 19 := rfl
    exact hm.frame.congr (hs.mono (Nat.le_refl _) (by rw [hlen]; omega)) (by rw [hlen]; omega)
  · rfl
  · rfl
  · rw [hp, hentry, hm.rsi, hrsp]
    bv_omega
  · rw [hm.rsi]
    omega
  · omega
  · rw [hm.rsi]
    omega
  · have hso' := L.structOutside child child hc hc
    have hout' := hso'.outside
    exact ⟨hso'.bound, by omega⟩

theorem ForkCall.spec {parent : U64} (h : ForkCall L label parent child m m')
    (hparent : parent = user.currentTaskTs) (hu : InUserMode L user) (hm : HandlerCall user m)
    (hc : L.task child) (hne : child ≠ user.currentTaskTs)
    (hroom : L.low child + 8192 ≤ L.top child) :
    WordsAt m'.memory (m'.reg .rsp) user.userFrame ∧ ForkedStack L label child user m'.memory := by
  subst hparent
  obtain ⟨memory, hs, hp, htop, hpages, hs', hchild, hrsp', hpages'⟩ := h.built
  have hf := hm.forkFrame hu hc hne hroom hs hp htop
  obtain ⟨hk, ⟨junk, hj, hwords⟩, hout⟩ := hf.forkStack label
  change WordsAt _ _ (junk ++ label :: user.userFrame) at hwords
  have hroom' := hu.room
  have htopU := hu.top
  have hlt := (kernelEntryRsp memory child).isLt
  have hrspN : (m.reg .rsp).toNat = user.rsp0.toNat - 152 := by
    rw [hm.rsp, align_stack hu.aligned]
    have hlt' := user.rsp0.isLt
    bv_omega
  have hap := L.stacksApart child user.currentTaskTs hc hu.task hne
  have hso := L.structOutside child user.currentTaskTs hc hu.task
  have hso' := L.structOutside child child hc hc
  have hbound := hso.bound
  have hoU := hso.outside
  have hoC := hso'.outside
  have hk208 : (kernelEntryRsp memory child - 208).toNat = L.top child - 208 := by bv_omega
  constructor
  · rw [h.reg .rsp (by decide)]
    have hlen : user.userFrame.length = 19 := rfl
    have hbuilt : SameOn memory (forkStack memory user.currentTaskTs child (m.reg .rsi) label)
        (m.reg .rsp).toNat (L.top user.currentTaskTs) :=
      fun x hx hx' => hout x (by omega) (by omega)
    have hsame := (hs.trans hbuilt).trans hs'
    exact hm.frame.congr (hsame.mono (Nat.le_refl _) (by rw [hlen]; omega)) (by rw [hlen]; omega)
  · constructor
    · have hf24 := field_toNat kernelStackPagesOffset hbound (by decide)
      have h24 : kernelStackPagesOffset.toNat = 24 := by decide
      rw [hpages', ← hpages]
      exact congrArg BitVec.toNat
        (load64_congr (fun x hx hx' => hout x (by omega) (by omega)) (by omega))
    · rw [hrsp', hk, hk208]
      omega
    · refine ⟨junk, hj, ?_⟩
      have hlen : (junk ++ label :: user.userFrame).length = 26 := by
        rw [List.length_append, hj]
        rfl
      rw [hrsp', hk]
      exact hwords.congr (hchild.mono (by omega) (by rw [hlen]; omega)) (by rw [hlen]; omega)

theorem handler_call {fork : Machine → Machine → Prop} (hm : HandlerCall user m)
    (hf : user.reg .rdi = syscallFork) (h : HwInterruptHandler fork m m') : fork m m' := by
  refine h ?_ (hm.rdx.trans hf)
  rw [hm.rdi]
  decide

/-- The saved call that the new stack shows, and what the first switch to the child finds. -/
theorem ForkedStack.saved {memory : ByteMemory} (h : ForkedStack L label child user memory)
    (hroom : L.low child + 8192 ≤ L.top child) :
    ∃ c, c.rip = label ∧ SavedAt memory (kernelRsp memory child) (L.low child) (L.top child) c ∧
      WordsAt memory (kernelRsp memory child + 56) user.userFrame := by
  obtain ⟨junk, hj, hw⟩ := h.words
  have hrsp := h.rsp
  obtain ⟨a, b, c, d, e, f, rfl⟩ : ∃ a b c d e f, junk = [a, b, c, d, e, f] := by
    match junk, hj with
    | [a, b, c, d, e, f], _ => exact ⟨a, b, c, d, e, f, rfl⟩
  let regs : Reg → U64 := fun r => match r with
    | .r15 => a | .r14 => b | .r13 => c | .r12 => d | .rbx => e | .rbp => f
    | _ => kernelRsp memory child + 56
  have hsplit : [a, b, c, d, e, f] ++ label :: user.userFrame =
      (⟨label, regs⟩ : SwitchCall).words ++ user.userFrame := rfl
  rw [hsplit] at hw
  obtain ⟨hw, hu⟩ := wordsAt_append.mp hw
  exact ⟨⟨label, regs⟩, rfl, ⟨hw, rfl, by omega, by omega⟩, hu⟩

variable {hhdmOffset : U64} {handler : Machine → Machine → Prop} {s s' : SwitchState}

theorem zeroRaxAndIret_noCall (f : CFunction) : .call f ∉ zeroRaxAndIret := by
  cases f <;> decide

/-- The way from `zero_rax_and_iret` to user mode. -/
theorem exec_zeroRaxAndIret (hw : WordsAt m.memory (m.reg .rsp) user.userFrame)
    (h : Exec calls zeroRaxAndIret m m') : SameUser user m' 0 := by
  obtain ⟨m₁, hz, h⟩ := h
  obtain rfl : m₁ = m.setReg .rax 0 := hz
  have hrsp : (m.setReg .rax 0).reg .rsp = m.reg .rsp := m.setReg_of_ne _ (by decide)
  have hh := (exec_skipZeroRax (by rw [hrsp]; exact hw) h).1
  rwa [m.setReg_self] at hh

/-- The first switch to a forked child. -/
theorem OffCpu.starts {c : SwitchCall} {memory : ByteMemory} (h : OffCpu L child c memory s)
    (hc : SavedAt memory (kernelRsp memory child) (L.low child) (L.top child) c)
    (hst : (kernelRsp memory child).toNat + 208 = L.top child)
    (hu : WordsAt memory (kernelRsp memory child + 56) user.userFrame)
    (hs : SwitchStep L hhdmOffset handler s child s') :
    s'.machine.rip = c.rip ∧ ∃ u', Exec calls zeroRaxAndIret s'.machine u' ∧
      SameUser user u' 0 := by
  obtain ⟨c', hc', hres, -, hmem⟩ := hs.resumes h.inv
  rw [hs.lastCall, Function.update_of_ne h.current, h.lastCall] at hc'
  obtain rfl : c = c' := Option.some.inj hc'
  obtain ⟨hsame, hk⟩ := h.saved hs
  have htop := L.top_le child h.isTask
  have hlt := (kernelRsp memory child).isLt
  have h56 : (kernelRsp memory child + 56).toNat = (kernelRsp memory child).toNat + 56 := by
    bv_omega
  have hrsp : s'.machine.reg .rsp = kernelRsp memory child + 56 := by
    rw [hres.reg .rsp (by decide), hc.rsp]
  have hlo := hc.lower
  have hw : WordsAt s'.machine.memory (s'.machine.reg .rsp) user.userFrame := by
    have hlen : user.userFrame.length = 19 := rfl
    rw [hrsp]
    refine hu.congr ?_ (by rw [hlen]; omega)
    rw [hlen]
    intro x hx hx'
    rw [hmem x (by rw [hk]; omega)]
    exact hsame x (by omega) (by omega)
  have hexec : Exec calls zeroRaxAndIret s'.machine _ :=
    exec_callFree zeroRaxAndIret_noCall s'.machine
  exact ⟨hres.rip, _, hexec, exec_zeroRaxAndIret hw hexec⟩

/-- For every user state that calls FORK, the parent returns with its state and the
child's pid, and the first switch to the child, whatever runs before it, leads to
user mode in the same state with zero in `rax`. -/
theorem forked_child_starts_like_parent (L : KernelStacks) (hhdmOffset label entry kernelCs : U64)
    (s₀ s : SwitchState) (child : U64) (m' : Machine)
    (hroom : ∀ t, L.task t → L.low t + 8192 = L.top t)
    (h₀ : ContextStart L s₀)
    (hrun : Relation.ReflTransGen (ContextStep L hhdmOffset
      (HwInterruptHandler (ForkCall L label s.current child))) s₀ s)
    (hu : InUserMode L s.machine) (hrdi : s.machine.reg .rdi = syscallFork)
    (hc : L.task child) (hnew : ¬s.Live child)
    (h : Exec (kernelCalls hhdmOffset (HwInterruptHandler (ForkCall L label s.current child)))
      handleInterrupt128 (s.machine.interrupt entry kernelCs) m')
    (hruns : RunsAs L s m') :
    SameUser s.machine m' ((taskPid m'.memory child).setWidth 64) ∧
    ∃ c, ContextStep L hhdmOffset (HwInterruptHandler (ForkCall L label s.current child))
        ⟨m', s.lastCall⟩ ⟨m', Function.update s.lastCall child (some c)⟩ ∧
      ∀ s₂ s', Relation.ReflTransGen
          (fun a b => ContextStep L hhdmOffset
            (HwInterruptHandler (ForkCall L label s.current child)) a b ∧ child ≠ b.current)
          ⟨m', Function.update s.lastCall child (some c)⟩ s₂ →
        SwitchStep L hhdmOffset (HwInterruptHandler (ForkCall L label s.current child)) s₂ child s' →
        s'.machine.rip = label ∧ ∃ u', Exec
          (kernelCalls hhdmOffset (HwInterruptHandler (ForkCall L label s.current child)))
          zeroRaxAndIret s'.machine u' ∧ SameUser s.machine u' 0 := by
  have hinv := contextInv_run h₀ hrun
  have hne : child ≠ s.current := fun hh => hnew (Or.inl hh)
  have htop := hu.top
  have hroomU := hu.room
  rw [handleInterrupt128_split] at h
  obtain ⟨m₁, hpush, h⟩ := exec_append.mp h
  obtain ⟨m₂, hargs, h⟩ := exec_append.mp h
  obtain ⟨m₃, ⟨_, hcall, rfl⟩, hout⟩ := exec_append.mp h
  have hk : 152 ≤ (s.machine.rsp0 &&& ~~~15).toNat := by
    rw [align_stack hu.aligned]
    omega
  have hm := exec_entry hk hpush hargs
  have hfork : ForkCall L label s.current child m₂ m₃ := handler_call hm hrdi hcall
  obtain ⟨hframe, hstack⟩ := hfork.spec rfl hu hm hc hne (Nat.le_of_eq (hroom child hc))
  obtain ⟨huser, hmem, -⟩ := exec_skipZeroRax hframe hout
  rw [hfork.rax, ← hmem] at huser
  rw [← hmem] at hstack
  obtain ⟨c, hlabel, hsaved, hwords⟩ := hstack.saved (Nat.le_of_eq (hroom child hc))
  refine ⟨huser, c, .create hc ?_ hstack.pages hsaved, ?_⟩
  · rintro (hh | hh)
    · exact hne (hh.trans hruns.current)
    · exact hnew (Or.inr hh)
  · intro s₂ s' hfirst hswitch
    have hoff : OffCpu L child c m'.memory
        ⟨m', Function.update s.lastCall child (some c)⟩ := by
      refine ⟨(hruns.inv hinv).create hc hstack.pages hsaved, ?_, by simp, SameOn.refl _ _ _, rfl⟩
      exact fun hh => hne (hh.trans hruns.current)
    rw [← hlabel]
    exact (hoff.run hfirst).starts hsaved hstack.rsp hwords hswitch

/-- The first of the two tasks in user mode, with FORK in `rdi`. -/
def forking : Machine where
  reg r := if r = .rdi then syscallFork else if r = .rsp then 0x7FF0 else 0x55
  rip := 0x400000
  cs := 0x1B
  rflags := 0x202
  ss := 0x23
  memory := store64 (store64 (store64 (store64 (store64 (fun _ => 0)
    (0x1000 + kernelStackPagesOffset) 0x10000) (0x1000 + kernelEntryRspOffset) 0x12000)
    (0x2000 + kernelStackPagesOffset) 0x20000) (0x2000 + kernelEntryRspOffset) 0x22000) 0x2000 7
  cr3 := 0
  currentTaskTs := 0x1000
  rsp0Low := 0x12000
  rsp0High := 0

/-- The parent where the handler is called, and where it has returned. -/
def callingFork : Machine :=
  runCallFree handlerArguments
    (runCallFree (savedRegs.reverse.map .push) (forking.interrupt 0 8))

/-- FORK of the second task by the first where it needs no stack of its own. -/
def forkedFrom (m : Machine) (label : U64) : Machine :=
  { m.setReg .rax 7 with memory := forkStack m.memory 0x1000 0x2000 (m.reg .rsi) label }

def parentMachine (label : U64) : Machine :=
  runCallFree skipZeroRax (forkedFrom callingFork label)

/-- `m` at a call of `switch_to_task` for the second task. -/
def atSwitch (m : Machine) : Machine := (m.setReg .rsp 0x11000).setReg .rdi 0x2000

theorem atSwitch_memory (m : Machine) : (atSwitch m).memory = m.memory := rfl

def childMachine (label : U64) : Machine :=
  switchToTask.foldl (fun m i => i.run (kernelFunctions 0) m) (atSwitch (parentMachine label))

theorem forkedFrom_call : ForkCall twoStacks 0x9000 0x1000 0x2000 callingFork
    (forkedFrom callingFork 0x9000) := by
  have htop : (kernelEntryRsp callingFork.memory 0x2000).toNat = twoStacks.top 0x2000 := by
    decide +kernel
  have hlow : (kernelStackPages callingFork.memory 0x2000).toNat = twoStacks.low 0x2000 := by
    decide +kernel
  have hpid : taskPid (forkedFrom callingFork 0x9000).memory 0x2000 = 7 := by decide +kernel
  generalize callingFork = m at *
  constructor
  · intro r hr
    exact m.setReg_of_ne _ (ne_of_mem_of_not_mem hr (by decide))
  · rw [hpid]
    exact m.setReg_self .rax 7
  · rfl
  · exact ⟨m.memory, SameOn.refl _ _ _, rfl, htop, hlow, SameOn.refl _ _ _, SameOn.refl _ _ _,
      rfl, rfl⟩

theorem parentMachine_exec : Exec
    (kernelCalls 0 (HwInterruptHandler (ForkCall twoStacks 0x9000 0x1000 0x2000)))
    handleInterrupt128 (forking.interrupt 0 8) (parentMachine 0x9000) := by
  have hpush (f : CFunction) : .call f ∉ savedRegs.reverse.map Instr.push := by
    cases f <;> decide
  have hargs (f : CFunction) : .call f ∉ handlerArguments := by
    cases f <;> decide
  rw [handleInterrupt128_split]
  refine exec_append.mpr ⟨_, exec_callFree hpush _, ?_⟩
  refine exec_append.mpr ⟨_, exec_callFree hargs _, ?_⟩
  refine exec_append.mpr ⟨_, ⟨_, fun _ _ => forkedFrom_call, rfl⟩, ?_⟩
  exact exec_callFree skipZeroRax_noCall _

theorem childMachine_exec {handler : Machine → Machine → Prop} : Exec (kernelCalls 0 handler)
    switchToTask (atSwitch (parentMachine 0x9000)) (childMachine 0x9000) := by
  have hnone : .call .hwInterruptHandler ∉ switchToTask := by decide
  refine exec_run (fun f hf m => ?_) _
  cases f with
  | loadCr3From => exact kernelFunctions_calls 0 .loadCr3From m
  | setTssFor => exact kernelFunctions_calls 0 .setTssFor m
  | hwInterruptHandler => exact absurd hf hnone

theorem parentMachine_current : (parentMachine 0x9000).currentTaskTs = 0x1000 := by
  decide +kernel

theorem atSwitch_current : (atSwitch (parentMachine 0x9000)).currentTaskTs = 0x1000 := by
  decide +kernel

theorem parentMachine_runs : RunsAs twoStacks ⟨forking, fun _ => none⟩ (parentMachine 0x9000) := by
  refine ⟨parentMachine_current, ?_, fun t _ _ hh => absurd rfl hh, fun t _ _ hh => absurd rfl hh⟩
  rintro t (rfl | rfl) (hh | hh)
  · decide +kernel
  · exact absurd rfl hh
  · cases hh
  · exact absurd rfl hh

theorem atSwitch_step (c : SwitchCall) : SwitchStep twoStacks 0
    (HwInterruptHandler (ForkCall twoStacks 0x9000 0x1000 0x2000))
    ⟨atSwitch (parentMachine 0x9000), Function.update (fun _ => none) 0x2000 (some c)⟩ 0x2000
    ⟨childMachine 0x9000, Function.update (Function.update (fun _ => none) 0x2000 (some c)) 0x1000
      (some (atSwitch (parentMachine 0x9000)).switchCall)⟩ := by
  have hlow : twoStacks.low (atSwitch (parentMachine 0x9000)).currentTaskTs + 48 ≤
      ((atSwitch (parentMachine 0x9000)).reg .rsp).toNat := by decide +kernel
  have htop : ((atSwitch (parentMachine 0x9000)).reg .rsp).toNat + 8 ≤
      twoStacks.top (atSwitch (parentMachine 0x9000)).currentTaskTs := by decide +kernel
  have hrdi : (atSwitch (parentMachine 0x9000)).reg .rdi = 0x2000 := by decide +kernel
  have hcur := atSwitch_current
  have hexec : Exec (kernelCalls 0 (HwInterruptHandler (ForkCall twoStacks 0x9000 0x1000 0x2000)))
      switchToTask (atSwitch (parentMachine 0x9000)) (childMachine 0x9000) := childMachine_exec
  generalize atSwitch (parentMachine 0x9000) = m at *
  refine ⟨Or.inr rfl, Or.inr (by simp), hrdi, hlow, htop, hexec, ?_⟩
  simp only [SwitchState.current, hcur]

theorem forked_child_starts_like_parent_forking :
    SameUser forking (parentMachine 0x9000) 7 ∧ (childMachine 0x9000).rip = 0x9000 ∧
      ∃ u', Exec (kernelCalls 0 (HwInterruptHandler (ForkCall twoStacks 0x9000 0x1000 0x2000)))
        zeroRaxAndIret (childMachine 0x9000) u' ∧ SameUser forking u' 0 := by
  have hroom : ∀ t, twoStacks.task t → twoStacks.low t + 8192 = twoStacks.top t := by
    rintro t (rfl | rfl) <;> decide
  obtain ⟨huser, c, -, hchild⟩ := forked_child_starts_like_parent twoStacks 0 0x9000 0 8
    ⟨forking, fun _ => none⟩ ⟨forking, fun _ => none⟩ 0x2000 (parentMachine 0x9000) hroom
    ⟨Or.inl rfl, by decide +kernel, fun _ => rfl⟩ .refl
    ⟨Or.inl rfl, by decide +kernel, by decide +kernel, by decide +kernel, by decide +kernel⟩ rfl
    (Or.inr rfl) (by rintro (hh | hh) <;> [cases hh; exact hh rfl]) parentMachine_exec
    parentMachine_runs
  have hpid : (taskPid (parentMachine 0x9000).memory 0x2000).setWidth 64 = (7 : U64) := by
    decide +kernel
  rw [hpid] at huser
  have hcur := atSwitch_current.trans parentMachine_current.symm
  have hne : (0x2000 : U64) ≠ (atSwitch (parentMachine 0x9000)).currentTaskTs := by
    rw [atSwitch_current]
    decide
  have hstep := atSwitch_step c
  have hmem := atSwitch_memory (parentMachine 0x9000)
  generalize atSwitch (parentMachine 0x9000) = m at *
  generalize parentMachine 0x9000 = m' at *
  exact ⟨huser, hchild ⟨m, Function.update (fun _ => none) 0x2000 (some c)⟩ _
    (.single ⟨.run (.of_memory hcur hmem), hne⟩) hstep⟩

end Persistos
