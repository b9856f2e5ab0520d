import Persistos.Word
import Mathlib.Logic.Function.Basic
import Mathlib.Logic.Relation

/-! From the boot to the last NVMe device that is brought up. `pci_probe` counts the
devices and the task `kt-hw-init` sets up their queues, and the interrupt handler goes
through all that are counted. -/

namespace Persistos

def maxNvmeDevices : Nat := 10

/-- The members of `struct nvme_device` that either probe sets. Zero is `NULL`. -/
structure NvmeDeviceMemory where
  pciDevice : Option Nat
  majorVersion : U16
  minorVersion : U8
  dstrdExponent : U8
  asq : U64
  asqTail : U8
  asqHead : U8
  acq : U64
  acqHead : U8
  acqPhase : Bool
  iosq : U64
  iosqTail : U8
  iosqHead : U8
  iocq : U64
  iocqHead : U8
  iocqPhase : Bool
  adminResultBuffer : U64
  commandStatuses : Nat → U8

/-- The pages that `nvme_probe_2` allocates for a device, and the version it reads. -/
structure ProbedQueues where
  adminSubmissionQueue : U64
  adminCompletionQueue : U64
  ioSubmissionQueue : U64
  ioCompletionQueue : U64
  adminResultBuffer : U64
  version : U32
  allocated : adminCompletionQueue ≠ 0 ∧ ioCompletionQueue ≠ 0

/-- The assignments of `nvme_probe_2`, one after the other. -/
def ProbedQueues.stores (q : ProbedQueues) : List (NvmeDeviceMemory → NvmeDeviceMemory) :=
  [fun dev => { dev with pciDevice := dev.pciDevice },
    fun dev => { dev with majorVersion := (q.version >>> 16).setWidth 16 },
    fun dev => { dev with minorVersion := (q.version >>> 8).setWidth 8 },
    fun dev => { dev with dstrdExponent := 0 },
    fun dev => { dev with asq := q.adminSubmissionQueue },
    fun dev => { dev with asqTail := 0 },
    fun dev => { dev with asqHead := 0 },
    fun dev => { dev with acq := q.adminCompletionQueue },
    fun dev => { dev with acqHead := 0 },
    fun dev => { dev with acqPhase := false },
    fun dev => { dev with iosq := q.ioSubmissionQueue },
    fun dev => { dev with iosqTail := 0 },
    fun dev => { dev with iosqHead := 0 },
    fun dev => { dev with iocq := q.ioCompletionQueue },
    fun dev => { dev with iocqHead := 0 },
    fun dev => { dev with iocqPhase := false },
    fun dev => { dev with adminResultBuffer := q.adminResultBuffer },
    fun dev => { dev with
      commandStatuses := fun i => if i < 128 then 0x91 else dev.commandStatuses i }]

/-- A device after the first `done` assignments. -/
def ProbedQueues.stored (q : ProbedQueues) (done : Nat) (dev : NvmeDeviceMemory) :
    NvmeDeviceMemory :=
  (q.stores.take done).foldl (fun dev store => store dev) dev

/-- The number of assignments up to that of `iocq`. -/
def storesToIocq : Nat := 14

/-- Both completion queues are there. -/
def NvmeDeviceMemory.IsUp (dev : NvmeDeviceMemory) : Prop := dev.acq ≠ 0 ∧ dev.iocq ≠ 0

/-- A device in `.bss`. -/
def NvmeDeviceMemory.zero : NvmeDeviceMemory :=
  ⟨none, 0, 0, 0, 0, 0, 0, 0, 0, false, 0, 0, 0, 0, 0, false, 0, fun _ => 0⟩

/-- How far the boot is: before the end of `pci_probe`, before `kt-hw-init` runs, in
`nvme_probe_2` of a device with some of its assignments done, in the commands to the
device after them, in the loop of `kt-hw-init` that only yields. -/
inductive ProbePc where
  | pciProbe
  | boot
  | assign (device done : Nat) (q : ProbedQueues)
  | contents (device : Nat)
  | done

/-- `handled` are the devices that each run of `nvme_handle_interrupt` went through. -/
structure NvmeProbe where
  pc : ProbePc
  numNvmeDevices : Nat
  nvmeDevices : Nat → NvmeDeviceMemory
  handled : List (List NvmeDeviceMemory)

namespace NvmeProbe

def init : NvmeProbe := ⟨.pciProbe, 0, fun _ => .zero, []⟩

def setDevice (s : NvmeProbe) (i : Nat) (dev : NvmeDeviceMemory) : NvmeProbe :=
  { s with nvmeDevices := Function.update s.nvmeDevices i dev }

/-- `nvme_handle_interrupt` reads the queues of every device that is counted. -/
def handleInterrupt (s : NvmeProbe) : NvmeProbe :=
  { s with handled := s.handled ++ [(List.range s.numNvmeDevices).map s.nvmeDevices] }

/-- Every device that the handler went through was up. -/
def TouchesUp (s : NvmeProbe) : Prop := ∀ devs ∈ s.handled, ∀ dev ∈ devs, dev.IsUp

/-- The devices that `kt-hw-init` has brought up, by the place where it is. -/
def broughtUp (s : NvmeProbe) : Nat :=
  match s.pc with
  | .pciProbe => 0
  | .boot => 0
  | .assign device done _ => if storesToIocq ≤ done then device + 1 else device
  | .contents device => device + 1
  | .done => s.numNvmeDevices

end NvmeProbe

/-- Interrupts are enabled from the first of these steps on. -/
inductive NvmeProbeStep : NvmeProbe → NvmeProbe → Prop
  | probe1 {s : NvmeProbe} {pciDevice : Nat} (at_pc : s.pc = .pciProbe)
      (fits : s.numNvmeDevices < maxNvmeDevices) :
      NvmeProbeStep s { s.setDevice s.numNvmeDevices
        { s.nvmeDevices s.numNvmeDevices with pciDevice } with
        numNvmeDevices := s.numNvmeDevices + 1 }
  | probed {s : NvmeProbe} (at_pc : s.pc = .pciProbe) : NvmeProbeStep s { s with pc := .boot }
  | first {s : NvmeProbe} {q : ProbedQueues} (at_pc : s.pc = .boot) (some : 0 < s.numNvmeDevices) :
      NvmeProbeStep s { s with pc := .assign 0 0 q }
  | none {s : NvmeProbe} (at_pc : s.pc = .boot) (none : s.numNvmeDevices = 0) :
      NvmeProbeStep s { s with pc := .done }
  | store {s : NvmeProbe} {device done : Nat} {q : ProbedQueues}
      {store : NvmeDeviceMemory → NvmeDeviceMemory} (at_pc : s.pc = .assign device done q)
      (next : q.stores[done]? = some store) :
      NvmeProbeStep s { s.setDevice device (store (s.nvmeDevices device)) with
        pc := .assign device (done + 1) q }
  | stored {s : NvmeProbe} {device done : Nat} {q : ProbedQueues}
      (at_pc : s.pc = .assign device done q) (all : q.stores.length ≤ done) :
      NvmeProbeStep s { s with pc := .contents device }
  | next {s : NvmeProbe} {device : Nat} {q : ProbedQueues} (at_pc : s.pc = .contents device)
      (more : device + 1 < s.numNvmeDevices) :
      NvmeProbeStep s { s with pc := .assign (device + 1) 0 q }
  | last {s : NvmeProbe} {device : Nat} (at_pc : s.pc = .contents device)
      (no_more : s.numNvmeDevices ≤ device + 1) : NvmeProbeStep s { s with pc := .done }
  | interrupt {s : NvmeProbe} : NvmeProbeStep s s.handleInterrupt

/-- An interrupt comes only when no device is counted yet, or the last one is up. -/
def InterruptsLater (s s' : NvmeProbe) : Prop :=
  s'.handled = s.handled ∨ s.numNvmeDevices ≤ s.broughtUp

abbrev NvmeProbeRun : NvmeProbe → Prop :=
  Relation.ReflTransGen (fun s s' => NvmeProbeStep s s' ∧ InterruptsLater s s') NvmeProbe.init

namespace ProbedQueues

variable (q : ProbedQueues) (dev : NvmeDeviceMemory)

theorem stored_succ {done : Nat} {store : NvmeDeviceMemory → NvmeDeviceMemory}
    (h : q.stores[done]? = some store) : q.stored (done + 1) dev = store (q.stored done dev) := by
  rw [stored, List.take_add_one, h, List.foldl_append]
  rfl

/-- A device is up once `iocq` is assigned. -/
theorem stored_isUp (hdev : dev.iocq = 0) {done : Nat} (hd : done ≤ q.stores.length) :
    (q.stored done dev).IsUp ↔ storesToIocq ≤ done := by
  have hlen : q.stores.length = 18 := rfl
  have hacq := q.allocated.1
  have hiocq := q.allocated.2
  have hcases : ∀ k < 14, (q.stored k dev).iocq = 0 := by
    intro k hk
    match k with
    | 0 | 1 | 2 | 3 | 4 | 5 | 6 | 7 | 8 | 9 | 10 | 11 | 12 | 13 => exact hdev
    | k + 14 => omega
  constructor
  · intro hup
    by_contra hlt
    exact hup.2 (hcases done (Nat.lt_of_not_le hlt))
  · intro hle
    obtain ⟨k, rfl⟩ := Nat.exists_eq_add_of_le hle
    match k with
    | 0 | 1 | 2 | 3 | 4 => exact ⟨hacq, hiocq⟩
    | k + 5 =>
      simp only [storesToIocq] at hd
      omega

end ProbedQueues

namespace NvmeProbe

variable {s s' : NvmeProbe} {i : Nat}

theorem setDevice_other (s : NvmeProbe) {dev : NvmeDeviceMemory} {j : Nat} (h : j ≠ i) :
    (s.setDevice i dev).nvmeDevices j = s.nvmeDevices j := Function.update_of_ne h _ _

theorem setDevice_self (s : NvmeProbe) (i : Nat) (dev : NvmeDeviceMemory) :
    (s.setDevice i dev).nvmeDevices i = dev := Function.update_self _ _ _

/-- What the devices are at the place where the boot is. -/
structure Inv (s : NvmeProbe) : Prop where
  up : ∀ i, (s.nvmeDevices i).IsUp ↔ i < s.broughtUp
  fresh : ∀ i, s.broughtUp ≤ i → (∀ done q, s.pc ≠ .assign i done q) → (s.nvmeDevices i).iocq = 0
  assigned : ∀ device done q, s.pc = .assign device done q → device < s.numNvmeDevices ∧
    done ≤ q.stores.length ∧
    ∃ dev : NvmeDeviceMemory, dev.iocq = 0 ∧ s.nvmeDevices device = q.stored done dev
  contents : ∀ device, s.pc = .contents device → device < s.numNvmeDevices

theorem Inv.init : NvmeProbe.init.Inv where
  up i := by simp [NvmeProbe.init, NvmeDeviceMemory.zero, NvmeDeviceMemory.IsUp, broughtUp]
  fresh _ _ _ := rfl
  assigned := nofun
  contents := nofun

/-- A step that leaves the devices alone, and brings none up. -/
theorem Inv.move (h : s.Inv) {pc : ProbePc}
    (hup : broughtUp { s with pc } = s.broughtUp) (hpc : ∀ i done q, s.pc ≠ .assign i done q)
    (hassigned : ∀ device done q, pc = .assign device done q →
      device < s.numNvmeDevices ∧ done = 0 ∧ s.broughtUp ≤ device)
    (hcontents : ∀ device, pc ≠ .contents device) : Inv { s with pc } where
  up i := by rw [hup]; exact h.up i
  fresh i hi _ := h.fresh i (hup ▸ hi) (hpc i)
  assigned := by
    intro device done q hq
    obtain ⟨hlt, rfl, hle⟩ := hassigned device done q hq
    exact ⟨hlt, Nat.zero_le _, _, h.fresh device hle (hpc device), rfl⟩
  contents device hc := absurd hc (hcontents device)

theorem Inv.probe1 (h : s.Inv) {pciDevice : Nat} (hpc : s.pc = .pciProbe) :
    Inv { s.setDevice s.numNvmeDevices { s.nvmeDevices s.numNvmeDevices with pciDevice } with
      numNvmeDevices := s.numNvmeDevices + 1 } := by
  have hzero : s.broughtUp = 0 := by rw [broughtUp, hpc]
  have hsame : ∀ i, ((s.setDevice s.numNvmeDevices
        { s.nvmeDevices s.numNvmeDevices with pciDevice }).nvmeDevices i).acq =
          (s.nvmeDevices i).acq ∧
      ((s.setDevice s.numNvmeDevices
        { s.nvmeDevices s.numNvmeDevices with pciDevice }).nvmeDevices i).iocq =
          (s.nvmeDevices i).iocq := by
    intro i
    by_cases hi : i = s.numNvmeDevices
    · rw [hi, setDevice_self]
      exact ⟨rfl, rfl⟩
    · rw [setDevice_other s hi]
      exact ⟨rfl, rfl⟩
  have hup : broughtUp { s.setDevice s.numNvmeDevices
      { s.nvmeDevices s.numNvmeDevices with pciDevice } with
        numNvmeDevices := s.numNvmeDevices + 1 } = 0 := by
    simp [broughtUp, setDevice, hpc]
  constructor
  · intro i
    rw [hup, ← hzero, ← h.up i, NvmeDeviceMemory.IsUp, NvmeDeviceMemory.IsUp, (hsame i).1,
      (hsame i).2]
  · intro i _ _
    exact (hsame i).2.trans (h.fresh i (hzero ▸ Nat.zero_le i) (by simp [hpc]))
  · intro device done q hq
    exact absurd (hpc.symm.trans hq) nofun
  · intro device hc
    exact absurd (hpc.symm.trans hc) nofun

theorem Inv.store (h : s.Inv) {device done : Nat} {q : ProbedQueues}
    {store : NvmeDeviceMemory → NvmeDeviceMemory} (hpc : s.pc = .assign device done q)
    (hnext : q.stores[done]? = some store) :
    Inv { s.setDevice device (store (s.nvmeDevices device)) with
      pc := .assign device (done + 1) q } := by
  obtain ⟨hlt, -, dev, hdev, hstored⟩ := h.assigned device done q hpc
  have hdone : done + 1 ≤ q.stores.length := (List.getElem?_eq_some_iff.mp hnext).1
  have hself : store (s.nvmeDevices device) = q.stored (done + 1) dev := by
    rw [q.stored_succ dev hnext, hstored]
  have hold : s.broughtUp = if storesToIocq ≤ done then device + 1 else device := by
    rw [broughtUp, hpc]
  constructor
  · intro i
    change ((s.setDevice device (store (s.nvmeDevices device))).nvmeDevices i).IsUp ↔
      i < if storesToIocq ≤ done + 1 then device + 1 else device
    by_cases hi : i = device
    · subst hi
      rw [setDevice_self, hself, q.stored_isUp dev hdev hdone]
      by_cases hle : storesToIocq ≤ done + 1
      · simp [hle]
      · simp [hle]
    · rw [setDevice_other s hi, h.up i, hold]
      by_cases h₁ : storesToIocq ≤ done
      · rw [if_pos h₁, if_pos (by omega)]
      · rw [if_neg h₁]
        split
        all_goals omega
  · intro i hi hne
    have hid : i ≠ device := fun he => hne (done + 1) q (he ▸ rfl)
    change ((s.setDevice device (store (s.nvmeDevices device))).nvmeDevices i).iocq = 0
    rw [setDevice_other s hid]
    refine h.fresh i ?_ ?_
    · change (if storesToIocq ≤ done + 1 then device + 1 else device) ≤ i at hi
      rw [hold]
      split
      · next h₁ =>
        rw [if_pos (by omega)] at hi
        exact hi
      · split at hi
        all_goals omega
    · intro done' q' he
      rw [hpc] at he
      exact hid (ProbePc.assign.inj he).1.symm
  · rintro _ _ _ ⟨⟩
    exact ⟨hlt, hdone, dev, hdev, (setDevice_self s device _).trans hself⟩
  · exact nofun

theorem Inv.stored (h : s.Inv) {device done : Nat} {q : ProbedQueues}
    (hpc : s.pc = .assign device done q) (hall : q.stores.length ≤ done) :
    Inv { s with pc := .contents device } := by
  obtain ⟨hlt, -, -⟩ := h.assigned device done q hpc
  have hlen : q.stores.length = 18 := rfl
  have hle : storesToIocq ≤ done := by
    simp only [storesToIocq]
    omega
  have hold : s.broughtUp = device + 1 := by rw [broughtUp, hpc]; exact if_pos hle
  refine ⟨fun i => ?_, fun i hi _ => ?_, nofun, ?_⟩
  · rw [h.up i, hold]
    rfl
  · change device + 1 ≤ i at hi
    refine h.fresh i (hold ▸ hi) fun done' q' he => ?_
    rw [hpc] at he
    have hd := (ProbePc.assign.inj he).1
    omega
  · rintro _ ⟨⟩
    exact hlt

theorem Inv.interrupt (h : s.Inv) : s.handleInterrupt.Inv :=
  ⟨h.up, h.fresh, h.assigned, h.contents⟩

end NvmeProbe

theorem NvmeProbeStep.inv {s s' : NvmeProbe} (h : NvmeProbeStep s s') (hi : s.Inv) : s'.Inv := by
  cases h with
  | probe1 at_pc fits => exact hi.probe1 at_pc
  | probed at_pc =>
    exact hi.move (by simp [NvmeProbe.broughtUp, at_pc]) (by simp [at_pc]) nofun nofun
  | first at_pc some =>
    have hzero : s.broughtUp = 0 := by rw [NvmeProbe.broughtUp, at_pc]
    refine hi.move (by rw [hzero]; rfl) (by simp [at_pc]) ?_ nofun
    rintro _ _ _ ⟨⟩
    exact ⟨some, rfl, Nat.le_of_eq hzero⟩
  | none at_pc none =>
    have hzero : s.broughtUp = 0 := by rw [NvmeProbe.broughtUp, at_pc]
    exact hi.move (hzero ▸ none) (by simp [at_pc]) nofun nofun
  | store at_pc next => exact hi.store at_pc next
  | stored at_pc all => exact hi.stored at_pc all
  | @next device q at_pc more =>
    have hold : s.broughtUp = device + 1 := by rw [NvmeProbe.broughtUp, at_pc]
    refine hi.move (by rw [hold]; rfl) (by simp [at_pc]) ?_ nofun
    rintro _ _ _ ⟨⟩
    exact ⟨more, rfl, Nat.le_of_eq hold⟩
  | @last device at_pc no_more =>
    have hlt := hi.contents device at_pc
    have hold : s.broughtUp = device + 1 := by rw [NvmeProbe.broughtUp, at_pc]
    have hnum : s.numNvmeDevices = device + 1 := by omega
    exact hi.move (hold ▸ hnum) (by simp [at_pc]) nofun nofun
  | interrupt => exact hi.interrupt

/-- Only an interrupt goes through the devices. -/
theorem NvmeProbeStep.touches {s s' : NvmeProbe} (h : NvmeProbeStep s s') (hi : s.Inv)
    (ht : s.TouchesUp) : s'.TouchesUp ↔ InterruptsLater s s' := by
  have hsame : s'.handled = s.handled → (s'.TouchesUp ↔ InterruptsLater s s') := by
    intro he
    refine ⟨fun _ => .inl he, fun _ => ?_⟩
    rw [NvmeProbe.TouchesUp, he]
    exact ht
  cases h with
  | probe1 => exact hsame rfl
  | probed => exact hsame rfl
  | first => exact hsame rfl
  | none => exact hsame rfl
  | store => exact hsame rfl
  | stored => exact hsame rfl
  | next => exact hsame rfl
  | last => exact hsame rfl
  | interrupt =>
    have hall : s.handleInterrupt.TouchesUp ↔ s.numNvmeDevices ≤ s.broughtUp := by
      constructor
      · intro hup
        by_contra hgt
        have hlt : s.broughtUp < s.numNvmeDevices := Nat.lt_of_not_le hgt
        have hdev := hup _ (List.mem_append_right _ List.mem_cons_self)
          (s.nvmeDevices s.broughtUp) (List.mem_map.mpr ⟨_, List.mem_range.mpr hlt, rfl⟩)
        exact Nat.lt_irrefl _ ((hi.up _).mp hdev)
      · intro hle devs hdevs
        rcases List.mem_append.mp hdevs with hold | hnew
        · exact ht devs hold
        · rw [List.mem_singleton.mp hnew]
          intro dev hdev
          obtain ⟨i, hi', rfl⟩ := List.mem_map.mp hdev
          exact (hi.up i).mpr (Nat.lt_of_lt_of_le (List.mem_range.mp hi') hle)
    rw [hall, InterruptsLater]
    refine ⟨.inr, fun h => h.resolve_left ?_⟩
    intro he
    have hlen := congrArg List.length he
    simp [NvmeProbe.handleInterrupt] at hlen

theorem NvmeProbeRun.inv {s : NvmeProbe} (h : NvmeProbeRun s) : s.Inv ∧ s.TouchesUp := by
  induction h with
  | refl => exact ⟨.init, nofun⟩
  | tail _ hstep ih => exact ⟨hstep.1.inv ih.1, (hstep.1.touches ih.1 ih.2).mpr hstep.2⟩

/-- While interrupts come only before the first device is counted or after the last one
is up, the handler goes through no other device, and the first interrupt in between makes
it do so. -/
theorem handler_touches_up {s : NvmeProbe} (h : NvmeProbeRun s) :
    s.TouchesUp ∧ ∀ s', NvmeProbeStep s s' → (s'.TouchesUp ↔ InterruptsLater s s') :=
  ⟨h.inv.2, fun _ hstep => hstep.touches h.inv.1 h.inv.2⟩

/-- `nvme_probe_2` comes to the end of its assignments. -/
theorem NvmeProbeRun.assigned {s : NvmeProbe} {device done : Nat} {q : ProbedQueues}
    (h : NvmeProbeRun s) (hpc : s.pc = .assign device done q) :
    ∃ s', NvmeProbeRun s' ∧ s'.pc = .contents device ∧ s'.numNvmeDevices = s.numNvmeDevices ∧
      s'.handled = s.handled := by
  generalize hm : q.stores.length - done = m
  induction m generalizing s done with
  | zero => exact ⟨_, h.tail ⟨.stored hpc (by omega), .inl rfl⟩, rfl, rfl, rfl⟩
  | succ m ih =>
    have hlt : done < q.stores.length := by omega
    have hnext := h.tail ⟨.store hpc (List.getElem?_eq_getElem hlt), .inl rfl⟩
    obtain ⟨s', hrun, hpc', hnum, hhandled⟩ := ih hnext rfl (by omega)
    exact ⟨s', hrun, hpc', hnum, hhandled⟩

def exampleQueues : ProbedQueues := ⟨0x1000, 0x2000, 0x3000, 0x4000, 0x5000, 0x10400, by decide⟩

/-- One device, and an interrupt once it is up. -/
theorem handler_touches_up_one_device : ∃ s : NvmeProbe,
    s.handled.length = 1 ∧ s.numNvmeDevices = 1 ∧ s.TouchesUp := by
  have h₁ : NvmeProbeRun _ := .single ⟨@NvmeProbeStep.probe1 _ 3 rfl (by decide), .inl rfl⟩
  have h₂ := h₁.tail ⟨.probed rfl, .inl rfl⟩
  have h₃ := h₂.tail ⟨.first (q := exampleQueues) rfl (by decide), .inl rfl⟩
  obtain ⟨s, hrun, hpc, hnum, hhandled⟩ := NvmeProbeRun.assigned h₃ rfl
  have hup : s.broughtUp = 1 := by rw [NvmeProbe.broughtUp, hpc]
  have h₄ := hrun.tail ⟨.interrupt, .inr (by rw [hnum, hup]; decide)⟩
  refine ⟨s.handleInterrupt, ?_, hnum, (handler_touches_up h₄).1⟩
  rw [NvmeProbe.handleInterrupt, hhandled]
  rfl

/-- Two devices. The first one's own command is completed while the second one is not up. -/
theorem handler_reads_null_queue : ∃ s : NvmeProbe,
    Relation.ReflTransGen NvmeProbeStep .init s ∧ ¬s.TouchesUp := by
  have h₁ : NvmeProbeRun _ := .single ⟨@NvmeProbeStep.probe1 _ 3 rfl (by decide), .inl rfl⟩
  have h₂ := h₁.tail ⟨@NvmeProbeStep.probe1 _ 4 rfl (by decide), .inl rfl⟩
  have h₃ := h₂.tail ⟨.probed rfl, .inl rfl⟩
  have h₄ := h₃.tail ⟨.first (q := exampleQueues) rfl (by decide), .inl rfl⟩
  obtain ⟨s, hrun, hpc, hnum, -⟩ := NvmeProbeRun.assigned h₄ rfl
  have hup : s.broughtUp = 1 := by rw [NvmeProbe.broughtUp, hpc]
  have hinv := hrun.inv
  have hreach := Relation.ReflTransGen.mono (fun _ _ hs => And.left hs) _ _ hrun
  refine ⟨s.handleInterrupt, hreach.tail .interrupt, fun htouches => ?_⟩
  have hlater := (NvmeProbeStep.interrupt.touches hinv.1 hinv.2).mp htouches
  rcases hlater with he | hle
  · have hlen := congrArg List.length he
    simp [NvmeProbe.handleInterrupt] at hlen
  · rw [hnum, hup] at hle
    exact absurd hle (by decide)

end Persistos
