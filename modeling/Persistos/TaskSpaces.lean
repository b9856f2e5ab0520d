import Persistos.SpaceActions

/-! The memories of all tasks in one kernel. Each program sees a memory that is a function of
its own calls, and of its parent's up to the FORK, whatever the other tasks do in between. -/

namespace Persistos

open Theory

/-- What a program has of its memory: the ranges that the kernel lists, and its bytes. -/
structure Program where
  memoryRangesLh : List UserspaceMemoryRange
  bytes : U64 → Option U8

/-- A call of a task that changes its own memory. EXEC empties the memory, maps the ranges of
the new program and writes what it reads from the file. -/
inductive OwnCall where
  | load (segmentHeaders : List Phdr)
  | brk (arg3 : U64)
  | write (v : U64) (b : U8)
  | empty

namespace Program

/-- A program before it is loaded. -/
def blank : Program := ⟨[], fun _ => none⟩

def pagesOf (ranges : List UserspaceMemoryRange) (n : Nat) : Prop :=
  ∃ range ∈ ranges, Between range.start range.stop n

instance (ranges : List UserspaceMemoryRange) (n : Nat) : Decidable (pagesOf ranges n) :=
  inferInstanceAs (Decidable (∃ range ∈ ranges, Between range.start range.stop n))

/-- The end of the heap after the loop of BRK. -/
def brkEnd (stop arg3 : U64) : U64 :=
  if stop < arg3 then BitVec.ofNat 64 ((arg3.toNat + 4095) / 4096 * 4096) else stop

/-- Pages of zeros in the lower half. -/
def zeros (p : Program) (pages : Nat → Prop) [DecidablePred pages] : U64 → Option U8 := fun v =>
  if v.toNat < 2 ^ 47 ∧ pages (v.toNat / 4096) then some 0 else p.bytes v

def brk (p : Program) (arg3 : U64) : Program :=
  match p.memoryRangesLh.find? fun range => range.type = .heap with
  | none => p
  | some heap =>
    if arg3 = 0 then p
    else ⟨TaskMemory.setHeapEnd (brkEnd heap.stop arg3) p.memoryRangesLh,
      p.zeros (Between heap.stop arg3)⟩

end Program

def OwnCall.apply : OwnCall → Program → Program
  | .load segmentHeaders, p =>
    ⟨elfRanges segmentHeaders, p.zeros (Program.pagesOf (elfRanges segmentHeaders))⟩
  | .brk arg3, p => p.brk arg3
  | .write v b, p => { p with bytes := Function.update p.bytes v (some b) }
  | .empty, _ => .blank

/-- What the tasks with names in `ι` have. -/
abbrev Programs (ι : Type) := ι → Option Program

inductive SpaceEvent (ι : Type) where
  | setup (i : ι)
  | own (i : ι) (call : OwnCall)
  | fork (i child : ι)
  | reap (i : ι)
  | other

/-- The memory that an event is about, which no other event changes. -/
def SpaceEvent.target {ι : Type} : SpaceEvent ι → Option ι
  | .setup i => some i
  | .own i _ => some i
  | .fork _ child => some child
  | .reap i => some i
  | .other => none

section Programs

variable {ι : Type} [DecidableEq ι]

def SpaceEvent.apply : SpaceEvent ι → Programs ι → Programs ι
  | .setup i, p => Function.update p i (some .blank)
  | .own i call, p => Function.update p i ((p i).map call.apply)
  | .fork i child, p => Function.update p child (p i)
  | .reap i, p => Function.update p i none
  | .other, p => p

end Programs

/-- `readUser` in the half of the addresses that programs can use. -/
def UserSpace.programBytes (s : UserSpace) (pml4 v : U64) : Option U8 :=
  if v.toNat < 2 ^ 47 then s.readUser pml4 v else none

def TaskMemory.program (s : TaskMemory) (pml4 : U64) : Program :=
  ⟨s.memoryRangesLh, s.kernel.space.programBytes pml4⟩

/-- A call of a task with the tables of `pml4`. Segments stay in the lower half and start at
page boundaries, and the heap stays in the lower half. -/
inductive OwnCall.Runs (pml4 : U64) (s : TaskMemory) : OwnCall → TaskMemory → Prop where
  | load {segmentHeaders : List Phdr} {s' : TaskMemory} (hb : PageBounded (.load segmentHeaders))
      (hnil : s.memoryRangesLh = []) (h : s.loadElf64 pml4 segmentHeaders = .ok s') :
      OwnCall.Runs pml4 s (.load segmentHeaders) s'
  | brk {arg3 result : U64} {s' : TaskMemory} (hb : PageBounded (.brk arg3))
      (h : s.sysBrk pml4 arg3 = .ok (s', result)) : OwnCall.Runs pml4 s (.brk arg3) s'
  | write {v : U64} {b : U8} {space : UserSpace} (hv : v.toNat < 2 ^ 47)
      (h : s.kernel.space.writeUser pml4 v b = .ok space) :
      OwnCall.Runs pml4 s (.write v b) ⟨{ s.kernel with space }, s.memoryRangesLh⟩
  | empty {objects : List U64} {m : UserMemory}
      (h : freeUserspaceMemory ⟨⟨s.kernel.space, []⟩, s.kernel.ranges, objects⟩ pml4 = .ok m) :
      OwnCall.Runs pml4 s .empty ⟨{ s.kernel with space := m.pages.space, ranges := m.ranges }, []⟩

/-- What the kernel keeps for the memory of a task. -/
structure TaskSpace where
  pml4Page : U64
  memoryRangesLh : List UserspaceMemoryRange

structure TaskSpaces (ι : Type) where
  kernel : UserKernel
  task : ι → Option TaskSpace

namespace TaskSpaces

variable {ι : Type} [DecidableEq ι]

def space (s : TaskSpaces ι) : UserSpace := s.kernel.space

def owned (s : TaskSpaces ι) (i : ι) : Set U64 :=
  (s.task i).elim ∅ fun t => s.space.owned t.pml4Page

def programs (s : TaskSpaces ι) : Programs ι := fun i =>
  (s.task i).map fun t => TaskMemory.program ⟨s.kernel, t.memoryRangesLh⟩ t.pml4Page

/-- The tasks take their steps in any order. A new task gets the upper half of the PML4 `p`,
and the rest of the kernel leaves the frames of the tasks alone. -/
inductive Step (s : TaskSpaces ι) : SpaceEvent ι → TaskSpaces ι → Prop where
  | setup {i : ι} {p pml4Page : U64} {space : UserSpace} (hnew : s.task i = none)
      (h : s.space.allocCleared = .ok (pml4Page, space)) :
      Step s (.setup i) ⟨{ s.kernel with space := space.copyUpperHalf p pml4Page },
        Function.update s.task i (some ⟨pml4Page, []⟩)⟩
  | own {i : ι} {t : TaskSpace} {call : OwnCall} {k : UserKernel}
      {ranges : List UserspaceMemoryRange} (ht : s.task i = some t)
      (h : call.Runs t.pml4Page ⟨s.kernel, t.memoryRangesLh⟩ ⟨k, ranges⟩) :
      Step s (.own i call) ⟨k, Function.update s.task i (some ⟨t.pml4Page, ranges⟩)⟩
  | fork {i child : ι} {t : TaskSpace} {k : UserKernel} {pml4Page : U64} {fds : List U32}
      (ht : s.task i = some t) (hnew : s.task child = none)
      (h : forkMemory ⟨s.kernel, t.memoryRangesLh⟩ t.pml4Page fds = .ok (k, pml4Page)) :
      Step s (.fork i child)
        ⟨k, Function.update s.task child (some ⟨pml4Page, t.memoryRangesLh⟩)⟩
  | reap {i : ι} {t : TaskSpace} {objects : List U64} {m : UserMemory} (ht : s.task i = some t)
      (h : freeUserspaceMemory ⟨⟨s.space, []⟩, s.kernel.ranges, objects⟩ t.pml4Page = .ok m) :
      Step s (.reap i) ⟨{ s.kernel with
        space := (m.pages.kpageFree t.pml4Page).space, ranges := m.ranges },
        Function.update s.task i none⟩
  | other {k : UserKernel} (h : Acts s.space {f | ∀ i, f ∉ s.owned i} k.space
      {f | ∀ i, f ∉ s.owned i}) : Step s .other ⟨k, s.task⟩

/-- The events of a run, in their order. -/
inductive Run : TaskSpaces ι → List (SpaceEvent ι) → TaskSpaces ι → Prop where
  | nil {s : TaskSpaces ι} : Run s [] s
  | cons {s s₁ s' : TaskSpaces ι} {e : SpaceEvent ι} {events : List (SpaceEvent ι)}
      (h : s.Step e s₁) (hr : Run s₁ events s') : Run s (e :: events) s'

end TaskSpaces

/-- A task has exactly the pages of its ranges, each in a frame of its own. -/
structure MemoryInv (pml4 : U64) (s : TaskMemory) : Prop where
  inv : TaskInv pml4 s
  own : OwnFrames pml4 s.kernel.space

section Calls

variable {pml4 : U64} {s s' : TaskMemory} {k : UserKernel} {o o' : Set U64}

theorem programBytes_congr {s s' : UserSpace}
    (h : ∀ v : U64, v.toNat < 2 ^ 47 → s'.readUser pml4 v = s.readUser pml4 v) :
    s'.programBytes pml4 = s.programBytes pml4 := by
  funext v
  rw [UserSpace.programBytes, UserSpace.programBytes]
  split
  · next hv => exact h v hv
  · rfl

theorem Program.zeros_of_fresh {s s' : UserSpace} {ranges : List UserspaceMemoryRange}
    {pages : Nat → Prop} [DecidablePred pages] (h : FreshPages pml4 s s' pages) :
    s'.programBytes pml4 = Program.zeros ⟨ranges, s.programBytes pml4⟩ pages := by
  funext v
  rw [UserSpace.programBytes, Program.zeros]
  dsimp only
  rw [UserSpace.programBytes]
  by_cases hv : v.toNat < 2 ^ 47
  · by_cases hn : pages (v.toNat / 4096)
    · rw [if_pos hv, if_pos ⟨hv, hn⟩]
      exact h.zero v hv hn
    · rw [if_pos hv, if_neg fun hh => hn hh.2, if_pos hv]
      exact h.kept v hv hn
  · rw [if_neg hv, if_neg fun hh => hv hh.1, if_neg hv]

/-- A task whose frames are left alone keeps its memory. -/
theorem MemoryInv.frame (h : MemoryInv pml4 s) (ha : Acts s.kernel.space o k.space o')
    (hd : Disjoint (s.kernel.space.owned pml4) o) :
    MemoryInv pml4 ⟨k, s.memoryRangesLh⟩ ∧
      TaskMemory.program ⟨k, s.memoryRangesLh⟩ pml4 = s.program pml4 ∧
      k.space.owned pml4 = s.kernel.space.owned pml4 := by
  obtain ⟨hmap, howned, hframe, hread⟩ := ha.frame h.own.map hd
  refine ⟨⟨⟨⟨hmap, fun v hv => ?_⟩, h.inv.ranges⟩, h.own.congr hmap hframe⟩, ?_, howned⟩
  · rw [hframe v hv]
    exact h.inv.loaded.mapped v hv
  · rw [TaskMemory.program, TaskMemory.program, programBytes_congr hread]

theorem isSome_frameAt {s : UserSpace} {v : U64} :
    (s.frameAt pml4 v).isSome = (s.readUser pml4 v).isSome := by
  rw [UserSpace.readUser, Option.isSome_map]

theorem brkEnd_eq {stop arg3 last : U64} (hstop : PageAligned stop) (hlast : PageAligned last)
    (hle : stop.toNat ≤ last.toNat) (hle' : arg3.toNat ≤ last.toNat)
    (h : last = stop ∨ last.toNat < arg3.toNat + 4096) : Program.brkEnd stop arg3 = last := by
  have hbound := last.isLt
  simp only [PageAligned] at hstop hlast
  apply BitVec.eq_of_toNat_eq
  rw [Program.brkEnd]
  split
  · next hlt =>
    have hlt' : stop.toNat < arg3.toNat := hlt
    have hnext : last.toNat < arg3.toNat + 4096 := by
      rcases h with rfl | h
      · omega
      · exact h
    rw [BitVec.toNat_ofNat]
    omega
  · next hge =>
    have hge' : arg3.toNat ≤ stop.toNat := Nat.le_of_not_lt hge
    rcases h with rfl | h
    · rfl
    · omega

theorem MemoryInv.load {segmentHeaders : List Phdr} (h : MemoryInv pml4 s)
    (hb : PageBounded (.load segmentHeaders)) (hnil : s.memoryRangesLh = [])
    (hs : s.loadElf64 pml4 segmentHeaders = .ok s') :
    Acts s.kernel.space (s.kernel.space.owned pml4) s'.kernel.space (s'.kernel.space.owned pml4) ∧
      s'.program pml4 = OwnCall.apply (.load segmentHeaders) (s.program pml4) := by
  have hstop : ∀ range ∈ elfRanges segmentHeaders, range.stop.toNat ≤ 2 ^ 47 :=
    fun range hr => (elfRanges_ok hb range hr).stop
  obtain ⟨s₁, hadd, hs⟩ := bind_eq_ok hs
  obtain ⟨space, hsetup, he⟩ := bind_eq_ok hs
  obtain rfl := Except.ok.inj he
  obtain ⟨haside, hranges⟩ := h.own.map.addRanges hadd
  rw [hnil, List.nil_append] at hranges
  rw [hranges] at hsetup ⊢
  have hown := h.own.aside haside
  have hfresh := FreshPages.setupUserspaceMemory hown hstop hsetup
  obtain ⟨ps, hps, hlow, -⟩ := MapsPages.of_setup hstop hsetup
  refine ⟨(h.own.map.aside_acts haside).trans (hps.acts hown hlow), ?_⟩
  obtain ⟨-, -, hread, -⟩ := h.own.map.aside haside
  rw [OwnCall.apply, TaskMemory.program, TaskMemory.program, ← programBytes_congr hread]
  exact congrArg _ (Program.zeros_of_fresh hfresh)

theorem MemoryInv.brk {arg3 result : U64} (h : MemoryInv pml4 s) (hb : PageBounded (.brk arg3))
    (hs : s.sysBrk pml4 arg3 = .ok (s', result)) :
    Acts s.kernel.space (s.kernel.space.owned pml4) s'.kernel.space (s'.kernel.space.owned pml4) ∧
      OwnFrames pml4 s'.kernel.space ∧ s'.program pml4 = (s.program pml4).brk arg3 := by
  rw [TaskMemory.sysBrk] at hs
  have hlist : (s.program pml4).memoryRangesLh = s.memoryRangesLh := rfl
  split at hs
  · next hfind =>
    obtain ⟨rfl, -⟩ := Prod.mk.inj (Except.ok.inj hs)
    rw [Program.brk, hlist, hfind]
    exact ⟨.refl _ _, h.own, rfl⟩
  · next heap hfind =>
    rw [Program.brk, hlist, hfind]
    dsimp only
    split at hs
    · next hz =>
      obtain ⟨rfl, -⟩ := Prod.mk.inj (Except.ok.inj hs)
      rw [if_pos hz]
      exact ⟨.refl _ _, h.own, rfl⟩
    · next hz =>
      obtain ⟨⟨space, last⟩, hmap, he⟩ := bind_eq_ok hs
      simp only [Except.ok.injEq, Prod.mk.injEq] at he
      obtain ⟨rfl, rfl⟩ := he
      have hheap := h.inv.ranges heap (List.mem_of_find?_eq_some hfind)
      obtain ⟨-, hend, -⟩ := hheap.heap (by simpa using List.find?_some hfind)
      have hb' : arg3.toNat ≤ 2 ^ 47 := hb
      obtain ⟨hfresh, hal, hle, hle', hlast⟩ := h.own.mapPages hend hb' hmap
      obtain ⟨ps, hps, hlow, -⟩ := MapsPages.of_forPages hb' hend hmap
      have hfresh' := hfresh.congr (between_last hal hle' hlast)
      rw [if_neg hz, brkEnd_eq hend hal hle hle' hlast]
      refine ⟨hps.acts h.own hlow, hfresh.own, ?_⟩
      exact congrArg (Program.mk _) (Program.zeros_of_fresh hfresh')

theorem MemoryInv.write {v : U64} {b : U8} {space : UserSpace} (h : MemoryInv pml4 s)
    (hv : v.toNat < 2 ^ 47) (hs : s.kernel.space.writeUser pml4 v b = .ok space) :
    MemoryInv pml4 ⟨{ s.kernel with space }, s.memoryRangesLh⟩ ∧
      space.programBytes pml4 = Function.update (s.kernel.space.programBytes pml4) v (some b) := by
  obtain ⟨hown, hread⟩ := h.own.writeUser hv hs
  refine ⟨⟨⟨⟨hown.map, fun w hw => ?_⟩, h.inv.ranges⟩, hown⟩, ?_⟩
  · have hmapped : (s.kernel.space.readUser pml4 v).isSome := by
      rw [← isSome_frameAt]
      rw [UserSpace.writeUser] at hs
      split at hs
      · cases hs
      · next hf =>
        rw [hf]
        rfl
    rw [← h.inv.loaded.mapped w hw, isSome_frameAt, isSome_frameAt]
    dsimp only
    rw [hread w hw]
    split
    · next he => simp [he, hmapped]
    · exact Iff.rfl
  · funext w
    rw [Function.update_apply, UserSpace.programBytes, UserSpace.programBytes]
    by_cases hw : w.toNat < 2 ^ 47
    · rw [if_pos hw, if_pos hw, hread w hw]
    · have hne : w ≠ v := by
        rintro rfl
        exact hw hv
      rw [if_neg hw, if_neg hw, if_neg hne]

/-- What `free_userspace_memory` leaves of a task. -/
theorem MemoryInv.empty {objects : List U64} {m : UserMemory} (h : MemoryInv pml4 s)
    (hs : freeUserspaceMemory ⟨⟨s.kernel.space, []⟩, s.kernel.ranges, objects⟩ pml4 = .ok m) :
    MemoryInv pml4 ⟨{ s.kernel with space := m.pages.space, ranges := m.ranges }, []⟩ ∧
      Acts s.kernel.space (s.kernel.space.owned pml4) m.pages.space (m.pages.space.owned pml4) ∧
      m.pages.space.programBytes pml4 = fun _ => none := by
  obtain ⟨ranges, -, he⟩ := bind_eq_ok hs
  obtain rfl := Except.ok.inj he
  obtain ⟨hown, -, hnone, -⟩ := h.own.freePml4
  refine ⟨⟨⟨⟨hown.map, fun v hv => ?_⟩, by simp⟩, hown⟩, h.own.freePml4_acts, ?_⟩
  · dsimp only
    rw [hnone v hv]
    simp
  · funext v
    rw [UserSpace.programBytes]
    split
    · next hv =>
      rw [UserSpace.readUser, hnone v hv]
      rfl
    · rfl

/-- A call of a task acts on its own frames and does to its memory what the program asks for. -/
theorem OwnCall.Runs.spec {call : OwnCall} (hs : call.Runs pml4 s s') (h : MemoryInv pml4 s) :
    MemoryInv pml4 s' ∧
      Acts s.kernel.space (s.kernel.space.owned pml4) s'.kernel.space
        (s'.kernel.space.owned pml4) ∧
      s'.program pml4 = call.apply (s.program pml4) := by
  cases hs with
  | load hb hnil hload =>
    obtain ⟨hacts, hprogram⟩ := h.load hb hnil hload
    have hstop := fun range hr => (elfRanges_ok hb range hr).stop
    obtain ⟨hown, -⟩ := h.own.loadElf64 hnil hstop hload
    exact ⟨⟨(MemoryStep.load hb hnil hload).inv h.inv, hown⟩, hacts, hprogram⟩
  | brk hb hbrk =>
    obtain ⟨hacts, hown, hprogram⟩ := h.brk hb hbrk
    exact ⟨⟨(MemoryStep.brk hb hbrk).inv h.inv, hown⟩, hacts, hprogram⟩
  | write hv hwrite =>
    obtain ⟨hinv, hbytes⟩ := h.write hv hwrite
    exact ⟨hinv, h.own.writeUser_acts hv hwrite, congrArg (Program.mk _) hbytes⟩
  | empty hempty =>
    obtain ⟨hinv, hacts, hbytes⟩ := h.empty hempty
    exact ⟨hinv, hacts, congrArg (Program.mk _) hbytes⟩

/-- The child of FORK has the memory of its parent. -/
theorem MemoryInv.fork {child : U64} {fds : List U32} (h : MemoryInv pml4 s)
    (hf : forkMemory s pml4 fds = .ok (k, child)) :
    MemoryInv child ⟨k, s.memoryRangesLh⟩ ∧
      TaskMemory.program ⟨k, s.memoryRangesLh⟩ child = s.program pml4 := by
  have hok := h.inv.ranges
  have hcovers : ∀ n, (∃ range ∈ s.memoryRangesLh, ForkCovers range n) ↔
      ∃ range ∈ s.memoryRangesLh, Between range.start range.stop n := by
    intro n
    exact exists_congr fun range => and_congr_right fun hr => forkCovers_iff (hok range hr) n
  have hc := (h.inv.loaded.map.forkMemory (fun r hr => (hok r hr).forkStart)
    (fun r hr => (hok r hr).stop) (fun r hr v hv hcov => (h.inv.loaded.mapped v hv).mpr
      ((hcovers _).mp ⟨r, hr, hcov⟩)) hf).congr hcovers
  obtain ⟨-, -, -, hbytes, hkept⟩ := h.inv.copiedSpace hf
  refine ⟨⟨⟨⟨hc.childMap, hc.childPages⟩, hok⟩, hc.childMap, hc.childFrames⟩, ?_⟩
  refine congrArg (Program.mk _) (funext fun v => ?_)
  dsimp only
  rw [UserSpace.programBytes, UserSpace.programBytes]
  split
  · next hv => exact (hbytes v hv).trans (hkept v hv).2
  · rfl

end Calls

namespace TaskSpaces

variable {ι : Type} [DecidableEq ι] {s s' : TaskSpaces ι} {e : SpaceEvent ι} {i j : ι}

/-- The memories of the tasks are in order, and no two tasks have a frame in common. -/
structure Inv (s : TaskSpaces ι) : Prop where
  kmem : KmemInv s.space.kernel
  direct : DirectMap s.space.kernel.kmem
  memory : ∀ i t, s.task i = some t → MemoryInv t.pml4Page ⟨s.kernel, t.memoryRangesLh⟩
  separated : Separated s.space.cells s.owned

omit [DecidableEq ι] in
theorem owned_some {t : TaskSpace} (h : s.task i = some t) :
    s.owned i = s.space.owned t.pml4Page := by
  rw [owned, h]
  rfl

omit [DecidableEq ι] in
theorem owned_none (h : s.task i = none) : s.owned i = ∅ := by
  rw [owned, h]
  rfl

omit [DecidableEq ι] in
/-- What is done to other frames than those of a task leaves the task alone. -/
theorem Inv.frame {k : UserKernel} {o o' : Set U64} (h : Inv s) (ha : Acts s.space o k.space o')
    (hd : Disjoint (s.owned j) o) : ∀ t, s.task j = some t →
      MemoryInv t.pml4Page ⟨k, t.memoryRangesLh⟩ ∧
      TaskMemory.program ⟨k, t.memoryRangesLh⟩ t.pml4Page =
        TaskMemory.program ⟨s.kernel, t.memoryRangesLh⟩ t.pml4Page ∧
      k.space.owned t.pml4Page = s.owned j := by
  intro t ht
  rw [owned_some ht] at hd ⊢
  exact (h.memory j t ht).frame ha hd

/-- A step with the frames of one task, which then is `new`. -/
theorem Inv.update {k : UserKernel} (new : Option TaskSpace) (h : Inv s)
    (ha : Acts s.space (s.owned i) k.space (new.elim ∅ fun t => k.space.owned t.pml4Page))
    (hnew : ∀ t, new = some t → MemoryInv t.pml4Page ⟨k, t.memoryRangesLh⟩) :
    Inv ⟨k, Function.update s.task i new⟩ ∧
      programs ⟨k, Function.update s.task i new⟩ = Function.update s.programs i
        (new.map fun t => TaskMemory.program ⟨k, t.memoryRangesLh⟩ t.pml4Page) := by
  have hothers : ∀ j, j ≠ i → Disjoint (s.owned j) (s.owned i) :=
    fun j hj => h.separated.apart j i hj
  have howned : ∀ j, owned ⟨k, Function.update s.task i new⟩ j =
      if j = i then new.elim ∅ fun t => k.space.owned t.pml4Page else s.owned j := by
    intro j
    rw [owned]
    dsimp only
    rw [Function.update_apply]
    split
    · rfl
    · next hj =>
      cases ht : s.task j with
      | none => exact (owned_none ht).symm
      | some t => exact (h.frame ha (hothers j hj) t ht).2.2
  refine ⟨⟨h.kmem.steps ha.steps, h.direct.steps ha.steps, fun j t ht => ?_, ?_⟩,
    funext fun j => ?_⟩
  · dsimp only at ht
    rw [Function.update_apply] at ht
    split at ht
    · exact hnew t ht
    · next hj => exact (h.frame ha (hothers j hj) t ht).1
  · have hlocal : LocalStep s.space.cells (s.owned i) k.space.cells
        (owned ⟨k, Function.update s.task i new⟩ i) := by
      rw [howned, if_pos rfl]
      exact ha.cells
    refine h.separated.step hlocal ?_ fun j hj => ?_
    · rw [howned, if_pos rfl]
      cases new with
      | none => exact Set.empty_subset _
      | some t => exact fun f hf => (hnew t rfl).own.map.live hf
    · rw [howned, if_neg hj]
  · rw [programs]
    dsimp only
    rw [Function.update_apply, Function.update_apply]
    split
    · rfl
    · next hj =>
      rw [programs]
      cases ht : s.task j with
      | none => rfl
      | some t => exact congrArg some (h.frame ha (hothers j hj) t ht).2.1

omit [DecidableEq ι] in
/-- What is done to frames that no task has leaves what the tasks have. -/
theorem Inv.owned_other {k : UserKernel} (h : Inv s)
    (ha : Acts s.space {f | ∀ i, f ∉ s.owned i} k.space {f | ∀ i, f ∉ s.owned i}) (j : ι) :
    Disjoint (s.owned j) {f | ∀ i, f ∉ s.owned i} ∧ owned ⟨k, s.task⟩ j = s.owned j := by
  have hd : Disjoint (s.owned j) {f | ∀ i, f ∉ s.owned i} :=
    Set.disjoint_left.mpr fun f hf hn => hn j hf
  refine ⟨hd, ?_⟩
  cases ht : s.task j with
  | none => rw [owned_none ht, owned_none (s := ⟨k, s.task⟩) ht]
  | some t =>
    rw [owned_some (s := ⟨k, s.task⟩) ht]
    exact (h.frame ha hd t ht).2.2

theorem Inv.step (h : Inv s) (hs : s.Step e s') : Inv s' ∧ s'.programs = e.apply s.programs := by
  cases hs with
  | @setup i p pml4Page space hnew halloc =>
    obtain ⟨hacts, hown, hnone⟩ := setup_acts p h.kmem h.direct halloc
    rw [← owned_none hnew] at hacts
    have hbytes : (space.copyUpperHalf p pml4Page).programBytes pml4Page = fun _ => none := by
      funext v
      rw [UserSpace.programBytes]
      split
      · next hv =>
        rw [UserSpace.readUser, hnone v hv]
        rfl
      · rfl
    obtain ⟨hinv, hprograms⟩ := h.update (some ⟨pml4Page, []⟩)
      (k := { s.kernel with space := space.copyUpperHalf p pml4Page }) hacts (by
        intro t he
        obtain rfl := Option.some.inj he
        refine ⟨⟨⟨hown.map, fun v hv => ?_⟩, by simp⟩, hown⟩
        dsimp only
        rw [hnone v hv]
        simp)
    refine ⟨hinv, hprograms.trans ?_⟩
    exact congrArg (fun bytes => Function.update s.programs i (some ⟨[], bytes⟩)) hbytes
  | @own i t call k ranges ht hcall =>
    obtain ⟨hmem, hacts, hprogram⟩ := hcall.spec (h.memory i t ht)
    rw [show s.kernel.space.owned t.pml4Page = s.owned i from (owned_some ht).symm] at hacts
    obtain ⟨hinv, hprograms⟩ := h.update (some ⟨t.pml4Page, ranges⟩) hacts (by
      intro t' he
      obtain rfl := Option.some.inj he
      exact hmem)
    refine ⟨hinv, hprograms.trans ?_⟩
    rw [SpaceEvent.apply, programs, ht]
    exact congrArg (fun p => Function.update s.programs i (some p)) hprogram
  | @fork i child t k pml4Page fds ht hnew hfork =>
    have hparent := h.memory i t ht
    obtain ⟨hmem, hprogram⟩ := hparent.fork hfork
    have hacts := hparent.inv.forkMemory_acts hfork
    rw [← owned_none hnew] at hacts
    obtain ⟨hinv, hprograms⟩ := h.update (some ⟨pml4Page, t.memoryRangesLh⟩) hacts (by
      intro t' he
      obtain rfl := Option.some.inj he
      exact hmem)
    refine ⟨hinv, hprograms.trans ?_⟩
    rw [SpaceEvent.apply, show s.programs i = some _ from congrArg (Option.map _) ht]
    exact congrArg (fun p => Function.update s.programs child (some p)) hprogram
  | @reap i t objects m ht hfree =>
    have hmem := h.memory i t ht
    obtain ⟨hempty, hacts, -⟩ := hmem.empty hfree
    have hroot : (⟨t.pml4Page, 1⟩ : Block) ∈ m.pages.space.kernel.live :=
      hempty.own.map.live (hempty.own.owns List.mem_cons_self)
    have hroot' : t.pml4Page ∈ m.pages.space.owned t.pml4Page :=
      hempty.own.owns List.mem_cons_self
    have hacts' : Acts s.space (s.kernel.space.owned t.pml4Page)
        (m.pages.kpageFree t.pml4Page).space ∅ :=
      hacts.trans (Acts.kpageFree hroot hroot' (Set.empty_subset _))
    rw [show s.kernel.space.owned t.pml4Page = s.owned i from (owned_some ht).symm] at hacts'
    exact h.update none hacts' fun t ht => by cases ht
  | @other k hacts =>
    have hd := fun j => (h.owned_other hacts j).1
    have howned : owned ⟨k, s.task⟩ = s.owned := funext fun j => (h.owned_other hacts j).2
    refine ⟨⟨h.kmem.steps hacts.steps, h.direct.steps hacts.steps,
      fun j t ht => (h.frame hacts (hd j) t ht).1, ?_⟩, funext fun j => ?_⟩
    · rw [howned]
      refine ⟨fun j => ?_, h.separated.apart⟩
      exact (hacts.cells.frame (h.separated.live j) (hd j)).1
    · rw [SpaceEvent.apply, programs, programs]
      cases ht : s.task j with
      | none => rfl
      | some t => exact congrArg some (h.frame hacts (hd j) t ht).2.1

theorem Inv.run {events : List (SpaceEvent ι)} (h : Inv s) (hr : Run s events s') :
    Inv s' ∧ s'.programs = events.foldl (fun p e => e.apply p) s.programs := by
  induction hr with
  | nil => exact ⟨h, rfl⟩
  | cons hstep _ ih =>
    obtain ⟨hinv, hprograms⟩ := h.step hstep
    rw [List.foldl_cons, ← hprograms]
    exact ih hinv

theorem Run.append {s₁ : TaskSpaces ι} {events events' : List (SpaceEvent ι)}
    (h : Run s events s₁) (h' : Run s₁ events' s') : Run s (events ++ events') s' := by
  induction h with
  | nil => exact h'
  | cons hstep _ ih => exact .cons hstep (ih h')

/-- The kernel before there are tasks. -/
def boot (k : UserKernel) : TaskSpaces ι := ⟨k, fun _ => none⟩

theorem boot_inv {hhdm : Option U64} {memmap : Option (List MemmapEntry)} {kmem : Kmem}
    (hk : kmemInit hhdm memmap = .ok kmem) (hd : DirectMap kmem) {k : UserKernel}
    (hr : KmemReachable kmem k.space.kernel) : Inv (boot k : TaskSpaces ι) := by
  refine ⟨hr.inv hk, (hr.directMap hd).1, fun i t ht => ?_, fun i => ?_, fun i j _ => ?_⟩
  · cases ht
  · exact Set.empty_subset _
  · exact Set.disjoint_left.mpr fun f hf => hf.elim

/-- No event but those about a program changes what the program has. -/
theorem apply_other {p : Programs ι} (h : e.target ≠ some j) : e.apply p j = p j := by
  cases e with
  | other => rfl
  | setup i => exact Function.update_of_ne (fun he => h (congrArg some he.symm)) _ _
  | own i call => exact Function.update_of_ne (fun he => h (congrArg some he.symm)) _ _
  | fork i child => exact Function.update_of_ne (fun he => h (congrArg some he.symm)) _ _
  | reap i => exact Function.update_of_ne (fun he => h (congrArg some he.symm)) _ _

/-- The first task with a program at 0x400000, and the kernel before it was loaded. -/
theorem loadedRun : ∃ (k k₁ : UserKernel) (pml4 : U64) (S : TaskSpaces Nat),
    KmemReachable sixteenMegabytes k.space.kernel ∧
    Run (boot k) [.setup 1, .own 1 (.load [⟨0x400000, 0x1000⟩])] S ∧
    S.task = Function.update (fun _ => none) 1 (some ⟨pml4, elfRanges [⟨0x400000, 0x1000⟩]⟩) ∧
    UserMap k₁.space pml4 ∧ KmemReachable sixteenMegabytes k₁.space.kernel ∧
    k₁.ranges = slabOf 40 ∧ TaskMemory.loadElf64 ⟨k₁, []⟩ pml4 [⟨0x400000, 0x1000⟩] =
      .ok ⟨S.kernel, elfRanges [⟨0x400000, 0x1000⟩]⟩ ∧ 0 < S.kernel.ranges.capacity ∧
    S.kernel.taskStructs = slabOf 344 ∧ Room S.kernel.space.kernel.kmem 3000 := by
  have hroom : Room sixteenMegabytes 4094 := by
    refine ⟨by decide, fun i hi _ => if_neg ?_⟩
    simp only [show sixteenMegabytes.kmemTotalPages.toNat = 4096 from rfl] at hi
    omega
  have hranges : segmentRanges [⟨0x400000, 0x1000⟩] = [⟨0x400000, 0x401000, .normal⟩] := by decide
  have hbounded : PageBounded (.load [⟨0x400000, 0x1000⟩]) := by
    simp only [PageBounded, hranges]
    decide
  have hstop := fun range hr => (elfRanges_ok hbounded range hr).stop
  have hcap : 0 < (slabOf 40).capacity := by decide
  have hpages : 3000 + 4 * ((elfRanges [⟨0x400000, 0x1000⟩]).map passes).sum +
      (elfRanges [⟨0x400000, 0x1000⟩]).length ≤ 4093 := by decide
  let k : UserKernel := ⟨⟨⟨sixteenMegabytes, []⟩, fun _ => 0⟩, slabOf 344, slabOf 40, slabOf 40⟩
  have hboot : Inv (boot k : TaskSpaces Nat) :=
    boot_inv sixteenMegabytes_init sixteenMegabytes_directMap .refl
  obtain ⟨pml4, kernel, halloc, hroom⟩ : ∃ p r, k.space.kernel.allocPage = .ok (p, r) ∧
      Room r.kmem 4093 := hroom.allocPage
  have hcleared : k.space.allocCleared = .ok (pml4, ⟨kernel, clearPage k.space.mem pml4⟩) := by
    rw [UserSpace.allocCleared, halloc]
    rfl
  have hsetup : Step (boot k) (.setup 1) _ := .setup (p := 0) rfl hcleared
  obtain ⟨hinv, -⟩ := hboot.step hsetup
  have hmem := hinv.memory 1 ⟨pml4, []⟩ rfl
  obtain ⟨⟨k₂, ranges⟩, hload, hcap, htask, hroom⟩ := Room.loadElf64 (n := 3000)
    hmem.inv.loaded rfl hcap hstop (hroom.mono hpages)
  obtain ⟨hlist, -⟩ := hmem.inv.loaded.loadElf64 rfl hstop hload
  obtain rfl : ranges = elfRanges [⟨0x400000, 0x1000⟩] := hlist
  have hown := Step.own (s := ⟨_, Function.update (fun _ => none) 1 (some ⟨pml4, []⟩)⟩) (i := 1)
    (t := ⟨pml4, []⟩) rfl (.load hbounded rfl hload)
  exact ⟨k, _, pml4, _, .refl, .cons hsetup (.cons hown .nil), Function.update_idem _ _ _,
    hmem.own.map, .single (KmemRun.allocPage_step halloc).1, rfl, hload, hcap, htask, hroom⟩

/-- A program that is forked, and a byte that the child then writes. -/
theorem forkedRun : ∃ (k : UserKernel) (s₃ s : TaskSpaces Nat),
    KmemReachable sixteenMegabytes k.space.kernel ∧
    Run (boot k) [.setup 1, .own 1 (.load [⟨0x400000, 0x1000⟩]), .fork 1 3] s₃ ∧
    Run s₃ [.own 3 (.write 0x400000 0x61)] s := by
  obtain ⟨k, -, pml4, s₂, hk, hrun, htasks, -, -, -, -, hcap, hstructs, hroom⟩ := loadedRun
  have hcode : ⟨0x400000, 0x401000, .normal⟩ ∈ elfRanges [⟨0x400000, 0x1000⟩] := by decide
  have ht : s₂.task 1 = some ⟨pml4, elfRanges [⟨0x400000, 0x1000⟩]⟩ :=
    htasks ▸ Function.update_self _ _ _
  have hnew : s₂.task 3 = none := htasks ▸ Function.update_of_ne (by decide) _ _
  obtain ⟨hinv, -⟩ :=
    (boot_inv sixteenMegabytes_init sixteenMegabytes_directMap hk).run hrun
  have hmem : MemoryInv pml4 ⟨s₂.kernel, elfRanges [⟨0x400000, 0x1000⟩]⟩ := hinv.memory 1 _ ht
  have hpages : 4 * ((elfRanges [⟨0x400000, 0x1000⟩]).map passes).sum +
      (elfRanges [⟨0x400000, 0x1000⟩]).length + 4 ≤ 3000 := by decide
  obtain ⟨k₃, child, hfork⟩ := Room.forkMemory hmem.inv.loaded.map
    (fun r hr => (hmem.inv.ranges r hr).forkStart) (fun r hr => (hmem.inv.ranges r hr).stop)
    (fun r hr v hv hcov => (hmem.inv.loaded.mapped v hv).mpr ⟨r, hr, hcov.2⟩) hcap
    (by rw [hstructs]; decide) (hroom.mono hpages)
  have hstep : Step s₂ (.fork 1 3) _ := .fork ht hnew hfork
  obtain ⟨hinv₃, -⟩ := hinv.step hstep
  have ht₃ : Function.update s₂.task 3 (some ⟨child, elfRanges [⟨0x400000, 0x1000⟩]⟩) 3 =
      some ⟨child, elfRanges [⟨0x400000, 0x1000⟩]⟩ := Function.update_self _ _ _
  have hmem₃ := hinv₃.memory 3 _ ht₃
  obtain ⟨f, hf⟩ := Option.isSome_iff_exists.mp ((hmem₃.inv.loaded.mapped 0x400000 (by decide)).mpr
    ⟨⟨0x400000, 0x401000, .normal⟩, hcode, by decide⟩)
  have hwrite : ∃ space, k₃.space.writeUser child 0x400000 0x61 = .ok space := by
    rw [UserSpace.writeUser, hf]
    exact ⟨_, rfl⟩
  obtain ⟨space, hwrite⟩ := hwrite
  exact ⟨k, _, _, hk, hrun.append (.cons hstep .nil),
    .cons (.own ht₃ (.write (by decide) hwrite)) .nil⟩

end TaskSpaces

end Persistos
