import Persistos.UserPages

/-! The bump allocator of the C library over the heap range that BRK extends. -/

namespace Persistos

open Theory

/-- `heap_bottom`, `heap_top` and `program_break` of the library. -/
structure Libc where
  heapBottom : U64
  heapTop : U64
  programBreak : U64

def libcInit (task : TaskMemory) (pml4Page : U64) : Except Crash (Libc × TaskMemory) := do
  let (task, brk) ← task.sysBrk pml4Page 0
  .ok (⟨brk, brk, brk⟩, task)

def malloc (libc : Libc) (task : TaskMemory) (pml4Page size : U64) :
    Except Crash (U64 × Libc × TaskMemory) :=
  let oldHeapTop := libc.heapTop
  let heapTop := libc.heapTop + size
  if libc.programBreak < heapTop then do
    let (task, brk) ← task.sysBrk pml4Page heapTop
    .ok (oldHeapTop, { libc with heapTop, programBreak := brk }, task)
  else .ok (oldHeapTop, { libc with heapTop }, task)

def free (libc : Libc) (_addr : U64) : Libc := libc

/-- The `memcpy` of bytes to each of the given addresses: by `load_elf64` the bytes of the
file to the segments, by EXEC the arguments to the stack. -/
def copyImage (pml4Page : U64) (copies : List (U64 × List U8)) (s : UserSpace) :
    Except Crash UserSpace :=
  copies.foldlM (fun s copy => s.copyToUser pml4Page copy.2 copy.1) s

/-- A process as EXEC starts it and `libc_init` sets up its heap. -/
def startProcess (task : TaskMemory) (pml4Page : U64) (segmentHeaders : List Phdr)
    (copies : List (U64 × List U8)) : Except Crash (Libc × TaskMemory) := do
  let task ← task.loadElf64 pml4Page segmentHeaders
  let space ← copyImage pml4Page copies task.kernel.space
  libcInit ⟨{ task.kernel with space }, task.memoryRangesLh⟩ pml4Page

def TaskMemory.heap (task : TaskMemory) : Option UserspaceMemoryRange :=
  task.memoryRangesLh.find? fun range => range.type = .heap

/-- The heap that `load_elf64` gives a program, and the first address `malloc` returns. -/
def imageHeap (segmentHeaders : List Phdr) : UserspaceMemoryRange :=
  heapRange (largestEndAddress (segmentRanges segmentHeaders))

/-- An address of a segment, also of one that passes the end of the address space. -/
def Phdr.Covers (segmentHeader : Phdr) (v : U64) : Prop :=
  v - segmentHeader.pVaddr < segmentHeader.pMemsz

section Image

variable {ranges : List UserspaceMemoryRange} {segmentHeaders : List Phdr}

theorem le_largestEndAddress {range : UserspaceMemoryRange} (h : range ∈ ranges) :
    range.stop.toNat ≤ (largestEndAddress ranges).toNat := by
  have hloop : ∀ (ranges : List UserspaceMemoryRange) (m : U64),
      m.toNat ≤ (ranges.foldl (fun largest range =>
        if largest < range.stop then range.stop else largest) m).toNat ∧
      ∀ range ∈ ranges, range.stop.toNat ≤ (ranges.foldl (fun largest range =>
        if largest < range.stop then range.stop else largest) m).toNat := by
    intro ranges
    induction ranges with
    | nil => exact fun m => ⟨Nat.le_refl _, by simp⟩
    | cons range ranges ih =>
      intro m
      rw [List.foldl_cons]
      obtain ⟨hm, hr⟩ := ih (if m < range.stop then range.stop else m)
      have hmax : m.toNat ≤ (if m < range.stop then range.stop else m).toNat ∧
          range.stop.toNat ≤ (if m < range.stop then range.stop else m).toNat := by
        split
        · next hlt => exact ⟨Nat.le_of_lt (BitVec.lt_def.mp hlt), Nat.le_refl _⟩
        · next hge => exact ⟨Nat.le_refl _, Nat.le_of_not_lt fun hlt => hge (BitVec.lt_def.mpr hlt)⟩
      exact ⟨Nat.le_trans hmax.1 hm, List.forall_mem_cons.mpr ⟨Nat.le_trans hmax.2 hm, hr⟩⟩
  exact (hloop ranges 0).2 range h

theorem find_heap_elfRanges (segmentHeaders : List Phdr) :
    (elfRanges segmentHeaders).find? (fun range => range.type = .heap) =
      some (imageHeap segmentHeaders) := by
  have hseg : (segmentRanges segmentHeaders).find? (fun range => range.type = .heap) = none := by
    refine List.find?_eq_none.mpr fun range hr => ?_
    obtain ⟨segment, -, rfl⟩ := List.mem_map.mp hr
    simp [segmentRange]
  rw [elfRanges, List.find?_append, hseg, Option.none_or]
  rfl

theorem find_heap_setHeapEnd {heap : UserspaceMemoryRange} (stop : U64)
    (h : ranges.find? (fun range => range.type = .heap) = some heap) :
    (TaskMemory.setHeapEnd stop ranges).find? (fun range => range.type = .heap) =
      some { heap with stop } := by
  induction ranges with
  | nil => cases h
  | cons range ranges ih =>
    by_cases hheap : range.type = .heap
    · obtain rfl : range = heap := by simpa [hheap] using h
      rw [TaskMemory.setHeapEnd, if_pos hheap, List.find?_cons_of_pos (by simpa using hheap)]
    · rw [List.find?_cons_of_neg (by simpa using hheap)] at h
      rw [TaskMemory.setHeapEnd, if_neg hheap, List.find?_cons_of_neg (by simpa using hheap)]
      exact ih h

theorem elfRanges_stop_le
    (h : (largestEndAddress (segmentRanges segmentHeaders)).toNat ≤ 2 ^ 47 - 4096) :
    ∀ range ∈ elfRanges segmentHeaders, range.stop.toNat ≤ 2 ^ 47 := by
  intro range hr
  simp only [elfRanges, List.mem_append, List.mem_cons, List.not_mem_nil, or_false] at hr
  rcases hr with hr | rfl | rfl
  · have hle := le_largestEndAddress hr
    omega
  · exact (heapRange_ok h).1.stop
  · decide

end Image

section Calls

variable {task task' : TaskMemory} {pml4 : U64} {heap : UserspaceMemoryRange}

theorem OwnFrames.copyImage {copies : List (U64 × List U8)} {s s' : UserSpace}
    (h : OwnFrames pml4 s) (hcopied : ∀ copy ∈ copies, copy.1.toNat + copy.2.length ≤ 2 ^ 47)
    (hc : copyImage pml4 copies s = .ok s') : OwnFrames pml4 s' := by
  induction copies generalizing s with
  | nil =>
    obtain rfl := Except.ok.inj hc
    exact h
  | cons copy copies ih =>
    obtain ⟨s₁, h₁, hc⟩ := bind_eq_ok hc
    exact ih (h.copyToUser (hcopied copy List.mem_cons_self) h₁)
      (fun c hc => hcopied c (List.mem_cons_of_mem _ hc)) hc

theorem libcInit_eq (h : task.heap = some heap) :
    libcInit task pml4 = .ok (⟨heap.stop, heap.stop, heap.stop⟩, task) := by
  have hbrk : task.sysBrk pml4 0 = .ok (task, heap.stop) := by
    rw [TaskMemory.heap] at h
    rw [TaskMemory.sysBrk, h]
    rfl
  rw [libcInit, hbrk]
  rfl

/-- What BRK adds to the heap reads as zero, and the rest of memory is as before. -/
theorem OwnFrames.sysBrk {arg3 result : U64} (h : OwnFrames pml4 task.kernel.space)
    (hheap : task.heap = some heap) (hal : PageAligned heap.stop) (hle : heap.stop.toNat ≤ 2 ^ 47)
    (hne : arg3 ≠ 0) (harg : arg3.toNat ≤ 2 ^ 47)
    (hs : task.sysBrk pml4 arg3 = .ok (task', result)) :
    FreshPages pml4 task.kernel.space task'.kernel.space (Between heap.stop result) ∧
      task'.heap = some { heap with stop := result } ∧ PageAligned result ∧
      heap.stop.toNat ≤ result.toNat ∧ arg3.toNat ≤ result.toNat ∧ result.toNat ≤ 2 ^ 47 := by
  rw [TaskMemory.heap] at hheap
  rw [TaskMemory.sysBrk, hheap] at hs
  dsimp only at hs
  rw [if_neg hne] at hs
  obtain ⟨⟨space, stop⟩, hmap, he⟩ := bind_eq_ok hs
  simp only [Except.ok.injEq, Prod.mk.injEq] at he
  obtain ⟨rfl, rfl⟩ := he
  obtain ⟨hfresh, hal', hle₁, hle₂, hlast⟩ := h.mapPages hal harg hmap
  refine ⟨hfresh, find_heap_setHeapEnd stop hheap, hal', hle₁, hle₂, ?_⟩
  rcases hlast with rfl | hlt
  · exact hle
  · simp only [PageAligned] at hal'
    omega

end Calls

end Persistos
