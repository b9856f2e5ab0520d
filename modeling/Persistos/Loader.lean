import Persistos.AddressSpace
import Persistos.Slab

/-! The memory ranges of a task: `load_elf64` lists them and maps their pages, BRK
extends the heap, and FORK maps and copies the pages for the child. -/

namespace Persistos

inductive MemrangeType where
  | normal
  | heap
  | stack
  deriving DecidableEq, Repr

/-- `stop` is the member `end`. -/
structure UserspaceMemoryRange where
  start : U64
  stop : U64
  type : MemrangeType
  deriving DecidableEq, Repr

/-- The members of an ELF program header that say where a segment lies. -/
structure Phdr where
  pVaddr : U64
  pMemsz : U64
  deriving DecidableEq, Repr

/-- User memory and the slabs whose objects FORK allocates. -/
structure UserKernel where
  space : UserSpace
  taskStructs : SlabAllocator
  ranges : SlabAllocator
  files : SlabAllocator

structure TaskMemory where
  kernel : UserKernel
  memoryRangesLh : List UserspaceMemoryRange

namespace UserSpace

/-- `slab_alloc` of an object whose place does not matter here. -/
def slabAlloc (s : UserSpace) (allocator : SlabAllocator) :
    Except Crash (UserSpace × SlabAllocator) := do
  let (_, kernel, allocator, new) ← Persistos.slabAlloc KmemRun.allocPage s.kernel allocator
  .ok (⟨kernel, match new with
    | none => s.mem
    | some page => clearPage s.mem page⟩, allocator)

/-- More passes than any loop makes that takes a page of memory in each of them. -/
def pageFuel (s : UserSpace) : Nat := s.kernel.kmem.kmemTotalPages.toNat + 1

/-- `for (page = start; page < stop; page += PAGE_SIZE)`, with the value of `page` after
the loop. -/
def forPages (body : UserSpace → U64 → Except Crash UserSpace) (stop : U64) :
    Nat → UserSpace → U64 → Except Crash (UserSpace × U64)
  | 0, _, _ => .error (.panic "Out of physical memory\n")
  | fuel + 1, s, page =>
    if page < stop then do
      let s ← body s page
      forPages body stop fuel s (page + 0x1000)
    else .ok (s, page)

def mapPage (pml4Page : U64) (s : UserSpace) (page : U64) : Except Crash UserSpace := do
  let (_, s) ← s.mapUserPage pml4Page page
  .ok s

/-- The body of the inner loop of FORK. -/
def clonePage (oldPml4 newPml4 : U64) (s : UserSpace) (page : U64) : Except Crash UserSpace := do
  let (newKernelSpaceAddress, s) ← s.mapUserPage newPml4 page
  copyFromUser oldPml4 4096 s newKernelSpaceAddress page

def mapPages (s : UserSpace) (pml4Page start stop : U64) : Except Crash (UserSpace × U64) :=
  forPages (mapPage pml4Page) stop s.pageFuel s start

def setupUserspaceMemory (s : UserSpace) (pml4Page : U64)
    (memoryRangesLh : List UserspaceMemoryRange) : Except Crash UserSpace :=
  memoryRangesLh.foldlM (fun s range => do
    let (s, _) ← s.mapPages pml4Page (range.start &&& pageAddressMask) range.stop
    .ok s) s

/-- The loop of `setup_kernelspace_memory` over the upper half of the current PML4. -/
def copyUpperHalf (s : UserSpace) (oldPml4 newPml4 : U64) : UserSpace :=
  ⟨s.kernel, (List.range 256).foldl (fun mem i =>
    writeWord mem (entryAddress newPml4 (256 + i)) (mem (entryAddress oldPml4 (256 + i)))) s.mem⟩

end UserSpace

def segmentRange (segmentHeader : Phdr) : UserspaceMemoryRange :=
  ⟨segmentHeader.pVaddr, segmentHeader.pVaddr + segmentHeader.pMemsz, .normal⟩

def segmentRanges (segmentHeaders : List Phdr) : List UserspaceMemoryRange :=
  (segmentHeaders.filter fun h => ¬(h.pVaddr = 0 ∧ h.pMemsz = 0)).map segmentRange

def largestEndAddress (ranges : List UserspaceMemoryRange) : U64 :=
  ranges.foldl (fun largest range => if largest < range.stop then range.stop else largest) 0

def heapRange (largestEndAddress : U64) : UserspaceMemoryRange :=
  let start := if largestEndAddress &&& 0xFFF ≠ 0 then (largestEndAddress ||| 0xFFF) + 1
    else largestEndAddress
  ⟨start, start + 0x1000, .heap⟩

def stackRange : UserspaceMemoryRange := ⟨0x00007FFFFFF00000, 0x0000800000000000, .stack⟩

/-- The ranges of `load_elf64` in the order of the list. -/
def elfRanges (segmentHeaders : List Phdr) : List UserspaceMemoryRange :=
  segmentRanges segmentHeaders ++
    [heapRange (largestEndAddress (segmentRanges segmentHeaders)), stackRange]

namespace TaskMemory

def addRange (s : TaskMemory) (range : UserspaceMemoryRange) : Except Crash TaskMemory := do
  let (space, ranges) ← s.kernel.space.slabAlloc s.kernel.ranges
  .ok ⟨{ s.kernel with space, ranges }, s.memoryRangesLh ++ [range]⟩

/-- `load_elf64` up to the copies from the file, which write to the mapped pages. -/
def loadElf64 (s : TaskMemory) (pml4Page : U64) (segmentHeaders : List Phdr) :
    Except Crash TaskMemory := do
  let s ← (elfRanges segmentHeaders).foldlM addRange s
  let space ← s.kernel.space.setupUserspaceMemory pml4Page s.memoryRangesLh
  .ok ⟨{ s.kernel with space }, s.memoryRangesLh⟩

def setHeapEnd (stop : U64) : List UserspaceMemoryRange → List UserspaceMemoryRange
  | [] => []
  | range :: ranges =>
    if range.type = .heap then { range with stop } :: ranges else range :: setHeapEnd stop ranges

def sysBrk (s : TaskMemory) (pml4Page arg3 : U64) : Except Crash (TaskMemory × U64) :=
  match s.memoryRangesLh.find? fun range => range.type = .heap with
  | none => .ok (s, 0)
  | some heapRange =>
    if arg3 = 0 then .ok (s, heapRange.stop)
    else do
      let (space, stop) ← s.kernel.space.mapPages pml4Page heapRange.stop arg3
      .ok (⟨{ s.kernel with space }, setHeapEnd stop s.memoryRangesLh⟩, stop)

end TaskMemory

/-- A pass of the loop of FORK over the memory ranges. -/
def cloneRange (oldPml4 newPml4 : U64) (s : UserKernel) (range : UserspaceMemoryRange) :
    Except Crash UserKernel := do
  let (space, ranges) ← s.space.slabAlloc s.ranges
  let (space, _) ← UserSpace.forPages (UserSpace.clonePage oldPml4 newPml4) range.stop
    space.pageFuel space range.start
  .ok { s with space, ranges }

def cloneFile (s : UserKernel) (_fd : U32) : Except Crash UserKernel := do
  let (space, files) ← s.space.slabAlloc s.files
  .ok { s with space, files }

/-- What FORK does to memory, with the PML4 of the child as its result. `fds` are the
open files of the parent. -/
def forkMemory (s : TaskMemory) (oldPml4 : U64) (fds : List U32) :
    Except Crash (UserKernel × U64) := do
  let (space, taskStructs) ← s.kernel.space.slabAlloc s.kernel.taskStructs
  let (_, kernel) ← space.kernel.allocPages 2
  let (newPml4, space) ← UserSpace.allocCleared ⟨kernel, space.mem⟩
  let space := space.copyUpperHalf oldPml4 newPml4
  let kernel ← s.memoryRangesLh.foldlM (cloneRange oldPml4 newPml4) { s.kernel with
    space, taskStructs }
  let kernel ← fds.foldlM cloneFile kernel
  .ok (kernel, newPml4)

end Persistos
