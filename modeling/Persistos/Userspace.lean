import Persistos.MapTables
import Persistos.Slab
import Persistos.Theory.Subtree

/-! The lower half of an address space: `map_user_page`, and the loops of
`free_userspace_memory` that take its tables and pages down again. -/

namespace Persistos

open Theory

structure UserSpace where
  kernel : KmemRun
  mem : Memory

namespace UserSpace

def hhdm (s : UserSpace) : U64 := s.kernel.kmem.hhdmOffset

/-- `kpage_alloc(1)` and a `memset` of the page. -/
def allocCleared (s : UserSpace) : Except Crash (U64 × UserSpace) := do
  let (page, kernel) ← s.kernel.allocPage
  .ok (page, ⟨kernel, clearPage s.mem page⟩)

def mapUserPage (s : UserSpace) (pml4Page userSpaceAddress : U64) :
    Except Crash (U64 × UserSpace) := do
  let (kernelSpaceAddress, s) ← s.allocCleared
  let (kernel, mem) ← setPageMapping KmemRun.allocPage s.hhdm s.kernel s.mem pml4Page
    userSpaceAddress (kernelSpaceAddress - s.hhdm) false
  .ok (kernelSpaceAddress, ⟨kernel, mem⟩)

/-- Entries of the tables of each level that belong to the lower half. -/
def widths : List Nat := [256, 512, 512, 512]

/-- The tables below `pml4Page` and the pages that they map, without the sharing of
attribute bits: what an entry names counts at each of the four levels. -/
def nodes (s : UserSpace) (pml4Page : U64) : List U64 := below (child s.hhdm s.mem) widths pml4Page

/-- The tables alone, the root among them. -/
def tables (s : UserSpace) (pml4Page : U64) : List U64 :=
  pml4Page :: below (child s.hhdm s.mem) [256, 512, 512] pml4Page

end UserSpace

/-- A user space that is taken down, and the pages given to `kpage_free` so far. -/
structure Teardown where
  space : UserSpace
  freed : List U64

namespace Teardown

def kpageFree (s : Teardown) (page : U64) : Teardown :=
  ⟨⟨s.space.kernel.freePages ⟨page, 1⟩, s.space.mem⟩, s.freed ++ [page]⟩

def write (s : Teardown) (address value : U64) : Teardown :=
  ⟨⟨s.space.kernel, writeWord s.space.mem address value⟩, s.freed⟩

/-- The loop of `free_userspace_memory` over the first `width` entries of a table, where
`free` frees what an entry leads to. -/
def freeEntries (free : Teardown → U64 → Teardown) (width : Nat) (s : Teardown) (table : U64) :
    Teardown :=
  (List.range width).foldl (fun s i =>
    let entry := s.space.mem (entryAddress table i)
    if entry &&& pageAddressMask = 0 then s
    else (free s ((entry &&& pageAddressMask) + s.space.hhdm)).write (entryAddress table i) 0) s

def freePt (s : Teardown) (pt : U64) : Teardown := (freeEntries kpageFree 512 s pt).kpageFree pt

def freePd (s : Teardown) (pd : U64) : Teardown := (freeEntries freePt 512 s pd).kpageFree pd

def freePtpd (s : Teardown) (ptpd : U64) : Teardown :=
  (freeEntries freePd 512 s ptpd).kpageFree ptpd

def freePml4 (s : Teardown) (pml4Page : U64) : Teardown := freeEntries freePtpd 256 s pml4Page

end Teardown

/-- `sizeof(struct userspace_memory_range)` -/
def userspaceMemoryRangeSize : U16 := 40

/-- The loop over `process->memory_ranges_lh` that frees the range objects. -/
def freeRanges (allocator : SlabAllocator) : List U64 → Except Crash SlabAllocator
  | [] => .ok allocator
  | range :: ranges => do
    let allocator ← slabFree allocator range
    freeRanges allocator ranges

/-- What `free_userspace_memory` works on: the pages, and the slab and list of ranges. -/
structure UserMemory where
  pages : Teardown
  ranges : SlabAllocator
  memoryRangesLh : List U64

def freeUserspaceMemory (s : UserMemory) (pml4Page : U64) : Except Crash UserMemory := do
  let pages := s.pages.freePml4 pml4Page
  let ranges ← freeRanges s.ranges s.memoryRangesLh
  .ok ⟨pages, ranges, []⟩

end Persistos
