import Persistos.Exec
import Persistos.FsKernel
import Persistos.HeapRuns
import Persistos.RamfsLaws

/-! `load_elf64`: a pass over the program headers that lists the ranges, the mapping of
all of them, and a pass that reads the segments into their pages. -/

namespace Persistos

open Theory

/-- The members of `struct elf64_hdr` that are read. -/
structure Elf64Hdr where
  eEntry : U64
  ePhoff : U64
  ePhnum : U16
  deriving DecidableEq

structure Elf64Phdr extends Phdr where
  pOffset : U64
  pFilesz : U64
  deriving DecidableEq

namespace Elf64Hdr

/-- `sizeof(struct elf64_hdr)` -/
def size : U64 := 64

def decode (x : Nat → U8) : Elf64Hdr := ⟨le64 x 0x18, le64 x 0x20, le16 x 0x38⟩

end Elf64Hdr

namespace Elf64Phdr

/-- `sizeof(struct elf64_phdr)` -/
def size : U64 := 56

def decode (x : Nat → U8) : Elf64Phdr := ⟨⟨le64 x 0x10, le64 x 0x28⟩, le64 x 8, le64 x 0x20⟩

end Elf64Phdr

structure LoaderResult where
  userEntryRip : U64
  userEntryRsp : U64

/-- The local variables of `load_elf64` beside the files and the task that it works on. -/
structure ElfLoad (σ : Type) where
  files : σ
  task : TaskMemory
  largestEndAddress : U64

/-- What a read put into its buffer. -/
def ReadResult.bytes {σ : Type} (r : ReadResult σ) : List U8 :=
  if r.bytesRead = -1 then [] else slice r.buffer 0 r.bytesRead.toNat

section

variable {σ : Type} (ops : FilesystemOps σ) (fops : FileOperations σ) (inode : Inode)
  (pml4Page : U64) (stack : Nat → Nat → U8)

/-- The offset of `filp` is set before each read but the first. -/
def readPhdr (filp : File) (hdr : Elf64Hdr) (buffer : Nat → U8) (files : σ) (i : Nat) :
    Except Crash (Elf64Phdr × σ) := do
  let r ← vfsRead ops fops inode files
    { filp with offset := hdr.ePhoff + BitVec.ofNat 64 i * Elf64Phdr.size } buffer Elf64Phdr.size
  .ok (.decode r.buffer, r.state)

/-- The body of the loop that lists the ranges. -/
def listSegment (filp : File) (hdr : Elf64Hdr) (s : ElfLoad σ) (i : Nat) :
    Except Crash (ElfLoad σ) := do
  let (segmentHeader, files) ← readPhdr ops fops inode filp hdr (stack (1 + i)) s.files i
  if segmentHeader.pVaddr = 0 ∧ segmentHeader.pMemsz = 0 then .ok { s with files }
  else do
    let range := segmentRange segmentHeader.toPhdr
    let task ← s.task.addRange range
    .ok ⟨files, task, if s.largestEndAddress < range.stop then range.stop else s.largestEndAddress⟩

/-- The body of the loop that reads the segments. -/
def readSegment (filp : File) (hdr : Elf64Hdr) (s : ElfLoad σ) (i : Nat) :
    Except Crash (ElfLoad σ) := do
  let (segmentHeader, files) ← readPhdr ops fops inode filp hdr
    (stack (1 + hdr.ePhnum.toNat + i)) s.files i
  let r ← vfsRead ops fops inode files { filp with offset := segmentHeader.pOffset } (fun _ => 0)
    segmentHeader.pFilesz
  let space ← s.task.kernel.space.copyToUser pml4Page r.bytes segmentHeader.pVaddr
  .ok { s with
    files := r.state
    task := ⟨{ s.task.kernel with space }, s.task.memoryRangesLh⟩ }

/-- `inode` is what `filp->inode` points to. The header variables are not initialised, and
`stack` is what their memory holds before each of the reads. -/
def loadElf64 (files : σ) (task : TaskMemory) (filp : File) :
    Except Crash (LoaderResult × σ × TaskMemory) := do
  let r ← vfsRead ops fops inode files filp (stack 0) Elf64Hdr.size
  let elfFileHeader := Elf64Hdr.decode r.buffer
  let passes := List.range elfFileHeader.ePhnum.toNat
  let s ← passes.foldlM (listSegment ops fops inode stack filp elfFileHeader) ⟨r.state, task, 0⟩
  let task ← s.task.addRange (heapRange s.largestEndAddress)
  let task ← task.addRange stackRange
  let space ← task.kernel.space.setupUserspaceMemory pml4Page task.memoryRangesLh
  let s ← passes.foldlM (readSegment ops fops inode pml4Page stack filp elfFileHeader)
    { s with task := ⟨{ task.kernel with space }, task.memoryRangesLh⟩ }
  .ok (⟨elfFileHeader.eEntry, userEntryRsp⟩, s.files, s.task)

end

end Persistos
