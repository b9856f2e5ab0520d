import Persistos.Word
import Persistos.Theory.Overlay

/-! Open files, inodes and the dispatch of system calls on them. A buffer is a
function of the position, passed with its length as the C code passes them. -/

namespace Persistos

open Theory

def inodeDirectory : U8 := 0x61
def inodeDevice : U8 := 0x62
def inodeRegularFile : U8 := 0x63

/-- `dentries` is the list at `dentry_lh`, by the addresses of its entries. -/
structure Inode where
  type : U8
  superblock : U64
  privateData : U64
  dentries : List U64

structure Dentry where
  name : List U8
  mountedInode : U64
  inode : U64

def dentryMaxNameLength : Nat := 63

structure File where
  inode : U64
  offset : U64

/-- A device with the states `δ`. Reading gives the bytes that were transferred. -/
structure FileOperations (δ : Type) where
  write : δ → (Nat → U8) → U64 → U64 → U64 × δ
  read : δ → U64 → U64 → List U8 × δ

structure ReadResult (σ : Type) where
  bytesRead : U64
  filp : File
  buffer : Nat → U8
  state : σ

structure FilesystemOps (σ : Type) where
  createFileInode : σ → Inode → U64 → U64 → Except Crash (U64 × Inode × σ)
  createDirInode : σ → Inode → U64 → U64 → Except Crash (U64 × Inode × σ)
  read : σ → File → (Nat → U8) → U64 → Except Crash (ReadResult σ)
  write : σ → File → (Nat → U8) → U64 → Except Crash (U64 × File × σ)
  setSize : σ → File → U64 → Except Crash (U64 × σ)

variable {σ : Type}

def File.advance (filp : File) (n : U64) : File := { filp with offset := filp.offset + n }

/-- `inode` is what `filp->inode` points to, `ops` and `fops` are the tables
that its superblock and its device point to. -/
def vfsWrite (ops : FilesystemOps σ) (fops : FileOperations σ) (inode : Inode) (s : σ)
    (filp : File) (buffer : Nat → U8) (length : U64) : Except Crash (U64 × File × σ) :=
  if inode.type = inodeDevice then
    let (n, s) := fops.write s buffer filp.offset length
    .ok (n, if n ≠ -1 then filp.advance n else filp, s)
  else if inode.type = inodeRegularFile then
    if inode.superblock = 0 then .error (.panic "vfs_write: no supernode\n")
    else do
      let (n, filp, s) ← ops.write s filp buffer length
      .ok (n, if n ≠ -1 then filp.advance n else filp, s)
  else if inode.type = inodeDirectory then .ok (-1, filp, s)
  else .error (.panic "vfs_write: unknown inode type\n")

def vfsRead (ops : FilesystemOps σ) (fops : FileOperations σ) (inode : Inode) (s : σ)
    (filp : File) (buffer : Nat → U8) (length : U64) : Except Crash (ReadResult σ) :=
  if inode.type = inodeDevice then
    let (bytes, s) := fops.read s filp.offset length
    let n : U64 := BitVec.ofNat 64 bytes.length
    .ok ⟨n, filp.advance n, overlay buffer 0 bytes.length (bytes.getD · 0), s⟩
  else if inode.type = inodeRegularFile then
    if inode.superblock = 0 then .ok ⟨-1, filp, buffer, s⟩
    else ops.read s filp buffer length
  else .ok ⟨-1, filp, buffer, s⟩

def vfsFtruncate (ops : FilesystemOps σ) (inode : Inode) (s : σ) (filp : File) (size : U64) :
    Except Crash (U64 × σ) :=
  if inode.type = inodeRegularFile then
    if inode.superblock = 0 then .ok (-1, s)
    else ops.setSize s filp size
  else .ok (-1, s)

/-- A copy inside the kernel, which must stay in the source and in the target. -/
def memcpy (target : Nat → U8) (targetSize : Nat) (targetOffset : U64) (source : Nat → U8)
    (sourceSize : Nat) (sourceOffset length : U64) : Except Crash (Nat → U8) :=
  if targetOffset.toNat + length.toNat ≤ targetSize ∧
      sourceOffset.toNat + length.toNat ≤ sourceSize then
    .ok (overlay target targetOffset.toNat length.toNat fun i => source (sourceOffset.toNat + i))
  else .error .outOfBounds

theorem memcpy_ok {target source : Nat → U8} {targetSize sourceSize : Nat}
    {targetOffset sourceOffset length : U64}
    (ht : targetOffset.toNat + length.toNat ≤ targetSize)
    (hs : sourceOffset.toNat + length.toNat ≤ sourceSize) :
    memcpy target targetSize targetOffset source sourceSize sourceOffset length =
      .ok (overlay target targetOffset.toNat length.toNat
        fun i => source (sourceOffset.toNat + i)) := if_pos ⟨ht, hs⟩

end Persistos
