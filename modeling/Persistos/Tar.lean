import Persistos.FsResolve

/-! The archive that the boot loader hands over. Its files and directories become the first
ones of the root file system. -/

namespace Persistos

open Theory

def filepathMaxLength : Nat := 400

/-- The characters at an address. -/
def bytesFrom (memory : U64 → U8) (a : U64) : Nat → U8 := fun i => memory (a + BitVec.ofNat 64 i)

/-- The loop of `parse_oct` from the character `c` on, for at most as many passes as the
second argument says. -/
def parseOctFrom (str : Nat → U8) : Nat → Nat → U64 → Except Crash (U8 × U64)
  | 0, _, _ => .error .endless
  | passes + 1, c, tmp =>
    if 0x30 ≤ str c ∧ str c ≤ 0x37 then
      parseOctFrom str passes (c + 1) ((tmp <<< 3) + (str c - 0x30).setWidth 64)
    else .ok (BitVec.ofNat 8 c, tmp)

def parseOct (passes : Nat) (str : Nat → U8) : Except Crash (U8 × U64) :=
  parseOctFrom str passes 0 0

/-- The path of an entry without its trailing slash. An empty one has no last character. -/
def stripSlash (filepath : List U8) : Except Crash (List U8) :=
  if filepath = [] then .error .outOfBounds
  else if filepath.getLast? = some slash then .ok filepath.dropLast
  else .ok filepath

namespace FsKernel

def exfatInodeOf (k : FsKernel) (i : U64) : ExfatInode where
  fileLength := k.fileLengths i
  fileClusters := (k.exfatInodes.objects (k.inode i).privateData).fileClusters.map
    k.exfatFileClusters.objects

/-- `write` of the file system that the file is on. -/
def writeFile (k : FsKernel) (filp : File) (buffer : Nat → U8) (length : U64) :
    Except Crash (U64 × File × FsKernel) :=
  match k.typeOf filp.inode with
  | .ramfs => do
    let (n, fs) ← ramfsWrite k.fs filp buffer length
    .ok (n, filp, { k with fs })
  | .sysfs => .ok (-1, filp, k)
  | .exfat _ partition =>
    let w := exfatWrite partition.fops k.disk (k.exfatInodeOf filp.inode) filp.offset buffer length
    .ok (w.totalBytesWritten, { filp with offset := w.offset }, { k with disk := w.device })

/-- `fops` is the table of the device, for an inode that is one. -/
def vfsWrite (fops : FileOperations FsKernel) (k : FsKernel) (filp : File) (buffer : Nat → U8)
    (length : U64) : Except Crash (U64 × File × FsKernel) :=
  if filp.inode = 0 then .error .outOfBounds
  else if (k.inode filp.inode).type = inodeDevice then
    let (n, k) := fops.write k buffer filp.offset length
    .ok (n, if n ≠ -1 then filp.advance n else filp, k)
  else if (k.inode filp.inode).type = inodeRegularFile then
    if (k.inode filp.inode).superblock = 0 then .error (.panic "vfs_write: no supernode\n")
    else do
      let (n, filp, k) ← k.writeFile filp buffer length
      .ok (n, if n ≠ -1 then filp.advance n else filp, k)
  else if (k.inode filp.inode).type = inodeDirectory then .ok (-1, filp, k)
  else .error (.panic "vfs_write: unknown inode type\n")

variable (fops : FileOperations FsKernel) (fuel : Nat) (r : VfsLookupResult)

/-- What `extract_tar_files` does for an entry with the path `filepath`, whose data are at
`data`. `r` is what `lookup_result` holds before it is set. -/
def extractTarFile (k : FsKernel) (filepath : List U8) (typeflag : U8) (data : Nat → U8)
    (fileSize : U64) : Except Crash FsKernel := do
  let (lookupResult, k) ← k.vfsResolve fuel filepath r
  if lookupResult.status ≠ vfsResolveSuccessDoesntExist then
    .error (.panic "Unexpected resolve status while extracting tar")
  else
    let filename := lookupResult.nameStart.take lookupResult.nameLength
    if typeflag = 0x35 then do
      let (_, k) ← k.vfsMkdir lookupResult.parentDirectory filename
      .ok k
    else do
      let (inode, k) ← k.vfsCreate lookupResult.parentDirectory filename
      let (_, _, k) ← k.vfsWrite fops ⟨inode, 0⟩ data fileSize
      .ok k

/-- The blocks of an entry with its header. -/
def incrementBlocks (fileSize : U64) : U64 :=
  let last : U64 := if fileSize &&& 0x1FF ≠ 0 then 1 else 0
  (1 : U64) + (fileSize >>> 9) + last

/-- The loop over the entries, for at most as many passes as the argument before `tarFile`
says. A `strlen` above the bound ends in the panic, whatever it is. -/
def extractTarFiles (memory : U64 → U8) : Nat → U64 → FsKernel → Except Crash FsKernel
  | 0, _, _ => .error .endless
  | passes + 1, tarFile, k =>
    let header := bytesFrom memory tarFile
    if slice header 124 12 = List.replicate 12 0 then .ok k
    else do
      let (_, fileSize) ← parseOct fuel fun i => header (124 + i)
      let name := cString (slice header 0 (filepathMaxLength + 1))
      if name.length > filepathMaxLength then .error (.panic "File path too long")
      else do
        let filepath ← stripSlash name
        let k ← k.extractTarFile fops fuel r filepath (header 156)
          (bytesFrom memory (tarFile + 512)) fileSize
        extractTarFiles memory passes (tarFile + (incrementBlocks fileSize <<< 9)) k

end FsKernel

end Persistos
