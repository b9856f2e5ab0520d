import Persistos.Devices
import Persistos.Exfat
import Persistos.OpenFiles
import Persistos.Ramfs

/-! The tree of files over the three file systems, with the slabs that its parts are
allocated from. A RAM directory and sysfs are in memory, exFAT is loaded on demand. -/

namespace Persistos

open Theory

structure ExfatSuperblock where
  fatOffset : U32
  clusterHeapOffset : U32
  bytesPerSectorExponent : U8
  sectorsPerClusterExponent : U8

/-- `struct exfat_inode` -/
structure ExfatNode where
  exfatStartLba : U32
  loadNeeded : Bool
  fileClusters : List U64

/-- `ops` and `private` of a superblock, and the device of an exFAT one. -/
inductive FsType where
  | ramfs
  | sysfs
  | exfat (superblock : ExfatSuperblock) (partition : NvmepartDevice)

/-- `statics` are the inodes that are variables of the kernel, the root among them, and
`fileLengths` the member of an inode that a regular file has. `stalePage` is what the
page holds that a directory is read into, before it is. -/
structure FsKernel where
  fs : Ramfs
  files : SlabAllocator
  exfatInodes : Slab ExfatNode
  exfatFileClusters : Slab ExfatFileCluster
  superblocks : U64 → FsType
  statics : List U64
  fileLengths : U64 → U64
  vfsRootInode : U64
  disk : Nat → U8
  stalePage : Nat → U8

namespace FsKernel

def clearedExfatNode : ExfatNode := ⟨0, false, []⟩
def clearedExfatFileCluster : ExfatFileCluster := ⟨0, 0⟩

def inode (k : FsKernel) (i : U64) : Inode := k.fs.inodes.objects i

def typeOf (k : FsKernel) (i : U64) : FsType := k.superblocks (k.inode i).superblock

def tree (k : FsKernel) : VfsTree := ⟨k.vfsRootInode, k.fs.inodes.objects, k.fs.dentries.objects⟩

def inodeAlloc (k : FsKernel) : Except Crash (U64 × FsKernel) := do
  let (i, supply, inodes) ← k.fs.inodes.alloc clearedInode k.fs.supply
  .ok (i, { k with fs := { k.fs with supply, inodes } })

def dentryAlloc (k : FsKernel) : Except Crash (U64 × FsKernel) := do
  let (d, supply, dentries) ← k.fs.dentries.alloc clearedDentry k.fs.supply
  .ok (d, { k with fs := { k.fs with supply, dentries } })

def exfatInodeAlloc (k : FsKernel) : Except Crash (U64 × FsKernel) := do
  let (e, supply, exfatInodes) ← k.exfatInodes.alloc clearedExfatNode k.fs.supply
  .ok (e, { k with fs := { k.fs with supply }, exfatInodes })

def exfatFileClusterAlloc (k : FsKernel) : Except Crash (U64 × FsKernel) := do
  let (c, supply, exfatFileClusters) ←
    k.exfatFileClusters.alloc clearedExfatFileCluster k.fs.supply
  .ok (c, { k with fs := { k.fs with supply }, exfatFileClusters })

def fileAlloc (k : FsKernel) : Except Crash (U64 × FsKernel) := do
  let (f, supply, files, _) ← slabAlloc PageSupply.alloc k.fs.supply k.files
  .ok (f, { k with fs := { k.fs with supply }, files })

def fileFree (k : FsKernel) (f : U64) : Except Crash FsKernel := do
  let files ← slabFree k.files f
  .ok { k with files }

def inodeFree (k : FsKernel) (i : U64) : Except Crash FsKernel := do
  let inodes ← k.fs.inodes.free i
  .ok { k with fs := { k.fs with inodes } }

def dentryFree (k : FsKernel) (d : U64) : Except Crash FsKernel := do
  let dentries ← k.fs.dentries.free d
  .ok { k with fs := { k.fs with dentries } }

def modifyInode (k : FsKernel) (i : U64) (f : Inode → Inode) : FsKernel :=
  { k with fs := { k.fs with inodes := k.fs.inodes.modify i f } }

@[simp] theorem inode_modifyInode_self (k : FsKernel) (i : U64) (f : Inode → Inode) :
    (k.modifyInode i f).inode i = f (k.inode i) := k.fs.inodes.modify_objects_self i f

theorem inode_modifyInode_ne (k : FsKernel) {i y : U64} (h : y ≠ i) (f : Inode → Inode) :
    (k.modifyInode i f).inode y = k.inode y := k.fs.inodes.modify_objects_ne h f

def modifyDentry (k : FsKernel) (d : U64) (f : Dentry → Dentry) : FsKernel :=
  { k with fs := { k.fs with dentries := k.fs.dentries.modify d f } }

def modifyExfatInode (k : FsKernel) (e : U64) (f : ExfatNode → ExfatNode) : FsKernel :=
  { k with exfatInodes := k.exfatInodes.modify e f }

def setFileLength (k : FsKernel) (i fileLength : U64) : FsKernel :=
  { k with fileLengths := Function.update k.fileLengths i fileLength }

/-- `list_add_tail` of a dentry to the entries of a directory. -/
def addDentry (k : FsKernel) (dir d : U64) : FsKernel :=
  k.modifyInode dir fun inode => { inode with dentries := inode.dentries ++ [d] }

/-- `create_file_inode` of the file system that the directory is on. -/
def createFileInode (k : FsKernel) (parentDir outInode outDentry : U64) :
    Except Crash (U64 × FsKernel) :=
  match k.typeOf parentDir with
  | .ramfs => do
    let (n, dir, fs) ← ramfsCreateFileInode k.fs (k.inode parentDir) outInode outDentry
    .ok (n, { k with fs }.modifyInode parentDir fun _ => dir)
  | .sysfs => .ok (-1, k)
  | .exfat _ _ => .ok (-1, k)

def createDirInode (k : FsKernel) (parentDir outInode outDentry : U64) :
    Except Crash (U64 × FsKernel) :=
  match k.typeOf parentDir with
  | .ramfs => do
    let (n, dir, fs) ← ramfsCreateDirInode k.fs (k.inode parentDir) outInode outDentry
    .ok (n, { k with fs }.modifyInode parentDir fun _ => dir)
  | .sysfs => .ok (-1, k)
  | .exfat _ _ => .ok (-1, k)

/-- The inode and the dentry that `vfs_create` and `vfs_mkdir` begin with. -/
def allocEntry (k : FsKernel) : Except Crash (U64 × U64 × FsKernel) := do
  let (dirInode, k) ← k.inodeAlloc
  let (dirDentry, k) ← k.dentryAlloc
  .ok (dirInode, dirDentry, k)

/-- The `strcpy` into the name of a dentry, where it does not leave its field. -/
def setName (k : FsKernel) (d : U64) (name : List U8) : Except Crash FsKernel :=
  if dentryMaxNameLength < (cString name).length then .error .outOfBounds
  else .ok (k.modifyDentry d fun dentry => { dentry with name := cString name })

/-- `vfs_create` once the name is in its place. -/
def finishCreate (k : FsKernel) (parentDir dirInode dirDentry : U64) :
    Except Crash (U64 × FsKernel) := do
  let (createResult, k) ← k.createFileInode parentDir dirInode dirDentry
  if createResult ≠ 0 then do
    let k ← k.inodeFree dirInode
    let k ← k.dentryFree dirDentry
    .ok (0, k)
  else .ok (dirInode, k)

def vfsCreate (k : FsKernel) (parentDir : U64) (name : List U8) :
    Except Crash (U64 × FsKernel) := do
  let (dirInode, dirDentry, k) ← k.allocEntry
  let k ← k.setName dirDentry name
  k.finishCreate parentDir dirInode dirDentry

def vfsMkdir (k : FsKernel) (parentDir : U64) (name : List U8) :
    Except Crash (U64 × FsKernel) := do
  let (dirInode, dirDentry, k) ← k.allocEntry
  let k ← k.setName dirDentry name
  let (_, k) ← k.createDirInode parentDir dirInode dirDentry
  .ok (dirInode, k)

def vfsFtruncate (k : FsKernel) (filp : OpenFile) (size : U64) : Except Crash (U64 × FsKernel) :=
  if (k.inode filp.inode).type = inodeRegularFile then
    if (k.inode filp.inode).superblock = 0 then .ok (-1, k)
    else match k.typeOf filp.inode with
      | .ramfs => do
        let (n, fs) ← ramfsSetSize k.fs ⟨filp.inode, filp.offset⟩ size
        .ok (n, { k with fs })
      | .sysfs => .ok (-1, k)
      | .exfat _ _ => .ok (-1, k)
  else .ok (-1, k)

end FsKernel

def le16 (x : Nat → U8) (o : Nat) : U16 := x (o + 1) ++ x o

def le32 (x : Nat → U8) (o : Nat) : U32 := le16 x (o + 2) ++ le16 x o

def le64 (x : Nat → U8) (o : Nat) : U64 := le32 x (o + 4) ++ le32 x o

namespace ExfatSuperblock

def clusterLba (sb : ExfatSuperblock) (cluster : U32) : U32 :=
  sb.clusterHeapOffset + (1 <<< sb.sectorsPerClusterExponent.toNat) * (cluster - 2)

def clusterIndex (sb : ExfatSuperblock) (lba : U32) : U32 :=
  ((lba - sb.clusterHeapOffset) >>> sb.sectorsPerClusterExponent.toNat) + 2

def fatEntryByteOffset (sb : ExfatSuperblock) (lba : U32) : U32 :=
  (sb.fatOffset <<< sb.bytesPerSectorExponent.toNat) + 4 * sb.clusterIndex lba

end ExfatSuperblock

/-- A FAT entry at which the loops over a chain of clusters stop. -/
def endsChain (fatEntry : U32) : Bool :=
  fatEntry = 0 ∨ fatEntry = 1 ∨ fatEntry = 0xFFFFFFFF ∨ fatEntry = 0xFFFFFFF7

/-- The local variables of `exfat_load_dir_inode` beside the kernel. -/
structure DirLoad where
  kernel : FsKernel
  fileDentry : U64
  fileNameIndex : U8

namespace FsKernel

/-- `length` bytes of the device laid over what was at their place. -/
def deviceRead (k : FsKernel) (partition : NvmepartDevice) (offset length : U64)
    (old : Nat → U8) : Nat → U8 :=
  let bytes := (partition.fops.read k.disk offset length).1
  overlay old 0 bytes.length (bytes.getD · 0)

def readFatEntry (k : FsKernel) (sb : ExfatSuperblock) (partition : NvmepartDevice) (lba : U32) :
    U32 :=
  le32 (k.deviceRead partition ((sb.fatEntryByteOffset lba).setWidth 64) 4 k.stalePage) 0

/-- The type of a new inode, from the attributes in its directory entry. -/
def setFileType (k : FsKernel) (x : Nat → U8) (vfsInode childInode : U64) : FsKernel :=
  if le16 x 4 &&& (1 <<< 4) ≠ 0 then
    k.modifyInode vfsInode fun inode => { inode with type := inodeDirectory, dentries := [] }
  else
    ((k.modifyInode vfsInode fun inode => { inode with type := inodeRegularFile }).setFileLength
      vfsInode 0).modifyExfatInode childInode fun e => { e with fileClusters := [] }

/-- A directory entry of type 0x85. -/
def loadFileEntry (k : FsKernel) (dirInode : U64) (x : Nat → U8) :
    Except Crash (U64 × FsKernel) := do
  let (fileDentry, k) ← k.dentryAlloc
  let k := k.modifyDentry fileDentry fun _ => ⟨List.replicate (dentryMaxNameLength + 1) 0, 0, 0⟩
  let (vfsInode, k) ← k.inodeAlloc
  let superblock := (k.inode dirInode).superblock
  let k := k.modifyInode vfsInode fun inode => { inode with superblock }
  let (childInode, k) ← k.exfatInodeAlloc
  let k := k.modifyInode vfsInode fun inode => { inode with privateData := childInode }
  let k := k.modifyDentry fileDentry fun dentry => { dentry with inode := vfsInode }
  let k := k.addDentry dirInode fileDentry
  let k := k.setFileType x vfsInode childInode
  .ok (fileDentry, k.modifyExfatInode childInode fun e => { e with loadNeeded := true })

/-- A directory entry of type 0xC0. -/
def loadInfoEntry (k : FsKernel) (sb : ExfatSuperblock) (fileDentry : U64) (x : Nat → U8) :
    FsKernel :=
  let i := (k.fs.dentries.objects fileDentry).inode
  let k := k.modifyExfatInode (k.inode i).privateData fun e =>
    { e with exfatStartLba := sb.clusterLba (le32 x 0x14) }
  if (k.inode i).type = inodeRegularFile then k.setFileLength i ((le32 x 0x8).setWidth 64) else k

/-- The loop over the characters of a directory entry of type 0xC1, from the one that
`i` counts on, with the name and `i` after it. -/
def loadName (x : Nat → U8) (fileNameIndex : U8) : Nat → Nat → List U8 → List U8 × Nat
  | 0, i, name => (name, i)
  | left + 1, i, name =>
    if fileNameIndex.toNat + i > dentryMaxNameLength then (name, i)
    else loadName x fileNameIndex left (i + 1) (name.set (fileNameIndex.toNat + i) (x (2 * (i + 1))))

/-- The body of the loop over the entries of a directory page. -/
def loadEntry (sb : ExfatSuperblock) (dirInode : U64) (x : Nat → U8) (s : DirLoad) :
    Except Crash DirLoad :=
  if x 0 = 0x85 then do
    let (fileDentry, kernel) ← s.kernel.loadFileEntry dirInode x
    .ok ⟨kernel, fileDentry, 0⟩
  else if x 0 = 0xC0 then
    if s.fileDentry = 0 then .error .outOfBounds
    else .ok { s with kernel := s.kernel.loadInfoEntry sb s.fileDentry x }
  else if x 0 = 0xC1 then
    if s.fileDentry = 0 then .ok s
    else
      let (name, i) := loadName x s.fileNameIndex 15 0
        (s.kernel.fs.dentries.objects s.fileDentry).name
      .ok { s with
        kernel := s.kernel.modifyDentry s.fileDentry fun dentry => { dentry with name }
        fileNameIndex := s.fileNameIndex + BitVec.ofNat 8 i }
  else .ok s

/-- The loop over the entries of a page, with the number of those that are left. -/
def loadEntries (sb : ExfatSuperblock) (dirInode : U64) (page : Nat → U8) :
    Nat → Nat → DirLoad → Except Crash DirLoad
  | 0, _, s => .ok s
  | left + 1, x, s => do
    let s ← loadEntry sb dirInode (fun i => page (x + i)) s
    if left = 0 ∨ page (x + 0x20) = 0 then .ok s
    else loadEntries sb dirInode page left (x + 0x20) s

/-- The loop of `exfat_load_dir_inode` over the clusters of a directory. -/
def loadDirPages (sb : ExfatSuperblock) (partition : NvmepartDevice) (dirInode : U64) :
    Nat → U32 → (Nat → U8) → DirLoad → Except Crash DirLoad
  | 0, _, _, _ => .error .endless
  | fuel + 1, lba, page, s => do
    let page := s.kernel.deviceRead partition
      ((lba <<< sb.bytesPerSectorExponent.toNat).setWidth 64) 4096 page
    let s ← loadEntries sb dirInode page 128 0 s
    let fatEntry := s.kernel.readFatEntry sb partition lba
    if endsChain fatEntry then .ok s
    else loadDirPages sb partition dirInode fuel (sb.clusterLba fatEntry) page s

def exfatLoadDirInode (fuel : Nat) (k : FsKernel) (sb : ExfatSuperblock)
    (partition : NvmepartDevice) (dirInode : U64) : Except Crash FsKernel := do
  let exfatInode := (k.inode dirInode).privateData
  let s ← loadDirPages sb partition dirInode fuel (k.exfatInodes.objects exfatInode).exfatStartLba
    k.stalePage ⟨k, 0, 0⟩
  .ok (s.kernel.modifyExfatInode exfatInode fun e => { e with loadNeeded := false })

/-- A new cluster at the end of the list of a file. -/
def addFileCluster (k : FsKernel) (exfatInode : U64) (cluster : ExfatFileCluster) :
    Except Crash FsKernel := do
  let (c, k) ← k.exfatFileClusterAlloc
  let k := k.modifyExfatInode exfatInode fun e => { e with fileClusters := e.fileClusters ++ [c] }
  .ok { k with exfatFileClusters := k.exfatFileClusters.modify c fun _ => cluster }

/-- The loop of `exfat_load_file_inode`. -/
def loadFileClusters (sb : ExfatSuperblock) (partition : NvmepartDevice) (exfatInode fileLength : U64) :
    Nat → U32 → U32 → FsKernel → Except Crash FsKernel
  | 0, _, _, _ => .error .endless
  | fuel + 1, byteOffset, lba, k =>
    if byteOffset.setWidth 64 < fileLength then do
      let k ← k.addFileCluster exfatInode
        ⟨byteOffset, lba.setWidth 64 <<< sb.bytesPerSectorExponent.toNat⟩
      let fatEntry := k.readFatEntry sb partition lba
      if endsChain fatEntry then .ok k
      else
        loadFileClusters sb partition exfatInode fileLength fuel (byteOffset + 4096)
          (sb.clusterLba fatEntry) k
    else .ok k

def exfatLoadFileInode (fuel : Nat) (k : FsKernel) (sb : ExfatSuperblock)
    (partition : NvmepartDevice) (fileInode : U64) : Except Crash FsKernel := do
  let exfatInode := (k.inode fileInode).privateData
  let k ← loadFileClusters sb partition exfatInode (k.fileLengths fileInode) fuel 0
    (k.exfatInodes.objects exfatInode).exfatStartLba k
  .ok (k.modifyExfatInode exfatInode fun e => { e with loadNeeded := false })

def exfatLookup (fuel : Nat) (k : FsKernel) (sb : ExfatSuperblock) (partition : NvmepartDevice)
    (inode : U64) : Except Crash FsKernel :=
  if (k.exfatInodes.objects (k.inode inode).privateData).loadNeeded then
    if (k.inode inode).type = inodeDirectory then k.exfatLoadDirInode fuel sb partition inode
    else if (k.inode inode).type = inodeRegularFile then k.exfatLoadFileInode fuel sb partition inode
    else .ok k
  else .ok k

/-- `lookup` of the file system that the inode is on. -/
def lookup (fuel : Nat) (k : FsKernel) (inode : U64) : Except Crash FsKernel :=
  match k.typeOf inode with
  | .ramfs => .ok k
  | .sysfs => .ok k
  | .exfat sb partition => k.exfatLookup fuel sb partition inode

end FsKernel

end Persistos
