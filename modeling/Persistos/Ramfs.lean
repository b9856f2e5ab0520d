import Persistos.SlabObjects
import Persistos.Vfs
import Persistos.Theory.Blocks

/-! The RAM file system. A file is a list of clusters of 128 bytes, which
writing and truncating lengthen and shorten. -/

namespace Persistos

open Theory

/-- `ramfsClusters` is the list at `ramfs_clusters_lh`, by the addresses of its
entries. -/
structure RamfsInode where
  ramfsClusters : List U64
  size : U64

structure Ramfs where
  supply : PageSupply
  inodes : Slab Inode
  dentries : Slab Dentry
  ramfsInodes : Slab RamfsInode
  ramfsClusters : Slab (Nat → U8)

def clearedInode : Inode := ⟨0, 0, 0, []⟩
def clearedDentry : Dentry := ⟨[], 0, 0⟩
def clearedRamfsInode : RamfsInode := ⟨[], 0⟩
def clearedCluster : Nat → U8 := fun _ => 0

namespace Ramfs

/-- `filp->inode->private` -/
def privateOf (fs : Ramfs) (f : U64) : U64 := (fs.inodes.objects f).privateData

def ramfsInodeOf (fs : Ramfs) (f : U64) : RamfsInode := fs.ramfsInodes.objects (fs.privateOf f)

end Ramfs

def ramfsCreateFileInode (fs : Ramfs) (parentDir : Inode) (outInode outDentry : U64) :
    Except Crash (U64 × Inode × Ramfs) := do
  let inodes := fs.inodes.modify outInode fun inode =>
    { inode with type := inodeRegularFile, superblock := parentDir.superblock, dentries := [] }
  let dentries := fs.dentries.modify outDentry fun dentry =>
    { dentry with inode := outInode, mountedInode := 0 }
  let (ramfsInode, supply, ramfsInodes) ← fs.ramfsInodes.alloc clearedRamfsInode fs.supply
  let ramfsInodes := ramfsInodes.modify ramfsInode fun r => { r with ramfsClusters := [] }
  let inodes := inodes.modify outInode fun inode => { inode with privateData := ramfsInode }
  .ok (0, { parentDir with dentries := parentDir.dentries ++ [outDentry] },
    { fs with supply, inodes, dentries, ramfsInodes })

def ramfsCreateDirInode (fs : Ramfs) (parentDir : Inode) (outInode outDentry : U64) :
    Except Crash (U64 × Inode × Ramfs) :=
  let inodes := fs.inodes.modify outInode fun inode =>
    { inode with type := inodeDirectory, superblock := parentDir.superblock, dentries := [] }
  let dentries := fs.dentries.modify outDentry fun dentry =>
    { dentry with inode := outInode, mountedInode := 0 }
  .ok (0, { parentDir with dentries := parentDir.dentries ++ [outDentry] },
    { fs with inodes, dentries })

/-- `copied_offset_range_start` -/
def copiedStart (start clusterStart : U64) : U64 :=
  if start > clusterStart then start else clusterStart

/-- `copied_offset_range_end` -/
def copiedEnd (stop clusterEnd : U64) : U64 := if stop < clusterEnd then stop else clusterEnd

/-- The loop of `ramfs_read`, which starts at `readStart` and ends at `readEnd`. -/
def ramfsReadClusters (data : U64 → Nat → U8) (readStart readEnd length : U64) :
    List U64 → U64 → U64 → (Nat → U8) → Except Crash (U64 × (Nat → U8))
  | [], _, bytesRead, buffer => .ok (bytesRead, buffer)
  | cluster :: rest, clusterStart, bytesRead, buffer =>
    if clusterStart < readEnd then
      let clusterEnd := clusterStart + 128
      if readStart < clusterEnd then
        let first := copiedStart readStart clusterStart
        let last := copiedEnd readEnd clusterEnd
        do
          let buffer ← memcpy buffer length.toNat (first - readStart) (data cluster) 128
            (first - clusterStart) (last - first)
          ramfsReadClusters data readStart readEnd length rest clusterEnd
            (bytesRead + (last - first)) buffer
      else ramfsReadClusters data readStart readEnd length rest clusterEnd bytesRead buffer
    else .ok (bytesRead, buffer)

def ramfsRead (fs : Ramfs) (filp : File) (buffer : Nat → U8) (length : U64) :
    Except Crash (ReadResult Ramfs) :=
  let ramfsInode := fs.ramfsInodeOf filp.inode
  let readStart := filp.offset
  let readEnd :=
    if filp.offset + length < ramfsInode.size then filp.offset + length else ramfsInode.size
  if readEnd = readStart then .ok ⟨0, filp, buffer, fs⟩
  else do
    let (bytesRead, buffer) ← ramfsReadClusters fs.ramfsClusters.objects readStart readEnd length
      ramfsInode.ramfsClusters 0 0 buffer
    .ok ⟨bytesRead, filp.advance bytesRead, buffer, fs⟩

/-- What the first loop of `ramfs_set_size` does at the end of the list. -/
def ramfsAppendCluster (fs : Ramfs) (ramfsInode : U64) : Except Crash Ramfs := do
  let (cluster, supply, ramfsClusters) ← fs.ramfsClusters.alloc clearedCluster fs.supply
  let ramfsInodes := fs.ramfsInodes.modify ramfsInode fun r =>
    { r with ramfsClusters := r.ramfsClusters ++ [cluster] }
  let ramfsClusters := ramfsClusters.modify cluster fun _ => clearedCluster
  .ok { fs with supply, ramfsInodes, ramfsClusters }

/-- One pass of the first loop of `ramfs_set_size`, where `next` are the
clusters from `ramfs_clusters_le` on. -/
def ramfsGrowPass (fs : Ramfs) (ramfsInode : U64) :
    List U64 → Except Crash (Ramfs × List U64)
  | [] => do
    let fs ← ramfsAppendCluster fs ramfsInode
    .ok (fs, [])
  | _ :: next => .ok (fs, next)

/-- The first loop of `ramfs_set_size`. The first argument bounds the passes:
without a pass that reaches `size` within it there is none. -/
def ramfsGrow (ramfsInode size : U64) :
    Nat → Ramfs → List U64 → U64 → Except Crash (Ramfs × List U64)
  | 0, _, _, _ => .error .endless
  | passes + 1, fs, next, clusterStart => do
    let (fs, next) ← ramfsGrowPass fs ramfsInode next
    let clusterStart := clusterStart + 128
    if clusterStart < size then ramfsGrow ramfsInode size passes fs next clusterStart
    else .ok (fs, next)

def ramfsDropCluster (fs : Ramfs) (ramfsInode cluster : U64) : Except Crash Ramfs := do
  let ramfsInodes := fs.ramfsInodes.modify ramfsInode fun r =>
    { r with ramfsClusters := r.ramfsClusters.erase cluster }
  let ramfsClusters ← fs.ramfsClusters.free cluster
  .ok { fs with ramfsInodes, ramfsClusters }

def ramfsDropClusters (ramfsInode : U64) : Ramfs → List U64 → Except Crash Ramfs
  | fs, [] => .ok fs
  | fs, cluster :: rest => do
    let fs ← ramfsDropCluster fs ramfsInode cluster
    ramfsDropClusters ramfsInode fs rest

def ramfsSetSize (fs : Ramfs) (filp : File) (size : U64) : Except Crash (U64 × Ramfs) := do
  let ramfsInode := fs.privateOf filp.inode
  let (fs, next) ← ramfsGrow ramfsInode size (size.toNat / 128 + 1) fs
    (fs.ramfsInodeOf filp.inode).ramfsClusters 0
  let fs ← ramfsDropClusters ramfsInode fs next
  .ok (0, { fs with ramfsInodes := fs.ramfsInodes.modify ramfsInode fun r => { r with size } })

/-- The loop of `ramfs_write`. It does not test for the end of the list, where
it would take the head for a cluster. -/
def ramfsWriteClusters (buffer : Nat → U8) (length writeStart writeEnd : U64) :
    List U64 → U64 → Slab (Nat → U8) → Except Crash (Slab (Nat → U8))
  | [], clusterStart, clusters =>
    if clusterStart < writeEnd then .error .outOfBounds else .ok clusters
  | cluster :: rest, clusterStart, clusters =>
    if clusterStart < writeEnd then
      let clusterEnd := clusterStart + 128
      if writeStart < clusterEnd then
        let first := copiedStart writeStart clusterStart
        let last := copiedEnd writeEnd clusterEnd
        do
          let data ← memcpy (clusters.objects cluster) 128 (first - clusterStart) buffer
            length.toNat (first - writeStart) (last - first)
          ramfsWriteClusters buffer length writeStart writeEnd rest clusterEnd
            (clusters.modify cluster fun _ => data)
      else ramfsWriteClusters buffer length writeStart writeEnd rest clusterEnd clusters
    else .ok clusters

/-- The call in `ramfs_write` that makes room for a write that ends behind the file. -/
def ramfsMakeRoom (fs : Ramfs) (filp : File) (writeEnd : U64) : Except Crash Ramfs :=
  if writeEnd > (fs.ramfsInodeOf filp.inode).size then do
    let (_, fs) ← ramfsSetSize fs filp writeEnd
    .ok fs
  else .ok fs

def ramfsWrite (fs : Ramfs) (filp : File) (buffer : Nat → U8) (length : U64) :
    Except Crash (U64 × Ramfs) :=
  if length = 0 then .ok (0, fs)
  else do
    let writeStart := filp.offset
    let writeEnd := filp.offset + length
    let fs ← ramfsMakeRoom fs filp writeEnd
    let ramfsClusters ← ramfsWriteClusters buffer length writeStart writeEnd
      (fs.ramfsInodeOf filp.inode).ramfsClusters 0 fs.ramfsClusters
    .ok (length, { fs with ramfsClusters })

def ramfsSuperblockOps : FilesystemOps Ramfs where
  createFileInode := ramfsCreateFileInode
  createDirInode := ramfsCreateDirInode
  read := ramfsRead
  write fs filp buffer length := do
    let (n, fs) ← ramfsWrite fs filp buffer length
    .ok (n, filp, fs)
  setSize := ramfsSetSize

/-- The inode and the named dentry that `vfs_create` and `vfs_mkdir` allocate.
A name that does not fit its field would be copied beyond the end of it. -/
def vfsAllocEntry (fs : Ramfs) (name : List U8) : Except Crash (U64 × U64 × Ramfs) := do
  let (dirInode, supply, inodes) ← fs.inodes.alloc clearedInode fs.supply
  let (dirDentry, supply, dentries) ← fs.dentries.alloc clearedDentry supply
  if dentryMaxNameLength < name.length then .error .outOfBounds
  else
    let dentries := dentries.modify dirDentry fun dentry => { dentry with name }
    .ok (dirInode, dirDentry, { fs with supply, inodes, dentries })

def vfsCreate (ops : FilesystemOps Ramfs) (fs : Ramfs) (parentDir : Inode) (name : List U8) :
    Except Crash (Option U64 × Inode × Ramfs) := do
  let (dirInode, dirDentry, fs) ← vfsAllocEntry fs name
  let (createResult, parentDir, fs) ← ops.createFileInode fs parentDir dirInode dirDentry
  if createResult ≠ 0 then do
    let inodes ← fs.inodes.free dirInode
    let dentries ← fs.dentries.free dirDentry
    .ok (none, parentDir, { fs with inodes, dentries })
  else .ok (some dirInode, parentDir, fs)

def vfsMkdir (ops : FilesystemOps Ramfs) (fs : Ramfs) (parentDir : Inode) (name : List U8) :
    Except Crash (U64 × Inode × Ramfs) := do
  let (dirInode, dirDentry, fs) ← vfsAllocEntry fs name
  let (_, parentDir, fs) ← ops.createDirInode fs parentDir dirInode dirDentry
  .ok (dirInode, parentDir, fs)

/-- The pages that the slabs will get, and what memory holds before they do. -/
structure BootMemory where
  supply : PageSupply
  inodes : U64 → Inode
  dentries : U64 → Dentry
  ramfsInodes : U64 → RamfsInode
  ramfsClusters : U64 → Nat → U8

/-- The slabs as `vfs_init` and `ramfs_init` set them up. -/
def Ramfs.init (m : BootMemory) : Ramfs where
  supply := m.supply
  inodes := .init 48 m.inodes
  dentries := .init 96 m.dentries
  ramfsInodes := .init 24 m.ramfsInodes
  ramfsClusters := .init 144 m.ramfsClusters

end Persistos
