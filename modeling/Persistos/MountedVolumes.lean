import Persistos.ExfatChains
import Persistos.ExfatNewEntries

/-! What the inodes of a mounted volume stand for. Each that is in use is a directory or a
file of the volume; the first lookup of one makes it show what the volume has there. -/

namespace Persistos

open Theory

/-- What is on a volume: the clusters that are linked to the one with a number, and what is
in the directory that begins there. -/
structure Volume where
  root : U32
  chain : U32 → List U32
  items : U32 → List DirItem

inductive VolumeNode where
  | directory (first : U32)
  | file (set : EntrySet)

namespace VolumeNode

def ofSet (set : EntrySet) : VolumeNode :=
  if set.isDirectory then directory set.firstCluster else file set

def type : VolumeNode → U8
  | directory _ => inodeDirectory
  | file _ => inodeRegularFile

def first : VolumeNode → U32
  | directory first => first
  | file set => set.firstCluster

end VolumeNode

namespace Volume

def sets (V : Volume) (first : U32) : List EntrySet := DirItem.sets (V.items first)

/-- The volume as a graph of directories. The first of several entries with one name counts. -/
def directories (V : Volume) : Directories VolumeNode EntrySet (List U8) where
  isDir
    | .directory _ => true
    | .file _ => false
  entry
    | .directory first, name => (V.sets first).find? fun set => set.name = name
    | .file _, _ => none
  target := VolumeNode.ofSet

def rootNode (V : Volume) : VolumeNode := .directory V.root

/-- What a list of names leads to from the root directory. -/
def find (V : Volume) (names : List (List U8)) : Option VolumeNode :=
  V.directories.reach V.rootNode names

/-- What the volume has, shadowed by an entry of the same name or not. -/
inductive Has (V : Volume) : VolumeNode → Prop where
  | root : V.Has V.rootNode
  | child {first : U32} {set : EntrySet} : V.Has (.directory first) → set ∈ V.sets first →
      V.Has (.ofSet set)

def clustersOf (V : Volume) : VolumeNode → List U32
  | .directory first => V.chain first
  | .file set => if set.dataLength = 0 then [] else V.chain set.firstCluster

/-- The loops over clusters get to the end of each chain. -/
def Within (V : Volume) (fuel : Nat) : Prop := ∀ n, V.Has n → (V.clustersOf n).length < fuel

/-- The disk holds the volume: clusters of 4096 bytes that the FAT links, behind the FAT, and
none in two directories or files. -/
structure OnDisk (V : Volume) (k : FsKernel) (sb : ExfatSuperblock) (p : NvmepartDevice) :
    Prop where
  addressable : p.Addressable
  sectorSize : 9 ≤ sb.bytesPerSectorExponent.toNat ∧ sb.bytesPerSectorExponent.toNat ≤ 12
  clusterSize : sb.bytesPerSectorExponent.toNat + sb.sectorsPerClusterExponent.toNat = 12
  reachable : ∀ n, V.Has n → ∀ c ∈ V.clustersOf n, FsKernel.Reachable sb p c
  behindFat : ∀ n, V.Has n → ∀ c ∈ V.clustersOf n, sb.fatByte c + 4 ≤ sb.clusterByte 2
  linked : ∀ n, V.Has n → V.clustersOf n ≠ [] → k.Linked sb p (V.clustersOf n)
  start : ∀ n, V.Has n → ∀ c ∈ (V.clustersOf n).head?, c = n.first
  apart : ∀ n n', V.Has n → V.Has n' → n ≠ n' → (V.clustersOf n).Disjoint (V.clustersOf n')
  nonempty : ∀ first, V.Has (.directory first) → V.chain first ≠ []
  content : ∀ first, V.Has (.directory first) → ∃ ends : List (Nat → U8), (∀ x ∈ ends, x 0 = 0) ∧
    (V.chain first).flatMap (k.clusterEntries sb p) =
      (V.items first).flatMap DirItem.entries ++ ends
  firstClusters : ∀ first, V.Has (.directory first) → ∀ set ∈ V.sets first,
    set.FirstClusterFits sb
  valid : ∀ set, V.Has (.file set) → set.validDataLength = set.dataLength
  covered : ∀ set, V.Has (.file set) → set.dataLength.toNat ≤ 2 ^ 32 - 4096 ∧
    set.dataLength.toNat ≤ 4096 * (V.clustersOf (.file set)).length

variable {V : Volume} {k k' : FsKernel} {sb : ExfatSuperblock} {p : NvmepartDevice}
  {n : VolumeNode} {set : EntrySet}

theorem clusterEntries_same (h : k'.disk = k.disk) :
    k'.clusterEntries sb p = k.clusterEntries sb p := by
  funext c
  rw [FsKernel.clusterEntries, FsKernel.clusterEntries]
  exact congrArg (pageEntries · 128 0) (funext fun i => FsKernel.volumeByte_same h _)

theorem linked_same (h : k'.disk = k.disk) (cs : List U32) :
    k'.Linked sb p cs ↔ k.Linked sb p cs := by
  induction cs with
  | nil => exact Iff.rfl
  | cons c cs ih =>
    cases cs with
    | nil => rw [FsKernel.Linked, FsKernel.Linked, FsKernel.volumeWord_same h]
    | cons c' cs => rw [FsKernel.Linked, FsKernel.Linked, FsKernel.volumeWord_same h, ih]

namespace OnDisk

theorem same (h : V.OnDisk k sb p) (hd : k'.disk = k.disk) : V.OnDisk k' sb p :=
  { h with
    linked := fun n hn hne => (linked_same hd _).mpr (h.linked n hn hne)
    content := fun first hn => by
      rw [clusterEntries_same hd]
      exact h.content first hn }

theorem sectors_lt (h : V.OnDisk k sb p) : sb.sectorsPerClusterExponent.toNat < 32 := by
  have hsize := h.clusterSize
  omega

theorem first_ne_zero (h : V.OnDisk k sb p) (hn : V.Has n) (hne : V.clustersOf n ≠ []) :
    FsKernel.Reachable sb p n.first := by
  have hhead := h.start n hn _ (List.head_mem_head? hne)
  rw [← hhead]
  exact h.reachable n hn _ (List.head_mem hne)

theorem blocks_le (h : V.OnDisk k sb p) (hn : V.Has (.file set)) :
    blocks set.dataLength ≤ (V.clustersOf (.file set)).length := by
  have hle := (h.covered set hn).2
  rw [blocks]
  omega

end OnDisk

end Volume

namespace FsKernel

variable {k k' : FsKernel} {sb : ExfatSuperblock} {p : NvmepartDevice} {V : Volume}
  {node node' : U64 → Option VolumeNode} {i : U64} {n : VolumeNode} {set : EntrySet} {fuel : Nat}

/-- The exFAT half of an inode. -/
def exfatNode (k : FsKernel) (i : U64) : ExfatNode :=
  k.exfatInodes.objects (k.inode i).privateData

/-- A dentry with the name of an entry set, whose inode stands for the set. -/
structure EntryShown (k : FsKernel) (node : U64 → Option VolumeNode) (d : U64) (set : EntrySet) :
    Prop where
  known : k.KnownDentry d
  name : k.nameOf d = set.name
  mounted : (k.fs.dentries.objects d).mountedInode = 0
  stands : node (k.fs.dentries.objects d).inode = some (.ofSet set)

/-- The clusters in the list of a file, by their offsets in the file and on the partition. -/
def clusterOffsets (k : FsKernel) (i : U64) : List (Nat × Nat) :=
  (k.exfatNode i).fileClusters.map fun c =>
    ((k.exfatFileClusters.objects c).byteOffset.toNat,
      (k.exfatFileClusters.objects c).deviceOffset.toNat)

/-- The inode stands for `n`, and shows what it holds once it has been looked up. -/
structure NodeShown (k : FsKernel) (sb : ExfatSuperblock) (p : NvmepartDevice) (V : Volume)
    (node : U64 → Option VolumeNode) (i : U64) (n : VolumeNode) : Prop where
  known : k.Known i
  nonzero : i ≠ 0
  onVolume : k.typeOf i = .exfat sb p
  mounted : (k.inode i).superblock ≠ 0
  has : V.Has n
  type : (k.inode i).type = n.type
  fileLength : ∀ set, n = .file set → k.fileLengths i = set.dataLength
  start : (k.exfatNode i).loadNeeded = true → V.clustersOf n ≠ [] →
    (k.exfatNode i).exfatStartLba = sb.clusterLba n.first
  noEntries : (k.exfatNode i).loadNeeded = true → n.type = inodeDirectory →
    (k.inode i).dentries = []
  noClusters : (k.exfatNode i).loadNeeded = true → n.type = inodeRegularFile →
    (k.exfatNode i).fileClusters = []
  entries : (k.exfatNode i).loadNeeded = false → ∀ first, n = .directory first →
    List.Forall₂ (EntryShown k node) (k.inode i).dentries (V.sets first)
  slots : (k.exfatNode i).loadNeeded = false → ∀ set, n = .file set →
    ∀ c ∈ (k.exfatNode i).fileClusters, c ∈ k.exfatFileClusters.slots
  clusters : (k.exfatNode i).loadNeeded = false → ∀ set, n = .file set →
    k.clusterOffsets i = ((V.clustersOf n).take (blocks set.dataLength)).mapIdx
      fun j c => (4096 * j, sb.clusterByte c)

/-- `node` says what the inodes of the volume stand for. -/
structure Tracks (k : FsKernel) (sb : ExfatSuperblock) (p : NvmepartDevice) (V : Volume)
    (node : U64 → Option VolumeNode) : Prop where
  inv : k.Inv
  onDisk : V.OnDisk k sb p
  shown : ∀ i n, node i = some n → NodeShown k sb p V node i n
  halves : ∀ i j n m, node i = some n → node j = some m →
    (k.inode i).privateData = (k.inode j).privateData → i = j

/-- What a load of another inode keeps of what is shown. -/
structure KeepsShown (k k' : FsKernel) (node node' : U64 → Option VolumeNode) (i : U64) : Prop where
  known : k'.Known i
  inode : k'.inode i = k.inode i
  half : k'.exfatNode i = k.exfatNode i
  fileLength : k'.fileLengths i = k.fileLengths i
  superblocks : k'.superblocks = k.superblocks
  dentries : ∀ d, k.KnownDentry d →
    k'.KnownDentry d ∧ k'.fs.dentries.objects d = k.fs.dentries.objects d
  slots : ∀ c ∈ k.exfatFileClusters.slots, c ∈ k'.exfatFileClusters.slots ∧
    k'.exfatFileClusters.objects c = k.exfatFileClusters.objects c
  node : ∀ y m, node y = some m → node' y = some m

theorem EntryShown.keep {d : U64} (h : EntryShown k node d set)
    (hd : k'.KnownDentry d ∧ k'.fs.dentries.objects d = k.fs.dentries.objects d)
    (hnode : ∀ y m, node y = some m → node' y = some m) : EntryShown k' node' d set := by
  refine ⟨hd.1, ?_, ?_, ?_⟩
  · rw [nameOf, hd.2]
    exact h.name
  · rw [hd.2, h.mounted]
  · rw [hd.2]
    exact hnode _ _ h.stands

theorem NodeShown.keep (h : NodeShown k sb p V node i n) (hk : KeepsShown k k' node node' i) :
    NodeShown k' sb p V node' i n := by
  have hhalf := hk.half
  constructor
  · exact hk.known
  · exact h.nonzero
  · rw [typeOf, hk.inode, hk.superblocks]
    exact h.onVolume
  · rw [hk.inode]
    exact h.mounted
  · exact h.has
  · rw [hk.inode, h.type]
  · intro set hset
    rw [hk.fileLength, h.fileLength set hset]
  · rw [hhalf]
    exact h.start
  · rw [hhalf, hk.inode]
    exact h.noEntries
  · rw [hhalf]
    exact h.noClusters
  · rw [hhalf, hk.inode]
    exact fun hread first hfirst => (h.entries hread first hfirst).imp
      fun d set hs => hs.keep (hk.dentries d hs.known) hk.node
  · rw [hhalf]
    exact fun hread set hset c hc => (hk.slots c (h.slots hread set hset c hc)).1
  · rw [hhalf]
    intro hread set hset
    rw [← h.clusters hread set hset, clusterOffsets, clusterOffsets, hhalf]
    refine List.map_congr_left fun c hc => ?_
    rw [(hk.slots c (h.slots hread set hset c hc)).2]

end FsKernel

end Persistos
