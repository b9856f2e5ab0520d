import Persistos.Vfs
import Persistos.Theory.Scatter

/-! Reading and writing an exFAT file. Both walk the list of its clusters of
4096 bytes while the file offset moves. -/

namespace Persistos

open Theory

structure ExfatFileCluster where
  byteOffset : U32
  deviceOffset : U64

/-- The fields of `struct inode` and of `struct exfat_inode` that are used here. -/
structure ExfatInode where
  fileLength : U64
  fileClusters : List ExfatFileCluster

def exfatPageOffset (cluster : ExfatFileCluster) (offset : U64) : U16 :=
  ((offset - cluster.byteOffset.setWidth 64) % 4096).setWidth 16

/-- `bytes_to_read` and `bytes_to_write`, with `done` bytes of the call behind. -/
def exfatBytesToMove (fileLength length done offset : U64) (pageOffset : U16) : U64 :=
  let pageLeft := 4096 - pageOffset.setWidth 64
  let bytes := if length - done < pageLeft then length - done else pageLeft
  if bytes < fileLength - offset then bytes else fileLength - offset

variable {δ : Type}

structure ExfatRead (δ : Type) where
  bytes : List U8
  offset : U64
  device : δ

def ExfatRead.totalBytesRead (r : ExfatRead δ) : U64 := BitVec.ofNat 64 r.bytes.length

def exfatReadClusters (fops : FileOperations δ) (fileLength length : U64) :
    List ExfatFileCluster → U64 → List U8 → δ → ExfatRead δ
  | [], offset, buf, device => ⟨buf, offset, device⟩
  | cluster :: rest, offset, buf, device =>
    if offset < cluster.byteOffset.setWidth 64 then
      exfatReadClusters fops fileLength length rest offset buf device
    else
      let pageOffset := exfatPageOffset cluster offset
      let bytesToRead :=
        exfatBytesToMove fileLength length (BitVec.ofNat 64 buf.length) offset pageOffset
      if bytesToRead = 0 then ⟨buf, offset, device⟩
      else
        let read := fops.read device (cluster.deviceOffset + pageOffset.setWidth 64) bytesToRead
        exfatReadClusters fops fileLength length rest
          (offset + BitVec.ofNat 64 read.1.length) (buf ++ read.1) read.2

def exfatRead (fops : FileOperations δ) (device : δ) (inode : ExfatInode) (offset length : U64) :
    ExfatRead δ :=
  exfatReadClusters fops inode.fileLength length inode.fileClusters offset [] device

structure ExfatWrite (δ : Type) where
  totalBytesWritten : U64
  offset : U64
  device : δ

def exfatWriteClusters (fops : FileOperations δ) (fileLength : U64) (buffer : Nat → U8)
    (length : U64) : List ExfatFileCluster → U64 → U64 → δ → ExfatWrite δ
  | [], offset, done, device => ⟨done, offset, device⟩
  | cluster :: rest, offset, done, device =>
    if offset < cluster.byteOffset.setWidth 64 then
      exfatWriteClusters fops fileLength buffer length rest offset done device
    else
      let pageOffset := exfatPageOffset cluster offset
      let bytesToWrite := exfatBytesToMove fileLength length done offset pageOffset
      if bytesToWrite = 0 then ⟨done, offset, device⟩
      else
        let written := fops.write device (fun i => buffer (done.toNat + i))
          (cluster.deviceOffset + pageOffset.setWidth 64) bytesToWrite
        exfatWriteClusters fops fileLength buffer length rest (offset + written.1)
          (done + written.1) written.2

def exfatWrite (fops : FileOperations δ) (device : δ) (inode : ExfatInode) (offset : U64)
    (buffer : Nat → U8) (length : U64) : ExfatWrite δ :=
  exfatWriteClusters fops inode.fileLength buffer length inode.fileClusters offset 0 device

def addresses (a : U64) (n : Nat) : List U64 := (List.range n).map fun i => a + BitVec.ofNat 64 i

def wholeDevice : FileOperations (U64 → U8) where
  write content buffer offset length :=
    (length, scatter content (addresses offset length.toNat) (slice buffer 0 length.toNat))
  read content offset length := (gather content (addresses offset length.toNat), content)

/-- The addresses of the device that the loops visit when every transfer is
complete. -/
def exfatVisited (fileLength length : U64) : List ExfatFileCluster → U64 → U64 → List U64
  | [], _, _ => []
  | cluster :: rest, offset, done =>
    if offset < cluster.byteOffset.setWidth 64 then exfatVisited fileLength length rest offset done
    else
      let pageOffset := exfatPageOffset cluster offset
      let bytes := exfatBytesToMove fileLength length done offset pageOffset
      if bytes = 0 then []
      else
        addresses (cluster.deviceOffset + pageOffset.setWidth 64) bytes.toNat ++
          exfatVisited fileLength length rest (offset + bytes) (done + bytes)

@[simp] theorem addresses_length (a : U64) (n : Nat) : (addresses a n).length = n := by
  simp [addresses]

theorem wholeDevice_write (content : U64 → U8) (buffer : Nat → U8) (offset length : U64) :
    wholeDevice.write content buffer offset length =
      (length, scatter content (addresses offset length.toNat) (slice buffer 0 length.toNat)) := rfl

theorem wholeDevice_read (content : U64 → U8) (offset length : U64) :
    wholeDevice.read content offset length =
      (gather content (addresses offset length.toNat), content) := rfl

theorem exfatReadClusters_bytes (content : U64 → U8) (fileLength length : U64)
    (clusters : List ExfatFileCluster) (offset : U64) (buf : List U8) :
    (exfatReadClusters wholeDevice fileLength length clusters offset buf content).bytes =
      buf ++ gather content
        (exfatVisited fileLength length clusters offset (BitVec.ofNat 64 buf.length)) := by
  induction clusters generalizing offset buf with
  | nil => simp [exfatReadClusters, exfatVisited, gather]
  | cons cluster rest ih =>
    rw [exfatReadClusters, exfatVisited]
    split
    · exact ih offset buf
    · dsimp only
      split
      · simp [gather]
      · rw [wholeDevice_read, ih, List.append_assoc, gather_append, List.length_append, gather,
          List.length_map, addresses_length, BitVec.ofNat_add, BitVec.ofNat_toNat,
          BitVec.setWidth_eq]

theorem exfatBytesToMove_le (fileLength length done offset : U64) (pageOffset : U16) :
    exfatBytesToMove fileLength length done offset pageOffset ≤ length - done := by
  dsimp only [exfatBytesToMove]
  generalize fileLength - offset = fileLeft, length - done = left,
    4096 - pageOffset.setWidth 64 = pageLeft
  split <;> split <;> bv_omega

theorem exfatWriteClusters_whole (content : U64 → U8) (fileLength : U64) (buffer : Nat → U8)
    (length : U64) (clusters : List ExfatFileCluster) (offset : U64) {done : U64}
    (hd : done.toNat ≤ length.toNat) :
    let w := exfatWriteClusters wholeDevice fileLength buffer length clusters offset done content
    let visited := exfatVisited fileLength length clusters offset done
    w.device = scatter content visited (slice buffer done.toNat visited.length) ∧
      w.totalBytesWritten = done + BitVec.ofNat 64 visited.length := by
  induction clusters generalizing offset done content with
  | nil => simp [exfatWriteClusters, exfatVisited, scatter]
  | cons cluster rest ih =>
    dsimp only
    rw [exfatWriteClusters, exfatVisited]
    split
    · exact ih content offset hd
    · dsimp only
      split
      · simp [scatter]
      · have hle := exfatBytesToMove_le fileLength length done offset
          (exfatPageOffset cluster offset)
        generalize exfatBytesToMove fileLength length done offset
          (exfatPageOffset cluster offset) = n at hle ⊢
        have hn : done.toNat + n.toNat ≤ length.toNat := by bv_omega
        have hdone : (done + n).toNat = done.toNat + n.toNat := by bv_omega
        have hh := fun content => ih content (offset + n) (hdone ▸ hn)
        dsimp only at hh ⊢
        rw [wholeDevice_write, slice_shift, (hh _).1, (hh _).2, List.length_append,
          addresses_length]
        constructor
        · rw [slice_add, ← hdone, scatter_append _ (by simp)]
        · rw [BitVec.ofNat_add, BitVec.ofNat_toNat, BitVec.setWidth_eq, BitVec.add_assoc]

end Persistos
