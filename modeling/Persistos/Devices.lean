import Persistos.Nvmepart
import Persistos.Vfs

/-! The operations of the device files on the contents of a disk: the zero device,
an NVMe namespace and a partition of one. -/

namespace Persistos

open Theory

def devzeroFops : FileOperations (Nat → U8) where
  write disk _ _ length := (length, disk)
  read disk _ length := (List.replicate length.toNat 0, disk)

namespace NvmeDevice

variable (dev : NvmeDevice)

def pageOf (lba : U32) : Nat := lba.toNat * 2 ^ dev.lbadsExponent.toNat

/-- The page that `nvme_readpage` fetches from a block of at most 4096 bytes on. -/
def readpage (disk : Nat → U8) (lba : U32) : Nat → U8 := fun i => disk (dev.pageOf lba + i)

def writepage (disk : Nat → U8) (lba : U32) (contentPage : Nat → U8) : Nat → U8 :=
  overlay disk (dev.pageOf lba) 4096 contentPage

def readChunks (disk : Nat → U8) (chunks : List NvmeChunk) : List U8 :=
  chunks.flatMap fun c => slice (dev.readpage disk c.lba) c.pageOffset.toNat c.length.toNat

def writeChunks : List NvmeChunk → (Nat → U8) → (Nat → U8) → Nat → U8
  | [], _, disk => disk
  | c :: chunks, buffer, disk =>
    let tempPage := overlay (dev.readpage disk c.lba) c.pageOffset.toNat c.length.toNat buffer
    writeChunks chunks (fun i => buffer (c.length.toNat + i)) (dev.writepage disk c.lba tempPage)

def fops : FileOperations (Nat → U8) where
  write disk buffer offset length :=
    let t := nvmeWrite dev offset length
    (t.bytes, dev.writeChunks t.chunks buffer disk)
  read disk offset length := (dev.readChunks disk (nvmeRead dev offset length).chunks, disk)

end NvmeDevice

def NvmepartDevice.fops (p : NvmepartDevice) : FileOperations (Nat → U8) where
  write disk buffer offset length :=
    let t := nvmepartWrite p offset length
    (t.bytes, p.nvmeDevice.writeChunks t.chunks buffer disk)
  read disk offset length :=
    (p.nvmeDevice.readChunks disk (nvmepartRead p offset length).chunks, disk)

inductive Device where
  | zero
  | nvme (dev : NvmeDevice)
  | nvmepart (partition : NvmepartDevice)

def Device.fops : Device → FileOperations (Nat → U8)
  | .zero => devzeroFops
  | .nvme dev => dev.fops
  | .nvmepart partition => partition.fops

/-- The loop moves as many bytes as were left to it. -/
theorem NvmeDevice.sum_chunks (dev : NvmeDevice) (length offset bytesDone : U64) :
    ((dev.chunks length offset bytesDone).map fun c => c.length.toNat).sum =
      length.toNat - bytesDone.toNat := by
  induction offset, bytesDone using chunks.induct length with
  | case1 offset bytesDone hlt n ih =>
    have hn := chunkLength_le offset (length - bytesDone)
    have hs : (length - bytesDone).toNat = length.toNat - bytesDone.toNat := by bv_omega
    have hd : (bytesDone + n).toNat = bytesDone.toNat + n.toNat := by
      dsimp only [n]
      bv_omega
    rw [chunks, if_pos hlt, List.map_cons, List.sum_cons, ih, hd]
    dsimp only [n] at hn ⊢
    omega
  | case2 offset bytesDone hlt =>
    rw [chunks, if_neg hlt]
    change 0 = _
    bv_omega

theorem NvmeDevice.readChunks_length (dev : NvmeDevice) (disk : Nat → U8) (length offset : U64) :
    (dev.readChunks disk (dev.chunks length offset 0)).length = length.toNat := by
  rw [readChunks, List.length_flatMap]
  simp only [slice_length]
  exact dev.sum_chunks length offset 0

/-- No transfer is longer than the buffer. -/
structure FileOperations.Counted {δ : Type} (fops : FileOperations δ) : Prop where
  write_le : ∀ s buffer offset length, (fops.write s buffer offset length).1.toNat ≤ length.toNat
  read_le : ∀ s offset length, (fops.read s offset length).1.length ≤ length.toNat

theorem NvmepartDevice.range_snd_le (p : NvmepartDevice) (offset length : U64) :
    (nvmepartRange p offset length).2.toNat ≤ length.toNat := by
  rw [p.range_snd_toNat]
  exact Nat.min_le_left _ _

theorem Device.counted (device : Device) : device.fops.Counted := by
  cases device with
  | zero =>
    refine ⟨fun _ _ _ length => Nat.le_refl _, fun s offset length => ?_⟩
    exact Nat.le_of_eq List.length_replicate
  | nvme dev =>
    refine ⟨fun _ _ offset length => dev.writeLength_le offset length, ?_⟩
    intro s offset length
    exact Nat.le_trans (Nat.le_of_eq (dev.readChunks_length s _ _)) (dev.readLength_le offset length)
  | nvmepart p =>
    constructor
    · intro s buffer offset length
      exact Nat.le_trans (p.nvmeDevice.writeLength_le _ _) (p.range_snd_le offset length)
    · intro s offset length
      refine Nat.le_trans (Nat.le_of_eq (p.nvmeDevice.readChunks_length s _ _)) ?_
      exact Nat.le_trans (p.nvmeDevice.readLength_le _ _) (p.range_snd_le offset length)

end Persistos
