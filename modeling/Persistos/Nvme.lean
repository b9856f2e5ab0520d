import Persistos.Word

/-! Byte ranges of an NVMe namespace. A transfer is cut into chunks that stay
inside one page of 4096 bytes, each moved by a page command. -/

namespace Persistos

structure NvmeDevice where
  lbadsExponent : U8
  lbaCount : U64

/-- One pass of the copy loop: the page command's first block, and the bytes
of the page that are copied. `offset` is the byte of the namespace meant. -/
structure NvmeChunk where
  offset : U64
  lba : U32
  pageOffset : U64
  length : U64
  deriving DecidableEq, Repr

namespace NvmeDevice

/-- `offset >> 12 << (12 - lbads_exponent)`, cut to 32 bits. -/
def lbaOf (dev : NvmeDevice) (offset : U64) : U32 :=
  (offset >>> 12 <<< (12 - dev.lbadsExponent.toNat)).setWidth 32

/-- The signed `bytes_readable` and `bytes_writeable`, raised to zero. -/
def bytesLeft (dev : NvmeDevice) (offset : U64) : U64 :=
  let bytesLeft := dev.lbaCount <<< dev.lbadsExponent.toNat - offset
  if bytesLeft.toInt < 0 then 0 else bytesLeft

/-- The length of `nvme_read` after its clamp, which compares signed numbers. -/
def readLength (dev : NvmeDevice) (offset length : U64) : U64 :=
  if length.toInt > (dev.bytesLeft offset).toInt then dev.bytesLeft offset else length

/-- The length of `nvme_write` after its clamp, which compares unsigned numbers. -/
def writeLength (dev : NvmeDevice) (offset length : U64) : U64 :=
  if length > dev.bytesLeft offset then dev.bytesLeft offset else length

end NvmeDevice

def chunkLength (offset bytesRemaining : U64) : U64 :=
  let chunkLength := 4096 - offset % 4096
  if chunkLength > bytesRemaining then bytesRemaining else chunkLength

theorem chunkLength_toNat (offset bytesRemaining : U64) :
    (chunkLength offset bytesRemaining).toNat =
      min (4096 - offset.toNat % 4096) bytesRemaining.toNat := by
  have hm : (offset % 4096).toNat = offset.toNat % 4096 := BitVec.toNat_umod
  have hh : (4096 - offset % 4096).toNat = 4096 - offset.toNat % 4096 := by
    rw [BitVec.toNat_sub, hm]
    simp only [BitVec.toNat_ofNat, BitVec.ofNat_eq_ofNat]
    omega
  rw [chunkLength]
  split
  · next hlt =>
    rw [gt_iff_lt, BitVec.lt_def, hh] at hlt
    omega
  · next hlt =>
    rw [gt_iff_lt, BitVec.lt_def, hh] at hlt
    omega

theorem chunkLength_le (offset bytesRemaining : U64) :
    (chunkLength offset bytesRemaining).toNat ≤ bytesRemaining.toNat := by
  rw [chunkLength_toNat]
  exact Nat.min_le_right _ _

/-- The copy loop of `nvme_read` and `nvme_write`. -/
def NvmeDevice.chunks (dev : NvmeDevice) (length offset bytesDone : U64) : List NvmeChunk :=
  if bytesDone < length then
    let n := chunkLength offset (length - bytesDone)
    ⟨offset, dev.lbaOf offset, offset % 4096, n⟩ :: dev.chunks length (offset + n) (bytesDone + n)
  else []
termination_by length.toNat - bytesDone.toNat
decreasing_by
  have hn := chunkLength_toNat offset (length - bytesDone)
  bv_omega

structure NvmeTransfer where
  chunks : List NvmeChunk
  bytes : U64

def nvmeRead (dev : NvmeDevice) (offset length : U64) : NvmeTransfer :=
  let length := dev.readLength offset length
  ⟨dev.chunks length offset 0, length⟩

def nvmeWrite (dev : NvmeDevice) (offset length : U64) : NvmeTransfer :=
  let length := dev.writeLength offset length
  ⟨dev.chunks length offset 0, length⟩

namespace NvmeDevice

variable (dev : NvmeDevice)

/-- The first byte of the page that a command for `offset` moves. -/
theorem lbaOf_mul (he : dev.lbadsExponent.toNat ≤ 12) (offset : U64) :
    (dev.lbaOf offset).toNat * 2 ^ dev.lbadsExponent.toNat =
      4096 * (offset.toNat / 4096 % 2 ^ (20 + dev.lbadsExponent.toNat)) := by
  have hlba : (dev.lbaOf offset).toNat = offset.toNat / 4096 % 2 ^ (20 + dev.lbadsExponent.toNat) *
      2 ^ (12 - dev.lbadsExponent.toNat) := by
    have hpow : 2 ^ 32 =
        2 ^ (20 + dev.lbadsExponent.toNat) * 2 ^ (12 - dev.lbadsExponent.toNat) := by
      rw [← Nat.pow_add]
      congr 1
      omega
    rw [lbaOf, BitVec.toNat_setWidth, BitVec.toNat_shiftLeft, BitVec.toNat_ushiftRight,
      Nat.shiftLeft_eq, Nat.shiftRight_eq_div_pow, Nat.mod_mod_of_dvd _ (by decide), hpow,
      Nat.mul_mod_mul_right]
  have hpow : 2 ^ (12 - dev.lbadsExponent.toNat) * 2 ^ dev.lbadsExponent.toNat = 4096 := by
    rw [← Nat.pow_add, Nat.sub_add_cancel he]
  rw [hlba, Nat.mul_assoc, hpow, Nat.mul_comm]

theorem bytesLeft_lt (offset : U64) : (dev.bytesLeft offset).toNat < 2 ^ 63 := by
  dsimp only [bytesLeft]
  split
  · decide
  · next hn =>
    rw [BitVec.toInt_eq_toNat_cond] at hn
    split at hn
    · omega
    · omega

theorem readLength_le (offset length : U64) :
    (dev.readLength offset length).toNat ≤ length.toNat := by
  have hb := dev.bytesLeft_lt offset
  rw [readLength]
  split
  · next hlt =>
    rw [BitVec.toInt_eq_toNat_cond, BitVec.toInt_eq_toNat_cond, if_pos (by omega)] at hlt
    split at hlt
    · omega
    · omega
  · exact Nat.le_refl _

theorem writeLength_le (offset length : U64) :
    (dev.writeLength offset length).toNat ≤ length.toNat := by
  rw [writeLength]
  split
  · next hlt => exact Nat.le_of_lt hlt
  · exact Nat.le_refl _

/-- The chunks copy bytes of the range that is left to copy, and no others. -/
theorem chunks_bytes {length offset bytesDone : U64} {c : NvmeChunk}
    (hc : c ∈ dev.chunks length offset bytesDone) {i : Nat} (hi : i < c.length.toNat) :
    ∃ j < length.toNat - bytesDone.toNat,
      c.offset + BitVec.ofNat 64 i = offset + BitVec.ofNat 64 j := by
  induction offset, bytesDone using chunks.induct length with
  | case1 offset bytesDone hlt n ih =>
    have hn := chunkLength_le offset (length - bytesDone)
    have hs : (length - bytesDone).toNat = length.toNat - bytesDone.toNat := by bv_omega
    have hd : (bytesDone + n).toNat = bytesDone.toNat + n.toNat := by
      dsimp only [n]
      bv_omega
    rw [chunks, if_pos hlt] at hc
    rcases List.mem_cons.mp hc with rfl | hc
    · dsimp only at hi
      exact ⟨i, by omega, rfl⟩
    · obtain ⟨j, hj, he⟩ := ih hc
      refine ⟨n.toNat + j, by omega, ?_⟩
      rw [he, BitVec.ofNat_add, BitVec.ofNat_toNat, BitVec.setWidth_eq, BitVec.add_assoc]
  | case2 offset bytesDone hlt =>
    rw [chunks, if_neg hlt] at hc
    cases hc

end NvmeDevice

end Persistos
