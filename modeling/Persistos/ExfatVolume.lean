import Persistos.FsKernel

/-! The bytes of a volume that the loaders of exFAT read. They go through the partition
and the namespace that it lies on. -/

namespace Persistos

open Theory

namespace NvmeDevice

variable (dev : NvmeDevice)

theorem pageOf_lbaOf (he : dev.lbadsExponent.toNat ≤ 12) {offset : U64}
    (ho : offset.toNat < 2 ^ 32 * 2 ^ dev.lbadsExponent.toNat) :
    dev.pageOf (dev.lbaOf offset) = offset.toNat / 4096 * 4096 := by
  have hpow : 2 ^ (20 + dev.lbadsExponent.toNat) = 2 ^ 20 * 2 ^ dev.lbadsExponent.toNat :=
    Nat.pow_add _ _ _
  have hpage := dev.lbaOf_mul he offset
  rw [Nat.mod_eq_of_lt (by omega), Nat.mul_comm 4096] at hpage
  exact hpage

/-- The chunks of a transfer hold its bytes in order. -/
theorem readChunks_chunks (he : dev.lbadsExponent.toNat ≤ 12) (disk : Nat → U8)
    (length offset bytesDone : U64)
    (ho : offset.toNat + (length.toNat - bytesDone.toNat) ≤
      2 ^ 32 * 2 ^ dev.lbadsExponent.toNat) :
    dev.readChunks disk (dev.chunks length offset bytesDone) =
      slice disk offset.toNat (length.toNat - bytesDone.toNat) := by
  have hbound : 2 ^ 32 * 2 ^ dev.lbadsExponent.toNat ≤ 2 ^ 32 * 2 ^ 12 :=
    Nat.mul_le_mul_left _ (Nat.pow_le_pow_right (by decide) he)
  induction offset, bytesDone using chunks.induct length with
  | case1 offset bytesDone hlt n ih =>
    have hs : (length - bytesDone).toNat = length.toNat - bytesDone.toNat := by bv_omega
    have hn : n.toNat = min (4096 - offset.toNat % 4096) (length.toNat - bytesDone.toNat) := by
      dsimp only [n]
      rw [chunkLength_toNat, hs]
    have hd : (bytesDone + n).toNat = bytesDone.toNat + n.toNat := by bv_omega
    have hnext : (offset + n).toNat = offset.toNat + n.toNat := by
      rw [BitVec.toNat_add]
      omega
    have hlt' : bytesDone.toNat < length.toNat := hlt
    have hpage := dev.pageOf_lbaOf he (show offset.toNat < _ by omega)
    have hoff : (offset % 4096).toNat = offset.toNat % 4096 := BitVec.toNat_umod
    have hfirst : slice (dev.readpage disk (dev.lbaOf offset)) (offset % 4096).toNat n.toNat =
        slice disk offset.toNat n.toNat := by
      refine slice_congr fun i _ => ?_
      rw [readpage, hpage, hoff]
      exact congrArg disk (by omega)
    have hrest : dev.readChunks disk (dev.chunks length (offset + n) (bytesDone + n)) =
        slice disk (offset.toNat + n.toNat) (length.toNat - (bytesDone.toNat + n.toNat)) := by
      rw [ih (by omega), hnext, hd]
    have hsum : length.toNat - bytesDone.toNat =
        n.toNat + (length.toNat - (bytesDone.toNat + n.toNat)) := by omega
    rw [hsum, slice_add disk, ← hfirst, ← hrest, chunks, if_pos hlt, readChunks,
      List.flatMap_cons, readChunks]
  | case2 offset bytesDone hlt =>
    have hzero : length.toNat - bytesDone.toNat = 0 := by
      rw [BitVec.lt_def] at hlt
      omega
    rw [chunks, if_neg hlt, hzero]
    rfl

end NvmeDevice

/-- A partition on its namespace, of which the driver can name the first 4 GiB with block
numbers of 32 bits. -/
structure NvmepartDevice.Addressable (p : NvmepartDevice) : Prop where
  lbads : p.nvmeDevice.lbadsExponent.toNat ≤ 12
  start : p.firstByte + 2 ^ 32 ≤ 2 ^ 32 * 2 ^ p.nvmeDevice.lbadsExponent.toNat
  stop : p.endByte ≤ p.nvmeDevice.lbaCount.toNat * 2 ^ p.nvmeDevice.lbadsExponent.toNat
  size : p.nvmeDevice.lbaCount.toNat * 2 ^ p.nvmeDevice.lbadsExponent.toNat < 2 ^ 63

namespace NvmepartDevice

variable {p : NvmepartDevice}

theorem Addressable.readLength (h : p.Addressable) {offset length : U64}
    (ho : offset.toNat + length.toNat ≤ 2 ^ 32)
    (hend : p.firstByte + offset.toNat + length.toNat ≤ p.endByte) :
    (nvmepartRange p offset length).1.toNat = p.firstByte + offset.toNat ∧
      (nvmepartRange p offset length).2 = length ∧
      p.nvmeDevice.readLength (nvmepartRange p offset length).1 length = length := by
  have hstop := h.stop
  have hsize := h.size
  have hfst : (nvmepartRange p offset length).1.toNat = p.firstByte + offset.toNat := by
    rw [p.range_fst_toNat]
    omega
  have hsnd : (nvmepartRange p offset length).2 = length := by
    refine BitVec.eq_of_toNat_eq ?_
    rw [p.range_snd_toNat]
    omega
  refine ⟨hfst, hsnd, ?_⟩
  have hcount : (p.nvmeDevice.lbaCount <<< p.nvmeDevice.lbadsExponent.toNat).toNat =
      p.nvmeDevice.lbaCount.toNat * 2 ^ p.nvmeDevice.lbadsExponent.toNat := by
    rw [shiftLeft_toNat]
    omega
  have hleft : (p.nvmeDevice.lbaCount <<< p.nvmeDevice.lbadsExponent.toNat -
      (nvmepartRange p offset length).1).toNat =
        p.nvmeDevice.lbaCount.toNat * 2 ^ p.nvmeDevice.lbadsExponent.toNat -
          (p.firstByte + offset.toNat) := by
    rw [BitVec.toNat_sub, hcount, hfst]
    omega
  have hbytes : p.nvmeDevice.bytesLeft (nvmepartRange p offset length).1 =
      p.nvmeDevice.lbaCount <<< p.nvmeDevice.lbadsExponent.toNat -
        (nvmepartRange p offset length).1 := by
    rw [NvmeDevice.bytesLeft]
    refine if_neg ?_
    rw [BitVec.toInt_eq_toNat_cond, if_pos (by omega)]
    omega
  rw [NvmeDevice.readLength, hbytes]
  refine if_neg ?_
  rw [BitVec.toInt_eq_toNat_cond, BitVec.toInt_eq_toNat_cond, if_pos (by omega),
    if_pos (by omega)]
  omega

theorem Addressable.read (h : p.Addressable) (disk : Nat → U8) {offset length : U64}
    (ho : offset.toNat + length.toNat ≤ 2 ^ 32)
    (hend : p.firstByte + offset.toNat + length.toNat ≤ p.endByte) :
    (p.fops.read disk offset length).1 =
      slice disk (p.firstByte + offset.toNat) length.toNat := by
  obtain ⟨hfst, hsnd, hlength⟩ := h.readLength ho hend
  have hstart := h.start
  change p.nvmeDevice.readChunks disk (p.nvmeDevice.chunks (p.nvmeDevice.readLength
    (nvmepartRange p offset length).1 (nvmepartRange p offset length).2)
      (nvmepartRange p offset length).1 0) = _
  rw [hsnd, hlength, p.nvmeDevice.readChunks_chunks h.lbads, hfst]
  · rfl
  · rw [hfst]
    change p.firstByte + offset.toNat + (length.toNat - 0) ≤ _
    omega

end NvmepartDevice

namespace FsKernel

variable {k : FsKernel} {p : NvmepartDevice}

/-- The byte of the volume at an offset. -/
def volumeByte (k : FsKernel) (p : NvmepartDevice) (offset : Nat) : U8 :=
  k.disk (p.firstByte + offset)

theorem deviceRead_apply (h : p.Addressable) {offset length : U64}
    (ho : offset.toNat + length.toNat ≤ 2 ^ 32)
    (hend : p.firstByte + offset.toNat + length.toNat ≤ p.endByte) (old : Nat → U8) {i : Nat}
    (hi : i < length.toNat) :
    k.deviceRead p offset length old i = k.volumeByte p (offset.toNat + i) := by
  have hread := h.read k.disk ho hend
  rw [deviceRead]
  have hlt : i < ((p.fops.read k.disk offset length).1).length := by
    rw [hread, slice_length]
    exact hi
  have hover := overlay_add (m := old) (o := 0)
    (d := fun j => ((p.fops.read k.disk offset length).1).getD j 0) hlt
  rw [Nat.zero_add] at hover
  rw [hover, hread, slice_getD _ _ _ hi, volumeByte, Nat.add_assoc]

/-- The 32-bit number at an offset of the volume. -/
def volumeWord (k : FsKernel) (p : NvmepartDevice) (offset : Nat) : U32 :=
  le32 (fun i => k.volumeByte p (offset + i)) 0

theorem deviceRead_word (h : p.Addressable) {offset : U64} (ho : offset.toNat + 4 ≤ 2 ^ 32)
    (hend : p.firstByte + offset.toNat + 4 ≤ p.endByte) (old : Nat → U8) :
    le32 (k.deviceRead p offset 4 old) 0 = k.volumeWord p offset.toNat := by
  have hbyte : ∀ i < 4, k.deviceRead p offset 4 old i = k.volumeByte p (offset.toNat + i) :=
    fun i hi => deviceRead_apply h ho hend old hi
  simp only [volumeWord, le32, le16]
  rw [hbyte 0 (by decide), hbyte 1 (by decide), hbyte 2 (by decide), hbyte 3 (by decide)]

theorem readFatEntry_eq (h : p.Addressable) {sb : ExfatSuperblock} {lba : U32}
    (ho : (sb.fatEntryByteOffset lba).toNat + 4 ≤ 2 ^ 32)
    (hend : p.firstByte + (sb.fatEntryByteOffset lba).toNat + 4 ≤ p.endByte) :
    k.readFatEntry sb p lba = k.volumeWord p (sb.fatEntryByteOffset lba).toNat := by
  have hoffset : ((sb.fatEntryByteOffset lba).setWidth 64).toNat =
      (sb.fatEntryByteOffset lba).toNat := by
    rw [BitVec.toNat_setWidth]
    omega
  rw [readFatEntry, deviceRead_word h (by rw [hoffset]; exact ho) (by rw [hoffset]; exact hend),
    hoffset]

end FsKernel

end Persistos
