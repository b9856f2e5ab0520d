import Persistos.ExfatIo
import Persistos.ExfatVolume

/-! Transfers of an exFAT file through the partition that its volume is on. They move the
bytes of the volume, and change no others of the disk. -/

namespace Persistos

open Theory

namespace NvmeDevice

variable (dev : NvmeDevice)

/-- A page that was read, changed and written back is changed in place. -/
theorem writepage_readpage (disk buffer : Nat → U8) (lba : U32) {o n : Nat} (h : o + n ≤ 4096) :
    dev.writepage disk lba (overlay (dev.readpage disk lba) o n buffer) =
      overlay disk (dev.pageOf lba + o) n buffer := by
  funext x
  rw [writepage]
  by_cases hpage : dev.pageOf lba ≤ x ∧ x < dev.pageOf lba + 4096
  · obtain ⟨i, rfl⟩ := Nat.exists_eq_add_of_le hpage.1
    rw [overlay_add (by omega)]
    by_cases hin : o ≤ i ∧ i < o + n
    · obtain ⟨j, rfl⟩ := Nat.exists_eq_add_of_le hin.1
      rw [overlay_add (by omega), ← Nat.add_assoc, overlay_add (by omega)]
    · by_cases hlt : i < o
      · rw [overlay_of_lt hlt, overlay_of_lt (by omega)]
        rfl
      · rw [overlay_of_ge (by omega), overlay_of_ge (by omega)]
        rfl
  · by_cases hlt : x < dev.pageOf lba
    · rw [overlay_of_lt hlt, overlay_of_lt (by omega)]
    · rw [overlay_of_ge (by omega), overlay_of_ge (by omega)]

/-- The chunks of a transfer put its bytes down in order. -/
theorem writeChunks_chunks (he : dev.lbadsExponent.toNat ≤ 12) (buffer disk : Nat → U8)
    (length offset bytesDone : U64)
    (ho : offset.toNat + (length.toNat - bytesDone.toNat) ≤
      2 ^ 32 * 2 ^ dev.lbadsExponent.toNat) :
    dev.writeChunks (dev.chunks length offset bytesDone) buffer disk =
      overlay disk offset.toNat (length.toNat - bytesDone.toNat) buffer := by
  have hbound : 2 ^ 32 * 2 ^ dev.lbadsExponent.toNat ≤ 2 ^ 32 * 2 ^ 12 :=
    Nat.mul_le_mul_left _ (Nat.pow_le_pow_right (by decide) he)
  induction offset, bytesDone using chunks.induct length generalizing buffer disk with
  | case1 offset bytesDone hlt n ih =>
    have hs : (length - bytesDone).toNat = length.toNat - bytesDone.toNat := by bv_omega
    have hn : n.toNat = min (4096 - offset.toNat % 4096) (length.toNat - bytesDone.toNat) := by
      dsimp only [n]
      rw [chunkLength_toNat, hs]
    have hd : (bytesDone + n).toNat = bytesDone.toNat + n.toNat := by bv_omega
    have hnext : (offset + n).toNat = offset.toNat + n.toNat := by
      rw [BitVec.toNat_add]
      omega
    have hlt' : bytesDone.toNat < length.toNat := hlt
    have hpage := dev.pageOf_lbaOf he (show offset.toNat < _ by omega)
    have hoff : (offset % 4096).toNat = offset.toNat % 4096 := BitVec.toNat_umod
    have hplace : dev.pageOf (dev.lbaOf offset) + offset.toNat % 4096 = offset.toNat := by
      rw [hpage]
      omega
    have hfirst := dev.writepage_readpage disk buffer (dev.lbaOf offset)
      (show offset.toNat % 4096 + n.toNat ≤ 4096 by omega)
    rw [hplace] at hfirst
    have hsum : length.toNat - bytesDone.toNat =
        n.toNat + (length.toNat - (bytesDone.toNat + n.toNat)) := by omega
    rw [chunks, if_pos hlt, writeChunks]
    dsimp only
    rw [hoff, hfirst, ih _ _ (by omega), hnext, hd, hsum, overlay_append]
  | case2 offset bytesDone hlt =>
    have hzero : length.toNat - bytesDone.toNat = 0 := by
      rw [BitVec.lt_def] at hlt
      omega
    rw [chunks, if_neg hlt, hzero, overlay_zero]
    rfl

end NvmeDevice

theorem addresses_succ (a : U64) (n : Nat) :
    addresses a (n + 1) = addresses a n ++ [a + BitVec.ofNat 64 n] := by
  rw [addresses, List.range_succ, List.map_append]
  rfl

/-- Writing at consecutive addresses. -/
theorem scatter_addresses (content : U64 → U8) (buffer : Nat → U8) {a : U64} {n : Nat}
    (h : a.toNat + n ≤ 2 ^ 64) (x : U64) :
    scatter content (addresses a n) (slice buffer 0 n) x =
      if a.toNat ≤ x.toNat ∧ x.toNat < a.toNat + n then buffer (x.toNat - a.toNat)
      else content x := by
  induction n with
  | zero => exact (if_neg (by omega)).symm
  | succ n ih =>
    have hlast : (a + BitVec.ofNat 64 n).toNat = a.toNat + n := by
      rw [BitVec.toNat_add, BitVec.toNat_ofNat]
      omega
    rw [addresses_succ, slice_add, scatter_append _ (by simp)]
    change store (scatter content (addresses a n) (slice buffer 0 n)) (a + BitVec.ofNat 64 n)
      (buffer (0 + n + 0)) x = _
    rw [store]
    by_cases hx : x = a + BitVec.ofNat 64 n
    · have hnat : x.toNat = a.toNat + n := by rw [hx, hlast]
      rw [if_pos hx, if_pos (by omega)]
      exact congrArg buffer (by omega)
    · have hnat : x.toNat ≠ a.toNat + n := fun hh => hx (BitVec.eq_of_toNat_eq (hh.trans hlast.symm))
      rw [if_neg hx, ih (by omega)]
      by_cases hin : a.toNat ≤ x.toNat ∧ x.toNat < a.toNat + n
      · rw [if_pos hin, if_pos (by omega)]
      · rw [if_neg hin, if_neg (by omega)]

namespace NvmepartDevice

variable {p : NvmepartDevice}

/-- The bytes of a volume by their addresses on the partition. -/
def content (p : NvmepartDevice) (disk : Nat → U8) : U64 → U8 := fun a => disk (p.firstByte + a.toNat)

/-- A range of the partition below 4 GiB, all of which the driver can reach. -/
structure Serves (p : NvmepartDevice) (a n : Nat) : Prop where
  low : a + n ≤ 2 ^ 32
  inside : p.firstByte + a + n ≤ p.endByte

variable {offset length : U64}

theorem Addressable.read_eq (h : p.Addressable) (hr : p.Serves offset.toNat length.toNat)
    (disk : Nat → U8) :
    p.fops.read disk offset length =
      ((wholeDevice.read (p.content disk) offset length).1, disk) := by
  have hlow := hr.low
  refine Prod.ext ?_ rfl
  rw [h.read disk hr.low hr.inside, wholeDevice_read, gather, addresses, List.map_map, slice]
  refine List.map_congr_left fun i hi => congrArg disk ?_
  have hlt := List.mem_range.mp hi
  have haddr : (offset + BitVec.ofNat 64 i).toNat = offset.toNat + i := by
    rw [BitVec.toNat_add, BitVec.toNat_ofNat]
    omega
  rw [haddr, Nat.add_assoc]

theorem Addressable.writeLength (h : p.Addressable) (hr : p.Serves offset.toNat length.toNat) :
    p.nvmeDevice.writeLength (nvmepartRange p offset length).1 length = length := by
  obtain ⟨-, -, hread⟩ := h.readLength hr.low hr.inside
  have hlow := hr.low
  have hle : length.toInt ≤ (p.nvmeDevice.bytesLeft (nvmepartRange p offset length).1).toInt := by
    by_contra hlt
    rw [NvmeDevice.readLength, if_pos (by omega)] at hread
    rw [hread] at hlt
    exact hlt (Int.le_refl _)
  rw [BitVec.toInt_eq_toNat_cond, if_pos (by omega), BitVec.toInt_eq_toNat_cond] at hle
  refine if_neg ?_
  rw [gt_iff_lt, BitVec.lt_def]
  split at hle <;> omega

theorem Addressable.write_eq (h : p.Addressable) (hr : p.Serves offset.toNat length.toNat)
    (disk buffer : Nat → U8) :
    p.fops.write disk buffer offset length =
      (length, overlay disk (p.firstByte + offset.toNat) length.toNat buffer) := by
  obtain ⟨hfst, hsnd, -⟩ := h.readLength hr.low hr.inside
  have hstart := h.start
  have hlow := hr.low
  change (p.nvmeDevice.writeLength (nvmepartRange p offset length).1
    (nvmepartRange p offset length).2, p.nvmeDevice.writeChunks (p.nvmeDevice.chunks
      (p.nvmeDevice.writeLength (nvmepartRange p offset length).1 (nvmepartRange p offset length).2)
        (nvmepartRange p offset length).1 0) buffer disk) = _
  rw [hsnd, h.writeLength hr, p.nvmeDevice.writeChunks_chunks h.lbads, hfst]
  · rfl
  · rw [hfst]
    change p.firstByte + offset.toNat + (length.toNat - 0) ≤ _
    omega

theorem content_overlay (p : NvmepartDevice) (disk buffer : Nat → U8) {a : U64} {n : Nat}
    (h : a.toNat + n ≤ 2 ^ 64) :
    p.content (overlay disk (p.firstByte + a.toNat) n buffer) =
      scatter (p.content disk) (addresses a n) (slice buffer 0 n) := by
  funext x
  rw [scatter_addresses _ _ h, content]
  by_cases hin : a.toNat ≤ x.toNat ∧ x.toNat < a.toNat + n
  · obtain ⟨i, hi⟩ := Nat.exists_eq_add_of_le hin.1
    rw [if_pos hin, hi, ← Nat.add_assoc, overlay_add (by omega)]
    exact congrArg buffer (by omega)
  · rw [if_neg hin]
    by_cases hlt : x.toNat < a.toNat
    · exact overlay_of_lt (by omega)
    · exact overlay_of_ge (by omega)

end NvmepartDevice

theorem exfatPageOffset_lt (cluster : ExfatFileCluster) (offset : U64) :
    (exfatPageOffset cluster offset).toNat < 4096 := by
  rw [exfatPageOffset, BitVec.toNat_setWidth, BitVec.toNat_umod]
  have hm := Nat.mod_lt (offset - cluster.byteOffset.setWidth 64).toNat (show 0 < 4096 by decide)
  exact Nat.lt_of_le_of_lt (Nat.mod_le _ _) hm

theorem exfatBytesToMove_page (fileLength length done offset : U64) {pageOffset : U16}
    (h : pageOffset.toNat < 4096) :
    (exfatBytesToMove fileLength length done offset pageOffset).toNat + pageOffset.toNat ≤ 4096 := by
  have hleft : (4096 - pageOffset.setWidth 64 : U64).toNat = 4096 - pageOffset.toNat := by
    rw [BitVec.toNat_sub, BitVec.toNat_setWidth]
    simp only [BitVec.toNat_ofNat, BitVec.ofNat_eq_ofNat]
    omega
  dsimp only [exfatBytesToMove]
  generalize fileLength - offset = fileLeft, length - done = left,
    (4096 - pageOffset.setWidth 64 : U64) = pageLeft at hleft ⊢
  split <;> split <;> bv_omega

section Clusters

variable {p : NvmepartDevice} {clusters : List ExfatFileCluster}

/-- The part of a cluster that one pass moves. -/
theorem holds_page {c : ExfatFileCluster} (hc : p.Serves c.deviceOffset.toNat 4096)
    (fileLength length done offset : U64) :
    p.Serves (c.deviceOffset + (exfatPageOffset c offset).setWidth 64).toNat
      (exfatBytesToMove fileLength length done offset (exfatPageOffset c offset)).toNat := by
  have hlt := exfatPageOffset_lt c offset
  have hle := exfatBytesToMove_page fileLength length done offset hlt
  have hlow := hc.low
  have hin := hc.inside
  have haddr : (c.deviceOffset + (exfatPageOffset c offset).setWidth 64).toNat =
      c.deviceOffset.toNat + (exfatPageOffset c offset).toNat := by
    rw [BitVec.toNat_add, BitVec.toNat_setWidth]
    omega
  rw [haddr]
  exact ⟨by omega, by omega⟩

theorem exfatReadClusters_eq (h : p.Addressable)
    (hc : ∀ c ∈ clusters, p.Serves c.deviceOffset.toNat 4096) (fileLength length offset : U64)
    (buf : List U8) (disk : Nat → U8) :
    exfatReadClusters p.fops fileLength length clusters offset buf disk =
      let r := exfatReadClusters wholeDevice fileLength length clusters offset buf (p.content disk)
      ⟨r.bytes, r.offset, disk⟩ := by
  induction clusters generalizing offset buf with
  | nil => rfl
  | cons c rest ih =>
    have ih := fun offset buf => ih (fun c hh => hc c (List.mem_cons_of_mem _ hh)) offset buf
    dsimp only at ih ⊢
    rw [exfatReadClusters, exfatReadClusters]
    split
    · exact ih offset buf
    · dsimp only
      split
      · rfl
      · rw [h.read_eq (holds_page (hc c List.mem_cons_self) _ _ _ _), ih]
        rfl

/-- A read through the partition delivers bytes of the volume. -/
theorem exfatRead_eq (h : p.Addressable) {inode : ExfatInode}
    (hc : ∀ c ∈ inode.fileClusters, p.Serves c.deviceOffset.toNat 4096) (offset length : U64)
    (disk : Nat → U8) :
    (exfatRead p.fops disk inode offset length).bytes =
        (exfatRead wholeDevice (p.content disk) inode offset length).bytes ∧
      (exfatRead p.fops disk inode offset length).device = disk := by
  rw [exfatRead, exfatReadClusters_eq h hc]
  exact ⟨rfl, rfl⟩

theorem exfatWriteClusters_eq (h : p.Addressable)
    (hc : ∀ c ∈ clusters, p.Serves c.deviceOffset.toNat 4096) (fileLength length : U64)
    (buffer : Nat → U8) (offset done : U64) (disk : Nat → U8) :
    let w := exfatWriteClusters p.fops fileLength buffer length clusters offset done disk
    let v := exfatWriteClusters wholeDevice fileLength buffer length clusters offset done
      (p.content disk)
    w.totalBytesWritten = v.totalBytesWritten ∧ p.content w.device = v.device ∧
      ∀ x < p.firstByte, w.device x = disk x := by
  induction clusters generalizing offset done disk with
  | nil => exact ⟨rfl, rfl, fun _ _ => rfl⟩
  | cons c rest ih =>
    have ih := fun offset done disk =>
      ih (fun c hh => hc c (List.mem_cons_of_mem _ hh)) offset done disk
    dsimp only at ih ⊢
    rw [exfatWriteClusters, exfatWriteClusters]
    split
    · exact ih offset done disk
    · dsimp only
      split
      · exact ⟨rfl, rfl, fun _ _ => rfl⟩
      · have hpage := holds_page (hc c List.mem_cons_self) fileLength length done offset
        have hlow := hpage.low
        rw [h.write_eq hpage, wholeDevice_write]
        dsimp only
        rw [← p.content_overlay disk _ (by omega)]
        obtain ⟨htotal, hcontent, hbelow⟩ := ih
          (offset + exfatBytesToMove fileLength length done offset (exfatPageOffset c offset))
          (done + exfatBytesToMove fileLength length done offset (exfatPageOffset c offset))
          (overlay disk (p.firstByte +
            (c.deviceOffset + (exfatPageOffset c offset).setWidth 64).toNat)
            (exfatBytesToMove fileLength length done offset (exfatPageOffset c offset)).toNat
            fun i => buffer (done.toNat + i))
        refine ⟨htotal, hcontent, fun x hx => (hbelow x hx).trans ?_⟩
        exact overlay_of_lt (by omega)

/-- A write through the partition changes bytes of the volume. -/
theorem exfatWrite_eq (h : p.Addressable) {inode : ExfatInode}
    (hc : ∀ c ∈ inode.fileClusters, p.Serves c.deviceOffset.toNat 4096) (offset length : U64)
    (buffer disk : Nat → U8) :
    (exfatWrite p.fops disk inode offset buffer length).totalBytesWritten =
        (exfatWrite wholeDevice (p.content disk) inode offset buffer length).totalBytesWritten ∧
      p.content (exfatWrite p.fops disk inode offset buffer length).device =
        (exfatWrite wholeDevice (p.content disk) inode offset buffer length).device ∧
      ∀ x < p.firstByte,
        (exfatWrite p.fops disk inode offset buffer length).device x = disk x :=
  exfatWriteClusters_eq h hc inode.fileLength length buffer offset 0 disk

end Clusters

end Persistos
