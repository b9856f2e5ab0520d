import Persistos.NvmeSubmissions
import Persistos.NvmeWriters

/-! The byte transfers of `nvme_read` and `nvme_write` with a controller that executes
their page commands. -/

namespace Persistos

open Theory

/-- What a transfer works on: the bytes of the namespace, the temporary page and the
buffer of the caller. -/
structure NvmeIo where
  disk : Nat → U8
  tempPage : Nat → U8
  buffer : Nat → U8

namespace NvmeSqEntry

/-- The number of the first block. -/
def slba (e : NvmeSqEntry) : Nat := e.suffix1.toNat + 2 ^ 32 * e.suffix2.toNat

/-- `NLB` has the number of blocks less one. -/
def blocks (e : NvmeSqEntry) : Nat := e.suffix3.toNat % 2 ^ 16 + 1

end NvmeSqEntry

namespace NvmeDevice

variable (dev : NvmeDevice)

/-- The number of bytes of the namespace. -/
def capacity : Nat := dev.lbaCount.toNat * 2 ^ dev.lbadsExponent.toNat

/-- The controller executes a command. One that runs past the last block moves nothing. -/
def execute (e : NvmeSqEntry) (s : NvmeIo) : NvmeIo :=
  let start := e.slba * 2 ^ dev.lbadsExponent.toNat
  let bytes := e.blocks * 2 ^ dev.lbadsExponent.toNat
  if e.slba + e.blocks ≤ dev.lbaCount.toNat then
    if e.command.setWidth 8 = (1 : U8) then { s with disk := overlay s.disk start bytes s.tempPage }
    else if e.command.setWidth 8 = (2 : U8) then
      { s with tempPage := overlay s.tempPage 0 bytes fun i => s.disk (start + i) }
    else s
  else s

def nvmeReadpage (commandId : U16) (resultPagePhys : U64) (lba : U32) (s : NvmeIo) : NvmeIo :=
  dev.execute ((⟨2, commandId, resultPagePhys, lba⟩ : PageCommand).entry dev.lbadsExponent) s

def nvmeWritepage (commandId : U16) (contentPagePhys : U64) (lba : U32) (s : NvmeIo) : NvmeIo :=
  dev.execute ((⟨1, commandId, contentPagePhys, lba⟩ : PageCommand).entry dev.lbadsExponent) s

/-- The loop of `nvme_read`, with the command ids that `start_command` returns. -/
def nvmeReadFrom (commandId : Nat → U16) (tempPagePhys length offset bytesRead : U64)
    (s : NvmeIo) : U64 × NvmeIo :=
  if bytesRead < length then
    let bytesRemaining := length - bytesRead
    let lba := dev.lbaOf offset
    let s := dev.nvmeReadpage (commandId 0) tempPagePhys lba s
    let chunkPageOffset := offset % 4096
    let n := chunkLength offset bytesRemaining
    let s := { s with
      buffer := overlay s.buffer bytesRead.toNat n.toNat
        fun i => s.tempPage (chunkPageOffset.toNat + i) }
    nvmeReadFrom (fun k => commandId (k + 1)) tempPagePhys length (offset + n) (bytesRead + n) s
  else (bytesRead, s)
termination_by length.toNat - bytesRead.toNat
decreasing_by
  have hn := chunkLength_toNat offset (length - bytesRead)
  bv_omega

/-- The loop of `nvme_write`. -/
def nvmeWriteFrom (commandId : Nat → U16) (tempPagePhys length offset bytesWritten : U64)
    (s : NvmeIo) : U64 × NvmeIo :=
  if bytesWritten < length then
    let bytesRemaining := length - bytesWritten
    let lba := dev.lbaOf offset
    let s := dev.nvmeReadpage (commandId 0) tempPagePhys lba s
    let chunkPageOffset := offset % 4096
    let n := chunkLength offset bytesRemaining
    let s := { s with
      tempPage := overlay s.tempPage chunkPageOffset.toNat n.toNat
        fun i => s.buffer (bytesWritten.toNat + i) }
    let s := dev.nvmeWritepage (commandId 1) tempPagePhys lba s
    nvmeWriteFrom (fun k => commandId (k + 2)) tempPagePhys length (offset + n)
      (bytesWritten + n) s
  else (bytesWritten, s)
termination_by length.toNat - bytesWritten.toNat
decreasing_by
  have hn := chunkLength_toNat offset (length - bytesWritten)
  bv_omega

/-- `nvme_read`, where `tempPage` is what the fresh page holds. -/
def nvmeReadBytes (commandId : Nat → U16) (tempPagePhys offset length : U64) (s : NvmeIo) :
    U64 × NvmeIo :=
  dev.nvmeReadFrom commandId tempPagePhys (dev.readLength offset length) offset 0 s

def nvmeWriteBytes (commandId : Nat → U16) (tempPagePhys offset length : U64) (s : NvmeIo) :
    U64 × NvmeIo :=
  dev.nvmeWriteFrom commandId tempPagePhys (dev.writeLength offset length) offset 0 s

/-- A namespace of whole pages whose blocks all have numbers of 32 bits. -/
structure WholePages : Prop where
  exponent : 9 ≤ dev.lbadsExponent.toNat ∧ dev.lbadsExponent.toNat ≤ 12
  pages : 4096 ∣ dev.capacity
  blocks : dev.lbaCount.toNat ≤ 2 ^ 32

end NvmeDevice

theorem sqCommand_opcode {opcode : U32} (h : opcode = 1 ∨ opcode = 2) (commandId : U16) :
    (sqCommand opcode commandId).setWidth 8 = opcode.setWidth 8 := by
  have hid : (commandId.setWidth 32 <<< 16 : U32).setWidth 8 = (0 : U8) := by
    apply BitVec.eq_of_toNat_eq
    rw [BitVec.toNat_setWidth, BitVec.toNat_shiftLeft, BitVec.toNat_setWidth, Nat.shiftLeft_eq]
    simp only [BitVec.ofNat_eq_ofNat, BitVec.toNat_ofNat]
    omega
  rw [sqCommand, BitVec.setWidth_or, hid]
  rcases h with rfl | rfl
  · rfl
  · rfl

namespace NvmeDevice

variable {dev : NvmeDevice} {s : NvmeIo} {lba : U32}

/-- A page command moves as many blocks as a page has. -/
theorem blocks_mul (he : dev.lbadsExponent.toNat ≤ 12) (p : PageCommand) :
    (p.entry dev.lbadsExponent).blocks * 2 ^ dev.lbadsExponent.toNat = 4096 := by
  have hnat : ∀ e ≤ 12, (4095 >>> e % 2 ^ 32 % 2 ^ 16 + 1) * 2 ^ e = 4096 := by decide
  exact hnat dev.lbadsExponent.toNat he

theorem slba_eq (p : PageCommand) : (p.entry dev.lbadsExponent).slba = p.lba.toNat := rfl

namespace WholePages

variable {offset : U64} (h : dev.WholePages)
include h

theorem capacity_le : dev.capacity ≤ 2 ^ 44 := by
  have hpow : 2 ^ dev.lbadsExponent.toNat ≤ 2 ^ 12 :=
    Nat.pow_le_pow_right (by decide) h.exponent.2
  calc dev.capacity ≤ 2 ^ 32 * 2 ^ 12 := Nat.mul_le_mul h.blocks hpow
    _ = 2 ^ 44 := rfl

theorem pageStart_eq (ho : offset.toNat < dev.capacity) :
    dev.pageStart (dev.lbaOf offset) = offset.toNat / 4096 * 4096 := by
  have hlimit : dev.capacity ≤ 4096 * 2 ^ (20 + dev.lbadsExponent.toNat) := by
    have hpow : 4096 * 2 ^ (20 + dev.lbadsExponent.toNat) =
        2 ^ 32 * 2 ^ dev.lbadsExponent.toNat := by
      rw [Nat.pow_add]
      omega
    rw [hpow]
    exact Nat.mul_le_mul_right _ h.blocks
  rw [pageStart_lbaOf h.exponent.2, Nat.mod_eq_of_lt (by omega), Nat.mul_comm]

/-- The page of a byte of the namespace lies inside of it. -/
theorem page_le (ho : offset.toNat < dev.capacity) :
    offset.toNat / 4096 * 4096 + 4096 ≤ dev.capacity := by
  obtain ⟨pages, hpages⟩ := h.pages
  omega

theorem command_inside (ho : offset.toNat < dev.capacity) {p : PageCommand}
    (hp : p.lba = dev.lbaOf offset) :
    (p.entry dev.lbadsExponent).slba + (p.entry dev.lbadsExponent).blocks ≤
      dev.lbaCount.toNat := by
  have hstart : p.lba.toNat * 2 ^ dev.lbadsExponent.toNat = offset.toNat / 4096 * 4096 := by
    rw [hp]
    exact h.pageStart_eq ho
  refine Nat.le_of_mul_le_mul_right ?_ (Nat.two_pow_pos dev.lbadsExponent.toNat)
  rw [Nat.add_mul, blocks_mul h.exponent.2, slba_eq, hstart]
  exact h.page_le ho

theorem nvmeReadpage_eq (ho : offset.toNat < dev.capacity) (commandId : U16) (phys : U64)
    (s : NvmeIo) :
    dev.nvmeReadpage commandId phys (dev.lbaOf offset) s = { s with
      tempPage := overlay s.tempPage 0 4096 fun i => s.disk (offset.toNat / 4096 * 4096 + i) } := by
  have hopcode : ((⟨2, commandId, phys, dev.lbaOf offset⟩ : PageCommand).entry
      dev.lbadsExponent).command.setWidth 8 = (2 : U8) := sqCommand_opcode (.inr rfl) commandId
  have hstart : (dev.lbaOf offset).toNat * 2 ^ dev.lbadsExponent.toNat =
      offset.toNat / 4096 * 4096 := h.pageStart_eq ho
  rw [nvmeReadpage, execute, if_pos (h.command_inside ho rfl), blocks_mul h.exponent.2, slba_eq,
    if_neg (by rw [hopcode]; decide), if_pos hopcode, hstart]

theorem nvmeWritepage_eq (ho : offset.toNat < dev.capacity) (commandId : U16) (phys : U64)
    (s : NvmeIo) :
    dev.nvmeWritepage commandId phys (dev.lbaOf offset) s =
      { s with disk := overlay s.disk (offset.toNat / 4096 * 4096) 4096 s.tempPage } := by
  have hopcode : ((⟨1, commandId, phys, dev.lbaOf offset⟩ : PageCommand).entry
      dev.lbadsExponent).command.setWidth 8 = (1 : U8) := sqCommand_opcode (.inl rfl) commandId
  have hstart : (dev.lbaOf offset).toNat * 2 ^ dev.lbadsExponent.toNat =
      offset.toNat / 4096 * 4096 := h.pageStart_eq ho
  rw [nvmeWritepage, execute, if_pos (h.command_inside ho rfl), blocks_mul h.exponent.2, slba_eq,
    if_pos hopcode, hstart]

end WholePages

/-- Where the loops stand after a pass. -/
structure Pass (offset length done : U64) (k : Nat) : Prop where
  chunk : (chunkLength offset (length - done)).toNat = k
  pos : 0 < k
  le : done.toNat + k ≤ length.toNat
  nextOffset : (offset + chunkLength offset (length - done)).toNat = offset.toNat + k
  nextDone : (done + chunkLength offset (length - done)).toNat = done.toNat + k
  inside : offset.toNat % 4096 + k ≤ 4096

variable {offset length done : U64}

theorem WholePages.pass (h : dev.WholePages)
    (ho : offset.toNat + (length.toNat - done.toNat) ≤ dev.capacity) (hlt : done < length) :
    ∃ k, Pass offset length done k := by
  have hcapacity := h.capacity_le
  have hn := chunkLength_toNat offset (length - done)
  have hleft : (length - done).toNat = length.toNat - done.toNat := by bv_omega
  have hlt' : done.toNat < length.toNat := hlt
  refine ⟨_, rfl, by omega, by omega, ?_, ?_, by omega⟩
  · rw [BitVec.toNat_add]
    omega
  · rw [BitVec.toNat_add]
    omega

/-- A pass of `nvme_read` copies the bytes of its chunk. -/
theorem WholePages.nvmeReadFrom_pass (h : dev.WholePages) (ho : offset.toNat < dev.capacity)
    (hlt : done < length) {k : Nat} (hk : Pass offset length done k) (commandId : Nat → U16)
    (phys : U64) (s : NvmeIo) :
    dev.nvmeReadFrom commandId phys length offset done s =
      dev.nvmeReadFrom (fun k => commandId (k + 1)) phys length
        (offset + chunkLength offset (length - done)) (done + chunkLength offset (length - done))
        { dev.nvmeReadpage (commandId 0) phys (dev.lbaOf offset) s with
          buffer := overlay s.buffer done.toNat k fun i => s.disk (offset.toNat + i) } := by
  have hinside := hk.inside
  have hmod : (offset % 4096).toNat = offset.toNat % 4096 := BitVec.toNat_umod
  rw [nvmeReadFrom, if_pos hlt]
  simp only [hk.chunk, h.nvmeReadpage_eq ho]
  congr 2
  refine overlay_congr fun i hi => ?_
  rw [overlay, if_pos (by omega), hmod]
  exact congrArg s.disk (by omega)

theorem overlay_page (offset : Nat) (d disk tempPage : Nat → U8) {k : Nat}
    (hinside : offset % 4096 + k ≤ 4096) :
    overlay disk (offset / 4096 * 4096) 4096
      (overlay (overlay tempPage 0 4096 fun i => disk (offset / 4096 * 4096 + i))
        (offset % 4096) k d) =
      overlay disk offset k d := by
  generalize hpage : offset / 4096 * 4096 = page
  funext x
  simp only [overlay]
  by_cases hin : page ≤ x ∧ x < page + 4096
  · rw [if_pos hin]
    by_cases hchunk : offset ≤ x ∧ x < offset + k
    · rw [if_pos hchunk, if_pos (by omega)]
      exact congrArg d (by omega)
    · rw [if_neg hchunk, if_neg (by omega), if_pos (by omega)]
      exact congrArg disk (by omega)
  · rw [if_neg hin, if_neg (by omega)]

/-- A pass of `nvme_write` changes the bytes of its chunk and no others. -/
theorem WholePages.nvmeWriteFrom_pass (h : dev.WholePages) (ho : offset.toNat < dev.capacity)
    (hlt : done < length) {k : Nat} (hk : Pass offset length done k) (commandId : Nat → U16)
    (phys : U64) (s : NvmeIo) :
    ∃ tempPage, dev.nvmeWriteFrom commandId phys length offset done s =
      dev.nvmeWriteFrom (fun k => commandId (k + 2)) phys length
        (offset + chunkLength offset (length - done)) (done + chunkLength offset (length - done))
        { s with
          tempPage
          disk := overlay s.disk offset.toNat k fun i => s.buffer (done.toNat + i) } := by
  have hmod : (offset % 4096).toNat = offset.toNat % 4096 := BitVec.toNat_umod
  have hpage := overlay_page offset.toNat (fun i => s.buffer (done.toNat + i)) s.disk s.tempPage
    hk.inside
  rw [nvmeWriteFrom, if_pos hlt]
  simp only [hk.chunk, hmod, h.nvmeReadpage_eq ho, h.nvmeWritepage_eq ho, hpage]
  exact ⟨_, rfl⟩

theorem eq_of_not_lt (hd : done.toNat ≤ length.toNat) (hlt : ¬done < length) : done = length := by
  have hle : length.toNat ≤ done.toNat := Nat.le_of_not_lt hlt
  exact BitVec.eq_of_toNat_eq (Nat.le_antisymm hd hle)

/-- A call that reads `bytes` bytes from `offset` on into `buffer`, from `done` on. -/
structure ReadsBytes (length : U64) (offset done bytes : Nat) (s : NvmeIo) (r : U64 × NvmeIo) :
    Prop where
  result : r.1 = length
  disk : r.2.disk = s.disk
  buffer : r.2.buffer = overlay s.buffer done bytes fun i => s.disk (offset + i)

structure WritesBytes (length : U64) (offset done bytes : Nat) (s : NvmeIo) (r : U64 × NvmeIo) :
    Prop where
  result : r.1 = length
  buffer : r.2.buffer = s.buffer
  disk : r.2.disk = overlay s.disk offset bytes fun i => s.buffer (done + i)

theorem ReadsBytes.after {offset done k bytes : Nat} {s s' : NvmeIo} {r : U64 × NvmeIo}
    (hdisk : s'.disk = s.disk)
    (hbuffer : s'.buffer = overlay s.buffer done k fun i => s.disk (offset + i))
    (h : ReadsBytes length (offset + k) (done + k) bytes s' r) :
    ReadsBytes length offset done (k + bytes) s r := by
  refine ⟨h.result, h.disk.trans hdisk, ?_⟩
  rw [h.buffer, hbuffer, hdisk, ← overlay_append]
  simp only [Nat.add_assoc]

theorem WritesBytes.after {offset done k bytes : Nat} {s s' : NvmeIo} {r : U64 × NvmeIo}
    (hbuffer : s'.buffer = s.buffer)
    (hdisk : s'.disk = overlay s.disk offset k fun i => s.buffer (done + i))
    (h : WritesBytes length (offset + k) (done + k) bytes s' r) :
    WritesBytes length offset done (k + bytes) s r := by
  refine ⟨h.result, h.buffer.trans hbuffer, ?_⟩
  rw [h.disk, hdisk, hbuffer, ← overlay_append]
  simp only [Nat.add_assoc]

theorem WholePages.nvmeReadFrom_reads (h : dev.WholePages) (phys : U64) {m : Nat}
    (commandId : Nat → U16) {s : NvmeIo} (hm : length.toNat - done.toNat = m)
    (hd : done.toNat ≤ length.toNat) (ho : offset.toNat + m ≤ dev.capacity) :
    ReadsBytes length offset.toNat done.toNat m s
      (dev.nvmeReadFrom commandId phys length offset done s) := by
  induction m using Nat.strongRecOn generalizing commandId offset done s with
  | _ m ih =>
    by_cases hlt : done < length
    · have hlt' : done.toNat < length.toNat := hlt
      obtain ⟨k, hk⟩ := h.pass (hm.symm ▸ ho) hlt
      have hpos := hk.pos
      have hle := hk.le
      have hoffset := hk.nextOffset
      have hdone := hk.nextDone
      have hin : offset.toNat < dev.capacity := by omega
      have hdisk : (dev.nvmeReadpage (commandId 0) phys (dev.lbaOf offset) s).disk = s.disk := by
        rw [h.nvmeReadpage_eq hin]
      have hsplit : m = k + (m - k) := by omega
      rw [h.nvmeReadFrom_pass hin hlt hk, hsplit]
      apply ReadsBytes.after
      case h =>
        rw [← hoffset, ← hdone]
        exact ih (m - k) (by omega) _ (by omega) (by omega) (by omega)
      case hdisk => exact hdisk
      case hbuffer => rfl
    · obtain rfl := eq_of_not_lt hd hlt
      obtain rfl : m = 0 := by omega
      rw [nvmeReadFrom, if_neg hlt]
      exact ⟨rfl, rfl, (overlay_zero _ _ _).symm⟩

theorem WholePages.nvmeWriteFrom_writes (h : dev.WholePages) (phys : U64) {m : Nat}
    (commandId : Nat → U16) {s : NvmeIo} (hm : length.toNat - done.toNat = m)
    (hd : done.toNat ≤ length.toNat) (ho : offset.toNat + m ≤ dev.capacity) :
    WritesBytes length offset.toNat done.toNat m s
      (dev.nvmeWriteFrom commandId phys length offset done s) := by
  induction m using Nat.strongRecOn generalizing commandId offset done s with
  | _ m ih =>
    by_cases hlt : done < length
    · have hlt' : done.toNat < length.toNat := hlt
      obtain ⟨k, hk⟩ := h.pass (hm.symm ▸ ho) hlt
      have hpos := hk.pos
      have hle := hk.le
      have hoffset := hk.nextOffset
      have hdone := hk.nextDone
      have hsplit : m = k + (m - k) := by omega
      obtain ⟨tempPage, hrest⟩ := h.nvmeWriteFrom_pass (by omega) hlt hk commandId phys s
      rw [hrest, hsplit]
      apply WritesBytes.after
      case h =>
        rw [← hoffset, ← hdone]
        exact ih (m - k) (by omega) _ (by omega) (by omega) (by omega)
      case hdisk => rfl
      case hbuffer => rfl
    · obtain rfl := eq_of_not_lt hd hlt
      obtain rfl : m = 0 := by omega
      rw [nvmeWriteFrom, if_neg hlt]
      exact ⟨rfl, rfl, (overlay_zero _ _ _).symm⟩

theorem WholePages.bytesLeft_eq (h : dev.WholePages) (ho : offset.toNat ≤ dev.capacity) :
    (dev.bytesLeft offset).toNat = dev.capacity - offset.toNat := by
  have hcapacity := h.capacity_le
  have hbytes : (dev.lbaCount <<< dev.lbadsExponent.toNat - offset).toNat =
      dev.capacity - offset.toNat := by
    have hshift : (dev.lbaCount <<< dev.lbadsExponent.toNat).toNat = dev.capacity := by
      rw [BitVec.toNat_shiftLeft, Nat.shiftLeft_eq, ← capacity]
      exact Nat.mod_eq_of_lt (by omega)
    rw [BitVec.toNat_sub_of_le (by rw [BitVec.le_def, hshift]; exact ho), hshift]
  dsimp only [bytesLeft]
  rw [if_neg ?_, hbytes]
  rw [BitVec.toInt_eq_toNat_cond, hbytes, if_pos (by omega)]
  omega

theorem WholePages.readLength_eq (h : dev.WholePages) (ho : offset.toNat ≤ dev.capacity)
    (hl : length.toNat < 2 ^ 63) :
    (dev.readLength offset length).toNat = min length.toNat (dev.capacity - offset.toNat) := by
  have hcapacity := h.capacity_le
  have hleft := h.bytesLeft_eq ho
  have hsigned : (dev.bytesLeft offset).toInt = (dev.capacity - offset.toNat : Nat) := by
    rw [BitVec.toInt_eq_toNat_cond, if_pos (by omega), hleft]
  have hlength : length.toInt = length.toNat := by
    rw [BitVec.toInt_eq_toNat_cond, if_pos (by omega)]
  rw [readLength, hsigned, hlength]
  split
  · omega
  · omega

theorem WholePages.writeLength_eq (h : dev.WholePages) (ho : offset.toNat ≤ dev.capacity) :
    (dev.writeLength offset length).toNat = min length.toNat (dev.capacity - offset.toNat) := by
  have hleft := h.bytesLeft_eq ho
  rw [writeLength]
  split
  · next hlt =>
    rw [gt_iff_lt, BitVec.lt_def] at hlt
    omega
  · next hlt =>
    rw [gt_iff_lt, BitVec.lt_def] at hlt
    omega

end NvmeDevice

/-- `nvme_write` splices the data into the namespace, `nvme_read` delivers a stretch of it,
and both return how much of the range lies in the namespace. -/
theorem nvme_bytes (dev : NvmeDevice) (h : dev.WholePages) (commandId : Nat → U16)
    (tempPagePhys offset length : U64) (ho : offset.toNat ≤ dev.capacity)
    (hl : length.toNat < 2 ^ 63) (s : NvmeIo) :
    let n := min length.toNat (dev.capacity - offset.toNat)
    let w := dev.nvmeWriteBytes commandId tempPagePhys offset length s
    let r := dev.nvmeReadBytes commandId tempPagePhys offset length s
    (w.1.toNat = n ∧
      slice w.2.disk 0 dev.capacity = slice s.disk 0 offset.toNat ++ slice s.buffer 0 n ++
        slice s.disk (offset.toNat + n) (dev.capacity - (offset.toNat + n)) ∧
      (∀ i, dev.capacity ≤ i → w.2.disk i = s.disk i) ∧ w.2.buffer = s.buffer) ∧
    (r.1.toNat = n ∧ slice r.2.buffer 0 n = slice s.disk offset.toNat n ∧
      (∀ i, n ≤ i → r.2.buffer i = s.buffer i) ∧ r.2.disk = s.disk) ∧
    ∀ buffer tempPage, slice (dev.nvmeReadBytes commandId tempPagePhys offset length
      ⟨w.2.disk, tempPage, buffer⟩).2.buffer 0 n = slice s.buffer 0 n := by
  intro n w r
  have hw : NvmeDevice.WritesBytes (dev.writeLength offset length) offset.toNat 0 n s w := by
    have hlength : (dev.writeLength offset length).toNat - (0 : U64).toNat = n :=
      h.writeLength_eq ho
    have hin : offset.toNat + n ≤ dev.capacity := by omega
    exact h.nvmeWriteFrom_writes tempPagePhys commandId hlength (Nat.zero_le _) hin
  have hr : ∀ s, NvmeDevice.ReadsBytes (dev.readLength offset length) offset.toNat 0 n s
      (dev.nvmeReadBytes commandId tempPagePhys offset length s) := by
    intro s
    have hlength : (dev.readLength offset length).toNat - (0 : U64).toNat = n :=
      h.readLength_eq ho hl
    have hin : offset.toNat + n ≤ dev.capacity := by omega
    exact h.nvmeReadFrom_reads tempPagePhys commandId hlength (Nat.zero_le _) hin
  have hdisk : w.2.disk = overlay s.disk offset.toNat n s.buffer := by
    rw [hw.disk]
    simp only [Nat.zero_add]
  refine ⟨⟨?_, ?_, ?_, hw.buffer⟩, ⟨?_, ?_, ?_, (hr s).disk⟩, ?_⟩
  · rw [hw.result, h.writeLength_eq ho]
  · have hend : max dev.capacity (offset.toNat + n) = dev.capacity := by omega
    have hsplice := slice_overlay s.disk s.buffer offset.toNat n dev.capacity
    rw [hend] at hsplice
    rw [hdisk, hsplice]
  · intro i hi
    rw [hdisk]
    exact overlay_of_ge (by omega)
  · rw [(hr s).result, h.readLength_eq ho hl]
  · rw [(hr s).buffer, slice_overlay_self, slice_shift]
  · intro i hi
    rw [(hr s).buffer]
    exact overlay_of_ge (by omega)
  · intro buffer tempPage
    rw [(hr ⟨w.2.disk, tempPage, buffer⟩).buffer, slice_overlay_self, slice_shift]
    dsimp only
    rw [hdisk, slice_overlay_self]

theorem nvme_bytes_twoPages :
    let dev : NvmeDevice := ⟨9, 16⟩
    let s : NvmeIo := ⟨fun _ => 0, fun _ => 7, fun i => BitVec.ofNat 8 i⟩
    (dev.nvmeWriteBytes (fun _ => 0) 0x5000 100 9000 s).1.toNat = 8092 ∧
      (dev.nvmeReadBytes (fun _ => 0) 0x5000 100 9000 s).1.toNat = 8092 := by
  intro dev s
  have hblocks : dev.lbaCount.toNat ≤ 2 ^ 32 := Nat.le_of_ble_eq_true rfl
  have hpages : dev.WholePages := ⟨by decide, by decide, hblocks⟩
  have h := nvme_bytes dev hpages (fun _ => 0) 0x5000 100 9000 (by decide) (by decide) s
  have hn : min (9000 : U64).toNat (dev.capacity - (100 : U64).toNat) = 8092 := by decide
  exact ⟨h.1.1.trans hn, h.2.1.1.trans hn⟩

end Persistos
