import Persistos.NvmeBytes

/-! The blocks that a page command names, and the length that `nvme_read` and `nvme_write`
leave of a request. -/

namespace Persistos

open Theory

def NvmeChunk.Moves (c : NvmeChunk) (b : U64) : Prop :=
  ∃ i < c.length.toNat, b = c.offset + BitVec.ofNat 64 i

theorem NvmeChunk.moves_first {c : NvmeChunk} (h : 0 < c.length.toNat) : c.Moves c.offset :=
  ⟨0, h, (BitVec.add_zero c.offset).symm⟩

def NvmeTransfer.moved (t : NvmeTransfer) : Nat := (t.chunks.map fun c => c.length.toNat).sum

namespace NvmeSqEntry

/-- The byte is in one of the blocks of the command. -/
def Covers (dev : NvmeDevice) (e : NvmeSqEntry) (b : Nat) : Prop :=
  e.slba * 2 ^ dev.lbadsExponent.toNat ≤ b ∧ b < (e.slba + e.blocks) * 2 ^ dev.lbadsExponent.toNat

def Inside (dev : NvmeDevice) (e : NvmeSqEntry) : Prop := e.slba + e.blocks ≤ dev.lbaCount.toNat

end NvmeSqEntry

namespace NvmeDevice

/-- Every command for the page that a byte is moved with covers it, and the controller does
not have to reject it. -/
def ByteAddressable (dev : NvmeDevice) (b : U64) : Prop :=
  ∀ offset length,
    ∀ c ∈ (nvmeRead dev offset length).chunks ++ (nvmeWrite dev offset length).chunks,
    c.Moves b → ∀ p : PageCommand, p.lba = c.lba →
      (p.entry dev.lbadsExponent).Covers dev b.toNat ∧ (p.entry dev.lbadsExponent).Inside dev

/-- How much of a request lies in the namespace. -/
def clampedLength (dev : NvmeDevice) (offset length : U64) : Nat :=
  if offset.toNat < dev.capacity then min length.toNat (dev.capacity - offset.toNat) else 0

/-- Both functions move what lies in the namespace, and return how much that is. -/
structure MovesClamped (dev : NvmeDevice) (offset length : U64) : Prop where
  read : ∀ commandId phys s, (dev.nvmeReadBytes commandId phys offset length s).1.toNat =
    dev.clampedLength offset length
  readChunks : (nvmeRead dev offset length).moved = dev.clampedLength offset length
  write : ∀ commandId phys s, (dev.nvmeWriteBytes commandId phys offset length s).1.toNat =
    dev.clampedLength offset length
  writeChunks : (nvmeWrite dev offset length).moved = dev.clampedLength offset length

variable (dev : NvmeDevice) {offset length done b : U64} {c : NvmeChunk}

theorem lbaOf_congr (h : offset.toNat / 4096 = b.toNat / 4096) :
    dev.lbaOf offset = dev.lbaOf b := by
  have hpage : offset >>> 12 = b >>> 12 := by
    apply BitVec.eq_of_toNat_eq
    rw [shiftRight_toNat, shiftRight_toNat]
    exact h
  rw [lbaOf, lbaOf, hpage]

/-- A chunk stays inside the page that its command is for. -/
theorem chunks_page (hc : c ∈ dev.chunks length offset done) :
    c.lba = dev.lbaOf c.offset ∧ c.offset.toNat % 4096 + c.length.toNat ≤ 4096 := by
  induction offset, done using chunks.induct length with
  | case1 offset done hlt n ih =>
    rw [chunks, if_pos hlt] at hc
    rcases List.mem_cons.mp hc with rfl | hc
    · have hn := chunkLength_toNat offset (length - done)
      refine ⟨rfl, ?_⟩
      dsimp only
      omega
    · exact ih hc
  | case2 offset done hlt =>
    rw [chunks, if_neg hlt] at hc
    cases hc

theorem Moves.lba (hc : c ∈ dev.chunks length offset done) (hb : c.Moves b) :
    c.lba = dev.lbaOf b := by
  obtain ⟨hlba, hpage⟩ := dev.chunks_page hc
  obtain ⟨i, hi, rfl⟩ := hb
  rw [hlba]
  apply dev.lbaOf_congr
  have hlt := c.offset.isLt
  have hsum : (c.offset + BitVec.ofNat 64 i).toNat = c.offset.toNat + i := by
    rw [BitVec.toNat_add, BitVec.toNat_ofNat]
    omega
  rw [hsum]
  omega

theorem capacity_lt (he : dev.lbadsExponent.toNat ≤ 12) (hcount : dev.lbaCount.toNat < 2 ^ 48) :
    dev.capacity < 2 ^ 60 := by
  have hpow : 2 ^ dev.lbadsExponent.toNat ≤ 2 ^ 12 := Nat.pow_le_pow_right (by decide) he
  calc dev.capacity ≤ dev.lbaCount.toNat * 2 ^ 12 := Nat.mul_le_mul_left _ hpow
    _ < 2 ^ 48 * 2 ^ 12 := Nat.mul_lt_mul_of_pos_right hcount (by decide)
    _ = 2 ^ 60 := rfl

/-- What the signed subtraction of the clamps leaves. -/
theorem bytesLeft_toNat (hcapacity : dev.capacity < 2 ^ 62) (offset : U64) :
    (dev.bytesLeft offset).toNat =
      if offset.toNat ≤ dev.capacity then dev.capacity - offset.toNat
      else if offset.toNat ≤ dev.capacity + 2 ^ 63 then 0
      else dev.capacity + 2 ^ 64 - offset.toNat := by
  have hoffset := offset.isLt
  have hshift : (dev.lbaCount <<< dev.lbadsExponent.toNat).toNat = dev.capacity := by
    rw [shiftLeft_toNat, ← capacity]
    exact Nat.mod_eq_of_lt (by omega)
  have hsub : (dev.lbaCount <<< dev.lbadsExponent.toNat - offset).toNat =
      (2 ^ 64 - offset.toNat + dev.capacity) % 2 ^ 64 := by
    rw [BitVec.toNat_sub, hshift]
  have hsign : (dev.lbaCount <<< dev.lbadsExponent.toNat - offset).toInt < 0 ↔
      2 ^ 63 ≤ (2 ^ 64 - offset.toNat + dev.capacity) % 2 ^ 64 := by
    rw [BitVec.toInt_eq_toNat_cond, hsub]
    split <;> omega
  have hzero : (0 : U64).toNat = 0 := rfl
  dsimp only [bytesLeft]
  split
  · next hneg =>
    have hbig := hsign.mp hneg
    rw [hzero]
    split_ifs <;> omega
  · next hpos =>
    have hsmall := mt hsign.mpr hpos
    rw [hsub]
    split_ifs <;> omega

theorem readLength_toNat (offset length : U64) :
    (dev.readLength offset length).toNat =
      if length.toNat < 2 ^ 63 then min length.toNat (dev.bytesLeft offset).toNat
      else length.toNat := by
  have hleft := dev.bytesLeft_lt offset
  have hsigned : (dev.bytesLeft offset).toInt = (dev.bytesLeft offset).toNat := by
    rw [BitVec.toInt_eq_toNat_cond, if_pos (by omega)]
  rw [readLength, hsigned]
  by_cases hl : length.toNat < 2 ^ 63
  · have hlength : length.toInt = length.toNat := by
      rw [BitVec.toInt_eq_toNat_cond, if_pos (by omega)]
    rw [if_pos hl, hlength]
    split <;> omega
  · have hlength : length.toInt = length.toNat - 2 ^ 64 := by
      rw [BitVec.toInt_eq_toNat_cond, if_neg (by omega)]
      rfl
    have hlt := length.isLt
    rw [if_neg hl, if_neg (by rw [hlength]; omega)]

theorem writeLength_toNat (offset length : U64) :
    (dev.writeLength offset length).toNat = min length.toNat (dev.bytesLeft offset).toNat := by
  rw [writeLength]
  split
  · next hlt =>
    rw [gt_iff_lt, BitVec.lt_def] at hlt
    omega
  · next hlt =>
    rw [gt_iff_lt, BitVec.lt_def] at hlt
    omega

theorem readLength_clamped_iff (hcapacity : dev.capacity < 2 ^ 62) (offset length : U64) :
    (dev.readLength offset length).toNat = dev.clampedLength offset length ↔
      length.toNat = 0 ∨ length.toNat < 2 ^ 63 ∧ offset.toNat ≤ dev.capacity + 2 ^ 63 := by
  have hoffset := offset.isLt
  rw [dev.readLength_toNat, dev.bytesLeft_toNat hcapacity, clampedLength]
  split_ifs <;> omega

theorem writeLength_clamped_iff (hcapacity : dev.capacity < 2 ^ 62) (offset length : U64) :
    (dev.writeLength offset length).toNat = dev.clampedLength offset length ↔
      length.toNat = 0 ∨ offset.toNat ≤ dev.capacity + 2 ^ 63 := by
  have hoffset := offset.isLt
  rw [dev.writeLength_toNat, dev.bytesLeft_toNat hcapacity, clampedLength]
  split_ifs <;> omega

theorem chunks_moved (length offset done : U64) :
    ((dev.chunks length offset done).map fun c => c.length.toNat).sum =
      length.toNat - done.toNat := by
  induction offset, done using chunks.induct length with
  | case1 offset done hlt n ih =>
    have hn := chunkLength_le offset (length - done)
    rw [chunks, if_pos hlt, List.map_cons, List.sum_cons, ih]
    dsimp only [n]
    bv_omega
  | case2 offset done hlt =>
    rw [chunks, if_neg hlt, List.map_nil, List.sum_nil]
    bv_omega

theorem nvmeRead_moved (offset length : U64) :
    (nvmeRead dev offset length).moved = (dev.readLength offset length).toNat :=
  dev.chunks_moved _ _ _

theorem nvmeWrite_moved (offset length : U64) :
    (nvmeWrite dev offset length).moved = (dev.writeLength offset length).toNat :=
  dev.chunks_moved _ _ _

theorem done_next (offset : U64) (hlt : done < length) :
    (done + chunkLength offset (length - done)).toNat ≤ length.toNat ∧
      length.toNat - (done + chunkLength offset (length - done)).toNat <
        length.toNat - done.toNat := by
  have hn := chunkLength_toNat offset (length - done)
  bv_omega

/-- Either loop returns the length that it was given. -/
theorem nvmeReadFrom_fst (commandId : Nat → U16) (phys : U64) (s : NvmeIo)
    (hd : done.toNat ≤ length.toNat) :
    (dev.nvmeReadFrom commandId phys length offset done s).1 = length := by
  induction hm : length.toNat - done.toNat using Nat.strongRecOn generalizing
    commandId offset done s with
  | ind m ih =>
    rw [nvmeReadFrom]
    split
    · next hlt =>
      obtain ⟨hnext, hless⟩ := done_next offset hlt
      exact ih _ (hm ▸ hless) _ _ hnext rfl
    · next hlt => exact eq_of_not_lt hd hlt

theorem nvmeWriteFrom_fst (commandId : Nat → U16) (phys : U64) (s : NvmeIo)
    (hd : done.toNat ≤ length.toNat) :
    (dev.nvmeWriteFrom commandId phys length offset done s).1 = length := by
  induction hm : length.toNat - done.toNat using Nat.strongRecOn generalizing
    commandId offset done s with
  | ind m ih =>
    rw [nvmeWriteFrom]
    split
    · next hlt =>
      obtain ⟨hnext, hless⟩ := done_next offset hlt
      exact ih _ (hm ▸ hless) _ _ hnext rfl
    · next hlt => exact eq_of_not_lt hd hlt

theorem nvmeReadBytes_fst (commandId : Nat → U16) (phys offset length : U64) (s : NvmeIo) :
    (dev.nvmeReadBytes commandId phys offset length s).1 = dev.readLength offset length :=
  dev.nvmeReadFrom_fst commandId phys s (Nat.zero_le _)

theorem nvmeWriteBytes_fst (commandId : Nat → U16) (phys offset length : U64) (s : NvmeIo) :
    (dev.nvmeWriteBytes commandId phys offset length s).1 = dev.writeLength offset length :=
  dev.nvmeWriteFrom_fst commandId phys s (Nat.zero_le _)

/-- A read of one byte issues a command for it. -/
theorem moves_one (hcapacity : dev.capacity < 2 ^ 60) (hb : b.toNat < dev.capacity) :
    ∃ c ∈ (nvmeRead dev b 1).chunks, c.Moves b := by
  have hone : (1 : U64).toNat = 1 := rfl
  have hzero : (0 : U64).toNat = 0 := rfl
  have hlength : dev.readLength b 1 = 1 := by
    apply BitVec.eq_of_toNat_eq
    have hleft := dev.bytesLeft_toNat (Nat.lt_trans hcapacity (by decide)) b
    rw [if_pos (Nat.le_of_lt hb)] at hleft
    rw [dev.readLength_toNat, hleft, hone, if_pos (by decide)]
    omega
  have hlt : (0 : U64) < 1 := by decide
  have hleft : (1 - 0 : U64).toNat = 1 := rfl
  have hn := chunkLength_toNat b (1 - 0)
  rw [hleft] at hn
  generalize hchunk : chunkLength b (1 - 0) = n at hn
  have hpos : 0 < n.toNat := by omega
  refine ⟨⟨b, dev.lbaOf b, b % 4096, n⟩, ?_, NvmeChunk.moves_first hpos⟩
  rw [nvmeRead, hlength, chunks, if_pos hlt]
  dsimp only
  rw [hchunk]
  exact List.mem_cons_self

/-- The page that a byte lies in has a number that its blocks can be addressed with, and ends
inside the namespace. -/
def PageInside (b : U64) : Prop :=
  b.toNat / 4096 < 2 ^ (20 + dev.lbadsExponent.toNat) ∧
    b.toNat / 4096 * 4096 + 4096 ≤ dev.capacity

theorem command_iff (he : dev.lbadsExponent.toNat ≤ 12) {p : PageCommand}
    (hp : p.lba = dev.lbaOf b) :
    (p.entry dev.lbadsExponent).Covers dev b.toNat ∧ (p.entry dev.lbadsExponent).Inside dev ↔
      dev.PageInside b := by
  have hstart : p.lba.toNat * 2 ^ dev.lbadsExponent.toNat =
      4096 * (b.toNat / 4096 % 2 ^ (20 + dev.lbadsExponent.toNat)) := by
    rw [hp, dev.lbaOf_mul he]
  have hinside : (p.entry dev.lbadsExponent).Inside dev ↔
      4096 * (b.toNat / 4096 % 2 ^ (20 + dev.lbadsExponent.toNat)) + 4096 ≤ dev.capacity := by
    rw [NvmeSqEntry.Inside, ← Nat.mul_le_mul_right_iff (Nat.two_pow_pos dev.lbadsExponent.toNat),
      Nat.add_mul, blocks_mul he, slba_eq, hstart, capacity]
  rw [hinside, NvmeSqEntry.Covers, Nat.add_mul, blocks_mul he, slba_eq, hstart, PageInside]
  have hpage := Nat.mod_le (b.toNat / 4096) (2 ^ (20 + dev.lbadsExponent.toNat))
  have hlt := Nat.mod_lt (b.toNat / 4096) (Nat.two_pow_pos (20 + dev.lbadsExponent.toNat))
  constructor
  · rintro ⟨hcovers, hend⟩
    omega
  · rintro ⟨hnumber, hend⟩
    rw [Nat.mod_eq_of_lt hnumber]
    omega

theorem byteAddressable_iff (hcapacity : dev.capacity < 2 ^ 60)
    (he : dev.lbadsExponent.toNat ≤ 12) (hb : b.toNat < dev.capacity) :
    dev.ByteAddressable b ↔ dev.PageInside b := by
  constructor
  · intro h
    obtain ⟨c, hc, hmoves⟩ := dev.moves_one hcapacity hb
    have hlba : (⟨2, 0, 0, c.lba⟩ : PageCommand).lba = dev.lbaOf b := Moves.lba dev hc hmoves
    exact (dev.command_iff he hlba).mp (h b 1 c (List.mem_append_left _ hc) hmoves _ rfl)
  · intro h offset length c hc hmoves p hp
    have hlba : p.lba = dev.lbaOf b := by
      rw [hp]
      rcases List.mem_append.mp hc with hc | hc
      · exact Moves.lba dev hc hmoves
      · exact Moves.lba dev hc hmoves
    exact (dev.command_iff he hlba).mpr h

end NvmeDevice

/-- A byte can be moved exactly when its whole page lies in the namespace and begins with a
block whose number has 32 bits. -/
theorem nvme_byte_addressable_iff (dev : NvmeDevice)
    (he : 9 ≤ dev.lbadsExponent.toNat ∧ dev.lbadsExponent.toNat ≤ 12)
    (hcount : dev.lbaCount.toNat < 2 ^ 48) (b : U64) (hb : b.toNat < dev.capacity) :
    dev.ByteAddressable b ↔
      b.toNat / 4096 * 2 ^ (12 - dev.lbadsExponent.toNat) < 2 ^ 32 ∧
        b.toNat / 4096 * 4096 + 4096 ≤ dev.capacity := by
  have hpow : 2 ^ 32 = 2 ^ (20 + dev.lbadsExponent.toNat) * 2 ^ (12 - dev.lbadsExponent.toNat) := by
    rw [← Nat.pow_add]
    congr 1
    omega
  rw [dev.byteAddressable_iff (dev.capacity_lt he.2 hcount) he.2 hb, NvmeDevice.PageInside, hpow,
    Nat.mul_lt_mul_right (Nat.two_pow_pos _)]

theorem nvme_first_byte_addressable : (⟨9, 16⟩ : NvmeDevice).ByteAddressable 100 := by
  have h := nvme_byte_addressable_iff ⟨9, 16⟩ (by decide) (by decide) 100 (by decide)
  exact h.mpr (by decide)

/-- The ninth block of a namespace of nine is read with seven blocks behind it. -/
theorem nvme_last_block_rejected : ¬ ∀ (dev : NvmeDevice),
    9 ≤ dev.lbadsExponent.toNat → dev.lbadsExponent.toNat ≤ 12 → dev.lbaCount.toNat < 2 ^ 48 →
      ∀ b : U64, b.toNat < dev.capacity → dev.ByteAddressable b := by
  intro h
  have haddressable := h ⟨9, 9⟩ (by decide) (by decide) (by decide) 4200 (by decide)
  rw [NvmeDevice.byteAddressable_iff _ (by decide) (by decide) (by decide),
    NvmeDevice.PageInside] at haddressable
  revert haddressable
  decide

/-- The length of a request is cut to what lies in the namespace unless it is negative as a
signed number, or the offset is so far behind the end that the bytes left are not. -/
theorem nvme_clamp_iff (dev : NvmeDevice) (hcapacity : dev.capacity < 2 ^ 62)
    (offset length : U64) :
    dev.MovesClamped offset length ↔
      length = 0 ∨ length.toNat < 2 ^ 63 ∧ offset.toNat ≤ dev.capacity + 2 ^ 63 := by
  have hread := dev.readLength_clamped_iff hcapacity offset length
  have hwrite := dev.writeLength_clamped_iff hcapacity offset length
  have hzero : length = 0 ↔ length.toNat = 0 := by
    rw [← BitVec.toNat_inj]
    rfl
  rw [hzero]
  constructor
  · intro h
    exact hread.mp (dev.nvmeRead_moved offset length ▸ h.readChunks)
  · intro h
    have hr := hread.mpr h
    have hw := hwrite.mpr (h.imp_right And.right)
    refine ⟨?_, ?_, ?_, ?_⟩
    · intro commandId phys s
      rw [dev.nvmeReadBytes_fst]
      exact hr
    · rw [dev.nvmeRead_moved]
      exact hr
    · intro commandId phys s
      rw [dev.nvmeWriteBytes_fst]
      exact hw
    · rw [dev.nvmeWrite_moved]
      exact hw

theorem nvme_clamp_partial : (⟨9, 16⟩ : NvmeDevice).MovesClamped 8000 1000 := by
  have h := nvme_clamp_iff ⟨9, 16⟩ (by decide) 8000 1000
  exact h.mpr (by decide)

/-- A length of 2 ^ 63 is not cut by a read. -/
theorem nvme_negative_length : ¬ ∀ (dev : NvmeDevice), dev.capacity < 2 ^ 62 →
    ∀ offset length, dev.MovesClamped offset length := by
  intro h
  have hread := (h ⟨9, 16⟩ (by decide) 0 0x8000000000000000).readChunks
  rw [NvmeDevice.nvmeRead_moved] at hread
  revert hread
  decide

end Persistos
