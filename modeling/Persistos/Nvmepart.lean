import Persistos.Nvme

/-! Reading and writing a partition. The file offset is any number that LSEEK
can set, so the length left in the partition can wrap below zero. -/

namespace Persistos

structure NvmepartDevice where
  nvmeDevice : NvmeDevice
  firstLba : U64
  lastLba : U64

/-- The offset and the length that `nvmepart_read` and `nvmepart_write` hand on. -/
def nvmepartRange (partition : NvmepartDevice) (offset length : U64) : U64 × U64 :=
  let e := partition.nvmeDevice.lbadsExponent.toNat
  let nvmeDeviceOffset := offset + partition.firstLba <<< e
  let leftLength := (partition.lastLba + 1) <<< e - nvmeDeviceOffset
  (nvmeDeviceOffset, if length > leftLength then leftLength else length)

def nvmepartRead (partition : NvmepartDevice) (offset length : U64) : NvmeTransfer :=
  let range := nvmepartRange partition offset length
  nvmeRead partition.nvmeDevice range.1 range.2

def nvmepartWrite (partition : NvmepartDevice) (offset length : U64) : NvmeTransfer :=
  let range := nvmepartRange partition offset length
  nvmeWrite partition.nvmeDevice range.1 range.2

namespace NvmepartDevice

variable (p : NvmepartDevice)

def firstByte : Nat := p.firstLba.toNat * 2 ^ p.nvmeDevice.lbadsExponent.toNat

def endByte : Nat := (p.lastLba.toNat + 1) * 2 ^ p.nvmeDevice.lbadsExponent.toNat

def Holds (x : U64) : Prop := p.firstByte ≤ x.toNat ∧ x.toNat < p.endByte

instance (x : U64) : Decidable (p.Holds x) := inferInstanceAs (Decidable (_ ∧ _))

def HoldsRange (offset length : U64) : Prop :=
  ∀ i < length.toNat, p.Holds (offset + BitVec.ofNat 64 i)

/-- The transfer is empty, or starts exactly at the end of the partition, or
starts inside it without running past the last address of the namespace. -/
def Within (offset length : U64) : Prop :=
  length = 0 ∨ (p.firstByte + offset.toNat) % 2 ^ 64 = p.endByte % 2 ^ 64 ∨
    p.firstByte + offset.toNat < 2 ^ 64 ∧ p.firstByte + offset.toNat < p.endByte ∧
      (p.firstByte = 0 ∨ p.firstByte + offset.toNat + length.toNat ≤ 2 ^ 64 ∨
        p.endByte % 2 ^ 64 = 0 ∨ p.firstByte + offset.toNat < p.endByte % 2 ^ 64)

theorem range_fst_toNat (offset length : U64) :
    (nvmepartRange p offset length).1.toNat = (p.firstByte + offset.toNat) % 2 ^ 64 := by
  rw [nvmepartRange, BitVec.toNat_add, shiftLeft_toNat, firstByte]
  omega

theorem range_snd_toNat (offset length : U64) :
    (nvmepartRange p offset length).2.toNat =
      min length.toNat ((p.endByte + 2 ^ 64 - (p.firstByte + offset.toNat) % 2 ^ 64) % 2 ^ 64) := by
  have hfst := p.range_fst_toNat offset length
  have hlast : ((p.lastLba + 1) <<< p.nvmeDevice.lbadsExponent.toNat).toNat =
      p.endByte % 2 ^ 64 := by
    rw [shiftLeft_toNat, BitVec.toNat_add, endByte, Nat.mod_mul_mod]
    rfl
  have hleft := BitVec.toNat_sub ((p.lastLba + 1) <<< p.nvmeDevice.lbadsExponent.toNat)
    (nvmepartRange p offset length).1
  rw [hlast, hfst] at hleft
  dsimp only [nvmepartRange] at hleft ⊢
  split
  · next hlt =>
    rw [gt_iff_lt, BitVec.lt_def] at hlt
    omega
  · next hlt =>
    rw [gt_iff_lt, BitVec.lt_def] at hlt
    omega

theorem holdsRange_handed_iff (offset length : U64) :
    p.HoldsRange (nvmepartRange p offset length).1 (nvmepartRange p offset length).2 ↔
      p.Within offset length := by
  have hfst := p.range_fst_toNat offset length
  have hsnd := p.range_snd_toNat offset length
  have hlen : length = 0 ↔ length.toNat = 0 := by
    rw [← BitVec.toNat_inj]
    rfl
  simp only [HoldsRange, Holds, Within, BitVec.toNat_add, BitVec.toNat_ofNat, hfst, hsnd, hlen]
  have hoff := offset.isLt
  have hl := length.isLt
  generalize p.firstByte = first, p.endByte = last, offset.toNat = o, length.toNat = n at *
  clear hfst hsnd hlen
  constructor
  · intro h
    by_cases hz : min n ((last + 2 ^ 64 - (first + o) % 2 ^ 64) % 2 ^ 64) = 0
    · omega
    · have h₀ := h 0 (by omega)
      have h₁ := h (2 ^ 64 - (first + o))
      omega
  · intro h i hi
    omega

end NvmepartDevice

structure PartitionIsolated (p : NvmepartDevice) (offset length : U64) : Prop where
  handed : p.HoldsRange (nvmepartRange p offset length).1 (nvmepartRange p offset length).2
  read : ∀ c ∈ (nvmepartRead p offset length).chunks, p.HoldsRange c.offset c.length
  write : ∀ c ∈ (nvmepartWrite p offset length).chunks, p.HoldsRange c.offset c.length

theorem NvmepartDevice.HoldsRange.chunks {p : NvmepartDevice} {offset length length' : U64}
    (h : p.HoldsRange offset length) (hle : length'.toNat ≤ length.toNat) {c : NvmeChunk}
    (hc : c ∈ p.nvmeDevice.chunks length' offset 0) : p.HoldsRange c.offset c.length := by
  intro i hi
  obtain ⟨j, hj, he⟩ := p.nvmeDevice.chunks_bytes hc hi
  rw [he]
  exact h j (by omega)

/-- A transfer stays inside the partition exactly when its file offset does. -/
theorem nvmepart_isolated_iff (p : NvmepartDevice) (offset length : U64) :
    PartitionIsolated p offset length ↔ p.Within offset length := by
  rw [← p.holdsRange_handed_iff offset length]
  constructor
  · exact fun h => h.handed
  · intro h
    refine ⟨h, ?_, ?_⟩
    · exact fun c hc => h.chunks (p.nvmeDevice.readLength_le _ _) hc
    · exact fun c hc => h.chunks (p.nvmeDevice.writeLength_le _ _) hc

/-- Past the end of a partition of ten blocks, the length left in it wraps and
the next partition is handed on. -/
theorem nvmepart_reads_next_partition : ¬ ∀ (p : NvmepartDevice), p.firstLba ≤ p.lastLba →
    ∀ offset length, PartitionIsolated p offset length := by
  intro h
  have hh := h ⟨⟨9, 1000⟩, 10, 19⟩ (by decide) 5632 512
  have he := hh.handed 0 (by decide)
  revert he
  decide

end Persistos
