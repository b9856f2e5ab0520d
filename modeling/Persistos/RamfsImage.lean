import Persistos.Word
import Persistos.Theory.Overlay

/-! What a RAM file is for: a sequence of bytes that can be read, overwritten
and cut. The bytes behind the size, up to the end of the last cluster, are
kept, and growing the file shows them again. -/

namespace Persistos

open Theory

structure Image where
  bytes : Nat → U8
  size : Nat

namespace Image

def empty : Image := ⟨fun _ => 0, 0⟩

def content (image : Image) : List U8 := slice image.bytes 0 image.size

@[simp] theorem content_length (image : Image) : image.content.length = image.size :=
  slice_length _ _ _

def clustersFor (size : Nat) : Nat := max 1 ((size + 127) / 128)

def setSize (image : Image) (size : Nat) : Image :=
  ⟨fun i => if i < 128 * clustersFor size then image.bytes i else 0, size⟩

/-- A write whose end wraps around copies nothing. -/
def write (image : Image) (offset : U64) (buffer : Nat → U8) (length : U64) : Image :=
  if length = 0 then image
  else
    let stop := (offset + length).toNat
    let grown := if image.size < stop then image.setSize stop else image
    { grown with bytes := overlay grown.bytes offset.toNat (stop - offset.toNat) buffer }

/-- The count and the new contents of the buffer. An offset between the end of
the bytes read and the end of their cluster makes the copied length wrap. -/
def read (image : Image) (offset : U64) (buffer : Nat → U8) (length : U64) :
    Except Crash (U64 × (Nat → U8)) :=
  let stop := min (offset + length).toNat image.size
  if offset.toNat ≤ stop then
    .ok (BitVec.ofNat 64 (stop - offset.toNat),
      overlay buffer 0 (stop - offset.toNat) fun i => image.bytes (offset.toNat + i))
  else if offset.toNat < (stop + 127) / 128 * 128 then .error .outOfBounds
  else .ok (0, buffer)

@[simp] theorem setSize_size (image : Image) (size : Nat) : (image.setSize size).size = size := rfl

theorem setSize_bytes_of_lt (image : Image) {size i : Nat} (h : i < size) :
    (image.setSize size).bytes i = image.bytes i :=
  if_pos (by rw [clustersFor]; omega)

theorem content_setSize_of_le (image : Image) {size : Nat} (h : size ≤ image.size) :
    (image.setSize size).content = image.content.take size := by
  rw [content, content, slice_take _ _ h]
  exact slice_congr fun i hi => image.setSize_bytes_of_lt (by simpa using hi)

theorem write_eq (image : Image) {offset : U64} (buffer : Nat → U8) {length : U64}
    (h : offset.toNat + length.toNat < 2 ^ 64) (hn : length ≠ 0) :
    (image.write offset buffer length).size = max image.size (offset.toNat + length.toNat) ∧
      ∀ i < max image.size (offset.toNat + length.toNat),
        (image.write offset buffer length).bytes i =
          overlay image.bytes offset.toNat length.toNat buffer i := by
  have hstop : (offset + length).toNat = offset.toNat + length.toNat := by bv_omega
  rw [write, if_neg hn, hstop]
  dsimp only
  rw [Nat.add_sub_cancel_left]
  split
  · next hlt =>
    rw [setSize_size]
    refine ⟨by omega, ?_⟩
    intro i hi
    dsimp only [overlay]
    rw [image.setSize_bytes_of_lt (by omega)]
  · exact ⟨by omega, fun i _ => rfl⟩

/-- Also behind the size, where the file shows the bytes that it kept. -/
theorem content_write_any {image : Image} {offset : U64} (buffer : Nat → U8) {length : U64}
    (hn : length ≠ 0) (h : offset.toNat + length.toNat < 2 ^ 64) :
    (image.write offset buffer length).content =
      slice image.bytes 0 offset.toNat ++ slice buffer 0 length.toNat ++
        image.content.drop (offset.toNat + length.toNat) := by
  obtain ⟨hsize, hbytes⟩ := image.write_eq buffer h hn
  rw [content, content, slice_drop, Nat.zero_add, hsize, ← slice_overlay image.bytes buffer]
  exact slice_congr fun i hi => by rw [Nat.zero_add, hbytes i hi]

/-- A write replaces the bytes at its offset and lengthens the file if it ends
behind it. -/
theorem content_write {image : Image} {offset : U64} (buffer : Nat → U8) {length : U64}
    (ho : offset.toNat ≤ image.size) (h : offset.toNat + length.toNat < 2 ^ 64) :
    (image.write offset buffer length).content =
      image.content.take offset.toNat ++ slice buffer 0 length.toNat ++
        image.content.drop (offset.toNat + length.toNat) := by
  by_cases hn : length = 0
  · subst hn
    rw [write, if_pos rfl]
    simp [slice]
  · rw [content_write_any buffer hn h, content, slice_take _ _ ho]

theorem write_size (image : Image) {offset : U64} (buffer : Nat → U8) {length : U64}
    (ho : offset.toNat ≤ image.size) (h : offset.toNat + length.toNat < 2 ^ 64) :
    (image.write offset buffer length).size = max image.size (offset.toNat + length.toNat) := by
  by_cases hn : length = 0
  · subst hn
    rw [write, if_pos rfl]
    exact (Nat.max_eq_left ho).symm
  · exact (image.write_eq buffer h hn).1

theorem read_write {image : Image} {offset : U64} (buffer : Nat → U8) {length : U64}
    (ho : offset.toNat ≤ image.size) (h : offset.toNat + length.toNat < 2 ^ 64)
    (target : Nat → U8) :
    ∃ target', (image.write offset buffer length).read offset target length =
        .ok (length, target') ∧
      slice target' 0 length.toNat = slice buffer 0 length.toNat := by
  have hsize := image.write_size buffer ho h
  have hstop : min (offset + length).toNat (image.write offset buffer length).size =
      offset.toNat + length.toNat := by
    rw [hsize]
    bv_omega
  have hcount : BitVec.ofNat 64 length.toNat = length := BitVec.ofNat_toNat ..
  rw [read, hstop, if_pos (Nat.le_add_right _ _), Nat.add_sub_cancel_left, hcount]
  refine ⟨_, rfl, ?_⟩
  rw [slice_overlay_self, slice_shift, ← slice_overlay_self image.bytes buffer offset.toNat]
  apply slice_congr
  intro i hi
  have hn : length ≠ 0 := by
    rintro rfl
    exact Nat.not_lt_zero i hi
  exact (image.write_eq buffer h hn).2 _ (by omega)

def readCount (image : Image) (offset length : Nat) : Nat :=
  if offset ≤ image.size then min length (image.size - offset) else 0

/-- A read gives the expected bytes unless it starts behind the size in the last cluster. -/
theorem read_eq_ok {image : Image} {offset : U64} {buffer : Nat → U8} {length : U64}
    (h : offset.toNat + length.toNat < 2 ^ 64)
    (ho : offset.toNat ≤ image.size ∨ (image.size + 127) / 128 * 128 ≤ offset.toNat) :
    image.read offset buffer length =
      .ok (BitVec.ofNat 64 (image.readCount offset.toNat length.toNat),
        overlay buffer 0 (image.readCount offset.toNat length.toNat)
          fun i => image.bytes (offset.toNat + i)) := by
  have hstop : (offset + length).toNat = offset.toNat + length.toNat := by bv_omega
  rw [read, readCount, hstop]
  by_cases hle : offset.toNat ≤ image.size
  · have hcount : min (offset.toNat + length.toNat) image.size - offset.toNat =
        min length.toNat (image.size - offset.toNat) := by omega
    rw [if_pos (by omega), if_pos hle, hcount]
  · rw [if_neg (by omega), if_neg hle, if_neg (by omega), overlay_zero]
    rfl

theorem read_eq_error {image : Image} {offset : U64} {buffer : Nat → U8} {length : U64}
    (hlo : image.size < offset.toNat) (hhi : offset.toNat < (image.size + 127) / 128 * 128)
    (h : offset.toNat + length.toNat < 2 ^ 64) :
    image.read offset buffer length = .error .outOfBounds := by
  have hstop : (offset + length).toNat = offset.toNat + length.toNat := by bv_omega
  rw [read, hstop, Nat.min_eq_right (by omega)]
  rw [if_neg (by omega), if_pos hhi]

end Image

end Persistos
