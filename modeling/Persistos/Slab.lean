import Persistos.Word
import Persistos.Theory.Bits

/-! The slab allocator. A page of slots starts with a header of 48 bytes, whose
four bitmap words have one bit for each slot, set when the slot is free. -/

namespace Persistos

open Theory

structure SlabPageHeader where
  address : U64
  freeBitmaps : Nat → U64

structure SlabAllocator where
  objectSize : U16
  objectsPerPage : U16
  slabPages : List SlabPageHeader

def slabHeaderSize : Nat := 48

def slabAvailablePagesize : Nat := 4096 - slabHeaderSize

/-- The initialiser `SLAB_OF`, followed by `slab_allocator_init`. -/
def slabOf (objectSize : U16) : SlabAllocator where
  objectSize := objectSize
  objectsPerPage := BitVec.ofNat 16 (slabAvailablePagesize / objectSize.toNat)
  slabPages := []

/-- Word and bit of the slots in the order of the nested loops over `i` and `j`. -/
def bitPositions : List (Nat × Nat) :=
  (List.range 4).flatMap fun i => (List.range 64).map fun j => (i, j)

namespace SlabPageHeader

def modifyBitmap (header : SlabPageHeader) (i : Nat) (f : U64 → U64) : SlabPageHeader :=
  { header with
    freeBitmaps := fun k => if k = i then f (header.freeBitmaps k) else header.freeBitmaps k }

/-- `free_bitmaps[i] ^= 1LL << j` -/
def flipBit (header : SlabPageHeader) (i j : Nat) : SlabPageHeader :=
  header.modifyBitmap i (· ^^^ (1#64 <<< j))

/-- `free_bitmaps[i] |= 1LL << j` -/
def setBit (header : SlabPageHeader) (i j : Nat) : SlabPageHeader :=
  header.modifyBitmap i (· ||| (1#64 <<< j))

def isFull (header : SlabPageHeader) : Bool :=
  header.freeBitmaps 0 == 0 && header.freeBitmaps 1 == 0 &&
    header.freeBitmaps 2 == 0 && header.freeBitmaps 3 == 0

def findFreeBit (header : SlabPageHeader) : Option (Nat × Nat) :=
  bitPositions.find? fun (i, j) => (header.freeBitmaps i >>> j) &&& 1 ≠ 0

end SlabPageHeader

def slotAddress (page : U64) (objectSize : U16) (slotNumber : U8) : U64 :=
  page + BitVec.ofNat 64 slabHeaderSize + BitVec.ofNat 64 (slotNumber.toNat * objectSize.toNat)

def slotNumberOf (i j : Nat) : U8 := BitVec.ofNat 8 ((i <<< 6) + j)

/-- The loop of `slab_try_alloc` over the pages. -/
def tryAllocPages (objectSize : U16) :
    List SlabPageHeader → Option (U64 × List SlabPageHeader)
  | [] => none
  | header :: rest =>
    if header.isFull then
      (tryAllocPages objectSize rest).map fun (address, rest) => (address, header :: rest)
    else
      match header.findFreeBit with
      | some (i, j) =>
        some (slotAddress header.address objectSize (slotNumberOf i j), header.flipBit i j :: rest)
      | none =>
        (tryAllocPages objectSize rest).map fun (address, rest) => (address, header :: rest)

def slabTryAlloc (allocator : SlabAllocator) : Option (U64 × SlabAllocator) :=
  (tryAllocPages allocator.objectSize allocator.slabPages).map fun (address, pages) =>
    (address, { allocator with slabPages := pages })

/-- The nested loops of `slab_alloc` that mark the slots of a new page free,
left at the first slot that does not fit. -/
def markSlotsFree (objectsPerPage : U16) :
    List (Nat × Nat) → SlabPageHeader → SlabPageHeader
  | [], header => header
  | (i, j) :: rest, header =>
    if objectsPerPage.toNat ≤ (slotNumberOf i j).toNat then header
    else markSlotsFree objectsPerPage rest (header.setBit i j)

/-- The header that `slab_alloc` leaves on a page after clearing it. -/
def newHeader (objectsPerPage : U16) (page : U64) : SlabPageHeader :=
  markSlotsFree objectsPerPage bitPositions ⟨page, fun _ => 0⟩

/-- `slab_alloc`, with the state of the page allocator beside the slab. The
last component is the page that was cleared for it, if one was needed. -/
def slabAlloc {κ : Type} (kpageAlloc : κ → Except Crash (U64 × κ)) (k : κ)
    (allocator : SlabAllocator) : Except Crash (U64 × κ × SlabAllocator × Option U64) :=
  match slabTryAlloc allocator with
  | some (address, allocator) => .ok (address, k, allocator, none)
  | none =>
    match kpageAlloc k with
    | .error e => .error e
    | .ok (page, k) =>
      let header := newHeader allocator.objectsPerPage page
      match slabTryAlloc { allocator with slabPages := header :: allocator.slabPages } with
      | some (address, allocator) => .ok (address, k, allocator, some page)
      | none => .error (.panic "Slab allocation unexpectedly failed")

def slabFree (allocator : SlabAllocator) (address : U64) : Except Crash SlabAllocator :=
  let pageHeader := address &&& pageAddressMask
  let pageOffset : U16 := (address - BitVec.ofNat 64 slabHeaderSize - pageHeader).setWidth 16
  let slotNumber : U16 := pageOffset / allocator.objectSize
  let slotOffset : U16 := pageOffset % allocator.objectSize
  if slotOffset ≠ 0 then .error (.panic "invalid slab free")
  else
    let slotNumberDiv64 : U8 := (slotNumber >>> 6).setWidth 8
    let slotNumberMod64 : U8 := (slotNumber % 64).setWidth 8
    .ok { allocator with
      slabPages := allocator.slabPages.map fun header =>
        if header.address = pageHeader then
          header.setBit slotNumberDiv64.toNat slotNumberMod64.toNat
        else header }

def SlabPageHeader.SlotFree (header : SlabPageHeader) (s : Nat) : Prop :=
  (header.freeBitmaps (s / 64)).getLsbD (s % 64) = true

namespace SlabPageHeader

theorem bitPositions_eq :
    bitPositions = (List.range 256).map fun s => (s / 64, s % 64) := by decide +kernel

theorem slotNumberOf_toNat {s : Nat} (hs : s < 256) :
    (slotNumberOf (s / 64) (s % 64)).toNat = s := by
  rw [slotNumberOf, BitVec.toNat_ofNat, Nat.shiftLeft_eq]
  omega

@[simp] theorem flipBit_address (header : SlabPageHeader) (i j : Nat) :
    (header.flipBit i j).address = header.address := rfl

@[simp] theorem setBit_address (header : SlabPageHeader) (i j : Nat) :
    (header.setBit i j).address = header.address := rfl

theorem slotFree_flipBit {header : SlabPageHeader} {t : Nat} (ht : header.SlotFree t) (s : Nat) :
    (header.flipBit (t / 64) (t % 64)).SlotFree s ↔ header.SlotFree s ∧ s ≠ t := by
  simp only [SlotFree, flipBit, modifyBitmap]
  by_cases hw : s / 64 = t / 64
  · rw [if_pos hw, getLsbD_xor_bit _ _ _ (Nat.mod_lt t (by omega))]
    by_cases hb : s % 64 = t % 64
    · have he : s = t := by omega
      subst he
      simpa [SlotFree] using ht
    · have hne : s ≠ t := fun he => hb (he ▸ rfl)
      simp [hb, hne]
  · have hne : s ≠ t := fun he => hw (he ▸ rfl)
    simp [hw, hne]

theorem slotFree_setBit (header : SlabPageHeader) (t s : Nat) :
    (header.setBit (t / 64) (t % 64)).SlotFree s ↔ header.SlotFree s ∨ s = t := by
  simp only [SlotFree, setBit, modifyBitmap]
  by_cases hw : s / 64 = t / 64
  · rw [if_pos hw, getLsbD_or_bit _ _ _ (Nat.mod_lt t (by omega))]
    by_cases hb : s % 64 = t % 64
    · have he : s = t := by omega
      simp [he]
    · have hne : s ≠ t := fun he => hb (he ▸ rfl)
      simp [hb, hne]
  · have hne : s ≠ t := fun he => hw (he ▸ rfl)
    simp [hw, hne]

theorem findFreeBit_some {header : SlabPageHeader} {i j : Nat}
    (h : header.findFreeBit = some (i, j)) :
    ∃ s, s < 256 ∧ i = s / 64 ∧ j = s % 64 ∧ header.SlotFree s := by
  have hm := List.mem_of_find?_eq_some h
  have hp := List.find?_some h
  rw [bitPositions_eq] at hm
  obtain ⟨s, hs, he⟩ := List.mem_map.mp hm
  obtain ⟨rfl, rfl⟩ := Prod.mk.inj he
  refine ⟨s, List.mem_range.mp hs, rfl, rfl, ?_⟩
  have hb := shiftRight_and_one (header.freeBitmaps (s / 64)) (s % 64)
  by_contra hne
  simp only [SlotFree] at hne
  simp [hb, hne] at hp

theorem findFreeBit_none {header : SlabPageHeader} (h : header.findFreeBit = none) {s : Nat}
    (hs : s < 256) : ¬ header.SlotFree s := by
  intro hf
  rw [findFreeBit, List.find?_eq_none, bitPositions_eq] at h
  have hb := shiftRight_and_one (header.freeBitmaps (s / 64)) (s % 64)
  have hh := h (s / 64, s % 64) (List.mem_map.mpr ⟨s, List.mem_range.mpr hs, rfl⟩)
  simp only [SlotFree] at hf
  simp [hb, hf] at hh

theorem isFull_slotFree {header : SlabPageHeader} (h : header.isFull = true) {s : Nat}
    (hs : s < 256) : ¬ header.SlotFree s := by
  simp only [isFull, Bool.and_eq_true, beq_iff_eq] at h
  have hw : s / 64 = 0 ∨ s / 64 = 1 ∨ s / 64 = 2 ∨ s / 64 = 3 := by omega
  rcases hw with hw | hw | hw | hw <;> simp [SlotFree, hw, h]

end SlabPageHeader

end Persistos
