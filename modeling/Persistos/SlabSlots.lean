import Persistos.Slab

/-! The slab allocator seen as a set of pages with a set of free slots each.
What the loops do to the bitmap words is said here once, in terms of slots. -/

namespace Persistos

open Theory

namespace SlabAllocator

def pages (a : SlabAllocator) : List U64 := a.slabPages.map SlabPageHeader.address

def SlotFree (a : SlabAllocator) (page : U64) (s : Nat) : Prop :=
  ∃ header ∈ a.slabPages, header.address = page ∧ header.SlotFree s

/-- Slots of one page. A bitmap has no room for more than 256 of them. -/
def capacity (a : SlabAllocator) : Nat := min 256 a.objectsPerPage.toNat

def slotAt (a : SlabAllocator) (page : U64) (s : Nat) : U64 :=
  slotAddress page a.objectSize (BitVec.ofNat 8 s)

end SlabAllocator

open SlabAllocator

/-- The sizes that `SLAB_OF` gives an allocator for objects of 1 to 4048 bytes. -/
structure SlabSized (a : SlabAllocator) : Prop where
  size_pos : 1 ≤ a.objectSize.toNat
  size_le : a.objectSize.toNat ≤ 4048
  perPage : a.objectsPerPage.toNat = 4048 / a.objectSize.toNat

namespace SlabSized

variable {a : SlabAllocator}

theorem slabOf {size : U16} (h₁ : 1 ≤ size.toNat) (h₂ : size.toNat ≤ 4048) :
    SlabSized (slabOf size) where
  size_pos := h₁
  size_le := h₂
  perPage := by
    have hle := Nat.div_le_self 4048 size.toNat
    have hav : slabAvailablePagesize = 4048 := rfl
    simp only [Persistos.slabOf, hav, BitVec.toNat_ofNat]
    exact Nat.mod_eq_of_lt (Nat.lt_of_le_of_lt hle (by decide))

theorem capacity_pos (h : SlabSized a) : 0 < a.capacity := by
  have hp := Nat.div_pos h.size_le h.size_pos
  rw [capacity, h.perPage]
  omega

theorem slot_end_le (h : SlabSized a) {s : Nat} (hs : s < a.capacity) :
    s * a.objectSize.toNat + a.objectSize.toNat ≤ 4048 := by
  have hs' : s + 1 ≤ 4048 / a.objectSize.toNat := by
    rw [capacity, h.perPage] at hs
    omega
  calc s * a.objectSize.toNat + a.objectSize.toNat =
      (s + 1) * a.objectSize.toNat := (Nat.succ_mul _ _).symm
    _ ≤ 4048 / a.objectSize.toNat * a.objectSize.toNat := Nat.mul_le_mul_right _ hs'
    _ ≤ 4048 := Nat.div_mul_le_self _ _

theorem slotAt_toNat (h : SlabSized a) {page : U64} (hp : PageAligned page) {s : Nat}
    (hs : s < a.capacity) :
    (a.slotAt page s).toNat = page.toNat + 48 + s * a.objectSize.toNat := by
  have hend := h.slot_end_le hs
  have hpos := h.size_pos
  have hs' : s < 256 := by rw [capacity] at hs; omega
  have hn : (BitVec.ofNat 8 s).toNat = s := by rw [BitVec.toNat_ofNat]; omega
  rw [slotAt, slotAddress, hn, BitVec.add_assoc, ← BitVec.ofNat_add, slabHeaderSize,
    hp.add_toNat (by omega), Nat.add_assoc]

theorem slotAt_mask (h : SlabSized a) {page : U64} (hp : PageAligned page) {s : Nat}
    (hs : s < a.capacity) : a.slotAt page s &&& pageAddressMask = page := by
  have hend := h.slot_end_le hs
  have hpos := h.size_pos
  have he := h.slotAt_toNat hp hs
  exact mask_of_mem_page hp (by omega) (by omega)

theorem slotAt_inj (h : SlabSized a) {p q : U64} (hp : PageAligned p) (hq : PageAligned q)
    {s t : Nat} (hs : s < a.capacity) (ht : t < a.capacity)
    (he : a.slotAt p s = a.slotAt q t) : p = q ∧ s = t := by
  have hpq : p = q := by rw [← h.slotAt_mask hp hs, he, h.slotAt_mask hq ht]
  subst hpq
  have hn := congrArg BitVec.toNat he
  rw [h.slotAt_toNat hp hs, h.slotAt_toNat hp ht] at hn
  exact ⟨rfl, Nat.eq_of_mul_eq_mul_right h.size_pos (Nat.add_left_cancel hn)⟩

end SlabSized

theorem slotNumberOf_eq {s : Nat} (hs : s < 256) :
    slotNumberOf (s / 64) (s % 64) = BitVec.ofNat 8 s := by
  apply BitVec.eq_of_toNat_eq
  rw [SlabPageHeader.slotNumberOf_toNat hs, BitVec.toNat_ofNat]
  omega

theorem tryAllocPages_some {size : U16} {headers headers' : List SlabPageHeader} {x : U64}
    (h : tryAllocPages size headers = some (x, headers')) :
    ∃ pre header post s, headers = pre ++ header :: post ∧ s < 256 ∧ header.SlotFree s ∧
      x = slotAddress header.address size (BitVec.ofNat 8 s) ∧
      headers' = pre ++ header.flipBit (s / 64) (s % 64) :: post := by
  induction headers generalizing headers' with
  | nil => simp [tryAllocPages] at h
  | cons header rest ih =>
    have skip : (tryAllocPages size rest).map (fun r => (r.1, header :: r.2)) =
        some (x, headers') → ∃ pre g post s, header :: rest = pre ++ g :: post ∧ s < 256 ∧
          g.SlotFree s ∧ x = slotAddress g.address size (BitVec.ofNat 8 s) ∧
          headers' = pre ++ g.flipBit (s / 64) (s % 64) :: post := by
      intro hm
      obtain ⟨⟨y, rest'⟩, hr, he⟩ := Option.map_eq_some_iff.mp hm
      obtain ⟨rfl, rfl⟩ := Prod.mk.inj he
      obtain ⟨pre, g, post, s, rfl, hs, hf, hx, rfl⟩ := ih hr
      exact ⟨header :: pre, g, post, s, rfl, hs, hf, hx, rfl⟩
    rw [tryAllocPages] at h
    split at h
    · exact skip h
    · split at h
      · next i j hfound =>
        obtain ⟨s, hs, rfl, rfl, hf⟩ := SlabPageHeader.findFreeBit_some hfound
        simp only [Option.some.injEq, Prod.mk.injEq, slotNumberOf_eq hs] at h
        exact ⟨[], header, rest, s, rfl, hs, hf, h.1.symm, h.2.symm⟩
      · exact skip h

theorem tryAllocPages_none {size : U16} {headers : List SlabPageHeader}
    (h : tryAllocPages size headers = none) :
    ∀ header ∈ headers, ∀ s < 256, ¬ header.SlotFree s := by
  induction headers with
  | nil => simp
  | cons header rest ih =>
    rw [tryAllocPages] at h
    refine List.forall_mem_cons.mpr ?_
    split at h
    · next hfull =>
      exact ⟨fun s hs => SlabPageHeader.isFull_slotFree hfull hs, ih (by simpa using h)⟩
    · split at h
      · simp at h
      · next hnone =>
        exact ⟨fun s hs => SlabPageHeader.findFreeBit_none hnone hs, ih (by simpa using h)⟩

theorem markSlotsFree_slotFree (perPage : U16) (n first : Nat) (hn : first + n ≤ 256)
    (header : SlabPageHeader) (s : Nat) :
    (markSlotsFree perPage ((List.range' first n).map fun s => (s / 64, s % 64))
        header).SlotFree s ↔
      header.SlotFree s ∨ (first ≤ s ∧ s < first + n ∧ s < perPage.toNat) := by
  induction n generalizing first header with
  | zero =>
    have hno : ¬ (first ≤ s ∧ s < first + 0 ∧ s < perPage.toNat) := by omega
    simp only [List.range'_zero, List.map_nil, markSlotsFree, hno, or_false]
  | succ n ih =>
    rw [List.range'_succ, List.map_cons, markSlotsFree,
      SlabPageHeader.slotNumberOf_toNat (by omega : first < 256)]
    split
    · have hno : ¬ (first ≤ s ∧ s < first + (n + 1) ∧ s < perPage.toNat) := by omega
      simp [hno]
    · rw [ih (first + 1) (by omega), SlabPageHeader.slotFree_setBit, or_assoc]
      have he : s = first ∨ (first + 1 ≤ s ∧ s < first + 1 + n ∧ s < perPage.toNat) ↔
          first ≤ s ∧ s < first + (n + 1) ∧ s < perPage.toNat := by omega
      rw [he]

theorem markSlotsFree_address (perPage : U16) (l : List (Nat × Nat)) (header : SlabPageHeader) :
    (markSlotsFree perPage l header).address = header.address := by
  induction l generalizing header with
  | nil => rfl
  | cons p l ih =>
    rw [markSlotsFree]
    split
    · rfl
    · rw [ih, SlabPageHeader.setBit_address]

theorem newHeader_slotFree (perPage : U16) (page : U64) (s : Nat) :
    (newHeader perPage page).SlotFree s ↔ s < min 256 perPage.toNat := by
  have hz : ¬ (SlabPageHeader.mk page fun _ => 0).SlotFree s := by simp [SlabPageHeader.SlotFree]
  rw [newHeader, SlabPageHeader.bitPositions_eq, List.range_eq_range',
    markSlotsFree_slotFree perPage 256 0 (by omega)]
  simp only [hz, false_or]
  omega

end Persistos
