import Persistos.SlabSlots
import Persistos.PageSupply

/-! The invariant that ties the slots in use to the objects handed out, and
what one allocation and one release do to it. -/

namespace Persistos

open SlabAllocator

theorem slabTryAlloc_some {a b : SlabAllocator} {x : U64}
    (hd : a.pages.Nodup) (h : slabTryAlloc a = some (x, b)) :
    b.objectSize = a.objectSize ∧ b.objectsPerPage = a.objectsPerPage ∧ b.pages = a.pages ∧
      ∃ p ∈ a.pages, ∃ s, s < 256 ∧ a.SlotFree p s ∧ x = a.slotAt p s ∧
        ∀ q t, b.SlotFree q t ↔ a.SlotFree q t ∧ ¬ (q = p ∧ t = s) := by
  obtain ⟨⟨y, headers⟩, ht, he⟩ := Option.map_eq_some_iff.mp h
  obtain ⟨rfl, rfl⟩ := Prod.mk.inj he
  obtain ⟨pre, header, post, s, hp, hs, hf, hx, rfl⟩ := tryAllocPages_some ht
  have hmem : header ∈ a.slabPages := by rw [hp]; simp
  -- no other page has the address of the page that gives the slot
  have hother : ∀ g ∈ pre ++ post, g.address ≠ header.address := by
    intro g hg he
    rw [SlabAllocator.pages, hp, List.map_append, List.map_cons] at hd
    have hn := List.nodup_middle.mp hd
    rw [← List.map_append] at hn
    exact (List.nodup_cons.mp hn).1 (List.mem_map.mpr ⟨g, hg, he⟩)
  refine ⟨rfl, rfl, by simp [SlabAllocator.pages, hp], header.address,
    List.mem_map_of_mem hmem, s, hs, ⟨header, hmem, rfl, hf⟩, hx, ?_⟩
  intro q t
  constructor
  · intro hmem
    obtain ⟨g, hg, rfl, hgf⟩ := hmem
    rcases List.mem_append.mp hg with hg | hg
    · exact ⟨⟨g, by rw [hp]; simp [hg], rfl, hgf⟩, fun h => hother g (by simp [hg]) h.1⟩
    rcases List.mem_cons.mp hg with rfl | hg
    · have hh := (SlabPageHeader.slotFree_flipBit hf t).mp hgf
      exact ⟨⟨header, hmem, rfl, hh.1⟩, fun h => hh.2 h.2⟩
    · exact ⟨⟨g, by rw [hp]; simp [hg], rfl, hgf⟩, fun h => hother g (by simp [hg]) h.1⟩
  · intro hmem
    obtain ⟨⟨g, hg, rfl, hgf⟩, hne⟩ := hmem
    rw [hp] at hg
    rcases List.mem_append.mp hg with hg | hg
    · exact ⟨g, by simp [hg], rfl, hgf⟩
    rcases List.mem_cons.mp hg with rfl | hg
    · refine ⟨g.flipBit (s / 64) (s % 64), by simp, rfl, ?_⟩
      exact (SlabPageHeader.slotFree_flipBit hf t).mpr ⟨hgf, fun h => hne ⟨rfl, h⟩⟩
    · exact ⟨g, by simp [hg], rfl, hgf⟩

theorem slabTryAlloc_none {a : SlabAllocator} (h : slabTryAlloc a = none) (p : U64) {s : Nat}
    (hs : s < 256) : ¬ a.SlotFree p s := by
  intro hmem
  obtain ⟨header, hm, -, hf⟩ := hmem
  exact tryAllocPages_none (Option.map_eq_none_iff.mp h) header hm s hs hf

/-- The allocator after `slab_alloc` has put a new page at the head of its list. -/
def SlabAllocator.addPage (a : SlabAllocator) (page : U64) : SlabAllocator :=
  { a with slabPages := newHeader a.objectsPerPage page :: a.slabPages }

theorem newHeader_address (perPage : U16) (page : U64) : (newHeader perPage page).address = page :=
  markSlotsFree_address _ _ _

theorem SlabAllocator.pages_addPage (a : SlabAllocator) (page : U64) :
    (a.addPage page).pages = page :: a.pages := by
  simp [SlabAllocator.addPage, SlabAllocator.pages, newHeader_address]

theorem SlabAllocator.slotFree_addPage (a : SlabAllocator) (page q : U64) (t : Nat) :
    (a.addPage page).SlotFree q t ↔ (q = page ∧ t < a.capacity) ∨ a.SlotFree q t := by
  simp only [SlabAllocator.SlotFree, SlabAllocator.addPage, List.exists_mem_cons_iff,
    newHeader_address, newHeader_slotFree, SlabAllocator.capacity, eq_comm (a := page)]

structure SlabInv (a : SlabAllocator) (live : List U64) : Prop where
  sized : SlabSized a
  aligned : ∀ p ∈ a.pages, PageAligned p
  pages_nodup : a.pages.Nodup
  free_lt : ∀ p s, a.SlotFree p s → s < a.capacity
  live_nodup : live.Nodup
  mem_live : ∀ x, x ∈ live ↔
    ∃ p ∈ a.pages, ∃ s < a.capacity, ¬ a.SlotFree p s ∧ x = a.slotAt p s

theorem SlabAllocator.SlotFree.mem_pages {a : SlabAllocator} {p : U64} {s : Nat}
    (h : a.SlotFree p s) : p ∈ a.pages := by
  obtain ⟨header, hm, rfl, -⟩ := h
  exact List.mem_map_of_mem hm

namespace SlabInv

variable {a b : SlabAllocator} {live : List U64}

theorem init {size : U16} (h₁ : 1 ≤ size.toNat) (h₂ : size.toNat ≤ 4048) :
    SlabInv (slabOf size) [] where
  sized := .slabOf h₁ h₂
  aligned := by simp [slabOf, SlabAllocator.pages]
  pages_nodup := List.nodup_nil
  free_lt := by rintro p s ⟨header, hm, -⟩; simp [slabOf] at hm
  live_nodup := List.nodup_nil
  mem_live := by simp [slabOf, SlabAllocator.pages]

theorem perm (h : SlabInv a live) {live' : List U64} (hp : live.Perm live') : SlabInv a live' :=
  { h with
    live_nodup := hp.nodup_iff.mp h.live_nodup
    mem_live := fun y => (hp.mem_iff (a := y)).symm.trans (h.mem_live y) }

theorem mask_mem_pages (h : SlabInv a live) {x : U64} (hx : x ∈ live) :
    x &&& pageAddressMask ∈ a.pages := by
  obtain ⟨p, hp, s, hs, -, rfl⟩ := (h.mem_live x).mp hx
  rwa [h.sized.slotAt_mask (h.aligned p hp) hs]

theorem addPage (h : SlabInv a live) {page : U64} (hp : PageAligned page) (hn : page ∉ a.pages) :
    SlabInv (a.addPage page) live where
  sized := ⟨h.sized.size_pos, h.sized.size_le, h.sized.perPage⟩
  aligned := by
    rw [pages_addPage]
    exact List.forall_mem_cons.mpr ⟨hp, h.aligned⟩
  pages_nodup := by
    rw [pages_addPage]
    exact List.nodup_cons.mpr ⟨hn, h.pages_nodup⟩
  free_lt := by
    intro p s hs
    rcases (slotFree_addPage a page p s).mp hs with hs | hs
    · exact hs.2
    · exact h.free_lt p s hs
  live_nodup := h.live_nodup
  mem_live := by
    intro x
    rw [h.mem_live x, pages_addPage]
    constructor
    · intro hmem
      obtain ⟨p, hpm, s, hs, hf, rfl⟩ := hmem
      refine ⟨p, List.mem_cons_of_mem _ hpm, s, hs, ?_, rfl⟩
      rw [slotFree_addPage]
      intro hmem
      rcases hmem with ⟨rfl, -⟩ | hff
      · exact hn hpm
      · exact hf hff
    · intro hmem
      obtain ⟨p, hpm, s, hs, hf, rfl⟩ := hmem
      rw [slotFree_addPage] at hf
      rcases List.mem_cons.mp hpm with rfl | hpm
      · exact absurd (Or.inl ⟨rfl, hs⟩) hf
      · exact ⟨p, hpm, s, hs, fun hff => hf (Or.inr hff), rfl⟩

theorem take (h : SlabInv a live) (hsize : b.objectSize = a.objectSize)
    (hper : b.objectsPerPage = a.objectsPerPage) (hpages : b.pages = a.pages)
    {p : U64} {s : Nat} (hf : a.SlotFree p s)
    (hfree : ∀ q t, b.SlotFree q t ↔ a.SlotFree q t ∧ ¬ (q = p ∧ t = s)) :
    a.slotAt p s ∉ live ∧ SlabInv b (a.slotAt p s :: live) := by
  have hcap : b.capacity = a.capacity := by rw [capacity, capacity, hper]
  have hat : ∀ q t, b.slotAt q t = a.slotAt q t := fun q t => by rw [slotAt, slotAt, hsize]
  have hs := h.free_lt p s hf
  have hpm := hf.mem_pages
  have hnew : a.slotAt p s ∉ live := by
    intro hm
    obtain ⟨q, hq, t, ht, hnf, he⟩ := (h.mem_live _).mp hm
    obtain ⟨rfl, rfl⟩ := h.sized.slotAt_inj (h.aligned p hpm) (h.aligned q hq) hs ht he
    exact hnf hf
  refine ⟨hnew, ?_, ?_, ?_, ?_, ?_, ?_⟩
  · exact ⟨hsize ▸ h.sized.size_pos, hsize ▸ h.sized.size_le, by rw [hper, hsize, h.sized.perPage]⟩
  · exact hpages ▸ h.aligned
  · exact hpages ▸ h.pages_nodup
  · exact fun q t ht => hcap ▸ h.free_lt q t ((hfree q t).mp ht).1
  · exact List.nodup_cons.mpr ⟨hnew, h.live_nodup⟩
  · intro x
    rw [List.mem_cons, h.mem_live x, hpages, hcap]
    simp only [hat, hfree]
    constructor
    · intro hmem
      rcases hmem with rfl | ⟨q, hq, t, ht, hnf, rfl⟩
      · exact ⟨p, hpm, s, hs, fun hh => hh.2 ⟨rfl, rfl⟩, rfl⟩
      · exact ⟨q, hq, t, ht, fun hh => hnf hh.1, rfl⟩
    · intro hmem
      obtain ⟨q, hq, t, ht, hnf, rfl⟩ := hmem
      by_cases he : q = p ∧ t = s
      · exact Or.inl (by rw [he.1, he.2])
      · exact Or.inr ⟨q, hq, t, ht, fun hh => hnf ⟨hh, he⟩, rfl⟩

end SlabInv

/-- `slab_free` computes from the address of a slot the page and the slot. -/
theorem slabFree_slotAt {a : SlabAllocator} (h : SlabSized a) {p : U64} (hp : PageAligned p)
    {s : Nat} (hs : s < a.capacity) :
    slabFree a (a.slotAt p s) = .ok { a with
      slabPages := a.slabPages.map fun header =>
        if header.address = p then header.setBit (s / 64) (s % 64) else header } := by
  have hend := h.slot_end_le hs
  have hpos := h.size_pos
  have hs' : s < 256 := by rw [capacity] at hs; omega
  have hx := h.slotAt_toNat hp hs
  have hoff : ((a.slotAt p s - BitVec.ofNat 64 slabHeaderSize - p).setWidth 16).toNat =
      s * a.objectSize.toNat := by
    have hlt := p.isLt
    rw [BitVec.toNat_setWidth, BitVec.toNat_sub, BitVec.toNat_sub, hx, slabHeaderSize,
      BitVec.toNat_ofNat]
    omega
  have h64 : (64 : U16).toNat = 64 := rfl
  rw [slabFree]
  simp only [h.slotAt_mask hp hs]
  generalize (a.slotAt p s - BitVec.ofNat 64 slabHeaderSize - p).setWidth 16 = offset at hoff
  have hmod : offset % a.objectSize = 0 := by
    apply BitVec.eq_of_toNat_eq
    rw [BitVec.toNat_umod, hoff, Nat.mul_mod_left]
    rfl
  have hslot : (offset / a.objectSize).toNat = s := by
    rw [BitVec.toNat_udiv, hoff, Nat.mul_div_cancel _ hpos]
  have hdiv : (((offset / a.objectSize) >>> 6).setWidth 8).toNat = s / 64 := by
    rw [BitVec.toNat_setWidth, BitVec.toNat_ushiftRight, hslot, Nat.shiftRight_eq_div_pow]
    omega
  have hrem : (((offset / a.objectSize) % 64).setWidth 8).toNat = s % 64 := by
    rw [BitVec.toNat_setWidth, BitVec.toNat_umod, hslot, h64]
    omega
  simp only [hmod, hdiv, hrem, ne_eq, not_true, if_false]

namespace SlabInv

variable {a b : SlabAllocator} {live : List U64}

theorem put_slotFree {p : U64} (hp : p ∈ a.pages) (s : Nat)
    (hb : b = { a with
      slabPages := a.slabPages.map fun header =>
        if header.address = p then header.setBit (s / 64) (s % 64) else header }) :
    b.pages = a.pages ∧ ∀ q t, b.SlotFree q t ↔ a.SlotFree q t ∨ (q = p ∧ t = s) := by
  subst hb
  constructor
  · simp only [pages, List.map_map]
    apply List.map_congr_left
    intro header _
    simp only [Function.comp_apply]
    split <;> simp
  · intro q t
    constructor
    · intro hmem
      obtain ⟨g, hg, rfl, hf⟩ := hmem
      obtain ⟨header, hm, rfl⟩ := List.mem_map.mp hg
      by_cases he : header.address = p
      · simp only [he, if_true, SlabPageHeader.setBit_address, true_and] at hf ⊢
        rcases (SlabPageHeader.slotFree_setBit header s t).mp hf with hf | rfl
        · exact Or.inl ⟨header, hm, he, hf⟩
        · exact Or.inr rfl
      · simp only [he, if_false] at hf ⊢
        exact Or.inl ⟨header, hm, rfl, hf⟩
    · intro h
      have hput : ∀ header ∈ a.slabPages, header.address = q →
          (header.SlotFree t ∨ (q = p ∧ t = s)) →
          ∃ g ∈ a.slabPages.map (fun header =>
            if header.address = p then header.setBit (s / 64) (s % 64) else header),
            g.address = q ∧ g.SlotFree t := by
        intro header hm hq hf
        refine ⟨_, List.mem_map_of_mem hm, ?_, ?_⟩
        · split <;> simp [hq]
        · split
          · exact (SlabPageHeader.slotFree_setBit header s t).mpr (hf.imp_right And.right)
          · next he => exact hf.resolve_right (fun hh => he (hq.trans hh.1))
      rcases h with ⟨header, hm, hq, hf⟩ | ⟨rfl, rfl⟩
      · exact hput header hm hq (Or.inl hf)
      · obtain ⟨header, hm, hq⟩ := List.mem_map.mp hp
        exact hput header hm hq (Or.inr ⟨rfl, rfl⟩)

theorem free (h : SlabInv a live) {x : U64} (hx : x ∈ live) :
    ∃ b, slabFree a x = .ok b ∧ b.objectSize = a.objectSize ∧
      b.objectsPerPage = a.objectsPerPage ∧ b.pages = a.pages ∧ SlabInv b (live.erase x) ∧
      ∃ p ∈ a.pages, ∃ s < a.capacity, x = a.slotAt p s ∧ ¬ a.SlotFree p s ∧
        ∀ q t, b.SlotFree q t ↔ a.SlotFree q t ∨ (q = p ∧ t = s) := by
  obtain ⟨p, hp, s, hs, hnf, rfl⟩ := (h.mem_live x).mp hx
  have hput := put_slotFree hp s rfl
  refine ⟨_, slabFree_slotAt h.sized (h.aligned p hp) hs, rfl, rfl, hput.1, ?_,
    p, hp, s, hs, rfl, hnf, hput.2⟩
  constructor
  · exact ⟨h.sized.size_pos, h.sized.size_le, h.sized.perPage⟩
  · rw [hput.1]
    exact h.aligned
  · rw [hput.1]
    exact h.pages_nodup
  · intro q t ht
    rcases (hput.2 q t).mp ht with ht | ⟨rfl, rfl⟩
    · exact h.free_lt q t ht
    · exact hs
  · exact h.live_nodup.erase _
  · intro y
    rw [h.live_nodup.mem_erase_iff, h.mem_live y, hput.1]
    simp only [hput.2]
    constructor
    · intro hmem
      obtain ⟨hne, q, hq, t, ht, hf, rfl⟩ := hmem
      refine ⟨q, hq, t, ht, ?_, rfl⟩
      intro hmem
      rcases hmem with hh | ⟨rfl, rfl⟩
      · exact hf hh
      · exact hne rfl
    · intro hmem
      obtain ⟨q, hq, t, ht, hf, rfl⟩ := hmem
      refine ⟨?_, q, hq, t, ht, fun hh => hf (Or.inl hh), rfl⟩
      intro he
      exact hf (Or.inr (h.sized.slotAt_inj (h.aligned q hq) (h.aligned p hp) ht hs he))

variable {κ : Type} {kpageAlloc : κ → Except Crash (U64 × κ)} {k k' : κ}

/-- Any page that `slab_alloc` may get is aligned and not already one of its own. -/
def FreshPages (kpageAlloc : κ → Except Crash (U64 × κ)) (k : κ) (a : SlabAllocator) : Prop :=
  ∀ p k', kpageAlloc k = .ok (p, k') → PageAligned p ∧ p ∉ a.pages

theorem alloc (h : SlabInv a live) (hk : FreshPages kpageAlloc k a) {x : U64} {new : Option U64}
    (ha : slabAlloc kpageAlloc k a = .ok (x, k', b, new)) :
    x ∉ live ∧ SlabInv b (x :: live) ∧
      b.objectSize = a.objectSize ∧ b.objectsPerPage = a.objectsPerPage ∧
      ((new = none ∧ k' = k ∧ b.pages = a.pages) ∨
        ∃ p, new = some p ∧ kpageAlloc k = .ok (p, k') ∧ b.pages = p :: a.pages) ∧
      ∃ p ∈ b.pages, ∃ s < a.capacity, x = a.slotAt p s ∧ (new = some p ∨ a.SlotFree p s) ∧
        ∀ q t, b.SlotFree q t ↔
          ((new = some q ∧ t < a.capacity) ∨ a.SlotFree q t) ∧ ¬ (q = p ∧ t = s) := by
  rw [slabAlloc] at ha
  split at ha
  · next y c ht =>
    simp only [Except.ok.injEq, Prod.mk.injEq] at ha
    obtain ⟨rfl, rfl, rfl, rfl⟩ := ha
    obtain ⟨hsize, hper, hpages, p, hp, s, -, hf, rfl, hfree⟩ := slabTryAlloc_some h.pages_nodup ht
    have hh := h.take hsize hper hpages hf hfree
    refine ⟨hh.1, hh.2, hsize, hper, Or.inl ⟨rfl, rfl, hpages⟩, p, hpages ▸ hp, s,
      h.free_lt p s hf, rfl, Or.inr hf, ?_⟩
    simpa using hfree
  · split at ha
    · simp at ha
    · next page k₁ hkp =>
      dsimp only at ha
      split at ha
      · next y c ht =>
        simp only [Except.ok.injEq, Prod.mk.injEq] at ha
        obtain ⟨rfl, rfl, rfl, rfl⟩ := ha
        have hfresh := hk page k₁ hkp
        have hadd := h.addPage hfresh.1 hfresh.2
        change slabTryAlloc (a.addPage page) = _ at ht
        obtain ⟨hsize, hper, hpages, p, hp, s, -, hf, rfl, hfree⟩ :=
          slabTryAlloc_some hadd.pages_nodup ht
        have hh := hadd.take hsize hper hpages hf hfree
        refine ⟨hh.1, hh.2, hsize, hper, Or.inr ⟨page, rfl, hkp, ?_⟩, p, hpages ▸ hp, s,
          hadd.free_lt p s hf, rfl, ?_, ?_⟩
        · rw [hpages, pages_addPage]
        · exact ((slotFree_addPage a page p s).mp hf).imp (fun hq => by rw [hq.1]) id
        · intro q t
          rw [hfree, slotFree_addPage]
          simp [eq_comm]
      · simp at ha

theorem alloc_error (h : SlabInv a live) {e : Crash}
    (ha : slabAlloc kpageAlloc k a = .error e) : kpageAlloc k = .error e := by
  rw [slabAlloc] at ha
  split at ha
  · simp at ha
  · split at ha
    · next e' he => simpa [he] using ha
    · next page k₁ _ =>
      dsimp only at ha
      split at ha
      · simp at ha
      · next hnone =>
        change slabTryAlloc (a.addPage page) = none at hnone
        have hfree := (slotFree_addPage a page page 0).mpr (Or.inl ⟨rfl, h.sized.capacity_pos⟩)
        exact absurd hfree (slabTryAlloc_none hnone page (by omega))

end SlabInv

end Persistos
