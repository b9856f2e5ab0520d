import Persistos.SlabInvariant

/-! Runs of a slab allocator whose clients free only what they hold. -/

namespace Persistos

open SlabAllocator

/-- The allocator, the pages it may still get and the objects its clients hold. -/
structure SlabRun where
  supply : PageSupply
  allocator : SlabAllocator
  live : List U64

inductive SlabStep : SlabRun → SlabRun → Prop where
  | alloc {s : SlabRun} {x : U64} {supply : PageSupply} {a : SlabAllocator} {new : Option U64}
      (h : slabAlloc PageSupply.alloc s.supply s.allocator = .ok (x, supply, a, new)) :
      SlabStep s ⟨supply, a, x :: s.live⟩
  | free {s : SlabRun} {x : U64} {a : SlabAllocator} (hx : x ∈ s.live)
      (h : slabFree s.allocator x = .ok a) : SlabStep s ⟨s.supply, a, s.live.erase x⟩

namespace SlabAllocator

/-- The slots that are in use, read from the bitmaps. -/
def allocatedSlots (a : SlabAllocator) : List U64 :=
  a.slabPages.flatMap fun header =>
    ((List.range a.capacity).filter fun s => (header.freeBitmaps (s / 64)).getLsbD (s % 64) = false).map
      (a.slotAt header.address)

end SlabAllocator

theorem SlabInv.mem_allocatedSlots {a : SlabAllocator} {live : List U64} (h : SlabInv a live)
    (x : U64) : x ∈ a.allocatedSlots ↔ x ∈ live := by
  rw [h.mem_live x, allocatedSlots]
  simp only [List.mem_flatMap, List.mem_map, List.mem_filter, List.mem_range, decide_eq_true_eq]
  constructor
  · rintro ⟨header, hm, s, ⟨hs, hf⟩, rfl⟩
    refine ⟨header.address, List.mem_map_of_mem hm, s, hs, ?_, rfl⟩
    rintro ⟨g, hg, he, hgf⟩
    have hgh : g = header := List.inj_on_of_nodup_map h.pages_nodup hg hm he
    rw [SlabPageHeader.SlotFree, hgh, hf] at hgf
    cases hgf
  · rintro ⟨p, hp, s, hs, hf, rfl⟩
    obtain ⟨header, hm, rfl⟩ := List.mem_map.mp hp
    refine ⟨header, hm, s, ⟨hs, ?_⟩, rfl⟩
    by_contra hfree
    exact hf ⟨header, hm, rfl, by simpa [SlabPageHeader.SlotFree] using hfree⟩

theorem SlabInv.allocatedSlots_nodup {a : SlabAllocator} {live : List U64} (h : SlabInv a live) :
    a.allocatedSlots.Nodup := by
  have hmem : ∀ header ∈ a.slabPages, PageAligned header.address :=
    fun header hm => h.aligned _ (List.mem_map_of_mem hm)
  rw [allocatedSlots, List.nodup_flatMap]
  constructor
  · intro header hm
    apply List.Nodup.map_on _ (List.nodup_range.filter _)
    intro s hs t ht he
    simp only [List.mem_filter, List.mem_range] at hs ht
    exact (h.sized.slotAt_inj (hmem header hm) (hmem header hm) hs.1 ht.1 he).2
  · have hpages : a.slabPages.Pairwise fun g g' => g.address ≠ g'.address :=
      List.pairwise_map.mp h.pages_nodup
    apply hpages.imp_of_mem
    intro g g' hg hg' hne x hx hx'
    obtain ⟨s, hs, rfl⟩ := List.mem_map.mp hx
    obtain ⟨t, ht, he⟩ := List.mem_map.mp hx'
    simp only [List.mem_filter, List.mem_range] at hs ht
    exact hne (h.sized.slotAt_inj (hmem g hg) (hmem g' hg') hs.1 ht.1 he.symm).1

theorem SlabInv.allocatedSlots_perm {a : SlabAllocator} {live : List U64} (h : SlabInv a live) :
    a.allocatedSlots.Perm live :=
  (List.perm_ext_iff_of_nodup h.allocatedSlots_nodup h.live_nodup).mpr h.mem_allocatedSlots

abbrev SlabReachable (objectSize : U16) (supply : PageSupply) : SlabRun → Prop :=
  Relation.ReflTransGen SlabStep ⟨supply, slabOf objectSize, []⟩

structure SlabRunInv (objectSize : U16) (s : SlabRun) : Prop where
  slab : SlabInv s.allocator s.live
  size : s.allocator.objectSize = objectSize
  fresh : ∀ p ∈ s.supply.pages, p ∉ s.allocator.pages

theorem SlabRunInv.freshPages {size : U16} {s : SlabRun} (h : SlabRunInv size s) :
    SlabInv.FreshPages PageSupply.alloc s.supply s.allocator := by
  intro p supply hp
  obtain ⟨hpages, halign, -⟩ := PageSupply.alloc_ok hp
  exact ⟨halign, h.fresh p (by rw [hpages]; exact List.mem_cons_self)⟩

theorem SlabStep.inv {size : U16} {s t : SlabRun} (h : SlabStep s t) (hs : SlabRunInv size s) :
    SlabRunInv size t := by
  cases h with
  | @alloc x supply a new h =>
    obtain ⟨-, hinv, hsize, -, hpages, -⟩ := hs.slab.alloc hs.freshPages h
    refine ⟨hinv, hsize.trans hs.size, ?_⟩
    rcases hpages with ⟨-, rfl, hp⟩ | ⟨p, -, hp, hq⟩
    · simpa only [hp] using hs.fresh
    · obtain ⟨hsup, -, hnot⟩ := PageSupply.alloc_ok hp
      intro q hqm
      change q ∉ a.pages
      rw [hq, List.mem_cons, not_or]
      exact ⟨fun he => hnot (he ▸ hqm), hs.fresh q (by rw [hsup]; exact List.mem_cons_of_mem _ hqm)⟩
  | free hx h =>
    obtain ⟨b, hb, hsize, -, hpages, hinv, -⟩ := hs.slab.free hx
    obtain rfl := Except.ok.inj (hb.symm.trans h)
    exact ⟨hinv, hsize.trans hs.size, by simpa only [hpages] using hs.fresh⟩

theorem SlabReachable.inv {size : U16} (h₁ : 1 ≤ size.toNat) (h₂ : size.toNat ≤ 4048)
    {supply : PageSupply} {s : SlabRun} (h : SlabReachable size supply s) : SlabRunInv size s := by
  induction h with
  | refl => exact ⟨.init h₁ h₂, rfl, by simp [slabOf, SlabAllocator.pages]⟩
  | tail _ hstep ih => exact hstep.inv ih

theorem SlabSized.slotAt_apart {a : SlabAllocator} (h : SlabSized a) {p q : U64}
    (hp : PageAligned p) (hq : PageAligned q) {s t : Nat} (hs : s < a.capacity)
    (ht : t < a.capacity) (hne : a.slotAt p s ≠ a.slotAt q t) :
    (a.slotAt p s).toNat + a.objectSize.toNat ≤ (a.slotAt q t).toNat ∨
      (a.slotAt q t).toNat + a.objectSize.toNat ≤ (a.slotAt p s).toNat := by
  have hps := h.slot_end_le hs
  have hqt := h.slot_end_le ht
  rw [h.slotAt_toNat hp hs, h.slotAt_toNat hq ht]
  by_cases hpq : p = q
  · subst hpq
    have hst : s ≠ t := fun he => hne (he ▸ rfl)
    have mono : ∀ {i j : Nat}, i < j →
        i * a.objectSize.toNat + a.objectSize.toNat ≤ j * a.objectSize.toNat := by
      intro i j hij
      rw [← Nat.succ_mul]
      exact Nat.mul_le_mul_right _ hij
    rcases Nat.lt_or_gt_of_ne hst with hlt | hlt
    · have := mono hlt
      omega
    · have := mono hlt
      omega
  · have hne' : p.toNat ≠ q.toNat := fun he => hpq (BitVec.eq_of_toNat_eq he)
    simp only [PageAligned] at hp hq
    omega

structure SlabSafe (s : SlabRun) : Prop where
  alloc_fresh : ∀ x supply a new,
    slabAlloc PageSupply.alloc s.supply s.allocator = .ok (x, supply, a, new) → x ∉ s.live
  disjoint : s.live.Pairwise (fun x y =>
    x.toNat + s.allocator.objectSize.toNat ≤ y.toNat ∨
      y.toNat + s.allocator.objectSize.toNat ≤ x.toNat)
  inside : ∀ x ∈ s.live, ∃ p ∈ s.allocator.pages, PageAligned p ∧ p.toNat + 48 ≤ x.toNat ∧
    x.toNat + s.allocator.objectSize.toNat ≤ p.toNat + 4096
  alloc_cuts : ∀ x supply a new,
    slabAlloc PageSupply.alloc s.supply s.allocator = .ok (x, supply, a, new) →
    ∃ p ∈ a.pages, ∃ n < s.allocator.capacity, x = s.allocator.slotAt p n ∧
      (new = some p ∨ s.allocator.SlotFree p n) ∧
      ∀ q m, a.SlotFree q m ↔
        ((new = some q ∧ m < s.allocator.capacity) ∨ s.allocator.SlotFree q m) ∧ ¬ (q = p ∧ m = n)
  free_returns : ∀ x ∈ s.live, ∃ a, slabFree s.allocator x = .ok a ∧
    ∃ p ∈ s.allocator.pages, ∃ n < s.allocator.capacity, x = s.allocator.slotAt p n ∧
      ¬ s.allocator.SlotFree p n ∧
      ∀ q m, a.SlotFree q m ↔ s.allocator.SlotFree q m ∨ (q = p ∧ m = n)
  slot_unique : ∀ p ∈ s.allocator.pages, ∀ q ∈ s.allocator.pages, ∀ n < s.allocator.capacity,
    ∀ m < s.allocator.capacity, s.allocator.slotAt p n = s.allocator.slotAt q m → p = q ∧ n = m
  alloc_crash : ∀ e, slabAlloc PageSupply.alloc s.supply s.allocator = .error e →
    s.supply.pages = [] ∧ e = .panic "Out of physical memory\n"

/-- Every object size from 1 to 4048 bytes is served safely, also those that
would leave room for more slots than a bitmap has bits. -/
theorem slab_safe {objectSize : U16} (h₁ : 1 ≤ objectSize.toNat) (h₂ : objectSize.toNat ≤ 4048)
    {supply : PageSupply} {s : SlabRun} (h : SlabReachable objectSize supply s) : SlabSafe s := by
  have hs := h.inv h₁ h₂
  have hslot := fun x => (hs.slab.mem_live x).mp
  constructor
  · exact fun x supply a new ha => (hs.slab.alloc hs.freshPages ha).1
  · apply hs.slab.live_nodup.imp_of_mem
    intro x y hx hy hne
    obtain ⟨p, hp, n, hn, -, rfl⟩ := hslot x hx
    obtain ⟨q, hq, m, hm, -, rfl⟩ := hslot y hy
    exact hs.slab.sized.slotAt_apart (hs.slab.aligned p hp) (hs.slab.aligned q hq) hn hm hne
  · intro x hx
    obtain ⟨p, hp, n, hn, -, rfl⟩ := hslot x hx
    have halign := hs.slab.aligned p hp
    have hend := hs.slab.sized.slot_end_le hn
    rw [hs.slab.sized.slotAt_toNat halign hn]
    exact ⟨p, hp, halign, by omega, by omega⟩
  · intro x supply a new ha
    obtain ⟨-, -, -, -, -, hcut⟩ := hs.slab.alloc hs.freshPages ha
    exact hcut
  · intro x hx
    obtain ⟨a, ha, -, -, -, -, hslot⟩ := hs.slab.free hx
    exact ⟨a, ha, hslot⟩
  · intro p hp q hq n hn m hm he
    exact hs.slab.sized.slotAt_inj (hs.slab.aligned p hp) (hs.slab.aligned q hq) hn hm he
  · intro e he
    exact PageSupply.alloc_error (hs.slab.alloc_error he)

/-- One object of 144 bytes, cut from the first page of a supply of two. -/
theorem slab_safe_cluster : ∃ s,
    SlabReachable 144 ⟨[0x1000, 0x2000], by simp [PageAligned], by simp⟩ s ∧ s.live.length = 1 ∧ SlabSafe s := by
  cases h : slabAlloc PageSupply.alloc ⟨[0x1000, 0x2000], by simp [PageAligned], by simp⟩
      (slabOf 144) with
  | error e =>
    have hinv : SlabInv (slabOf 144) [] := .init (by decide) (by decide)
    have he := hinv.alloc_error h
    simp [PageSupply.alloc] at he
  | ok r =>
    obtain ⟨x, supply, a, new⟩ := r
    exact ⟨_, .single (.alloc h), rfl, slab_safe (by decide) (by decide) (.single (.alloc h))⟩

end Persistos
