import Persistos.SlabRuns

/-! A slab allocator together with the objects in its slots. An object keeps
its bytes when its slot is freed, and the slots of a new page are cleared. -/

namespace Persistos

structure Slab (α : Type) where
  allocator : SlabAllocator
  objects : U64 → α

namespace Slab

variable {α : Type}

def init (objectSize : U16) (objects : U64 → α) : Slab α := ⟨slabOf objectSize, objects⟩

def clearNew (zero : α) (new : Option U64) (objects : U64 → α) : U64 → α :=
  fun x => if new = some (x &&& pageAddressMask) then zero else objects x

def alloc (zero : α) (supply : PageSupply) (slab : Slab α) :
    Except Crash (U64 × PageSupply × Slab α) := do
  let (x, supply, allocator, new) ← slabAlloc PageSupply.alloc supply slab.allocator
  .ok (x, supply, ⟨allocator, clearNew zero new slab.objects⟩)

def free (slab : Slab α) (x : U64) : Except Crash (Slab α) := do
  let allocator ← slabFree slab.allocator x
  .ok { slab with allocator }

def modify (slab : Slab α) (x : U64) (f : α → α) : Slab α :=
  { slab with objects := fun y => if y = x then f (slab.objects y) else slab.objects y }

@[simp] theorem modify_allocator (slab : Slab α) (x : U64) (f : α → α) :
    (slab.modify x f).allocator = slab.allocator := rfl

@[simp] theorem modify_objects_self (slab : Slab α) (x : U64) (f : α → α) :
    (slab.modify x f).objects x = f (slab.objects x) := if_pos rfl

theorem modify_objects_ne (slab : Slab α) {x y : U64} (h : y ≠ x) (f : α → α) :
    (slab.modify x f).objects y = slab.objects y := if_neg h

theorem modify_modify (slab : Slab α) (x : U64) (f g : α → α) :
    (slab.modify x f).modify x g = slab.modify x (g ∘ f) := by
  refine congrArg (Slab.mk slab.allocator) (funext fun y => ?_)
  by_cases h : y = x <;> simp [modify, h]

/-- The slots in use are the live objects, and no page of the slab is still in
the supply. -/
structure Ok (supply : PageSupply) (slab : Slab α) (live : List U64) : Prop where
  inv : SlabInv slab.allocator live
  fresh : ∀ p ∈ supply.pages, p ∉ slab.allocator.pages

variable {supply supply' : PageSupply} {slab slab' : Slab α} {live : List U64} {zero : α} {x : U64}

theorem Ok.init {size : U16} (h₁ : 1 ≤ size.toNat) (h₂ : size.toNat ≤ 4048)
    (objects : U64 → α) : Ok supply (Slab.init size objects) [] where
  inv := .init h₁ h₂
  fresh := by simp [Slab.init, slabOf, SlabAllocator.pages]

theorem Ok.modify (h : Ok supply slab live) (y : U64) (f : α → α) :
    Ok supply (slab.modify y f) live := ⟨h.inv, h.fresh⟩

theorem Ok.perm (h : Ok supply slab live) {live' : List U64} (hp : live.Perm live') :
    Ok supply slab live' := ⟨h.inv.perm hp, h.fresh⟩

theorem Ok.freshPages (h : Ok supply slab live) :
    SlabInv.FreshPages PageSupply.alloc supply slab.allocator := by
  intro p supply' hp
  obtain ⟨hpages, halign, -⟩ := PageSupply.alloc_ok hp
  exact ⟨halign, h.fresh p (by rw [hpages]; exact List.mem_cons_self)⟩

theorem Ok.of_subset (h : Ok supply slab live) (hs : supply'.pages ⊆ supply.pages) :
    Ok supply' slab live := ⟨h.inv, fun p hp => h.fresh p (hs hp)⟩

theorem Ok.mask_mem_pages (h : Ok supply slab live) (hx : x ∈ live) :
    x &&& pageAddressMask ∈ slab.allocator.pages := h.inv.mask_mem_pages hx

structure Allocated (supply supply' : PageSupply) (slab slab' : Slab α) (live : List U64)
    (x : U64) : Prop where
  ok : Ok supply' slab' (x :: live)
  not_live : x ∉ live
  objects : ∀ y ∈ live, slab'.objects y = slab.objects y
  supply_subset : supply'.pages ⊆ supply.pages
  supply_length : supply.pages.length ≤ supply'.pages.length + 1

theorem Ok.alloc (h : Ok supply slab live)
    (ha : slab.alloc zero supply = .ok (x, supply', slab')) :
    Allocated supply supply' slab slab' live x := by
  obtain ⟨⟨y, s, a, new⟩, hs, he⟩ := bind_eq_ok ha
  simp only [Except.ok.injEq, Prod.mk.injEq] at he
  obtain ⟨rfl, rfl, rfl⟩ := he
  obtain ⟨hnew, hinv, -, -, hpages, -⟩ := h.inv.alloc h.freshPages hs
  have hstep : SlabStep ⟨supply, slab.allocator, live⟩ ⟨s, a, y :: live⟩ := .alloc hs
  have hrun := hstep.inv ⟨h.inv, rfl, h.fresh⟩
  refine ⟨⟨hinv, hrun.fresh⟩, hnew, ?_, ?_, ?_⟩
  · intro z hz
    have hmask := h.mask_mem_pages hz
    rcases hpages with ⟨rfl, -, -⟩ | ⟨p, rfl, hp, -⟩
    · rfl
    · refine if_neg ?_
      intro he
      obtain rfl := Option.some.inj he
      exact (h.freshPages _ _ hp).2 hmask
  · rcases hpages with ⟨-, rfl, -⟩ | ⟨p, -, hp, -⟩
    · exact List.Subset.refl _
    · rw [(PageSupply.alloc_ok hp).1]
      exact List.subset_cons_self _ _
  · rcases hpages with ⟨-, rfl, -⟩ | ⟨p, -, hp, -⟩
    · omega
    · have hlen := congrArg List.length (PageSupply.alloc_ok hp).1
      rw [List.length_cons] at hlen
      exact Nat.le_of_eq hlen

theorem Ok.alloc_error (h : Ok supply slab live) {e : Crash}
    (ha : slab.alloc zero supply = .error e) :
    supply.pages = [] ∧ e = .panic "Out of physical memory\n" := by
  cases hs : slabAlloc PageSupply.alloc supply slab.allocator with
  | ok r =>
    rw [Slab.alloc, hs] at ha
    cases ha
  | error e' =>
    rw [Slab.alloc, hs] at ha
    obtain rfl : e' = e := Except.error.inj ha
    exact PageSupply.alloc_error (h.inv.alloc_error hs)

theorem Ok.free (h : Ok supply slab live) (hx : x ∈ live) :
    ∃ slab', slab.free x = .ok slab' ∧ Ok supply slab' (live.erase x) ∧
      slab'.objects = slab.objects := by
  obtain ⟨a, ha, -, -, hpages, hinv, -⟩ := h.inv.free hx
  refine ⟨{ slab with allocator := a }, ?_, ⟨hinv, ?_⟩, rfl⟩
  · rw [Slab.free, ha]
    rfl
  · simpa only [hpages] using h.fresh

/-- Outside of the live objects the pages are as they were cleared, because
nothing was ever freed. -/
def Unused (zero : α) (slab : Slab α) (live : List U64) : Prop :=
  ∀ y, y &&& pageAddressMask ∈ slab.allocator.pages → y ∉ live → slab.objects y = zero

theorem Unused.init (zero : α) (size : U16) (objects : U64 → α) :
    Unused zero (Slab.init size objects) [] := by
  intro y hy
  simp [Slab.init, slabOf, SlabAllocator.pages] at hy

theorem Unused.modify (h : Unused zero slab live) (hx : x ∈ live) (f : α → α) :
    Unused zero (slab.modify x f) live := by
  intro y hy hn
  rw [modify_objects_ne slab (ne_of_mem_of_not_mem hx hn).symm]
  exact h y hy hn

theorem Unused.perm (h : Unused zero slab live) {live' : List U64} (hp : live.Perm live') :
    Unused zero slab live' := fun y hy hn => h y hy fun hm => hn (hp.mem_iff.mp hm)

/-- The next object of a slab that never freed one is cleared. -/
theorem Ok.alloc_unused (h : Ok supply slab live) (hu : Unused zero slab live)
    (ha : slab.alloc zero supply = .ok (x, supply', slab')) :
    slab'.objects x = zero ∧ Unused zero slab' (x :: live) := by
  have hx := (h.alloc ha).not_live
  have hok := (h.alloc ha).ok
  have hall : ∀ y, y &&& pageAddressMask ∈ slab'.allocator.pages → y ∉ live →
      slab'.objects y = zero := by
    obtain ⟨⟨z, s, a, new⟩, hs, he⟩ := bind_eq_ok ha
    simp only [Except.ok.injEq, Prod.mk.injEq] at he
    obtain ⟨rfl, rfl, rfl⟩ := he
    obtain ⟨-, -, -, -, hpages, -⟩ := h.inv.alloc h.freshPages hs
    intro y hy hn
    rcases hpages with ⟨rfl, -, hp⟩ | ⟨p, rfl, -, hp⟩
    · exact hu y (hp ▸ hy) hn
    · change y &&& pageAddressMask ∈ a.pages at hy
      rw [hp, List.mem_cons] at hy
      rcases hy with rfl | hy
      · exact if_pos rfl
      · dsimp only [clearNew]
        split
        · rfl
        · exact hu y hy hn
  constructor
  · exact hall x (hok.mask_mem_pages List.mem_cons_self) hx
  · intro y hy hn
    exact hall y hy fun hm => hn (List.mem_cons_of_mem x hm)

end Slab

end Persistos
