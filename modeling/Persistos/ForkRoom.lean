import Persistos.ForkCopies
import Persistos.SlabInvariant

/-! Loading and FORK return as long as enough pages at the end of memory are free, and
what FORK then misses of a segment that starts inside a page. -/

namespace Persistos

open Theory

/-- The last `n` pages of the region are free. -/
def Room (k : Kmem) (n : Nat) : Prop :=
  n ≤ k.kmemTotalPages.toNat ∧
    ∀ i, k.kmemTotalPages.toNat - n ≤ i → i < k.kmemTotalPages.toNat → k.kmemPageArray i = .free

section Kernel

variable {k : Kmem} {r : KmemRun} {m : U64} {n n' : Nat}

theorem Room.mono (h : Room k n) (hn : n' ≤ n) : Room k n' :=
  ⟨Nat.le_trans hn h.1, fun i hi hi' => h.2 i (by omega) hi'⟩

theorem Room.kpageAlloc (h : Room k (n + m.toNat)) (hm : 1 ≤ m.toNat) :
    ∃ p k', kpageAlloc k m = .ok (p, k') ∧ Room k' n := by
  have hrun : Run (fun i => k.kmemPageArray i = .free)
      (k.kmemTotalPages.toNat - (n + m.toNat)) m.toNat :=
    fun i hi hi' => h.2 i hi (by have := h.1; omega)
  have hle := h.1
  cases ha : Persistos.kpageAlloc k m with
  | error e => exact absurd hrun ((kpageAlloc_error hm ha).2 _ (by omega))
  | ok a =>
    obtain ⟨p, k'⟩ := a
    obtain ⟨first, hfirst, -, rfl⟩ := kpageAlloc_ok hm ha
    have hleast := hfirst.least _ (by omega) hrun
    refine ⟨p, _, rfl, ?_⟩
    refine ⟨by simp only; omega, fun i hi hi' => ?_⟩
    dsimp only at hi hi' ⊢
    rw [markPages_apply, if_neg (by omega)]
    exact h.2 i (by omega) hi'

theorem Room.allocPages (h : Room r.kmem (n + m.toNat)) (hm : 1 ≤ m.toNat) :
    ∃ p r', r.allocPages m = .ok (p, r') ∧ Room r'.kmem n := by
  obtain ⟨p, k', ha, hr⟩ := h.kpageAlloc hm
  exact ⟨p, ⟨k', ⟨p, m⟩ :: r.live⟩, by rw [KmemRun.allocPages, ha]; rfl, hr⟩

theorem Room.allocPage (h : Room r.kmem (n + 1)) :
    ∃ p r', r.allocPage = .ok (p, r') ∧ Room r'.kmem n := by
  obtain ⟨p, k', ha, hr⟩ := h.kpageAlloc (m := 1) (by decide)
  exact ⟨p, ⟨k', ⟨p, 1⟩ :: r.live⟩, by rw [KmemRun.allocPage, ha], hr⟩

theorem Room.nextTable (mem : Memory) (hhdm entry : U64) (h : Room r.kmem (n + 1)) :
    ∃ u r' mem', nextTable KmemRun.allocPage hhdm r mem entry = .ok (u, r', mem') ∧
      Room r'.kmem n := by
  rw [Persistos.nextTable]
  split
  · obtain ⟨p, r', ha, hr⟩ := h.allocPage
    rw [ha]
    exact ⟨_, _, _, rfl, hr⟩
  · exact ⟨_, _, _, rfl, h.mono (Nat.le_add_right n 1)⟩

theorem Room.setPageMapping (mem : Memory) (hhdm pml4 virt : U64) {phys : U64} (isMmio : Bool)
    (hp : PageAligned phys) (h : Room r.kmem (n + 3)) :
    ∃ r' mem', setPageMapping KmemRun.allocPage hhdm r mem pml4 virt phys isMmio = .ok (r', mem') ∧
      Room r'.kmem n := by
  obtain ⟨t₁, r₁, m₁, h₁, hr₁⟩ := Room.nextTable mem hhdm
    (entryAddress pml4 (tableIndex virt 39)) (n := n + 2) h
  obtain ⟨t₂, r₂, m₂, h₂, hr₂⟩ := Room.nextTable m₁ hhdm
    (entryAddress t₁ (tableIndex virt 30)) (n := n + 1) hr₁
  obtain ⟨t₃, r₃, m₃, h₃, hr₃⟩ := Room.nextTable m₂ hhdm
    (entryAddress t₂ (tableIndex virt 21)) (n := n) hr₂
  refine ⟨r₃, writeWord m₃ (entryAddress t₃ (tableIndex virt 12)) (phys ||| if isMmio then
    pageTableMmioAttributes else pageTableAttributes), ?_, hr₃⟩
  simp only [Persistos.setPageMapping, and_pageOffset hp, ne_eq, not_true, if_false, h₁, h₂, h₃,
    ok_bind]

theorem Room.slabAlloc {s : UserSpace} {a : SlabAllocator} (ha : 0 < a.capacity)
    (h : Room s.kernel.kmem (n + 1)) :
    ∃ s' b, s.slabAlloc a = .ok (s', b) ∧ 0 < b.capacity ∧ Room s'.kernel.kmem n := by
  have hcap : ∀ {a b : SlabAllocator} {x : U64}, slabTryAlloc a = some (x, b) →
      b.capacity = a.capacity := by
    intro a b x ht
    obtain ⟨y, -, he⟩ := Option.map_eq_some_iff.mp ht
    obtain ⟨-, rfl⟩ := Prod.mk.inj he
    rfl
  cases ht : slabTryAlloc a with
  | some r =>
    refine ⟨⟨s.kernel, s.mem⟩, r.2, ?_, by rw [hcap ht]; exact ha, h.mono (Nat.le_add_right n 1)⟩
    rw [UserSpace.slabAlloc, Persistos.slabAlloc, ht]
    rfl
  | none =>
    obtain ⟨p, r', hp, hr⟩ := h.allocPage
    cases ht' : slabTryAlloc (a.addPage p) with
    | none =>
      exact absurd ((a.slotFree_addPage p p 0).mpr (Or.inl ⟨rfl, ha⟩))
        (slabTryAlloc_none ht' p (by omega))
    | some r =>
      refine ⟨⟨r', clearPage s.mem p⟩, r.2, ?_, by rw [hcap ht']; exact ha, hr⟩
      rw [UserSpace.slabAlloc, Persistos.slabAlloc, ht, hp]
      dsimp only
      rw [show slabTryAlloc { a with slabPages := newHeader a.objectsPerPage p :: a.slabPages } =
        some r from ht']
      rfl

end Kernel

section Loops

variable {s s₀ : UserSpace} {pml4 parent child v : U64} {n : Nat}

theorem Room.mapUserPage (hs : UserMap s pml4) (h : Room s.kernel.kmem (n + 4)) :
    ∃ f s', s.mapUserPage pml4 v = .ok (f, s') ∧ Room s'.kernel.kmem n := by
  obtain ⟨f, r, ha, hr⟩ := h.allocPage
  have hc : s.allocCleared = .ok (f, ⟨r, clearPage s.mem f⟩) := by
    rw [UserSpace.allocCleared, ha]
    rfl
  obtain ⟨halign, -, -⟩ := KmemRun.allocPage_frame hs.tables.kmem hs.tables.direct ha
  have hphys : PageAligned (f - UserSpace.hhdm ⟨r, clearPage s.mem f⟩) := by
    have hoff := hs.tables.direct.offset_aligned
    rw [UserSpace.hhdm, (KmemRun.allocPage_step ha).1.region.1]
    simp only [PageAligned] at halign hoff ⊢
    rw [BitVec.toNat_sub]
    omega
  obtain ⟨r', mem', hset, hr'⟩ := Room.setPageMapping (clearPage s.mem f)
    (UserSpace.hhdm ⟨r, clearPage s.mem f⟩) pml4 v false hphys hr
  refine ⟨f, ⟨r', mem'⟩, ?_, hr'⟩
  rw [UserSpace.mapUserPage, hc, ok_bind]
  simp only [hset, ok_bind]

/-- A loop over pages returns if its body does and there is room for every pass. -/
theorem forPages_room {I : UserSpace → Prop} {body : UserSpace → U64 → Except Crash UserSpace}
    {start stop : U64} (hstop : stop.toNat ≤ 2 ^ 47)
    (hbody : ∀ s p n, I s → PageAligned p → start.toNat ≤ p.toNat → p < stop →
      Room s.kernel.kmem (n + 4) → ∃ s', body s p = .ok s' ∧ I s' ∧ Room s'.kernel.kmem n)
    {m fuel : Nat} {p : U64} (hp : PageAligned p) (hle : start.toNat ≤ p.toNat)
    (hm : stop.toNat ≤ p.toNat + 4096 * m) (hfuel : m < fuel) (hs : I s)
    (hr : Room s.kernel.kmem (n + 4 * m)) :
    ∃ s' last, UserSpace.forPages body stop fuel s p = .ok (s', last) ∧ I s' ∧
      Room s'.kernel.kmem n := by
  induction m generalizing fuel s p with
  | zero =>
    obtain ⟨fuel, rfl⟩ : ∃ f, fuel = f + 1 := ⟨fuel - 1, by omega⟩
    have hge : ¬p < stop := fun hlt => by
      have hlt' : p.toNat < stop.toNat := hlt
      omega
    exact ⟨s, p, by rw [UserSpace.forPages, if_neg hge], hs, hr.mono (by omega)⟩
  | succ m ih =>
    obtain ⟨fuel, rfl⟩ : ∃ f, fuel = f + 1 := ⟨fuel - 1, by omega⟩
    rw [UserSpace.forPages]
    split
    · next hlt =>
      obtain ⟨s₁, hb, hs₁, hr₁⟩ := hbody s p (n + 4 * m) hs hp hle hlt (hr.mono (by omega))
      have hlt' : p.toNat < stop.toNat := hlt
      have hnext : (p + 0x1000).toNat = p.toNat + 4096 := by
        rw [BitVec.toNat_add, show (0x1000 : U64).toNat = 4096 from rfl]
        omega
      simp only [PageAligned] at hp
      rw [hb]
      exact ih (by simp only [PageAligned]; omega) (by omega) (by omega) (by omega) hs₁ hr₁
    · exact ⟨s, p, rfl, hs, hr.mono (by omega)⟩

/-- The passes of a loop over the pages of a range. -/
def passes (range : UserspaceMemoryRange) : Nat :=
  (range.stop.toNat - range.start.toNat / 4096 * 4096 + 4095) / 4096

theorem Room.setupUserspaceMemory {pages : Nat → Prop} {ranges : List UserspaceMemoryRange}
    (hs : Loaded pml4 s pages) (hstop : ∀ range ∈ ranges, range.stop.toNat ≤ 2 ^ 47)
    (h : Room s.kernel.kmem (n + 4 * (ranges.map passes).sum)) :
    ∃ s', s.setupUserspaceMemory pml4 ranges = .ok s' ∧ Room s'.kernel.kmem n := by
  have hbody : ∀ (start stop : U64), stop.toNat ≤ 2 ^ 47 → ∀ (s : UserSpace) (p : U64) (n : Nat),
      (∃ pages, Loaded pml4 s pages) → PageAligned p → start.toNat ≤ p.toNat → p < stop →
      Room s.kernel.kmem (n + 4) → ∃ s', UserSpace.mapPage pml4 s p = .ok s' ∧
        (∃ pages, Loaded pml4 s' pages) ∧ Room s'.kernel.kmem n := by
    rintro start stop hstop s p n ⟨pages, hs⟩ - - hlt hr
    obtain ⟨f, s', hm, hr'⟩ := hr.mapUserPage (v := p) hs.map
    have hlt' : p.toNat < stop.toNat := hlt
    exact ⟨s', by rw [UserSpace.mapPage, hm]; rfl, ⟨_, hs.mapUserPage (by omega) hm⟩, hr'⟩
  replace hs : ∃ pages, Loaded pml4 s pages := ⟨pages, hs⟩
  induction ranges generalizing s with
  | nil => exact ⟨s, rfl, h⟩
  | cons range ranges ih =>
    have hstop' := hstop range List.mem_cons_self
    have halign : PageAligned (range.start &&& pageAddressMask) := by
      simp only [PageAligned, mask_toNat]
      omega
    rw [List.map_cons, List.sum_cons, Nat.mul_add] at h
    have hpass : range.stop.toNat ≤
        (range.start &&& pageAddressMask).toNat + 4096 * passes range := by
      rw [mask_toNat, passes]
      omega
    have hfuel : passes range < s.pageFuel := by
      have hle := h.1
      rw [UserSpace.pageFuel]
      omega
    obtain ⟨s₁, last, hrun, hs₁, hr₁⟩ := forPages_room (n := n + 4 * (ranges.map passes).sum) hstop'
      (hbody (range.start &&& pageAddressMask) range.stop hstop') halign (Nat.le_refl _) hpass hfuel hs
      (h.mono (by omega))
    obtain ⟨s₂, hrun₂, hr₂⟩ := ih (fun r hr => hstop r (List.mem_cons_of_mem _ hr)) hr₁ hs₁
    refine ⟨s₂, ?_, hr₂⟩
    rw [UserSpace.setupUserspaceMemory, List.foldlM_cons, UserSpace.mapPages, hrun]
    exact hrun₂

theorem Room.addRanges {s : TaskMemory} {ranges : List UserspaceMemoryRange}
    (hcap : 0 < s.kernel.ranges.capacity) (h : Room s.kernel.space.kernel.kmem (n + ranges.length)) :
    ∃ s', ranges.foldlM TaskMemory.addRange s = .ok s' ∧ 0 < s'.kernel.ranges.capacity ∧
      s'.kernel.taskStructs = s.kernel.taskStructs ∧ s'.kernel.files = s.kernel.files ∧
      Room s'.kernel.space.kernel.kmem n := by
  induction ranges generalizing s with
  | nil => exact ⟨s, rfl, hcap, rfl, rfl, h⟩
  | cons range ranges ih =>
    obtain ⟨space, slab, ha, hcap', hr⟩ := Room.slabAlloc (n := n + ranges.length) hcap h
    obtain ⟨s', hs', hcap'', htask, hfiles, hr'⟩ := ih (s := ⟨{ s.kernel with
      space, ranges := slab }, s.memoryRangesLh ++ [range]⟩) hcap' hr
    refine ⟨s', ?_, hcap'', htask, hfiles, hr'⟩
    rw [List.foldlM_cons, TaskMemory.addRange, ha]
    exact hs'

theorem Room.loadElf64 {s : TaskMemory} {pages : Nat → Prop} {segmentHeaders : List Phdr}
    (hs : Loaded pml4 s.kernel.space pages) (hnil : s.memoryRangesLh = [])
    (hcap : 0 < s.kernel.ranges.capacity)
    (hstop : ∀ range ∈ elfRanges segmentHeaders, range.stop.toNat ≤ 2 ^ 47)
    (h : Room s.kernel.space.kernel.kmem (n + 4 * ((elfRanges segmentHeaders).map passes).sum +
      (elfRanges segmentHeaders).length)) :
    ∃ s', s.loadElf64 pml4 segmentHeaders = .ok s' ∧ 0 < s'.kernel.ranges.capacity ∧
      s'.kernel.taskStructs = s.kernel.taskStructs ∧ Room s'.kernel.space.kernel.kmem n := by
  obtain ⟨s₁, h₁, hcap₁, htask, -, hr₁⟩ := Room.addRanges hcap h
  obtain ⟨hl₁, hrs⟩ := hs.addRanges h₁
  rw [hnil, List.nil_append] at hrs
  obtain ⟨space, hsetup, hr₂⟩ := Room.setupUserspaceMemory hl₁ hstop hr₁
  refine ⟨⟨{ s₁.kernel with space }, s₁.memoryRangesLh⟩, ?_, hcap₁, htask, hr₂⟩
  rw [TaskMemory.loadElf64, h₁, ok_bind, hrs, hsetup]
  rfl

theorem Room.cloneRange {pages : Nat → Prop} {k : UserKernel} {range : UserspaceMemoryRange}
    (hs : Cloning s₀ parent child k.space pages)
    (hstart : PageAligned range.start ∨ range.stop ≤ range.start) (hstop : range.stop.toNat ≤ 2 ^ 47)
    (hmapped : ∀ v : U64, v.toNat < 2 ^ 47 → ForkCovers range (v.toNat / 4096) →
      (s₀.frameAt parent v).isSome) (hcap : 0 < k.ranges.capacity)
    (h : Room k.space.kernel.kmem (n + 4 * passes range + 1)) :
    ∃ k', Persistos.cloneRange parent child k range = .ok k' ∧ 0 < k'.ranges.capacity ∧
      Room k'.space.kernel.kmem n := by
  obtain ⟨space, slab, ha, hcap', hr⟩ := Room.slabAlloc hcap h
  have h₁ := hs.aside (UserSpace.slabAlloc_aside hs.parentMap.tables.kmem hs.parentMap.tables.direct ha)
  have hfuel : passes range < space.pageFuel := by
    have hle := hr.1
    rw [UserSpace.pageFuel]
    omega
  have hloop : ∃ space' last, UserSpace.forPages (UserSpace.clonePage parent child) range.stop
      space.pageFuel space range.start = .ok (space', last) ∧ Room space'.kernel.kmem n := by
    by_cases hlt : range.start < range.stop
    · have halign : PageAligned range.start := hstart.resolve_right (BitVec.not_le.mpr hlt)
      have hpass : range.stop.toNat ≤ range.start.toNat + 4096 * passes range := by
        rw [passes]
        omega
      have hbody : ∀ (s : UserSpace) (p : U64) (n : Nat), (∃ pages, Cloning s₀ parent child s pages) →
          PageAligned p → range.start.toNat ≤ p.toNat → p < range.stop →
          Room s.kernel.kmem (n + 4) → ∃ s', UserSpace.clonePage parent child s p = .ok s' ∧
            (∃ pages, Cloning s₀ parent child s' pages) ∧ Room s'.kernel.kmem n := by
        rintro s p n ⟨pages, hs⟩ hp hle hps hr
        have hps' : p.toNat < range.stop.toNat := hps
        obtain ⟨f, s₁, hm, hr₁⟩ := hr.mapUserPage (v := p) hs.childMap
        have hcov : ForkCovers range (p.toNat / 4096) := by
          refine ⟨hlt, ?_⟩
          simp only [Between, PageAligned] at hp ⊢
          omega
        have hmap := hmapped p (by omega) hcov
        obtain ⟨g, hg⟩ := Option.isSome_iff_exists.mp hmap
        obtain ⟨-, -, -, -, mem, hcopy, -⟩ := hs.copyPage hp (by omega) hg hm
        refine ⟨⟨s₁.kernel, mem⟩, ?_, ⟨_, hs.clonePage hp (by omega) hmap hm hcopy⟩, hr₁⟩
        rw [UserSpace.clonePage, hm]
        exact hcopy
      obtain ⟨space', last, hrun, -, hr'⟩ := forPages_room
        (I := fun s => ∃ pages, Cloning s₀ parent child s pages) hstop hbody halign
        (Nat.le_refl _) hpass hfuel ⟨pages, h₁⟩ hr
      exact ⟨space', last, hrun, hr'⟩
    · refine ⟨space, range.start, ?_, hr.mono (by omega)⟩
      rw [UserSpace.pageFuel, UserSpace.forPages, if_neg hlt]
  obtain ⟨space', last, hrun, hr'⟩ := hloop
  refine ⟨{ k with space := space', ranges := slab }, ?_, hcap', hr'⟩
  rw [Persistos.cloneRange, ha]
  dsimp only [ok_bind]
  rw [hrun]
  rfl

theorem Room.cloneRanges {pages : Nat → Prop} {k : UserKernel}
    {ranges : List UserspaceMemoryRange} (hs : Cloning s₀ parent child k.space pages)
    (hstart : ∀ range ∈ ranges, PageAligned range.start ∨ range.stop ≤ range.start)
    (hstop : ∀ range ∈ ranges, range.stop.toNat ≤ 2 ^ 47)
    (hmapped : ∀ range ∈ ranges, ∀ v : U64, v.toNat < 2 ^ 47 →
      ForkCovers range (v.toNat / 4096) → (s₀.frameAt parent v).isSome)
    (hcap : 0 < k.ranges.capacity)
    (h : Room k.space.kernel.kmem (n + 4 * (ranges.map passes).sum + ranges.length)) :
    ∃ k', ranges.foldlM (Persistos.cloneRange parent child) k = .ok k' ∧
      Room k'.space.kernel.kmem n := by
  induction ranges generalizing k pages with
  | nil => exact ⟨k, rfl, h⟩
  | cons range ranges ih =>
    have hr := List.mem_cons_self (a := range) (l := ranges)
    rw [List.map_cons, List.sum_cons, List.length_cons, Nat.mul_add] at h
    obtain ⟨k₁, h₁, hcap₁, hr₁⟩ := Room.cloneRange
      (n := n + 4 * (ranges.map passes).sum + ranges.length) hs (hstart _ hr) (hstop _ hr)
      (hmapped _ hr) hcap (h.mono (by omega))
    obtain ⟨k', hk', hr'⟩ := ih (hs.cloneRange (hstart _ hr) (hstop _ hr) (hmapped _ hr) h₁)
      (fun r hr => hstart r (List.mem_cons_of_mem _ hr))
      (fun r hr => hstop r (List.mem_cons_of_mem _ hr))
      (fun r hr => hmapped r (List.mem_cons_of_mem _ hr)) hcap₁ hr₁
    refine ⟨k', ?_, hr'⟩
    rw [List.foldlM_cons, h₁]
    exact hk'

/-- FORK of a task without open files returns if there is room for the child. -/
theorem Room.forkMemory {s : TaskMemory} (hs : UserMap s.kernel.space parent)
    (hstart : ∀ range ∈ s.memoryRangesLh, PageAligned range.start ∨ range.stop ≤ range.start)
    (hstop : ∀ range ∈ s.memoryRangesLh, range.stop.toNat ≤ 2 ^ 47)
    (hmapped : ∀ range ∈ s.memoryRangesLh, ∀ v : U64, v.toNat < 2 ^ 47 →
      ForkCovers range (v.toNat / 4096) → (s.kernel.space.frameAt parent v).isSome)
    (hcap : 0 < s.kernel.ranges.capacity) (hcap' : 0 < s.kernel.taskStructs.capacity)
    (h : Room s.kernel.space.kernel.kmem
      (4 * (s.memoryRangesLh.map passes).sum + s.memoryRangesLh.length + 4)) :
    ∃ k child, Persistos.forkMemory s parent [] = .ok (k, child) := by
  obtain ⟨space, slab, ha, -, hr⟩ := Room.slabAlloc hcap' h
  obtain ⟨b, kernel, hb, hr⟩ := Room.allocPages (m := 2)
    (n := 4 * (s.memoryRangesLh.map passes).sum + s.memoryRangesLh.length + 1) hr (by decide)
  obtain ⟨f, kernel', hp, hr⟩ := hr.allocPage
  have hc : UserSpace.allocCleared ⟨kernel, space.mem⟩ = .ok (f, ⟨kernel', clearPage space.mem f⟩) := by
    rw [UserSpace.allocCleared, hp]
    rfl
  have h₀ := hs.cloning (UserSpace.slabAlloc_aside hs.tables.kmem hs.tables.direct ha) hb hc
  obtain ⟨k, hk, -⟩ := Room.cloneRanges (n := 0) (k := { s.kernel with
    space := UserSpace.copyUpperHalf ⟨kernel', clearPage space.mem f⟩ parent f, taskStructs := slab })
    h₀ hstart hstop hmapped hcap (hr.mono (by omega))
  refine ⟨k, f, ?_⟩
  rw [Persistos.forkMemory, ha]
  dsimp only [ok_bind]
  rw [hb]
  dsimp only [ok_bind]
  rw [hc]
  dsimp only [ok_bind]
  rw [hk]
  rfl

end Loops

/-- Sixteen megabytes of memory from the second megabyte on. -/
def sixteenMegabytes : Kmem where
  hhdmOffset := 0xffff800000000000
  kmemStart := 0xffff800000100000
  kmemLength := 0x1000000
  kmemTotalPages := 0x1000
  kmemPageArray i := if i < 2 then .pageArray else .free
  kmemUsedPages := 0

theorem sixteenMegabytes_init :
    kmemInit (some 0xffff800000000000) (some [⟨0x100000, 0x1000000, 0⟩]) = .ok sixteenMegabytes := rfl

theorem sixteenMegabytes_directMap : DirectMap sixteenMegabytes :=
  ⟨by decide, by decide, by decide, by decide⟩

/-- That memory after the first frame was allocated for a PML4. -/
theorem freshKernel : ∃ r : KmemRun, KmemReachable sixteenMegabytes r ∧
    EmptyLowerHalf r (fun _ => 0) 0xffff800000102000 ∧ Room r.kmem 4093 := by
  have hroom : Room sixteenMegabytes 4094 := by
    refine ⟨by decide, fun i hi _ => if_neg ?_⟩
    simp only [show sixteenMegabytes.kmemTotalPages.toNat = 4096 from rfl] at hi
    omega
  have hrun : ∃ k, kpageAlloc sixteenMegabytes 1 = .ok (0xffff800000102000, k) := ⟨_, rfl⟩
  obtain ⟨k, hk⟩ := hrun
  obtain ⟨p, k', hk', hroom'⟩ := Room.kpageAlloc (m := 1) (n := 4093) hroom (by decide)
  obtain ⟨rfl, rfl⟩ := Prod.mk.inj (Except.ok.inj (hk.symm.trans hk'))
  exact ⟨⟨k, [⟨0xffff800000102000, 1⟩]⟩, .single (.alloc (n := 1) (by decide) hk),
    ⟨by decide, List.mem_cons_self, fun _ _ => rfl⟩, hroom'⟩

/-- A task whose PML4 is the first frame of that memory. -/
theorem freshTask : ∃ k : UserKernel, KmemReachable sixteenMegabytes k.space.kernel ∧
    EmptyLowerHalf k.space.kernel k.space.mem 0xffff800000102000 ∧
    Room k.space.kernel.kmem 4093 ∧ 0 < k.ranges.capacity ∧ 0 < k.taskStructs.capacity := by
  obtain ⟨r, hr, hempty, hroom⟩ := freshKernel
  have hcap : 0 < (slabOf 40).capacity ∧ 0 < (slabOf 344).capacity := by decide
  exact ⟨⟨⟨r, fun _ => 0⟩, slabOf 344, slabOf 40, slabOf 40⟩, hr, hempty, hroom, hcap.1, hcap.2⟩

/-- A segment without bytes that starts inside a page. The loader maps its page, and the
child does not get it. -/
theorem fork_misses_page : ∃ (k : UserKernel) (s : TaskMemory) (k' : UserKernel) (child : U64),
    Relation.ReflTransGen (MemoryStep 0xffff800000102000 fun _ => True) ⟨k, []⟩ s ∧
      s.memoryRangesLh = elfRanges [⟨0x400100, 0⟩] ∧
      forkMemory s 0xffff800000102000 [] = .ok (k', child) ∧
      ¬CopiedSpace s.kernel.space k'.space 0xffff800000102000 child := by
  obtain ⟨k, hk, hempty, hroom, hcap, hcap'⟩ := freshTask
  have hranges : elfRanges [⟨0x400100, 0⟩] = [⟨0x400100, 0x400100, .normal⟩,
      ⟨0x401000, 0x402000, .heap⟩, stackRange] := by decide
  have hstop : ∀ range ∈ elfRanges [⟨0x400100, 0⟩], range.stop.toNat ≤ 2 ^ 47 := by
    rw [hranges]
    decide
  have hinv := hempty.taskInv (hk.inv sixteenMegabytes_init)
    (hk.directMap sixteenMegabytes_directMap).1
  obtain ⟨s, hs, hcap, htask, hroom⟩ := Room.loadElf64 (n := 1100) hinv.loaded rfl hcap hstop
    (hroom.mono (by rw [hranges]; decide))
  obtain ⟨hlist, hloaded⟩ := hinv.loaded.loadElf64 rfl hstop hs
  have hstart : ∀ range ∈ s.memoryRangesLh, PageAligned range.start ∨ range.stop ≤ range.start := by
    rw [hlist, hranges]
    decide
  rw [← hlist] at hstop
  have hmapped : ∀ range ∈ s.memoryRangesLh, ∀ v : U64, v.toNat < 2 ^ 47 →
      ForkCovers range (v.toNat / 4096) →
      (s.kernel.space.frameAt 0xffff800000102000 v).isSome := by
    intro range hr v hv hcov
    exact (hloaded.mapped v hv).mpr (Or.inr ⟨range, hlist ▸ hr, hcov.2⟩)
  obtain ⟨k', child, hfork⟩ := Room.forkMemory hloaded.map hstart hstop hmapped hcap
    (by rw [htask]; exact hcap') (hroom.mono (by rw [hlist, hranges]; decide))
  refine ⟨k, s, k', child, .single (.load trivial rfl hs), hlist, hfork, fun hcopied => ?_⟩
  have hclone := hloaded.map.forkMemory hstart hstop hmapped hfork
  have hv : (0x400000 : U64).toNat < 2 ^ 47 := by decide
  have hparent : (k'.space.frameAt 0xffff800000102000 0x400000).isSome := by
    rw [(hcopied.parent_kept _ hv).1, hloaded.mapped _ hv]
    exact Or.inr ⟨⟨0x400100, 0x400100, .normal⟩, by rw [hranges]; exact List.mem_cons_self,
      by decide⟩
  have hchild := (hclone.childPages _ hv).mp ((hcopied.same_pages _ hv).mpr hparent)
  rw [hlist, hranges] at hchild
  exact absurd hchild (by decide)

theorem fork_copies_address_space_one_segment :
    ∃ (s : TaskMemory) (k' : UserKernel) (child : U64),
      s.memoryRangesLh = elfRanges [⟨0x400000, 0x1000⟩] ∧
      forkMemory s 0xffff800000102000 [] = .ok (k', child) ∧
      CopiedSpace s.kernel.space k'.space 0xffff800000102000 child := by
  obtain ⟨k, hk, hempty, hroom, hcap, hcap'⟩ := freshTask
  have hbounded : PageBounded (.load [⟨0x400000, 0x1000⟩]) := by
    have hh : segmentRanges [⟨0x400000, 0x1000⟩] = [⟨0x400000, 0x401000, .normal⟩] := by decide
    simp only [PageBounded, hh]
    decide
  have hok := elfRanges_ok hbounded
  have hinv := hempty.taskInv (hk.inv sixteenMegabytes_init)
    (hk.directMap sixteenMegabytes_directMap).1
  obtain ⟨s, hs, hcap, htask, hroom⟩ := Room.loadElf64 (n := 1100) hinv.loaded rfl hcap
    (fun r hr => (hok r hr).stop) (hroom.mono (by decide))
  have hstep : MemoryStep 0xffff800000102000 PageBounded ⟨k, []⟩ s := .load hbounded rfl hs
  have hlist := (hinv.loaded.loadElf64 rfl (fun r hr => (hok r hr).stop) hs).1
  have hinv' := hstep.inv hinv
  obtain ⟨k', child, hfork⟩ := Room.forkMemory hinv'.loaded.map
    (fun r hr => (hinv'.ranges r hr).forkStart) (fun r hr => (hinv'.ranges r hr).stop)
    (fun r hr v hv hcov => (hinv'.loaded.mapped v hv).mpr ⟨r, hr, hcov.2⟩) hcap
    (by rw [htask]; exact hcap') (hroom.mono (by rw [hlist]; decide))
  exact ⟨s, k', child, hlist, hfork, fork_copies_address_space sixteenMegabytes_init
    sixteenMegabytes_directMap hk hempty (.single hstep) hfork⟩

end Persistos
