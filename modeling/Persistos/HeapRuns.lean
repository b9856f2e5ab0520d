import Persistos.ForkRoom
import Persistos.Malloc
import Persistos.Theory.Stacked

/-! A program that EXEC has started calls `malloc` and `free` and writes to its memory. The
heap is sound as long as it stays in the lower half: BRK compares the address it is given
with no bound, and maps pages over the stack and past the end of user memory. -/

namespace Persistos

open Theory

/-- `blocks` are all blocks that `malloc` returned, the last one first. -/
structure HeapProcess where
  task : TaskMemory
  libc : Libc
  blocks : List Interval

def asked (blocks : List Interval) : Nat := (blocks.map Theory.Interval.length).sum

/-- The program calls `malloc` or `free`, it or the kernel for it writes a byte of its
memory, but none of the heap outside the blocks, or something happens that leaves its
frames allocated and writes elsewhere. -/
inductive HeapStep (pml4 : U64) (p : HeapProcess) : HeapProcess → Prop where
  | malloc {size addr : U64} {libc : Libc} {task : TaskMemory}
      (h : malloc p.libc p.task pml4 size = .ok (addr, libc, task)) :
      HeapStep pml4 p ⟨task, libc, ⟨addr.toNat, size.toNat⟩ :: p.blocks⟩
  | free (addr : U64) : HeapStep pml4 p ⟨p.task, free p.libc addr, p.blocks⟩
  | write {v : U64} {b : U8} {space : UserSpace} (hv : v.toNat < 2 ^ 47)
      (hheap : p.libc.heapBottom ≤ v → v < p.libc.programBreak →
        ∃ block ∈ p.blocks, v.toNat ∈ block)
      (h : p.task.kernel.space.writeUser pml4 v b = .ok space) :
      HeapStep pml4 p ⟨⟨{ p.task.kernel with space }, p.task.memoryRangesLh⟩, p.libc, p.blocks⟩
  | elsewhere {k : UserKernel}
      (h : Relation.ReflTransGen KmemStep p.task.kernel.space.kernel k.space.kernel)
      (hkeep : ∀ t, p.task.kernel.space.Owns pml4 t → ⟨t, 1⟩ ∈ k.space.kernel.live)
      (hmem : ∀ a, p.task.kernel.space.Owns pml4 (a &&& pageAddressMask) →
        k.space.mem a = p.task.kernel.space.mem a) :
      HeapStep pml4 p ⟨⟨k, p.task.memoryRangesLh⟩, p.libc, p.blocks⟩

/-- The image and the heap with `total` bytes asked for stay in the lower half, and a
segment that passes the end of the address space starts above them. -/
structure HeapFits (segmentHeaders : List Phdr) (copies : List (U64 × List U8)) (total : Nat) :
    Prop where
  image : (largestEndAddress (segmentRanges segmentHeaders)).toNat ≤ 2 ^ 47 - 4096
  copied : ∀ copy ∈ copies, copy.1.toNat + copy.2.length ≤ 2 ^ 47
  heap : (imageHeap segmentHeaders).stop.toNat + total ≤ 2 ^ 47
  segments : ∀ segmentHeader ∈ segmentHeaders,
    segmentHeader.pVaddr.toNat + segmentHeader.pMemsz.toNat < 2 ^ 64 ∨
      (imageHeap segmentHeaders).stop.toNat + total ≤ segmentHeader.pVaddr.toNat

structure HeapSound (pml4 : U64) (segmentHeaders : List Phdr) (p : HeapProcess) : Prop where
  top_le : p.libc.heapTop ≤ p.libc.programBreak
  break_eq : ∃ heap, p.task.heap = some heap ∧ heap.stop = p.libc.programBreak
  mapped : ∀ block ∈ p.blocks, ∀ i ∈ block,
    i < 2 ^ 47 ∧ (p.task.kernel.space.readUser pml4 (BitVec.ofNat 64 i)).isSome
  apart : p.blocks.Pairwise Interval.Apart
  outside : ∀ block ∈ p.blocks, ∀ segmentHeader ∈ segmentHeaders, ∀ v : U64,
    segmentHeader.Covers v → v.toNat ∉ block

/-- The pages up to the break are mapped, and zero from the top of the heap on. -/
structure HeapInv (pml4 : U64) (segmentHeaders : List Phdr) (p : HeapProcess) : Prop where
  own : OwnFrames pml4 p.task.kernel.space
  heap : ∃ heap, p.task.heap = some heap ∧ heap.stop = p.libc.programBreak
  aligned : PageAligned p.libc.programBreak
  below : p.libc.programBreak.toNat ≤ 2 ^ 47
  bottom : p.libc.heapBottom = (imageHeap segmentHeaders).stop
  top_le : p.libc.heapTop.toNat ≤ p.libc.programBreak.toNat
  stacked : Stacked p.libc.heapBottom.toNat p.blocks p.libc.heapTop.toNat
  mapped : ∀ v : U64, p.libc.heapBottom.toNat ≤ v.toNat → v.toNat < p.libc.programBreak.toNat →
    (p.task.kernel.space.readUser pml4 v).isSome
  zero : ∀ v : U64, p.libc.heapTop.toNat ≤ v.toNat → v.toNat < p.libc.programBreak.toNat →
    p.task.kernel.space.readUser pml4 v = some 0

section Steps

variable {pml4 : U64} {segmentHeaders : List Phdr} {copies : List (U64 × List U8)}
  {p p' : HeapProcess}

theorem HeapFits.mono {total total' : Nat} (h : HeapFits segmentHeaders copies total)
    (hle : total' ≤ total) : HeapFits segmentHeaders copies total' where
  image := h.image
  copied := h.copied
  heap := Nat.le_trans (Nat.add_le_add_left hle _) h.heap
  segments := fun segmentHeader hs => (h.segments segmentHeader hs).imp_right
    (Nat.le_trans (Nat.add_le_add_left hle _))

theorem HeapStep.asked_le (h : HeapStep pml4 p p') : asked p.blocks ≤ asked p'.blocks := by
  cases h with
  | malloc h =>
    rw [asked, asked, List.map_cons, List.sum_cons]
    exact Nat.le_add_left _ _
  | free addr => exact Nat.le_refl _
  | write hv hheap h => exact Nat.le_refl _
  | elsewhere h hkeep hmem => exact Nat.le_refl _

theorem HeapInv.top_eq (h : HeapInv pml4 segmentHeaders p) :
    p.libc.heapTop.toNat = (imageHeap segmentHeaders).stop.toNat + asked p.blocks := by
  rw [← h.bottom]
  exact h.stacked.top_eq

/-- `malloc` returns the top of the heap, with zeros from there on. -/
theorem HeapInv.malloc {size addr : U64} {libc : Libc} {task : TaskMemory}
    (h : HeapInv pml4 segmentHeaders p) (hfits : p.libc.heapTop.toNat + size.toNat ≤ 2 ^ 47)
    (hm : malloc p.libc p.task pml4 size = .ok (addr, libc, task)) :
    HeapInv pml4 segmentHeaders ⟨task, libc, ⟨addr.toNat, size.toNat⟩ :: p.blocks⟩ ∧
      addr = p.libc.heapTop ∧ ∀ v : U64, addr.toNat ≤ v.toNat → v.toNat < addr.toNat + size.toNat →
        task.kernel.space.readUser pml4 v = some 0 := by
  have htop : (p.libc.heapTop + size).toNat = p.libc.heapTop.toNat + size.toNat := by
    rw [BitVec.toNat_add]
    omega
  have hle := h.top_le
  have hal := h.aligned
  have hbelow := h.below
  have hbottom := h.stacked.bottom_le
  simp only [PageAligned] at hal
  rw [Persistos.malloc] at hm
  split at hm
  · next hlt =>
    have hlt' : p.libc.programBreak.toNat < p.libc.heapTop.toNat + size.toNat :=
      htop ▸ BitVec.lt_def.mp hlt
    obtain ⟨⟨task', brk⟩, hs, he⟩ := bind_eq_ok hm
    simp only [Except.ok.injEq, Prod.mk.injEq] at he
    obtain ⟨rfl, rfl, rfl⟩ := he
    obtain ⟨heap, hheap, hstop⟩ := h.heap
    have hne : p.libc.heapTop + size ≠ 0 := by
      intro he
      rw [he] at htop
      have hz : (0 : U64).toNat = 0 := rfl
      omega
    obtain ⟨hfresh, hheap', hal', hle₁, hle₂, hle₃⟩ := h.own.sysBrk hheap (hstop ▸ h.aligned)
      (hstop ▸ h.below) hne (by omega) hs
    rw [hstop] at hfresh hle₁
    rw [htop] at hle₂
    -- an address from the old break on lies in a new page, one below it in an old page
    have hnew : ∀ v : U64, p.libc.programBreak.toNat ≤ v.toNat → v.toNat < brk.toNat →
        task'.kernel.space.readUser pml4 v = some 0 := by
      intro v h₁ h₂
      refine hfresh.zero v (by omega) ?_
      simp only [Between]
      omega
    have hold : ∀ v : U64, v.toNat < p.libc.programBreak.toNat →
        task'.kernel.space.readUser pml4 v = p.task.kernel.space.readUser pml4 v := by
      intro v hv
      refine hfresh.kept v (by omega) ?_
      simp only [Between]
      omega
    have hzero : ∀ v : U64, p.libc.heapTop.toNat ≤ v.toNat → v.toNat < brk.toNat →
        task'.kernel.space.readUser pml4 v = some 0 := by
      intro v h₁ h₂
      by_cases hv : v.toNat < p.libc.programBreak.toNat
      · rw [hold v hv]
        exact h.zero v h₁ hv
      · exact hnew v (by omega) h₂
    refine ⟨⟨hfresh.own, ⟨_, hheap', rfl⟩, hal', hle₃, h.bottom, ?_, ?_, ?_, ?_⟩, rfl, ?_⟩
    · exact htop ▸ hle₂
    · exact htop ▸ .cons size.toNat h.stacked
    · intro v h₁ h₂
      by_cases hv : v.toNat < p.libc.programBreak.toNat
      · rw [hold v hv]
        exact h.mapped v h₁ hv
      · rw [hnew v (by omega) h₂]
        rfl
    · intro v h₁ h₂
      dsimp only at h₁
      exact hzero v (by omega) h₂
    · exact fun v h₁ h₂ => hzero v h₁ (by omega)
  · next hge =>
    have hge' : p.libc.heapTop.toNat + size.toNat ≤ p.libc.programBreak.toNat :=
      htop ▸ Nat.le_of_not_lt fun hlt => hge (BitVec.lt_def.mpr hlt)
    simp only [Except.ok.injEq, Prod.mk.injEq] at hm
    obtain ⟨rfl, rfl, rfl⟩ := hm
    refine ⟨⟨h.own, h.heap, h.aligned, h.below, h.bottom, ?_, ?_, h.mapped, ?_⟩, rfl, ?_⟩
    · exact htop ▸ hge'
    · exact htop ▸ .cons size.toNat h.stacked
    · intro v h₁ h₂
      dsimp only at h₁
      exact h.zero v (by omega) h₂
    · exact fun v h₁ h₂ => h.zero v h₁ (by omega)

/-- A step that keeps what the heap reads keeps the heap. -/
theorem HeapInv.keep {k : UserKernel} (h : HeapInv pml4 segmentHeaders p)
    (hown : OwnFrames pml4 k.space)
    (hmapped : ∀ v : U64, v.toNat < 2 ^ 47 → (p.task.kernel.space.readUser pml4 v).isSome →
      (k.space.readUser pml4 v).isSome)
    (hzero : ∀ v : U64, p.libc.heapTop.toNat ≤ v.toNat → v.toNat < p.libc.programBreak.toNat →
      k.space.readUser pml4 v = p.task.kernel.space.readUser pml4 v) :
    HeapInv pml4 segmentHeaders ⟨⟨k, p.task.memoryRangesLh⟩, p.libc, p.blocks⟩ where
  own := hown
  heap := h.heap
  aligned := h.aligned
  below := h.below
  bottom := h.bottom
  top_le := h.top_le
  stacked := h.stacked
  mapped := fun v h₁ h₂ =>
    hmapped v (Nat.lt_of_lt_of_le h₂ h.below) (h.mapped v h₁ h₂)
  zero := fun v h₁ h₂ => (hzero v h₁ h₂).trans (h.zero v h₁ h₂)

theorem HeapStep.inv (hs : HeapStep pml4 p p') (h : HeapInv pml4 segmentHeaders p)
    (hfits : (imageHeap segmentHeaders).stop.toNat + asked p'.blocks ≤ 2 ^ 47) :
    HeapInv pml4 segmentHeaders p' := by
  cases hs with
  | @malloc size addr libc task hm =>
    refine (h.malloc ?_ hm).1
    rw [h.top_eq]
    simp only [asked, List.map_cons, List.sum_cons] at hfits ⊢
    omega
  | free addr => exact h
  | @write v b space hv hheap hw =>
    obtain ⟨hown, hread⟩ := h.own.writeUser hv hw
    refine h.keep (k := { p.task.kernel with space }) hown (fun w hw hsome => ?_)
      fun w h₁ h₂ => ?_
    · rw [hread w hw]
      split
      · rfl
      · exact hsome
    · have hne : w ≠ v := by
        rintro rfl
        have hle := Nat.le_trans h.stacked.bottom_le h₁
        obtain ⟨block, hb, hi⟩ := hheap (BitVec.le_def.mpr hle) (BitVec.lt_def.mpr h₂)
        exact absurd (h.stacked.within hb hi).2 (Nat.not_lt.mpr h₁)
      rw [hread w (Nat.lt_of_lt_of_le h₂ h.below), if_neg hne]
  | @elsewhere k hk hkeep hmem =>
    obtain ⟨hmap, hframe, -⟩ := h.own.map.congr k.space hk hkeep fun a ha => hmem a (Or.inl ha)
    have hread : ∀ v : U64, v.toNat < 2 ^ 47 →
        k.space.readUser pml4 v = p.task.kernel.space.readUser pml4 v := by
      intro v hv
      refine h.own.map.readUser_congr hv (hframe v hv) ?_
      rintro f hf a rfl
      exact hmem a (Or.inr ⟨v, hv, hf⟩)
    refine h.keep (h.own.congr hmap hframe) (fun v hv hsome => ?_) fun v h₁ h₂ => ?_
    · rwa [hread v hv]
    · exact hread v (Nat.lt_of_lt_of_le h₂ h.below)

theorem HeapInv.run (h : HeapInv pml4 segmentHeaders p)
    (hrun : Relation.ReflTransGen (HeapStep pml4) p p')
    (hfits : (imageHeap segmentHeaders).stop.toNat + asked p'.blocks ≤ 2 ^ 47) :
    HeapInv pml4 segmentHeaders p' := by
  induction hrun with
  | refl => exact h
  | tail _ hstep ih =>
    have hle := hstep.asked_le
    exact hstep.inv (ih (by omega)) hfits

theorem Phdr.end_le_imageHeap {segmentHeader : Phdr} (h : segmentHeader ∈ segmentHeaders)
    (himage : (largestEndAddress (segmentRanges segmentHeaders)).toNat ≤ 2 ^ 47 - 4096)
    (hm : segmentHeader.pMemsz.toNat ≠ 0) :
    (segmentHeader.pVaddr + segmentHeader.pMemsz).toNat ≤
      (imageHeap segmentHeaders).stop.toNat := by
  have hnull : ¬(segmentHeader.pVaddr = 0 ∧ segmentHeader.pMemsz = 0) := by
    rintro ⟨-, hz⟩
    rw [hz] at hm
    exact hm rfl
  have hrange : segmentRange segmentHeader ∈ segmentRanges segmentHeaders :=
    List.mem_map_of_mem (List.mem_filter.mpr ⟨h, decide_eq_true hnull⟩)
  obtain ⟨hok, hle⟩ := heapRange_ok himage
  calc (segmentHeader.pVaddr + segmentHeader.pMemsz).toNat
      ≤ (largestEndAddress (segmentRanges segmentHeaders)).toNat := le_largestEndAddress hrange
    _ ≤ (imageHeap segmentHeaders).start.toNat := hle
    _ ≤ (imageHeap segmentHeaders).stop.toNat := (hok.heap rfl).2.2

theorem HeapInv.sound (h : HeapInv pml4 segmentHeaders p)
    (hfits : HeapFits segmentHeaders copies (asked p.blocks)) :
    HeapSound pml4 segmentHeaders p where
  top_le := BitVec.le_def.mpr h.top_le
  break_eq := h.heap
  mapped := by
    intro block hb i hi
    obtain ⟨h₁, h₂⟩ := h.stacked.within hb hi
    have hle := h.top_le
    have hbelow := h.below
    have hi' : (BitVec.ofNat 64 i).toNat = i := by
      rw [BitVec.toNat_ofNat]
      omega
    exact ⟨by omega, h.mapped _ (by omega) (by omega)⟩
  apart := h.stacked.apart
  outside := by
    intro block hb segmentHeader hs v hcov hv
    obtain ⟨h₁, h₂⟩ := h.stacked.within hb hv
    have hcov' : (v - segmentHeader.pVaddr).toNat < segmentHeader.pMemsz.toNat :=
      BitVec.lt_def.mp hcov
    rw [BitVec.toNat_sub] at hcov'
    have hbelow := Phdr.end_le_imageHeap hs hfits.image (by omega)
    have htop := h.top_eq
    rw [h.bottom] at h₁
    rw [BitVec.toNat_add] at hbelow
    rcases hfits.segments segmentHeader hs with hin | habove
    · omega
    · omega

theorem HeapInv.start {k : UserKernel} {libc : Libc} {task : TaskMemory}
    (h : OwnFrames pml4 k.space) (hfits : HeapFits segmentHeaders copies 0)
    (hs : startProcess ⟨k, []⟩ pml4 segmentHeaders copies = .ok (libc, task)) :
    HeapInv pml4 segmentHeaders ⟨task, libc, []⟩ := by
  obtain ⟨task₁, hload, hs⟩ := bind_eq_ok hs
  obtain ⟨space, hcopy, hs⟩ := bind_eq_ok hs
  obtain ⟨hown, hranges⟩ := h.loadElf64 (t := ⟨k, []⟩) rfl (elfRanges_stop_le hfits.image) hload
  have hheap : TaskMemory.heap ⟨{ task₁.kernel with space }, task₁.memoryRangesLh⟩ =
      some (imageHeap segmentHeaders) := by
    rw [TaskMemory.heap, hranges]
    exact find_heap_elfRanges segmentHeaders
  rw [libcInit_eq hheap] at hs
  obtain ⟨rfl, rfl⟩ := Prod.mk.inj (Except.ok.inj hs)
  have hok := (heapRange_ok hfits.image).1
  exact ⟨hown.copyImage hfits.copied hcopy, ⟨_, hheap, rfl⟩, (hok.heap rfl).2.1, hok.stop, rfl,
    Nat.le_refl _, .nil, fun v h₁ h₂ => absurd h₁ (Nat.not_le.mpr h₂),
    fun v h₁ h₂ => absurd h₁ (Nat.not_le.mpr h₂)⟩

theorem OwnFrames.of_childless {r : KmemRun} {mem : Memory} (hr : KmemInv r) (hd : DirectMap r.kmem)
    (ha : PageAligned pml4) (hl : ⟨pml4, 1⟩ ∈ r.live)
    (h : ∀ i < 256, child r.kmem.hhdmOffset mem pml4 i = none) : OwnFrames pml4 ⟨r, mem⟩ := by
  obtain ⟨hmap, hnone, -⟩ := UserMap.of_childless hr hd ha hl h
  refine ⟨hmap, fun v w f hv _ hvf _ => ?_⟩
  rw [hnone v hv] at hvf
  cases hvf

theorem EmptyLowerHalf.ownFrames {k : UserKernel}
    (h : EmptyLowerHalf k.space.kernel k.space.mem pml4) (hr : KmemInv k.space.kernel)
    (hd : DirectMap k.space.kernel.kmem) : OwnFrames pml4 k.space :=
  .of_childless hr hd h.aligned h.live (h.childless _)

end Steps

section Room

variable {pml4 : U64} {segmentHeaders : List Phdr} {n : Nat}

theorem Room.mapPages {s : UserSpace} {start stop : U64} {m : Nat} (hs : OwnFrames pml4 s)
    (hal : PageAligned start) (hstop : stop.toNat ≤ 2 ^ 47)
    (hm : stop.toNat ≤ start.toNat + 4096 * m) (h : Room s.kernel.kmem (n + 4 * m)) :
    ∃ s' last, s.mapPages pml4 start stop = .ok (s', last) ∧ Room s'.kernel.kmem n := by
  have hbody : ∀ (s : UserSpace) (p : U64) (n : Nat), OwnFrames pml4 s → PageAligned p →
      start.toNat ≤ p.toNat → p < stop → Room s.kernel.kmem (n + 4) →
      ∃ s', UserSpace.mapPage pml4 s p = .ok s' ∧ OwnFrames pml4 s' ∧ Room s'.kernel.kmem n := by
    intro s p n hs _ _ hlt hr
    obtain ⟨f, s', hm, hr'⟩ := hr.mapUserPage (v := p) hs.map
    have hlt' : p.toNat < stop.toNat := hlt
    exact ⟨s', by rw [UserSpace.mapPage, hm]; rfl, hs.mapUserPage (by omega) hm, hr'⟩
  have hfuel : m < s.pageFuel := by
    have hle := h.1
    rw [UserSpace.pageFuel]
    omega
  obtain ⟨s', last, hrun, -, hr⟩ := forPages_room hstop hbody hal (Nat.le_refl _) hm hfuel hs h
  exact ⟨s', last, hrun, hr⟩

/-- `malloc` returns if there is room for the pages it may need. -/
theorem Room.malloc {p : HeapProcess} {size : U64} {m : Nat} (hi : HeapInv pml4 segmentHeaders p)
    (hfits : p.libc.heapTop.toNat + size.toNat ≤ 2 ^ 47) (hm : size.toNat ≤ 4096 * m)
    (h : Room p.task.kernel.space.kernel.kmem (n + 4 * m)) :
    ∃ libc task, malloc p.libc p.task pml4 size = .ok (p.libc.heapTop, libc, task) ∧
      Room task.kernel.space.kernel.kmem n := by
  have htop : (p.libc.heapTop + size).toNat = p.libc.heapTop.toNat + size.toNat := by
    rw [BitVec.toNat_add]
    omega
  have hle := hi.top_le
  rw [Persistos.malloc]
  split
  · next hlt =>
    have hlt' : p.libc.programBreak.toNat < p.libc.heapTop.toNat + size.toNat :=
      htop ▸ BitVec.lt_def.mp hlt
    obtain ⟨heap, hheap, hstop⟩ := hi.heap
    have hne : p.libc.heapTop + size ≠ 0 := by
      intro he
      rw [he] at htop
      have hz : (0 : U64).toNat = 0 := rfl
      omega
    have hpages : (p.libc.heapTop + size).toNat ≤ heap.stop.toNat + 4096 * m := by
      rw [hstop]
      omega
    obtain ⟨space, last, hrun, hr⟩ := Room.mapPages hi.own (hstop ▸ hi.aligned) (by omega) hpages h
    refine ⟨⟨p.libc.heapBottom, p.libc.heapTop + size, last⟩,
      ⟨{ p.task.kernel with space }, TaskMemory.setHeapEnd last p.task.memoryRangesLh⟩, ?_, hr⟩
    rw [TaskMemory.heap] at hheap
    rw [TaskMemory.sysBrk, hheap]
    dsimp only
    rw [if_neg hne, hrun]
    rfl
  · exact ⟨_, _, rfl, h.mono (by omega)⟩

theorem Room.startProcess {k : UserKernel} (h₀ : OwnFrames pml4 k.space)
    (hempty : EmptyLowerHalf k.space.kernel k.space.mem pml4) (hcap : 0 < k.ranges.capacity)
    (himage : (largestEndAddress (segmentRanges segmentHeaders)).toNat ≤ 2 ^ 47 - 4096)
    (h : Room k.space.kernel.kmem (n + 4 * ((elfRanges segmentHeaders).map passes).sum +
      (elfRanges segmentHeaders).length)) :
    ∃ libc task, Persistos.startProcess ⟨k, []⟩ pml4 segmentHeaders [] = .ok (libc, task) ∧
      Room task.kernel.space.kernel.kmem n := by
  have hstop := elfRanges_stop_le himage
  have hloaded := (hempty.taskInv h₀.map.tables.kmem h₀.map.tables.direct).loaded
  obtain ⟨task, hload, -, -, hr⟩ := Room.loadElf64 (s := ⟨k, []⟩) hloaded rfl hcap hstop h
  have hranges := (h₀.loadElf64 (t := ⟨k, []⟩) rfl hstop hload).2
  have hheap : task.heap = some (imageHeap segmentHeaders) := by
    rw [TaskMemory.heap, hranges]
    exact find_heap_elfRanges segmentHeaders
  obtain ⟨libc, hinit⟩ : ∃ libc, libcInit task pml4 = .ok (libc, task) := ⟨_, libcInit_eq hheap⟩
  refine ⟨libc, task, ?_, hr⟩
  rw [Persistos.startProcess, hload, ok_bind]
  exact hinit

/-- BRK maps a page wherever it is. -/
theorem Room.sysBrk_page {task : TaskMemory} {heap : UserspaceMemoryRange} {arg3 : U64}
    (hs : UserMap task.kernel.space pml4) (hheap : task.heap = some heap) (hne : arg3 ≠ 0)
    (h₁ : heap.stop < arg3) (h₂ : ¬heap.stop + 0x1000 < arg3)
    (h : Room task.kernel.space.kernel.kmem (n + 4)) :
    ∃ task', task.sysBrk pml4 arg3 = .ok (task', heap.stop + 0x1000) := by
  obtain ⟨f, space, hm, -⟩ := h.mapUserPage (v := heap.stop) hs
  obtain ⟨fuel, hfuel⟩ : ∃ fuel, task.kernel.space.pageFuel = fuel + 2 := by
    have hle := h.1
    refine ⟨task.kernel.space.pageFuel - 2, ?_⟩
    rw [UserSpace.pageFuel]
    omega
  have hpage : UserSpace.mapPage pml4 task.kernel.space heap.stop = .ok space := by
    rw [UserSpace.mapPage, hm]
    rfl
  have hrun : task.kernel.space.mapPages pml4 heap.stop arg3 = .ok (space, heap.stop + 0x1000) := by
    rw [UserSpace.mapPages, hfuel, UserSpace.forPages, if_pos h₁, hpage, ok_bind,
      UserSpace.forPages, if_neg h₂]
  refine ⟨⟨{ task.kernel with space },
    TaskMemory.setHeapEnd (heap.stop + 0x1000) task.memoryRangesLh⟩, ?_⟩
  rw [TaskMemory.heap] at hheap
  rw [TaskMemory.sysBrk, hheap]
  dsimp only
  rw [if_neg hne, hrun]
  rfl

end Room

theorem user_heap_sound {hhdm : Option U64} {memmap : Option (List MemmapEntry)} {kmem : Kmem}
    (hk : kmemInit hhdm memmap = .ok kmem) (hd : DirectMap kmem) {k : UserKernel}
    (hr : KmemReachable kmem k.space.kernel) {pml4 : U64}
    (h₀ : EmptyLowerHalf k.space.kernel k.space.mem pml4) {segmentHeaders : List Phdr}
    {copies : List (U64 × List U8)} {libc : Libc} {task : TaskMemory}
    (hstart : startProcess ⟨k, []⟩ pml4 segmentHeaders copies = .ok (libc, task))
    {p : HeapProcess} (hrun : Relation.ReflTransGen (HeapStep pml4) ⟨task, libc, []⟩ p)
    (hfits : HeapFits segmentHeaders copies (asked p.blocks)) :
    HeapSound pml4 segmentHeaders p ∧
      ∀ (size addr : U64) (libc' : Libc) (task' : TaskMemory),
        malloc p.libc p.task pml4 size = .ok (addr, libc', task') →
        HeapFits segmentHeaders copies (asked p.blocks + size.toNat) →
        ∀ i < size.toNat, task'.kernel.space.readUser pml4 (addr + BitVec.ofNat 64 i) = some 0 := by
  have hown := h₀.ownFrames (hr.inv hk) (hr.directMap hd).1
  have hinv := (HeapInv.start hown (hfits.mono (Nat.zero_le _)) hstart).run hrun hfits.heap
  refine ⟨hinv.sound hfits, fun size addr libc' task' hm hfits' i hi => ?_⟩
  have htop := hinv.top_eq
  have hheap := hfits'.heap
  obtain ⟨-, rfl, hzero⟩ := hinv.malloc (by omega) hm
  have hadd : (p.libc.heapTop + BitVec.ofNat 64 i).toNat = p.libc.heapTop.toNat + i := by
    rw [BitVec.toNat_add, BitVec.toNat_ofNat]
    omega
  exact hzero _ (by omega) (by omega)

/-- A block that needs a page, a `free`, and a block that fits the page. -/
theorem user_heap_sound_two_blocks :
    ∃ (p : HeapProcess) (task' : TaskMemory),
      p.blocks = [⟨0x402000, 4000⟩] ∧ HeapSound 0xffff800000102000 [⟨0x400000, 0x1000⟩] p ∧
      ∀ i < (8 : U64).toNat, task'.kernel.space.readUser 0xffff800000102000
        (0x402FA0 + BitVec.ofNat 64 i) = some 0 := by
  obtain ⟨k, hk, hempty, hroom, hcap, -⟩ := freshTask
  have hown := hempty.ownFrames (hk.inv sixteenMegabytes_init)
    (hk.directMap sixteenMegabytes_directMap).1
  have hranges : elfRanges [⟨0x400000, 0x1000⟩] = [⟨0x400000, 0x401000, .normal⟩,
      ⟨0x401000, 0x402000, .heap⟩, stackRange] := by decide
  have hheap : imageHeap [⟨0x400000, 0x1000⟩] = ⟨0x401000, 0x402000, .heap⟩ := by decide
  have hfits : HeapFits [⟨0x400000, 0x1000⟩] [] 4008 := by
    refine ⟨by decide, by simp, ?_, ?_⟩
    · rw [hheap]
      decide
    · simp
  obtain ⟨libc, task, hstart, hroom⟩ := Room.startProcess (n := 1032) hown hempty hcap hfits.image
    (hroom.mono (by rw [hranges]; decide))
  have hinv := HeapInv.start hown (hfits.mono (Nat.zero_le _)) hstart
  have htop : libc.heapTop.toNat = 0x402000 := by
    refine hinv.top_eq.trans ?_
    rw [hheap]
    rfl
  have hsize : (4000 : U64).toNat = 4000 ∧ (8 : U64).toNat = 8 := ⟨rfl, rfl⟩
  have hfits₁ : libc.heapTop.toNat + (4000 : U64).toNat ≤ 2 ^ 47 := by omega
  obtain ⟨libc₁, task₁, hm₁, hroom⟩ := Room.malloc (n := 8) (m := 1) hinv hfits₁ (by decide)
    (hroom.mono (by decide))
  obtain ⟨hinv₁, -, -⟩ := hinv.malloc hfits₁ hm₁
  have htop₁ : libc₁.heapTop.toNat = 0x402FA0 := by
    have htop₁ := hinv₁.top_eq
    simp only [asked, List.map_cons, List.map_nil, List.sum_cons, List.sum_nil, hsize,
      hheap] at htop₁
    rw [htop₁]
    rfl
  have hfits₂ : libc₁.heapTop.toNat + (8 : U64).toNat ≤ 2 ^ 47 := by omega
  obtain ⟨libc₂, task₂, hm₂, -⟩ := Room.malloc (n := 4) (m := 1) hinv₁ hfits₂ (by decide) hroom
  have hasked : asked [⟨libc.heapTop.toNat, (4000 : U64).toNat⟩] = 4000 := rfl
  have hfits' : HeapFits [⟨0x400000, 0x1000⟩] [] (asked [⟨libc.heapTop.toNat, (4000 : U64).toNat⟩]) :=
    hfits.mono (by omega)
  obtain ⟨hsound, hzero⟩ := user_heap_sound sixteenMegabytes_init sixteenMegabytes_directMap hk
    hempty hstart (.tail (.single (.malloc hm₁)) (.free libc.heapTop)) hfits'
  have hlast := hzero 8 _ libc₂ task₂ hm₂ (hfits.mono (by rw [hasked, hsize.2]))
  rw [show libc₁.heapTop = 0x402FA0 from BitVec.eq_of_toNat_eq htop₁] at hlast
  refine ⟨_, task₂, ?_, hsound, hlast⟩
  rw [htop, hsize.1]

/-- A program just below the stack asks for the megabyte above it and one byte more. The
byte is not in the lower half. -/
theorem heap_passes_user_memory :
    ∃ (k : UserKernel) (libc : Libc) (task : TaskMemory) (p : HeapProcess),
      KmemReachable sixteenMegabytes k.space.kernel ∧
      EmptyLowerHalf k.space.kernel k.space.mem 0xffff800000102000 ∧
      startProcess ⟨k, []⟩ 0xffff800000102000 [⟨0x7FFFFFEFE000, 0x1000⟩] [] = .ok (libc, task) ∧
      Relation.ReflTransGen (HeapStep 0xffff800000102000) ⟨task, libc, []⟩ p ∧
      asked p.blocks < 2 ^ 40 ∧
      ¬HeapSound 0xffff800000102000 [⟨0x7FFFFFEFE000, 0x1000⟩] p := by
  obtain ⟨k, hk, hempty, hroom, hcap, -⟩ := freshTask
  have hown := hempty.ownFrames (hk.inv sixteenMegabytes_init)
    (hk.directMap sixteenMegabytes_directMap).1
  have hranges : elfRanges [⟨0x7FFFFFEFE000, 0x1000⟩] =
      [⟨0x7FFFFFEFE000, 0x7FFFFFEFF000, .normal⟩, ⟨0x7FFFFFEFF000, 0x7FFFFFF00000, .heap⟩,
        stackRange] := by decide
  have hheap : imageHeap [⟨0x7FFFFFEFE000, 0x1000⟩] =
      ⟨0x7FFFFFEFF000, 0x7FFFFFF00000, .heap⟩ := by decide
  have himage : (largestEndAddress (segmentRanges [⟨0x7FFFFFEFE000, 0x1000⟩])).toNat ≤
      2 ^ 47 - 4096 := by decide
  have hfits : HeapFits [⟨0x7FFFFFEFE000, 0x1000⟩] [] 0x100000 := by
    refine ⟨himage, by simp, ?_, ?_⟩
    · rw [hheap]
      decide
    · simp
  obtain ⟨libc, task, hstart, hroom⟩ := Room.startProcess (n := 1032) hown hempty hcap himage
    (hroom.mono (by rw [hranges]; decide))
  have hinv := HeapInv.start hown (hfits.mono (Nat.zero_le _)) hstart
  have hstop : (imageHeap [⟨0x7FFFFFEFE000, 0x1000⟩]).stop.toNat = 2 ^ 47 - 0x100000 := by
    rw [hheap]
    rfl
  have htop : libc.heapTop.toNat = 2 ^ 47 - 0x100000 := hinv.top_eq.trans hstop
  have hsize : (0x100000 : U64).toNat = 0x100000 := rfl
  have hfits₁ : libc.heapTop.toNat + (0x100000 : U64).toNat ≤ 2 ^ 47 := by omega
  obtain ⟨libc₁, task₁, hm₁, hroom⟩ := Room.malloc (n := 8) (m := 256) hinv hfits₁ (by decide) hroom
  obtain ⟨hinv₁, -, -⟩ := hinv.malloc hfits₁ hm₁
  have htop₁ : libc₁.heapTop.toNat = 2 ^ 47 := by
    have htop₁ := hinv₁.top_eq
    simp only [asked, List.map_cons, List.map_nil, List.sum_cons, List.sum_nil, hsize,
      hstop] at htop₁
    omega
  have hbreak₁ : libc₁.programBreak.toNat = 2 ^ 47 := by
    have hle := hinv₁.top_le
    have hbelow := hinv₁.below
    dsimp only at hle hbelow
    omega
  have htop₁' : libc₁.heapTop = 0x800000000000 := BitVec.eq_of_toNat_eq htop₁
  have hbreak₁' : libc₁.programBreak = 0x800000000000 := BitVec.eq_of_toNat_eq hbreak₁
  obtain ⟨range, hrange, hend⟩ := hinv₁.heap
  have hend' : range.stop = 0x800000000000 := hend.trans hbreak₁'
  have hnew : range.stop < 0x800000000001 ∧ ¬range.stop + 0x1000 < 0x800000000001 := by
    rw [hend']
    decide
  obtain ⟨task₂, hbrk⟩ := Room.sysBrk_page (n := 4) hinv₁.own.map hrange (by decide) hnew.1 hnew.2
    hroom
  have hm₂ : malloc libc₁ task₁ 0xffff800000102000 1 = .ok (0x800000000000,
      ⟨libc₁.heapBottom, 0x800000000001, range.stop + 0x1000⟩, task₂) := by
    have hadd : (0x800000000000 : U64) + 1 = 0x800000000001 := rfl
    rw [malloc, htop₁', hbreak₁', hadd, if_pos (by decide), hbrk]
    rfl
  have hone : (1 : U64).toNat = 1 := rfl
  have hbig : (0x800000000000 : U64).toNat = 2 ^ 47 := rfl
  refine ⟨k, libc, task, _, hk, hempty, hstart, .tail (.single (.malloc hm₁)) (.malloc hm₂), ?_, ?_⟩
  · simp only [asked, List.map_cons, List.map_nil, List.sum_cons, List.sum_nil, hsize, hone]
    omega
  · intro hsound
    have hin : 2 ^ 47 ∈ (⟨(0x800000000000 : U64).toNat, (1 : U64).toNat⟩ : Interval) := by
      rw [Interval.mem_def, hbig, hone]
      exact ⟨Nat.le_refl _, Nat.lt_succ_self _⟩
    exact Nat.lt_irrefl _ (hsound.mapped _ List.mem_cons_self _ hin).1

end Persistos
