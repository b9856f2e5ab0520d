import Persistos.ForkPages

/-! FORK copies the address space of every task whose segments start at page
boundaries. A segment that does not is mapped by the loader from the page it starts
in, but by FORK from its start on. -/

namespace Persistos

open Theory

inductive RangeCall where
  | load (segmentHeaders : List Phdr)
  | brk (arg3 : U64)

/-- The task calls EXEC with an empty lower half, or BRK, or something else happens that
leaves its frames allocated, or somebody writes outside its tables. -/
inductive MemoryStep (pml4 : U64) (may : RangeCall → Prop) (s : TaskMemory) : TaskMemory → Prop where
  | load {segmentHeaders : List Phdr} {s' : TaskMemory} (hm : may (.load segmentHeaders))
      (hnil : s.memoryRangesLh = []) (h : s.loadElf64 pml4 segmentHeaders = .ok s') :
      MemoryStep pml4 may s s'
  | brk {arg3 result : U64} {s' : TaskMemory} (hm : may (.brk arg3))
      (h : s.sysBrk pml4 arg3 = .ok (s', result)) : MemoryStep pml4 may s s'
  | kernel {k : UserKernel} (h : KmemStep s.kernel.space.kernel k.space.kernel)
      (hkeep : ∀ t, s.kernel.space.Owns pml4 t → ⟨t, 1⟩ ∈ k.space.kernel.live)
      (hmem : k.space.mem = s.kernel.space.mem) : MemoryStep pml4 may s ⟨k, s.memoryRangesLh⟩
  | write {mem : Memory}
      (h : ∀ a, s.kernel.space.HasTable pml4 (a &&& pageAddressMask) → mem a = s.kernel.space.mem a) :
      MemoryStep pml4 may s
        ⟨{ s.kernel with space := ⟨s.kernel.space.kernel, mem⟩ }, s.memoryRangesLh⟩

/-- Segments and heap stay in the lower half, and a segment that the loader maps a page
for starts at a page boundary. -/
def PageBounded : RangeCall → Prop
  | .load segmentHeaders => ∀ range ∈ segmentRanges segmentHeaders,
      range.stop.toNat ≤ 2 ^ 47 - 4096 ∧
        (PageAligned range.start ∨ range.stop ≤ range.start &&& pageAddressMask)
  | .brk arg3 => arg3.toNat ≤ 2 ^ 47

structure RangeOk (range : UserspaceMemoryRange) : Prop where
  stop : range.stop.toNat ≤ 2 ^ 47
  start : PageAligned range.start ∨ range.stop ≤ range.start &&& pageAddressMask
  heap : range.type = .heap →
    PageAligned range.start ∧ PageAligned range.stop ∧ range.start.toNat ≤ range.stop.toNat

/-- The task has the pages of its ranges. -/
structure TaskInv (pml4 : U64) (s : TaskMemory) : Prop where
  loaded : Loaded pml4 s.kernel.space fun n =>
    ∃ range ∈ s.memoryRangesLh, Between range.start range.stop n
  ranges : ∀ range ∈ s.memoryRangesLh, RangeOk range

section Ranges

variable {range : UserspaceMemoryRange} {ranges : List UserspaceMemoryRange} {l stop : U64} {n : Nat}

theorem between_mask (start stop : U64) (n : Nat) :
    Between (start &&& pageAddressMask) stop n ↔ Between start stop n := by
  simp only [Between, mask_toNat]
  omega

theorem forkCovers_iff (h : RangeOk range) (n : Nat) :
    ForkCovers range n ↔ Between range.start range.stop n := by
  refine and_iff_right_of_imp fun hb => ?_
  have hmask := mask_toNat range.start
  rcases h.start with hs | hs
  · refine BitVec.lt_def.mpr ?_
    simp only [Between, PageAligned] at hb hs
    omega
  · have hs' : range.stop.toNat ≤ (range.start &&& pageAddressMask).toNat := hs
    simp only [Between] at hb
    omega

theorem RangeOk.forkStart (h : RangeOk range) :
    PageAligned range.start ∨ range.stop ≤ range.start := by
  refine h.start.imp_right fun hs => BitVec.le_def.mpr ?_
  have hmask := mask_toNat range.start
  have hs' : range.stop.toNat ≤ (range.start &&& pageAddressMask).toNat := hs
  omega

theorem or_fff_toNat (l : U64) : (l ||| 0xFFF).toNat = l.toNat / 4096 * 4096 + 4095 := by
  have hsplit : l ||| 0xFFF = (l &&& pageAddressMask) + 0xFFF := by
    have hzero : (l &&& pageAddressMask) &&& 0xFFF = 0 := by
      rw [BitVec.and_assoc, show pageAddressMask &&& 0xFFF = 0 by decide]
      exact BitVec.and_zero
    rw [BitVec.add_eq_or_of_and_eq_zero _ _ hzero]
    ext i hi
    have hbit : pageAddressMask[i] = !(0xFFF : U64)[i] := by
      have hm : pageAddressMask = ~~~(0xFFF : U64) := by decide
      simp only [hm, BitVec.getElem_not]
    simp only [BitVec.getElem_or, BitVec.getElem_and, hbit]
    cases (0xFFF : U64)[i] <;> simp
  have hl := l.isLt
  have hmask := mask_toNat l
  rw [hsplit, BitVec.toNat_add, show (0xFFF : U64).toNat = 4095 from rfl]
  omega

theorem heapRange_ok (h : l.toNat ≤ 2 ^ 47 - 4096) :
    RangeOk (heapRange l) ∧ l.toNat ≤ (heapRange l).start.toNat := by
  have hstart : PageAligned (heapRange l).start ∧ l.toNat ≤ (heapRange l).start.toNat ∧
      (heapRange l).start.toNat ≤ 2 ^ 47 - 4096 := by
    have hoff := and_fff_toNat l
    simp only [heapRange, PageAligned]
    split
    · next hne =>
      have hne' : (l &&& 0xFFF).toNat ≠ 0 := fun he => hne (BitVec.eq_of_toNat_eq he)
      rw [BitVec.toNat_add, or_fff_toNat, show (1 : U64).toNat = 1 from rfl]
      omega
    · next he =>
      rw [not_not] at he
      rw [he] at hoff
      simp only [show (0 : U64).toNat = 0 from rfl] at hoff
      omega
  have hstop : (heapRange l).stop.toNat = (heapRange l).start.toNat + 4096 := by
    have he : (heapRange l).stop = (heapRange l).start + 0x1000 := rfl
    rw [he, BitVec.toNat_add, show (0x1000 : U64).toNat = 4096 from rfl]
    omega
  simp only [PageAligned] at hstart
  refine ⟨⟨by omega, Or.inl hstart.1, fun _ => ⟨hstart.1, ?_, by omega⟩⟩, hstart.2.1⟩
  simp only [PageAligned]
  omega

theorem largestEndAddress_le {bound : Nat} (h : ∀ range ∈ ranges, range.stop.toNat ≤ bound) :
    (largestEndAddress ranges).toNat ≤ bound := by
  have hloop : ∀ ranges : List UserspaceMemoryRange, ∀ m : U64, m.toNat ≤ bound →
      (∀ range ∈ ranges, range.stop.toNat ≤ bound) →
      (ranges.foldl (fun largest range => if largest < range.stop then range.stop else largest)
        m).toNat ≤ bound := by
    intro ranges
    induction ranges with
    | nil => exact fun m hm _ => hm
    | cons range ranges ih =>
      intro m hm hr
      rw [List.foldl_cons]
      refine ih _ ?_ fun r hr' => hr r (List.mem_cons_of_mem _ hr')
      split
      · exact hr range List.mem_cons_self
      · exact hm
  exact hloop ranges 0 (Nat.zero_le _) h

theorem elfRanges_ok {segmentHeaders : List Phdr} (h : PageBounded (.load segmentHeaders)) :
    ∀ range ∈ elfRanges segmentHeaders, RangeOk range := by
  intro range hr
  simp only [elfRanges, List.mem_append, List.mem_cons, List.not_mem_nil, or_false] at hr
  rcases hr with hr | rfl | rfl
  · obtain ⟨hstop, hstart⟩ := h range hr
    refine ⟨by omega, hstart, fun ht => ?_⟩
    obtain ⟨segment, -, rfl⟩ := List.mem_map.mp hr
    cases ht
  · exact (heapRange_ok (largestEndAddress_le fun range hr => (h range hr).1)).1
  · exact ⟨by decide, Or.inl (by decide), fun ht => by cases ht⟩

/-- Moving the end of the heap up adds the pages in between to the pages of the ranges. -/
theorem setHeapEnd_spec {heap : UserspaceMemoryRange}
    (hfind : ranges.find? (fun range => range.type = .heap) = some heap)
    (hle : heap.stop.toNat ≤ stop.toNat) (hok : ∀ range ∈ ranges, RangeOk range)
    (hstop : PageAligned stop ∧ stop.toNat ≤ 2 ^ 47) :
    (∀ range ∈ TaskMemory.setHeapEnd stop ranges, RangeOk range) ∧
      ∀ n, (∃ range ∈ TaskMemory.setHeapEnd stop ranges, Between range.start range.stop n) ↔
        (∃ range ∈ ranges, Between range.start range.stop n) ∨ Between heap.stop stop n := by
  induction ranges with
  | nil => cases hfind
  | cons range ranges ih =>
    have hr := hok range List.mem_cons_self
    by_cases hheap : range.type = .heap
    · obtain rfl : range = heap := by simpa [hheap] using hfind
      obtain ⟨hstart, hend, hle'⟩ := hr.heap hheap
      rw [TaskMemory.setHeapEnd, if_pos hheap]
      refine ⟨?_, fun n => ?_⟩
      · refine List.forall_mem_cons.mpr ⟨⟨hstop.2, Or.inl hstart, fun _ => ⟨hstart, hstop.1, ?_⟩⟩, ?_⟩
        · exact Nat.le_trans hle' hle
        · exact fun r hr => hok r (List.mem_cons_of_mem _ hr)
      · have hsplit : Between range.start stop n ↔
            Between range.start range.stop n ∨ Between range.stop stop n := by
          simp only [Between, PageAligned] at *
          omega
        simp only [List.exists_mem_cons_iff, hsplit]
        rw [or_right_comm]
    · have hfind' : ranges.find? (fun range => range.type = .heap) = some heap := by
        simpa [hheap] using hfind
      obtain ⟨hok', hiff⟩ := ih hfind' fun r hr => hok r (List.mem_cons_of_mem _ hr)
      rw [TaskMemory.setHeapEnd, if_neg hheap]
      refine ⟨List.forall_mem_cons.mpr ⟨hr, hok'⟩, fun n => ?_⟩
      rw [List.exists_mem_cons_iff, List.exists_mem_cons_iff, hiff, or_assoc]

end Ranges

section Runs

variable {pml4 : U64} {s s' : TaskMemory}

theorem UserMap.addRanges {ranges : List UserspaceMemoryRange} (h : UserMap s.kernel.space pml4)
    (hs : ranges.foldlM TaskMemory.addRange s = .ok s') :
    Aside s.kernel.space s'.kernel.space ∧ s'.memoryRangesLh = s.memoryRangesLh ++ ranges := by
  induction ranges generalizing s with
  | nil =>
    obtain rfl := Except.ok.inj hs
    exact ⟨⟨.refl, fun _ hb => hb, fun _ _ => rfl⟩, (List.append_nil _).symm⟩
  | cons range ranges ih =>
    obtain ⟨s₁, h₁, hs⟩ := bind_eq_ok hs
    obtain ⟨⟨space, slab⟩, ha, he⟩ := bind_eq_ok h₁
    obtain rfl := Except.ok.inj he
    have haside := UserSpace.slabAlloc_aside h.tables.kmem h.tables.direct ha
    obtain ⟨hl, hr⟩ := ih (h.aside haside).1 hs
    exact ⟨haside.trans hl, hr.trans (List.append_assoc _ _ _)⟩

theorem Loaded.addRanges {ranges : List UserspaceMemoryRange} {pages : Nat → Prop}
    (h : Loaded pml4 s.kernel.space pages) (hs : ranges.foldlM TaskMemory.addRange s = .ok s') :
    Loaded pml4 s'.kernel.space pages ∧ s'.memoryRangesLh = s.memoryRangesLh ++ ranges := by
  obtain ⟨haside, hr⟩ := h.map.addRanges hs
  exact ⟨h.aside haside, hr⟩

/-- What mapping a page adds to, mapping the pages of the ranges adds them all to. -/
theorem setupUserspaceMemory_covers {P : UserSpace → (Nat → Prop) → Prop}
    (hcongr : ∀ {s pages pages'}, P s pages → (∀ n, pages n ↔ pages' n) → P s pages')
    (hmap : ∀ (s s' : UserSpace) (pages : Nat → Prop) (p f : U64), p.toNat < 2 ^ 47 → P s pages →
      s.mapUserPage pml4 p = .ok (f, s') → P s' fun n => pages n ∨ n = p.toNat / 4096)
    {space space' : UserSpace} {pages : Nat → Prop} {ranges : List UserspaceMemoryRange}
    (h : P space pages) (hstop : ∀ range ∈ ranges, range.stop.toNat ≤ 2 ^ 47)
    (hs : space.setupUserspaceMemory pml4 ranges = .ok space') :
    P space' fun n => pages n ∨ ∃ range ∈ ranges, Between range.start range.stop n := by
  induction ranges generalizing space pages with
  | nil =>
    obtain rfl := Except.ok.inj hs
    exact hcongr h fun n => by simp
  | cons range ranges ih =>
    obtain ⟨space₁, h₁, hs⟩ := bind_eq_ok hs
    obtain ⟨⟨space₂, last⟩, hm, he⟩ := bind_eq_ok h₁
    obtain rfl := Except.ok.inj he
    have halign : PageAligned (range.start &&& pageAddressMask) := by
      simp only [PageAligned, mask_toNat]
      omega
    have hstop' := hstop range List.mem_cons_self
    have hbody : ∀ (s s' : UserSpace) (pages : Nat → Prop) (p : U64), PageAligned p →
        (range.start &&& pageAddressMask).toNat ≤ p.toNat → p < range.stop → P s pages →
        UserSpace.mapPage pml4 s p = .ok s' → P s' fun n => pages n ∨ n = p.toNat / 4096 := by
      intro s s' pages p _ _ hlt hs hb
      obtain ⟨⟨f, s₃⟩, hpage, he⟩ := bind_eq_ok hb
      obtain rfl := Except.ok.inj he
      exact hmap _ _ _ _ _ (Nat.lt_of_lt_of_le hlt hstop') hs hpage
    obtain ⟨h₂, hal, -, hle, hlast⟩ := forPages_covers (P := P) hcongr hstop' hbody halign
      h hm
    refine hcongr (ih h₂ (fun r hr => hstop r (List.mem_cons_of_mem _ hr)) hs) fun n => ?_
    rw [between_last hal hle hlast, between_mask, List.exists_mem_cons_iff, or_assoc]

theorem Loaded.setupUserspaceMemory {space space' : UserSpace} {pages : Nat → Prop}
    {ranges : List UserspaceMemoryRange} (h : Loaded pml4 space pages)
    (hstop : ∀ range ∈ ranges, range.stop.toNat ≤ 2 ^ 47)
    (hs : space.setupUserspaceMemory pml4 ranges = .ok space') :
    Loaded pml4 space' fun n => pages n ∨ ∃ range ∈ ranges, Between range.start range.stop n :=
  setupUserspaceMemory_covers (P := Loaded pml4) Loaded.congr
    (fun _ _ _ _ _ hp h hm => h.mapUserPage hp hm) h hstop hs

/-- What the loader maps for any segments that stay in the lower half. -/
theorem Loaded.loadElf64 {segmentHeaders : List Phdr} {pages : Nat → Prop}
    (h : Loaded pml4 s.kernel.space pages) (hnil : s.memoryRangesLh = [])
    (hstop : ∀ range ∈ elfRanges segmentHeaders, range.stop.toNat ≤ 2 ^ 47)
    (hs : s.loadElf64 pml4 segmentHeaders = .ok s') :
    s'.memoryRangesLh = elfRanges segmentHeaders ∧ Loaded pml4 s'.kernel.space fun n =>
      pages n ∨ ∃ range ∈ elfRanges segmentHeaders, Between range.start range.stop n := by
  obtain ⟨s₁, h₁, hs⟩ := bind_eq_ok hs
  obtain ⟨space, hsetup, he⟩ := bind_eq_ok hs
  obtain rfl := Except.ok.inj he
  obtain ⟨hl, hr⟩ := h.addRanges h₁
  rw [hnil, List.nil_append] at hr
  rw [hr] at hsetup
  exact ⟨hr, hl.setupUserspaceMemory hstop hsetup⟩

theorem MemoryStep.inv (h : MemoryStep pml4 PageBounded s s') (hs : TaskInv pml4 s) :
    TaskInv pml4 s' := by
  cases h with
  | @load segmentHeaders _ hm hnil h =>
    have hok := elfRanges_ok hm
    obtain ⟨hr, hl⟩ := hs.loaded.loadElf64 hnil (fun r hr => (hok r hr).stop) h
    refine ⟨hl.congr fun n => ?_, fun range hrange => hok range (hr ▸ hrange)⟩
    rw [hr, hnil]
    simp
  | @brk arg3 result _ hm h =>
    rw [TaskMemory.sysBrk] at h
    split at h
    · obtain ⟨rfl, -⟩ := Prod.mk.inj (Except.ok.inj h)
      exact hs
    · next heap hfind =>
      split at h
      · obtain ⟨rfl, -⟩ := Prod.mk.inj (Except.ok.inj h)
        exact hs
      · obtain ⟨⟨space, stop⟩, hmap, he⟩ := bind_eq_ok h
        simp only [Except.ok.injEq, Prod.mk.injEq] at he
        obtain ⟨rfl, rfl⟩ := he
        have hheap := hs.ranges heap (List.mem_of_find?_eq_some hfind)
        obtain ⟨-, hend, -⟩ := hheap.heap (by simpa using List.find?_some hfind)
        have hmm : arg3.toNat ≤ 2 ^ 47 := hm
        obtain ⟨hl, hal, hle, hle', hlast⟩ := hs.loaded.mapPages hend hmm hmap
        have hstop : stop.toNat ≤ 2 ^ 47 := by
          rcases hlast with rfl | hlt
          · exact hheap.stop
          · simp only [PageAligned] at hal
            omega
        obtain ⟨hok, hiff⟩ := setHeapEnd_spec hfind hle hs.ranges ⟨hal, hstop⟩
        refine ⟨hl.congr fun n => ?_, hok⟩
        rw [hiff, between_last hal hle' hlast]
  | @kernel k h hkeep hmem =>
    obtain ⟨hmap, hframe, -⟩ := hs.loaded.map.congr k.space (.single h) hkeep fun a _ => by rw [hmem]
    refine ⟨⟨hmap, fun v hv => ?_⟩, hs.ranges⟩
    rw [hframe v hv]
    exact hs.loaded.mapped v hv
  | @write mem h =>
    obtain ⟨hmap, hframe, -⟩ := hs.loaded.map.congr ⟨s.kernel.space.kernel, mem⟩ .refl
      (fun t ht => hs.loaded.map.live ht) h
    refine ⟨⟨hmap, fun v hv => ?_⟩, hs.ranges⟩
    rw [hframe v hv]
    exact hs.loaded.mapped v hv

theorem TaskInv.run (hs : TaskInv pml4 s)
    (h : Relation.ReflTransGen (MemoryStep pml4 PageBounded) s s') : TaskInv pml4 s' := by
  induction h with
  | refl => exact hs
  | tail _ hstep ih => exact hstep.inv ih

theorem EmptyLowerHalf.taskInv {k : UserKernel} (h : EmptyLowerHalf k.space.kernel k.space.mem pml4)
    (hr : KmemInv k.space.kernel) (hd : DirectMap k.space.kernel.kmem) : TaskInv pml4 ⟨k, []⟩ := by
  obtain ⟨hmap, hnone, -⟩ := h.userMap hr hd
  refine ⟨⟨hmap, fun v hv => ?_⟩, by simp⟩
  rw [show k.space.frameAt pml4 v = none from hnone v hv]
  simp

end Runs

/-- After FORK the child has exactly the pages of the parent, in frames of its own, with
the same bytes, and the parent is as it was in `s`. -/
structure CopiedSpace (s s' : UserSpace) (parent child : U64) : Prop where
  same_pages : ∀ v : U64, v.toNat < 2 ^ 47 →
    ((s'.frameAt child v).isSome ↔ (s'.frameAt parent v).isSome)
  own_frames : ∀ v w f : U64, v.toNat < 2 ^ 47 → w.toNat < 2 ^ 47 → s'.frameAt child v = some f →
    s'.frameAt child w = some f → v.toNat / 4096 = w.toNat / 4096
  not_parents : ∀ v w f : U64, v.toNat < 2 ^ 47 → w.toNat < 2 ^ 47 → s'.frameAt child v = some f →
    s'.frameAt parent w ≠ some f
  same_bytes : ∀ v : U64, v.toNat < 2 ^ 47 → s'.readUser child v = s'.readUser parent v
  parent_kept : ∀ v : U64, v.toNat < 2 ^ 47 → s'.frameAt parent v = s.frameAt parent v ∧
    s'.readUser parent v = s.readUser parent v

theorem TaskInv.copiedSpace {s : TaskMemory} {k : UserKernel} {parent child : U64} {fds : List U32}
    (h : TaskInv parent s) (hf : forkMemory s parent fds = .ok (k, child)) :
    CopiedSpace s.kernel.space k.space parent child := by
  have hcovers : ∀ n, (∃ range ∈ s.memoryRangesLh, ForkCovers range n) ↔
      ∃ range ∈ s.memoryRangesLh, Between range.start range.stop n := by
    intro n
    exact exists_congr fun range => and_congr_right fun hr => forkCovers_iff (h.ranges range hr) n
  have hc := (h.loaded.map.forkMemory (fun r hr => (h.ranges r hr).forkStart)
    (fun r hr => (h.ranges r hr).stop) (fun r hr v hv hcov => (h.loaded.mapped v hv).mpr
      ((hcovers _).mp ⟨r, hr, hcov⟩)) hf).congr hcovers
  have hpages : ∀ v : U64, v.toNat < 2 ^ 47 →
      ((k.space.frameAt child v).isSome ↔ (k.space.frameAt parent v).isSome) := by
    intro v hv
    rw [hc.childPages v hv, hc.parentFrames v hv, h.loaded.mapped v hv]
  refine ⟨hpages, hc.childFrames, ?_, ?_, fun v hv => ⟨hc.parentFrames v hv, hc.parentBytes v hv⟩⟩
  · intro v w f hv hw hvf hwf
    exact hc.apart f (Or.inr ⟨w, hw, hwf⟩) (Or.inr ⟨v, hv, hvf⟩)
  · intro v hv
    by_cases hn : ∃ range ∈ s.memoryRangesLh, Between range.start range.stop (v.toNat / 4096)
    · rw [hc.childBytes v hv hn, hc.parentBytes v hv]
    · have hnone : k.space.frameAt child v = none := by
        rw [← Option.not_isSome_iff_eq_none, hc.childPages v hv]
        exact hn
      have hnone' : k.space.frameAt parent v = none := by
        rw [← Option.not_isSome_iff_eq_none, ← hpages v hv, hnone]
        exact Bool.false_ne_true
      rw [UserSpace.readUser, UserSpace.readUser, hnone, hnone']

theorem fork_copies_address_space {hhdm : Option U64} {memmap : Option (List MemmapEntry)}
    {kmem : Kmem} (hk : kmemInit hhdm memmap = .ok kmem) (hd : DirectMap kmem) {k : UserKernel}
    (hr : KmemReachable kmem k.space.kernel) {pml4 : U64}
    (h₀ : EmptyLowerHalf k.space.kernel k.space.mem pml4) {s : TaskMemory}
    (hrun : Relation.ReflTransGen (MemoryStep pml4 PageBounded) ⟨k, []⟩ s) {fds : List U32}
    {k' : UserKernel} {child : U64} (hf : forkMemory s pml4 fds = .ok (k', child)) :
    CopiedSpace s.kernel.space k'.space pml4 child := by
  exact ((h₀.taskInv (hr.inv hk) (hr.directMap hd).1).run hrun).copiedSpace hf

end Persistos
