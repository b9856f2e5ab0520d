import Persistos.ForkRoom
import Persistos.TableMoments

/-! `kpage_alloc` hands out the lowest page that is free, so the pages that are mapped one
after the other fill the region from below. -/

namespace Persistos

open Theory

/-- The first `n` pages of the region are taken. -/
def FilledTo (k : Kmem) (n : Nat) : Prop := ∀ i < n, k.kmemPageArray i ≠ .free

/-- From `k` to `k'` at least `c` pages were allocated, each the lowest free one, and none was
freed. -/
structure Takes (c : Nat) (k k' : Kmem) : Prop where
  start : k'.kmemStart = k.kmemStart
  total : k'.kmemTotalPages = k.kmemTotalPages
  free : ∀ i, k'.kmemPageArray i = .free → k.kmemPageArray i = .free
  filled : ∀ n, FilledTo k n → FilledTo k' (n + c)

/-- A frame that was free in `k` and is taken in `k'`. -/
def NewFrame (k k' : Kmem) (f : U64) : Prop :=
  ∃ i < k.kmemTotalPages.toNat, f = pageAddress k.kmemStart i ∧ k.kmemPageArray i = .free ∧
    k'.kmemPageArray i ≠ .free

section Kernel

variable {k k₁ k₂ k' : Kmem} {r r' : KmemRun} {p f g : U64} {c d n : Nat}

theorem FilledTo.mono (h : FilledTo k n) {m : Nat} (hm : m ≤ n) : FilledTo k m :=
  fun i hi => h i (Nat.lt_of_lt_of_le hi hm)

theorem Takes.refl (k : Kmem) : Takes 0 k k := ⟨rfl, rfl, fun _ hi => hi, fun _ h => h⟩

theorem Takes.trans (h : Takes c k k₁) (h' : Takes d k₁ k') : Takes (c + d) k k' where
  start := h'.start.trans h.start
  total := h'.total.trans h.total
  free i hi := h.free i (h'.free i hi)
  filled n hn := by
    rw [← Nat.add_assoc]
    exact h'.filled _ (h.filled n hn)

theorem Takes.mono (h : Takes c k k') (hd : d ≤ c) : Takes d k k' :=
  ⟨h.start, h.total, h.free, fun n hn => (h.filled n hn).mono (Nat.add_le_add_left hd n)⟩

theorem NewFrame.of_takes (h : NewFrame k₁ k₂ f) (hbefore : Takes c k k₁) (hafter : Takes d k₂ k') :
    NewFrame k k' f := by
  obtain ⟨i, hi, rfl, hfree, htaken⟩ := h
  rw [hbefore.total] at hi
  exact ⟨i, hi, by rw [hbefore.start], hbefore.free i hfree, fun h' => htaken (hafter.free i h')⟩

theorem KmemRun.allocPage_takes (h : r.allocPage = .ok (p, r')) :
    Takes 1 r.kmem r'.kmem ∧ NewFrame r.kmem r'.kmem p := by
  obtain ⟨kmem, ha, hr⟩ : ∃ kmem, kpageAlloc r.kmem 1 = .ok (p, kmem) ∧ r'.kmem = kmem := by
    rw [KmemRun.allocPage] at h
    split at h
    · cases h
    · next page kmem ha =>
      cases h
      exact ⟨kmem, ha, rfl⟩
  obtain ⟨first, hfirst, rfl, rfl⟩ := kpageAlloc_ok (by decide) ha
  have hone : (1 : U64).toNat = 1 := rfl
  have hle := hfirst.le_total
  have hfree : r.kmem.kmemPageArray first = .free := hfirst.run first (Nat.le_refl _) (by omega)
  rw [hone] at hle
  have harray : ∀ i, r'.kmem.kmemPageArray i =
      if i = first then .used else r.kmem.kmemPageArray i := by
    intro i
    rw [hr]
    dsimp only
    rw [markPages_apply, hone]
    exact if_congr (by omega) rfl rfl
  refine ⟨⟨by rw [hr], by rw [hr], fun i hi => ?_, fun n hn i hi => ?_⟩, first, by omega, rfl,
    hfree, ?_⟩
  · rw [harray] at hi
    split at hi
    · cases hi
    · exact hi
  · rw [harray]
    split
    · exact PageStatus.noConfusion
    · next hne =>
      intro hfree'
      have hge : n ≤ first := Nat.le_of_not_lt fun hlt => hn first hlt hfree
      have hni : n ≤ i := Nat.le_of_not_lt fun hlt => hn i hlt hfree'
      have hleast := hfirst.least i (by omega) fun j hj hj' => by
        rw [hone] at hj'
        rwa [show j = i by omega]
      omega
  · rw [harray, if_pos rfl]
    exact PageStatus.noConfusion

theorem Room.of_takes (h : Takes c k k') (hroom : Room k' n) : Room k n := by
  rw [Room, h.total] at hroom
  exact ⟨hroom.1, fun i hi hi' => h.free i (hroom.2 i hi hi')⟩

/-- A frame below the room that is left and one above the pages that were taken before. -/
theorem NewFrame.ne {m : Nat} (h : NewFrame k k' f) (hroom : Room k' m) (h' : NewFrame k₁ k₂ g)
    (htaken : FilledTo k₁ n) (hstart : k₁.kmemStart = k.kmemStart)
    (htotal : k'.kmemTotalPages = k.kmemTotalPages) (hlt : k₁.kmemTotalPages.toNat < 2 ^ 52)
    (hn : k.kmemTotalPages.toNat ≤ n + m) : f ≠ g := by
  obtain ⟨i, hi, rfl, -, hi'⟩ := h
  obtain ⟨j, hj, rfl, hfree, -⟩ := h'
  have hin : i < n := by
    refine Nat.lt_of_not_le fun hle => hi' (hroom.2 i ?_ ?_)
    · rw [htotal]
      omega
    · rwa [htotal]
  have hjn : n ≤ j := Nat.le_of_not_lt fun hlt => htaken j hlt hfree
  intro he
  have hidx := congrArg (pageIndex k.kmemStart) he
  rw [hstart, pageIndex_pageAddress _ (by omega), pageIndex_pageAddress _ (by omega)] at hidx
  omega

end Kernel

section Map

variable {r r' : KmemRun} {mem mem' : Memory} {hhdm entry pml4 virt phys u v : U64} {isMmio : Bool}
  {s s' : UserSpace} {p f : U64} {ps : List U64} {moments : List Memory}

theorem nextTable_takes (h : nextTable KmemRun.allocPage hhdm r mem entry = .ok (u, r', mem')) :
    Takes 0 r.kmem r'.kmem := by
  rw [nextTable] at h
  split at h
  · split at h
    · cases h
    · next page k ha =>
      cases h
      exact (KmemRun.allocPage_takes ha).1.mono (Nat.zero_le 1)
  · cases h
    exact .refl _

theorem setPageMapping_takes
    (h : setPageMapping KmemRun.allocPage hhdm r mem pml4 virt phys isMmio = .ok (r', mem')) :
    Takes 0 r.kmem r'.kmem := by
  rw [setPageMapping] at h
  split at h
  · cases h
  · obtain ⟨⟨t₁, r₁, m₁⟩, h₁, h⟩ := bind_eq_ok h
    obtain ⟨⟨t₂, r₂, m₂⟩, h₂, h⟩ := bind_eq_ok h
    obtain ⟨⟨t₃, r₃, m₃⟩, h₃, h⟩ := bind_eq_ok h
    cases h
    exact (nextTable_takes h₁).trans ((nextTable_takes h₂).trans (nextTable_takes h₃))

theorem mapUserPage_takes (h : s.mapUserPage pml4 p = .ok (f, s')) :
    Takes 1 s.kernel.kmem s'.kernel.kmem ∧ NewFrame s.kernel.kmem s'.kernel.kmem f := by
  obtain ⟨⟨f, s₀⟩, halloc, h⟩ := bind_eq_ok h
  obtain ⟨⟨kernel, mem⟩, hset, he⟩ := bind_eq_ok h
  cases he
  obtain ⟨⟨f, kernel₀⟩, ha, he⟩ := bind_eq_ok halloc
  cases he
  obtain ⟨htakes, hnew⟩ := KmemRun.allocPage_takes ha
  have hrest := setPageMapping_takes hset
  exact ⟨htakes.trans hrest, hnew.of_takes (.refl _) hrest⟩

namespace MapsPages

theorem takes (h : MapsPages pml4 s ps moments s') :
    Takes ps.length s.kernel.kmem s'.kernel.kmem := by
  induction h with
  | nil => exact .refl _
  | cons hm _ ih =>
    rw [List.length_cons, Nat.add_comm]
    exact (mapUserPage_takes hm).1.trans ih

/-- A page that is mapped ends in a frame that was free before. -/
theorem newFrame (h : MapsPages pml4 s ps moments s') (hs : OwnFrames pml4 s)
    (hp : ∀ p ∈ ps, p.toNat < 2 ^ 47) (hv : v.toNat < 2 ^ 47)
    (hmapped : ∃ p ∈ ps, p.toNat / 4096 = v.toNat / 4096) :
    ∃ f, s'.frameAt pml4 v = some f ∧ NewFrame s.kernel.kmem s'.kernel.kmem f := by
  induction h with
  | nil =>
    obtain ⟨p, hin, -⟩ := hmapped
    cases hin
  | @cons s s₁ s' p g ps moments hmap hrest ih =>
    obtain ⟨hp, hps⟩ := List.forall_mem_cons.mp hp
    obtain ⟨-, -, -, -, -, -, hframe⟩ := hs.map.mapUserPage hp hmap
    have hown := hs.mapUserPage hp hmap
    obtain ⟨htakes, hnew⟩ := mapUserPage_takes hmap
    by_cases hlater : ∃ q ∈ ps, q.toNat / 4096 = v.toNat / 4096
    · obtain ⟨f, hf, hnew'⟩ := ih hown hps hlater
      exact ⟨f, hf, hnew'.of_takes htakes (.refl _)⟩
    · have hpage : p.toNat / 4096 = v.toNat / 4096 :=
        ((List.exists_mem_cons_iff _ _ _).mp hmapped).resolve_right hlater
      have hnot : ∀ q ∈ ps, q.toNat / 4096 ≠ v.toNat / 4096 :=
        fun q hq he => hlater ⟨q, hq, he⟩
      refine ⟨g, ?_, hnew.of_takes (.refl _) hrest.takes⟩
      rw [(hrest.frame_of_not_mapped hown hps hv hnot).1, hframe v hv,
        if_pos (page_eq_iff.mpr hpage.symm)]

end MapsPages

/-- A range with so many pages has at least so many of them mapped. -/
theorem le_length_of_pages {n m : Nat}
    (hin : ∀ j < n, 0 < ps.countP fun p => p.toNat / 4096 = m + j) :
    n ≤ ps.length := by
  have hsub : (List.range n).map (m + ·) ⊆ ps.map fun p => p.toNat / 4096 := by
    intro x hx
    obtain ⟨j, hj, rfl⟩ := List.mem_map.mp hx
    obtain ⟨p, hp, he⟩ := List.countP_pos_iff.mp (hin j (List.mem_range.mp hj))
    exact List.mem_map.mpr ⟨p, hp, of_decide_eq_true he⟩
  have hnd : ((List.range n).map (m + ·)).Nodup :=
    List.nodup_range.map fun a b he => Nat.add_left_cancel he
  simpa using (List.subperm_of_subset hnd hsub).length_le

end Map

theorem setup_cons {s s' : UserSpace} {pml4 : U64} {range : UserspaceMemoryRange}
    {ranges : List UserspaceMemoryRange}
    (h : s.setupUserspaceMemory pml4 (range :: ranges) = .ok s') :
    ∃ s₁, s.setupUserspaceMemory pml4 [range] = .ok s₁ ∧
      s₁.setupUserspaceMemory pml4 ranges = .ok s' := by
  rw [← List.singleton_append, UserSpace.setupUserspaceMemory, List.foldlM_append] at h
  exact bind_eq_ok h

/-- A page that is mapped after `n` others ends in a frame above `n` others. -/
theorem loadElf64_newFrame {task task' : TaskMemory} {pml4 v : U64} {segmentHeaders : List Phdr}
    {first : UserspaceMemoryRange} {ranges : List UserspaceMemoryRange} {n m : Nat}
    (h : OwnFrames pml4 task.kernel.space) (hnil : task.memoryRangesLh = [])
    (hload : task.loadElf64 pml4 segmentHeaders = .ok task')
    (hranges : elfRanges segmentHeaders = first :: ranges)
    (hstop : ∀ range ∈ elfRanges segmentHeaders, range.stop.toNat ≤ 2 ^ 47)
    (hfirst : ∀ j < n, Between first.start first.stop (m + j)) (hv : v.toNat < 2 ^ 47)
    (hmapped : ∃ range ∈ ranges, Between range.start range.stop (v.toNat / 4096)) :
    ∃ k g, task'.kernel.space.frameAt pml4 v = some g ∧
      NewFrame k task'.kernel.space.kernel.kmem g ∧ FilledTo k n ∧
      k.kmemStart = task.kernel.space.kernel.kmem.kmemStart ∧
      k.kmemTotalPages = task.kernel.space.kernel.kmem.kmemTotalPages := by
  obtain ⟨task₁, hadd, hload⟩ := bind_eq_ok hload
  obtain ⟨space, hsetup, he⟩ := bind_eq_ok hload
  cases he
  obtain ⟨haside, hlist⟩ := UserMap.addRanges h.map hadd
  obtain ⟨-, hstart, htotal⟩ := kmemSteps_region haside.steps
  rw [hnil, List.nil_append, hranges] at hlist
  rw [hranges] at hstop
  rw [hlist] at hsetup
  obtain ⟨s₁, hone, hrest⟩ := setup_cons hsetup
  obtain ⟨hstop₁, hstop₂⟩ := List.forall_mem_cons.mp hstop
  obtain ⟨ps₁, hps₁, hlow₁, hcount₁⟩ :=
    MapsPages.of_setup (List.forall_mem_singleton.mpr hstop₁) hone
  obtain ⟨ps₂, hps₂, hlow₂, hcount₂⟩ := MapsPages.of_setup hstop₂ hrest
  obtain ⟨hown₁, -⟩ := hps₁.spec (h.aside haside) hlow₁
  have hlength : n ≤ ps₁.length := by
    refine le_length_of_pages (m := m) fun j hj => ?_
    rw [hcount₁]
    exact List.countP_pos_iff.mpr ⟨first, List.mem_singleton_self _, decide_eq_true (hfirst j hj)⟩
  have hlater : ∃ p ∈ ps₂, p.toNat / 4096 = v.toNat / 4096 := by
    obtain ⟨range, hin, hbetween⟩ := hmapped
    have hpos : 0 < ps₂.countP fun p => p.toNat / 4096 = v.toNat / 4096 := by
      rw [hcount₂]
      exact List.countP_pos_iff.mpr ⟨range, hin, decide_eq_true hbetween⟩
    obtain ⟨p, hp, he⟩ := List.countP_pos_iff.mp hpos
    exact ⟨p, hp, of_decide_eq_true he⟩
  obtain ⟨g, hg, hnew⟩ := hps₂.newFrame hown₁ hlow₂ hv hlater
  have htakes := hps₁.takes
  have hfilled := htakes.filled 0 fun i hi => absurd hi (Nat.not_lt_zero i)
  refine ⟨_, g, hg, hnew, hfilled.mono (by omega), htakes.start.trans hstart, htakes.total.trans htotal⟩

end Persistos
