import Persistos.ElfAccesses
import Persistos.EmptiedSpaces
import Persistos.LowestFrames
import Persistos.UserCalls

/-! How far EXEC gets where enough pages are free: a RAM file whose headers can be read is
mapped into the emptied lower half. -/

namespace Persistos

open Theory

section Free

variable {r : KmemRun} {n : Nat} {s : UserSpace} {pml4 : U64}

theorem Room.freePages (h : Room r.kmem n) (b : Block) : Room (r.freePages b).kmem n := by
  refine ⟨h.1, fun i hi hi' => ?_⟩
  have hfree := h.2 i hi hi'
  rw [KmemRun.freePages]
  dsimp only [kpageFree]
  rw [markPages_apply]
  split
  · rfl
  · exact hfree

theorem Room.freeAll (h : Room r.kmem n) (order : List U64) :
    Room (order.foldl (fun r p => r.freePages ⟨p, 1⟩) r).kmem n := by
  induction order generalizing r with
  | nil => exact h
  | cons p order ih => exact ih (h.freePages _)

/-- What is left of a user space after `free_userspace_memory`. -/
theorem OwnFrames.emptied (h : OwnFrames pml4 s) (hroom : Room s.kernel.kmem n) :
    Loaded pml4 (Teardown.freePml4 ⟨s, []⟩ pml4).space (fun _ => False) ∧
      Room (Teardown.freePml4 ⟨s, []⟩ pml4).space.kernel.kmem n := by
  obtain ⟨hown, -, hnone, -⟩ := h.freePml4
  refine ⟨⟨hown.map, fun v hv => ?_⟩, ?_⟩
  · rw [hnone v hv]
    simp
  · rw [h.freePml4_kernel]
    exact hroom.freeAll _

end Free

/-- The operations of an inode where all files are in RAM. -/
def ramOps : FilesystemOps FsKernel :=
  ramfsSuperblockOps.lift FsKernel.fs fun k fs => { k with fs }

/-- No inode is a device. -/
def noDevice : FileOperations FsKernel := ⟨fun s _ _ _ => (0, s), fun s _ _ => ([], s)⟩

theorem FsKernel.RamKernel.readsImage {k : FsKernel} {ramFiles : List U64} {f : U64}
    (h : k.RamKernel ramFiles) (hf : f ∈ ramFiles) (fops : FileOperations FsKernel) :
    ReadsImage ramOps fops (k.inode f) k f (k.fs.image f) := by
  have himage := h.ram.readsImage hf ⟨fun s _ _ _ => (0, s), fun s _ _ => ([], s)⟩
  have hregular := h.regular hf
  have hmounted := h.mounted hf
  have hdevice : ¬inodeRegularFile = inodeDevice := by decide
  refine ⟨himage.size_lt, fun buffer offset length hin => ?_⟩
  have hread := himage.read buffer offset length hin
  rw [FsKernel.inode] at hregular hmounted
  rw [Persistos.vfsRead, hregular, if_neg hdevice, if_pos rfl, if_neg hmounted] at hread
  rw [Persistos.vfsRead, FsKernel.inode, hregular, if_neg hdevice, if_pos rfl, if_neg hmounted]
  rw [ramOps, FilesystemOps.lift]
  dsimp only
  rw [hread]
  rfl

theorem kpageAlloc_aside {s s' : ExecState} {page : U64} (h : s.kpageAlloc = .ok (page, s')) :
    Aside s.space s'.space ∧ s'.space.mem = s.space.mem := by
  obtain ⟨⟨p, kernel⟩, halloc, h⟩ := bind_eq_ok h
  cases h
  obtain ⟨hstep, hlive⟩ := KmemRun.allocPage_step halloc
  refine ⟨⟨.single hstep, fun b hb => ?_, fun _ _ => rfl⟩, rfl⟩
  exact hlive ▸ List.mem_cons_of_mem _ hb

/-- EXEC of the RAM file at `f`: its path fits where it is copied to, the pages for the buffers
are apart from what is copied, and the ranges of the old program can be freed. -/
structure ExecReady (fuel : Nat) (c : ExecCall) (s : ExecState) (ramFiles : List U64)
    (path : List U8) (f : U64) : Prop where
  ram : s.kernel.RamKernel ramFiles
  file : f ∈ ramFiles
  resolves : s.kernel.PathOf path f
  string : StringAt s.bytes c.pathArg path
  short : path.length < NamingKernel.taskNameMaxlen
  user : c.pathArg.toNat + 4096 ≤ FsKernel.userEnd
  fuel_le : 4096 ≤ fuel
  own : OwnFrames c.pml4Page s.space
  buffers : ∀ pathBuffer stackBuffer s₁ s₂, s.kpageAlloc = .ok (pathBuffer, s₁) →
    s₁.kpageAlloc = .ok (stackBuffer, s₂) →
      ExecBuffers s.bytes c.argv pathBuffer stackBuffer c.taskStruct
  ranges : ∃ slab, freeRanges s.task.kernel.ranges c.rangeObjects = .ok slab ∧ 0 < slab.capacity

theorem addRanges_objectSize {s s' : TaskMemory} {ranges : List UserspaceMemoryRange}
    (h : ranges.foldlM TaskMemory.addRange s = .ok s') :
    s'.kernel.ranges.objectSize = s.kernel.ranges.objectSize := by
  induction ranges generalizing s with
  | nil =>
    cases h
    rfl
  | cons range ranges ih =>
    obtain ⟨s₁, h₁, h⟩ := bind_eq_ok h
    obtain ⟨⟨space, slab⟩, ha, he⟩ := bind_eq_ok h₁
    cases he
    obtain ⟨⟨x, kernel, slab', new⟩, ha, he⟩ := bind_eq_ok ha
    cases he
    exact (ih h).trans (slabAlloc_objectSize ha)

/-- Freeing starts of slots leaves a slab with as many slots a page. -/
theorem freeRanges_starts {slab : SlabAllocator} {ranges : List U64}
    (h : ∀ x ∈ ranges, (x - BitVec.ofNat 64 slabHeaderSize - (x &&& pageAddressMask)).setWidth 16 %
      slab.objectSize = 0) :
    ∃ slab', freeRanges slab ranges = .ok slab' ∧ slab'.capacity = slab.capacity := by
  induction ranges generalizing slab with
  | nil => exact ⟨slab, rfl, rfl⟩
  | cons x ranges ih =>
    obtain ⟨hx, hranges⟩ := List.forall_mem_cons.mp h
    rw [freeRanges, slabFree]
    dsimp only
    rw [if_neg (not_not.mpr hx)]
    exact ih hranges

section Ready

variable {fuel n : Nat} {r : VfsLookupResult} {c : ExecCall} {s : ExecState} {ramFiles : List U64}
  {path : List U8} {f : U64}

theorem ExecState.kpageAlloc_room (h : Room s.space.kernel.kmem (n + 1)) :
    ∃ page s', s.kpageAlloc = .ok (page, s') ∧ Room s'.space.kernel.kmem n := by
  obtain ⟨page, kernel, ha, hroom⟩ := h.allocPage
  exact ⟨page, _, ExecState.kpageAlloc_eq ha, hroom⟩

/-- The old program is gone and the task has the new name. -/
theorem ExecReady.emptied (h : ExecReady fuel c s ramFiles path f)
    (hroom : Room s.space.kernel.kmem (n + 2)) :
    ∃ l t e bytes, s.prepareExec fuel r c = .ok (l, t) ∧
      l.lookupResult.status = vfsResolveSuccessExists ∧ l.lookupResult.inode = f ∧
      t.freeMemory c = .ok e ∧
      strcpyAt e.bytes (c.taskStruct + NamingKernel.taskNameOffset) l.pathBuffer fuel 0 =
        .ok bytes ∧
      e.kernel = s.kernel ∧ e.task.memoryRangesLh = [] ∧ 0 < e.task.kernel.ranges.capacity ∧
      Loaded c.pml4Page e.space (fun _ => False) ∧ Room e.space.kernel.kmem n := by
  obtain ⟨pathBuffer, s₁, hpath, hroom⟩ := ExecState.kpageAlloc_room (n := n + 1) hroom
  obtain ⟨stackBuffer, s₂, hstack, hroom⟩ := ExecState.kpageAlloc_room hroom
  have hbuffers := h.buffers _ _ _ _ hpath hstack
  obtain ⟨found, hresolve, hstatus, hinode⟩ := h.resolves.resolve fuel r
  have hmax : NamingKernel.taskNameMaxlen = 256 := rfl
  have hshort := h.short
  obtain ⟨l, t, hprep, hlookup, hkernel, htask, hbuffer, hstring⟩ := ExecState.prepareExec_ok hpath
    hstack hbuffers h.string (by omega) h.user h.fuel_le hresolve
  obtain ⟨slab, hslab, hcap⟩ := h.ranges
  have hspace : t.space = s₂.space := congrArg (fun task => task.kernel.space) htask
  have hranges : t.task.kernel.ranges = s.task.kernel.ranges := by
    rw [htask, (ExecState.kpageAlloc_spec hstack).1, (ExecState.kpageAlloc_spec hpath).1]
    rfl
  have hown := (h.own.aside (kpageAlloc_aside hpath).1).aside (kpageAlloc_aside hstack).1
  rw [← hspace] at hown hroom
  obtain ⟨hloaded, hroom⟩ := hown.emptied hroom
  have hfree : t.freeMemory c = .ok { t with task := ⟨{ t.task.kernel with
      space := (Teardown.freePml4 ⟨t.space, []⟩ c.pml4Page).space, ranges := slab }, []⟩ } := by
    rw [ExecState.freeMemory, freeUserspaceMemory, hranges, hslab]
    rfl
  have hstart : StringAt t.bytes (l.pathBuffer + BitVec.ofNat 64 0) path := by
    rw [hbuffer]
    simpa using hstring
  have htaskBound := hbuffers.taskBound
  have htaskPath := hbuffers.taskPath
  have halign := hbuffers.path
  have hlt := pathBuffer.isLt
  simp only [PageAligned] at halign
  have hname : (c.taskStruct + NamingKernel.taskNameOffset).toNat = c.taskStruct.toNat + 40 := by
    rw [BitVec.toNat_add, show NamingKernel.taskNameOffset.toNat = 40 from rfl]
    omega
  have hdest : (c.taskStruct + NamingKernel.taskNameOffset).toNat + (0 + path.length + 1) ≤
      2 ^ 64 := by
    omega
  have hfuel : path.length < fuel := by
    have := h.fuel_le
    omega
  have hcopy := strcpyAt_eq hstart (by rw [hbuffer]; omega) hdest (by rw [hbuffer]; omega) hfuel
  exact ⟨l, t, _, _, hprep, hlookup ▸ hstatus, hlookup ▸ hinode, hfree, hcopy, hkernel, rfl, hcap,
    hloaded, hroom⟩

end Ready

end Persistos
