import Persistos.ExecRoom
import Persistos.UserBoot

/-! EXEC with a processor that caches translations. CR3 is loaded after the segments are in
memory, so what was cached of the old program may still direct the stores. -/

namespace Persistos

open Theory ExecState

/-- The frame of a page by the tables in the given memory. -/
def pageTable (hhdmOffset pml4 : U64) (mem : Memory) (page : U64) : Option U64 :=
  frameIn hhdmOffset pml4 mem (page <<< 12)

/-- A page is mapped for the task, or something else happens that leaves its frames allocated,
or somebody writes outside its tables. -/
inductive SpaceStep (pml4 : U64) (s : UserSpace) : UserSpace → Prop where
  | map {v f : U64} {s' : UserSpace} (hv : v.toNat < 2 ^ 47)
      (h : s.mapUserPage pml4 v = .ok (f, s')) : SpaceStep pml4 s s'
  | kernel {k : KmemRun} (h : KmemStep s.kernel k) (hkeep : ∀ t, s.Owns pml4 t → ⟨t, 1⟩ ∈ k.live) :
      SpaceStep pml4 s ⟨k, s.mem⟩
  | write {mem : Memory}
      (h : ∀ a, s.HasTable pml4 (a &&& pageAddressMask) → mem a = s.mem a) :
      SpaceStep pml4 s ⟨s.kernel, mem⟩

/-- The tables of `t` are in order and translate as those of `s` do. -/
structure SameFrames (pml4 : U64) (s t : UserSpace) : Prop where
  own : OwnFrames pml4 t
  hhdm : t.hhdm = s.hhdm
  frames : ∀ v : U64, v.toNat < 2 ^ 47 → t.frameAt pml4 v = s.frameAt pml4 v

/-- A run of EXEC as far as the pass that reads the segments. -/
structure ExecRun (ops : Inode → FilesystemOps FsKernel) (fops : Inode → FileOperations FsKernel)
    (fuel : Nat) (r : VfsLookupResult) (stack : Nat → Nat → U8) (c : ExecCall) (s : ExecState) where
  locals : ExecLocals
  prepared : ExecState
  prepare : s.prepareExec fuel r c = .ok (locals, prepared)
  resolved : locals.lookupResult.status = vfsResolveSuccessExists
  emptied : ExecState
  free : prepared.freeMemory c = .ok emptied
  bytes : ByteMemory
  rename : strcpyAt emptied.bytes (c.taskStruct + NamingKernel.taskNameOffset) locals.pathBuffer
    fuel 0 = .ok bytes
  header : Elf64Hdr
  image : ElfLoad FsKernel
  map : mapImage (ops (emptied.kernel.inode locals.lookupResult.inode))
    (fops (emptied.kernel.inode locals.lookupResult.inode))
    (emptied.kernel.inode locals.lookupResult.inode) c.pml4Page stack emptied.kernel emptied.task
    ⟨locals.lookupResult.inode, 0⟩ = .ok (header, image)

namespace ExecRun

variable {ops : Inode → FilesystemOps FsKernel} {fops : Inode → FileOperations FsKernel}
  {fuel : Nat} {r : VfsLookupResult} {stack : Nat → Nat → U8} {c : ExecCall} {s : ExecState}
  (run : ExecRun ops fops fuel r stack c s)

def inode : Inode := run.emptied.kernel.inode run.locals.lookupResult.inode

def filp : File := ⟨run.locals.lookupResult.inode, 0⟩

/-- The user space that `setup_userspace_memory` built. -/
def space : UserSpace := run.image.task.kernel.space

def ranges : List UserspaceMemoryRange := run.image.task.memoryRangesLh

/-- The memories from the call on, until all pages are mapped. -/
def moments : List Memory :=
  s.space.mem :: (Teardown.freePml4Moments ⟨run.prepared.space, []⟩ c.pml4Page ++
    mapImageMoments (ops run.inode) (fops run.inode) run.inode c.pml4Page stack run.emptied.kernel
      run.emptied.task run.filp)

/-- What `load_elf64` then stores. -/
def accesses (waits : Bool) : List (Access (U64 × U8)) :=
  segmentAccesses (ops run.inode) (fops run.inode) run.inode stack waits run.filp run.header
    (List.range run.header.ePhnum.toNat) run.image.files

/-- Some of the stores in the run were made, and each has reached a frame. `cache` are the
translations that the processor has cached at the call. -/
def Stores (waits : Bool) (cache : Set (U64 × U64)) (reached : List ((U64 × U8) × U64)) : Prop :=
  ∃ cache', Through (run.moments.map (pageTable s.space.hhdm c.pml4Page)) cache cache' ∧
    Accesses (fun space => pageTable space.hhdm c.pml4Page space.mem) UserSpace.storeAt
      (fun a => a.1 >>> 12) run.space cache' (run.accesses waits) reached

/-- Every store reaches the frame that the new tables have for its address, and that frame
is allocated. -/
def StoresReachImage (waits : Bool) (cache : Set (U64 × U64)) : Prop :=
  ∀ reached, run.Stores waits cache reached → ∀ x ∈ reached,
    run.space.frameAt c.pml4Page x.1.1 = some x.2 ∧ ⟨x.2, 1⟩ ∈ run.space.kernel.live

/-- The page of an address was cached and mapped for the old program to no frame but the one
that it has in the new program, and at most one of the new ranges has it. -/
structure Settled (cache : Set (U64 × U64)) (v : U64) : Prop where
  cached : ∀ f, (v >>> 12, f) ∈ cache → run.space.frameAt c.pml4Page v = some f
  mapped : ∀ f, s.space.frameAt c.pml4Page v = some f → run.space.frameAt c.pml4Page v = some f
  once : run.ranges.countP (fun range => Between range.start range.stop (v.toNat / 4096)) ≤ 1

/-- The pages of the stores before CR3 is loaded are settled, as far as none faults. -/
def StoresSettled (waits : Bool) (cache : Set (U64 × U64)) : Prop :=
  ∀ before a after, run.accesses waits = before ++ .use a :: after → .reload ∉ before →
    (∀ b, .use b ∈ before → (run.space.frameAt c.pml4Page b.1).isSome) → run.Settled cache a.1

/-- The file stays in the lower half. -/
structure LowerHalf (waits : Bool) : Prop where
  ranges : ∀ range ∈ run.ranges, range.stop.toNat ≤ 2 ^ 47
  stores : ∀ a, .use a ∈ run.accesses waits → a.1.toNat < 2 ^ 47

end ExecRun

section Spaces

variable {s s' : UserSpace} {pml4 v f : U64} {m : Memory}

theorem pageTable_page (hhdm pml4 : U64) (mem : Memory) (v : U64) :
    pageTable hhdm pml4 mem (v >>> 12) = frameIn hhdm pml4 mem v := by
  have hpage : (v >>> 12 <<< 12) >>> 12 = v >>> 12 := by
    apply BitVec.eq_of_toNat_eq
    have hv := v.isLt
    rw [shiftRight_toNat, shiftLeft_toNat, shiftRight_toNat]
    omega
  obtain ⟨hp, hi⟩ := indices_of_page_eq hpage
  rw [pageTable, frameIn, frameIn, translate, translate, hp, hi]

theorem OwnFrames.step (h : OwnFrames pml4 s) (hs : SpaceStep pml4 s s') : OwnFrames pml4 s' := by
  cases hs with
  | map hv hm => exact h.mapUserPage hv hm
  | kernel hk hkeep =>
    obtain ⟨hmap, hframe, -⟩ := h.map.congr ⟨_, s.mem⟩ (.single hk) hkeep fun _ _ => rfl
    exact h.congr hmap hframe
  | @write mem hm =>
    obtain ⟨hmap, hframe, -⟩ := h.map.congr ⟨s.kernel, mem⟩ .refl (fun t ht => h.map.live ht) hm
    exact h.congr hmap hframe

/-- The tables of a task whatever happened to them since its PML4 was empty. -/
theorem OwnFrames.of_steps {r : KmemRun} {mem : Memory} (hr : KmemInv r) (hd : DirectMap r.kmem)
    (h₀ : EmptyLowerHalf r mem pml4) (hs : Relation.ReflTransGen (SpaceStep pml4) ⟨r, mem⟩ s) :
    OwnFrames pml4 s := by
  induction hs with
  | refl => exact .of_childless hr hd h₀.aligned h₀.live (h₀.childless _)
  | tail _ hstep ih => exact ih.step hstep

theorem OwnFrames.storeAt (h : OwnFrames pml4 s) {a : U64 × U8} (hv : a.1.toNat < 2 ^ 47)
    (hf : s.frameAt pml4 a.1 = some f) :
    OwnFrames pml4 (s.storeAt a f) ∧
      ∀ w : U64, w.toNat < 2 ^ 47 → (s.storeAt a f).frameAt pml4 w = s.frameAt pml4 w := by
  obtain ⟨hmap, hframe⟩ := h.map.writeFrame hv hf a.2
  exact ⟨h.congr hmap hframe, hframe⟩

/-- A slab that gets a page takes no part in the translations. -/
theorem UserMap.slabAllocMoments (h : UserMap s pml4) {allocator : SlabAllocator}
    (hm : m ∈ s.slabAllocMoments allocator) (hv : v.toNat < 2 ^ 47) :
    frameIn s.hhdm pml4 m v = s.frameAt pml4 v := by
  rcases mem_momentsThen.mp hm with hm | ⟨⟨x, kernel, allocator', new⟩, ha, hm⟩
  · cases hm
  · cases new with
    | none => cases hm
    | some page =>
      have halloc : ∃ k, s.kernel.allocPage = .ok (page, k) := by
        rw [Persistos.slabAlloc] at ha
        split at ha
        · cases ha
        · split at ha
          · cases ha
          · next page' k hp =>
            dsimp only at ha
            split at ha
            · cases ha
              exact ⟨_, hp⟩
            · cases ha
      obtain ⟨k, hp⟩ := halloc
      exact congrArg _ (h.tables.clearMoments hp hm hv)

end Spaces

section Load

variable {σ : Type} {ops : FilesystemOps σ} {fops : FileOperations σ} {inode : Inode}
  {pml4 v : U64} {stack : Nat → Nat → U8} {filp : File} {hdr : Elf64Hdr} {m : Memory}

theorem UserMap.addRange {task task' : TaskMemory} {range : UserspaceMemoryRange}
    (h : UserMap task.kernel.space pml4) (hadd : task.addRange range = .ok task') :
    Aside task.kernel.space task'.kernel.space := by
  obtain ⟨⟨space, slab⟩, ha, he⟩ := bind_eq_ok hadd
  obtain rfl := Except.ok.inj he
  exact UserSpace.slabAlloc_aside h.tables.kmem h.tables.direct ha

theorem UserMap.listSegment {s s' : ElfLoad σ} {i : Nat} (h : UserMap s.task.kernel.space pml4)
    (hs : listSegment ops fops inode stack filp hdr s i = .ok s') :
    Aside s.task.kernel.space s'.task.kernel.space ∧
      ∀ m ∈ segmentMoments ops fops inode stack filp hdr s i, ∀ v : U64, v.toNat < 2 ^ 47 →
        frameIn s.task.kernel.space.hhdm pml4 m v = s.task.kernel.space.frameAt pml4 v := by
  obtain ⟨⟨segmentHeader, files⟩, hread, hs⟩ := bind_eq_ok hs
  refine ⟨?_, fun m hm v hv => ?_⟩
  · dsimp only at hs
    split at hs
    · cases hs
      exact ⟨.refl, fun _ hb => hb, fun _ _ => rfl⟩
    · obtain ⟨task, hadd, hs⟩ := bind_eq_ok hs
      cases hs
      exact h.addRange hadd
  · rcases mem_momentsThen.mp hm with hm | ⟨x, -, hm⟩
    · cases hm
    · dsimp only at hm
      split at hm
      · cases hm
      · exact h.slabAllocMoments hm hv

/-- While the ranges are listed no translation changes. -/
theorem UserMap.listSegments {s s' : ElfLoad σ} {is : List Nat}
    (h : UserMap s.task.kernel.space pml4)
    (hs : is.foldlM (Persistos.listSegment ops fops inode stack filp hdr) s = .ok s') :
    Aside s.task.kernel.space s'.task.kernel.space ∧
      ∀ m ∈ segmentsMoments ops fops inode stack filp hdr is s, ∀ v : U64, v.toNat < 2 ^ 47 →
        frameIn s.task.kernel.space.hhdm pml4 m v = s.task.kernel.space.frameAt pml4 v := by
  induction is generalizing s with
  | nil =>
    cases hs
    exact ⟨⟨.refl, fun _ hb => hb, fun _ _ => rfl⟩, fun m hm => absurd hm List.not_mem_nil⟩
  | cons i is ih =>
    obtain ⟨s₁, h₁, hs⟩ := bind_eq_ok hs
    obtain ⟨haside, hmoments⟩ := h.listSegment h₁
    obtain ⟨hmap, hframe, -⟩ := h.aside haside
    obtain ⟨hrest, hmoments'⟩ := ih hmap hs
    have hhdm : s₁.task.kernel.space.hhdm = s.task.kernel.space.hhdm :=
      (kmemSteps_region haside.steps).1
    refine ⟨haside.trans hrest, fun m hm v hv => ?_⟩
    rcases mem_momentsThen.mp hm with hm | ⟨x, hx, hm⟩
    · exact hmoments m hm v hv
    · obtain rfl := Except.ok.inj (h₁.symm.trans hx)
      rw [← hhdm, hmoments' m hm v hv, hframe v hv]

/-- Of what `load_elf64` does before it reads the segments, only the calls of `map_user_page`
change translations. -/
theorem OwnFrames.mapImage {files : σ} {task : TaskMemory} {image : ElfLoad σ}
    (h : OwnFrames pml4 task.kernel.space)
    (hs : mapImage ops fops inode pml4 stack files task filp = .ok (hdr, image))
    (hstop : ∀ range ∈ image.task.memoryRangesLh, range.stop.toNat ≤ 2 ^ 47) :
    ∃ s₁ ps moments, Aside task.kernel.space s₁ ∧
      MapsPages pml4 s₁ ps moments image.task.kernel.space ∧ (∀ p ∈ ps, p.toNat < 2 ^ 47) ∧
      (∀ n, ps.countP (fun p => p.toNat / 4096 = n) =
        image.task.memoryRangesLh.countP fun range => Between range.start range.stop n) ∧
      (∀ m ∈ moments, m ∈ mapImageMoments ops fops inode pml4 stack files task filp) ∧
      ∀ m ∈ mapImageMoments ops fops inode pml4 stack files task filp, m ∈ moments ∨
        ∀ v : U64, v.toNat < 2 ^ 47 →
          frameIn task.kernel.space.hhdm pml4 m v = task.kernel.space.frameAt pml4 v := by
  obtain ⟨r, hread, hs⟩ := bind_eq_ok hs
  obtain ⟨s, hlist, hs⟩ := bind_eq_ok hs
  obtain ⟨task₁, hheap, hs⟩ := bind_eq_ok hs
  obtain ⟨task₂, hstack, hs⟩ := bind_eq_ok hs
  obtain ⟨space, hsetup, hs⟩ := bind_eq_ok hs
  cases hs
  obtain ⟨haside, hmoments⟩ := h.map.listSegments hlist
  obtain ⟨hmap, hframe, -⟩ := h.map.aside haside
  have haside₁ := hmap.addRange hheap
  obtain ⟨hmap₁, hframe₁, -⟩ := hmap.aside haside₁
  have haside₂ := hmap₁.addRange hstack
  have hhdm : s.task.kernel.space.hhdm = task.kernel.space.hhdm := (kmemSteps_region haside.steps).1
  have hhdm₁ : task₁.kernel.space.hhdm = s.task.kernel.space.hhdm :=
    (kmemSteps_region haside₁.steps).1
  obtain ⟨ps, hps, hlow, hcount⟩ := MapsPages.of_setup hstop hsetup
  refine ⟨_, ps, _, haside.trans (haside₁.trans haside₂), hps, hlow, hcount, fun m hm => ?_,
    fun m hm => ?_⟩
  · refine mem_momentsThen.mpr (.inr ⟨r, hread, ?_⟩)
    refine mem_momentsThen.mpr (.inr ⟨s, hlist, ?_⟩)
    refine mem_momentsThen.mpr (.inr ⟨task₁, hheap, ?_⟩)
    exact mem_momentsThen.mpr (.inr ⟨task₂, hstack, hm⟩)
  · rcases mem_momentsThen.mp hm with hm | ⟨x, hx, hm⟩
    · cases hm
    obtain rfl := Except.ok.inj (hread.symm.trans hx)
    rcases mem_momentsThen.mp hm with hm | ⟨x, hx, hm⟩
    · exact .inr (hmoments m hm)
    obtain rfl := Except.ok.inj (hlist.symm.trans hx)
    rcases mem_momentsThen.mp hm with hm | ⟨x, hx, hm⟩
    · refine .inr fun v hv => ?_
      rw [← hhdm, ← hframe v hv]
      exact hmap.slabAllocMoments hm hv
    obtain rfl := Except.ok.inj (hheap.symm.trans hx)
    rcases mem_momentsThen.mp hm with hm | ⟨x, hx, hm⟩
    · refine .inr fun v hv => ?_
      rw [← hhdm, ← hframe v hv, ← hhdm₁, ← hframe₁ v hv]
      exact hmap₁.slabAllocMoments hm hv
    obtain rfl := Except.ok.inj (hstack.symm.trans hx)
    exact .inl hm

end Load

namespace ExecRun

variable {ops : Inode → FilesystemOps FsKernel} {fops : Inode → FileOperations FsKernel}
  {fuel : Nat} {r : VfsLookupResult} {stack : Nat → Nat → U8} {c : ExecCall} {s : ExecState}
  (run : ExecRun ops fops fuel r stack c s)

theorem prepared_space :
    Aside s.space run.prepared.space ∧ run.prepared.space.mem = s.space.mem := by
  obtain ⟨⟨pathBuffer, s₁⟩, hpath, h⟩ := bind_eq_ok run.prepare
  obtain ⟨bytes, -, h⟩ := bind_eq_ok h
  obtain ⟨⟨stackBuffer, s₂⟩, hstack, h⟩ := bind_eq_ok h
  obtain ⟨packed, -, h⟩ := bind_eq_ok h
  obtain ⟨path, -, h⟩ := bind_eq_ok h
  obtain ⟨found, -, h⟩ := bind_eq_ok h
  obtain ⟨-, hs⟩ := Prod.mk.inj (Except.ok.inj h)
  obtain ⟨haside₁, hmem₁⟩ := kpageAlloc_aside hpath
  obtain ⟨haside₂, hmem₂⟩ := kpageAlloc_aside hstack
  rw [← hs]
  exact ⟨haside₁.trans haside₂, hmem₂.trans hmem₁⟩

theorem emptied_space :
    run.emptied.space = (Teardown.freePml4 ⟨run.prepared.space, []⟩ c.pml4Page).space := by
  obtain ⟨m, hfree, he⟩ := bind_eq_ok run.free
  obtain ⟨ranges, -, hm⟩ := bind_eq_ok hfree
  rw [← Except.ok.inj he, ← Except.ok.inj hm]
  rfl

/-- What could be cached for an address before the segments are read. -/
theorem settled_iff (h : OwnFrames c.pml4Page s.space)
    (hstop : ∀ range ∈ run.ranges, range.stop.toNat ≤ 2 ^ 47) (cache : Set (U64 × U64)) {v : U64}
    (hv : v.toNat < 2 ^ 47) : run.Settled cache v ↔
      ∀ f, ((v >>> 12, f) ∈ cache ∨
          ∃ m ∈ run.moments, frameIn s.space.hhdm c.pml4Page m v = some f) →
        run.space.frameAt c.pml4Page v = some f := by
  obtain ⟨haside, hmem⟩ := run.prepared_space
  have hprepared := h.aside haside
  obtain ⟨hown, hhdm₁, hnone, hzeros⟩ := hprepared.freePml4
  rw [← run.emptied_space] at hown hhdm₁ hnone
  obtain ⟨s₁, ps, moments, haside₁, hmaps, hlow, hcount, hsub, hcases⟩ :=
    hown.mapImage run.map hstop
  obtain ⟨-, hframe₁, -⟩ := hown.map.aside haside₁
  have hown₁ := hown.aside haside₁
  have hhdm : run.prepared.space.hhdm = s.space.hhdm := (kmemSteps_region haside.steps).1
  have hhdm₂ : s₁.hhdm = run.emptied.space.hhdm := (kmemSteps_region haside₁.steps).1
  have hnone₁ : s₁.frameAt c.pml4Page v = none := (hframe₁ v hv).trans (hnone v hv)
  have hall : s₁.hhdm = s.space.hhdm := hhdm₂.trans (hhdm₁.trans hhdm)
  constructor
  · intro hset f hold
    rcases hold with hf | ⟨m, hm, hf⟩
    · exact hset.cached f hf
    rcases List.mem_cons.mp hm with rfl | hm
    · exact hset.mapped f hf
    rcases List.mem_append.mp hm with hm | hm
    · have hzero := (hzeros m hm).frameIn hf
      rw [hmem] at hzero
      exact hset.mapped f hzero
    rw [← hall] at hf
    rcases hcases m hm with hm | hkeep
    · have honce := hset.once
      rw [ranges, ← hcount] at honce
      rcases hmaps.frame_of_mapped_once hown₁ hlow hv honce hm with he | he
      · rw [he, hnone₁] at hf
        cases hf
      · exact he.symm.trans hf
    · have he := hkeep v hv
      rw [← show s₁.hhdm = run.emptied.task.kernel.space.hhdm from hhdm₂, hf] at he
      cases he.trans (hnone v hv)
  · intro hall'
    refine ⟨fun f hf => hall' f (.inl hf),
      fun f hf => hall' f (.inr ⟨_, List.mem_cons_self, hf⟩), ?_⟩
    by_contra htwice
    rw [ranges, ← hcount] at htwice
    obtain ⟨m, hm, f, hf, hne⟩ :=
      hmaps.frame_of_mapped_twice hown₁ hlow hv (Nat.lt_of_not_le htwice)
    rw [hall] at hf
    exact hne (hall' f (.inr ⟨m, List.mem_cons_of_mem _ (List.mem_append_right _ (hsub m hm)), hf⟩))

theorem image_space (h : OwnFrames c.pml4Page s.space)
    (hstop : ∀ range ∈ run.ranges, range.stop.toNat ≤ 2 ^ 47) :
    OwnFrames c.pml4Page run.space ∧ run.space.hhdm = s.space.hhdm := by
  obtain ⟨haside, -⟩ := run.prepared_space
  obtain ⟨hown, hhdm₁, -, -⟩ := (h.aside haside).freePml4
  rw [← run.emptied_space] at hown hhdm₁
  obtain ⟨s₁, ps, moments, haside₁, hmaps, hlow, -⟩ := hown.mapImage run.map hstop
  obtain ⟨hspace, hsteps, -⟩ := hmaps.spec (hown.aside haside₁) hlow
  refine ⟨hspace, (kmemSteps_region hsteps).1.trans ?_⟩
  exact (kmemSteps_region haside₁.steps).1.trans (hhdm₁.trans (kmemSteps_region haside.steps).1)

end ExecRun

theorem SameFrames.pageTable_eq {pml4 : U64} {s t : UserSpace} (h : SameFrames pml4 s t) {v : U64}
    (hv : v.toNat < 2 ^ 47) :
    pageTable t.hhdm pml4 t.mem (v >>> 12) = pageTable s.hhdm pml4 s.mem (v >>> 12) := by
  rw [pageTable_page, pageTable_page]
  exact h.frames v hv

theorem SameFrames.storeAt {pml4 f : U64} {s t : UserSpace} (h : SameFrames pml4 s t) {a : U64 × U8}
    (ha : a.1.toNat < 2 ^ 47) (hf : pageTable s.hhdm pml4 s.mem (a.1 >>> 12) = some f) :
    SameFrames pml4 s (t.storeAt a f) := by
  rw [pageTable_page] at hf
  obtain ⟨hown, hframe⟩ := h.own.storeAt ha ((h.frames a.1 ha).trans hf)
  exact ⟨hown, h.hhdm, fun v hv => (hframe v hv).trans (h.frames v hv)⟩

namespace ExecRun

variable {ops : Inode → FilesystemOps FsKernel} {fops : Inode → FileOperations FsKernel}
  {fuel : Nat} {r : VfsLookupResult} {stack : Nat → Nat → U8} {c : ExecCall} {s : ExecState}
  (run : ExecRun ops fops fuel r stack c s) {waits : Bool} {cache : Set (U64 × U64)}

theorem storesReachImage_iff (h : OwnFrames c.pml4Page run.space) (hlow : run.LowerHalf waits) :
    run.StoresReachImage waits cache ↔
      ∀ cache', Through (run.moments.map (pageTable s.space.hhdm c.pml4Page)) cache cache' →
        ∀ reached, Accesses (fun t : UserSpace => pageTable t.hhdm c.pml4Page t.mem)
          UserSpace.storeAt (fun a => a.1 >>> 12) run.space cache' (run.accesses waits) reached →
            ∀ x ∈ reached, pageTable run.space.hhdm c.pml4Page run.space.mem (x.1.1 >>> 12) =
              some x.2 := by
  simp only [pageTable_page]
  constructor
  · intro hreach cache' hthrough reached hrun x hx
    exact (hreach reached ⟨cache', hthrough, hrun⟩ x hx).1
  · rintro hreach reached ⟨cache', hthrough, hrun⟩ x hx
    have hf := hreach cache' hthrough reached hrun x hx
    exact ⟨hf, (h.map.frame x.1.1 x.2 (hlow.stores _ (hrun.mem x hx)) hf).1⟩

theorem storesSettled_iff (h : OwnFrames c.pml4Page s.space) (hlow : run.LowerHalf waits) :
    run.StoresSettled waits cache ↔
      Coherent (pageTable run.space.hhdm c.pml4Page run.space.mem) (fun a : U64 × U8 => a.1 >>> 12)
        (run.accesses waits) fun page f => (page, f) ∈ cache ∨
          ∃ tables ∈ run.moments.map (pageTable s.space.hhdm c.pml4Page), tables page = some f := by
  refine forall_congr' fun before => forall_congr' fun a => forall_congr' fun after => ?_
  refine forall_congr' fun he => forall_congr' fun hreload => ?_
  have ha : .use a ∈ run.accesses waits := by
    rw [he]
    exact List.mem_append_right _ List.mem_cons_self
  simp only [pageTable_page, List.mem_map, exists_exists_and_eq_and]
  refine forall_congr' fun hsome => ?_
  exact run.settled_iff h hlow.ranges cache (hlow.stores a ha)

end ExecRun

/-- With room for it, EXEC of a RAM file whose headers lie in the file comes to the segments. -/
theorem ExecReady.exists_run {fuel n : Nat} {c : ExecCall} {s : ExecState} {ramFiles : List U64}
    {path : List U8} {f : U64} (h : ExecReady fuel c s ramFiles path f) {image : Image}
    (himage : s.kernel.fs.image f = image) (hheader : 64 ≤ image.size)
    (htable : ∀ i < image.elfHeader.ePhnum.toNat,
      image.elfHeader.ePhoff.toNat + 56 * i + 56 ≤ image.size)
    (hstop : ∀ range ∈ elfRanges image.segmentHeaders, range.stop.toNat ≤ 2 ^ 47)
    (hroom : Room s.space.kernel.kmem (n + 4 * ((elfRanges image.segmentHeaders).map passes).sum +
      (elfRanges image.segmentHeaders).length + 2))
    (fops : Inode → FileOperations FsKernel) (r : VfsLookupResult) (stack : Nat → Nat → U8) :
    ∃ run : ExecRun (fun _ => ramOps) fops fuel r stack c s,
      (∀ waits, run.accesses waits = segmentAccesses ramOps (fops (s.kernel.inode f))
        (s.kernel.inode f) stack waits ⟨f, 0⟩ image.elfHeader
        (List.range image.elfHeader.ePhnum.toNat) s.kernel) ∧
      run.ranges = elfRanges image.segmentHeaders ∧
      Loaded c.pml4Page run.emptied.space (fun _ => False) ∧
      run.emptied.task.memoryRangesLh = [] ∧
      run.emptied.task.loadElf64 c.pml4Page image.segmentHeaders = .ok run.image.task := by
  obtain ⟨l, t, e, bytes, hprep, hstatus, hinode, hfree, hname, hkernel, hnil, hcap, hloaded,
    hroom⟩ := h.emptied (r := r) hroom
  obtain ⟨task, hload, -⟩ := Room.loadElf64 hloaded hnil hcap hstop hroom
  obtain ⟨hlist, -⟩ := hloaded.loadElf64 hnil hstop hload
  have hreads := himage ▸ h.ram.readsImage h.file (fops (s.kernel.inode f))
  have hmap := hreads.mapImage hheader htable c.pml4Page stack e.task
  rw [hload, ok_bind] at hmap
  have hmap' : mapImage ramOps (fops (e.kernel.inode l.lookupResult.inode))
      (e.kernel.inode l.lookupResult.inode) c.pml4Page stack e.kernel e.task
      ⟨l.lookupResult.inode, 0⟩ = .ok (image.elfHeader,
        ⟨s.kernel, task, largestEndAddress (segmentRanges image.segmentHeaders)⟩) := by
    rw [hinode, hkernel]
    exact hmap
  refine ⟨⟨l, t, hprep, hstatus, e, hfree, bytes, hname, _, _, hmap'⟩, fun waits => ?_, hlist,
    hloaded, hnil, hload⟩
  simp only [ExecRun.accesses, ExecRun.inode, ExecRun.filp, hinode, hkernel]

namespace ExecRun

variable {ops : Inode → FilesystemOps FsKernel} {fops : Inode → FileOperations FsKernel}
  {fuel : Nat} {r : VfsLookupResult} {stack : Nat → Nat → U8} {c : ExecCall} {s : ExecState}
  (run : ExecRun ops fops fuel r stack c s)

theorem emptied_region (h : OwnFrames c.pml4Page s.space) :
    run.emptied.space.kernel.kmem.kmemStart = s.space.kernel.kmem.kmemStart ∧
      run.emptied.space.kernel.kmem.kmemTotalPages = s.space.kernel.kmem.kmemTotalPages := by
  obtain ⟨haside, -⟩ := run.prepared_space
  obtain ⟨-, hstart, htotal⟩ := kmemSteps_region haside.steps
  obtain ⟨-, hstart', htotal'⟩ := freeAll_region (run.prepared.space.nodes c.pml4Page)
    run.prepared.space.kernel
  rw [← (h.aside haside).freePml4_kernel, ← run.emptied_space] at hstart' htotal'
  exact ⟨hstart'.trans hstart, htotal'.trans htotal⟩

/-- A store to a page that the old program had elsewhere may go there. -/
theorem not_storesReachImage {waits : Bool} {cache : Set (U64 × U64)} {a : U64 × U8} {f : U64}
    {accesses : List (Access (U64 × U8))} (ha : run.accesses waits = .use a :: accesses)
    (hold : s.space.frameAt c.pml4Page a.1 = some f)
    (hne : run.space.frameAt c.pml4Page a.1 ≠ some f) : ¬run.StoresReachImage waits cache := by
  intro hreach
  have hcached : pageTable s.space.hhdm c.pml4Page s.space.mem (a.1 >>> 12) = some f := by
    rw [pageTable_page]
    exact hold
  have hfirst : pageTable s.space.hhdm c.pml4Page s.space.mem ∈
      run.moments.map (pageTable s.space.hhdm c.pml4Page) :=
    List.mem_map_of_mem List.mem_cons_self
  obtain ⟨cache', hthrough, hin⟩ : ∃ cache', Through (run.moments.map (pageTable s.space.hhdm
      c.pml4Page)) cache cache' ∧ (a.1 >>> 12, f) ∈ cache' := Through.exists_mem hfirst hcached
  refine hne (hreach [(a, f)] ⟨cache', hthrough, ?_⟩ _ (List.mem_singleton_self _)).1
  rw [ha]
  exact .use (.refl _ _) hin .stop

end ExecRun

theorem MapsPages.spaceSteps {pml4 : U64} {s s' : UserSpace} {ps : List U64} {moments : List Memory}
    (h : MapsPages pml4 s ps moments s') (hp : ∀ p ∈ ps, p.toNat < 2 ^ 47) :
    Relation.ReflTransGen (SpaceStep pml4) s s' := by
  induction h with
  | nil => exact .refl
  | cons hm _ ih =>
    obtain ⟨hp, hps⟩ := List.forall_mem_cons.mp hp
    exact .head (.map hp hm) (ih hps)

theorem EmptyLowerHalf.aside {s s' : UserSpace} {pml4 : U64}
    (h : EmptyLowerHalf s.kernel s.mem pml4) (ha : Aside s s') :
    EmptyLowerHalf s'.kernel s'.mem pml4 := by
  refine ⟨h.aligned, ha.live _ h.live, fun i hi => ?_⟩
  rw [ha.mem _ (by rw [entryAddress_mask h.aligned (by omega)]; exact h.live)]
  exact h.zero i hi

/-- A program at 0x400000 in the lowest frames of `sixteenMegabytes`. -/
theorem lowProgram : ∃ (r₀ : KmemRun) (mem : Memory) (task : TaskMemory) (f : U64) (k : Kmem),
    KmemReachable sixteenMegabytes r₀ ∧ EmptyLowerHalf r₀ mem 0xffff800000102000 ∧
    Relation.ReflTransGen (SpaceStep 0xffff800000102000) ⟨r₀, mem⟩ task.kernel.space ∧
    task.memoryRangesLh = elfRanges [⟨0x400000, 0x1000⟩] ∧
    (task.kernel.ranges.objectSize = 40 ∧ 0 < task.kernel.ranges.capacity) ∧
    task.kernel.space.frameAt 0xffff800000102000 0x400000 = some f ∧ NewFrame r₀.kmem k f ∧
    Room k 4086 ∧ k.kmemTotalPages = r₀.kmem.kmemTotalPages ∧
    Room task.kernel.space.kernel.kmem 3000 ∧
    KmemReachable sixteenMegabytes task.kernel.space.kernel := by
  obtain ⟨r, hr, hempty, hroom⟩ := freshKernel
  have hcap : 0 < (slabOf 40).capacity := by decide
  have hlist : elfRanges [⟨0x400000, 0x1000⟩] = [⟨0x400000, 0x401000, .normal⟩,
      ⟨0x401000, 0x402000, .heap⟩, stackRange] := by decide
  have hstop : ∀ range ∈ elfRanges [⟨0x400000, 0x1000⟩], range.stop.toNat ≤ 2 ^ 47 := by
    rw [hlist]
    decide
  have hinv := hr.inv sixteenMegabytes_init
  have hdirect := (hr.directMap sixteenMegabytes_directMap).1
  have hown := OwnFrames.of_steps hinv hdirect hempty .refl
  have hnone : Loaded 0xffff800000102000 ⟨r, fun _ => 0⟩ (fun _ => False) :=
    ⟨hown.map, fun v hv => by rw [(hempty.userMap hinv hdirect).2.1 v hv]; simp⟩
  have hroom : Room r.kmem (4090 + (elfRanges [⟨0x400000, 0x1000⟩]).length) := hroom
  obtain ⟨task, hadd, hcap, -, -, hroom⟩ := Room.addRanges
    (s := ⟨⟨⟨r, fun _ => 0⟩, slabOf 344, slabOf 40, slabOf 40⟩, []⟩) hcap hroom
  obtain ⟨haside, hranges⟩ := UserMap.addRanges
    (s := ⟨⟨⟨r, fun _ => 0⟩, slabOf 344, slabOf 40, slabOf 40⟩, []⟩) hown.map hadd
  have hempty' := hempty.aside (s := ⟨r, fun _ => 0⟩) haside
  have hown' := hown.aside haside
  have hloaded := hnone.aside haside
  obtain ⟨space, hsetup, hroom'⟩ := Room.setupUserspaceMemory (n := 3000) hloaded hstop
    (hroom.mono (by rw [hlist]; decide))
  obtain ⟨ps, hps, hlow, -⟩ := MapsPages.of_setup hstop hsetup
  rw [hlist] at hsetup hstop
  obtain ⟨s₁, hfirst, hrest⟩ := setup_cons hsetup
  obtain ⟨hstop₁, hstop₂⟩ := List.forall_mem_cons.mp hstop
  have hone : ∀ range ∈ [(⟨0x400000, 0x401000, .normal⟩ : UserspaceMemoryRange)],
      range.stop.toNat ≤ 2 ^ 47 := List.forall_mem_singleton.mpr hstop₁
  obtain ⟨s₁', hfirst', hroom₁⟩ := Room.setupUserspaceMemory (n := 4086) hloaded hone
    (hroom.mono (by decide))
  obtain rfl := Except.ok.inj (hfirst.symm.trans hfirst')
  obtain ⟨ps₁, hps₁, hlow₁, hcount₁⟩ := MapsPages.of_setup hone hfirst
  obtain ⟨ps₂, hps₂, hlow₂, hcount₂⟩ := MapsPages.of_setup hstop₂ hrest
  have hv : (0x400000 : U64).toNat < 2 ^ 47 := by decide
  have hin : ∃ p ∈ ps₁, p.toNat / 4096 = (0x400000 : U64).toNat / 4096 := by
    have hpos : 0 < ps₁.countP fun p => p.toNat / 4096 = 0x400 := by
      rw [hcount₁]
      decide
    obtain ⟨p, hp, he⟩ := List.countP_pos_iff.mp hpos
    exact ⟨p, hp, of_decide_eq_true he⟩
  have hout : ∀ p ∈ ps₂, p.toNat / 4096 ≠ (0x400000 : U64).toNat / 4096 := by
    have hzero : ps₂.countP (fun p => p.toNat / 4096 = 0x400) = 0 := by
      rw [hcount₂]
      decide
    exact fun p hp he => List.countP_eq_zero.mp hzero p hp (decide_eq_true he)
  obtain ⟨f, hf, hnew⟩ := hps₁.newFrame hown' hlow₁ hv hin
  obtain ⟨hown₁, -⟩ := hps₁.spec hown' hlow₁
  refine ⟨_, _, ⟨{ task.kernel with space }, task.memoryRangesLh⟩, f, _, hr.trans haside.steps,
    hempty', hps.spaceSteps hlow, hranges, ⟨addRanges_objectSize hadd, hcap⟩, ?_, hnew, hroom₁,
    hps₁.takes.total, hroom', (hr.trans haside.steps).trans (hps.spec hown' hlow).2.1⟩
  exact (hps₂.frame_of_not_mapped hown₁ hlow₂ hv hout).1.trans hf

/-- An executable with a segment that takes sixteen pages of zeros before that of `smallElf`. -/
def zerosElf : List U8 :=
  [0x7F, 0x45, 0x4C, 0x46, 2, 1, 1] ++ List.replicate 9 0 ++ [2, 0, 0x3E, 0, 1, 0, 0, 0] ++
    [0, 0, 0x40, 0, 0, 0, 0, 0] ++ [64, 0, 0, 0, 0, 0, 0, 0] ++ List.replicate 16 0 ++
    [2, 0] ++ List.replicate 6 0 ++
    [1, 0, 0, 0, 6, 0, 0, 0] ++ List.replicate 8 0 ++ [0, 0, 0x3F, 0, 0, 0, 0, 0] ++
    List.replicate 16 0 ++ [0, 0, 1, 0, 0, 0, 0, 0] ++ List.replicate 8 0 ++
    [1, 0, 0, 0, 5, 0, 0, 0] ++ [176, 0, 0, 0, 0, 0, 0, 0] ++ [0, 0, 0x40, 0, 0, 0, 0, 0] ++
    List.replicate 8 0 ++ [3, 0, 0, 0, 0, 0, 0, 0] ++ [0, 1, 0, 0, 0, 0, 0, 0] ++
    List.replicate 8 0 ++ [0xEB, 0xFE, 0x90]

theorem Image.bytes_of_content {image : Image} {content : List U8} (h : image.content = content) :
    ∀ i < content.length, image.bytes i = content.getD i 0 := by
  subst h
  intro i hi
  rw [Image.content_length] at hi
  rw [Image.content, slice_getD _ _ _ hi, Nat.zero_add]

theorem zerosElf_image {image : Image} (h : image.content = zerosElf) :
    image.size = 179 ∧ image.elfHeader = ⟨0x400000, 64, 2⟩ ∧
      image.segment 0 = ⟨⟨0x3F0000, 0x10000⟩, 0, 0⟩ ∧
      image.segment 1 = ⟨⟨0x400000, 0x100⟩, 176, 3⟩ ∧
      slice image.bytes 176 3 = [0xEB, 0xFE, 0x90] := by
  have hlength : zerosElf.length = 179 := by decide +kernel
  have hbytes := Image.bytes_of_content h
  rw [hlength] at hbytes
  have hheader : image.elfHeader = ⟨0x400000, 64, 2⟩ := by
    refine (Elf64Hdr.decode_congr fun i hi => hbytes i (by omega)).trans ?_
    decide
  have hsegment : ∀ i < 2, image.segment i =
      .decode fun j => zerosElf.getD (64 + 56 * i + j) 0 := by
    intro i hi
    rw [Image.segment, hheader]
    exact Elf64Phdr.decode_congr fun j hj => hbytes _ (by
      rw [show (64 : U64).toNat = 64 from rfl]
      omega)
  refine ⟨?_, hheader, (hsegment 0 (by omega)).trans (by decide),
    (hsegment 1 (by omega)).trans (by decide), ?_⟩
  · rw [← Image.content_length, h, hlength]
  · have hdata : slice image.bytes 176 3 = slice (zerosElf.getD · 0) 176 3 :=
      slice_congr fun i hi => hbytes (176 + i) (by omega)
    rw [hdata]
    decide

def letterMemory : ByteMemory := fun x => if x = 0x400F00 then 0x61 else 0

theorem letterMemory_path : StringAt letterMemory 0x400F00 [0x61] :=
  ⟨by decide +kernel, by decide⟩

theorem letterMemory_args : WordsAt letterMemory 0x400F08 [0] := by decide +kernel

/-- EXEC of a file that has sixteen pages of zeros below its code. The first of them take the
frame that the page at 0x400000 had. -/
theorem staleRun : ∃ (r₀ : KmemRun) (mem : Memory) (c : ExecCall) (s : ExecState)
    (run : ExecRun (fun _ => ramOps) (fun _ => noDevice) 4096 FsKernel.noResult
      (fun _ _ => 0xA5) c s) (accesses : List (Access (U64 × U8))) (f : U64),
    KmemReachable sixteenMegabytes r₀ ∧ EmptyLowerHalf r₀ mem c.pml4Page ∧
    Relation.ReflTransGen (SpaceStep c.pml4Page) ⟨r₀, mem⟩ s.space ∧
    s.task.memoryRangesLh = elfRanges [⟨0x400000, 0x1000⟩] ∧ run.LowerHalf false ∧
    run.accesses false = .use (0x400000, 0xEB) :: accesses ∧
    s.space.frameAt c.pml4Page 0x400000 = some f ∧
    run.space.frameAt c.pml4Page 0x400000 ≠ some f := by
  obtain ⟨r₀, mem, task, f, kf, hr, hempty, hsteps, hlist, ⟨hsize, hcap⟩, hf, hnew, hroomf, htotalf,
    hroom, hreach⟩ := lowProgram
  obtain ⟨k, a, b, hroot, hpath, -, hcontent, -⟩ := exists_two_files (a := zerosElf) (b := [])
    (by decide +kernel) (by decide)
  obtain ⟨himage, hheader, hsegment₀, hsegment₁, hdata⟩ := zerosElf_image hcontent
  have hnum : (k.fs.image a).elfHeader.ePhnum.toNat = 2 := by
    rw [hheader]
    rfl
  have hphoff : (k.fs.image a).elfHeader.ePhoff.toNat = 64 := by
    rw [hheader]
    rfl
  have hheaders : (k.fs.image a).segmentHeaders = [⟨0x3F0000, 0x10000⟩, ⟨0x400000, 0x100⟩] := by
    rw [Image.segmentHeaders, Image.segments, hnum]
    simp [List.range_succ, hsegment₀, hsegment₁]
  have hranges : elfRanges [⟨0x3F0000, 0x10000⟩, ⟨0x400000, 0x100⟩] =
      [⟨0x3F0000, 0x400000, .normal⟩, ⟨0x400000, 0x400100, .normal⟩, ⟨0x401000, 0x402000, .heap⟩,
        stackRange] := by decide
  have hstop : ∀ range ∈ elfRanges [⟨0x3F0000, 0x10000⟩, ⟨0x400000, 0x100⟩],
      range.stop.toNat ≤ 2 ^ 47 := by
    rw [hranges]
    decide
  have hown : OwnFrames 0xffff800000102000 task.kernel.space := .of_steps
    (hr.inv sixteenMegabytes_init) (hr.directMap sixteenMegabytes_directMap).1 hempty hsteps
  have htable : ∀ i < 2, i < 2 ^ 16 ∧ 64 + 56 * i + 56 ≤ 179 := by omega
  have hready : ExecReady 4096
      (slashCall [0xffff800000103030, 0xffff800000103058, 0xffff800000103080]) ⟨k, letterMemory, task, []⟩ [a, b] [0x61] a := by
    refine ⟨hroot.toRamKernel, by simp, hpath, letterMemory_path, by decide, ?_, by omega,
      hown, fun pathBuffer stackBuffer s₁ s₂ h₁ h₂ => ?_, ?_⟩
    · simp [slashCall, FsKernel.userEnd]
    · obtain ⟨⟨page₁, kernel₁⟩, ha₁, he₁⟩ := bind_eq_ok h₁
      cases he₁
      obtain ⟨⟨page₂, kernel₂⟩, ha₂, he₂⟩ := bind_eq_ok h₂
      cases he₂
      exact noArgBuffers letterMemory_args hreach ha₁ ha₂ rfl
    · have hstarts : ∀ x ∈ [(0xffff800000103030 : U64), 0xffff800000103058, 0xffff800000103080],
          (x - BitVec.ofNat 64 slabHeaderSize - (x &&& pageAddressMask)).setWidth 16 %
            task.kernel.ranges.objectSize = 0 := by
        rw [hsize]
        simp [slabHeaderSize, pageAddressMask]
      obtain ⟨slab, hfree, hcapacity⟩ := freeRanges_starts hstarts
      exact ⟨slab, hfree, hcapacity.symm ▸ hcap⟩
  obtain ⟨run, haccesses, hlist', hloaded, hnil, hload⟩ := hready.exists_run (n := 1000) rfl
    (by rw [himage]; omega) (by rw [hnum, hphoff, himage]; exact fun i hi => (htable i hi).2)
    (by rw [hheaders]; exact hstop)
    (hroom.mono (by rw [hheaders, hranges]; decide)) (fun _ => noDevice) FsKernel.noResult
    (fun _ _ => 0xA5)
  have haccesses' : run.accesses false =
      [.use (0x400000, 0xEB), .use (0x400001, 0xFE), .use (0x400002, 0x90)] := by
    have his : ∀ i ∈ List.range 2, i < 2 ^ 16 ∧
        (k.fs.image a).elfHeader.ePhoff.toNat + 56 * i + 56 ≤ (k.fs.image a).size ∧
        ((k.fs.image a).segment i).pOffset.toNat + ((k.fs.image a).segment i).pFilesz.toNat ≤
          (k.fs.image a).size := by
      rw [hphoff, himage]
      intro i hi
      obtain rfl | rfl : i = 0 ∨ i = 1 := by
        rw [List.mem_range] at hi
        omega
      · rw [hsegment₀]
        decide
      · rw [hsegment₁]
        decide
    rw [haccesses, hnum, (hroot.toRamKernel.readsImage (by simp) _).segmentAccesses false _ 0 his]
    have hzero : (k.fs.image a).segmentCopy ⟨⟨0x3F0000, 0x10000⟩, 0, 0⟩ = (0x3F0000, []) := rfl
    have hcode : (k.fs.image a).segmentCopy ⟨⟨0x400000, 0x100⟩, 176, 3⟩ =
        (0x400000, [0xEB, 0xFE, 0x90]) := congrArg _ hdata
    rw [show List.range 2 = [0, 1] from rfl, List.flatMap_cons, List.flatMap_cons, hsegment₀,
      hsegment₁, hzero, hcode]
    rfl
  have hlower : run.LowerHalf false := by
    refine ⟨by rw [hlist', hheaders]; exact hstop, fun a ha => ?_⟩
    rw [haccesses'] at ha
    simp only [List.mem_cons, Access.use.injEq, List.not_mem_nil, or_false] at ha
    rcases ha with rfl | rfl | rfl <;> decide
  have hemptied : OwnFrames 0xffff800000102000 run.emptied.task.kernel.space := by
    refine ⟨hloaded.map, fun v w g hv hw hg => ?_⟩
    have hnone := (hloaded.mapped v hv).mp (Option.isSome_iff_exists.mpr ⟨g, hg⟩)
    cases hnone
  obtain ⟨k', g, hg, hnewg, hfilled, hstart, htotal⟩ := loadElf64_newFrame (v := 0x400000) (n := 16)
    (m := 0x3F0) hemptied hnil hload ((congrArg _ hheaders).trans hranges)
    (by rw [hheaders]; exact hstop) (by decide) (by decide)
    ⟨⟨0x400000, 0x400100, .normal⟩, by simp, by decide⟩
  obtain ⟨hstart', htotal'⟩ := run.emptied_region hown
  obtain ⟨-, hstart₀, htotal₀⟩ := kmemSteps_region hr
  obtain ⟨-, hstart₁, htotal₁⟩ := kmemSteps_region hreach
  have htotalk : k'.kmemTotalPages = sixteenMegabytes.kmemTotalPages :=
    htotal.trans (htotal'.trans htotal₁)
  have hne : f ≠ g := by
    refine hnew.ne hroomf hnewg hfilled ?_ htotalf ?_ ?_
    · exact (hstart.trans (hstart'.trans hstart₁)).trans hstart₀.symm
    · rw [htotalk]
      decide
    · rw [htotal₀]
      decide
  refine ⟨r₀, mem, _, _, run, _, f, hr, hempty, hsteps, hlist, hlower, haccesses', hf, ?_⟩
  intro he
  exact hne (Option.some.inj (he.symm.trans hg))

end Persistos
