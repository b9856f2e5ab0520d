import Persistos.ExecTranslations
import Persistos.TaskSpaces

/-! SYSCALL_EXEC among other tasks. Whatever file it reads, what it does to user memory is a
run of calls that change the memory of the calling task and no other. -/

namespace Persistos

open Theory

section Load

variable {σ : Type} {ops : FilesystemOps σ} {fops : FileOperations σ} {inode : Inode}
  {pml4 : U64} {stack : Nat → Nat → U8} {filp : File} {hdr : Elf64Hdr}

/-- The ranges are listed for some headers, those that were read. -/
theorem listSegments_headers {s s' : ElfLoad σ} {is : List Nat}
    (h : is.foldlM (listSegment ops fops inode stack filp hdr) s = .ok s') :
    ∃ segmentHeaders, (segmentRanges segmentHeaders).foldlM TaskMemory.addRange s.task =
        .ok s'.task ∧
      s'.largestEndAddress = (segmentRanges segmentHeaders).foldl
        (fun largest range => if largest < range.stop then range.stop else largest)
        s.largestEndAddress := by
  induction is generalizing s with
  | nil =>
    cases h
    exact ⟨[], rfl, rfl⟩
  | cons i is ih =>
    obtain ⟨s₁, h₁, h⟩ := bind_eq_ok h
    obtain ⟨segmentHeaders, hadd, hlargest⟩ := ih h
    obtain ⟨⟨segmentHeader, files⟩, hread, h₁⟩ := bind_eq_ok h₁
    dsimp only at h₁
    split at h₁
    · cases h₁
      exact ⟨segmentHeaders, hadd, hlargest⟩
    · next hnull =>
      obtain ⟨task, hrange, h₁⟩ := bind_eq_ok h₁
      cases h₁
      refine ⟨segmentHeader.toPhdr :: segmentHeaders, ?_, ?_⟩
      · rw [segmentRanges_cons, if_neg hnull, List.foldlM_cons, hrange, ok_bind]
        exact hadd
      · rw [segmentRanges_cons, if_neg hnull, List.foldl_cons]
        exact hlargest

theorem mapImage_loads {files : σ} {task : TaskMemory} {image : ElfLoad σ}
    (h : mapImage ops fops inode pml4 stack files task filp = .ok (hdr, image)) :
    ∃ segmentHeaders, task.loadElf64 pml4 segmentHeaders = .ok image.task := by
  obtain ⟨r, -, h⟩ := bind_eq_ok h
  obtain ⟨s, hlist, h⟩ := bind_eq_ok h
  obtain ⟨task₁, hheap, h⟩ := bind_eq_ok h
  obtain ⟨task₂, hstack, h⟩ := bind_eq_ok h
  obtain ⟨space, hsetup, h⟩ := bind_eq_ok h
  cases h
  obtain ⟨segmentHeaders, hadd, hlargest⟩ := listSegments_headers hlist
  rw [hlargest] at hheap
  refine ⟨segmentHeaders, ?_⟩
  simp only [TaskMemory.loadElf64, elfRanges, List.foldlM_append, List.foldlM_cons,
    List.foldlM_nil, bind_assoc, pure_bind, hadd, ok_bind, largestEndAddress]
  rw [hheap, ok_bind, hstack, ok_bind, hsetup]
  rfl

theorem UserMap.loadElf64_ranges {task task' : TaskMemory} {segmentHeaders : List Phdr}
    (h : UserMap task.kernel.space pml4) (hnil : task.memoryRangesLh = [])
    (hs : task.loadElf64 pml4 segmentHeaders = .ok task') :
    task'.memoryRangesLh = elfRanges segmentHeaders := by
  obtain ⟨task₁, hadd, hs⟩ := bind_eq_ok hs
  obtain ⟨space, -, hs⟩ := bind_eq_ok hs
  cases hs
  rw [(h.addRanges hadd).2, hnil, List.nil_append]

theorem readSegments_task {is : List Nat} {s s' : ElfLoad σ}
    (h : is.foldlM (readSegment ops fops inode pml4 stack filp hdr) s = .ok s') :
    s'.task = ⟨{ s.task.kernel with space := s'.task.kernel.space }, s.task.memoryRangesLh⟩ := by
  induction is generalizing s with
  | nil =>
    cases h
    rfl
  | cons i is ih =>
    obtain ⟨s₁, h₁, h⟩ := bind_eq_ok h
    obtain ⟨⟨segmentHeader, files⟩, -, h₁⟩ := bind_eq_ok h₁
    obtain ⟨r, -, h₁⟩ := bind_eq_ok h₁
    obtain ⟨space, -, h₁⟩ := bind_eq_ok h₁
    cases h₁
    have hrest := ih h
    exact hrest

/-- What `load_elf64` does to the memory of the task once the pages are mapped. -/
theorem loadElf64_stores {files files' : σ} {task task' : TaskMemory} {result : LoaderResult}
    (h : loadElf64 ops fops inode pml4 stack files task filp = .ok (result, files', task')) :
    ∃ hdr image, mapImage ops fops inode pml4 stack files task filp = .ok (hdr, image) ∧
      result.userEntryRsp = userEntryRsp ∧
      task' = ⟨{ image.task.kernel with space := task'.kernel.space }, image.task.memoryRangesLh⟩ ∧
      image.task.kernel.space.performAll pml4 (segmentAccesses ops fops inode stack false filp
        hdr (List.range hdr.ePhnum.toNat) image.files) = .ok task'.kernel.space := by
  obtain ⟨hdr, image, hmap, hstores⟩ : ∃ hdr image,
      mapImage ops fops inode pml4 stack files task filp = .ok (hdr, image) ∧
      image.task.kernel.space.performAll pml4 (segmentAccesses ops fops inode stack false filp hdr
        (List.range hdr.ePhnum.toNat) image.files) = .ok task'.kernel.space := loadElf64_parts h
  obtain ⟨r, hread, h⟩ := bind_eq_ok h
  obtain ⟨s, hlist, h⟩ := bind_eq_ok h
  obtain ⟨task₁, hheap, h⟩ := bind_eq_ok h
  obtain ⟨task₂, hstack, h⟩ := bind_eq_ok h
  obtain ⟨space, hsetup, h⟩ := bind_eq_ok h
  obtain ⟨s', hsegments, h⟩ := bind_eq_ok h
  cases h
  have hmap' := hmap
  rw [mapImage, hread, ok_bind] at hmap'
  dsimp only at hmap'
  rw [hlist, ok_bind, hheap, ok_bind, hstack, ok_bind, hsetup, ok_bind] at hmap'
  obtain ⟨rfl, rfl⟩ := Prod.mk.inj (Except.ok.inj hmap')
  exact ⟨_, _, hmap, rfl, readSegments_task hsegments, hstores⟩

theorem copyAccesses_low {bytes : List U8} {dest : U64} {a : U64 × U8}
    (ha : .use a ∈ copyAccesses bytes dest) (h : dest.toNat + bytes.length ≤ 2 ^ 47) :
    a.1.toNat < 2 ^ 47 := by
  induction bytes generalizing dest with
  | nil => cases ha
  | cons b bytes ih =>
    rw [List.length_cons] at h
    rcases List.mem_cons.mp ha with he | ha
    · cases he
      dsimp only
      omega
    · refine ih ha ?_
      rw [BitVec.toNat_add, show (1 : U64).toNat = 1 from rfl]
      omega

end Load

namespace TaskSpaces

variable {ι : Type} [DecidableEq ι] {s s' : TaskSpaces ι} {e : SpaceEvent ι} {i j : ι}
  {t : TaskSpace} {p : U64}

/-- A frame that is allocated and that no task has. -/
def Spare (s : TaskSpaces ι) (p : U64) : Prop :=
  ⟨p, 1⟩ ∈ s.space.kernel.live ∧ ∀ j, p ∉ s.owned j

/-- An own call leaves such a frame to the kernel. -/
theorem Inv.spare_own {call : OwnCall} (h : Inv s) (hs : s.Step (.own i call) s')
    (hp : s.Spare p) : s'.Spare p := by
  obtain ⟨hlive, hnone⟩ := hp
  cases hs with
  | @own _ t _ k ranges ht hcall =>
    obtain ⟨-, hacts, -⟩ := hcall.spec (h.memory i t ht)
    rw [show s.kernel.space.owned t.pml4Page = s.owned i from (owned_some ht).symm] at hacts
    refine ⟨hacts.cells.live p hlive (hnone i), fun j hj => ?_⟩
    by_cases hji : j = i
    · subst hji
      rw [owned_some (t := ⟨t.pml4Page, ranges⟩) (Function.update_self _ _ _)] at hj
      exact hacts.cells.notMem hlive (hnone j) hj
    · cases htj : s.task j with
      | none =>
        rw [owned_none ((Function.update_of_ne hji _ _).trans htj)] at hj
        exact hj
      | some t' =>
        have hkept := (h.frame hacts (h.separated.apart j i hji) t' htj).2.2
        rw [owned_some ((Function.update_of_ne hji _ _).trans htj)] at hj
        rw [show (space ⟨k, Function.update s.task i (some ⟨t.pml4Page, ranges⟩)⟩).owned
          t'.pml4Page = s.owned j from hkept] at hj
        exact hnone j hj

/-- The system in which task `i` has the given memory. -/
def withTask (s : TaskSpaces ι) (i : ι) (pml4 : U64) (task : TaskMemory) : TaskSpaces ι :=
  ⟨task.kernel, Function.update s.task i (some ⟨pml4, task.memoryRangesLh⟩)⟩

theorem withTask_own {pml4 : U64} {call : OwnCall} {task task' : TaskMemory}
    (h : call.Runs pml4 task task') :
    (s.withTask i pml4 task).Step (.own i call) (s.withTask i pml4 task') := by
  have hstep := Step.own (s := s.withTask i pml4 task) (i := i)
    (t := ⟨pml4, task.memoryRangesLh⟩) (Function.update_self _ _ _) h
  rw [withTask, withTask]
  rwa [withTask, Function.update_idem] at hstep

theorem withTask_other {pml4 : U64} {task : TaskMemory} {k : UserKernel}
    (h : Acts task.kernel.space {f | ∀ j, f ∉ (s.withTask i pml4 task).owned j} k.space
      {f | ∀ j, f ∉ (s.withTask i pml4 task).owned j}) :
    (s.withTask i pml4 task).Step .other (s.withTask i pml4 ⟨k, task.memoryRangesLh⟩) :=
  .other h

theorem Run.spare {calls : List OwnCall} (hs : Inv s) (h : Run s (calls.map (.own i)) s')
    (hp : s.Spare p) : s'.Spare p := by
  induction calls generalizing s with
  | nil =>
    cases h
    exact hp
  | cons call calls ih =>
    cases h with
    | cons hstep hrun => exact ih (hs.step hstep).1 hrun (hs.spare_own hstep hp)

/-- Bytes that are stored one after the other through user addresses. -/
theorem withTask_stores {pml4 : U64} {accesses : List (Access (U64 × U8))} {task : TaskMemory}
    {space : UserSpace} (hlow : ∀ a, .use a ∈ accesses → a.1.toNat < 2 ^ 47)
    (h : task.kernel.space.performAll pml4 accesses = .ok space) :
    ∃ stores : List (U64 × U8), Run (s.withTask i pml4 task)
      (stores.map fun a => .own i (.write a.1 a.2))
      (s.withTask i pml4 ⟨{ task.kernel with space }, task.memoryRangesLh⟩) := by
  induction accesses generalizing task with
  | nil =>
    cases h
    exact ⟨[], .nil⟩
  | cons access accesses ih =>
    have hrest : ∀ a, .use a ∈ accesses → a.1.toNat < 2 ^ 47 :=
      fun a ha => hlow a (List.mem_cons_of_mem _ ha)
    cases access with
    | reload => exact ih hrest h
    | use a =>
      obtain ⟨space₁, hwrite, h⟩ := bind_eq_ok h
      obtain ⟨stores, hrun⟩ :=
        @ih ⟨{ task.kernel with space := space₁ }, task.memoryRangesLh⟩ hrest h
      exact ⟨a :: stores, .cons (withTask_own (.write (hlow a List.mem_cons_self) hwrite)) hrun⟩

end TaskSpaces

/-- The file and the arguments stay where a program can be: segments in the lower half from page
boundaries on, their bytes in the lower half, the arguments in the page for them. -/
structure ExecRun.Bounded {ops : Inode → FilesystemOps FsKernel}
    {fops : Inode → FileOperations FsKernel} {fuel : Nat} {r : VfsLookupResult}
    {stack : Nat → Nat → U8} {c : ExecCall} {s : ExecState}
    (run : ExecRun ops fops fuel r stack c s) : Prop where
  low : run.LowerHalf false
  segments : ∀ range ∈ run.ranges, range.type = .normal → range.stop.toNat ≤ 2 ^ 47 - 4096 ∧
    (PageAligned range.start ∨ range.stop ≤ range.start &&& pageAddressMask)
  arguments : (run.locals.stackBuffer + 4096 - run.locals.relocatedArgPointersPointer).toNat ≤ 4096

section Exec

variable {ι : Type} [DecidableEq ι] {S : TaskSpaces ι} {i : ι} {fuel : Nat}
  {r : VfsLookupResult} {c : ExecCall} {s s' : ExecState}

open TaskSpaces

theorem ExecState.kpageAlloc_fresh {page : U64} (hk : KmemInv s.space.kernel)
    (hd : DirectMap s.space.kernel.kmem) (h : s.kpageAlloc = .ok (page, s')) :
    ⟨page, 1⟩ ∈ s'.space.kernel.live ∧ ⟨page, 1⟩ ∉ s.space.kernel.live := by
  obtain ⟨⟨p, kernel⟩, halloc, h⟩ := bind_eq_ok h
  cases h
  obtain ⟨-, hlive⟩ := KmemRun.allocPage_step halloc
  obtain ⟨-, hfresh, -⟩ := KmemRun.allocPage_frame hk hd halloc
  exact ⟨hlive ▸ List.mem_cons_self, hfresh⟩

theorem withTask_self {t : TaskSpace} (ht : S.task i = some t) :
    S.withTask i t.pml4Page ⟨S.kernel, t.memoryRangesLh⟩ = S := by
  rw [withTask]
  exact congrArg (TaskSpaces.mk S.kernel) ((Function.update_eq_self_iff).mpr ht.symm)

/-- EXEC up to the lookup of the path, which leaves two pages to the kernel. -/
theorem ExecState.prepareExec_step {t : TaskSpace} {l : ExecLocals} (h : Inv S)
    (ht : S.task i = some t) (hs : s.task = ⟨S.kernel, t.memoryRangesLh⟩)
    (hp : s.prepareExec fuel r c = .ok (l, s')) :
    S.Step .other (S.withTask i t.pml4Page s'.task) ∧
      (S.withTask i t.pml4Page s'.task).Spare l.pathBuffer ∧
      (S.withTask i t.pml4Page s'.task).Spare l.stackBuffer ∧ l.stackBuffer ≠ l.pathBuffer := by
  obtain ⟨⟨pathBuffer, s₁⟩, hpath, hp⟩ := bind_eq_ok hp
  obtain ⟨bytes, -, hp⟩ := bind_eq_ok hp
  obtain ⟨⟨stackBuffer, s₂⟩, hstack, hp⟩ := bind_eq_ok hp
  obtain ⟨packed, -, hp⟩ := bind_eq_ok hp
  obtain ⟨path, -, hp⟩ := bind_eq_ok hp
  obtain ⟨found, -, hp⟩ := bind_eq_ok hp
  obtain ⟨rfl, rfl⟩ := Prod.mk.inj (Except.ok.inj hp)
  dsimp only
  have hspace : s.space = S.space := congrArg (fun task => task.kernel.space) hs
  obtain ⟨haside₁, -⟩ := kpageAlloc_aside hpath
  obtain ⟨haside₂, -⟩ := kpageAlloc_aside hstack
  have hkmem : KmemInv s.space.kernel := hspace ▸ h.kmem
  have hdirect : DirectMap s.space.kernel.kmem := hspace ▸ h.direct
  obtain ⟨hin₁, hfresh₁⟩ := ExecState.kpageAlloc_fresh hkmem hdirect hpath
  obtain ⟨hin₂, hfresh₂⟩ := ExecState.kpageAlloc_fresh (hkmem.steps haside₁.steps)
    (hdirect.steps haside₁.steps) hstack
  have haside := haside₁.trans haside₂
  have hranges : s₂.task.memoryRangesLh = t.memoryRangesLh := by
    rw [(ExecState.kpageAlloc_spec hstack).1, (ExecState.kpageAlloc_spec hpath).1]
    exact congrArg TaskMemory.memoryRangesLh hs
  have hwith : S.withTask i t.pml4Page s₂.task = ⟨s₂.task.kernel, S.task⟩ := by
    rw [withTask, hranges]
    exact congrArg (TaskSpaces.mk _) ((Function.update_eq_self_iff).mpr ht.symm)
  have hacts : Acts S.space {f | ∀ j, f ∉ S.owned j} s₂.task.kernel.space
      {f | ∀ j, f ∉ S.owned j} := by
    rw [← hspace]
    exact haside.acts _
  have hspare : ∀ p, ⟨p, 1⟩ ∈ s₂.space.kernel.live → ⟨p, 1⟩ ∉ s.space.kernel.live →
      (S.withTask i t.pml4Page s₂.task).Spare p := by
    intro p hin hfresh
    rw [hwith]
    refine ⟨hin, fun j hj => ?_⟩
    rw [(h.owned_other hacts j).2] at hj
    rw [hspace] at hfresh
    exact hfresh (h.separated.live j hj)
  refine ⟨hwith ▸ .other hacts, hspare _ (haside₂.live _ hin₁) hfresh₁,
    hspare _ hin₂ fun hin => hfresh₂ (haside₁.live _ hin), ?_⟩
  rintro rfl
  exact hfresh₂ hin₁

/-- The two pages are given back. -/
theorem TaskSpaces.Spare.free_step {pml4 p q : U64} (hp : (S.withTask i pml4 s.task).Spare p)
    (hq : (S.withTask i pml4 s.task).Spare q) (hne : p ≠ q) :
    (S.withTask i pml4 s.task).Step .other
      (S.withTask i pml4 ((s.kpageFree p).kpageFree q).task) := by
  have hfree : Acts s.space {f | ∀ j, f ∉ (S.withTask i pml4 s.task).owned j} (s.kpageFree p).space
      {f | ∀ j, f ∉ (S.withTask i pml4 s.task).owned j} :=
    .kpageFree hp.1 hp.2 (Set.Subset.refl _)
  have hlive : (⟨q, 1⟩ : Block) ∈ (s.kpageFree p).space.kernel.live :=
    (List.mem_erase_of_ne fun he => hne (Block.mk.inj he).1.symm).mpr hq.1
  exact withTask_other (hfree.trans (.kpageFree hlive hq.2 (Set.Subset.refl _)))

/-- What EXEC does behind a path that resolves: the memory of the task is emptied, the ranges of
a file are mapped, and bytes are written to it. -/
theorem ExecRun.startProgram_calls {ops : Inode → FilesystemOps FsKernel}
    {fops : Inode → FileOperations FsKernel} {stack : Nat → Nat → U8} {pml4 : U64}
    (run : ExecRun ops fops fuel r stack c s) (hbounded : run.Bounded) (hc : c.pml4Page = pml4)
    (h : Inv (S.withTask i pml4 run.prepared.task))
    (hstart : run.prepared.startProgram ops fops fuel stack c run.locals = .ok s') :
    ∃ (segmentHeaders : List Phdr) (stores : List (U64 × U8)),
      Run (S.withTask i pml4 run.prepared.task)
        ((.empty :: .load segmentHeaders :: stores.map fun a => OwnCall.write a.1 a.2).map (.own i))
        (S.withTask i pml4 s'.task) := by
  subst hc
  obtain ⟨e, hfree, hstart⟩ := bind_eq_ok hstart
  obtain rfl := Except.ok.inj (run.free.symm.trans hfree)
  obtain ⟨bytes, -, hstart⟩ := bind_eq_ok hstart
  obtain ⟨⟨result, kernel, task⟩, hload, hstart⟩ := bind_eq_ok hstart
  obtain ⟨hdr, image, hmap, hrsp, htask, hstores⟩ := loadElf64_stores hload
  obtain ⟨rfl, rfl⟩ := Prod.mk.inj (Except.ok.inj (run.map.symm.trans hmap))
  obtain ⟨m, hfreed, he⟩ := bind_eq_ok run.free
  have hempty : OwnCall.empty.Runs c.pml4Page run.prepared.task run.emptied.task := by
    rw [← Except.ok.inj he]
    exact .empty hfreed
  have hnil : run.emptied.task.memoryRangesLh = [] := by rw [← Except.ok.inj he]
  obtain ⟨hinv, -⟩ := h.step (withTask_own hempty)
  have hmem : MemoryInv c.pml4Page run.emptied.task :=
    hinv.memory i ⟨c.pml4Page, run.emptied.task.memoryRangesLh⟩ (Function.update_self _ _ _)
  obtain ⟨segmentHeaders, himage⟩ := mapImage_loads run.map
  have hranges := hmem.own.map.loadElf64_ranges hnil himage
  have hpages : PageBounded (.load segmentHeaders) := by
    intro range hr
    have hin : range ∈ run.ranges := by
      rw [ExecRun.ranges, hranges]
      exact List.mem_append_left _ hr
    obtain ⟨segmentHeader, -, rfl⟩ := List.mem_map.mp hr
    exact hbounded.segments _ hin rfl
  obtain ⟨stores, hrun⟩ := withTask_stores (s := S) (i := i) hbounded.low.stores hstores
  rw [← htask] at hrun
  obtain ⟨space, hcopy, he⟩ := bind_eq_ok hstart
  have hlast : s'.task = ⟨{ task.kernel with space }, task.memoryRangesLh⟩ := by
    rw [← Except.ok.inj he]
    rfl
  rw [← UserSpace.performAll_copy] at hcopy
  obtain ⟨arguments, hrun'⟩ : ∃ stores : List (U64 × U8), Run (S.withTask i c.pml4Page task)
      (stores.map fun a => .own i (.write a.1 a.2)) (S.withTask i c.pml4Page
        ⟨{ task.kernel with space }, task.memoryRangesLh⟩) := withTask_stores (fun a ha => by
    refine copyAccesses_low ha ?_
    rw [slice_length, hrsp, BitVec.toNat_sub, show userEntryRsp.toNat = 2 ^ 47 from rfl]
    have hle := hbounded.arguments
    omega) hcopy
  rw [← hlast] at hrun'
  refine ⟨segmentHeaders, stores ++ arguments, .cons (withTask_own hempty)
    (.cons (withTask_own (.load hpages hnil himage)) ?_)⟩
  rw [List.map_append, List.map_append, List.map_map, List.map_map]
  exact hrun.append hrun'

/-- Own calls of a task change what its program has and nothing else. -/
theorem foldl_own (calls : List OwnCall) (p : Programs ι) :
    (calls.map (SpaceEvent.own i)).foldl (fun p e => e.apply p) p =
      Function.update p i ((p i).map fun q => calls.foldl (fun q call => call.apply q) q) := by
  induction calls generalizing p with
  | nil => simp
  | cons call calls ih =>
    rw [List.map_cons, List.foldl_cons, ih, SpaceEvent.apply, Function.update_idem,
      Function.update_self, Option.map_map]
    rfl

/-- EXEC among other tasks, whatever the file is. If it returns -1 the program has its memory, and
if it returns 0 the program has what was loaded and stored, whatever it had. -/
theorem TaskSpaces.Inv.sysExec (h : Inv S) {t : TaskSpace} (ht : S.task i = some t)
    (hs : s.task = ⟨S.kernel, t.memoryRangesLh⟩) (hc : c.pml4Page = t.pml4Page)
    {ops : Inode → FilesystemOps FsKernel} {fops : Inode → FileOperations FsKernel}
    {stack : Nat → Nat → U8} (hbounded : ∀ run : ExecRun ops fops fuel r stack c s, run.Bounded)
    {res : U64} (hexec : s.sysExec ops fops fuel r stack c = .ok (res, s')) :
    ∃ calls : List OwnCall,
      Run S (.other :: (calls.map (.own i) ++ [.other])) (S.withTask i t.pml4Page s'.task) ∧
      (S.withTask i t.pml4Page s'.task).programs = Function.update S.programs i
        ((S.programs i).map fun p => calls.foldl (fun p call => call.apply p) p) ∧
      (res = -1 ∧ calls = [] ∨ res = 0 ∧ ∃ (segmentHeaders : List Phdr) (stores : List (U64 × U8)),
        calls = .empty :: .load segmentHeaders :: stores.map fun a => .write a.1 a.2) := by
  have hcompose : ∀ {calls : List OwnCall} {task : TaskMemory},
      Run S (.other :: (calls.map (.own i) ++ [.other])) (S.withTask i t.pml4Page task) →
      (S.withTask i t.pml4Page task).programs = Function.update S.programs i
        ((S.programs i).map fun p => calls.foldl (fun p call => call.apply p) p) := by
    intro calls task hrun
    rw [(h.run hrun).2, List.foldl_cons, List.foldl_append, foldl_own]
    rfl
  obtain ⟨⟨l, prepared⟩, hprep, hexec⟩ := bind_eq_ok hexec
  obtain ⟨hother, hpath, hstack, hne⟩ := ExecState.prepareExec_step h ht hs hprep
  dsimp only at hexec
  split at hexec
  · cases hexec
    have hall : Run S (.other :: ([].map (.own i) ++ [.other])) _ :=
      .cons hother (.cons (hstack.free_step hpath hne) .nil)
    exact ⟨[], hall, hcompose hall, .inl ⟨rfl, rfl⟩⟩
  · next hexists =>
    obtain ⟨started, hstart, hexec⟩ := bind_eq_ok hexec
    cases hexec
    obtain ⟨e, hfree, hrest⟩ := bind_eq_ok hstart
    obtain ⟨bytes, hname, hrest⟩ := bind_eq_ok hrest
    obtain ⟨⟨result, kernel, task⟩, hload, hrest⟩ := bind_eq_ok hrest
    obtain ⟨hdr, image, hmap, -⟩ := loadElf64_stores hload
    let run : ExecRun ops fops fuel r stack c s :=
      ⟨l, prepared, hprep, not_not.mp hexists, e, hfree, bytes, hname, hdr, image, hmap⟩
    obtain ⟨hinv, -⟩ := h.step hother
    obtain ⟨segmentHeaders, stores, hcalls⟩ :=
      run.startProgram_calls (hbounded run) hc hinv hstart
    have hpath' := Run.spare hinv hcalls hpath
    have hstack' := Run.spare hinv hcalls hstack
    have hall := Run.cons hother (hcalls.append (.cons (hstack'.free_step hpath' hne) .nil))
    exact ⟨_, hall, hcompose hall, .inr ⟨rfl, segmentHeaders, stores, rfl⟩⟩

end Exec

end Persistos
