import Persistos.ElfImages
import Persistos.NameCopies
import Persistos.Teardown

/-! The whole of SYSCALL_EXEC. A path that does not resolve is refused and nothing is
lost. Behind any other path the old program is gone before the file is read. -/

namespace Persistos

open Theory

/-- The kernel and the task that calls EXEC. `bytes` is the memory that holds the
buffers, the arguments, the `task_struct` and the frame of the interrupt. -/
structure ExecState where
  kernel : FsKernel
  bytes : ByteMemory
  task : TaskMemory
  files : List OpenFile

/-- The arguments of EXEC, and where the parts of the current task are. -/
structure ExecCall where
  pathArg : U64
  argv : U64
  interruptRsp : U64
  pml4Page : U64
  taskStruct : U64
  rangeObjects : List U64

/-- The local variables of EXEC once the path is resolved. -/
structure ExecLocals where
  pathBuffer : U64
  stackBuffer : U64
  argc : Nat
  relocatedArgPointers : U64
  relocatedArgPointersPointer : U64
  lookupResult : VfsLookupResult

namespace ExecState

def space (s : ExecState) : UserSpace := s.task.kernel.space

def setSpace (s : ExecState) (space : UserSpace) : ExecState :=
  { s with task := ⟨{ s.task.kernel with space }, s.task.memoryRangesLh⟩ }

def kpageAlloc (s : ExecState) : Except Crash (U64 × ExecState) := do
  let (page, kernel) ← s.space.kernel.allocPage
  .ok (page, s.setSpace ⟨kernel, s.space.mem⟩)

def kpageFree (s : ExecState) (page : U64) : ExecState :=
  s.setSpace ⟨s.space.kernel.freePages ⟨page, 1⟩, s.space.mem⟩

/-- EXEC as far as `vfs_resolve`. -/
def prepareExec (fuel : Nat) (r : VfsLookupResult) (c : ExecCall) (s : ExecState) :
    Except Crash (ExecLocals × ExecState) := do
  let (pathBuffer, s) ← s.kpageAlloc
  let bytes ← strcpyAt (fillBytes s.bytes pathBuffer 0 4096) pathBuffer c.pathArg fuel 0
  let (stackBuffer, s) ← s.kpageAlloc
  let (bytes, argc, relocatedArgPointers, relocatedArgPointersPointer) ←
    packStack fuel bytes stackBuffer c.argv
  let path ← readString bytes pathBuffer fuel
  let (lookupResult, kernel) ← s.kernel.vfsResolve fuel path r
  .ok (⟨pathBuffer, stackBuffer, argc, relocatedArgPointers, relocatedArgPointersPointer,
    lookupResult⟩, { s with kernel, bytes })

/-- `free_userspace_memory` of the current task. -/
def freeMemory (c : ExecCall) (s : ExecState) : Except Crash ExecState := do
  let m ← freeUserspaceMemory ⟨⟨s.space, []⟩, s.task.kernel.ranges, c.rangeObjects⟩ c.pml4Page
  .ok { s with task := ⟨{ s.task.kernel with space := m.pages.space, ranges := m.ranges }, []⟩ }

/-- The `memcpy` of the packed arguments to the stack of the new program. -/
def passArguments (c : ExecCall) (l : ExecLocals) (result : LoaderResult) (s : ExecState) :
    Except Crash ExecState := do
  let stackEnd := l.stackBuffer + 4096
  let stackLength := stackEnd - l.relocatedArgPointersPointer
  let userAddressDelta := result.userEntryRsp - stackEnd
  let bytes := relocateArgs l.relocatedArgPointers userAddressDelta l.argc 0 s.bytes
  let bytes := store64 bytes l.relocatedArgPointersPointer
    (load64 bytes l.relocatedArgPointersPointer + userAddressDelta)
  let space ← s.space.copyToUser c.pml4Page
    (slice (fun i => bytes (l.relocatedArgPointersPointer + BitVec.ofNat 64 i)) 0 stackLength.toNat)
    (result.userEntryRsp - stackLength)
  let bytes := store64 bytes (entryRipSlot c.interruptRsp) result.userEntryRip
  let bytes := store64 bytes (entryRspSlot c.interruptRsp) (result.userEntryRsp - stackLength)
  .ok { s.setSpace space with bytes }

section

variable (ops : Inode → FilesystemOps FsKernel) (fops : Inode → FileOperations FsKernel)
  (fuel : Nat) (r : VfsLookupResult) (stack : Nat → Nat → U8) (c : ExecCall)

/-- EXEC behind a path that resolves. `ops` and `fops` are the tables of an inode. -/
def startProgram (l : ExecLocals) (s : ExecState) : Except Crash ExecState := do
  let s ← s.freeMemory c
  let bytes ← strcpyAt s.bytes (c.taskStruct + NamingKernel.taskNameOffset) l.pathBuffer fuel 0
  let inode := s.kernel.inode l.lookupResult.inode
  let (result, kernel, task) ← loadElf64 (ops inode) (fops inode) inode c.pml4Page stack s.kernel
    s.task ⟨l.lookupResult.inode, 0⟩
  passArguments c l result { s with kernel, bytes, task }

def sysExec (s : ExecState) : Except Crash (U64 × ExecState) := do
  let (l, s) ← s.prepareExec fuel r c
  if l.lookupResult.status ≠ vfsResolveSuccessExists then
    .ok (-1, (s.kpageFree l.stackBuffer).kpageFree l.pathBuffer)
  else do
    let s ← s.startProgram ops fops fuel stack c l
    .ok (0, (s.kpageFree l.stackBuffer).kpageFree l.pathBuffer)

end

end ExecState

/-- EXEC with the result `res` is an error after which the task is as before, and no page
stays allocated. -/
structure ExecRefused (c : ExecCall) (s s' : ExecState) (res : U64) : Prop where
  error : res.toInt < 0
  ranges : s'.task.memoryRangesLh = s.task.memoryRangesLh
  tables : ∀ v : U64, s'.space.frameAt c.pml4Page v = s.space.frameAt c.pml4Page v
  name : ∀ i < NamingKernel.taskNameMaxlen,
    s'.bytes (c.taskStruct + NamingKernel.taskNameOffset + BitVec.ofNat 64 i) =
      s.bytes (c.taskStruct + NamingKernel.taskNameOffset + BitVec.ofNat 64 i)
  files : s'.files = s.files
  pages : s'.space.kernel.live.Perm s.space.kernel.live

section Load

variable {σ : Type} {ops : FilesystemOps σ} {fops : FileOperations σ} {inode : Inode}
  {pml4Page : U64} {stack : Nat → Nat → U8} {filp : File} {hdr : Elf64Hdr} {is : List Nat}

theorem addRange_ranges {task task' : TaskMemory} {range : UserspaceMemoryRange}
    (h : task.addRange range = .ok task') :
    task'.memoryRangesLh = task.memoryRangesLh ++ [range] := by
  obtain ⟨a, -, h⟩ := bind_eq_ok h
  cases h
  rfl

theorem listSegments_ranges {s s' : ElfLoad σ}
    (h : is.foldlM (listSegment ops fops inode stack filp hdr) s = .ok s') :
    ∃ listed, s'.task.memoryRangesLh = s.task.memoryRangesLh ++ listed := by
  induction is generalizing s with
  | nil =>
    cases h
    exact ⟨[], (List.append_nil _).symm⟩
  | cons i is ih =>
    obtain ⟨s₁, h₁, h⟩ := bind_eq_ok h
    obtain ⟨listed, hrest⟩ := ih h
    obtain ⟨⟨segmentHeader, files⟩, -, h₁⟩ := bind_eq_ok h₁
    dsimp only at h₁
    split at h₁
    · cases h₁
      exact ⟨listed, hrest⟩
    · obtain ⟨task, hadd, h₁⟩ := bind_eq_ok h₁
      cases h₁
      refine ⟨segmentRange segmentHeader.toPhdr :: listed, ?_⟩
      rw [hrest, addRange_ranges hadd, List.append_assoc]
      rfl

theorem readSegments_ranges {s s' : ElfLoad σ}
    (h : is.foldlM (readSegment ops fops inode pml4Page stack filp hdr) s = .ok s') :
    s'.task.memoryRangesLh = s.task.memoryRangesLh := by
  induction is generalizing s with
  | nil =>
    cases h
    rfl
  | cons i is ih =>
    obtain ⟨s₁, h₁, h⟩ := bind_eq_ok h
    obtain ⟨a, -, h₁⟩ := bind_eq_ok h₁
    obtain ⟨b, -, h₁⟩ := bind_eq_ok h₁
    obtain ⟨space, -, h₁⟩ := bind_eq_ok h₁
    cases h₁
    exact (ih h).trans rfl

/-- Whatever the file is, the loader ends with a page of heap and the stack. -/
theorem loadElf64_ranges {files files' : σ} {task task' : TaskMemory} {result : LoaderResult}
    (h : loadElf64 ops fops inode pml4Page stack files task filp = .ok (result, files', task')) :
    ∃ listed largestEndAddress, task'.memoryRangesLh =
      task.memoryRangesLh ++ listed ++ [heapRange largestEndAddress, stackRange] := by
  obtain ⟨hdr, -, h⟩ := bind_eq_ok h
  obtain ⟨s, hlist, h⟩ := bind_eq_ok h
  obtain ⟨task₁, hheap, h⟩ := bind_eq_ok h
  obtain ⟨task₂, hstack, h⟩ := bind_eq_ok h
  obtain ⟨space, -, h⟩ := bind_eq_ok h
  obtain ⟨s', hread, h⟩ := bind_eq_ok h
  cases h
  obtain ⟨listed, hlisted⟩ := listSegments_ranges hlist
  refine ⟨listed, s.largestEndAddress, (readSegments_ranges hread).trans ?_⟩
  refine (addRange_ranges hstack).trans ?_
  rw [addRange_ranges hheap, hlisted, List.append_assoc]
  rfl

theorem UserMap.loadElf64_steps {task task' : TaskMemory} {segmentHeaders : List Phdr}
    (h : UserMap task.kernel.space pml4Page) (hnil : task.memoryRangesLh = [])
    (hstop : ∀ range ∈ elfRanges segmentHeaders, range.stop.toNat ≤ 2 ^ 47)
    (hs : task.loadElf64 pml4Page segmentHeaders = .ok task') :
    Relation.ReflTransGen KmemStep task.kernel.space.kernel task'.kernel.space.kernel := by
  obtain ⟨t₁, h₁, hs⟩ := bind_eq_ok hs
  obtain ⟨space, hsetup, he⟩ := bind_eq_ok hs
  obtain rfl := Except.ok.inj he
  obtain ⟨haside, hr⟩ := h.addRanges h₁
  rw [hnil, List.nil_append] at hr
  rw [hr] at hsetup
  have hmap : ∀ (s s' : UserSpace) (_ : Nat → Prop) (p f : U64), p.toNat < 2 ^ 47 →
      UserMap s pml4Page ∧ Relation.ReflTransGen KmemStep task.kernel.space.kernel s.kernel →
      s.mapUserPage pml4Page p = .ok (f, s') →
      UserMap s' pml4Page ∧ Relation.ReflTransGen KmemStep task.kernel.space.kernel s'.kernel := by
    rintro s s' - p f hp ⟨hmap, hsteps⟩ hm
    obtain ⟨hmap', hgrow, -⟩ := hmap.mapUserPage hp hm
    exact ⟨hmap', hsteps.trans hgrow.steps⟩
  have hrun := @setupUserspaceMemory_covers pml4Page _ (fun h _ => h) hmap _ _ (fun _ => False) _
    ⟨(h.aside haside).1, haside.steps⟩ hstop hsetup
  exact hrun.2

end Load

theorem KmemInv.page_end {r : KmemRun} (hr : KmemInv r) (hd : DirectMap r.kmem) {b : Block}
    (hb : b ∈ r.live) : b.page.toNat + 4096 ≤
      r.kmem.kmemStart.toNat + 4096 * r.kmem.kmemTotalPages.toNat := by
  have hpos := hr.pos b hb
  have hle := hr.le_total b hb
  have hend := hd.end_le
  have he := congrArg BitVec.toNat (hr.address b hb)
  rw [pageAddress, BitVec.toNat_add, shiftLeft_toNat, BitVec.toNat_ofNat] at he
  omega

/-- Two pages that are handed out one after the other. -/
theorem twoPages {kmem : Kmem} {r r₁ r₂ : KmemRun} {page₁ page₂ : U64} {hhdm : Option U64}
    {memmap : Option (List MemmapEntry)} (hk : kmemInit hhdm memmap = .ok kmem) (hd : DirectMap kmem)
    (hr : KmemReachable kmem r) (h₁ : r.allocPage = .ok (page₁, r₁))
    (h₂ : r₁.allocPage = .ok (page₂, r₂)) :
    page₁ ≠ page₂ ∧ ∀ page ∈ [page₁, page₂], PageAligned page ∧
      kmem.kmemStart.toNat ≤ page.toNat ∧
      page.toNat + 4096 ≤ kmem.kmemStart.toNat + 4096 * kmem.kmemTotalPages.toNat := by
  obtain ⟨hstep₁, hlive₁⟩ := KmemRun.allocPage_step h₁
  obtain ⟨hstep₂, hlive₂⟩ := KmemRun.allocPage_step h₂
  have hreach : KmemReachable kmem r₂ := (hr.tail hstep₁).tail hstep₂
  have hinv := hreach.inv hk
  have hdirect := (hreach.directMap hd).1
  obtain ⟨-, hstart, htotal⟩ := kmemSteps_region hreach
  have hpage : ∀ page, ⟨page, 1⟩ ∈ r₂.live → PageAligned page ∧
      kmem.kmemStart.toNat ≤ page.toNat ∧
      page.toNat + 4096 ≤ kmem.kmemStart.toNat + 4096 * kmem.kmemTotalPages.toNat := by
    intro page hl
    obtain ⟨hal, hlt⟩ := hinv.page_toNat hdirect hl
    have hend := hinv.page_end hdirect hl
    rw [hstart] at hlt hend
    rw [htotal] at hend
    exact ⟨hal, Nat.le_of_lt hlt, hend⟩
  have hnd := hinv.nodup
  rw [hlive₂, hlive₁] at hnd hpage
  refine ⟨?_, List.forall_mem_cons.mpr ⟨hpage _ (by simp), List.forall_mem_singleton.mpr
    (hpage _ (by simp))⟩⟩
  rintro rfl
  exact (List.nodup_cons.mp hnd).1 List.mem_cons_self

namespace ExecState

variable {ops : Inode → FilesystemOps FsKernel} {fops : Inode → FileOperations FsKernel}
  {fuel : Nat} {r : VfsLookupResult} {stack : Nat → Nat → U8} {c : ExecCall} {l : ExecLocals}
  {s s' t : ExecState} {res page : U64}

theorem kpageAlloc_spec (h : s.kpageAlloc = .ok (page, s')) :
    s' = s.setSpace ⟨s'.space.kernel, s.space.mem⟩ ∧ s'.space.hhdm = s.space.hhdm ∧
      s'.space.kernel.live = ⟨page, 1⟩ :: s.space.kernel.live := by
  obtain ⟨⟨p, kernel⟩, halloc, h⟩ := bind_eq_ok h
  cases h
  obtain ⟨hstep, hlive⟩ := KmemRun.allocPage_step halloc
  exact ⟨rfl, hstep.region.1, hlive⟩

theorem kpageAlloc_eq {kernel : KmemRun} (h : s.space.kernel.allocPage = .ok (page, kernel)) :
    s.kpageAlloc = .ok (page, s.setSpace ⟨kernel, s.space.mem⟩) := by
  rw [kpageAlloc, h]
  rfl

/-- A path that fits its buffer, with arguments that fit theirs, is looked up. -/
theorem prepareExec_ok {s₁ s₂ : ExecState} {pathBuffer stackBuffer : U64} {path : List U8}
    {lookupResult : VfsLookupResult} {kernel : FsKernel}
    (hpath : s.kpageAlloc = .ok (pathBuffer, s₁)) (hstack : s₁.kpageAlloc = .ok (stackBuffer, s₂))
    (hb : ExecBuffers s.bytes c.argv pathBuffer stackBuffer c.taskStruct)
    (hs : StringAt s.bytes c.pathArg path) (hshort : path.length < 4096)
    (huser : c.pathArg.toNat + 4096 ≤ FsKernel.userEnd) (hfuel : 4096 ≤ fuel)
    (hres : s.kernel.vfsResolve fuel path r = .ok (lookupResult, kernel)) :
    ∃ l t, s.prepareExec fuel r c = .ok (l, t) ∧ l.lookupResult = lookupResult ∧
      t.kernel = kernel ∧ t.task = s₂.task ∧ l.pathBuffer = pathBuffer ∧
      StringAt t.bytes pathBuffer path := by
  obtain ⟨memory₁, memory₂, argc, relocated, sp, hcopy, hpack, hstring⟩ :=
    NamingCall.packed_path hb hs hshort huser hfuel
  have hread := readString_eq hstring (by omega : path.length < fuel)
  obtain ⟨h₁, -⟩ := kpageAlloc_spec hpath
  obtain ⟨h₂, -⟩ := kpageAlloc_spec hstack
  have hbytes : s₁.bytes = s.bytes := by
    rw [h₁]
    rfl
  have hkernel : s₂.kernel = s.kernel := by
    rw [h₂, h₁]
    rfl
  refine ⟨⟨pathBuffer, stackBuffer, argc, relocated, sp, lookupResult⟩,
    { s₂ with kernel, bytes := memory₂ }, ?_, rfl, rfl, rfl, rfl, hstring⟩
  rw [prepareExec, hpath, ok_bind]
  dsimp only
  rw [hbytes, hcopy, ok_bind, hstack, ok_bind]
  dsimp only
  rw [hpack, ok_bind]
  dsimp only
  rw [hread, ok_bind, hkernel, hres]
  rfl

/-- A path that does not resolve is refused. -/
theorem sysExec_missing (hprep : s.prepareExec fuel r c = .ok (l, t))
    (hmissing : l.lookupResult.status ≠ vfsResolveSuccessExists) :
    ∃ s', s.sysExec ops fops fuel r stack c = .ok (-1, s') ∧
      s'.task.memoryRangesLh = s.task.memoryRangesLh ∧ s'.files = s.files ∧
      (∀ v : U64, s'.space.frameAt c.pml4Page v = s.space.frameAt c.pml4Page v) ∧
      s'.space.kernel.live.Perm s.space.kernel.live := by
  refine ⟨(t.kpageFree l.stackBuffer).kpageFree l.pathBuffer, ?_, ?_⟩
  · rw [sysExec, hprep, ok_bind]
    exact if_pos hmissing
  · obtain ⟨⟨pathBuffer, s₁⟩, hpath, hprep⟩ := bind_eq_ok hprep
    obtain ⟨bytes, -, hprep⟩ := bind_eq_ok hprep
    obtain ⟨⟨stackBuffer, s₂⟩, hstack, hprep⟩ := bind_eq_ok hprep
    obtain ⟨packed, -, hprep⟩ := bind_eq_ok hprep
    obtain ⟨path, -, hprep⟩ := bind_eq_ok hprep
    obtain ⟨found, -, hprep⟩ := bind_eq_ok hprep
    cases hprep
    obtain ⟨h₁, hhdm₁, hlive₁⟩ := kpageAlloc_spec hpath
    obtain ⟨h₂, hhdm₂, hlive₂⟩ := kpageAlloc_spec hstack
    have hmem : s₂.space.mem = s.space.mem := by
      rw [h₂, h₁]
      rfl
    refine ⟨by rw [h₂, h₁]; rfl, by rw [h₂, h₁]; rfl, fun v => ?_, ?_⟩
    · have hframe : s₂.space.frameAt c.pml4Page v = s.space.frameAt c.pml4Page v := by
        rw [UserSpace.frameAt, UserSpace.frameAt, hmem, hhdm₂.trans hhdm₁]
      exact hframe
    · have hlive : ((s₂.space.kernel.live.erase ⟨stackBuffer, 1⟩).erase ⟨pathBuffer, 1⟩) =
          s.space.kernel.live := by
        rw [hlive₂, List.erase_cons_head, hlive₁, List.erase_cons_head]
      exact List.Perm.of_eq hlive

/-- Behind a path that resolves EXEC either crashes or returns 0, with new memory ranges. -/
theorem sysExec_exists (hprep : s.prepareExec fuel r c = .ok (l, t))
    (hexists : l.lookupResult.status = vfsResolveSuccessExists)
    (h : s.sysExec ops fops fuel r stack c = .ok (res, s')) :
    res = 0 ∧ ∃ listed largestEndAddress,
      s'.task.memoryRangesLh = listed ++ [heapRange largestEndAddress, stackRange] := by
  rw [sysExec, hprep, ok_bind] at h
  dsimp only at h
  rw [if_neg (not_not_intro hexists)] at h
  obtain ⟨s₁, hstart, h⟩ := bind_eq_ok h
  cases h
  obtain ⟨s₂, hfree, hstart⟩ := bind_eq_ok hstart
  obtain ⟨bytes, -, hstart⟩ := bind_eq_ok hstart
  obtain ⟨⟨result, kernel, task⟩, hload, hstart⟩ := bind_eq_ok hstart
  obtain ⟨space, -, hstart⟩ := bind_eq_ok hstart
  cases hstart
  obtain ⟨m, -, hfree⟩ := bind_eq_ok hfree
  cases hfree
  exact ⟨rfl, loadElf64_ranges hload⟩

/-- A slash in the page of a program, and an empty list of arguments. -/
def slashMemory : ByteMemory := fun x => if x = 0x400F00 then slash else 0

def slashCall (rangeObjects : List U64) : ExecCall where
  pathArg := 0x400F00
  argv := 0x400F08
  interruptRsp := 0xFFFF900000001F00
  pml4Page := 0xffff800000102000
  taskStruct := 0xFFFF900000003000
  rangeObjects

theorem slashMemory_path : StringAt slashMemory 0x400F00 [slash] :=
  ⟨by decide +kernel, by decide⟩

/-- An empty list of arguments lies outside the pages that are handed out for the buffers. -/
theorem noArgBuffers {memory : ByteMemory} (harray : WordsAt memory 0x400F08 [0]) {r r₁ r₂ : KmemRun}
    {page₁ page₂ : U64} (hr : KmemReachable sixteenMegabytes r) (h₁ : r.allocPage = .ok (page₁, r₁))
    (h₂ : r₁.allocPage = .ok (page₂, r₂)) {taskStruct : U64}
    (htask : taskStruct.toNat = 0xFFFF900000003000) :
    ExecBuffers memory 0x400F08 page₁ page₂ taskStruct := by
  obtain ⟨hne, hpages⟩ := twoPages sixteenMegabytes_init sixteenMegabytes_directMap hr h₁ h₂
  obtain ⟨⟨hal₁, hlow₁, hhigh₁⟩, hpages⟩ := List.forall_mem_cons.mp hpages
  obtain ⟨hal₂, hlow₂, hhigh₂⟩ := List.forall_mem_singleton.mp hpages
  have hstart : sixteenMegabytes.kmemStart.toNat = 0xffff800000100000 := rfl
  have htotal : sixteenMegabytes.kmemTotalPages.toNat = 0x1000 := rfl
  have hend : FsKernel.userEnd = 0x800000000000 := rfl
  have hargv : (0x400F08 : U64).toNat = 0x400F08 := rfl
  have hargs : ∀ page : U64, FsKernel.userEnd ≤ page.toNat → CallerArgs memory page 0x400F08 [] := by
    intro page hp
    refine ⟨⟨harray, by simp⟩, ⟨by decide, .inl ?_⟩, by simp, by decide⟩
    simp only [List.length_nil]
    omega
  exact ⟨hal₁, hal₂, by omega, by omega, hne, by omega, by omega, .inr (by omega), [],
    hargs _ (by omega), hargs _ (by omega)⟩

/-- A program that calls EXEC with the path of the root directory. -/
theorem slash_resolves : ∃ s : ExecState, s.kernel = FsKernel.bare ∧
    s.task.memoryRangesLh = elfRanges [⟨0x400000, 0x1000⟩] ∧
    (s.space.frameAt 0xffff800000102000 0x400F00).isSome ∧
    ∀ rangeObjects, ∃ l t, s.prepareExec 4096 FsKernel.noResult (slashCall rangeObjects) =
      .ok (l, t) ∧ l.lookupResult.status = vfsResolveSuccessExists ∧
      (FsKernel.bare.inode l.lookupResult.inode).type = inodeDirectory := by
  obtain ⟨k, hk, hempty, hroom, hcap, -⟩ := freshTask
  have hranges : elfRanges [⟨0x400000, 0x1000⟩] = [⟨0x400000, 0x401000, .normal⟩,
      ⟨0x401000, 0x402000, .heap⟩, stackRange] := by decide
  have hstop : ∀ range ∈ elfRanges [⟨0x400000, 0x1000⟩], range.stop.toNat ≤ 2 ^ 47 := by
    rw [hranges]
    decide
  have hinv := hempty.taskInv (hk.inv sixteenMegabytes_init)
    (hk.directMap sixteenMegabytes_directMap).1
  obtain ⟨task, hload, -, -, hroom⟩ := Room.loadElf64 (n := 2) hinv.loaded rfl hcap hstop
    (hroom.mono (by rw [hranges]; decide))
  obtain ⟨hlist, hloaded⟩ := hinv.loaded.loadElf64 rfl hstop hload
  have hreach : KmemReachable sixteenMegabytes task.kernel.space.kernel :=
    hk.trans (hinv.loaded.map.loadElf64_steps rfl hstop hload)
  obtain ⟨page₁, kernel₁, h₁, hroom⟩ := Room.allocPage (n := 1) hroom
  obtain ⟨page₂, kernel₂, h₂, -⟩ := Room.allocPage (n := 0) hroom
  have hbuffers : ExecBuffers slashMemory 0x400F08 page₁ page₂ (slashCall []).taskStruct :=
    noArgBuffers (by decide +kernel) hreach h₁ h₂ rfl
  have hresolve : (FsKernel.bare.vfsResolve 4096 [slash] FsKernel.noResult).map (fun p =>
      (p.1.status, (FsKernel.bare.inode p.1.inode).type)) =
        .ok (vfsResolveSuccessExists, inodeDirectory) := by decide +kernel
  refine ⟨⟨FsKernel.bare, slashMemory, task, []⟩, rfl, hlist, ?_, fun rangeObjects => ?_⟩
  · have hv : (0x400F00 : U64).toNat = 0x400F00 := rfl
    refine (hloaded.mapped 0x400F00 (by omega)).mpr (.inr ⟨⟨0x400000, 0x401000, .normal⟩, ?_, ?_⟩)
    · rw [hranges]
      exact List.mem_cons_self
    · exact ⟨by decide, by decide⟩
  · cases hlookup : FsKernel.bare.vfsResolve 4096 [slash] FsKernel.noResult with
    | error e =>
      rw [hlookup] at hresolve
      cases hresolve
    | ok p =>
      rw [hlookup] at hresolve
      obtain ⟨hstatus, htype⟩ := Prod.mk.inj (Except.ok.inj hresolve)
      have huser : (slashCall rangeObjects).pathArg.toNat + 4096 ≤ FsKernel.userEnd := by
        simp [slashCall, FsKernel.userEnd]
      have hfirst : kpageAlloc ⟨FsKernel.bare, slashMemory, task, []⟩ = .ok (page₁, _) :=
        kpageAlloc_eq h₁
      obtain ⟨l, t, hprep, hlookup, -⟩ := prepareExec_ok hfirst (kpageAlloc_eq h₂) hbuffers
        slashMemory_path (by decide) huser (Nat.le_refl _) hlookup
      rw [← hlookup] at hstatus htype
      exact ⟨l, t, hprep, hstatus, htype⟩

theorem not_refused (hprep : s.prepareExec fuel r c = .ok (l, t))
    (hexists : l.lookupResult.status = vfsResolveSuccessExists) :
    ¬∃ res s', s.sysExec ops fops fuel r stack c = .ok (res, s') ∧ ExecRefused c s s' res := by
  rintro ⟨res, s', h, hrefused⟩
  obtain ⟨rfl, -⟩ := sysExec_exists hprep hexists h
  exact absurd hrefused.error (by decide)

/-- EXEC of what is no program is never refused: behind each path that resolves it ends
the old program, whatever the inode is and holds. -/
theorem exec_never_refuses (ops : Inode → FilesystemOps FsKernel)
    (fops : Inode → FileOperations FsKernel) {fuel : Nat} {r : VfsLookupResult}
    (stack : Nat → Nat → U8) {c : ExecCall} {l : ExecLocals} {s t : ExecState}
    (hprep : s.prepareExec fuel r c = .ok (l, t))
    (hexists : l.lookupResult.status = vfsResolveSuccessExists) :
    (∀ res s', s.sysExec ops fops fuel r stack c = .ok (res, s') →
      res = 0 ∧ ∃ listed largestEndAddress,
        s'.task.memoryRangesLh = listed ++ [heapRange largestEndAddress, stackRange]) ∧
    ¬∃ res s', s.sysExec ops fops fuel r stack c = .ok (res, s') ∧ ExecRefused c s s' res :=
  ⟨fun _ _ h => sysExec_exists hprep hexists h, not_refused hprep hexists⟩

theorem exec_never_refuses_slash : ∃ s : ExecState, s.kernel = FsKernel.bare ∧
    ∀ (ops : Inode → FilesystemOps FsKernel) (fops : Inode → FileOperations FsKernel)
      (stack : Nat → Nat → U8) (rangeObjects : List U64),
      ¬∃ res s', s.sysExec ops fops 4096 FsKernel.noResult stack (slashCall rangeObjects) =
        .ok (res, s') ∧ ExecRefused (slashCall rangeObjects) s s' res := by
  obtain ⟨s, hkernel, -, -, hs⟩ := slash_resolves
  refine ⟨s, hkernel, fun ops fops stack rangeObjects => ?_⟩
  obtain ⟨l, t, hprep, hexists, -⟩ := hs rangeObjects
  exact (exec_never_refuses ops fops stack hprep hexists).2

/-- The directory `/` is no program, and EXEC does not refuse it. -/
theorem exec_takes_directory : ∃ (s t : ExecState) (l : ExecLocals),
    s.prepareExec 4096 FsKernel.noResult (slashCall []) = .ok (l, t) ∧
    l.lookupResult.status = vfsResolveSuccessExists ∧
    (FsKernel.bare.inode l.lookupResult.inode).type = inodeDirectory ∧
    s.task.memoryRangesLh = elfRanges [⟨0x400000, 0x1000⟩] ∧
    ∀ (ops : Inode → FilesystemOps FsKernel) (fops : Inode → FileOperations FsKernel)
      (stack : Nat → Nat → U8),
      ¬∃ res s', s.sysExec ops fops 4096 FsKernel.noResult stack (slashCall []) = .ok (res, s') ∧
        ExecRefused (slashCall []) s s' res := by
  obtain ⟨s, -, hranges, -, hs⟩ := slash_resolves
  obtain ⟨l, t, hprep, hexists, htype⟩ := hs []
  exact ⟨s, t, l, hprep, hexists, htype, hranges,
    fun _ _ _ => not_refused hprep hexists⟩

end ExecState

end Persistos
