import Persistos.ExecSpaces
import Persistos.ExecStart

/-! EXEC of an executable in RAM, to its end. The calling program becomes what the file and the
arguments say, and every other program stays what it is. -/

namespace Persistos

open Theory

/-- The memory of a program as its loads see it. -/
def Program.memory (p : Program) : ByteMemory := fun v => (p.bytes v).getD 0

/-- What the file and the arguments make of a program. Its arguments start at `rsp`, in the last
page of the stack. -/
structure Installed (image : Image) (args : List (List U8)) (rsp : U64) (p : Program) : Prop where
  ranges : p.memoryRangesLh = elfRanges image.segmentHeaders
  pages : ∀ v : U64, (p.bytes v).isSome ↔
    v.toNat < 2 ^ 47 ∧ Program.pagesOf (elfRanges image.segmentHeaders) (v.toNat / 4096)
  file : ∀ q ∈ image.segments, ∀ i < q.pFilesz.toNat,
    p.bytes (q.pVaddr + BitVec.ofNat 64 i) = some (image.bytes (q.pOffset.toNat + i))
  zero : ∀ v : U64, v < rsp → (p.bytes v).isSome →
    (∀ q ∈ image.segments, ∀ i < q.pFilesz.toNat, v ≠ q.pVaddr + BitVec.ofNat 64 i) →
    p.bytes v = some 0
  stack : 2 ^ 47 ≤ rsp.toNat + 4096
  arguments : ∃ strings : List (U64 × List U8),
    strings.map Prod.snd = args ∧ UserArgs p.memory rsp strings

/-- An EXEC of an executable whose segments start at page boundaries. The task and the frame of
the interrupt are apart from the page for the arguments. -/
structure ExecCalled (fuel : Nat) (c : ExecCall) (s : ExecState) (ramFiles : List U64)
    (path : List U8) (f : U64) : Prop extends ExecReady fuel c s ramFiles path f where
  elf : ElfFile (s.kernel.fs.image f)
  segments : ∀ p ∈ (s.kernel.fs.image f).segments, PageAligned p.pVaddr
  frame : c.interruptRsp.toNat + 152 ≤ 2 ^ 64
  task : ∀ pathBuffer stackBuffer s₁ s₂, s.kpageAlloc = .ok (pathBuffer, s₁) →
    s₁.kpageAlloc = .ok (stackBuffer, s₂) → c.taskStruct.toNat + 296 ≤ stackBuffer.toNat ∨
      stackBuffer.toNat + 4096 ≤ c.taskStruct.toNat

section Arguments

variable {fuel : Nat} {r : VfsLookupResult} {c : ExecCall} {l : ExecLocals} {s t : ExecState}
  {ramFiles : List U64} {path : List U8} {f : U64}

/-- The arguments are packed in their page when the path has been looked up. -/
theorem ExecReady.packed (h : ExecReady fuel c s ramFiles path f)
    (hp : s.prepareExec fuel r c = .ok (l, t)) :
    ∃ s₁ s₂ args, s.kpageAlloc = .ok (l.pathBuffer, s₁) ∧
      s₁.kpageAlloc = .ok (l.stackBuffer, s₂) ∧ ArgVector s.bytes c.argv args ∧
      l.argc = args.length ∧ StringAt t.bytes l.pathBuffer path ∧
      PackedPage t.bytes l.stackBuffer l.relocatedArgPointers l.relocatedArgPointersPointer
        (args.map Prod.snd) := by
  obtain ⟨⟨pathBuffer, s₁⟩, hpath, hp⟩ := bind_eq_ok hp
  obtain ⟨memory₁, hcopy, hp⟩ := bind_eq_ok hp
  obtain ⟨⟨stackBuffer, s₂⟩, hstack, hp⟩ := bind_eq_ok hp
  obtain ⟨⟨memory₂, argc, relocated, sp⟩, hpack, hp⟩ := bind_eq_ok hp
  obtain ⟨name, -, hp⟩ := bind_eq_ok hp
  obtain ⟨found, -, hp⟩ := bind_eq_ok hp
  obtain ⟨rfl, rfl⟩ := Prod.mk.inj (Except.ok.inj hp)
  have hmax : NamingKernel.taskNameMaxlen = 256 := rfl
  have hshort := h.short
  obtain ⟨_, _, _, _, args, hcopy', hpack', hstring, hargs, hpage⟩ := NamingCall.packed_args
    (h.buffers _ _ _ _ hpath hstack) h.string (by omega) h.user h.fuel_le
  have hbytes : s₁.bytes = s.bytes := by rw [(ExecState.kpageAlloc_spec hpath).1]; rfl
  rw [hbytes] at hcopy
  cases hcopy'.symm.trans hcopy
  cases hpack'.symm.trans hpack
  exact ⟨s₁, s₂, args, hpath, hstack, hargs, rfl, hstring, hpage⟩

/-- The new name of the task leaves the page for the arguments alone. -/
theorem ExecCalled.rename_same (h : ExecCalled fuel c s ramFiles path f)
    (hp : s.prepareExec fuel r c = .ok (l, t)) {bytes : ByteMemory}
    (hname : strcpyAt t.bytes (c.taskStruct + NamingKernel.taskNameOffset) l.pathBuffer fuel 0 =
      .ok bytes) : SameOn t.bytes bytes l.stackBuffer.toNat (l.stackBuffer.toNat + 4096) := by
  obtain ⟨s₁, s₂, args, hpath, hstack, -, -, hstring, -⟩ := h.packed hp
  have hbuffers := h.buffers _ _ _ _ hpath hstack
  have htask := h.task _ _ _ _ hpath hstack
  have htaskPath := hbuffers.taskPath
  have htaskBound := hbuffers.taskBound
  have halign := hbuffers.path
  have hlt := l.pathBuffer.isLt
  have hshort := h.short
  have hfuel := h.fuel_le
  have hmax : NamingKernel.taskNameMaxlen = 256 := rfl
  simp only [PageAligned] at halign
  have hdest : (c.taskStruct + NamingKernel.taskNameOffset).toNat = c.taskStruct.toNat + 40 := by
    rw [BitVec.toNat_add, show NamingKernel.taskNameOffset.toNat = 40 from rfl]
    omega
  have hzero (a : U64) : a + BitVec.ofNat 64 0 = a := BitVec.add_zero a
  rw [strcpyAt_eq (w := path) (by rwa [hzero]) (by omega) (by omega) (by omega) (by omega), hzero,
    hzero] at hname
  cases hname
  exact fun x hx hx' => copyBytes_outside (by omega) (by omega)

/-- The arguments are copied to where `_start` looks for them, and nothing below them is. -/
theorem passArguments_ok {args : List (List U8)} (result : LoaderResult)
    (hp : PackedPage s.bytes l.stackBuffer l.relocatedArgPointers l.relocatedArgPointersPointer
      args)
    (hargc : l.argc = args.length) (ha : PageAligned l.stackBuffer)
    (hb : l.stackBuffer.toNat + 4096 < 2 ^ 64) (hrsp : result.userEntryRsp = userEntryRsp)
    (hframe : c.interruptRsp.toNat + 152 ≤ 2 ^ 64) (hown : OwnFrames c.pml4Page s.space)
    (hmapped : ∀ v : U64, 2 ^ 47 ≤ v.toNat + 4096 → v.toNat < 2 ^ 47 →
      (s.space.readUser c.pml4Page v).isSome) :
    ∃ (s' : ExecState) (rsp : U64), s.passArguments c l result = .ok s' ∧
      s'.task.memoryRangesLh = s.task.memoryRangesLh ∧
      load64 s'.bytes (entryRipSlot c.interruptRsp) = result.userEntryRip ∧
      load64 s'.bytes (entryRspSlot c.interruptRsp) = rsp ∧ 2 ^ 47 ≤ rsp.toNat + 4096 ∧
      (∀ v : U64, v < rsp → v.toNat < 2 ^ 47 →
        s'.space.readUser c.pml4Page v = s.space.readUser c.pml4Page v) ∧
      (∀ v : U64, v.toNat < 2 ^ 47 → ((s'.space.readUser c.pml4Page v).isSome ↔
        (s.space.readUser c.pml4Page v).isSome)) ∧
      ∃ strings : List (U64 × List U8), strings.map Prod.snd = args ∧
        UserArgs (s'.task.program c.pml4Page).memory rsp strings := by
  have hu := userEntryRsp_toNat
  have harray := hp.array
  have hlower := hp.lower
  have hroom := hp.room
  have hend : (l.stackBuffer + 4096).toNat = l.stackBuffer.toNat + 4096 := toNat_add_ofNat hb
  have hsp := moved_toNat (a := l.relocatedArgPointersPointer) hlower (by omega) hb
  have hlen : (l.stackBuffer + 4096 - l.relocatedArgPointersPointer).toNat =
      l.stackBuffer.toNat + 4096 - l.relocatedArgPointersPointer.toNat := by
    rw [BitVec.toNat_sub, hend]
    omega
  have hdest : userEntryRsp - (l.stackBuffer + 4096 - l.relocatedArgPointersPointer) =
      l.relocatedArgPointersPointer + (userEntryRsp - (l.stackBuffer + 4096)) := by bv_omega
  have hrel := hp.relocate hb (userEntryRsp - (l.stackBuffer + 4096))
  rw [ExecState.passArguments, hrsp, hargc]
  dsimp only
  rw [hdest, hlen]
  generalize store64 (relocateArgs l.relocatedArgPointers
    (userEntryRsp - (l.stackBuffer + 4096)) args.length 0 s.bytes) _ _ = moved at hrel ⊢
  generalize hr : l.relocatedArgPointersPointer + (userEntryRsp - (l.stackBuffer + 4096)) = rsp at *
  generalize hn : l.stackBuffer.toNat + 4096 - l.relocatedArgPointersPointer.toNat = n at *
  generalize hbs : slice (fun i => moved (l.relocatedArgPointersPointer + BitVec.ofNat 64 i)) 0 n =
    bytes at *
  have hlength : bytes.length = n := by rw [← hbs, slice_length]
  have hin : ∀ v : U64, InCopy (rsp, bytes) v ↔ rsp.toNat ≤ v.toNat ∧ v.toNat < 2 ^ 47 := by
    intro v
    simp only [InCopy, hlength]
    omega
  have hlow : rsp.toNat + bytes.length ≤ 2 ^ 47 := by omega
  have hsome : ∀ v : U64, InCopy (rsp, bytes) v → (s.space.readUser c.pml4Page v).isSome :=
    fun v hv => hmapped v (by rw [hin] at hv; omega) ((hin v).mp hv).2
  obtain ⟨space, hcopy, -, hbytes, hkeep⟩ := hown.copyToUser_ok hlow hsome
  have hrip : (entryRipSlot c.interruptRsp).toNat = c.interruptRsp.toNat + 112 :=
    words_toNat (by omega)
  have hrspSlot : (entryRspSlot c.interruptRsp).toNat = c.interruptRsp.toNat + 136 :=
    words_toNat (by omega)
  rw [hcopy, ok_bind]
  refine ⟨_, rsp, rfl, rfl, ?_, load64_store64 (by omega), by omega, fun v hv hlow => ?_,
    fun v hv => ?_, ?_⟩
  · dsimp only
    rw [load64_congr (store64_same (by omega) (by omega)) (by omega), load64_store64 (by omega)]
  · rw [BitVec.lt_def] at hv
    exact hkeep v hlow (by rw [hin]; omega)
  · by_cases hv' : InCopy (rsp, bytes) v
    · have hlt := (hin v).mp hv'
      have hsome := hbytes v hv hv'
      rw [List.getElem?_eq_getElem (by omega)] at hsome
      exact iff_of_true (Option.isSome_iff_exists.mpr ⟨_, hsome⟩)
        (hmapped v (by omega) hv)
    · exact iff_of_eq (congrArg (fun x => Option.isSome x = true) (hkeep v hv hv'))
  · subst hn
    have hcopied : Copied moved (Program.memory (TaskMemory.program ⟨{ s.task.kernel with space },
        s.task.memoryRangesLh⟩ c.pml4Page)) l.relocatedArgPointersPointer rsp
        (l.stackBuffer.toNat + 4096 - l.relocatedArgPointersPointer.toNat) := by
      intro i hi
      have hv : (rsp + BitVec.ofNat 64 i).toNat = rsp.toNat + i := toNat_add_ofNat (by omega)
      have hread := hbytes (rsp + BitVec.ofNat 64 i) (by omega) ((hin _).mpr (by omega))
      have hbyte : space.programBytes c.pml4Page (rsp + BitVec.ofNat 64 i) =
          some (moved (l.relocatedArgPointersPointer + BitVec.ofNat 64 i)) := by
        rw [UserSpace.programBytes, if_pos (by omega), hread, hv, Nat.add_sub_cancel_left, ← hbs,
          slice, List.getElem?_map, List.getElem?_range hi, Option.map_some, Nat.zero_add]
      exact congrArg (fun x => x.getD 0) hbyte
    rw [← hr] at hcopied ⊢
    refine ⟨_, ?_, hrel.userArgs hp (by simp only [PageAligned] at ha; omega) hb hcopied⟩
    rw [List.map_map]
    exact placeArgs_snd l.relocatedArgPointers args

end Arguments

/-- EXEC takes one way at most. -/
theorem ExecRun.unique {ops : Inode → FilesystemOps FsKernel}
    {fops : Inode → FileOperations FsKernel} {fuel : Nat} {r : VfsLookupResult}
    {stack : Nat → Nat → U8} {c : ExecCall} {s : ExecState}
    (run run' : ExecRun ops fops fuel r stack c s) : run = run' := by
  obtain ⟨l, t, hprep, hres, e, hfree, bytes, hname, hdr, image, hmap⟩ := run
  obtain ⟨l', t', hprep', hres', e', hfree', bytes', hname', hdr', image', hmap'⟩ := run'
  obtain ⟨rfl, rfl⟩ := Prod.mk.inj (Except.ok.inj (hprep.symm.trans hprep'))
  obtain rfl := Except.ok.inj (hfree.symm.trans hfree')
  obtain rfl := Except.ok.inj (hname.symm.trans hname')
  obtain ⟨rfl, rfl⟩ := Prod.mk.inj (Except.ok.inj (hmap.symm.trans hmap'))
  rfl

section Image

variable {image : Image}

theorem ElfFile.stop_le (h : ElfFile image) :
    ∀ range ∈ elfRanges image.segmentHeaders, range.stop.toNat ≤ 2 ^ 47 := by
  have hstack : stackRange.start.toNat = 2 ^ 47 - 0x100000 := rfl
  have hlargest := h.largestEndAddress_le
  exact elfRanges_stop_le (by omega)

theorem ElfFile.pageBounded (h : ElfFile image)
    (hs : ∀ p ∈ image.segments, PageAligned p.pVaddr) :
    ∀ range ∈ segmentRanges image.segmentHeaders, range.stop.toNat ≤ 2 ^ 47 - 4096 ∧
      PageAligned range.start := by
  intro range hr
  have hstack : stackRange.start.toNat = 2 ^ 47 - 0x100000 := rfl
  obtain ⟨p, hp, -, rfl⟩ := ElfFile.mem_segmentRanges.mp hr
  have hb := (h.bounds hp).2
  rw [h.stop_toNat hp]
  exact ⟨by omega, hs p hp⟩

end Image

section Exec

variable {fuel n : Nat} {c : ExecCall} {s : ExecState} {ramFiles : List U64} {path : List U8}
  {f : U64} (fops : Inode → FileOperations FsKernel) (r : VfsLookupResult) (stack : Nat → Nat → U8)

/-- The room that EXEC takes in memory, next to that of the old program. -/
def Image.execRoom (image : Image) : Nat :=
  4 * ((elfRanges image.segmentHeaders).map passes).sum +
    (elfRanges image.segmentHeaders).length + 2

theorem ExecCalled.exists_bounded (h : ExecCalled fuel c s ramFiles path f)
    (hroom : Room s.space.kernel.kmem (n + (s.kernel.fs.image f).execRoom)) :
    ∃ run : ExecRun (fun _ => ramOps) fops fuel r stack c s, run.Bounded ∧
      run.locals.lookupResult.inode = f ∧ run.emptied.kernel = s.kernel ∧
      Loaded c.pml4Page run.emptied.space (fun _ => False) ∧
      run.emptied.task.memoryRangesLh = [] ∧
      run.emptied.task.loadElf64 c.pml4Page (s.kernel.fs.image f).segmentHeaders =
        .ok run.image.task := by
  have hreads := h.ram.readsImage h.file (fops (s.kernel.inode f))
  have hstack : stackRange.start.toNat = 2 ^ 47 - 0x100000 := rfl
  have hin : ∀ i ∈ List.range (s.kernel.fs.image f).elfHeader.ePhnum.toNat, i < 2 ^ 16 ∧
      (s.kernel.fs.image f).elfHeader.ePhoff.toNat + 56 * i + 56 ≤ (s.kernel.fs.image f).size ∧
      ((s.kernel.fs.image f).segment i).pOffset.toNat +
        ((s.kernel.fs.image f).segment i).pFilesz.toNat ≤ (s.kernel.fs.image f).size := by
    intro i hi
    have hlt := List.mem_range.mp hi
    exact ⟨Nat.lt_trans hlt (BitVec.isLt _), h.elf.table i hlt, h.elf.inside _
      (List.mem_map_of_mem hi)⟩
  obtain ⟨run, haccesses, hranges, hloaded, hnil, hload⟩ := h.exists_run (n := n) rfl h.elf.header
    h.elf.table h.elf.stop_le (hroom.mono (by rw [Image.execRoom]; omega)) fops r stack
  obtain ⟨l, t, e, bytes, hprep, -, hinode, hfree, -, hkernel, -⟩ := h.emptied (r := r) (n := 0)
    (hroom.mono (by rw [Image.execRoom]; omega))
  obtain ⟨hl, ht⟩ := Prod.mk.inj (Except.ok.inj (run.prepare.symm.trans hprep))
  subst hl ht
  obtain rfl := Except.ok.inj (run.free.symm.trans hfree)
  refine ⟨run, ⟨⟨fun range hr => ?_, fun a ha => ?_⟩, fun range hr ht => ?_, ?_⟩, hinode, hkernel,
    hloaded, hnil, hload⟩
  · rw [hranges] at hr
    exact h.elf.stop_le range hr
  · rw [haccesses, hreads.segmentAccesses false stack 0 hin] at ha
    obtain ⟨i, hi, ha⟩ := List.mem_flatMap.mp ha
    obtain ⟨hf, hb⟩ := h.elf.bounds (List.mem_map_of_mem hi)
    refine copyAccesses_low ha ?_
    rw [Image.segmentCopy, slice_length]
    omega
  · rw [hranges] at hr
    simp only [elfRanges, List.mem_append, List.mem_cons, List.not_mem_nil, or_false] at hr
    rcases hr with hr | rfl | rfl
    · exact (h.elf.pageBounded h.segments range hr).imp_right .inl
    · cases ht
    · cases ht
  · obtain ⟨s₁, s₂, args, hpath, hstack, -, -, -, hpage⟩ := h.packed run.prepare
    have hbuffers := h.buffers _ _ _ _ hpath hstack
    have hbound := hbuffers.bound
    have harray := hpage.array
    have hlower := hpage.lower
    have hfits := hpage.room
    have hend : (run.locals.stackBuffer + 4096).toNat = run.locals.stackBuffer.toNat + 4096 :=
      toNat_add_ofNat hbound
    rw [BitVec.toNat_sub, hend]
    omega

/-- What is read of a loaded image below the arguments that were added to it. -/
theorem LoadedImage.installed {image : Image} {space : UserSpace} {task : TaskMemory}
    {pml4 rsp : U64} {args : List (List U8)} (helf : ElfFile image)
    (h : LoadedImage space pml4 image (imageHeap image.segmentHeaders).start)
    (hranges : task.memoryRangesLh = elfRanges image.segmentHeaders)
    (hrsp : 2 ^ 47 ≤ rsp.toNat + 4096)
    (hbelow : ∀ v : U64, v < rsp → v.toNat < 2 ^ 47 →
      task.kernel.space.readUser pml4 v = space.readUser pml4 v)
    (hmapped : ∀ v : U64, v.toNat < 2 ^ 47 →
      ((task.kernel.space.readUser pml4 v).isSome ↔ (space.readUser pml4 v).isSome))
    (hargs : ∃ strings : List (U64 × List U8), strings.map Prod.snd = args ∧
      UserArgs (task.program pml4).memory rsp strings) :
    Installed image args rsp (task.program pml4) := by
  have hstack : stackRange.start.toNat = 2 ^ 47 - 0x100000 := rfl
  have hlow : ∀ v : U64, v.toNat < 2 ^ 47 →
      (task.program pml4).bytes v = task.kernel.space.readUser pml4 v := fun v hv => if_pos hv
  have hhigh : ∀ v : U64, ¬v.toNat < 2 ^ 47 → (task.program pml4).bytes v = none :=
    fun v hv => if_neg hv
  refine ⟨hranges, fun v => ?_, fun q hq i hi => ?_, fun v hv hsome hout => ?_, hrsp, hargs⟩
  · by_cases hv : v.toNat < 2 ^ 47
    · rw [hlow v hv, hmapped v hv, ← isSome_frameAt, h.pages v hv, ← helf.elfRanges_iff hv]
      exact (and_iff_right hv).symm
    · rw [hhigh v hv]
      exact iff_of_false Bool.false_ne_true fun hh => hv hh.1
  · obtain ⟨hf, hb⟩ := helf.bounds hq
    have hv : (q.pVaddr + BitVec.ofNat 64 i).toNat = q.pVaddr.toNat + i :=
      toNat_add_ofNat (by omega)
    rw [hlow _ (by omega), hbelow _ (by rw [BitVec.lt_def]; omega) (by omega)]
    exact h.file q hq i hi
  · by_cases hv' : v.toNat < 2 ^ 47
    · rw [hlow v hv', hmapped v hv', ← isSome_frameAt] at hsome
      rw [hlow v hv', hbelow v hv hv']
      exact h.zero v hv' hsome hout
    · rw [hhigh v hv'] at hsome
      cases hsome

/-- With room for it EXEC of an executable succeeds, and the program is what the file says. -/
theorem ExecCalled.sysExec_ok (h : ExecCalled fuel c s ramFiles path f)
    (hroom : Room s.space.kernel.kmem (n + (s.kernel.fs.image f).execRoom)) :
    ∃ (s' : ExecState) (rsp : U64) (args : List (U64 × List U8)),
      s.sysExec (fun _ => ramOps) fops fuel r stack c = .ok (0, s') ∧
      ArgVector s.bytes c.argv args ∧
      load64 s'.bytes (entryRipSlot c.interruptRsp) = (s.kernel.fs.image f).elfHeader.eEntry ∧
      load64 s'.bytes (entryRspSlot c.interruptRsp) = rsp ∧
      Installed (s.kernel.fs.image f) (args.map Prod.snd) rsp (s'.task.program c.pml4Page) := by
  obtain ⟨run, hbounded, hinode, hkernel, hloaded, hnil, hload⟩ :=
    h.exists_bounded fops r stack hroom
  have hstackRange : stackRange.start.toNat = 2 ^ 47 - 0x100000 := rfl
  have hreads := h.ram.readsImage h.file (fops (s.kernel.inode f))
  have hown : OwnFrames c.pml4Page run.emptied.task.kernel.space := by
    refine ⟨hloaded.map, fun v w g hv hw hg => ?_⟩
    exact ((hloaded.mapped v hv).mp (Option.isSome_iff_exists.mpr ⟨g, hg⟩)).elim
  obtain ⟨hlist, -⟩ := hloaded.loadElf64 hnil h.elf.stop_le hload
  have htask : run.emptied.task = ⟨run.emptied.task.kernel, []⟩ := by rw [← hnil]
  rw [htask] at hload
  obtain ⟨space, hcopy, hown', himage⟩ := h.elf.copyImage hown hloaded (fun _ hf => hf) hload
  have hprogram := hreads.loadElf64_eq h.elf c.pml4Page stack run.emptied.task
  rw [htask, hload, ok_bind, hcopy, ok_bind] at hprogram
  obtain ⟨s₁, s₂, args, hpath, hstack, hargs, hargc, -, hpage⟩ := h.packed run.prepare
  have hbuffers := h.buffers _ _ _ _ hpath hstack
  have hbytes : run.emptied.bytes = run.prepared.bytes := by
    obtain ⟨m, -, he⟩ := bind_eq_ok run.free
    rw [← Except.ok.inj he]
  have hpage' := hpage.congr hbuffers.bound (h.rename_same run.prepare (hbytes ▸ run.rename))
  have hstackPages : ∀ v : U64, 2 ^ 47 ≤ v.toNat + 4096 → v.toNat < 2 ^ 47 →
      (space.readUser c.pml4Page v).isSome := by
    intro v hv hv'
    rw [← isSome_frameAt, himage.pages v hv']
    exact .inr (.inr (by rw [BitVec.le_def]; omega))
  let loaded : ExecState := { run.emptied with
    kernel := s.kernel
    bytes := run.bytes
    task := ⟨{ run.image.task.kernel with space }, run.image.task.memoryRangesLh⟩ }
  obtain ⟨s', rsp, hpass, hranges, hrip, hrsp, hle, hbelow, hmapped, hstrings⟩ :=
    passArguments_ok (s := loaded) (c := c) ⟨(s.kernel.fs.image f).elfHeader.eEntry, userEntryRsp⟩
      hpage' (hargc.trans (List.length_map _).symm) hbuffers.stack hbuffers.bound rfl
      h.frame hown' hstackPages
  refine ⟨(s'.kpageFree run.locals.stackBuffer).kpageFree run.locals.pathBuffer, rsp, args, ?_,
    hargs, hrip, hrsp, himage.installed h.elf (hranges.trans hlist) hle hbelow hmapped hstrings⟩
  rw [ExecState.sysExec, run.prepare, ok_bind]
  dsimp only
  rw [if_neg (not_not_intro run.resolved), ExecState.startProgram, run.free, ok_bind, run.rename,
    ok_bind]
  dsimp only
  rw [hkernel, hinode, htask, hprogram, ok_bind]
  exact congrArg (fun x : Except Crash ExecState => x.bind fun s => .ok (0,
    (s.kpageFree run.locals.stackBuffer).kpageFree run.locals.pathBuffer)) hpass

end Exec

open TaskSpaces

section System

variable {ι : Type} [DecidableEq ι] {S : TaskSpaces ι} {i : ι} {fuel : Nat} {c : ExecCall}
  {s s' : ExecState} {ramFiles : List U64} {path : List U8} {f : U64}

/-- EXEC of an executable replaces the program of its caller and leaves those of the others. -/
theorem TaskSpaces.Inv.exec_installs (h : Inv S) {t : TaskSpace} (ht : S.task i = some t)
    (hs : s.task = ⟨S.kernel, t.memoryRangesLh⟩) (hc : c.pml4Page = t.pml4Page)
    (he : ExecCalled fuel c s ramFiles path f)
    (hroom : Room S.space.kernel.kmem (s.kernel.fs.image f).execRoom)
    (fops : Inode → FileOperations FsKernel) (r : VfsLookupResult) (stack : Nat → Nat → U8) :
    ∃ (s' : ExecState) (p : Program) (args : List (U64 × List U8)) (calls : List OwnCall)
      (S' : TaskSpaces ι), s.sysExec (fun _ => ramOps) fops fuel r stack c = .ok (0, s') ∧
      Run S (.other :: (calls.map (.own i) ++ [.other])) S' ∧ S'.kernel = s'.task.kernel ∧
      S'.programs = Function.update S.programs i (some p) ∧ ArgVector s.bytes c.argv args ∧
      load64 s'.bytes (entryRipSlot c.interruptRsp) = (s.kernel.fs.image f).elfHeader.eEntry ∧
      Installed (s.kernel.fs.image f) (args.map Prod.snd)
        (load64 s'.bytes (entryRspSlot c.interruptRsp)) p := by
  have hspace : s.space = S.space := congrArg (fun task => task.kernel.space) hs
  have hroom' : Room s.space.kernel.kmem (0 + (s.kernel.fs.image f).execRoom) := by
    rwa [hspace, Nat.zero_add]
  obtain ⟨run, hbounded, -⟩ := he.exists_bounded fops r stack hroom'
  obtain ⟨s', rsp, args, hexec, hargs, hrip, hrsp, hinstalled⟩ :=
    he.sysExec_ok fops r stack hroom'
  obtain ⟨calls, hrun, hprograms, -⟩ := h.sysExec ht hs hc (fun run' => run.unique run' ▸ hbounded)
    hexec
  rw [hc] at hinstalled
  refine ⟨s', s'.task.program t.pml4Page, args, calls, _, hexec, hrun, rfl, ?_, hargs, hrip,
    hrsp.symm ▸ hinstalled⟩
  funext j
  by_cases hj : j = i
  · subst hj
    have htask : (S.withTask j t.pml4Page s'.task).task j =
        some ⟨t.pml4Page, s'.task.memoryRangesLh⟩ := Function.update_self _ _ _
    rw [Function.update_self, programs, htask]
    rfl
  · rw [hprograms, Function.update_of_ne hj, Function.update_of_ne hj]

end System

open ExecState

theorem zerosElf_segments {image : Image} (h : image.content = zerosElf) :
    image.segments = [⟨⟨0x3F0000, 0x10000⟩, 0, 0⟩, ⟨⟨0x400000, 0x100⟩, 176, 3⟩] ∧
      image.segmentHeaders = [⟨0x3F0000, 0x10000⟩, ⟨0x400000, 0x100⟩] := by
  obtain ⟨-, hheader, hsegment₀, hsegment₁, -⟩ := zerosElf_image h
  have hnum : image.elfHeader.ePhnum.toNat = 2 := by rw [hheader]; rfl
  have hsegments : image.segments = [⟨⟨0x3F0000, 0x10000⟩, 0, 0⟩, ⟨⟨0x400000, 0x100⟩, 176, 3⟩] := by
    rw [Image.segments, hnum]
    simp [List.range_succ, hsegment₀, hsegment₁]
  exact ⟨hsegments, by rw [Image.segmentHeaders, hsegments]; rfl⟩

theorem zerosElf_elfFile {image : Image} (h : image.content = zerosElf) :
    ElfFile image ∧ (∀ p ∈ image.segments, PageAligned p.pVaddr) ∧ image.execRoom ≤ 3000 := by
  obtain ⟨hsize, hheader, -⟩ := zerosElf_image h
  obtain ⟨hsegments, hheaders⟩ := zerosElf_segments h
  have hnum : image.elfHeader.ePhnum.toNat = 2 := by rw [hheader]; rfl
  have hphoff : image.elfHeader.ePhoff.toNat = 64 := by rw [hheader]; rfl
  refine ⟨⟨?_, ?_, ?_, ?_, ?_⟩, ?_, ?_⟩
  · omega
  · omega
  · rw [hsegments, List.forall_mem_cons, List.forall_mem_singleton]
    exact ⟨.inr ⟨by decide, by decide, by decide⟩, .inr ⟨by decide, by decide, by decide⟩⟩
  · rw [hsegments, hsize]
    decide
  · rw [hsegments, List.pairwise_cons, List.forall_mem_singleton]
    refine ⟨fun n hn hn' => ?_, List.pairwise_singleton _ _⟩
    have hstop : n * 4096 < 0x400000 := hn.2
    have hstart : 0x400000 / 4096 ≤ n := hn'.1
    omega
  · rw [hsegments]
    decide
  · rw [Image.execRoom, hheaders]
    decide

/-- The first task calls EXEC with the path of that executable. -/
theorem execCall : ∃ (k : UserKernel) (S : TaskSpaces Nat) (t : TaskSpace) (c : ExecCall)
    (s : ExecState) (ramFiles : List U64) (f : U64), KmemReachable sixteenMegabytes k.space.kernel ∧
    Run (boot k) [.setup 1, .own 1 (.load [⟨0x400000, 0x1000⟩])] S ∧ S.task 1 = some t ∧
    s.task = ⟨S.kernel, t.memoryRangesLh⟩ ∧ c.pml4Page = t.pml4Page ∧
    ExecCalled 4096 c s ramFiles [0x61] f ∧
    Room S.space.kernel.kmem (s.kernel.fs.image f).execRoom ∧
    (s.kernel.fs.image f).content = zerosElf := by
  obtain ⟨k, k₁, pml4, S, hk, hrun, htasks, hmap, hreach, hslab, hload, hcap, -, hroom⟩ := loadedRun
  obtain ⟨files, f, g, hroot, hpath, -, hcontent, -⟩ := exists_two_files (a := zerosElf) (b := [])
    (by decide +kernel) (by decide)
  obtain ⟨helf, haligned, hpages⟩ := zerosElf_elfFile hcontent
  have hstop : ∀ range ∈ elfRanges [⟨0x400000, 0x1000⟩], range.stop.toNat ≤ 2 ^ 47 := by decide
  have ht : S.task 1 = some ⟨pml4, elfRanges [⟨0x400000, 0x1000⟩]⟩ :=
    htasks ▸ Function.update_self _ _ _
  obtain ⟨hinv, -⟩ := (boot_inv sixteenMegabytes_init sixteenMegabytes_directMap hk).run hrun
  have hmem : MemoryInv pml4 ⟨S.kernel, elfRanges [⟨0x400000, 0x1000⟩]⟩ := hinv.memory 1 _ ht
  have hreach' : KmemReachable sixteenMegabytes S.kernel.space.kernel :=
    hreach.trans (hmap.loadElf64_steps rfl hstop hload)
  have hsize : S.kernel.ranges.objectSize = 40 := by
    obtain ⟨s₁, hadd, hload⟩ := bind_eq_ok hload
    obtain ⟨space, -, he⟩ := bind_eq_ok hload
    have hranges : S.kernel.ranges = s₁.kernel.ranges :=
      congrArg (fun s => s.kernel.ranges) (Except.ok.inj he).symm
    rw [hranges, addRanges_objectSize hadd, hslab]
    rfl
  let objects : List U64 := [0xffff800000103030, 0xffff800000103058, 0xffff800000103080]
  have hstarts : ∀ x ∈ objects, (x - BitVec.ofNat 64 slabHeaderSize -
      (x &&& pageAddressMask)).setWidth 16 % S.kernel.ranges.objectSize = 0 := by
    rw [hsize]
    simp [objects, slabHeaderSize, pageAddressMask]
  obtain ⟨slab, hfree, hcapacity⟩ := freeRanges_starts hstarts
  let s : ExecState := ⟨files, letterMemory, ⟨S.kernel, elfRanges [⟨0x400000, 0x1000⟩]⟩, []⟩
  have hpages' : ∀ pathBuffer stackBuffer s₁ s₂, s.kpageAlloc = .ok (pathBuffer, s₁) →
      s₁.kpageAlloc = .ok (stackBuffer, s₂) →
        ExecBuffers letterMemory 0x400F08 pathBuffer stackBuffer 0xFFFF900000003000 ∧
          stackBuffer.toNat + 4096 ≤ 0xFFFF900000003000 := by
    intro pathBuffer stackBuffer s₁ s₂ h₁ h₂
    obtain ⟨⟨page₁, kernel₁⟩, ha₁, he₁⟩ := bind_eq_ok h₁
    cases he₁
    obtain ⟨⟨page₂, kernel₂⟩, ha₂, he₂⟩ := bind_eq_ok h₂
    cases he₂
    obtain ⟨-, hbuffers⟩ :=
      twoPages sixteenMegabytes_init sixteenMegabytes_directMap hreach' ha₁ ha₂
    obtain ⟨-, -, hend⟩ := hbuffers _ (List.mem_cons_of_mem _ List.mem_cons_self)
    have hregion : sixteenMegabytes.kmemStart.toNat + 4096 * sixteenMegabytes.kmemTotalPages.toNat ≤
        0xFFFF900000003000 := by decide
    exact ⟨noArgBuffers letterMemory_args hreach' ha₁ ha₂ rfl, hend.trans hregion⟩
  refine ⟨k, S, _, { slashCall objects with pml4Page := pml4 }, s, [f, g], f, hk, hrun, ht, rfl,
    rfl, ⟨⟨hroot.toRamKernel, List.mem_cons_self, hpath, letterMemory_path, by decide, ?_, Nat.le_refl _,
      hmem.own, fun pathBuffer stackBuffer s₁ s₂ h₁ h₂ => (hpages' _ _ _ _ h₁ h₂).1,
      slab, hfree, hcapacity ▸ hcap⟩, helf, haligned, ?_,
      fun pathBuffer stackBuffer s₁ s₂ h₁ h₂ => .inr (hpages' _ _ _ _ h₁ h₂).2⟩,
    hroom.mono hpages, hcontent⟩
  · simp [slashCall, FsKernel.userEnd]
  · simp [slashCall]

end Persistos
