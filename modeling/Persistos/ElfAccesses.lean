import Persistos.ExecCall
import Persistos.TableMoments
import Persistos.Theory.TranslationCache

/-! `load_elf64` in two parts: what maps the pages, with the moments of its stores to memory,
and the pass that reads the segments, as the bytes that it stores through user addresses. -/

namespace Persistos

open Theory

namespace UserSpace

/-- The store of a byte through a user address that reaches the frame `f`. -/
def storeAt (s : UserSpace) (a : U64 × U8) (f : U64) : UserSpace :=
  ⟨s.kernel, writeByte s.mem (f + (a.1 &&& 0xFFF)) a.2⟩

/-- The accesses one after the other, each by way of the tables. -/
def performAll (pml4 : U64) : List (Access (U64 × U8)) → UserSpace → Except Crash UserSpace
  | [], s => .ok s
  | .reload :: accesses, s => performAll pml4 accesses s
  | .use (v, b) :: accesses, s => do
    let s ← s.writeUser pml4 v b
    performAll pml4 accesses s

end UserSpace

/-- The stores of a `memcpy` to user memory. -/
def copyAccesses : List U8 → U64 → List (Access (U64 × U8))
  | [], _ => []
  | b :: bytes, dest => .use (dest, b) :: copyAccesses bytes (dest + 1)

def TaskMemory.addRangeMoments (s : TaskMemory) : List Memory :=
  s.kernel.space.slabAllocMoments s.kernel.ranges

section

variable {σ : Type} (ops : FilesystemOps σ) (fops : FileOperations σ) (inode : Inode)
  (pml4Page : U64) (stack : Nat → Nat → U8)

/-- `load_elf64` until all pages are mapped, with the header of the file. -/
def mapImage (files : σ) (task : TaskMemory) (filp : File) :
    Except Crash (Elf64Hdr × ElfLoad σ) := do
  let r ← vfsRead ops fops inode files filp (stack 0) Elf64Hdr.size
  let elfFileHeader := Elf64Hdr.decode r.buffer
  let s ← (List.range elfFileHeader.ePhnum.toNat).foldlM
    (listSegment ops fops inode stack filp elfFileHeader) ⟨r.state, task, 0⟩
  let task ← s.task.addRange (heapRange s.largestEndAddress)
  let task ← task.addRange stackRange
  let space ← task.kernel.space.setupUserspaceMemory pml4Page task.memoryRangesLh
  .ok (elfFileHeader, { s with task := ⟨{ task.kernel with space }, task.memoryRangesLh⟩ })

def segmentMoments (filp : File) (hdr : Elf64Hdr) (s : ElfLoad σ) (i : Nat) : List Memory :=
  momentsThen [] (readPhdr ops fops inode filp hdr (stack (1 + i)) s.files i)
    fun (segmentHeader, _) =>
      if segmentHeader.pVaddr = 0 ∧ segmentHeader.pMemsz = 0 then [] else s.task.addRangeMoments

/-- The moments of the loop that lists the ranges. -/
def segmentsMoments (filp : File) (hdr : Elf64Hdr) : List Nat → ElfLoad σ → List Memory
  | [], _ => []
  | i :: is, s =>
    momentsThen (segmentMoments ops fops inode stack filp hdr s i)
      (listSegment ops fops inode stack filp hdr s i) (segmentsMoments filp hdr is)

def mapImageMoments (files : σ) (task : TaskMemory) (filp : File) : List Memory :=
  momentsThen [] (vfsRead ops fops inode files filp (stack 0) Elf64Hdr.size) fun r =>
  let hdr := Elf64Hdr.decode r.buffer
  let passes := List.range hdr.ePhnum.toNat
  momentsThen (segmentsMoments ops fops inode stack filp hdr passes ⟨r.state, task, 0⟩)
    (passes.foldlM (listSegment ops fops inode stack filp hdr) ⟨r.state, task, 0⟩) fun s =>
  momentsThen s.task.addRangeMoments (s.task.addRange (heapRange s.largestEndAddress)) fun task =>
  momentsThen task.addRangeMoments (task.addRange stackRange) fun task =>
  UserSpace.setupMoments pml4Page task.kernel.space task.memoryRangesLh

/-- What the pass that reads the segments stores, up to a read that does not return. A read
that waits for a device switches tasks, and so loads CR3 again, before it stores anything. -/
def segmentAccesses (waits : Bool) (filp : File) (hdr : Elf64Hdr) :
    List Nat → σ → List (Access (U64 × U8))
  | [], _ => []
  | i :: is, files =>
    match readPhdr ops fops inode filp hdr (stack (1 + hdr.ePhnum.toNat + i)) files i with
    | .error _ => []
    | .ok (segmentHeader, files) =>
      match vfsRead ops fops inode files { filp with offset := segmentHeader.pOffset }
          (fun _ => 0) segmentHeader.pFilesz with
      | .error _ => []
      | .ok r => (if waits then [.reload] else []) ++
          copyAccesses r.bytes segmentHeader.pVaddr ++ segmentAccesses waits filp hdr is r.state

end

section Split

variable {σ : Type} {ops : FilesystemOps σ} {fops : FileOperations σ} {inode : Inode}
  {pml4Page : U64} {stack : Nat → Nat → U8} {filp : File} {hdr : Elf64Hdr} {waits : Bool}

theorem UserSpace.performAll_append (accesses accesses' : List (Access (U64 × U8))) (s : UserSpace) :
    s.performAll pml4Page (accesses ++ accesses') = (do
      let s ← s.performAll pml4Page accesses
      s.performAll pml4Page accesses') := by
  induction accesses generalizing s with
  | nil => rfl
  | cons access accesses ih =>
    cases access with
    | reload => exact ih s
    | use a =>
      rw [List.cons_append, performAll, performAll, bind_assoc]
      exact bind_congr fun s => ih s

theorem UserSpace.performAll_copy (bytes : List U8) (s : UserSpace) (dest : U64) :
    s.performAll pml4Page (copyAccesses bytes dest) = copyToUser pml4Page bytes s dest := by
  induction bytes generalizing s dest with
  | nil => rfl
  | cons b bytes ih =>
    rw [copyAccesses, performAll, copyToUser]
    exact bind_congr fun s => ih s _

/-- The accesses are what the second pass does to user memory. -/
theorem readSegments_accesses {is : List Nat} {s s' : ElfLoad σ}
    (h : is.foldlM (readSegment ops fops inode pml4Page stack filp hdr) s = .ok s') :
    s.task.kernel.space.performAll pml4Page
      (segmentAccesses ops fops inode stack waits filp hdr is s.files) =
        .ok s'.task.kernel.space := by
  induction is generalizing s with
  | nil =>
    cases h
    rfl
  | cons i is ih =>
    obtain ⟨s₁, h₁, h⟩ := bind_eq_ok h
    obtain ⟨⟨segmentHeader, files⟩, hread, h₁⟩ := bind_eq_ok h₁
    obtain ⟨r, hbytes, h₁⟩ := bind_eq_ok h₁
    obtain ⟨space, hcopy, h₁⟩ := bind_eq_ok h₁
    cases h₁
    have hwait : UserSpace.performAll pml4Page (if waits then [.reload] else [])
        s.task.kernel.space = .ok s.task.kernel.space := by
      cases waits <;> rfl
    rw [segmentAccesses, hread]
    dsimp only
    rw [hbytes]
    dsimp only
    rw [UserSpace.performAll_append, UserSpace.performAll_append, hwait, ok_bind,
      UserSpace.performAll_copy, hcopy, ok_bind]
    exact ih h

/-- The loader maps the image, and then it stores the segments. -/
theorem loadElf64_parts {files files' : σ} {task task' : TaskMemory} {result : LoaderResult}
    (h : loadElf64 ops fops inode pml4Page stack files task filp = .ok (result, files', task')) :
    ∃ hdr image, mapImage ops fops inode pml4Page stack files task filp = .ok (hdr, image) ∧
      image.task.kernel.space.performAll pml4Page (segmentAccesses ops fops inode stack waits filp
        hdr (List.range hdr.ePhnum.toNat) image.files) = .ok task'.kernel.space := by
  obtain ⟨r, hread, h⟩ := bind_eq_ok h
  obtain ⟨s, hlist, h⟩ := bind_eq_ok h
  obtain ⟨task₁, hheap, h⟩ := bind_eq_ok h
  obtain ⟨task₂, hstack, h⟩ := bind_eq_ok h
  obtain ⟨space, hsetup, h⟩ := bind_eq_ok h
  obtain ⟨s', hsegments, h⟩ := bind_eq_ok h
  cases h
  refine ⟨Elf64Hdr.decode r.buffer,
    { s with task := ⟨{ task₂.kernel with space }, task₂.memoryRangesLh⟩ }, ?_,
    readSegments_accesses hsegments⟩
  rw [mapImage, hread, ok_bind]
  dsimp only
  rw [hlist, ok_bind, hheap, ok_bind, hstack, ok_bind, hsetup]
  rfl

end Split

section Image

variable {σ : Type} {ops : FilesystemOps σ} {fops : FileOperations σ} {inode : Inode} {files : σ}
  {f : U64} {image : Image}

/-- Of a file whose headers can be read the loader maps what they ask for. -/
theorem ReadsImage.mapImage (h : ReadsImage ops fops inode files f image)
    (hheader : 64 ≤ image.size) (htable : ∀ i < image.elfHeader.ePhnum.toNat,
      image.elfHeader.ePhoff.toNat + 56 * i + 56 ≤ image.size)
    (pml4Page : U64) (stack : Nat → Nat → U8) (task : TaskMemory) :
    mapImage ops fops inode pml4Page stack files task ⟨f, 0⟩ = (do
      let task ← task.loadElf64 pml4Page image.segmentHeaders
      .ok (image.elfHeader,
        ⟨files, task, largestEndAddress (segmentRanges image.segmentHeaders)⟩)) := by
  obtain ⟨r, hread, hdecode, hstate⟩ := h.readHdr hheader (stack 0)
  have hin : ∀ i ∈ List.range image.elfHeader.ePhnum.toNat, i < 2 ^ 16 ∧
      image.elfHeader.ePhoff.toNat + 56 * i + 56 ≤ image.size := by
    intro i hi
    rw [List.mem_range] at hi
    exact ⟨Nat.lt_trans hi (BitVec.isLt _), htable i hi⟩
  have hsegments : ((List.range image.elfHeader.ePhnum.toNat).map
      fun i => (image.segment i).toPhdr) = image.segmentHeaders := by
    rw [Image.segmentHeaders, Image.segments, List.map_map]
    rfl
  rw [Persistos.mapImage, hread, ok_bind]
  dsimp only
  rw [hdecode, hstate, h.listSegments 0 stack hin, hsegments]
  simp only [TaskMemory.loadElf64, elfRanges, List.foldlM_append, List.foldlM_cons,
    List.foldlM_nil, bind_assoc, ok_bind, pure_bind]
  rfl

/-- Of such a file it stores what the headers say, segment by segment. -/
theorem ReadsImage.segmentAccesses (h : ReadsImage ops fops inode files f image) (waits : Bool)
    (stack : Nat → Nat → U8) (offset : U64) {is : List Nat} (his : ∀ i ∈ is, i < 2 ^ 16 ∧
      image.elfHeader.ePhoff.toNat + 56 * i + 56 ≤ image.size ∧
      (image.segment i).pOffset.toNat + (image.segment i).pFilesz.toNat ≤ image.size) :
    segmentAccesses ops fops inode stack waits ⟨f, offset⟩ image.elfHeader is files =
      is.flatMap fun i => (if waits then [.reload] else []) ++
        copyAccesses (image.segmentCopy (image.segment i)).2 (image.segment i).pVaddr := by
  induction is with
  | nil => rfl
  | cons i is ih =>
    obtain ⟨⟨hi, hin, hdata⟩, his⟩ := List.forall_mem_cons.mp his
    obtain ⟨r, hread, hbytes, hstate⟩ := h.readBytes hdata
    rw [Persistos.segmentAccesses, h.readPhdr _ offset hi hin]
    dsimp only
    rw [hread]
    dsimp only
    rw [hbytes, hstate, ih his, List.flatMap_cons]
    rfl

end Image

end Persistos
