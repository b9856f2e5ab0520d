import Persistos.ElfLoader

/-! The image that an ELF file in RAM describes, and that the loader builds it: the bytes
of the segments, zeros in the rest of their pages, a page of heap above them, the stack. -/

namespace Persistos

open Theory

namespace Image

def elfHeader (image : Image) : Elf64Hdr := .decode image.bytes

def segment (image : Image) (i : Nat) : Elf64Phdr :=
  .decode fun j => image.bytes (image.elfHeader.ePhoff.toNat + 56 * i + j)

def segments (image : Image) : List Elf64Phdr :=
  (List.range image.elfHeader.ePhnum.toNat).map image.segment

def segmentHeaders (image : Image) : List Phdr := image.segments.map (·.toPhdr)

def segmentCopy (image : Image) (p : Elf64Phdr) : U64 × List U8 :=
  (p.pVaddr, slice image.bytes p.pOffset.toNat p.pFilesz.toNat)

end Image

namespace Elf64Phdr

/-- A page that the segment has a byte of. -/
def Meets (p : Elf64Phdr) (n : Nat) : Prop :=
  p.pVaddr.toNat / 4096 ≤ n ∧ n * 4096 < p.pVaddr.toNat + p.pMemsz.toNat

def IsNull (p : Elf64Phdr) : Prop := p.pVaddr = 0 ∧ p.pFilesz = 0 ∧ p.pMemsz = 0

/-- A segment that ends at least a page below the stack. -/
structure Fits (p : Elf64Phdr) : Prop where
  pos : 0 < p.pMemsz.toNat
  filesz : p.pFilesz.toNat ≤ p.pMemsz.toNat
  stop : p.pVaddr.toNat + p.pMemsz.toNat + 4096 ≤ stackRange.start.toNat

end Elf64Phdr

/-- The program headers lie in the file, and so do their segments, which share no page. -/
structure ElfFile (image : Image) : Prop where
  header : 64 ≤ image.size
  table : ∀ i < image.elfHeader.ePhnum.toNat,
    image.elfHeader.ePhoff.toNat + 56 * i + 56 ≤ image.size
  segment : ∀ p ∈ image.segments, p.IsNull ∨ p.Fits
  inside : ∀ p ∈ image.segments, p.pOffset.toNat + p.pFilesz.toNat ≤ image.size
  disjoint : image.segments.Pairwise fun p q => ∀ n, p.Meets n → ¬q.Meets n

section Decode

variable {x y : Nat → U8}

theorem le16_congr {o : Nat} (h : ∀ i < o + 2, x i = y i) : le16 x o = le16 y o := by
  rw [le16, le16, h (o + 1) (by omega), h o (by omega)]

theorem le32_congr {o : Nat} (h : ∀ i < o + 4, x i = y i) : le32 x o = le32 y o := by
  rw [le32, le32, le16_congr h, le16_congr fun i hi => h i (by omega)]

theorem le64_congr {o : Nat} (h : ∀ i < o + 8, x i = y i) : le64 x o = le64 y o := by
  rw [le64, le64, le32_congr h, le32_congr fun i hi => h i (by omega)]

theorem Elf64Hdr.decode_congr (h : ∀ i < 64, x i = y i) : decode x = decode y := by
  rw [decode, decode, le64_congr fun i hi => h i (by omega),
    le64_congr (o := 0x20) fun i hi => h i (by omega), le16_congr fun i hi => h i (by omega)]

theorem Elf64Phdr.decode_congr (h : ∀ i < 56, x i = y i) : decode x = decode y := by
  rw [decode, decode, le64_congr fun i hi => h i (by omega),
    le64_congr (o := 0x28) fun i hi => h i (by omega),
    le64_congr (o := 8) fun i hi => h i (by omega),
    le64_congr (o := 0x20) fun i hi => h i (by omega)]

end Decode

theorem segmentRanges_cons (segmentHeader : Phdr) (segmentHeaders : List Phdr) :
    segmentRanges (segmentHeader :: segmentHeaders) =
      if segmentHeader.pVaddr = 0 ∧ segmentHeader.pMemsz = 0 then segmentRanges segmentHeaders
      else segmentRange segmentHeader :: segmentRanges segmentHeaders := by
  rw [segmentRanges, List.filter_cons]
  split
  · next hkeep => rw [if_neg (of_decide_eq_true hkeep), List.map_cons, segmentRanges]
  · next hdrop => rw [if_pos (by simpa using hdrop), segmentRanges]

/-- Reads through the file at `f` give the bytes of `image` and change nothing. -/
structure ReadsImage {σ : Type} (ops : FilesystemOps σ) (fops : FileOperations σ) (inode : Inode)
    (files : σ) (f : U64) (image : Image) : Prop where
  size_lt : image.size < 2 ^ 64 - 1
  read : ∀ (buffer : Nat → U8) (offset length : U64), offset.toNat + length.toNat ≤ image.size →
    vfsRead ops fops inode files ⟨f, offset⟩ buffer length =
      .ok ⟨length, ⟨f, offset + length⟩, overlay buffer 0 length.toNat
        fun i => image.bytes (offset.toNat + i), files⟩

/-- A read inside a RAM file gives all that it asks for. -/
theorem RamfsInv.readsImage {fs : Ramfs} {files : List U64} {f : U64} (h : RamfsInv fs files)
    (hf : f ∈ files) (fops : FileOperations Ramfs) :
    ReadsImage ramfsSuperblockOps fops (fs.inodes.objects f) fs f (fs.image f) := by
  have hsize : (fs.image f).size ≤ 2 ^ 64 - 128 := (h.sized f hf).size_le
  refine ⟨by omega, fun buffer offset length hin => ?_⟩
  have hcount : (fs.image f).readCount offset.toNat length.toNat = length.toNat := by
    rw [Image.readCount, if_pos (by omega)]
    omega
  have hmem : (⟨f, offset⟩ : File).inode ∈ files := hf
  rw [h.toRamfsHeap.vfsRead_eq hmem, h.read_eq hmem]
  dsimp only
  rw [Image.read_eq_ok (by omega) (.inl (by omega)), hcount, BitVec.ofNat_toNat,
    BitVec.setWidth_eq]
  rfl

section Reads

variable {σ : Type} {ops : FilesystemOps σ} {fops : FileOperations σ} {inode : Inode} {files : σ}
  {f : U64} {image : Image} {is : List Nat}

theorem ReadsImage.readHdr (h : ReadsImage ops fops inode files f image) (hsize : 64 ≤ image.size)
    (buffer : Nat → U8) : ∃ r, vfsRead ops fops inode files ⟨f, 0⟩ buffer Elf64Hdr.size = .ok r ∧
      Elf64Hdr.decode r.buffer = image.elfHeader ∧ r.state = files := by
  have hzero : (0 : U64).toNat + Elf64Hdr.size.toNat ≤ image.size := hsize
  refine ⟨_, h.read buffer 0 _ hzero, Elf64Hdr.decode_congr fun i hi => ?_, rfl⟩
  have hbyte : overlay buffer 0 Elf64Hdr.size.toNat (fun i =>
      image.bytes ((0 : U64).toNat + i)) (0 + i) = image.bytes ((0 : U64).toNat + i) :=
    overlay_add hi
  rwa [Nat.zero_add, show (0 : U64).toNat + i = i from Nat.zero_add i] at hbyte

theorem ReadsImage.readPhdr (h : ReadsImage ops fops inode files f image) (buffer : Nat → U8)
    (offset : U64) {i : Nat} (hi : i < 2 ^ 16)
    (hin : image.elfHeader.ePhoff.toNat + 56 * i + 56 ≤ image.size) :
    readPhdr ops fops inode ⟨f, offset⟩ image.elfHeader buffer files i =
      .ok (image.segment i, files) := by
  have hsize := h.size_lt
  have hlen : Elf64Phdr.size.toNat = 56 := rfl
  have hoff : (image.elfHeader.ePhoff + BitVec.ofNat 64 i * Elf64Phdr.size).toNat =
      image.elfHeader.ePhoff.toNat + 56 * i := by
    rw [BitVec.toNat_add, BitVec.toNat_mul, BitVec.toNat_ofNat, hlen]
    omega
  rw [Persistos.readPhdr, h.read buffer _ _ (by rw [hoff, hlen]; exact hin), ok_bind]
  refine congrArg (fun p => Except.ok (p, files)) (Elf64Phdr.decode_congr fun j hj => ?_)
  have hbyte : overlay buffer 0 Elf64Phdr.size.toNat (fun k => image.bytes
      (image.elfHeader.ePhoff.toNat + 56 * i + k)) (0 + j) =
        image.bytes (image.elfHeader.ePhoff.toNat + 56 * i + j) := overlay_add hj
  rw [Nat.zero_add] at hbyte
  rwa [hoff]

theorem ReadsImage.readBytes (h : ReadsImage ops fops inode files f image) {offset length : U64}
    (hin : offset.toNat + length.toNat ≤ image.size) :
    ∃ r, vfsRead ops fops inode files ⟨f, offset⟩ (fun _ => 0) length = .ok r ∧
      r.bytes = slice image.bytes offset.toNat length.toNat ∧ r.state = files := by
  have hsize := h.size_lt
  have hne : length ≠ -1 := by
    rintro rfl
    rw [show (-1 : U64).toNat = 2 ^ 64 - 1 from rfl] at hin
    omega
  refine ⟨_, h.read _ offset length hin, ?_, rfl⟩
  rw [ReadResult.bytes, if_neg hne]
  dsimp only
  rw [slice_overlay_self, slice_shift]

/-- The first pass adds the ranges of the segments, in the order of the headers. -/
theorem ReadsImage.listSegments (h : ReadsImage ops fops inode files f image) (offset : U64)
    (stack : Nat → Nat → U8)
    (his : ∀ i ∈ is, i < 2 ^ 16 ∧ image.elfHeader.ePhoff.toNat + 56 * i + 56 ≤ image.size)
    (task : TaskMemory) (largest : U64) :
    is.foldlM (listSegment ops fops inode stack ⟨f, offset⟩ image.elfHeader) ⟨files, task, largest⟩ =
      (do
        let task ← (segmentRanges (is.map fun i => (image.segment i).toPhdr)).foldlM
          TaskMemory.addRange task
        .ok ⟨files, task, (segmentRanges (is.map fun i => (image.segment i).toPhdr)).foldl
          (fun largest range => if largest < range.stop then range.stop else largest) largest⟩) := by
  induction is generalizing task largest with
  | nil => rfl
  | cons i is ih =>
    obtain ⟨⟨hi, hin⟩, his⟩ := List.forall_mem_cons.mp his
    rw [List.foldlM_cons, listSegment, h.readPhdr _ offset hi hin, ok_bind]
    dsimp only
    split
    · next hnull =>
      rw [ok_bind, ih his, List.map_cons, segmentRanges_cons, if_pos hnull]
    · next hnull =>
      rw [List.map_cons, segmentRanges_cons, if_neg hnull, List.foldlM_cons]
      cases ha : task.addRange (segmentRange (image.segment i).toPhdr) with
      | error e => rfl
      | ok task₁ => exact ih his task₁ _

/-- The second pass copies the bytes of the segments to where they belong. -/
theorem ReadsImage.readSegments (h : ReadsImage ops fops inode files f image) (pml4 offset : U64)
    (stack : Nat → Nat → U8) (his : ∀ i ∈ is, i < 2 ^ 16 ∧
      image.elfHeader.ePhoff.toNat + 56 * i + 56 ≤ image.size ∧
      (image.segment i).pOffset.toNat + (image.segment i).pFilesz.toNat ≤ image.size)
    (task : TaskMemory) (largest : U64) :
    is.foldlM (readSegment ops fops inode pml4 stack ⟨f, offset⟩ image.elfHeader)
      ⟨files, task, largest⟩ = (do
        let space ← copyImage pml4 (is.map fun i => image.segmentCopy (image.segment i))
          task.kernel.space
        .ok ⟨files, ⟨{ task.kernel with space }, task.memoryRangesLh⟩, largest⟩) := by
  induction is generalizing task with
  | nil => rfl
  | cons i is ih =>
    obtain ⟨⟨hi, hin, hdata⟩, his⟩ := List.forall_mem_cons.mp his
    obtain ⟨r, hread, hbytes, hstate⟩ := h.readBytes hdata
    rw [List.foldlM_cons, readSegment, h.readPhdr _ offset hi hin, ok_bind]
    dsimp only
    rw [hread, ok_bind, hbytes, hstate, List.map_cons, copyImage, List.foldlM_cons]
    cases hc : task.kernel.space.copyToUser pml4 (image.segmentCopy (image.segment i)).2
        (image.segment i).pVaddr with
    | error e =>
      dsimp only [Image.segmentCopy] at hc ⊢
      rw [hc]
      rfl
    | ok space =>
      dsimp only [Image.segmentCopy] at hc ⊢
      rw [hc]
      exact ih his ⟨{ task.kernel with space }, task.memoryRangesLh⟩

end Reads

section Copies

variable {s s' : UserSpace} {pml4 : U64}

/-- An address that a copy writes. -/
def InCopy (copy : U64 × List U8) (v : U64) : Prop :=
  copy.1.toNat ≤ v.toNat ∧ v.toNat < copy.1.toNat + copy.2.length

theorem OwnFrames.copyToUser_ok {bytes : List U8} {dest : U64} (h : OwnFrames pml4 s)
    (hd : dest.toNat + bytes.length ≤ 2 ^ 47)
    (hm : ∀ v : U64, InCopy (dest, bytes) v → (s.readUser pml4 v).isSome) :
    ∃ s', UserSpace.copyToUser pml4 bytes s dest = .ok s' ∧ OwnFrames pml4 s' ∧
      (∀ v : U64, v.toNat < 2 ^ 47 → InCopy (dest, bytes) v →
        s'.readUser pml4 v = bytes[v.toNat - dest.toNat]?) ∧
      ∀ v : U64, v.toNat < 2 ^ 47 → ¬InCopy (dest, bytes) v →
        s'.readUser pml4 v = s.readUser pml4 v := by
  induction bytes generalizing s dest with
  | nil => exact ⟨s, rfl, h, fun v _ hv => absurd hv.2 (Nat.not_lt.mpr hv.1), fun _ _ _ => rfl⟩
  | cons b bytes ih =>
    rw [List.length_cons] at hd
    have hnext : (dest + 1).toNat = dest.toNat + 1 := by
      rw [BitVec.toNat_add, show (1 : U64).toNat = 1 from rfl]
      omega
    have hin : ∀ v : U64, InCopy (dest, b :: bytes) v ↔ v = dest ∨ InCopy (dest + 1, bytes) v := by
      intro v
      rw [← BitVec.toNat_inj]
      simp only [InCopy, hnext, List.length_cons]
      omega
    have hnot : ∀ v : U64, InCopy (dest + 1, bytes) v → v ≠ dest := by
      rintro v hv rfl
      simp only [InCopy, hnext] at hv
      omega
    obtain ⟨f, hf⟩ := Option.isSome_iff_exists.mp
      (Option.isSome_map.symm.trans (hm dest ((hin dest).mpr (.inl rfl))))
    have hw : s.writeUser pml4 dest b =
        .ok ⟨s.kernel, writeByte s.mem (f + (dest &&& 0xFFF)) b⟩ := by
      rw [UserSpace.writeUser, hf]
    obtain ⟨hown, hread⟩ := h.writeUser (by omega) hw
    have hmapped : ∀ v : U64, InCopy (dest + 1, bytes) v → (UserSpace.readUser
        ⟨s.kernel, writeByte s.mem (f + (dest &&& 0xFFF)) b⟩ pml4 v).isSome := by
      intro v hv
      have hlt : v.toNat < 2 ^ 47 := by
        simp only [InCopy, hnext] at hv
        omega
      rw [hread v hlt, if_neg (hnot v hv)]
      exact hm v ((hin v).mpr (.inr hv))
    obtain ⟨s', hc, hown', hbytes, hkeep⟩ := ih hown (by omega) hmapped
    refine ⟨s', ?_, hown', fun v hlt hv => ?_, fun v hlt hv => ?_⟩
    · rw [UserSpace.copyToUser, hw]
      exact hc
    · by_cases hrest : InCopy (dest + 1, bytes) v
      · have hidx : v.toNat - dest.toNat = v.toNat - (dest + 1).toNat + 1 := by
          simp only [InCopy, hnext] at hrest
          omega
        rw [hbytes v hlt hrest, hidx, List.getElem?_cons_succ]
      · obtain rfl := ((hin v).mp hv).resolve_right hrest
        rw [hkeep v hlt hrest, hread v hlt, if_pos rfl, Nat.sub_self]
        rfl
    · rw [hin, not_or] at hv
      rw [hkeep v hlt hv.2, hread v hlt, if_neg hv.1]

/-- Copies to separate places of mapped memory are all there afterwards, and the other
bytes are as before. -/
theorem OwnFrames.copyImage_ok {copies : List (U64 × List U8)} (h : OwnFrames pml4 s)
    (hd : ∀ copy ∈ copies, copy.1.toNat + copy.2.length ≤ 2 ^ 47)
    (hm : ∀ copy ∈ copies, ∀ v : U64, InCopy copy v → (s.readUser pml4 v).isSome)
    (hapart : copies.Pairwise fun c d => ∀ v, InCopy c v → ¬InCopy d v) :
    ∃ s', Persistos.copyImage pml4 copies s = .ok s' ∧ OwnFrames pml4 s' ∧
      (∀ copy ∈ copies, ∀ v : U64, InCopy copy v →
        s'.readUser pml4 v = copy.2[v.toNat - copy.1.toNat]?) ∧
      ∀ v : U64, v.toNat < 2 ^ 47 → (∀ copy ∈ copies, ¬InCopy copy v) →
        s'.readUser pml4 v = s.readUser pml4 v := by
  induction copies generalizing s with
  | nil => exact ⟨s, rfl, h, by simp, fun _ _ _ => rfl⟩
  | cons copy copies ih =>
    obtain ⟨hd₁, hd⟩ := List.forall_mem_cons.mp hd
    obtain ⟨hm₁, hm⟩ := List.forall_mem_cons.mp hm
    obtain ⟨hapart₁, hapart⟩ := List.pairwise_cons.mp hapart
    have hlt : ∀ c : U64 × List U8, c.1.toNat + c.2.length ≤ 2 ^ 47 → ∀ v, InCopy c v →
        v.toNat < 2 ^ 47 := fun c hc v hv => Nat.lt_of_lt_of_le hv.2 hc
    obtain ⟨s₁, hc₁, hown₁, hbytes₁, hkeep₁⟩ := h.copyToUser_ok hd₁ hm₁
    obtain ⟨s', hc, hown, hbytes, hkeep⟩ := ih hown₁ hd (fun c hc v hv => by
      rw [hkeep₁ v (hlt c (hd c hc) v hv) fun hv' => hapart₁ c hc v hv' hv]
      exact hm c hc v hv) hapart
    refine ⟨s', ?_, hown, List.forall_mem_cons.mpr ⟨fun v hv => ?_, hbytes⟩, fun v hv hout => ?_⟩
    · rw [Persistos.copyImage, List.foldlM_cons, hc₁]
      exact hc
    · have hv' := hlt copy hd₁ v hv
      rw [hkeep v hv' fun c hc hcv => hapart₁ c hc v hv hcv]
      exact hbytes₁ v hv' hv
    · obtain ⟨hout₁, hout⟩ := List.forall_mem_cons.mp hout
      rw [hkeep v hv hout, hkeep₁ v hv hout₁]

theorem FreshPages.setupUserspaceMemory {ranges : List UserspaceMemoryRange}
    (h : OwnFrames pml4 s) (hstop : ∀ range ∈ ranges, range.stop.toNat ≤ 2 ^ 47)
    (hs : s.setupUserspaceMemory pml4 ranges = .ok s') :
    FreshPages pml4 s s' fun n => ∃ range ∈ ranges, Between range.start range.stop n := by
  have h₀ : FreshPages pml4 s s fun _ => False :=
    ⟨h, fun _ _ hn => hn.elim, fun _ _ _ => rfl⟩
  have hf := setupUserspaceMemory_covers (P := FreshPages pml4 s) FreshPages.congr
    (fun _ _ _ _ _ hp h hm => h.mapUserPage hp hm) h₀ hstop hs
  exact hf.congr fun n => or_iff_right not_false

end Copies

theorem heapRange_start {l : U64} (h : l.toNat ≤ 2 ^ 47) :
    (heapRange l).start.toNat = (l.toNat + 4095) / 4096 * 4096 := by
  have hoff := and_fff_toNat l
  simp only [heapRange]
  split
  · next hne =>
    have hne' : (l &&& 0xFFF).toNat ≠ 0 := fun he => hne (BitVec.eq_of_toNat_eq he)
    rw [BitVec.toNat_add, or_fff_toNat, show (1 : U64).toNat = 1 from rfl]
    omega
  · next he =>
    rw [not_not] at he
    rw [he, show (0 : U64).toNat = 0 from rfl] at hoff
    omega

namespace ElfFile

variable {image : Image} {p : Elf64Phdr}

theorem bounds (h : ElfFile image) (hp : p ∈ image.segments) :
    p.pFilesz.toNat ≤ p.pMemsz.toNat ∧
      p.pVaddr.toNat + p.pMemsz.toNat + 4096 ≤ stackRange.start.toNat := by
  rcases h.segment p hp with ⟨hv, hf, hm⟩ | hfits
  · rw [hv, hf, hm]
    decide
  · exact ⟨hfits.filesz, hfits.stop⟩

theorem stop_toNat (h : ElfFile image) (hp : p ∈ image.segments) :
    (segmentRange p.toPhdr).stop.toNat = p.pVaddr.toNat + p.pMemsz.toNat := by
  have hb := (h.bounds hp).2
  have hstack : stackRange.start.toNat = 2 ^ 47 - 0x100000 := rfl
  rw [segmentRange, BitVec.toNat_add]
  omega

theorem mem_segmentRanges {range : UserspaceMemoryRange} :
    range ∈ segmentRanges image.segmentHeaders ↔
      ∃ p ∈ image.segments, ¬(p.pVaddr = 0 ∧ p.pMemsz = 0) ∧ segmentRange p.toPhdr = range := by
  simp only [segmentRanges, Image.segmentHeaders, List.mem_map, List.mem_filter,
    decide_eq_true_eq]
  constructor
  · rintro ⟨_, ⟨⟨p, hp, rfl⟩, hnull⟩, rfl⟩
    exact ⟨p, hp, hnull, rfl⟩
  · rintro ⟨p, hp, hnull, rfl⟩
    exact ⟨_, ⟨⟨p, hp, rfl⟩, hnull⟩, rfl⟩

/-- The pages of the ranges are those that have a byte of a segment. -/
theorem between_iff (h : ElfFile image) (n : Nat) :
    (∃ range ∈ segmentRanges image.segmentHeaders, Between range.start range.stop n) ↔
      ∃ p ∈ image.segments, p.Meets n := by
  constructor
  · rintro ⟨range, hr, hb⟩
    obtain ⟨p, hp, -, rfl⟩ := mem_segmentRanges.mp hr
    rw [Between, h.stop_toNat hp] at hb
    exact ⟨p, hp, hb⟩
  · rintro ⟨p, hp, hm⟩
    refine ⟨_, mem_segmentRanges.mpr ⟨p, hp, ?_, rfl⟩, ?_⟩
    · rintro ⟨hv, hz⟩
      rw [Elf64Phdr.Meets, hv, hz] at hm
      exact Nat.not_lt_zero _ hm.2
    · rw [Between, h.stop_toNat hp]
      exact hm

theorem largestEndAddress_le (h : ElfFile image) :
    (largestEndAddress (segmentRanges image.segmentHeaders)).toNat + 4096 ≤
      stackRange.start.toNat := by
  have hstack : stackRange.start.toNat = 2 ^ 47 - 0x100000 := rfl
  have hle := @Persistos.largestEndAddress_le (segmentRanges image.segmentHeaders)
    (stackRange.start.toNat - 4096) (by
      intro range hr
      obtain ⟨p, hp, -, rfl⟩ := mem_segmentRanges.mp hr
      have hb := (h.bounds hp).2
      rw [h.stop_toNat hp]
      omega)
  omega

/-- The page of heap that the loader adds. -/
theorem heap (h : ElfFile image) :
    PageAligned (imageHeap image.segmentHeaders).start ∧
      (∀ p ∈ image.segments, p.pVaddr.toNat + p.pMemsz.toNat ≤
        (imageHeap image.segmentHeaders).start.toNat) ∧
      (imageHeap image.segmentHeaders).start.toNat + 4096 ≤ stackRange.start.toNat ∧
      (imageHeap image.segmentHeaders).stop.toNat =
        (imageHeap image.segmentHeaders).start.toNat + 4096 := by
  have hstack : stackRange.start.toNat = 2 ^ 47 - 0x100000 := rfl
  have hle := h.largestEndAddress_le
  have hstart := heapRange_start (l := largestEndAddress (segmentRanges image.segmentHeaders))
    (by omega)
  have hstop : (imageHeap image.segmentHeaders).stop =
      (imageHeap image.segmentHeaders).start + 0x1000 := rfl
  have hheap : (imageHeap image.segmentHeaders).start.toNat =
      ((largestEndAddress (segmentRanges image.segmentHeaders)).toNat + 4095) / 4096 * 4096 := hstart
  refine ⟨?_, fun p hp => ?_, by omega, ?_⟩
  · simp only [PageAligned]
    omega
  · by_cases hnull : p.pVaddr = 0 ∧ p.pMemsz = 0
    · rw [hnull.1, hnull.2]
      exact Nat.zero_le _
    · have hin := le_largestEndAddress (mem_segmentRanges.mpr ⟨p, hp, hnull, rfl⟩)
      rw [h.stop_toNat hp] at hin
      omega
  · rw [hstop, BitVec.toNat_add, show (0x1000 : U64).toNat = 4096 from rfl]
    omega

theorem inCopy_iff (h : ElfFile image) (hp : p ∈ image.segments) (v : U64) :
    InCopy (image.segmentCopy p) v ↔
      ∃ i < p.pFilesz.toNat, v = p.pVaddr + BitVec.ofNat 64 i := by
  have hstack : stackRange.start.toNat = 2 ^ 47 - 0x100000 := rfl
  obtain ⟨hf, hs⟩ := h.bounds hp
  simp only [InCopy, Image.segmentCopy, slice_length]
  constructor
  · rintro ⟨hlo, hhi⟩
    refine ⟨v.toNat - p.pVaddr.toNat, by omega, BitVec.eq_of_toNat_eq ?_⟩
    rw [toNat_add_ofNat (by omega)]
    omega
  · rintro ⟨i, hi, rfl⟩
    rw [toNat_add_ofNat (by omega)]
    omega

theorem meets_of_inCopy (h : ElfFile image) (hp : p ∈ image.segments) {v : U64}
    (hv : InCopy (image.segmentCopy p) v) : p.Meets (v.toNat / 4096) := by
  have hf := (h.bounds hp).1
  simp only [InCopy, Image.segmentCopy, slice_length] at hv
  rw [Elf64Phdr.Meets]
  omega

end ElfFile

/-- The pages, the bytes and the heap of a process that the file describes. -/
structure LoadedImage (s : UserSpace) (pml4 : U64) (image : Image) (heap : U64) : Prop where
  file : ∀ p ∈ image.segments, ∀ i < p.pFilesz.toNat,
    s.readUser pml4 (p.pVaddr + BitVec.ofNat 64 i) = some (image.bytes (p.pOffset.toNat + i))
  zero : ∀ v : U64, v.toNat < 2 ^ 47 → (s.frameAt pml4 v).isSome →
    (∀ p ∈ image.segments, ∀ i < p.pFilesz.toNat, v ≠ p.pVaddr + BitVec.ofNat 64 i) →
    s.readUser pml4 v = some 0
  pages : ∀ v : U64, v.toNat < 2 ^ 47 → ((s.frameAt pml4 v).isSome ↔
    (∃ p ∈ image.segments, p.Meets (v.toNat / 4096)) ∨ v.toNat / 4096 = heap.toNat / 4096 ∨
      stackRange.start ≤ v)
  aligned : PageAligned heap
  above : ∀ p ∈ image.segments, p.pVaddr.toNat + p.pMemsz.toNat ≤ heap.toNat
  apart : ∀ p ∈ image.segments, ¬p.Meets (heap.toNat / 4096)
  belowStack : heap.toNat + 4096 ≤ stackRange.start.toNat

section Load

variable {image : Image} {pml4 : U64} {k : UserKernel} {task : TaskMemory} {pages : Nat → Prop}

theorem ElfFile.elfRanges_iff (h : ElfFile image) {v : U64} (hv : v.toNat < 2 ^ 47) :
    (∃ range ∈ elfRanges image.segmentHeaders, Between range.start range.stop (v.toNat / 4096)) ↔
      (∃ p ∈ image.segments, p.Meets (v.toNat / 4096)) ∨
        v.toNat / 4096 = (imageHeap image.segmentHeaders).start.toNat / 4096 ∨
          stackRange.start ≤ v := by
  obtain ⟨hal, -, hbelow, hstop⟩ := h.heap
  have hstack : stackRange.start.toNat = 2 ^ 47 - 0x100000 := rfl
  have hend : stackRange.stop.toNat = 2 ^ 47 := rfl
  have hheap : Between (imageHeap image.segmentHeaders).start (imageHeap image.segmentHeaders).stop
      (v.toNat / 4096) ↔
        v.toNat / 4096 = (imageHeap image.segmentHeaders).start.toNat / 4096 := by
    simp only [PageAligned] at hal
    rw [Between, hstop]
    omega
  have hlast : Between stackRange.start stackRange.stop (v.toNat / 4096) ↔ stackRange.start ≤ v := by
    rw [Between, BitVec.le_def, hstack, hend]
    omega
  rw [← h.between_iff, ← hheap, ← hlast]
  simp only [elfRanges, List.mem_append, List.mem_cons, List.not_mem_nil, or_false, or_and_right,
    exists_or, exists_eq_left]
  rfl

/-- What is mapped reads as zero until the segments are read. -/
theorem ElfFile.mapped (h : ElfFile image) (hown : OwnFrames pml4 k.space)
    (hempty : Loaded pml4 k.space pages) (hnone : ∀ n, ¬pages n)
    (hs : TaskMemory.loadElf64 ⟨k, []⟩ pml4 image.segmentHeaders = .ok task) :
    OwnFrames pml4 task.kernel.space ∧ ∀ v : U64, v.toNat < 2 ^ 47 →
      ((task.kernel.space.frameAt pml4 v).isSome ↔
        ∃ range ∈ elfRanges image.segmentHeaders, Between range.start range.stop (v.toNat / 4096)) ∧
      ((task.kernel.space.frameAt pml4 v).isSome → task.kernel.space.readUser pml4 v = some 0) := by
  have hstack : stackRange.start.toNat = 2 ^ 47 - 0x100000 := rfl
  have hlargest := h.largestEndAddress_le
  have hstop : ∀ range ∈ elfRanges image.segmentHeaders, range.stop.toNat ≤ 2 ^ 47 :=
    elfRanges_stop_le (by omega)
  have hloaded := (hempty.loadElf64 rfl hstop hs).2
  obtain ⟨t₁, h₁, hs⟩ := bind_eq_ok hs
  obtain ⟨space, hsetup, he⟩ := bind_eq_ok hs
  obtain rfl := Except.ok.inj he
  obtain ⟨haside, hranges⟩ := hown.map.addRanges h₁
  rw [show t₁.memoryRangesLh = elfRanges image.segmentHeaders from hranges] at hsetup
  have hfresh := FreshPages.setupUserspaceMemory (hown.aside haside) hstop hsetup
  have hmapped : ∀ v : U64, v.toNat < 2 ^ 47 → ((space.frameAt pml4 v).isSome ↔
      ∃ range ∈ elfRanges image.segmentHeaders, Between range.start range.stop (v.toNat / 4096)) := by
    intro v hv
    rw [hloaded.mapped v hv, or_iff_right (hnone _)]
  exact ⟨hfresh.own, fun v hv => ⟨hmapped v hv, fun hm => hfresh.zero v hv ((hmapped v hv).mp hm)⟩⟩

/-- The second pass into an address space without pages builds the image. -/
theorem ElfFile.copyImage (h : ElfFile image) (hown : OwnFrames pml4 k.space)
    (hempty : Loaded pml4 k.space pages) (hnone : ∀ n, ¬pages n)
    (hs : TaskMemory.loadElf64 ⟨k, []⟩ pml4 image.segmentHeaders = .ok task) :
    ∃ space, Persistos.copyImage pml4 (image.segments.map image.segmentCopy) task.kernel.space =
        .ok space ∧ OwnFrames pml4 space ∧
      LoadedImage space pml4 image (imageHeap image.segmentHeaders).start := by
  have hstack : stackRange.start.toNat = 2 ^ 47 - 0x100000 := rfl
  obtain ⟨hown, hmapped⟩ := h.mapped hown hempty hnone hs
  obtain ⟨hal, habove, hbelow, -⟩ := h.heap
  have hlow : ∀ p ∈ image.segments,
      (image.segmentCopy p).1.toNat + (image.segmentCopy p).2.length ≤ 2 ^ 47 := by
    intro p hp
    obtain ⟨hf, hb⟩ := h.bounds hp
    simp only [Image.segmentCopy, slice_length]
    omega
  have hread : ∀ p ∈ image.segments, ∀ v : U64, InCopy (image.segmentCopy p) v →
      (task.kernel.space.readUser pml4 v).isSome := by
    intro p hp v hv
    have hv' : v.toNat < 2 ^ 47 := Nat.lt_of_lt_of_le hv.2 (hlow p hp)
    obtain ⟨hiff, hzero⟩ := hmapped v hv'
    rw [hzero (hiff.mpr ((h.elfRanges_iff hv').mpr (.inl ⟨p, hp, h.meets_of_inCopy hp hv⟩)))]
    rfl
  have hapart : (image.segments.map image.segmentCopy).Pairwise
      fun c d => ∀ v, InCopy c v → ¬InCopy d v := by
    refine List.pairwise_map.mpr (h.disjoint.imp_of_mem ?_)
    intro p q hp hq hpq v hv hw
    exact hpq _ (h.meets_of_inCopy hp hv) (h.meets_of_inCopy hq hw)
  obtain ⟨space, hcopy, hown', hbytes, hkeep⟩ := hown.copyImage_ok
    (List.forall_mem_map.mpr hlow) (List.forall_mem_map.mpr hread) hapart
  have hsome : ∀ v : U64, v.toNat < 2 ^ 47 →
      ((space.frameAt pml4 v).isSome ↔ (task.kernel.space.frameAt pml4 v).isSome) := by
    intro v hv
    have hiff : (space.readUser pml4 v).isSome ↔ (task.kernel.space.readUser pml4 v).isSome := by
      by_cases hin : ∃ p ∈ image.segments, InCopy (image.segmentCopy p) v
      · obtain ⟨p, hp, hin⟩ := hin
        have hlt : v.toNat - (image.segmentCopy p).1.toNat < (image.segmentCopy p).2.length := by
          have hh := hin
          simp only [InCopy] at hh
          omega
        rw [hbytes _ (List.mem_map_of_mem hp) v hin, List.getElem?_eq_getElem hlt]
        exact iff_of_true rfl (hread p hp v hin)
      · rw [hkeep v hv (List.forall_mem_map.mpr fun p hp hv => hin ⟨p, hp, hv⟩)]
    rwa [UserSpace.readUser, UserSpace.readUser, Option.isSome_map, Option.isSome_map] at hiff
  refine ⟨space, hcopy, hown', ⟨fun p hp i hi => ?_, fun v hv hm hout => ?_, fun v hv => ?_, hal, habove,
    fun p hp hm => ?_, hbelow⟩⟩
  · have hin := (h.inCopy_iff hp _).mpr ⟨i, hi, rfl⟩
    obtain ⟨hf, hb⟩ := h.bounds hp
    rw [hbytes _ (List.mem_map_of_mem hp) _ hin]
    simp only [Image.segmentCopy]
    rw [toNat_add_ofNat (by omega), Nat.add_sub_cancel_left, slice, List.getElem?_map,
      List.getElem?_range hi, Option.map_some]
  · have hout' : ∀ copy ∈ image.segments.map image.segmentCopy, ¬InCopy copy v := by
      refine List.forall_mem_map.mpr fun p hp hv => ?_
      obtain ⟨i, hi, he⟩ := (h.inCopy_iff hp v).mp hv
      exact hout p hp i hi he
    rw [hkeep v hv hout']
    exact (hmapped v hv).2 ((hsome v hv).mp hm)
  · rw [hsome v hv, (hmapped v hv).1, h.elfRanges_iff hv]
  · have hle := habove p hp
    rw [Elf64Phdr.Meets] at hm
    simp only [PageAligned] at hal
    omega

theorem ElfFile.readImage (h : ElfFile image)
    (hempty : EmptyLowerHalf k.space.kernel k.space.mem pml4) (hr : KmemInv k.space.kernel)
    (hd : DirectMap k.space.kernel.kmem)
    (hs : TaskMemory.loadElf64 ⟨k, []⟩ pml4 image.segmentHeaders = .ok task) :
    ∃ space, Persistos.copyImage pml4 (image.segments.map image.segmentCopy) task.kernel.space =
        .ok space ∧
      LoadedImage space pml4 image (imageHeap image.segmentHeaders).start := by
  obtain ⟨space, hcopy, -, himage⟩ := h.copyImage (hempty.ownFrames hr hd)
    (hempty.taskInv hr hd).loaded (by simp) hs
  exact ⟨space, hcopy, himage⟩

/-- The loader reads the headers of the file, maps what they ask for and copies their bytes. -/
theorem ReadsImage.loadElf64_eq {σ : Type} {ops : FilesystemOps σ} {fops : FileOperations σ}
    {inode : Inode} {files : σ} {f : U64} (h : ReadsImage ops fops inode files f image)
    (helf : ElfFile image) (pml4 : U64) (stack : Nat → Nat → U8) (task : TaskMemory) :
    loadElf64 ops fops inode pml4 stack files task ⟨f, 0⟩ = (do
      let task ← task.loadElf64 pml4 image.segmentHeaders
      let space ← copyImage pml4 (image.segments.map image.segmentCopy) task.kernel.space
      .ok (⟨image.elfHeader.eEntry, userEntryRsp⟩, files,
        ⟨{ task.kernel with space }, task.memoryRangesLh⟩)) := by
  obtain ⟨r, hheader, hdecode, hstate⟩ := h.readHdr helf.header (stack 0)
  have hin : ∀ i ∈ List.range image.elfHeader.ePhnum.toNat, i < 2 ^ 16 ∧
      image.elfHeader.ePhoff.toNat + 56 * i + 56 ≤ image.size := by
    intro i hi
    rw [List.mem_range] at hi
    exact ⟨Nat.lt_trans hi (BitVec.isLt _), helf.table i hi⟩
  have hsegments : ((List.range image.elfHeader.ePhnum.toNat).map
      fun i => (image.segment i).toPhdr) = image.segmentHeaders := by
    rw [Image.segmentHeaders, Image.segments, List.map_map]
    rfl
  have hcopies : ((List.range image.elfHeader.ePhnum.toNat).map
      fun i => image.segmentCopy (image.segment i)) = image.segments.map image.segmentCopy := by
    rw [Image.segments, List.map_map]
    rfl
  have hlist := h.listSegments 0 stack hin
  have hread := fun task largest => h.readSegments pml4 0 stack
    (fun i hi => ⟨(hin i hi).1, (hin i hi).2, helf.inside _ (List.mem_map_of_mem hi)⟩) task largest
  rw [loadElf64, hheader, ok_bind]
  dsimp only
  rw [hdecode, hstate, hlist, hsegments]
  simp only [hread, hcopies, TaskMemory.loadElf64, elfRanges, List.foldlM_append, List.foldlM_cons,
    List.foldlM_nil, bind_assoc, ok_bind, pure_bind]
  rfl

theorem RamfsInv.loadElf64_eq {fs : Ramfs} {files : List U64} {f : U64} (h : RamfsInv fs files)
    (hf : f ∈ files) (helf : ElfFile (fs.image f)) (fops : FileOperations Ramfs)
    (stack : Nat → Nat → U8) :
    loadElf64 ramfsSuperblockOps fops (fs.inodes.objects f) pml4 stack fs ⟨k, []⟩ ⟨f, 0⟩ = (do
      let task ← TaskMemory.loadElf64 ⟨k, []⟩ pml4 (fs.image f).segmentHeaders
      let space ← copyImage pml4 ((fs.image f).segments.map (fs.image f).segmentCopy)
        task.kernel.space
      .ok (⟨(fs.image f).elfHeader.eEntry, userEntryRsp⟩, fs,
        ⟨{ task.kernel with space }, task.memoryRangesLh⟩)) :=
  (h.readsImage hf fops).loadElf64_eq helf pml4 stack _

end Load

/-- `load_elf64` of a file in RAM into an empty lower half. -/
theorem elf_image_loaded {hhdm : Option U64} {memmap : Option (List MemmapEntry)} {kmem : Kmem}
    (hk : kmemInit hhdm memmap = .ok kmem) (hd : DirectMap kmem) {k : UserKernel}
    (hr : KmemReachable kmem k.space.kernel) {pml4 : U64}
    (h₀ : EmptyLowerHalf k.space.kernel k.space.mem pml4) {run : RamfsRun} (hrun : RamfsReachable run)
    {f : U64} (hf : f ∈ run.files) (helf : ElfFile (run.fs.image f)) (fops : FileOperations Ramfs)
    (stack : Nat → Nat → U8) :
    (∀ result fs task, loadElf64 ramfsSuperblockOps fops (run.fs.inodes.objects f) pml4 stack
        run.fs ⟨k, []⟩ ⟨f, 0⟩ = .ok (result, fs, task) →
      result = ⟨(run.fs.image f).elfHeader.eEntry, userEntryRsp⟩ ∧ fs = run.fs ∧
      task.memoryRangesLh = elfRanges (run.fs.image f).segmentHeaders ∧
      LoadedImage task.kernel.space pml4 (run.fs.image f)
        (imageHeap (run.fs.image f).segmentHeaders).start) ∧
    (0 < k.ranges.capacity → Room k.space.kernel.kmem
        (4 * ((elfRanges (run.fs.image f).segmentHeaders).map passes).sum +
          (elfRanges (run.fs.image f).segmentHeaders).length) →
      ∃ result, loadElf64 ramfsSuperblockOps fops (run.fs.inodes.objects f) pml4 stack run.fs
        ⟨k, []⟩ ⟨f, 0⟩ = .ok result) := by
  have hinv := hr.inv hk
  have hdirect := (hr.directMap hd).1
  have hstack : stackRange.start.toNat = 2 ^ 47 - 0x100000 := rfl
  have hlargest := helf.largestEndAddress_le
  have hstop : ∀ range ∈ elfRanges (run.fs.image f).segmentHeaders, range.stop.toNat ≤ 2 ^ 47 :=
    elfRanges_stop_le (by omega)
  rw [hrun.inv.loadElf64_eq hf helf fops stack]
  constructor
  · intro result fs task h
    obtain ⟨task₁, hload, h⟩ := bind_eq_ok h
    obtain ⟨space, hcopy, h⟩ := bind_eq_ok h
    cases h
    obtain ⟨space', hcopy', himage⟩ := helf.readImage h₀ hinv hdirect hload
    obtain rfl := Except.ok.inj (hcopy.symm.trans hcopy')
    exact ⟨rfl, rfl, ((h₀.ownFrames hinv hdirect).loadElf64 rfl hstop hload).2, himage⟩
  · intro hcap hroom
    have hroom' : Room k.space.kernel.kmem
        (0 + 4 * ((elfRanges (run.fs.image f).segmentHeaders).map passes).sum +
          (elfRanges (run.fs.image f).segmentHeaders).length) := by rwa [Nat.zero_add]
    obtain ⟨task, hload, -⟩ := Room.loadElf64 (s := ⟨k, []⟩) (h₀.taskInv hinv hdirect).loaded rfl
      hcap hstop hroom'
    obtain ⟨space, hcopy, -⟩ := helf.readImage h₀ hinv hdirect hload
    rw [hload, ok_bind, hcopy]
    exact ⟨_, rfl⟩

/-- An executable with one segment of three bytes in a page of its own, and a null header. -/
def smallElf : List U8 :=
  [0x7F, 0x45, 0x4C, 0x46, 2, 1, 1] ++ List.replicate 9 0 ++ [2, 0, 0x3E, 0, 1, 0, 0, 0] ++
    [0, 0, 0x40, 0, 0, 0, 0, 0] ++ [64, 0, 0, 0, 0, 0, 0, 0] ++ List.replicate 16 0 ++
    [2, 0] ++ List.replicate 6 0 ++
    [1, 0, 0, 0, 5, 0, 0, 0] ++ [176, 0, 0, 0, 0, 0, 0, 0] ++ [0, 0, 0x40, 0, 0, 0, 0, 0] ++
    List.replicate 8 0 ++ [3, 0, 0, 0, 0, 0, 0, 0] ++ [0, 1, 0, 0, 0, 0, 0, 0] ++
    List.replicate 8 0 ++ List.replicate 56 0 ++ [0xEB, 0xFE, 0x90]

theorem elf_image_loaded_small : ∃ (run : RamfsRun) (task : TaskMemory),
    RamfsReachable run ∧ (run.fs.image 0x1030).size = smallElf.length ∧
      LoadedImage task.kernel.space 0xffff800000102000 (run.fs.image 0x1030) 0x401000 ∧
      task.kernel.space.readUser 0xffff800000102000 0x400001 = some 0xFE := by
  obtain ⟨run, hrun, hs⟩ := RamfsRun.exists_of_map (fourPages 0xA5)
    [.create rootDirectory [0x61], .file 0 (.write 0 (smallElf.getD · 0) 179)]
    (fun run => (run.files, (run.fs.image 0x1030).size, (run.fs.image 0x1030).elfHeader,
      (run.fs.image 0x1030).segments, (run.fs.image 0x1030).bytes 177))
    ([0x1030], 179, ⟨0x400000, 64, 2⟩, [⟨⟨0x400000, 0x100⟩, 176, 3⟩, ⟨⟨0, 0⟩, 0, 0⟩], 0xFE)
    (by decide +kernel)
  simp only [Prod.mk.injEq] at hs
  obtain ⟨hfiles, hsize, hheader, hsegments, hbyte⟩ := hs
  have helf : ElfFile (run.fs.image 0x1030) := by
    constructor
    · rw [hsize]
      decide
    · rw [hheader, hsize]
      decide
    · rw [hsegments, List.forall_mem_cons, List.forall_mem_singleton]
      exact ⟨.inr ⟨by decide, by decide, by decide⟩, .inl ⟨rfl, rfl, rfl⟩⟩
    · rw [hsegments, hsize]
      decide
    · rw [hsegments, List.pairwise_cons, List.forall_mem_singleton]
      exact ⟨fun n _ hn => Nat.not_lt_zero _ hn.2, List.pairwise_singleton _ _⟩
  have hheaders : (run.fs.image 0x1030).segmentHeaders = [⟨0x400000, 0x100⟩, ⟨0, 0⟩] := by
    rw [Image.segmentHeaders, hsegments]
    rfl
  have hranges : elfRanges [⟨0x400000, 0x100⟩, ⟨0, 0⟩] = [⟨0x400000, 0x400100, .normal⟩,
      ⟨0x401000, 0x402000, .heap⟩, stackRange] := by decide
  obtain ⟨k, hk, hempty, hroom, hcap, -⟩ := freshTask
  obtain ⟨himage, hload⟩ := @elf_image_loaded _ _ _ sixteenMegabytes_init
    sixteenMegabytes_directMap k hk _ hempty run ⟨_, _, hrun⟩ 0x1030 (by simp [hfiles]) helf
    ⟨fun s _ _ _ => (0, s), fun s _ _ => ([], s)⟩ fun _ _ => 0xA5
  obtain ⟨⟨result, fs, task⟩, hload⟩ := hload hcap (by
    rw [hheaders, hranges]
    exact hroom.mono (by decide))
  obtain ⟨-, -, -, hloaded⟩ := himage result fs task hload
  have hheap : (imageHeap [⟨0x400000, 0x100⟩, ⟨0, 0⟩]).start = 0x401000 := by decide
  rw [hheaders, hheap] at hloaded
  refine ⟨run, task, ⟨_, _, hrun⟩, hsize, hloaded, ?_⟩
  have hfile := hloaded.file ⟨⟨0x400000, 0x100⟩, 176, 3⟩ (by
    rw [hsegments]
    exact List.mem_cons_self) 1 (by decide)
  exact hfile.trans (congrArg some hbyte)

end Persistos
