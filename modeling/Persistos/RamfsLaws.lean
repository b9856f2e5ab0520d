import Persistos.RamfsRuns

/-! What the calls on a RAM file promise in every state that calls can lead to:
the law of writing, the law of reading, and how many clusters a file has. -/

namespace Persistos

open Theory

namespace RamfsHeap

variable {fs : Ramfs} {files : List U64} {filp : File}

/-- The system calls reach the RAM file system through the dispatch of `vfs.c`. -/
theorem vfsWrite_eq (h : RamfsHeap fs files) (hf : filp.inode ∈ files)
    (fops : FileOperations Ramfs) (buffer : Nat → U8) (length : U64) :
    vfsWrite ramfsSuperblockOps fops (fs.inodes.objects filp.inode) fs filp buffer length = (do
      let (n, fs) ← ramfsWrite fs filp buffer length
      .ok (n, if n ≠ -1 then filp.advance n else filp, fs)) := by
  obtain ⟨htype, hsuper⟩ := h.regular filp.inode hf
  have hdevice : ¬ inodeRegularFile = inodeDevice := by decide
  rw [vfsWrite, htype, if_neg hdevice, if_pos rfl, if_neg hsuper]
  cases hw : ramfsWrite fs filp buffer length with
  | ok r => simp only [ramfsSuperblockOps, hw, ok_bind]
  | error e => simp only [ramfsSuperblockOps, hw, error_bind]

theorem vfsRead_eq (h : RamfsHeap fs files) (hf : filp.inode ∈ files)
    (fops : FileOperations Ramfs) (buffer : Nat → U8) (length : U64) :
    vfsRead ramfsSuperblockOps fops (fs.inodes.objects filp.inode) fs filp buffer length =
      ramfsRead fs filp buffer length := by
  obtain ⟨htype, hsuper⟩ := h.regular filp.inode hf
  have hdevice : ¬ inodeRegularFile = inodeDevice := by decide
  rw [vfsRead, htype, if_neg hdevice, if_pos rfl, if_neg hsuper]
  rfl

end RamfsHeap

/-- What a write of `length` bytes at the offset of `filp` leaves in `fs'`. -/
structure Written (fs fs' : Ramfs) (files : List U64) (filp : File) (buffer : Nat → U8)
    (length : U64) : Prop where
  size : (fs'.image filp.inode).size =
    max (fs.image filp.inode).size (filp.offset.toNat + length.toNat)
  content : (fs'.image filp.inode).content =
    (fs.image filp.inode).content.take filp.offset.toNat ++ slice buffer 0 length.toNat ++
      (fs.image filp.inode).content.drop (filp.offset.toNat + length.toNat)
  others : ∀ g ∈ files, g ≠ filp.inode →
    (fs'.image g).size = (fs.image g).size ∧ (fs'.image g).content = (fs.image g).content
  inodes : fs'.inodes = fs.inodes
  readBack : ∀ (fops : FileOperations Ramfs) (target : Nat → U8), ∃ target',
    vfsRead ramfsSuperblockOps fops (fs'.inodes.objects filp.inode) fs' filp target length =
        .ok ⟨length, filp.advance length, target', fs'⟩ ∧
      slice target' 0 length.toNat = slice buffer 0 length.toNat

theorem RamfsInv.written {fs fs' : Ramfs} {files : List U64} {filp : File}
    (h : RamfsInv fs files) (hf : filp.inode ∈ files) {buffer : Nat → U8} {length n : U64}
    (ho : filp.offset.toNat ≤ (fs.image filp.inode).size)
    (hlen : filp.offset.toNat + length.toNat < 2 ^ 64)
    (hw : ramfsWrite fs filp buffer length = .ok (n, fs')) :
    Written fs fs' files filp buffer length := by
  obtain ⟨-, hcall⟩ := h.write_ok hf hw
  constructor
  · rw [hcall.image, Image.write_size _ buffer ho hlen]
  · rw [hcall.image, Image.content_write buffer ho hlen]
  · intro g hg hne
    rw [hcall.others.image hg hne]
    exact ⟨rfl, rfl⟩
  · exact hcall.others.inodes
  · intro fops target
    obtain ⟨target', hread, hsame⟩ := Image.read_write buffer ho hlen target
    refine ⟨target', ?_, hsame⟩
    rw [hcall.inv.vfsRead_eq hf, hcall.inv.read_eq hf, hcall.image, hread, ok_bind]

/-- The write law. The only way in which a write does not return is that the
slab of the clusters needs a page and none is left. -/
theorem ramfs_write_law {s : RamfsRun} (h : RamfsReachable s) {filp : File}
    (hf : filp.inode ∈ s.files) (fops : FileOperations Ramfs) (buffer : Nat → U8) {length : U64}
    (ho : filp.offset.toNat ≤ (s.fs.image filp.inode).size)
    (hlen : filp.offset.toNat + length.toNat < 2 ^ 63) :
    (∃ fs', vfsWrite ramfsSuperblockOps fops (s.fs.inodes.objects filp.inode) s.fs filp buffer
          length = .ok (length, filp.advance length, fs') ∧
        Written s.fs fs' s.files filp buffer length) ∨
      vfsWrite ramfsSuperblockOps fops (s.fs.inodes.objects filp.inode) s.fs filp buffer length =
          .error outOfMemory ∧
        s.fs.supply.pages.length <
          Image.clustersFor (filp.offset.toNat + length.toNat) -
            (s.fs.clustersOf filp.inode).length := by
  have hinv := h.inv
  have hcount : length ≠ -1 := by
    intro he
    rw [he] at hlen
    have hmax : (-1 : U64).toNat = 2 ^ 64 - 1 := rfl
    omega
  rw [hinv.vfsWrite_eq hf]
  rcases hinv.write_total hf buffer length (by omega) with ⟨fs', hw⟩ | ⟨hw, hpages⟩
  · refine Or.inl ⟨fs', ?_, hinv.written hf ho (by omega) hw⟩
    rw [hw, ok_bind]
    dsimp only
    rw [if_pos hcount]
  · refine Or.inr ⟨?_, hpages⟩
    rw [hw, error_bind]

theorem ramfs_write_law_behind : ∃ s, (RamfsRun.boot (fourPages 0xA5)).run
    [.create rootDirectory [0x61], .file 0 (.write 0 (fun _ => 0x41) 200)] = .ok s ∧
    ∀ fops, ∃ fs', vfsWrite ramfsSuperblockOps fops (s.fs.inodes.objects 0x1030) s.fs
        ⟨0x1030, 150⟩ (fun _ => 0x42) 100 = .ok (100, ⟨0x1030, 250⟩, fs') ∧
      Written s.fs fs' s.files ⟨0x1030, 150⟩ (fun _ => 0x42) 100 := by
  obtain ⟨s, hrun, hs⟩ := RamfsRun.exists_of_map (fourPages 0xA5)
    [.create rootDirectory [0x61], .file 0 (.write 0 (fun _ => 0x41) 200)]
    (fun s => (s.files, (s.fs.image 0x1030).size, (s.fs.clustersOf 0x1030).length))
    ([0x1030], 200, 2) (by decide +kernel)
  obtain ⟨hfiles, hsize, hcount⟩ : s.files = [0x1030] ∧ (s.fs.image 0x1030).size = 200 ∧
    (s.fs.clustersOf 0x1030).length = 2 := by simpa using hs
  refine ⟨s, hrun, ?_⟩
  intro fops
  have hlaw := @ramfs_write_law s ⟨_, _, hrun⟩ ⟨0x1030, 150⟩ (by simp [hfiles]) fops
    (fun _ => 0x42) 100 (by rw [hsize]; decide) (by decide)
  rcases hlaw with hwritten | ⟨-, hpages⟩
  · exact hwritten
  · rw [hcount] at hpages
    exact absurd hpages (Nat.not_lt_zero _)

/-- One page for clusters does not hold 4000 bytes. -/
theorem ramfs_write_out_of_memory : ∃ s, (RamfsRun.boot (fourPages 0xA5)).run
    [.create rootDirectory [0x61]] = .ok s ∧ 0x1030 ∈ s.files ∧
    ∀ fops, vfsWrite ramfsSuperblockOps fops (s.fs.inodes.objects 0x1030) s.fs ⟨0x1030, 0⟩
      (fun _ => 0x42) 4000 = .error outOfMemory := by
  obtain ⟨s, hrun, hs⟩ := RamfsRun.exists_of_map (fourPages 0xA5)
    [.create rootDirectory [0x61]] (fun s => (s.files,
      (ramfsWrite s.fs ⟨0x1030, 0⟩ (fun _ => 0x42) 4000).map fun _ => ()))
    ([0x1030], .error outOfMemory) (by decide +kernel)
  obtain ⟨hfiles, hwrite⟩ := Prod.mk.inj hs
  have hmem : 0x1030 ∈ s.files := by simp [hfiles]
  refine ⟨s, hrun, hmem, ?_⟩
  intro fops
  have hdispatch := @RamfsHeap.vfsWrite_eq s.fs s.files ⟨0x1030, 0⟩
    (RunInv.run _ hrun).inv.toRamfsHeap hmem fops (fun _ => 0x42) 4000
  refine hdispatch.trans ?_
  cases hw : ramfsWrite s.fs ⟨0x1030, 0⟩ (fun _ => 0x42) 4000 with
  | ok result =>
    rw [hw] at hwrite
    cases hwrite
  | error e =>
    rw [hw] at hwrite
    cases hwrite
    rfl

/-- The read law: the bytes from the offset on, as many as were asked for and
the file has, and no other byte of the buffer. -/
def ReadLaw (fs : Ramfs) (filp : File) (buffer : Nat → U8) (length : U64) : Prop :=
  let n := (fs.image filp.inode).readCount filp.offset.toNat length.toNat
  ∃ buffer', ramfsRead fs filp buffer length =
      .ok ⟨BitVec.ofNat 64 n, filp.advance (BitVec.ofNat 64 n), buffer', fs⟩ ∧
    slice buffer' 0 n = ((fs.image filp.inode).content.drop filp.offset.toNat).take n ∧
    ∀ i, n ≤ i → buffer' i = buffer i

/-- The read law holds except behind the size in the last cluster. There
`read_end_offset` is below `read_start_offset` but not equal to it, and the
length of the copy wraps around. -/
theorem ramfs_read_law_iff {s : RamfsRun} (h : RamfsReachable s) {filp : File}
    (hf : filp.inode ∈ s.files) (buffer : Nat → U8) {length : U64}
    (hlen : filp.offset.toNat + length.toNat < 2 ^ 64) :
    ReadLaw s.fs filp buffer length ↔
      filp.offset.toNat ≤ (s.fs.image filp.inode).size ∨
        ((s.fs.image filp.inode).size + 127) / 128 * 128 ≤ filp.offset.toNat := by
  rw [ReadLaw, h.inv.read_eq hf]
  dsimp only
  constructor
  · intro hlaw
    by_contra hn
    rw [not_or, Nat.not_le, Nat.not_le] at hn
    rw [Image.read_eq_error hn.1 hn.2 hlen, error_bind] at hlaw
    obtain ⟨buffer', he, -⟩ := hlaw
    cases he
  · intro ho
    rw [Image.read_eq_ok hlen ho, ok_bind]
    refine ⟨_, rfl, ?_, ?_⟩
    · rw [slice_overlay_self, slice_shift, Image.content, slice_drop, Nat.zero_add, slice_take]
      rw [Image.readCount]
      split <;> omega
    · intro i hi
      dsimp only
      exact overlay_of_ge (by rwa [Nat.zero_add])

theorem ramfs_read_law_at_end : ∃ s, (RamfsRun.boot (fourPages 0xA5)).run
    [.create rootDirectory [0x61], .file 0 (.write 0 (fun _ => 0x41) 10)] = .ok s ∧
    ReadLaw s.fs ⟨0x1030, 7⟩ (fun _ => 0) 5 := by
  obtain ⟨s, hrun, hs⟩ := RamfsRun.exists_of_map (fourPages 0xA5)
    [.create rootDirectory [0x61], .file 0 (.write 0 (fun _ => 0x41) 10)]
    (fun s => (s.files, (s.fs.image 0x1030).size)) ([0x1030], 10) (by decide +kernel)
  obtain ⟨hfiles, hsize⟩ := Prod.mk.inj hs
  refine ⟨s, hrun, ?_⟩
  refine (@ramfs_read_law_iff s ⟨_, _, hrun⟩ ⟨0x1030, 7⟩ (by simp [hfiles]) (fun _ => 0) 5
    (by decide)).mpr (Or.inl ?_)
  rw [hsize]
  decide

/-- A read 10 bytes behind the end of such a file. -/
theorem ramfs_read_wraps : ∃ s, RamfsReachable s ∧ 0x1030 ∈ s.files ∧
    (s.fs.image 0x1030).size = 10 ∧ ¬ ReadLaw s.fs ⟨0x1030, 20⟩ (fun _ => 0) 5 := by
  obtain ⟨s, hrun, hs⟩ := RamfsRun.exists_of_map (fourPages 0xA5)
    [.create rootDirectory [0x61], .file 0 (.write 0 (fun _ => 0x41) 10)]
    (fun s => (s.files, (s.fs.image 0x1030).size,
      (ramfsRead s.fs ⟨0x1030, 20⟩ (fun _ => 0) 5).map fun _ => ()))
    ([0x1030], 10, .error .outOfBounds) (by decide +kernel)
  obtain ⟨hfiles, hsize, hread⟩ : s.files = [0x1030] ∧ (s.fs.image 0x1030).size = 10 ∧
    (ramfsRead s.fs ⟨0x1030, 20⟩ (fun _ => 0) 5).map (fun _ => ()) = .error .outOfBounds := by
    simpa using hs
  refine ⟨s, ⟨_, _, hrun⟩, by simp [hfiles], hsize, ?_⟩
  intro hlaw
  obtain ⟨buffer', hok, -⟩ := hlaw
  rw [hok] at hread
  cases hread

/-- The clusters that the second loop of `ramfs_set_size` frees are on one list
before the call, and afterwards on none. -/
theorem RamfsInv.freed {fs fs₁ : Ramfs} {files : List U64} {filp : File} (h : RamfsInv fs files)
    (hf : filp.inode ∈ files) {size : U64} {excess : List U64}
    (hg : ramfsGrow (fs.privateOf filp.inode) size (size.toNat / 128 + 1) fs
      (fs.ramfsInodeOf filp.inode).ramfsClusters 0 = .ok (fs₁, excess)) :
    ∃ fs', ramfsSetSize fs filp size = .ok (0, fs') ∧ ∀ c ∈ excess,
      (files.flatMap fs.clustersOf).count c = 1 ∧ (files.flatMap fs'.clustersOf).count c = 0 := by
  have hsize : size.toNat ≤ 2 ^ 64 - 128 := by
    by_contra hn
    exact RamfsHeap.grow_endless (Nat.lt_of_not_le hn) _ _ _ rfl _ hg
  rcases h.toRamfsHeap.grow_all hf hsize with ⟨fs₂, new, hrun, happ, hlen⟩ | ⟨hrun, -⟩
  · obtain ⟨rfl, rfl⟩ := Prod.mk.inj (Except.ok.inj (hrun.symm.trans hg))
    obtain ⟨fs', hset, hcall, hself⟩ := h.setSize_of_grow hf hsize hrun happ hlen
    have hkept := congrArg RamfsInode.ramfsClusters hself
    refine ⟨fs', hset, ?_⟩
    intro c hc
    rw [happ.clustersOf, List.drop_append, ← hlen, List.drop_length, List.append_nil] at hc
    have hmem := List.mem_of_mem_drop hc
    have hlive := List.mem_flatMap.mpr ⟨filp.inode, hf, hmem⟩
    refine ⟨List.count_eq_one_of_mem h.clusters_nodup hlive, List.count_eq_zero.mpr ?_⟩
    intro hstill
    obtain ⟨g, hgf, hcg⟩ := List.mem_flatMap.mp hstill
    by_cases hne : g = filp.inode
    · have hle : Image.clustersFor size.toNat ≤ (fs.clustersOf filp.inode).length := by
        have := List.length_pos_of_mem hc
        rw [List.length_drop] at this
        omega
      rw [hne, Ramfs.clustersOf, hkept, List.take_append_of_le_length hle] at hcg
      exact List.disjoint_take_drop (h.clustersOf_nodup hf) (Nat.le_refl _) hcg hc
    · rw [hcall.others.clustersOf hgf hne] at hcg
      exact h.clustersOf_disjoint hf hgf hne hmem hcg
  · cases hrun.symm.trans hg

structure RamfsSafe (s : RamfsRun) : Prop where
  covered : ∀ f ∈ s.files,
    ((s.fs.ramfsInodeOf f).size.toNat + 127) / 128 ≤ (s.fs.clustersOf f).length
  count_le : ∀ f ∈ s.files,
    (s.fs.clustersOf f).length ≤ max 1 (((s.fs.ramfsInodeOf f).size.toNat + 127) / 128)
  created : ∀ (parentDir : Directory) (name : List U8) (result : Option U64) (parent : Inode)
    (fs' : Ramfs), vfsCreate ramfsSuperblockOps s.fs parentDir.inode name =
        .ok (result, parent, fs') →
      ∃ f, result = some f ∧ (fs'.ramfsInodeOf f).size = 0
  write_inside : ∀ filp : File, filp.inode ∈ s.files → ∀ (buffer : Nat → U8) (length : U64),
    filp.offset.toNat + length.toNat < 2 ^ 63 →
      (∃ fs', ramfsWrite s.fs filp buffer length = .ok (length, fs')) ∨
        ramfsWrite s.fs filp buffer length = .error outOfMemory
  freed : ∀ filp : File, filp.inode ∈ s.files → ∀ (size : U64) (fs₁ : Ramfs) (excess : List U64),
    ramfsGrow (s.fs.privateOf filp.inode) size (size.toNat / 128 + 1) s.fs
        (s.fs.ramfsInodeOf filp.inode).ramfsClusters 0 = .ok (fs₁, excess) →
      ∃ fs', ramfsSetSize s.fs filp size = .ok (0, fs') ∧ ∀ c ∈ excess,
        (s.files.flatMap s.fs.clustersOf).count c = 1 ∧
          (s.files.flatMap fs'.clustersOf).count c = 0

/-- The invariant of the representation. The loop of `ramfs_write` finds a
cluster in each of its passes. -/
theorem ramfs_safe {s : RamfsRun} (h : RamfsReachable s) : RamfsSafe s := by
  have hinv := h.inv
  constructor
  · intro f hf
    have hcovered := (hinv.sized f hf).covered
    omega
  · exact fun f hf => (hinv.sized f hf).count_le
  · intro parentDir name result parent fs' hc
    obtain ⟨f, hresult, -, -, -, hempty⟩ := hinv.create parentDir.mounted hc
    exact ⟨f, hresult, congrArg RamfsInode.size hempty⟩
  · intro filp hf buffer length hlen
    exact (hinv.write_total hf buffer length (by omega)).imp_right And.left
  · intro filp hf size fs₁ excess hg
    exact hinv.freed hf hg

theorem ramfs_safe_truncated : ∃ s, (RamfsRun.boot (fourPages 0xA5)).run
    [.create rootDirectory [0x61], .file 0 (.write 0 (fun _ => 0x41) 200),
      .file 0 (.setSize 100)] = .ok s ∧ s.files = [0x1030] ∧ RamfsSafe s := by
  obtain ⟨s, hrun, hfiles⟩ := RamfsRun.exists_of_map (fourPages 0xA5)
    [.create rootDirectory [0x61], .file 0 (.write 0 (fun _ => 0x41) 200), .file 0 (.setSize 100)]
    RamfsRun.files [0x1030] (by decide +kernel)
  exact ⟨s, hrun, hfiles, ramfs_safe ⟨_, _, hrun⟩⟩

end Persistos
