import Persistos.FsResolve
import Persistos.OpenFiles

/-! OPEN over the mounted file systems. A call that fails gives back what it took. What
stays are the directories of exFAT that resolving the path has loaded. -/

namespace Persistos

namespace FsKernel

variable {k k' : FsKernel}

/-- `r` is what `lookup_result` holds before it is set. -/
def calls (fuel : Nat) (r : VfsLookupResult) : KernelCalls FsKernel where
  vfsResolve k path := k.vfsResolve fuel path r
  vfsCreate := vfsCreate
  inodeType k i := (k.inode i).type
  vfsFtruncate := vfsFtruncate
  fileAlloc := fileAlloc
  fileFree := fileFree

/-- The slots of a page are behind its header. -/
theorem slot_ne_zero {a : SlabAllocator} {live : List U64} (h : SlabInv a live) {x : U64}
    (hx : x ∈ live) : x ≠ 0 := by
  obtain ⟨p, hp, s, hs, -, rfl⟩ := (h.mem_live x).mp hx
  have hat := h.sized.slotAt_toNat (h.aligned p hp) hs
  intro hz
  have hzero : (a.slotAt p s).toNat = 0 := congrArg BitVec.toNat hz
  omega

/-- Slots are back where they were. -/
structure Restored (k k' : FsKernel) : Prop extends AllocFrame k k' where
  inodes : k'.inodeSlots.Perm k.inodeSlots
  dentries : k'.dentrySlots.Perm k.dentrySlots
  exfatInodes : k'.exfatInodes = k.exfatInodes
  kept : ∀ i, k.Known i → k'.inode i = k.inode i
  keptDentries : ∀ d, k.KnownDentry d → k'.fs.dentries.objects d = k.fs.dentries.objects d

theorem Restored.grown (h : Restored k k') : Grown k k' where
  inodes i hi := h.inodes.mem_iff.mpr hi
  dentries d hd := h.dentries.mem_iff.mpr hd
  exfat e he := by
    rw [exfatSlots, h.exfatInodes]
    exact he
  files := h.files
  statics := h.statics
  superblocks := h.superblocks
  entries i hi := by
    refine ⟨[], ?_, fun hh => absurd rfl hh, fun c hc => absurd hc List.not_mem_nil⟩
    rw [h.kept i hi, List.append_nil]
  loaded i hi hn := by
    have htype : k'.typeOf i = k.typeOf i := by
      rw [typeOf, typeOf, h.kept i hi, h.superblocks]
    obtain ⟨⟨sb, partition, hexfat⟩, hdir, hload⟩ := hn
    rw [h.kept i hi] at hdir hload
    rw [h.exfatInodes] at hload
    exact ⟨⟨sb, partition, htype.symm.trans hexfat⟩, hdir, hload⟩
  behind d hd := by
    have hobject : k'.tree.dentries d = k.tree.dentries d := h.keptDentries d hd
    unfold VfsTree.behind
    rw [hobject]
  newDentries d hd hn := absurd (h.dentries.mem_iff.mp hd) hn
  newInodes i hi hn := absurd (h.inodes.mem_iff.mp hi) hn
  still _ := ⟨h.inodes.subset, h.dentries.subset⟩

structure InodeFree (k k' : FsKernel) (i : U64) : Prop extends AllocFrame k k' where
  slots : k'.inodeSlots.Perm (k.inodeSlots.erase i)
  kept : ∀ y, k'.inode y = k.inode y
  dentries : k'.fs.dentries = k.fs.dentries
  exfatInodes : k'.exfatInodes = k.exfatInodes

structure DentryFree (k k' : FsKernel) (d : U64) : Prop extends AllocFrame k k' where
  slots : k'.dentrySlots.Perm (k.dentrySlots.erase d)
  kept : ∀ y, k'.fs.dentries.objects y = k.fs.dentries.objects y
  inodes : k'.fs.inodes = k.fs.inodes
  exfatInodes : k'.exfatInodes = k.exfatInodes

theorem Slabs.inodeFree (h : k.Slabs) {i : U64} (hi : i ∈ k.inodeSlots)
    (hf : k.inodeFree i = .ok k') : InodeFree k k' i := by
  obtain ⟨inodes, hslab, he⟩ := bind_eq_ok hf
  obtain rfl := Except.ok.inj he
  obtain ⟨hok, hperm, hobjects, hpages, -⟩ := h.inodes.free_slots hi hslab
  refine ⟨⟨⟨hok, h.dentries, h.exfatInodes, h.exfatFileClusters, h.files, h.filesFresh, ?_,
    h.dentryPages.of_subset (List.Subset.refl _) rfl⟩, rfl, rfl, rfl, rfl, rfl,
    List.Subset.refl _⟩, hperm, fun y => congrFun hobjects y, rfl, rfl⟩
  intro y hy
  have ho := h.statics y hy
  exact ⟨ho.supply, hpages ▸ ho.inodes, ho.dentries⟩

theorem Slabs.dentryFree (h : k.Slabs) {d : U64} (hd : d ∈ k.dentrySlots)
    (hf : k.dentryFree d = .ok k') : DentryFree k k' d := by
  obtain ⟨dentries, hslab, he⟩ := bind_eq_ok hf
  obtain rfl := Except.ok.inj he
  obtain ⟨hok, hperm, hobjects, hpages, hsize⟩ := h.dentries.free_slots hd hslab
  refine ⟨⟨⟨h.inodes, hok, h.exfatInodes, h.exfatFileClusters, h.files, h.filesFresh, ?_, ?_⟩,
    rfl, rfl, rfl, rfl, rfl, List.Subset.refl _⟩, hperm, fun y => congrFun hobjects y, rfl, rfl⟩
  · intro y hy
    have ho := h.statics y hy
    exact ⟨ho.supply, ho.inodes, hpages ▸ ho.dentries⟩
  · exact ⟨h.dentryPages.supply, hpages ▸ h.dentryPages.pages, hsize.trans h.dentryPages.size⟩

/-- A new inode and a new dentry, which has its name. -/
structure NamedEntry (k k' : FsKernel) (d i : U64) (w : List U8) : Prop extends AllocFrame k k' where
  newInode : ¬k.Known i
  newDentry : ¬k.KnownDentry d
  inodeSlots : k'.inodeSlots.Perm (i :: k.inodeSlots)
  dentrySlots : k'.dentrySlots.Perm (d :: k.dentrySlots)
  kept : ∀ y, k.Known y → k'.inode y = k.inode y
  dentries : ∀ y, k.KnownDentry y → k'.fs.dentries.objects y = k.fs.dentries.objects y
  name : (k'.fs.dentries.objects d).name = w
  exfatInodes : k'.exfatInodes = k.exfatInodes

theorem Slabs.namedEntry (h : k.Slabs) {i d : U64} {name : List U8} {k₁ : FsKernel}
    (ha : k.allocEntry = .ok (i, d, k₁)) (hn : k₁.setName d name = .ok k') :
    NamedEntry k k' d i (cString name) := by
  obtain ⟨⟨i', l₁⟩, hinode, ha⟩ := bind_eq_ok ha
  obtain ⟨⟨d', l₂⟩, hdentry, ha⟩ := bind_eq_ok ha
  simp only [Except.ok.injEq, Prod.mk.injEq] at ha
  obtain ⟨rfl, rfl, rfl⟩ := ha
  have h₁ := h.inodeAlloc hinode
  have h₂ := h₁.slabs.dentryAlloc hdentry
  rw [setName] at hn
  split at hn
  · cases hn
  obtain rfl := Except.ok.inj hn
  have hdentries : l₁.dentrySlots = k.dentrySlots := congrArg Slab.slots h₁.dentries
  have hinodes : l₂.inodeSlots = l₁.inodeSlots := congrArg Slab.slots h₂.inodes
  have hold : ∀ y, k.KnownDentry y → l₁.KnownDentry y := by
    intro y hy
    rw [KnownDentry, hdentries, h₁.statics]
    exact hy
  refine ⟨⟨h₂.slabs.congr rfl rfl rfl rfl rfl rfl rfl, h₂.files.trans h₁.files,
    h₂.statics.trans h₁.statics, h₂.superblocks.trans h₁.superblocks, h₂.root.trans h₁.root,
    h₂.records.trans h₁.records, fun p hp => h₁.supply (h₂.supply hp)⟩, h₁.new,
    fun hh => h₂.new (hold d' hh), ?_, ?_, ?_, ?_, ?_, h₂.exfatInodes.trans h₁.exfatInodes⟩
  · exact (List.Perm.of_eq hinodes).trans h₁.slots
  · exact h₂.slots.trans (List.Perm.of_eq (congrArg (d' :: ·) hdentries))
  · intro y hy
    have hmid : l₂.inode y = l₁.inode y := congrArg (fun slab => slab.objects y) h₂.inodes
    exact hmid.trans (h₁.kept y hy)
  · intro y hy
    have hne : y ≠ d' := fun hh => h₂.new (hh ▸ hold y hy)
    have hmid : l₁.fs.dentries.objects y = k.fs.dentries.objects y :=
      congrArg (fun slab => slab.objects y) h₁.dentries
    refine Eq.trans (l₂.fs.dentries.modify_objects_ne hne fun dentry =>
      { dentry with name := cString name }) ((h₂.kept y (hold y hy)).trans hmid)
  · exact congrArg Dentry.name (l₂.fs.dentries.modify_objects_self d' fun dentry =>
      { dentry with name := cString name })

/-- A new entry that is taken back. -/
theorem NamedEntry.drop {i d : U64} {w : List U8} {k₁ k₂ k₃ : FsKernel}
    (h : NamedEntry k k₁ d i w) (hi : k₁.inodeFree i = .ok k₂) (hd : k₂.dentryFree d = .ok k₃) :
    Restored k k₃ := by
  have h₂ := h.slabs.inodeFree (h.inodeSlots.mem_iff.mpr List.mem_cons_self) hi
  have hdentries : k₂.dentrySlots = k₁.dentrySlots := congrArg Slab.slots h₂.dentries
  have hmem : d ∈ k₂.dentrySlots := by
    rw [hdentries]
    exact h.dentrySlots.mem_iff.mpr List.mem_cons_self
  have h₃ := h₂.slabs.dentryFree hmem hd
  have hinodes : k₃.inodeSlots = k₂.inodeSlots := congrArg Slab.slots h₃.inodes
  refine ⟨⟨h₃.slabs, h₃.files.trans (h₂.files.trans h.files),
    h₃.statics.trans (h₂.statics.trans h.statics),
    h₃.superblocks.trans (h₂.superblocks.trans h.superblocks),
    h₃.root.trans (h₂.root.trans h.root), h₃.records.trans (h₂.records.trans h.records),
    fun p hp => h.supply (h₂.supply (h₃.supply hp))⟩, ?_, ?_,
    h₃.exfatInodes.trans (h₂.exfatInodes.trans h.exfatInodes), ?_, ?_⟩
  · have hperm := h.inodeSlots.erase i
    rw [List.erase_cons_head] at hperm
    rw [hinodes]
    exact h₂.slots.trans hperm
  · have hperm := h.dentrySlots.erase d
    rw [List.erase_cons_head, ← hdentries] at hperm
    exact h₃.slots.trans hperm
  · intro y hy
    have hlast : k₃.inode y = k₂.inode y := congrArg (fun slab => slab.objects y) h₃.inodes
    exact hlast.trans ((h₂.kept y).trans (h.kept y hy))
  · intro y hy
    have hmid : k₂.fs.dentries.objects y = k₁.fs.dentries.objects y :=
      congrArg (fun slab => slab.objects y) h₂.dentries
    exact (h₃.kept y).trans (hmid.trans (h.dentries y hy))

theorem createFileInode_cases {parentDir i d n : U64}
    (h : k.createFileInode parentDir i d = .ok (n, k')) :
    n = 0 ∨ k' = k := by
  rw [createFileInode] at h
  split at h
  · obtain ⟨⟨n', dir, fs⟩, hramfs, h⟩ := bind_eq_ok h
    obtain ⟨⟨r, supply, records⟩, -, hramfs⟩ := bind_eq_ok hramfs
    cases hramfs
    cases h
    exact .inl rfl
  · cases h
    exact .inr rfl
  · cases h
    exact .inr rfl

theorem Slabs.vfsCreate_zero (h : k.Slabs) {parentDir : U64} {name : List U8}
    (hc : k.vfsCreate parentDir name = .ok (0, k')) : Restored k k' := by
  obtain ⟨⟨i, d, k₁⟩, ha, hc⟩ := bind_eq_ok hc
  obtain ⟨k₂, hn, hc⟩ := bind_eq_ok hc
  obtain ⟨⟨n, k₃⟩, hcreate, hfinish⟩ := bind_eq_ok hc
  by_cases hne : n ≠ 0
  · obtain ⟨k₄, hi, hfree⟩ := bind_eq_ok ((if_pos hne).symm.trans hfinish)
    obtain ⟨k₅, hd, hfree⟩ := bind_eq_ok hfree
    obtain rfl := (createFileInode_cases hcreate).resolve_left hne
    cases hfree
    exact (h.namedEntry ha hn).drop hi hd
  · cases (if_neg hne).symm.trans hfinish
    obtain ⟨⟨i', l₁⟩, hinode, ha⟩ := bind_eq_ok ha
    obtain ⟨⟨d', l₂⟩, -, ha⟩ := bind_eq_ok ha
    cases ha
    have halloc := h.inodeAlloc hinode
    exact absurd rfl (slot_ne_zero halloc.slabs.inodes.inv
      (halloc.slots.mem_iff.mpr List.mem_cons_self))

/-- A regular file that its file system cannot truncate, to be opened with `O_TRUNCATE`. -/
def TruncateFails (fuel : Nat) (r : VfsLookupResult) (k : FsKernel) (path : List U8) (flags : U64) :
    Prop :=
  flags &&& oTruncate ≠ 0 ∧ ∃ r' k', k.vfsResolve fuel path r = .ok (r', k') ∧
    r'.status = vfsResolveSuccessExists ∧ (k'.inode r'.inode).type = inodeRegularFile ∧
    ((k'.inode r'.inode).superblock = 0 ∨ k'.typeOf r'.inode ≠ .ramfs)

theorem vfsFtruncate_negative {filp : OpenFile} {size n : U64}
    (h : k.vfsFtruncate filp size = .ok (n, k')) (hn : n.toInt < 0)
    (hf : (k.inode filp.inode).type = inodeRegularFile) :
    (k.inode filp.inode).superblock = 0 ∨ k.typeOf filp.inode ≠ .ramfs := by
  by_cases hs : (k.inode filp.inode).superblock = 0
  · exact .inl hs
  · refine .inr fun htype => ?_
    rw [vfsFtruncate, if_pos hf, if_neg hs, htype] at h
    obtain ⟨⟨n', fs⟩, hsize, h⟩ := bind_eq_ok h
    cases h
    obtain ⟨⟨fs₁, next⟩, -, hsize⟩ := bind_eq_ok hsize
    obtain ⟨fs₂, -, hsize⟩ := bind_eq_ok hsize
    cases hsize
    exact absurd hn (by decide)

theorem fd_not_negative (fd : U32) : ¬(fd.setWidth 64 : U64).toInt < 0 := by
  have hfd := fd.isLt
  rw [BitVec.toInt_eq_toNat_cond, BitVec.toNat_setWidth]
  split <;> omega

section Open

variable {fuel : Nat} {r : VfsLookupResult} {s s' : FileTables FsKernel} {t res : U64}

theorem openCreated_negative {parentDirectory : U64} {name : List U8} (hk : s.kernel.Slabs)
    (h : (calls fuel r).openCreated s t parentDirectory name = .ok (res, s'))
    (hneg : res.toInt < 0) : s'.filesLh = s.filesLh ∧ Restored s.kernel s'.kernel := by
  obtain ⟨⟨createResult, k₁⟩, hcreate, h⟩ := bind_eq_ok h
  by_cases hz : createResult = 0
  · cases (if_pos hz).symm.trans h
    subst hz
    exact ⟨rfl, hk.vfsCreate_zero hcreate⟩
  · obtain ⟨⟨filp, s₁⟩, -, hlink⟩ := bind_eq_ok ((if_neg hz).symm.trans h)
    cases hlink
    exact absurd hneg (fd_not_negative _)

theorem openExisting_negative {inode flags : U64}
    (h : (calls fuel r).openExisting s t inode flags = .ok (res, s')) (hneg : res.toInt < 0) :
    flags &&& oTruncate ≠ 0 ∧ (s.kernel.inode inode).type = inodeRegularFile ∧
      ((s.kernel.inode inode).superblock = 0 ∨ s.kernel.typeOf inode ≠ .ramfs) := by
  obtain ⟨⟨filp, s₁⟩, hlink, h⟩ := bind_eq_ok h
  obtain ⟨⟨address, k₁⟩, halloc, hlink⟩ := bind_eq_ok hlink
  cases hlink
  obtain ⟨⟨f, supply, files, page⟩, -, halloc⟩ := bind_eq_ok halloc
  cases halloc
  dsimp only at h
  split at h
  · next hflags =>
    obtain ⟨⟨n, k₂⟩, htruncate, h⟩ := bind_eq_ok h
    have htype : (s.kernel.inode inode).type = inodeRegularFile := hflags.1
    refine ⟨hflags.2, htype, ?_⟩
    by_cases hn : n.toInt < 0
    · exact vfsFtruncate_negative htruncate hn htype
    · cases (if_neg hn).symm.trans h
      exact absurd hneg (fd_not_negative _)
  · cases h
    exact absurd hneg (fd_not_negative _)

/-- A failed OPEN that has not truncated leaves the open files as they were, and the tree
too, up to the directories that the path has loaded. -/
theorem open_failure_leaves_loads {path : List U8} {flags : U64} (hk : s.kernel.Inv)
    (ht : ¬TruncateFails fuel r s.kernel path flags)
    (h : (calls fuel r).sysOpen s t path flags = .ok (res, s')) (hneg : res.toInt < 0) :
    s'.filesLh = s.filesLh ∧ Grown s.kernel s'.kernel := by
  obtain ⟨⟨r', k₁⟩, hresolve, h⟩ := bind_eq_ok h
  have hres := vfsResolve_resolved hk hresolve
  dsimp only at h
  split at h
  · cases h
    exact ⟨rfl, hres.toGrown⟩
  split at h
  · cases h
    exact ⟨rfl, hres.toGrown⟩
  split at h
  · split at h
    · obtain ⟨hfiles, hrestored⟩ := openCreated_negative hres.inv.toSlabs h hneg
      exact ⟨hfiles, hres.toGrown.trans hrestored.grown⟩
    · cases h
      exact ⟨rfl, hres.toGrown⟩
  split at h
  · next hexists =>
    obtain ⟨hflag, htype, hfs⟩ := openExisting_negative h hneg
    exact absurd ⟨hflag, r', k₁, hresolve, hexists, htype, hfs⟩ ht
  · cases h

end Open

def rootAddress : U64 := 0xFFFF800000009000

/-- An empty root directory. The disk holds one directory entry, of type 0x85. -/
def bare : FsKernel where
  fs := Ramfs.init {
    supply := ⟨[0xFFFF800000001000, 0xFFFF800000002000, 0xFFFF800000003000, 0xFFFF800000004000],
      by simp [PageAligned], by decide⟩
    inodes := fun _ => ⟨inodeDirectory, 0x8000, 0, []⟩
    dentries := fun _ => clearedDentry
    ramfsInodes := fun _ => clearedRamfsInode
    ramfsClusters := fun _ => clearedCluster }
  files := slabOf 40
  exfatInodes := Slab.init 24 fun _ => clearedExfatNode
  exfatFileClusters := Slab.init 32 fun _ => clearedExfatFileCluster
  superblocks y := if y = 0x8000 then .ramfs else .exfat ⟨8, 16, 9, 3⟩ ⟨⟨9, 64⟩, 0, 63⟩
  statics := [rootAddress]
  fileLengths _ := 0
  vfsRootInode := rootAddress
  disk x := if x = 0 then 0x85 else 0
  stalePage _ := 0

theorem bare_slabs : bare.Slabs where
  inodes := .init (by decide) (by decide) _
  dentries := .init (by decide) (by decide) _
  exfatInodes := .init (by decide) (by decide) _
  exfatFileClusters := .init (by decide) (by decide) _
  files := .init (by decide) (by decide)
  filesFresh _ _ := List.not_mem_nil
  statics y hy := by
    obtain rfl := List.mem_singleton.mp hy
    exact ⟨by decide +kernel, by decide +kernel, by decide +kernel⟩
  dentryPages := ⟨by simp [bare, Ramfs.init, userEnd], fun _ hp => absurd hp List.not_mem_nil, rfl⟩

/-- `bare` with an exFAT file system at `m`. -/
def mounted : Except Crash FsKernel := do
  let (d, k) ← bare.dentryAlloc
  let (i, k) ← k.inodeAlloc
  let (e, k) ← k.exfatInodeAlloc
  let k := k.modifyExfatInode e fun _ => ⟨0, true, []⟩
  let k := k.modifyInode i fun _ => ⟨inodeDirectory, 0xA000, e, []⟩
  let k := k.modifyDentry d fun _ => ⟨[0x6D], i, 0⟩
  .ok (k.addDentry k.vfsRootInode d)

theorem mounted_slabs (h : mounted = .ok k) : k.Slabs ∧ k.superblocks = bare.superblocks := by
  obtain ⟨⟨d, k₁⟩, hd, h⟩ := bind_eq_ok h
  obtain ⟨⟨i, k₂⟩, hi, h⟩ := bind_eq_ok h
  obtain ⟨⟨e, k₃⟩, he, h⟩ := bind_eq_ok h
  have h₁ := bare_slabs.dentryAlloc hd
  have h₂ := h₁.slabs.inodeAlloc hi
  have h₃ := h₂.slabs.exfatInodeAlloc he
  obtain rfl := Except.ok.inj h
  exact ⟨h₃.slabs.congr rfl rfl rfl rfl rfl rfl rfl,
    h₃.superblocks.trans (h₂.superblocks.trans h₁.superblocks)⟩

theorem mounted_inv (h : mounted = .ok k) : k.Inv := by
  have hslots : mounted.map (fun k => (k.statics, k.inodeSlots, k.dentrySlots, k.exfatSlots)) =
      .ok ([rootAddress], [0xFFFF800000002030], [0xFFFF800000001030], [0xFFFF800000003030]) := by
    decide +kernel
  have hroot : mounted.map (fun k => (k.vfsRootInode, (k.inode rootAddress).superblock,
      (k.inode rootAddress).dentries, k.tree.behind 0xFFFF800000001030)) =
      .ok (rootAddress, 0x8000, [0xFFFF800000001030], 0xFFFF800000002030) := by decide +kernel
  have hchild : mounted.map (fun k => ((k.inode 0xFFFF800000002030).privateData,
      (k.inode 0xFFFF800000002030).dentries)) = .ok (0xFFFF800000003030, []) := by decide +kernel
  rw [h] at hslots hroot hchild
  have hslots := Except.ok.inj hslots
  have hroot := Except.ok.inj hroot
  have hchild := Except.ok.inj hchild
  simp only [Prod.mk.injEq] at hslots hroot hchild
  obtain ⟨hstatics, hinodes, hdentries, hexfat⟩ := hslots
  obtain ⟨hrootInode, hsuperblock, hentries, hbehind⟩ := hroot
  obtain ⟨hslabs, hsuperblocks⟩ := mounted_slabs h
  have hknown : ∀ i, k.Known i ↔ i = 0xFFFF800000002030 ∨ i = rootAddress := by
    intro i
    rw [Known, hinodes, hstatics, List.mem_singleton, List.mem_singleton]
  refine ⟨hslabs, ?_, ?_, ?_⟩
  · rw [hrootInode, hknown]
    exact .inr rfl
  · rintro i hi ⟨sb, partition, htype⟩
    rcases (hknown i).mp hi with rfl | rfl
    · rw [hchild.1, hexfat]
      exact List.mem_singleton_self _
    · rw [typeOf, hsuperblock, hsuperblocks] at htype
      cases htype
  · intro i hi _ d hd
    rcases (hknown i).mp hi with rfl | rfl
    · rw [hchild.2] at hd
      exact absurd hd List.not_mem_nil
    · rw [hentries] at hd
      obtain rfl := List.mem_singleton.mp hd
      rw [hbehind, hknown, KnownDentry, hdentries]
      exact ⟨.inl (List.mem_singleton_self _), .inl rfl⟩

def noResult : VfsLookupResult := ⟨0, 0, 0, 0, [], 0⟩

/-- The path `/m/z`. -/
def pathBelow : List U8 := [0x2F, 0x6D, 0x2F, 0x7A]

/-- What shows of the tree before and after an OPEN of `/m/z`. -/
def openBelow : Except Crash (U64 × List U64 × List U64 × List U64 × List U64) := do
  let k ← mounted
  let (n, s) ← (calls 2 noResult).sysOpen ⟨k, fun _ => []⟩ 0 pathBelow 0
  .ok (n, k.inodeSlots, s.kernel.inodeSlots, (k.inode 0xFFFF800000002030).dentries,
    (s.kernel.inode 0xFFFF800000002030).dentries)

theorem openBelow_eq : openBelow = .ok (-3, [0xFFFF800000002030],
    [0xFFFF800000002030, 0xFFFF800000002060], [], [0xFFFF800000001090]) := by
  decide +kernel

theorem failing_open_loads : ∃ k s', k.Inv ∧
    (calls 2 noResult).sysOpen ⟨k, fun _ => []⟩ 0 pathBelow 0 = .ok (-3, s') ∧
    0xFFFF800000002060 ∉ k.inodeSlots ∧ 0xFFFF800000002060 ∈ s'.kernel.inodeSlots ∧
    (k.inode 0xFFFF800000002030).dentries = [] ∧
    (s'.kernel.inode 0xFFFF800000002030).dentries = [0xFFFF800000001090] := by
  obtain ⟨k, hk, h⟩ := bind_eq_ok openBelow_eq
  obtain ⟨⟨n, s'⟩, hs', h⟩ := bind_eq_ok h
  simp only [Except.ok.injEq, Prod.mk.injEq] at h
  obtain ⟨rfl, hslots, hslots', hentries, hentries'⟩ := h
  refine ⟨k, s', mounted_inv hk, hs', ?_, ?_, hentries, hentries'⟩
  · rw [hslots]
    decide +kernel
  · rw [hslots']
    decide +kernel

theorem open_failure_leaves_loads_below : ∃ k s', mounted = .ok k ∧
    (calls 2 noResult).sysOpen ⟨k, fun _ => []⟩ 0 pathBelow 0 = .ok (-3, s') ∧
    s'.filesLh = (fun _ => []) ∧ Grown k s'.kernel := by
  obtain ⟨k, hk, h⟩ := bind_eq_ok openBelow_eq
  obtain ⟨⟨n, s'⟩, hs', h⟩ := bind_eq_ok h
  simp only [Except.ok.injEq, Prod.mk.injEq] at h
  obtain ⟨rfl, -⟩ := h
  exact ⟨k, s', hk, hs', open_failure_leaves_loads (mounted_inv hk) (fun ht => ht.1 rfl) hs'
    (by decide)⟩

end FsKernel

end Persistos
