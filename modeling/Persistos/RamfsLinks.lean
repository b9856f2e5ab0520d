import Persistos.CreateResolve
import Persistos.PageCosts

/-! The calls of the kernel on what is in RAM are those of the RAM file system. They keep its
files apart, and the tree apart from the contents. -/

namespace Persistos

open Theory

/-- A change to an inode that is not one of the files. -/
theorem RamfsInv.modifyInode {fs : Ramfs} {files : List U64} (h : RamfsInv fs files) {y : U64}
    (hy : y ∉ files) (f : Inode → Inode) :
    RamfsInv { fs with inodes := fs.inodes.modify y f } files ∧
      FilesKept fs { fs with inodes := fs.inodes.modify y f } files := by
  have hinode : ∀ g ∈ files, (fs.inodes.modify y f).objects g = fs.inodes.objects g :=
    fun g hg => Slab.modify_objects_ne _ (ne_of_mem_of_not_mem hg hy) f
  have hkept : FilesKept fs { fs with inodes := fs.inodes.modify y f } files := by
    refine ⟨hinode, fun g hg => ?_, rfl⟩
    have hprivate := congrArg Inode.privateData (hinode g hg)
    exact congrArg fs.ramfsInodes.objects hprivate
  obtain ⟨dirs, hinodes⟩ := h.inodes
  refine ⟨⟨⟨⟨dirs, hinodes.modify y f⟩, h.dentries, ?_, ?_, ?_, hkept.regular h.toRamfsHeap⟩,
    hkept.sized h⟩, hkept⟩
  · rw [hkept.map_privateOf]
    exact h.ramfsInodes
  · rw [hkept.map_privateOf]
    exact h.unused
  · rw [hkept.flatMap_clustersOf]
    exact h.ramfsClusters

/-- The write beside the tree. -/
theorem RecordStep.write {fs fs' : Ramfs} {filp : File} {buffer : Nat → U8} {length n : U64}
    (h : ramfsWrite fs filp buffer length = .ok (n, fs')) :
    RecordStep fs fs' (fs.privateOf filp.inode) := by
  rw [ramfsWrite] at h
  split at h
  · cases h
    exact .refl fs _
  · obtain ⟨fs₁, hroom, h⟩ := bind_eq_ok h
    obtain ⟨clusters, -, h⟩ := bind_eq_ok h
    cases h
    have hstep : RecordStep fs fs₁ (fs.privateOf filp.inode) := (RecordStep.rule _).makeRoom hroom
    exact ⟨hstep.inodes, hstep.dentries, hstep.allocator, hstep.kept, hstep.supply⟩

namespace FsKernel

variable {k k' : FsKernel} {parent i : U64} {name : List U8}

theorem ramfsRecords_of_inv {files : List U64} (h : RamfsInv k.fs files) : RamfsRecords k :=
  ⟨h.ramfsInodes.perm h.ramfsInodes.inv.allocatedSlots_perm.symm,
    h.unused.perm h.ramfsInodes.inv.allocatedSlots_perm.symm⟩

theorem allocEntry_ramfs {k₁ k₂ : FsKernel} {d : U64} (ha : k.allocEntry = .ok (i, d, k₁))
    (hn : k₁.setName d name = .ok k₂) :
    vfsAllocEntry k.fs (cString name) = .ok (i, d, k₂.fs) ∧ k₂ = { k with fs := k₂.fs } := by
  obtain ⟨⟨i', l₁⟩, hinode, ha⟩ := bind_eq_ok ha
  obtain ⟨⟨d', l₂⟩, hdentry, ha⟩ := bind_eq_ok ha
  simp only [Except.ok.injEq, Prod.mk.injEq] at ha
  obtain ⟨rfl, rfl, rfl⟩ := ha
  obtain ⟨⟨x, supply, inodes⟩, hx, hinode⟩ := bind_eq_ok hinode
  cases hinode
  obtain ⟨⟨y, supply', dentries⟩, hy, hdentry⟩ := bind_eq_ok hdentry
  cases hdentry
  rw [setName] at hn
  split at hn
  · cases hn
  · next hlength =>
    obtain rfl := Except.ok.inj hn
    refine ⟨?_, rfl⟩
    rw [vfsAllocEntry, hx, ok_bind]
    dsimp only at hy ⊢
    rw [hy, ok_bind]
    dsimp only
    rw [if_neg hlength]
    rfl

theorem Slabs.vfsMkdir_ramfs (h : k.Slabs) (hp : k.Known parent)
    (htype : k.typeOf parent = .ramfs) (hc : k.vfsMkdir parent name = .ok (i, k')) :
    ∃ dir fs, Persistos.vfsMkdir ramfsSuperblockOps k.fs (k.inode parent) (cString name) =
      .ok (i, dir, fs) ∧ k' = { k with fs }.modifyInode parent fun _ => dir := by
  obtain ⟨⟨i', d, k₁⟩, ha, hc⟩ := bind_eq_ok hc
  obtain ⟨k₂, hn, hc⟩ := bind_eq_ok hc
  obtain ⟨halloc, hk₂⟩ := allocEntry_ramfs ha hn
  have hnamed := h.namedEntry ha hn
  obtain ⟨⟨n, k₃⟩, hcreate, hfinish⟩ := bind_eq_ok hc
  cases hfinish
  rw [createDirInode, hnamed.typeOf hp, htype, hnamed.kept parent hp] at hcreate
  obtain ⟨⟨n', dir, fs⟩, hramfs, hcreate⟩ := bind_eq_ok hcreate
  cases hcreate
  refine ⟨dir, fs, ?_, ?_⟩
  · rw [Persistos.vfsMkdir, halloc, ok_bind]
    have hramfs : ramfsSuperblockOps.createDirInode k₂.fs (k.inode parent) i d =
      .ok (n, dir, fs) := hramfs
    dsimp only
    rw [hramfs, ok_bind]
  · rw [hk₂]

theorem Slabs.vfsCreate_ramfs (h : k.Slabs) (hp : k.Known parent)
    (htype : k.typeOf parent = .ramfs) (hc : k.vfsCreate parent name = .ok (i, k')) :
    ∃ dir fs, Persistos.vfsCreate ramfsSuperblockOps k.fs (k.inode parent) (cString name) =
      .ok (some i, dir, fs) ∧ k' = { k with fs }.modifyInode parent fun _ => dir := by
  obtain ⟨⟨i', d, k₁⟩, ha, hc⟩ := bind_eq_ok hc
  obtain ⟨k₂, hn, hc⟩ := bind_eq_ok hc
  obtain ⟨halloc, hk₂⟩ := allocEntry_ramfs ha hn
  have hnamed := h.namedEntry ha hn
  obtain ⟨⟨n, k₃⟩, hcreate, hfinish⟩ := bind_eq_ok hc
  rw [createFileInode, hnamed.typeOf hp, htype, hnamed.kept parent hp] at hcreate
  obtain ⟨⟨n', dir, fs⟩, hramfs, hcreate⟩ := bind_eq_ok hcreate
  obtain ⟨-, -, -, -, -, -, hn, -⟩ := RamfsInv.createFileInode_ok hramfs
  subst hn
  cases hcreate
  have hfinish : Except.ok (i', _) = Except.ok (i, k') :=
    (if_neg (not_not_intro rfl)).symm.trans hfinish
  cases hfinish
  refine ⟨dir, fs, ?_, ?_⟩
  · rw [Persistos.vfsCreate, halloc, ok_bind]
    have hramfs : ramfsSuperblockOps.createFileInode k₂.fs (k.inode parent) i d =
      .ok (0, dir, fs) := hramfs
    dsimp only
    rw [hramfs, ok_bind]
    rfl
  · rw [hk₂]

section Files

variable {files : List U64}

theorem not_mem_files (hr : RamfsInv k.fs files) (hdir : (k.inode i).type = inodeDirectory) :
    i ∉ files := by
  intro hi
  have hregular := (hr.regular i hi).1
  exact absurd (hdir.symm.trans hregular) (by decide)

/-- A new directory leaves the files as they are. -/
theorem Slabs.vfsMkdir_files (h : k.Slabs) (hr : RamfsInv k.fs files) (hp : k.Known parent)
    (htype : k.typeOf parent = .ramfs) (hdir : (k.inode parent).type = inodeDirectory)
    (hc : k.vfsMkdir parent name = .ok (i, k')) :
    RamfsInv k'.fs files ∧ ∀ g ∈ files, k'.fs.image g = k.fs.image g := by
  obtain ⟨dir, fs, hramfs, rfl⟩ := h.vfsMkdir_ramfs hp htype hc
  obtain ⟨hinv, hkept⟩ := hr.mkdir hramfs
  obtain ⟨hinv', hkept'⟩ := hinv.modifyInode (not_mem_files hr hdir) fun _ => dir
  exact ⟨hinv', fun g hg => (hkept'.image hg).trans (hkept.image hg)⟩

/-- A new file is empty, and leaves the others as they are. -/
theorem Slabs.vfsCreate_files (h : k.Slabs) (hr : RamfsInv k.fs files) (hp : k.Known parent)
    (htype : k.typeOf parent = .ramfs) (hdir : (k.inode parent).type = inodeDirectory)
    (hsuperblock : (k.inode parent).superblock ≠ 0)
    (hc : k.vfsCreate parent name = .ok (i, k')) :
    RamfsInv k'.fs (files ++ [i]) ∧ (∀ g ∈ files, k'.fs.image g = k.fs.image g) ∧
      k'.fs.ramfsInodeOf i = ⟨[], 0⟩ := by
  obtain ⟨-, d, hnew⟩ := h.vfsCreate (ramfsRecords_of_inv hr) hp htype hc
  obtain ⟨dir, fs, hramfs, rfl⟩ := h.vfsCreate_ramfs hp htype hc
  obtain ⟨f, hf, -, hinv, hkept, hempty⟩ := hr.create hsuperblock hramfs
  obtain rfl := Option.some.inj hf
  have hparent : parent ∉ files ++ [i] := by
    intro hmem
    rcases List.mem_append.mp hmem with hmem | hmem
    · exact not_mem_files hr hdir hmem
    · obtain rfl := List.mem_singleton.mp hmem
      exact hnew.newInode hp
  obtain ⟨hinv', hkept'⟩ := hinv.modifyInode hparent fun _ => dir
  have hi : i ∈ files ++ [i] := List.mem_append_right _ (List.mem_singleton_self i)
  exact ⟨hinv', fun g hg => (hkept'.image (List.mem_append_left _ hg)).trans (hkept.image hg),
    (hkept'.ramfsInodeOf i hi).trans hempty⟩

end Files

/-- A change to the contents leaves the tree as it is. -/
theorem Inv.of_recordStep {fs : Ramfs} {e : U64} (h : k.Inv) (hstep : RecordStep k.fs fs e) :
    { k with fs }.Inv := by
  have hslabs : { k with fs }.Slabs :=
    (h.toSlabs.shrinkSupply hstep.supply).congr rfl (congrArg Slab.allocator hstep.inodes)
      (congrArg Slab.allocator hstep.dentries) rfl rfl rfl rfl
  have htree : { k with fs }.tree = k.tree := by
    rw [FsKernel.tree, hstep.inodes, hstep.dentries]
    rfl
  have hinode : ∀ y, FsKernel.inode { k with fs } y = k.inode y := by
    intro y
    rw [FsKernel.inode, hstep.inodes]
    rfl
  have htype : ∀ y, FsKernel.typeOf { k with fs } y = k.typeOf y := by
    intro y
    rw [FsKernel.typeOf, hinode]
    rfl
  have hknown : ∀ y, Known { k with fs } y ↔ k.Known y := by
    intro y
    rw [Known, inodeSlots, hstep.inodes]
    rfl
  refine ⟨hslabs, (hknown _).mpr h.root, fun y hy hexfat => ?_, fun y hy hd d hmem => ?_⟩
  · rw [OnExfat, htype] at hexfat
    rw [hinode]
    exact h.privates y ((hknown y).mp hy) hexfat
  · rw [hinode] at hd hmem
    obtain ⟨hdentry, hbehind⟩ := h.entries y ((hknown y).mp hy) hd d hmem
    rw [htree, hknown, KnownDentry, dentrySlots, hstep.dentries]
    exact ⟨hdentry, hbehind⟩

end FsKernel

end Persistos
