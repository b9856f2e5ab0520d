import Persistos.RamfsOps

/-! A new file is empty, although `ramfs_create_file_inode` never assigns its
size: its record is cut from a cleared page and was never used before. -/

namespace Persistos

open Theory

structure FilesKept (fs fs' : Ramfs) (files : List U64) : Prop where
  inode : ∀ g ∈ files, fs'.inodes.objects g = fs.inodes.objects g
  ramfsInodeOf : ∀ g ∈ files, fs'.ramfsInodeOf g = fs.ramfsInodeOf g
  ramfsClusters : fs'.ramfsClusters = fs.ramfsClusters

namespace FilesKept

variable {fs fs' : Ramfs} {files : List U64}

theorem privateOf (h : FilesKept fs fs' files) {g : U64} (hg : g ∈ files) :
    fs'.privateOf g = fs.privateOf g := congrArg Inode.privateData (h.inode g hg)

theorem clustersOf (h : FilesKept fs fs' files) {g : U64} (hg : g ∈ files) :
    fs'.clustersOf g = fs.clustersOf g :=
  congrArg RamfsInode.ramfsClusters (h.ramfsInodeOf g hg)

theorem map_privateOf (h : FilesKept fs fs' files) :
    files.map fs'.privateOf = files.map fs.privateOf :=
  List.map_congr_left fun _ hg => h.privateOf hg

theorem flatMap_clustersOf (h : FilesKept fs fs' files) :
    files.flatMap fs'.clustersOf = files.flatMap fs.clustersOf :=
  List.flatMap_congr fun _ hg => h.clustersOf hg

theorem regular (h : FilesKept fs fs' files) (hh : RamfsHeap fs files) :
    ∀ g ∈ files, (fs'.inodes.objects g).type = inodeRegularFile ∧
      (fs'.inodes.objects g).superblock ≠ 0 := by
  intro g hg
  rw [h.inode g hg]
  exact hh.regular g hg

theorem sized (h : FilesKept fs fs' files) (hi : RamfsInv fs files) :
    ∀ g ∈ files, Sized (fs'.clustersOf g).length (fs'.ramfsInodeOf g).size := by
  intro g hg
  rw [h.clustersOf hg, h.ramfsInodeOf g hg]
  exact hi.sized g hg

theorem image (h : FilesKept fs fs' files) {g : U64} (hg : g ∈ files) :
    fs'.image g = fs.image g := by
  rw [Ramfs.image, Ramfs.image, h.clustersOf hg, h.ramfsInodeOf g hg, h.ramfsClusters]

end FilesKept

namespace RamfsInv

variable {fs fs' : Ramfs} {files : List U64} {parentDir parentDir' : Inode} {name : List U8}
  {f d : U64}

/-- The inode `f` is new, and the record of no file was touched. -/
structure NewEntry (fs fs' : Ramfs) (files : List U64) (f : U64) : Prop where
  not_mem : f ∉ files
  inodes : ∃ dirs, fs'.inodes.Ok fs'.supply (f :: (files ++ dirs))
  dentries : ∃ live, fs'.dentries.Ok fs'.supply live
  objects : ∀ g ∈ files, fs'.inodes.objects g = fs.inodes.objects g
  ramfsInodes : fs'.ramfsInodes = fs.ramfsInodes
  ramfsClusters : fs'.ramfsClusters = fs.ramfsClusters
  supply : fs'.supply.pages ⊆ fs.supply.pages
  supply_length : fs.supply.pages.length ≤ fs'.supply.pages.length + 2

theorem NewEntry.objects_of_modify {fs'' : Ramfs} (h : NewEntry fs fs' files f)
    {φ : Inode → Inode} (hi : fs''.inodes = fs'.inodes.modify f φ) {g : U64} (hg : g ∈ files) :
    fs''.inodes.objects g = fs.inodes.objects g := by
  rw [hi, Slab.modify_objects_ne _ (ne_of_mem_of_not_mem hg h.not_mem), h.objects g hg]

theorem allocEntry (h : RamfsInv fs files) (ha : vfsAllocEntry fs name = .ok (f, d, fs')) :
    NewEntry fs fs' files f := by
  obtain ⟨⟨x, supply₁, inodes⟩, hx, ha⟩ := bind_eq_ok ha
  obtain ⟨⟨y, supply₂, dentries⟩, hy, ha⟩ := bind_eq_ok ha
  dsimp only at ha hy
  split at ha
  · cases ha
  cases ha
  obtain ⟨dirs, hinodes⟩ := h.inodes
  obtain ⟨live, hdentries⟩ := h.dentries
  have hallx := hinodes.alloc hx
  have hally := (hdentries.of_subset hallx.supply_subset).alloc hy
  have hlx := hallx.supply_length
  have hly := hally.supply_length
  refine ⟨fun hm => hallx.not_live (List.mem_append_left dirs hm), ⟨dirs, ?_⟩,
    ⟨d :: live, hally.ok.modify d fun dentry => { dentry with name }⟩, ?_, rfl, rfl, ?_, ?_⟩
  · exact hallx.ok.of_subset hally.supply_subset
  · exact fun g hg => hallx.objects g (List.mem_append_left dirs hg)
  · exact fun p hp => hallx.supply_subset (hally.supply_subset hp)
  · dsimp only
    omega

theorem createDirInode_ok {n : U64}
    (h : ramfsCreateDirInode fs parentDir f d = .ok (n, parentDir', fs')) :
    ∃ φ ψ, fs'.inodes = fs.inodes.modify f φ ∧ fs'.dentries = fs.dentries.modify d ψ ∧
      fs'.ramfsInodes = fs.ramfsInodes ∧ fs'.ramfsClusters = fs.ramfsClusters ∧
      fs'.supply = fs.supply := by
  cases h
  exact ⟨fun inode => { inode with
      type := inodeDirectory, superblock := parentDir.superblock, dentries := [] },
    fun dentry => { dentry with inode := f, mountedInode := 0 }, rfl, rfl, rfl, rfl, rfl⟩

theorem createFileInode_ok {n : U64}
    (h : ramfsCreateFileInode fs parentDir f d = .ok (n, parentDir', fs')) :
    ∃ r supply records φ ψ, fs.ramfsInodes.alloc clearedRamfsInode fs.supply =
        .ok (r, supply, records) ∧ n = 0 ∧
      fs'.inodes = fs.inodes.modify f φ ∧ fs'.dentries = fs.dentries.modify d ψ ∧
      fs'.ramfsInodes = records.modify r (fun r => { r with ramfsClusters := [] }) ∧
      fs'.ramfsClusters = fs.ramfsClusters ∧ fs'.supply = supply ∧
      (∀ inode, (φ inode).type = inodeRegularFile ∧
        (φ inode).superblock = parentDir.superblock ∧ (φ inode).privateData = r) := by
  obtain ⟨⟨r, supply, records⟩, hr, he⟩ := bind_eq_ok h
  cases he
  exact ⟨r, supply, records,
    (fun inode : Inode => { inode with privateData := r }) ∘ fun inode => { inode with
      type := inodeRegularFile, superblock := parentDir.superblock, dentries := [] },
    fun dentry => { dentry with inode := f, mountedInode := 0 }, hr, rfl,
    by rw [← Slab.modify_modify], rfl, rfl, rfl, rfl, fun _ => ⟨rfl, rfl, rfl⟩⟩

theorem mkdir (h : RamfsInv fs files)
    (hm : vfsMkdir ramfsSuperblockOps fs parentDir name = .ok (f, parentDir', fs')) :
    RamfsInv fs' files ∧ FilesKept fs fs' files := by
  obtain ⟨⟨x, y, fs₁⟩, ha, hm⟩ := bind_eq_ok hm
  obtain ⟨⟨n, parent, fs₂⟩, hd, hm⟩ := bind_eq_ok hm
  obtain ⟨rfl, -, rfl⟩ : x = f ∧ parent = parentDir' ∧ fs₂ = fs' := by
    simpa using hm
  have hnew := h.allocEntry ha
  obtain ⟨φ, ψ, hi, hde, hr, hc, hs⟩ := createDirInode_ok hd
  have hobjects : ∀ g ∈ files, fs₂.inodes.objects g = fs.inodes.objects g :=
    fun g hg => hnew.objects_of_modify hi hg
  obtain ⟨dirs, hinodes⟩ := hnew.inodes
  obtain ⟨live, hdentries⟩ := hnew.dentries
  have hkept : FilesKept fs fs₂ files := by
    refine ⟨hobjects, ?_, hc.trans hnew.ramfsClusters⟩
    intro g hg
    rw [Ramfs.ramfsInodeOf, Ramfs.privateOf, hobjects g hg, hr, hnew.ramfsInodes]
    rfl
  refine ⟨⟨⟨⟨x :: dirs, ?_⟩, ⟨live, ?_⟩, ?_, ?_, ?_, hkept.regular h.toRamfsHeap⟩,
    hkept.sized h⟩, hkept⟩
  · rw [hi, hs]
    exact (hinodes.modify x φ).perm List.perm_middle.symm
  · rw [hde, hs]
    exact hdentries.modify y ψ
  · rw [hkept.map_privateOf, hr, hnew.ramfsInodes, hs]
    exact h.ramfsInodes.of_subset hnew.supply
  · rw [hkept.map_privateOf, hr, hnew.ramfsInodes]
    exact h.unused
  · rw [hkept.flatMap_clustersOf, hkept.ramfsClusters, hs]
    exact h.ramfsClusters.of_subset hnew.supply

/-- The record of the new inode `f` is empty, and the other records are kept. -/
structure NewRecord (fs fs' : Ramfs) (files : List U64) (f : U64) : Prop where
  kept : FilesKept fs fs' files
  empty : fs'.ramfsInodeOf f = ⟨[], 0⟩
  ramfsInodes : fs'.ramfsInodes.Ok fs'.supply ((files ++ [f]).map fs'.privateOf)
  unused : fs'.ramfsInodes.Unused clearedRamfsInode ((files ++ [f]).map fs'.privateOf)

theorem newRecord {fs₁ : Ramfs} (h : RamfsInv fs files) (hnew : NewEntry fs fs₁ files f)
    {r : U64} {supply : PageSupply} {records : Slab RamfsInode} {φ : Inode → Inode}
    (hr : fs₁.ramfsInodes.alloc clearedRamfsInode fs₁.supply = .ok (r, supply, records))
    (hi : fs'.inodes = fs₁.inodes.modify f φ) (hφ : ∀ inode, (φ inode).privateData = r)
    (hrec : fs'.ramfsInodes = records.modify r fun r => { r with ramfsClusters := [] })
    (hcl : fs'.ramfsClusters = fs₁.ramfsClusters) (hs : fs'.supply = supply) :
    NewRecord fs fs' files f := by
  have hobjects : ∀ g ∈ files, fs'.inodes.objects g = fs.inodes.objects g :=
    fun g hg => hnew.objects_of_modify hi hg
  have hrecords := h.ramfsInodes.of_subset hnew.supply
  rw [hnew.ramfsInodes] at hr
  have hall := hrecords.alloc hr
  obtain ⟨hzero, hunused⟩ := hrecords.alloc_unused h.unused hr
  have hprivate : fs'.privateOf f = r := by
    rw [Ramfs.privateOf, hi, Slab.modify_objects_self, hφ]
  have hkept : FilesKept fs fs' files := by
    refine ⟨hobjects, ?_, hcl.trans hnew.ramfsClusters⟩
    intro g hg
    have hlive := List.mem_map_of_mem (f := fs.privateOf) hg
    have hpg : fs'.privateOf g = fs.privateOf g := congrArg Inode.privateData (hobjects g hg)
    rw [Ramfs.ramfsInodeOf, hpg, hrec,
      Slab.modify_objects_ne _ (ne_of_mem_of_not_mem hlive hall.not_live)]
    exact hall.objects _ hlive
  have hperm : (r :: files.map fs.privateOf).Perm ((files ++ [f]).map fs'.privateOf) := by
    rw [List.map_append, List.map_singleton, hprivate, hkept.map_privateOf]
    exact (List.perm_append_singleton _ _).symm
  refine ⟨hkept, ?_, ?_, ?_⟩
  · rw [Ramfs.ramfsInodeOf, hprivate, hrec, Slab.modify_objects_self, hzero]
    rfl
  · rw [hrec, hs]
    exact (hall.ok.perm hperm).modify r _
  · rw [hrec]
    exact (hunused.perm hperm).modify (hperm.mem_iff.mp List.mem_cons_self) _

theorem create (h : RamfsInv fs files) (hp : parentDir.superblock ≠ 0) {result : Option U64}
    (hc : vfsCreate ramfsSuperblockOps fs parentDir name = .ok (result, parentDir', fs')) :
    ∃ f, result = some f ∧ f ∉ files ∧ RamfsInv fs' (files ++ [f]) ∧ FilesKept fs fs' files ∧
      fs'.ramfsInodeOf f = ⟨[], 0⟩ := by
  obtain ⟨⟨x, y, fs₁⟩, ha, hc⟩ := bind_eq_ok hc
  obtain ⟨⟨n, parent, fs₂⟩, hf, hc⟩ := bind_eq_ok hc
  have hnew := h.allocEntry ha
  obtain ⟨r, supply, records, φ, ψ, hr, hn, hi, hde, hrec, hcl, hs, hφ⟩ := createFileInode_ok hf
  obtain ⟨rfl, -, rfl⟩ : some x = result ∧ parent = parentDir' ∧ fs₂ = fs' := by
    simpa [hn] using hc
  have hrecord := h.newRecord hnew hr hi (fun inode => (hφ inode).2.2) hrec hcl hs
  have hsub : fs₂.supply.pages ⊆ fs₁.supply.pages := by
    rw [hnew.ramfsInodes] at hr
    rw [hs]
    exact ((h.ramfsInodes.of_subset hnew.supply).alloc hr).supply_subset
  have hkept := hrecord.kept
  have hempty : fs₂.clustersOf x = [] := congrArg RamfsInode.ramfsClusters hrecord.empty
  obtain ⟨dirs, hinodes⟩ := hnew.inodes
  obtain ⟨live, hdentries⟩ := hnew.dentries
  refine ⟨x, rfl, hnew.not_mem, ⟨⟨⟨dirs, ?_⟩, ⟨live, ?_⟩, hrecord.ramfsInodes, hrecord.unused,
    ?_, ?_⟩, ?_⟩, hkept, hrecord.empty⟩
  · rw [hi, List.append_assoc]
    exact ((hinodes.modify x φ).perm List.perm_middle.symm).of_subset hsub
  · rw [hde]
    exact (hdentries.modify y ψ).of_subset hsub
  · rw [List.flatMap_append, List.flatMap_singleton, hempty, List.append_nil,
      hkept.flatMap_clustersOf, hkept.ramfsClusters]
    exact (h.ramfsClusters.of_subset hnew.supply).of_subset hsub
  · refine List.forall_mem_append.mpr ⟨hkept.regular h.toRamfsHeap, ?_⟩
    intro g hg
    obtain rfl := List.mem_singleton.mp hg
    rw [hi, Slab.modify_objects_self, (hφ _).1, (hφ _).2.1]
    exact ⟨rfl, hp⟩
  · refine List.forall_mem_append.mpr ⟨hkept.sized h, ?_⟩
    intro g hg
    obtain rfl := List.mem_singleton.mp hg
    rw [hempty, hrecord.empty]
    exact ⟨by decide, Nat.zero_le _, by decide⟩

end RamfsInv

end Persistos
