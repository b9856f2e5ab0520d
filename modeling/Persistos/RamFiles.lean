import Persistos.Tar
import Persistos.TreePlaces

/-! The files in RAM between the calls of tasks. The pages of memory bound their sizes, so that
no offset in them comes near the end of the 64 bits. -/

namespace Persistos

open Theory

theorem slabTryAlloc_objectSize {a b : SlabAllocator} {x : U64}
    (h : slabTryAlloc a = some (x, b)) : b.objectSize = a.objectSize := by
  obtain ⟨⟨y, headers⟩, -, he⟩ := Option.map_eq_some_iff.mp h
  cases he
  rfl

theorem slabAlloc_objectSize {κ : Type} {kpageAlloc : κ → Except Crash (U64 × κ)} {k k' : κ}
    {a b : SlabAllocator} {x : U64} {new : Option U64}
    (h : slabAlloc kpageAlloc k a = .ok (x, k', b, new)) : b.objectSize = a.objectSize := by
  rw [slabAlloc] at h
  split at h
  · next ht =>
    cases h
    exact slabTryAlloc_objectSize ht
  · split at h
    · cases h
    · dsimp only at h
      split at h
      · next ht =>
        cases h
        exact (slabTryAlloc_objectSize ht).trans rfl
      · cases h

theorem slabFree_objectSize {a b : SlabAllocator} {x : U64} (h : slabFree a x = .ok b) :
    b.objectSize = a.objectSize := by
  rw [slabFree] at h
  dsimp only at h
  split at h
  · cases h
  · cases h
    rfl

/-- There are no more aligned pages than addresses of them. -/
theorem aligned_length_le {pages : List U64} (hn : pages.Nodup) (ha : ∀ p ∈ pages, PageAligned p) :
    pages.length ≤ 2 ^ 52 := by
  have hinj : ∀ p ∈ pages, ∀ q ∈ pages, p.toNat / 4096 = q.toNat / 4096 → p = q := by
    intro p hp q hq he
    have hpz : p.toNat % 4096 = 0 := ha p hp
    have hqz : q.toNat % 4096 = 0 := ha q hq
    exact BitVec.eq_of_toNat_eq (by omega)
  have hnodup : (pages.map fun p => p.toNat / 4096).Nodup := List.Nodup.map_on hinj hn
  have hsub : (pages.map fun p => p.toNat / 4096) ⊆ List.range (2 ^ 52) := by
    intro n hmem
    obtain ⟨p, -, rfl⟩ := List.mem_map.mp hmem
    have hlt := p.isLt
    exact List.mem_range.mpr (by omega)
  simpa using (hnodup.subperm hsub).length_le

theorem SlabInv.length_le {a : SlabAllocator} {live : List U64} (h : SlabInv a live) :
    live.length ≤ a.pages.length * a.capacity := by
  have hsub : live ⊆ a.pages.flatMap fun p => (List.range a.capacity).map (a.slotAt p) := by
    intro x hx
    obtain ⟨p, hp, s, hs, -, rfl⟩ := (h.mem_live x).mp hx
    exact List.mem_flatMap.mpr ⟨p, hp, List.mem_map_of_mem (List.mem_range.mpr hs)⟩
  have hle := (h.live_nodup.subperm hsub).length_le
  simpa [List.length_flatMap] using hle

/-- A page has room for 28 clusters, and for the pointers in front of each. -/
theorem clusters_length_le {a : SlabAllocator} {live : List U64} (h : SlabInv a live)
    (hsize : a.objectSize = 144) : live.length ≤ 28 * 2 ^ 52 := by
  have hcapacity : a.capacity ≤ 28 := by
    rw [SlabAllocator.capacity, h.sized.perPage, hsize]
    exact Nat.min_le_right 256 28
  calc live.length ≤ a.pages.length * a.capacity := h.length_le
    _ ≤ 2 ^ 52 * 28 := Nat.mul_le_mul (aligned_length_le h.pages_nodup h.aligned) hcapacity
    _ = 28 * 2 ^ 52 := Nat.mul_comm _ _

/-- The size of the objects in the slab of the clusters is as before. -/
def SameClusterSize (fs fs' : Ramfs) : Prop :=
  fs'.ramfsClusters.allocator.objectSize = fs.ramfsClusters.allocator.objectSize

namespace SameClusterSize

variable {fs fs' : Ramfs}

theorem rule (e : U64) : RecordRule e SameClusterSize where
  refl _ := rfl
  trans h h' := h'.trans h
  append {fs fs'} h := by
    obtain ⟨⟨c, supply, clusters⟩, halloc, h⟩ := bind_eq_ok h
    obtain ⟨⟨x, supply', a, new⟩, hslab, halloc⟩ := bind_eq_ok halloc
    cases halloc
    cases h
    exact slabAlloc_objectSize hslab
  drop {fs fs' c} h := by
    obtain ⟨clusters, hfree, h⟩ := bind_eq_ok h
    obtain ⟨a, hslab, hfree⟩ := bind_eq_ok hfree
    cases hfree
    cases h
    exact slabFree_objectSize hslab
  assign _ _ := rfl

theorem writeClusters {buffer : Nat → U8} {length start stop clusterStart : U64}
    {clusters : List U64} {slab slab' : Slab (Nat → U8)}
    (h : ramfsWriteClusters buffer length start stop clusters clusterStart slab = .ok slab') :
    slab'.allocator = slab.allocator := by
  induction clusters generalizing clusterStart slab with
  | nil =>
    rw [ramfsWriteClusters] at h
    split at h
    · cases h
    · cases h
      rfl
  | cons cluster rest ih =>
    rw [ramfsWriteClusters] at h
    split at h
    · dsimp only at h
      split at h
      · obtain ⟨data, -, h⟩ := bind_eq_ok h
        have hrest := ih h
        exact hrest
      · exact ih h
    · cases h
      rfl

theorem write {filp : File} {buffer : Nat → U8} {length n : U64}
    (h : ramfsWrite fs filp buffer length = .ok (n, fs')) : SameClusterSize fs fs' := by
  rw [ramfsWrite] at h
  split at h
  · cases h
    rfl
  · obtain ⟨fs₁, hroom, h⟩ := bind_eq_ok h
    obtain ⟨clusters, hloop, h⟩ := bind_eq_ok h
    cases h
    have hsize : SameClusterSize fs fs₁ := (rule _).makeRoom hroom
    exact (congrArg SlabAllocator.objectSize (writeClusters hloop)).trans hsize

end SameClusterSize

namespace FsKernel

variable {k k' k'' : FsKernel} {ramFiles : List U64} {f : U64}

/-- A write to a file in RAM. -/
theorem vfsWrite_ramfs {fops : FileOperations FsKernel} {data : Nat → U8} {files : List U64}
    {i : U64} (hr : RamfsInv k.fs files) (hi : i ∈ files) (hz : i ≠ 0)
    (htype : k.typeOf i = .ramfs) (offset size : U64) :
    k.vfsWrite fops ⟨i, offset⟩ data size = (do
      let (n, fs) ← ramfsWrite k.fs ⟨i, offset⟩ data size
      .ok (n, if n ≠ -1 then File.advance ⟨i, offset⟩ n else ⟨i, offset⟩, { k with fs })) := by
  obtain ⟨hregular, hsuperblock⟩ := hr.regular i hi
  have hregular : (k.inode i).type = inodeRegularFile := hregular
  have hdevice : (k.inode i).type ≠ inodeDevice := by
    rw [hregular]
    decide
  have hsuperblock : (k.inode i).superblock ≠ 0 := hsuperblock
  rw [FsKernel.vfsWrite, if_neg hz, if_neg hdevice, if_pos hregular, if_neg hsuperblock, writeFile,
    htype]
  cases ramfsWrite k.fs ⟨i, offset⟩ data size <;> rfl

/-- The slabs are in order, and `ramFiles` are the regular files in RAM. -/
structure RamKernel (k : FsKernel) (ramFiles : List U64) : Prop extends Slabs k where
  ram : RamfsInv k.fs ramFiles
  onRamfs : ∀ f ∈ ramFiles, k.typeOf f = .ramfs
  clusterSize : k.fs.ramfsClusters.allocator.objectSize = 144

namespace RamKernel

theorem regular (h : k.RamKernel ramFiles) (hf : f ∈ ramFiles) :
    (k.inode f).type = inodeRegularFile := (h.ram.regular f hf).1

theorem mounted (h : k.RamKernel ramFiles) (hf : f ∈ ramFiles) : (k.inode f).superblock ≠ 0 :=
  (h.ram.regular f hf).2

theorem ne_zero (h : k.RamKernel ramFiles) (hf : f ∈ ramFiles) : f ≠ 0 := by
  obtain ⟨dirs, hok⟩ := h.ram.inodes
  exact slot_ne_zero hok.inv (List.mem_append_left dirs hf)

theorem size_le (h : k.RamKernel ramFiles) (hf : f ∈ ramFiles) :
    (k.fs.image f).size ≤ 2 ^ 64 - 2 ^ 61 := by
  have hcovered : (k.fs.image f).size ≤ 128 * (k.fs.clustersOf f).length :=
    (h.ram.sized f hf).covered
  have hpart : (k.fs.clustersOf f).length ≤ (ramFiles.flatMap k.fs.clustersOf).length :=
    (List.sublist_flatten_of_mem (List.mem_map_of_mem hf)).length_le
  have hall := clusters_length_le h.ram.ramfsClusters.inv h.clusterSize
  omega

/-- The contents of the files are a matter of the RAM file system alone. -/
theorem congr (h : k.RamKernel ramFiles) (hslabs : k'.Slabs) (hfs : k'.fs = k.fs)
    (hsuperblocks : k'.superblocks = k.superblocks) : k'.RamKernel ramFiles where
  toSlabs := hslabs
  ram := hfs ▸ h.ram
  onRamfs f hf := by
    rw [FsKernel.typeOf, FsKernel.inode, hfs, hsuperblocks]
    exact h.onRamfs f hf
  clusterSize := hfs ▸ h.clusterSize

theorem disk (h : k.RamKernel ramFiles) (disk : Nat → U8) : { k with disk }.RamKernel ramFiles :=
  h.congr (h.toSlabs.congr rfl rfl rfl rfl rfl rfl rfl) rfl rfl

/-- A write changes the contents of one file. -/
theorem write (h : k.RamKernel ramFiles) {filp : File} (hf : filp.inode ∈ ramFiles)
    {buffer : Nat → U8} {length n : U64} {fs : Ramfs}
    (hw : ramfsWrite k.fs filp buffer length = .ok (n, fs)) :
    { k with fs }.RamKernel ramFiles ∧ TreeKept k { k with fs } ∧ n = length ∧
      fs.image filp.inode = (k.fs.image filp.inode).write filp.offset buffer length ∧
      ∀ g ∈ ramFiles, g ≠ filp.inode → fs.image g = k.fs.image g := by
  have hstep := RecordStep.write hw
  have hkept := TreeKept.of_recordStep hstep
  obtain ⟨hn, hcall⟩ := h.ram.write_ok hf hw
  have hslabs : { k with fs }.Slabs := (h.toSlabs.shrinkSupply hstep.supply).congr rfl
    (congrArg Slab.allocator hstep.inodes) (congrArg Slab.allocator hstep.dentries) rfl rfl rfl rfl
  refine ⟨⟨hslabs, hcall.inv, fun f hf => ?_, ?_⟩, hkept, hn, hcall.image, ?_⟩
  · exact (hkept.typeOf f).trans (h.onRamfs f hf)
  · exact (SameClusterSize.write hw).trans h.clusterSize
  · exact fun g hg hne => hcall.others.image hg hne

theorem shrinkSupply (h : k.RamKernel ramFiles) {supply : PageSupply}
    (hs : supply.pages ⊆ k.fs.supply.pages) :
    FsKernel.RamKernel { k with fs := { k.fs with supply } } ramFiles := by
  obtain ⟨dirs, hinodes⟩ := h.ram.inodes
  obtain ⟨live, hdentries⟩ := h.ram.dentries
  refine ⟨h.toSlabs.shrinkSupply hs, ⟨⟨⟨dirs, hinodes.of_subset hs⟩,
    ⟨live, hdentries.of_subset hs⟩, h.ram.ramfsInodes.of_subset hs, h.ram.unused,
    h.ram.ramfsClusters.of_subset hs, h.ram.regular⟩, h.ram.sized⟩, h.onRamfs, h.clusterSize⟩

theorem fileAlloc_affords (h : k.RamKernel ramFiles) :
    Affords k.fileAlloc Persistos.outOfMemory k.freePages (fun r => r.2.freePages) 1 := by
  cases ha : slabAlloc PageSupply.alloc k.fs.supply k.files with
  | ok r =>
    obtain ⟨a, supply, files, new⟩ := r
    refine .inl ⟨(a, { k with fs := { k.fs with supply }, files }), ?_, ?_⟩
    · rw [FsKernel.fileAlloc, ha]
      rfl
    · obtain ⟨-, -, -, -, hpages, -⟩ := h.toSlabs.files.alloc h.toSlabs.filesPages ha
      rcases hpages with ⟨-, rfl, -⟩ | ⟨p, -, hp, -⟩
      · exact Nat.le_succ _
      · have hlength := congrArg List.length (PageSupply.alloc_ok hp).1
        rw [List.length_cons] at hlength
        exact Nat.le_of_eq hlength
  | error e =>
    obtain ⟨hpages, rfl⟩ := PageSupply.alloc_error (h.toSlabs.files.alloc_error ha)
    refine .inr ⟨?_, ?_⟩
    · rw [FsKernel.fileAlloc, ha]
      rfl
    · rw [freePages, hpages]
      exact Nat.zero_lt_one

/-- A new open file takes nothing from the files in RAM but a page. -/
theorem fileAlloc (h : k.RamKernel ramFiles) {a : U64} (ha : k.fileAlloc = .ok (a, k')) :
    k'.RamKernel ramFiles ∧ TreeKept k k' ∧ (∀ g, k'.fs.image g = k.fs.image g) ∧
      k'.fileSlots.Perm (a :: k.fileSlots) := by
  obtain ⟨hslabs, supply, files, rfl, hsub⟩ := h.toSlabs.fileAlloc ha
  refine ⟨(h.shrinkSupply hsub).congr hslabs rfl rfl, ⟨rfl, rfl, rfl, rfl, rfl⟩, fun _ => rfl, ?_⟩
  obtain ⟨⟨x, supply', files', new⟩, hslab, ha⟩ := bind_eq_ok ha
  cases ha
  obtain ⟨-, hinv, -⟩ := h.toSlabs.files.alloc h.toSlabs.filesPages hslab
  exact hinv.allocatedSlots_perm

theorem fileFree (h : k.RamKernel ramFiles) {a : U64} (ha : a ∈ k.fileSlots) :
    ∃ k', k.fileFree a = .ok k' ∧ k'.RamKernel ramFiles ∧ TreeKept k k' ∧ k'.fs = k.fs ∧
      k'.fileSlots.Perm (k.fileSlots.erase a) := by
  obtain ⟨files, hfree, -, -, hpages, hinv, -⟩ := h.toSlabs.files.free ha
  have hperm := hinv.allocatedSlots_perm
  have hslabs : Slabs { k with files } :=
    { h.toSlabs with
      files := hinv.perm hperm.symm
      filesFresh := by
        rw [hpages]
        exact h.toSlabs.filesFresh
      statics := fun y hy => ⟨(h.toSlabs.statics y hy).supply, (h.toSlabs.statics y hy).inodes,
        (h.toSlabs.statics y hy).dentries⟩
      dentryPages := h.toSlabs.dentryPages.of_subset (List.Subset.refl _) rfl }
  refine ⟨{ k with files }, ?_, h.congr hslabs rfl rfl, ⟨rfl, rfl, rfl, rfl, rfl⟩, rfl, hperm⟩
  rw [FsKernel.fileFree, hfree]
  rfl

end RamKernel

/-- The path of a file, with nothing to load on the way. -/
structure PathOf (k : FsKernel) (path : List U8) (f : U64) : Prop where
  found : ∃ p, k.tree.resolve path = .found p ∧ p.inode = f
  still : k.StillAlong k.vfsRootInode (components slash (cString path))

theorem PathOf.kept {path : List U8} (hp : PathOf k path f) (h : TreeKept k k') :
    PathOf k' path f where
  found := by
    rw [h.tree]
    exact hp.found
  still := by
    rw [h.root]
    exact h.stillAlong hp.still

theorem PathOf.resolve {path : List U8} (hp : PathOf k path f) (fuel : Nat)
    (r : VfsLookupResult) : ∃ r', k.vfsResolve fuel path r = .ok (r', k) ∧
      r'.status = vfsResolveSuccessExists ∧ r'.inode = f := by
  obtain ⟨r', hr, hrep⟩ := hp.still.vfsResolve_reports fuel r
  obtain ⟨p, hfound, hinode⟩ := hp.found
  rw [hfound, Reports] at hrep
  exact ⟨r', hr, by rw [hrep], by rw [hrep]; exact hinode⟩

/-- The names from the root on are the path. -/
theorem PathOf.of_locate {ws : List (List U8)} {path : List U8} (hl : k.locate ws = some f)
    (hs : k.StillAlong k.vfsRootInode ws) (hpath : components slash (cString path) = ws)
    (hend : endsIn slash (cString path) = false) : PathOf k path f where
  found := by
    obtain ⟨q, hq, hqf⟩ := Directories.walk_found_of_reach (p := k.tree.root) hl
    refine ⟨q, ?_, hqf⟩
    rw [VfsTree.resolve, hpath, hend, Bool.and_false]
    exact hq
  still := hpath ▸ hs

end FsKernel

end Persistos
