import Persistos.MkdirCalls
import Persistos.RamFiles

/-! What a resolution leaves of the contents of files. The clusters of the files in RAM and the
disk are as before, and every new inode is on a volume of which a directory was loaded. -/

namespace Persistos

open Theory

namespace FsKernel

variable {k k' k'' : FsKernel} {dir : U64} {ramFiles : List U64}

/-- The contents are as before, and a new inode is where a directory of before was to be loaded. -/
structure SameContents (k k' : FsKernel) : Prop where
  ramfsClusters : k'.fs.ramfsClusters = k.fs.ramfsClusters
  disk : k'.disk = k.disk
  newInodes : ∀ i, k'.Known i → ¬k.Known i → ∃ dir, k.Known dir ∧ k.NeedsLoad dir ∧
    (k'.inode i).superblock = (k.inode dir).superblock

theorem Grown.superblock (h : Grown k k') {i : U64} (hi : k.Known i) :
    (k'.inode i).superblock = (k.inode i).superblock := by
  obtain ⟨new, he, -⟩ := h.entries i hi
  rw [he]

namespace SameContents

/-- No inode is new. -/
theorem of_inodes (hclusters : k'.fs.ramfsClusters = k.fs.ramfsClusters) (hdisk : k'.disk = k.disk)
    (hinodes : k'.fs.inodes = k.fs.inodes) (hstatics : k'.statics = k.statics) :
    SameContents k k' := by
  refine ⟨hclusters, hdisk, fun i hi hn => absurd ?_ hn⟩
  rw [Known, inodeSlots, hinodes, hstatics] at hi
  exact hi

theorem refl (k : FsKernel) : SameContents k k := of_inodes rfl rfl rfl rfl

theorem trans (h : SameContents k k') (h' : SameContents k' k'') (hg : Grown k k')
    (hg' : Grown k' k'') : SameContents k k'' where
  ramfsClusters := h'.ramfsClusters.trans h.ramfsClusters
  disk := h'.disk.trans h.disk
  newInodes i hi hn := by
    by_cases hi' : k'.Known i
    · obtain ⟨dir, hdir, hneeds, he⟩ := h.newInodes i hi' hn
      exact ⟨dir, hdir, hneeds, (hg'.superblock hi').trans he⟩
    · obtain ⟨dir, hdir, hneeds, he⟩ := h'.newInodes i hi hi'
      by_cases hold : k.Known dir
      · exact ⟨dir, hold, hg.loaded dir hold hneeds, he.trans (hg.superblock hold)⟩
      · obtain ⟨dir', hdir', hneeds', he'⟩ := h.newInodes dir hdir hold
        exact ⟨dir', hdir', hneeds', he.trans he'⟩

end SameContents

theorem loadFileEntry_contents {d : U64} {x : Nat → U8} (hl : k.loadFileEntry dir x = .ok (d, k')) :
    k'.fs.ramfsClusters = k.fs.ramfsClusters ∧ k'.disk = k.disk := by
  obtain ⟨⟨d', k₁⟩, hd, hl⟩ := bind_eq_ok hl
  obtain ⟨⟨i, k₂⟩, hi, hl⟩ := bind_eq_ok hl
  obtain ⟨⟨e, k₃⟩, he, hl⟩ := bind_eq_ok hl
  obtain ⟨⟨_, _, _⟩, -, hd⟩ := bind_eq_ok hd
  cases hd
  obtain ⟨⟨_, _, _⟩, -, hi⟩ := bind_eq_ok hi
  cases hi
  obtain ⟨⟨_, _, _⟩, -, he⟩ := bind_eq_ok he
  cases he
  cases hl
  rw [setFileType]
  split <;> exact ⟨rfl, rfl⟩

theorem FileEntry.sameContents {d i e : U64} {x : Nat → U8} (h : FileEntry k k' dir d i e)
    (hdir : k.Known dir) (hn : k.NeedsLoad dir) (hl : k.loadFileEntry dir x = .ok (d, k')) :
    SameContents k k' := by
  obtain ⟨hclusters, hdisk⟩ := loadFileEntry_contents hl
  refine ⟨hclusters, hdisk, fun y hy hnew => ⟨dir, hdir, hn, ?_⟩⟩
  obtain rfl := ((h.known_iff y).mp hy).resolve_right hnew
  exact h.superblock

theorem infoEntry_contents (k : FsKernel) (sb : ExfatSuperblock) (d : U64) (x : Nat → U8) :
    SameContents k (k.loadInfoEntry sb d x) := by
  rw [loadInfoEntry]
  split <;> exact .of_inodes rfl rfl rfl rfl

variable {sb : ExfatSuperblock} {x : Nat → U8} {s s' : DirLoad} {partition : NvmepartDevice}

theorem LoadingDir.entry_contents (h : LoadingDir k dir s) (hc : SameContents k s.kernel)
    (hl : loadEntry sb dir x s = .ok s') : SameContents k s'.kernel := by
  have hstep := loadEntry_step h.known h.kept.inv h.needsLoad hl
  refine hc.trans ?_ h.kept.toGrown hstep.toGrown
  rcases loadEntry_cases hl with ⟨-, d, k', hnew, rfl⟩ | ⟨-, -, rfl⟩ | ⟨-, -, name, i, -, rfl⟩ |
    ⟨-, -, -, rfl⟩
  · obtain ⟨i, e, hentry⟩ := h.kept.inv.toSlabs.loadFileEntry h.known hnew
    exact hentry.sameContents h.known h.needsLoad hnew
  · exact infoEntry_contents _ sb _ x
  · exact .of_inodes rfl rfl rfl rfl
  · exact .refl _

theorem LoadingDir.entries_contents {page : Nat → U8} {left x : Nat} (h : LoadingDir k dir s)
    (hc : SameContents k s.kernel) (hl : loadEntries sb dir page left x s = .ok s') :
    SameContents k s'.kernel := by
  induction left generalizing x s with
  | zero =>
    cases hl
    exact hc
  | succ left ih =>
    obtain ⟨s₁, hentry, hl⟩ := bind_eq_ok hl
    have hc₁ := h.entry_contents hc hentry
    split at hl
    · cases hl
      exact hc₁
    · exact ih (h.entry hentry) hc₁ hl

theorem LoadingDir.pages_contents {fuel : Nat} {lba : U32} {page : Nat → U8}
    (h : LoadingDir k dir s) (hc : SameContents k s.kernel)
    (hl : loadDirPages sb partition dir fuel lba page s = .ok s') : SameContents k s'.kernel := by
  induction fuel generalizing lba page s with
  | zero => cases hl
  | succ fuel ih =>
    obtain ⟨s₁, hentries, hl⟩ := bind_eq_ok hl
    have hc₁ := h.entries_contents hc hentries
    dsimp only at hl
    split at hl
    · cases hl
      exact hc₁
    · exact ih (h.entries hentries) hc₁ hl

theorem addFileCluster_contents {e : U64} {cluster : ExfatFileCluster}
    (ha : k.addFileCluster e cluster = .ok k') : SameContents k k' := by
  obtain ⟨⟨c, k₁⟩, halloc, ha⟩ := bind_eq_ok ha
  obtain ⟨⟨_, _, _⟩, -, halloc⟩ := bind_eq_ok halloc
  cases halloc
  cases ha
  exact .of_inodes rfl rfl rfl rfl

theorem loadFileClusters_contents {e fileLength : U64} {fuel : Nat} {byteOffset lba : U32}
    (hk : k.Inv) (hl : loadFileClusters sb partition e fileLength fuel byteOffset lba k = .ok k') :
    SameContents k k' := by
  induction fuel generalizing byteOffset lba k with
  | zero => cases hl
  | succ fuel ih =>
    rw [loadFileClusters] at hl
    split at hl
    · obtain ⟨k₁, hadd, hl⟩ := bind_eq_ok hl
      have hloaded := addFileCluster_loaded hk hadd
      have hc := addFileCluster_contents hadd
      dsimp only at hl
      split at hl
      · cases hl
        exact hc
      · exact hc.trans (ih hloaded.inv hl) hloaded.toGrown
          (loadFileClusters_loaded hloaded.inv hl).toGrown
    · cases hl
      exact .refl _

/-- The mark at the end of a load. -/
theorem SameContents.unmark (h : SameContents k k') (e : U64) :
    SameContents k (k'.modifyExfatInode e fun n => { n with loadNeeded := false }) :=
  ⟨h.ramfsClusters, h.disk, h.newInodes⟩

theorem lookup_contents {fuel : Nat} {i : U64} (hk : k.Inv) (hi : k.Known i)
    (hl : k.lookup fuel i = .ok k') : SameContents k k' := by
  rw [lookup] at hl
  split at hl
  · cases hl
    exact .refl _
  · cases hl
    exact .refl _
  · next sb partition htype =>
    rw [exfatLookup] at hl
    split at hl
    · next hneeded =>
      split at hl
      · next hd =>
        obtain ⟨s, hpages, hl⟩ := bind_eq_ok hl
        cases hl
        have hstart : LoadingDir k i ⟨k, 0, 0⟩ :=
          ⟨.refl hk, hi, ⟨⟨sb, partition, htype⟩, hd, hneeded⟩, .inl rfl⟩
        exact (hstart.pages_contents (.refl k) hpages).unmark _
      · split at hl
        · obtain ⟨k₁, hclusters, hl⟩ := bind_eq_ok hl
          cases hl
          exact (loadFileClusters_contents hk hclusters).unmark _
        · cases hl
          exact .refl _
    · cases hl
      exact .refl _

theorem vfsResolveFrom_contents {fuel passes : Nat} {r r' : VfsLookupResult} {buf : List U8}
    {i d parent : U64} (hk : k.Inv) (hi : k.Known i)
    (h : vfsResolveFrom fuel r passes k buf i d parent = .ok (r', k')) : SameContents k k' := by
  induction passes generalizing k buf i d parent with
  | zero => cases h
  | succ passes ih =>
    rw [vfsResolveFrom] at h
    split at h
    · cases h
      exact .refl _
    · split at h
      · cases h
        exact .refl _
      · next hdir =>
        dsimp only at h
        split at h
        · cases h
          exact .refl _
        · split at h
          · next dentry hfind =>
            obtain ⟨k₁, hlookup, h⟩ := bind_eq_ok h
            have hknown := (hk.entries i hi (not_not.mp hdir) dentry (findDentry_mem hfind)).2
            have hloaded := lookup_loaded hk hknown hlookup
            have hrest := vfsResolveFrom_resolved hloaded.inv (hloaded.known hknown) h
            exact (lookup_contents hk hknown hlookup).trans
              (ih hloaded.inv (hloaded.known hknown) h) hloaded.toGrown hrest.toGrown
          · split at h <;>
            · cases h
              exact .refl _

/-- The tree with its files: `ramFiles` are all that the RAM file system has, and every directory is
on a file system. -/
structure FilesKernel (k : FsKernel) (ramFiles : List U64) : Prop
    extends Inv k, RamKernel k ramFiles where
  rootRamfs : k.typeOf k.vfsRootInode = .ramfs
  known : ∀ f ∈ ramFiles, k.Known f
  complete : ∀ i, k.Known i → k.typeOf i = .ramfs → (k.inode i).type = inodeRegularFile →
    i ∈ ramFiles
  superblocks : ∀ i, k.Known i → (k.inode i).type = inodeDirectory → (k.inode i).superblock ≠ 0

/-- Loads keep the files in RAM. -/
theorem FilesKernel.ramfsInv (h : k.FilesKernel ramFiles) (hl : TreeLoaded k k')
    (hc : SameContents k k') :
    RamfsInv k'.fs ramFiles ∧ ∀ g ∈ ramFiles, k'.fs.image g = k.fs.image g := by
  have hslabs := hl.inv.toSlabs
  have hkept : FilesKept k.fs k'.fs ramFiles := by
    have hinode : ∀ g ∈ ramFiles, k'.inode g = k.inode g := fun g hg =>
      hl.inode (h.known g hg) (.of_ramfs (h.onRamfs g hg))
    refine ⟨hinode, fun g hg => ?_, hc.ramfsClusters⟩
    have hprivate := congrArg Inode.privateData (hinode g hg)
    exact (congrArg k'.fs.ramfsInodes.objects hprivate).trans
      (congrArg (fun slab => Slab.objects slab _) hl.records)
  have hsub : ramFiles ⊆ k'.inodeSlots := by
    obtain ⟨dirs, hok⟩ := h.ram.inodes
    intro g hg
    exact hl.inodes (hok.inv.allocatedSlots_perm.mem_iff.mpr (List.mem_append_left dirs hg))
  have hperm : (ramFiles ++ k'.inodeSlots.diff ramFiles).Perm k'.inodeSlots :=
    List.subperm_append_diff_self_of_count_le
      fun g _ => (h.ram.files_nodup.subperm hsub).count_le g
  refine ⟨⟨⟨⟨_, hslabs.inodes.perm hperm.symm⟩, ⟨_, hslabs.dentries⟩, ?_, ?_, ?_,
    hkept.regular h.ram.toRamfsHeap⟩, hkept.sized h.ram⟩, fun g hg => hkept.image hg⟩
  · rw [hkept.map_privateOf, hl.records]
    exact h.ram.ramfsInodes.of_subset hl.supply
  · rw [hkept.map_privateOf, hl.records]
    exact h.ram.unused
  · rw [hkept.flatMap_clustersOf, hc.ramfsClusters]
    exact h.ram.ramfsClusters.of_subset hl.supply

/-- A resolution leaves every file as it was. -/
theorem FilesKernel.vfsResolve (h : k.FilesKernel ramFiles) {fuel : Nat} {path : List U8}
    {r r' : VfsLookupResult} (hr : k.vfsResolve fuel path r = .ok (r', k')) :
    k'.FilesKernel ramFiles ∧ k'.disk = k.disk ∧ k'.fileSlots = k.fileSlots ∧
      ∀ g ∈ ramFiles, k'.fs.image g = k.fs.image g := by
  obtain ⟨hl, -, -⟩ := h.toInv.vfsResolve_settles (.of_ramfs h.rootRamfs) hr
  have hc : SameContents k k' := vfsResolveFrom_contents h.toInv h.root hr
  obtain ⟨hram, himages⟩ := h.ramfsInv hl hc
  have htype : ∀ i, k.Known i → (k'.inode i).type = (k.inode i).type := by
    intro i hi
    obtain ⟨new, he, -⟩ := hl.entries i hi
    rw [he]
  refine ⟨⟨hl.inv, hram, fun f hf => ?_, ?_, ?_, fun f hf => hl.toGrown.known (h.known f hf),
    fun i hi hramfs hregular => ?_, fun i hi hdir => ?_⟩, hc.disk,
    congrArg SlabAllocator.allocatedSlots hl.files, himages⟩
  · exact (hl.typeOf (h.known f hf)).trans (h.onRamfs f hf)
  · rw [hc.ramfsClusters]
    exact h.clusterSize
  · rw [hl.root]
    exact (hl.typeOf h.root).trans h.rootRamfs
  · by_cases hold : k.Known i
    · rw [hl.typeOf hold] at hramfs
      rw [htype i hold] at hregular
      exact h.complete i hold hramfs hregular
    · obtain ⟨dir, hdir, ⟨⟨sb, partition, hexfat⟩, -, -⟩, he⟩ := hc.newInodes i hi hold
      rw [FsKernel.typeOf, he, hl.superblocks] at hramfs
      cases hexfat.symm.trans hramfs
  · by_cases hold : k.Known i
    · rw [htype i hold] at hdir
      rw [hl.toGrown.superblock hold]
      exact h.superblocks i hold hdir
    · obtain ⟨dir, hknown, hneeds, he⟩ := hc.newInodes i hi hold
      rw [he]
      exact h.superblocks dir hknown hneeds.directory

end FsKernel

end Persistos
