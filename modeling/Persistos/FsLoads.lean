import Persistos.FsSlots

/-! What resolving a path does to the tree: nothing, but for the exFAT directories on the
way that it loads. -/

namespace Persistos

namespace FsKernel

variable {k k' : FsKernel} {dir : U64}

theorem Slabs.quiet_modifyExfatInode (h : k.Slabs) (e : U64) {f : ExfatNode → ExfatNode}
    (hf : ∀ n, (f n).loadNeeded = true → n.loadNeeded = true) : Quiet k (k.modifyExfatInode e f) where
  slabs := h.congr rfl rfl rfl rfl rfl rfl rfl
  files := rfl
  statics := rfl
  superblocks := rfl
  root := rfl
  records := rfl
  supply := List.Subset.refl _
  inodes := rfl
  dentrySlots := rfl
  behind _ := rfl
  exfatSlots := rfl
  loaded y hy := by
    by_cases hye : y = e
    · rw [hye] at hy ⊢
      rw [modifyExfatInode, Slab.modify_objects_self] at hy
      exact hf _ hy
    · rwa [modifyExfatInode, Slab.modify_objects_ne _ hye] at hy

theorem Slabs.quiet_setFileLength (h : k.Slabs) (i fileLength : U64) :
    Quiet k (k.setFileLength i fileLength) where
  slabs := h.congr rfl rfl rfl rfl rfl rfl rfl
  files := rfl
  statics := rfl
  superblocks := rfl
  root := rfl
  records := rfl
  supply := List.Subset.refl _
  inodes := rfl
  dentrySlots := rfl
  behind _ := rfl
  exfatSlots := rfl
  loaded _ hy := hy

theorem behind_setName (k : FsKernel) (d : U64) (name : List U8) (c : U64) :
    (k.modifyDentry d fun dentry => { dentry with name }).tree.behind c = k.tree.behind c := by
  let k' := k.modifyDentry d fun dentry => { dentry with name }
  have hsame : (k'.tree.dentries c).mountedInode = (k.tree.dentries c).mountedInode ∧
      (k'.tree.dentries c).inode = (k.tree.dentries c).inode := by
    change (k'.fs.dentries.objects c).mountedInode = (k.fs.dentries.objects c).mountedInode ∧
      (k'.fs.dentries.objects c).inode = (k.fs.dentries.objects c).inode
    by_cases hc : c = d
    · subst hc
      simp only [k', modifyDentry, Slab.modify_objects_self, and_self]
    · simp only [k', modifyDentry, Slab.modify_objects_ne _ hc, and_self]
  unfold VfsTree.behind
  simp only [k'] at hsame
  simp only [hsame.1, hsame.2]

theorem Slabs.quiet_setName (h : k.Slabs) (d : U64) (name : List U8) :
    Quiet k (k.modifyDentry d fun dentry => { dentry with name }) where
  slabs := h.congr rfl rfl rfl rfl rfl rfl rfl
  files := rfl
  statics := rfl
  superblocks := rfl
  root := rfl
  records := rfl
  supply := List.Subset.refl _
  inodes := rfl
  dentrySlots := rfl
  behind := behind_setName k d name
  exfatSlots := rfl
  loaded _ hy := hy

/-- Steps in the course of loading `dir`. -/
structure LoadStep (dir : U64) (k k' : FsKernel) : Prop extends Grown k k' where
  inv : k'.Inv
  needsLoad : k'.NeedsLoad dir

theorem Quiet.loadStep (h : Quiet k k') (hk : k.Inv) (hn : k.NeedsLoad dir)
    (hloaded : ∀ e, (k.exfatInodes.objects e).loadNeeded = true →
      (k'.exfatInodes.objects e).loadNeeded = true) : LoadStep dir k k' where
  toGrown := h.grown
  inv := h.inv hk
  needsLoad := by
    refine ⟨(h.onExfat_iff dir).mpr hn.onExfat, ?_, hloaded _ ?_⟩
    · rw [h.inode]
      exact hn.directory
    · rw [h.inode]
      exact hn.loadNeeded

namespace LoadStep

theorem refl (hk : k.Inv) (hn : k.NeedsLoad dir) : LoadStep dir k k := ⟨.refl k, hk, hn⟩

theorem trans {k'' : FsKernel} (h : LoadStep dir k k') (h' : LoadStep dir k' k'') :
    LoadStep dir k k'' := ⟨h.toGrown.trans h'.toGrown, h'.inv, h'.needsLoad⟩

end LoadStep

theorem loadNeeded_modifyExfatInode (k : FsKernel) (e : U64) {f : ExfatNode → ExfatNode}
    (hf : ∀ n, (f n).loadNeeded = n.loadNeeded) (y : U64) :
    ((k.modifyExfatInode e f).exfatInodes.objects y).loadNeeded =
      (k.exfatInodes.objects y).loadNeeded := by
  by_cases hy : y = e
  · rw [hy, modifyExfatInode, Slab.modify_objects_self, hf]
  · rw [modifyExfatInode, Slab.modify_objects_ne _ hy]

theorem loadInfoEntry_step (hk : k.Inv) (hn : k.NeedsLoad dir) (sb : ExfatSuperblock)
    (fileDentry : U64) (x : Nat → U8) : LoadStep dir k (k.loadInfoEntry sb fileDentry x) := by
  let e := (k.inode (k.fs.dentries.objects fileDentry).inode).privateData
  have hflags := k.loadNeeded_modifyExfatInode e
    (f := fun n => { n with exfatStartLba := sb.clusterLba (le32 x 0x14) }) fun _ => rfl
  have hstep : LoadStep dir k (k.modifyExfatInode e fun n =>
      { n with exfatStartLba := sb.clusterLba (le32 x 0x14) }) :=
    (hk.quiet_modifyExfatInode e (f := fun n =>
      { n with exfatStartLba := sb.clusterLba (le32 x 0x14) }) fun _ hh => hh).loadStep hk hn
        fun y hy => (hflags y).trans hy
  rw [loadInfoEntry]
  split
  · exact hstep.trans ((hstep.inv.quiet_setFileLength _ _).loadStep hstep.inv hstep.needsLoad
      fun _ hy => hy)
  · exact hstep

theorem loadEntry_step {s s' : DirLoad} {sb : ExfatSuperblock} {x : Nat → U8}
    (hdir : s.kernel.Known dir) (hk : s.kernel.Inv) (hn : s.kernel.NeedsLoad dir)
    (hl : loadEntry sb dir x s = .ok s') : LoadStep dir s.kernel s'.kernel := by
  rw [loadEntry] at hl
  split at hl
  · obtain ⟨⟨d, kernel⟩, hfile, he⟩ := bind_eq_ok hl
    obtain rfl := Except.ok.inj he
    obtain ⟨i, e, hentry⟩ := hk.toSlabs.loadFileEntry hdir hfile
    exact ⟨hentry.grown hk hdir hn, hentry.inv hk, (hentry.needsLoad_iff hk hdir).mpr hn⟩
  · split at hl
    · split at hl
      · cases hl
      · obtain rfl := Except.ok.inj hl
        exact loadInfoEntry_step hk hn sb s.fileDentry x
    · split at hl
      · split at hl
        · obtain rfl := Except.ok.inj hl
          exact .refl hk hn
        · obtain rfl := Except.ok.inj hl
          exact (hk.quiet_setName _ _).loadStep hk hn fun _ hy => hy
      · obtain rfl := Except.ok.inj hl
        exact .refl hk hn

theorem loadEntries_step {sb : ExfatSuperblock} {page : Nat → U8} {left x : Nat} {s s' : DirLoad}
    (hdir : s.kernel.Known dir) (hk : s.kernel.Inv) (hn : s.kernel.NeedsLoad dir)
    (hl : loadEntries sb dir page left x s = .ok s') : LoadStep dir s.kernel s'.kernel := by
  induction left generalizing x s with
  | zero =>
    obtain rfl := Except.ok.inj hl
    exact .refl hk hn
  | succ left ih =>
    obtain ⟨s₁, hentry, hl⟩ := bind_eq_ok hl
    have hstep := loadEntry_step hdir hk hn hentry
    split at hl
    · obtain rfl := Except.ok.inj hl
      exact hstep
    · exact hstep.trans (ih (hstep.known hdir) hstep.inv hstep.needsLoad hl)

theorem loadDirPages_step {sb : ExfatSuperblock} {partition : NvmepartDevice} {fuel : Nat}
    {lba : U32} {page : Nat → U8} {s s' : DirLoad} (hdir : s.kernel.Known dir)
    (hk : s.kernel.Inv) (hn : s.kernel.NeedsLoad dir)
    (hl : loadDirPages sb partition dir fuel lba page s = .ok s') :
    LoadStep dir s.kernel s'.kernel := by
  induction fuel generalizing lba page s with
  | zero => cases hl
  | succ fuel ih =>
    obtain ⟨s₁, hentries, hl⟩ := bind_eq_ok hl
    have hstep := loadEntries_step hdir hk hn hentries
    dsimp only at hl
    split at hl
    · obtain rfl := Except.ok.inj hl
      exact hstep
    · exact hstep.trans (ih (hstep.known hdir) hstep.inv hstep.needsLoad hl)

/-- Steps that load what is behind a file, or nothing. -/
structure Loaded (k k' : FsKernel) : Prop extends Grown k k' where
  inv : k'.Inv

namespace Loaded

theorem refl (hk : k.Inv) : Loaded k k := ⟨.refl k, hk⟩

theorem trans {k'' : FsKernel} (h : Loaded k k') (h' : Loaded k' k'') : Loaded k k'' :=
  ⟨h.toGrown.trans h'.toGrown, h'.inv⟩

end Loaded

theorem Quiet.loadedOf (h : Quiet k k') (hk : k.Inv) : Loaded k k' := ⟨h.grown, h.inv hk⟩

theorem exfatLoadDirInode_loaded {fuel : Nat} {sb : ExfatSuperblock} {partition : NvmepartDevice}
    (hdir : k.Known dir) (hk : k.Inv) (hn : k.NeedsLoad dir)
    (hl : k.exfatLoadDirInode fuel sb partition dir = .ok k') : Loaded k k' := by
  obtain ⟨s, hpages, he⟩ := bind_eq_ok hl
  obtain rfl := Except.ok.inj he
  have hstep := loadDirPages_step (s := ⟨k, 0, 0⟩) hdir hk hn hpages
  have hquiet := hstep.inv.quiet_modifyExfatInode (k.inode dir).privateData
    (f := fun e => { e with loadNeeded := false }) fun _ hh => absurd hh Bool.false_ne_true
  exact Loaded.trans ⟨hstep.toGrown, hstep.inv⟩ (hquiet.loadedOf hstep.inv)

theorem addFileCluster_quiet {e : U64} {cluster : ExfatFileCluster} (hk : k.Slabs)
    (ha : k.addFileCluster e cluster = .ok k') : Quiet k k' := by
  obtain ⟨⟨c, k₁⟩, halloc, he⟩ := bind_eq_ok ha
  obtain rfl := Except.ok.inj he
  obtain ⟨hframe, hinodes, hdentries, hexfat⟩ := hk.exfatFileClusterAlloc halloc
  have hquiet₁ : Quiet k k₁ :=
    { toAllocFrame := hframe
      inodes := hinodes
      dentrySlots := congrArg Slab.slots hdentries
      behind := fun d => by
        unfold VfsTree.behind tree
        rw [hdentries]
      exfatSlots := congrArg Slab.slots hexfat
      loaded := fun y hy => by rwa [hexfat] at hy }
  have hquiet₂ := hquiet₁.slabs.quiet_modifyExfatInode e
    (f := fun e => { e with fileClusters := e.fileClusters ++ [c] }) fun _ hh => hh
  refine (hquiet₁.trans hquiet₂).trans ?_
  exact ⟨⟨hquiet₂.slabs.congr rfl rfl rfl rfl rfl rfl rfl, rfl, rfl, rfl, rfl, rfl,
    List.Subset.refl _⟩, rfl, rfl, fun _ => rfl, rfl, fun _ hy => hy⟩

theorem addFileCluster_loaded {e : U64} {cluster : ExfatFileCluster} (hk : k.Inv)
    (ha : k.addFileCluster e cluster = .ok k') : Loaded k k' :=
  (addFileCluster_quiet hk.toSlabs ha).loadedOf hk

theorem loadFileClusters_loaded {sb : ExfatSuperblock} {partition : NvmepartDevice}
    {e fileLength : U64} {fuel : Nat} {byteOffset lba : U32} (hk : k.Inv)
    (hl : loadFileClusters sb partition e fileLength fuel byteOffset lba k = .ok k') :
    Loaded k k' := by
  induction fuel generalizing byteOffset lba k with
  | zero => cases hl
  | succ fuel ih =>
    rw [loadFileClusters] at hl
    split at hl
    · obtain ⟨k₁, hadd, hl⟩ := bind_eq_ok hl
      have hloaded := addFileCluster_loaded hk hadd
      dsimp only at hl
      split at hl
      · obtain rfl := Except.ok.inj hl
        exact hloaded
      · exact hloaded.trans (ih hloaded.inv hl)
    · obtain rfl := Except.ok.inj hl
      exact .refl hk

theorem lookup_loaded {fuel : Nat} {i : U64} (hk : k.Inv) (hi : k.Known i)
    (hl : k.lookup fuel i = .ok k') : Loaded k k' := by
  rw [lookup] at hl
  split at hl
  · obtain rfl := Except.ok.inj hl
    exact .refl hk
  · obtain rfl := Except.ok.inj hl
    exact .refl hk
  · next sb partition htype =>
    rw [exfatLookup] at hl
    split at hl
    · next hneeded =>
      split at hl
      · next hd => exact exfatLoadDirInode_loaded hi hk ⟨⟨sb, partition, htype⟩, hd, hneeded⟩ hl
      · split at hl
        · obtain ⟨k₁, hclusters, he⟩ := bind_eq_ok hl
          obtain rfl := Except.ok.inj he
          have hloaded := loadFileClusters_loaded hk hclusters
          have hquiet := hloaded.inv.quiet_modifyExfatInode (k.inode i).privateData
            (f := fun e => { e with loadNeeded := false }) fun _ hh => absurd hh Bool.false_ne_true
          exact hloaded.trans (hquiet.loadedOf hloaded.inv)
        · obtain rfl := Except.ok.inj hl
          exact .refl hk
    · obtain rfl := Except.ok.inj hl
      exact .refl hk

end FsKernel

end Persistos
