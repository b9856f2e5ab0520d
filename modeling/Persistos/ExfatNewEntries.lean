import Persistos.ExfatDecode
import Persistos.TreeLoads

/-! The entries that loading a directory adds. Each has halves of its own, none of which has
been loaded itself, and nothing is mounted over it. -/

namespace Persistos

namespace FsKernel

variable {k k₁ k' : FsKernel} {sb : ExfatSuperblock} {dir d i e : U64} {x : Nat → U8}

/-- The address of the exFAT half of the inode behind a dentry. -/
def halfOf (k : FsKernel) (d : U64) : U64 := (k.inode (k.fs.dentries.objects d).inode).privateData

/-- A dentry that came to `dir` after `k`, and is as it was made. -/
structure FreshEntry (k k' : FsKernel) (dir d : U64) : Prop where
  newDentry : ¬k.KnownDentry d
  knownDentry : k'.KnownDentry d
  mounted : (k'.fs.dentries.objects d).mountedInode = 0
  newInode : ¬k.Known (k'.fs.dentries.objects d).inode
  nonzero : (k'.fs.dentries.objects d).inode ≠ 0
  knownInode : k'.Known (k'.fs.dentries.objects d).inode
  superblock : (k'.inode (k'.fs.dentries.objects d).inode).superblock = (k.inode dir).superblock
  empty : (k'.inode (k'.fs.dentries.objects d).inode).type = inodeDirectory →
    (k'.inode (k'.fs.dentries.objects d).inode).dentries = []
  newExfat : k'.halfOf d ∉ k.exfatSlots
  exfatSlot : k'.halfOf d ∈ k'.exfatSlots
  loadNeeded : (k'.exfatInodes.objects (k'.halfOf d)).loadNeeded = true
  noClusters : (k'.inode (k'.fs.dentries.objects d).inode).type = inodeRegularFile →
    (k'.exfatInodes.objects (k'.halfOf d)).fileClusters = []

/-- Only names, first sectors and lengths may be other ones. -/
structure KeepsLinks (k k' : FsKernel) : Prop where
  slabs : k.Slabs → k'.Slabs
  inodes : k'.fs.inodes = k.fs.inodes
  dentrySlots : k'.dentrySlots = k.dentrySlots
  exfatSlots : k'.exfatSlots = k.exfatSlots
  statics : k'.statics = k.statics
  superblocks : k'.superblocks = k.superblocks
  clusters : k'.exfatFileClusters = k.exfatFileClusters
  dentries : ∀ d, (k'.fs.dentries.objects d).inode = (k.fs.dentries.objects d).inode ∧
    (k'.fs.dentries.objects d).mountedInode = (k.fs.dentries.objects d).mountedInode
  exfat : ∀ e, (k'.exfatInodes.objects e).loadNeeded = (k.exfatInodes.objects e).loadNeeded ∧
    (k'.exfatInodes.objects e).fileClusters = (k.exfatInodes.objects e).fileClusters

theorem KeepsLinks.trans {k'' : FsKernel} (h : KeepsLinks k k') (h' : KeepsLinks k' k'') :
    KeepsLinks k k'' where
  slabs hk := h'.slabs (h.slabs hk)
  inodes := h'.inodes.trans h.inodes
  dentrySlots := h'.dentrySlots.trans h.dentrySlots
  exfatSlots := h'.exfatSlots.trans h.exfatSlots
  statics := h'.statics.trans h.statics
  superblocks := h'.superblocks.trans h.superblocks
  clusters := h'.clusters.trans h.clusters
  dentries d := ⟨(h'.dentries d).1.trans (h.dentries d).1, (h'.dentries d).2.trans (h.dentries d).2⟩
  exfat e := ⟨(h'.exfat e).1.trans (h.exfat e).1, (h'.exfat e).2.trans (h.exfat e).2⟩

theorem keepsLinks_modifyExfatInode (k : FsKernel) (e : U64) {f : ExfatNode → ExfatNode}
    (hf : ∀ n, (f n).loadNeeded = n.loadNeeded ∧ (f n).fileClusters = n.fileClusters) :
    KeepsLinks k (k.modifyExfatInode e f) where
  slabs h := h.congr rfl rfl rfl rfl rfl rfl rfl
  inodes := rfl
  dentrySlots := rfl
  exfatSlots := rfl
  statics := rfl
  superblocks := rfl
  clusters := rfl
  dentries _ := ⟨rfl, rfl⟩
  exfat y := by
    by_cases hy : y = e
    · rw [hy, modifyExfatInode, Slab.modify_objects_self]
      exact hf _
    · rw [modifyExfatInode, Slab.modify_objects_ne _ hy]
      exact ⟨rfl, rfl⟩

theorem keepsLinks_setFileLength (k : FsKernel) (i fileLength : U64) :
    KeepsLinks k (k.setFileLength i fileLength) where
  slabs h := h.congr rfl rfl rfl rfl rfl rfl rfl
  inodes := rfl
  dentrySlots := rfl
  exfatSlots := rfl
  statics := rfl
  superblocks := rfl
  clusters := rfl
  dentries _ := ⟨rfl, rfl⟩
  exfat _ := ⟨rfl, rfl⟩

theorem keepsLinks_setName (k : FsKernel) (d : U64) (name : List U8) :
    KeepsLinks k (k.modifyDentry d fun dentry => { dentry with name }) where
  slabs h := h.congr rfl rfl rfl rfl rfl rfl rfl
  inodes := rfl
  dentrySlots := rfl
  exfatSlots := rfl
  statics := rfl
  superblocks := rfl
  clusters := rfl
  dentries y := by
    by_cases hy : y = d
    · rw [hy, modifyDentry, Slab.modify_objects_self]
      exact ⟨rfl, rfl⟩
    · rw [modifyDentry, Slab.modify_objects_ne _ hy]
      exact ⟨rfl, rfl⟩
  exfat _ := ⟨rfl, rfl⟩

theorem keepsLinks_loadInfoEntry (k : FsKernel) (sb : ExfatSuperblock) (d : U64) (x : Nat → U8) :
    KeepsLinks k (k.loadInfoEntry sb d x) := by
  have hstart := keepsLinks_modifyExfatInode k (k.halfOf d)
    (f := fun e => { e with exfatStartLba := sb.clusterLba (le32 x 0x14) }) fun _ => ⟨rfl, rfl⟩
  rw [loadInfoEntry]
  split
  · exact hstart.trans (keepsLinks_setFileLength _ _ _)
  · exact hstart

theorem KeepsLinks.halfOf (h : KeepsLinks k k') (d : U64) : k'.halfOf d = k.halfOf d := by
  have hinode : ∀ y, k'.inode y = k.inode y :=
    fun y => congrArg (fun slab => slab.objects y) h.inodes
  rw [FsKernel.halfOf, FsKernel.halfOf, (h.dentries d).1, hinode]

theorem KeepsLinks.known_iff (h : KeepsLinks k k') (y : U64) : k'.Known y ↔ k.Known y := by
  rw [Known, Known, inodeSlots, inodeSlots, h.inodes, h.statics]

theorem FreshEntry.keep (hf : FreshEntry k k₁ dir d) (h : KeepsLinks k₁ k') :
    FreshEntry k k' dir d := by
  have hinode : ∀ y, k'.inode y = k₁.inode y :=
    fun y => congrArg (fun slab => slab.objects y) h.inodes
  obtain ⟨hd, hm⟩ := h.dentries d
  have hhalf := h.halfOf d
  constructor
  · exact hf.newDentry
  · exact hf.knownDentry.imp (fun hh => h.dentrySlots ▸ hh) fun hh => h.statics ▸ hh
  · rw [hm, hf.mounted]
  · rw [hd]
    exact hf.newInode
  · rw [hd]
    exact hf.nonzero
  · rw [hd]
    exact (h.known_iff _).mpr hf.knownInode
  · rw [hd, hinode, hf.superblock]
  · rw [hd, hinode]
    exact hf.empty
  · rw [hhalf]
    exact hf.newExfat
  · rw [hhalf, h.exfatSlots]
    exact hf.exfatSlot
  · rw [hhalf, (h.exfat _).1, hf.loadNeeded]
  · rw [hd, hinode, hhalf, (h.exfat _).2]
    exact hf.noClusters

theorem dentryAlloc_clusters (ha : k.dentryAlloc = .ok (d, k')) :
    k'.exfatFileClusters = k.exfatFileClusters := by
  obtain ⟨⟨y, supply, dentries⟩, -, he⟩ := bind_eq_ok ha
  simp only [Except.ok.injEq, Prod.mk.injEq] at he
  obtain ⟨-, rfl⟩ := he
  rfl

theorem inodeAlloc_clusters (ha : k.inodeAlloc = .ok (i, k')) :
    k'.exfatFileClusters = k.exfatFileClusters := by
  obtain ⟨⟨y, supply, inodes⟩, -, he⟩ := bind_eq_ok ha
  simp only [Except.ok.injEq, Prod.mk.injEq] at he
  obtain ⟨-, rfl⟩ := he
  rfl

theorem exfatInodeAlloc_clusters (ha : k.exfatInodeAlloc = .ok (e, k')) :
    k'.exfatFileClusters = k.exfatFileClusters := by
  obtain ⟨⟨y, supply, exfatInodes⟩, -, he⟩ := bind_eq_ok ha
  simp only [Except.ok.injEq, Prod.mk.injEq] at he
  obtain ⟨-, rfl⟩ := he
  rfl

/-- Setting the type of an inode empties the list of a regular file. -/
theorem setFileType_clusters (k : FsKernel) (i e : U64) (h : entryType x = inodeRegularFile) :
    ((k.setFileType x i e).exfatInodes.objects e).fileClusters = [] := by
  have hregular := entryType_eq_regular_iff.mp h
  rw [setFileType, if_neg (not_not_intro hregular), modifyExfatInode, Slab.modify_objects_self]

/-- The new exFAT half is marked, and a regular file has no clusters yet. -/
theorem loadFileEntry_half (hl : k.loadFileEntry dir x = .ok (d, k')) :
    (k'.exfatInodes.objects (k'.halfOf d)).loadNeeded = true ∧
      (entryType x = inodeRegularFile →
        (k'.exfatInodes.objects (k'.halfOf d)).fileClusters = []) ∧
      k'.exfatFileClusters = k.exfatFileClusters := by
  obtain ⟨⟨d', k₁⟩, hd, hl⟩ := bind_eq_ok hl
  obtain ⟨⟨i, k₂⟩, hi, hl⟩ := bind_eq_ok hl
  obtain ⟨⟨e, k₃⟩, he, hl⟩ := bind_eq_ok hl
  simp only [Except.ok.injEq, Prod.mk.injEq] at hl
  obtain ⟨rfl, rfl⟩ := hl
  let k₄ := (k₃.modifyInode i fun inode => { inode with privateData := e }).modifyDentry d'
    fun dentry => { dentry with inode := i }
  have hset := setFileType_typeSet (k₄.addDentry dir d') x i e
  have hinode : ((k₄.addDentry dir d').setFileType x i e).fs.dentries.objects d' =
      { k₃.fs.dentries.objects d' with inode := i } :=
    (congrArg (fun slab => slab.objects d') hset.dentries).trans
      (k₃.fs.dentries.modify_objects_self d' fun dentry => { dentry with inode := i })
  have hprivate : ((k₄.addDentry dir d').inode i).privateData = e := by
    have hself : (k₄.inode i).privateData = e := by
      have hh := inode_modifyInode_self k₃ i fun inode => { inode with privateData := e }
      exact congrArg Inode.privateData hh
    by_cases hdir : i = dir
    · have hh := inode_modifyInode_self k₄ dir fun inode =>
        { inode with dentries := inode.dentries ++ [d'] }
      rw [hdir] at hself ⊢
      exact (congrArg Inode.privateData hh).trans hself
    · exact (congrArg Inode.privateData (inode_modifyInode_ne k₄ hdir _)).trans hself
  have hhalf : (((k₄.addDentry dir d').setFileType x i e).modifyExfatInode e fun e =>
      { e with loadNeeded := true }).halfOf d' = e := by
    rw [halfOf]
    change ((((k₄.addDentry dir d').setFileType x i e).inode
      (((k₄.addDentry dir d').setFileType x i e).fs.dentries.objects d').inode).privateData) = e
    rw [hinode]
    exact hset.privateData.trans hprivate
  refine ⟨?_, fun hregular => ?_, ?_⟩
  · rw [hhalf, modifyExfatInode, Slab.modify_objects_self]
  · rw [hhalf, modifyExfatInode, Slab.modify_objects_self]
    exact setFileType_clusters _ i e hregular
  · exact hset.exfatFileClusters.trans ((exfatInodeAlloc_clusters he).trans
      ((inodeAlloc_clusters hi).trans (dentryAlloc_clusters hd :)))

theorem NewFile.fresh (h : NewFile k k' dir d i e x) (hdir : k.Known dir)
    (hl : k.loadFileEntry dir x = .ok (d, k')) : FreshEntry k k' dir d := by
  have hinode : (k'.fs.dentries.objects d).inode = i := by rw [h.dentry]
  have hhalf : k'.halfOf d = e := by rw [halfOf, hinode, h.privateData]
  obtain ⟨hneeded, hclusters, -⟩ := loadFileEntry_half hl
  constructor
  · exact h.newDentry
  · exact .inl h.filling.dentrySlot
  · rw [h.dentry]
  · rw [hinode]
    exact h.newInode
  · rw [hinode]
    exact slot_ne_zero h.slabs.inodes.inv h.filling.inodeSlot
  · rw [hinode]
    exact .inl h.filling.inodeSlot
  · rw [hinode, h.superblock]
  · rw [hinode]
    exact h.empty
  · rw [hhalf]
    exact h.newExfat
  · rw [hhalf]
    exact h.filling.exfatSlot
  · exact hneeded
  · rw [hinode, h.type]
    exact hclusters

/-- A later entry leaves a fresh one alone. -/
theorem FreshEntry.extend (hf : FreshEntry k k₁ dir d) (hdir : k.Known dir)
    (h : Extends k₁ k' dir) : FreshEntry k k' dir d ∧ k'.halfOf d = k₁.halfOf d := by
  have hd := h.dentries d hf.knownDentry
  have hne : (k₁.fs.dentries.objects d).inode ≠ dir := fun hh => hf.newInode (hh ▸ hdir)
  have hi := h.inodes _ hf.knownInode hne
  have hhalf : k'.halfOf d = k₁.halfOf d := by rw [halfOf, halfOf, hd, hi]
  have he := h.exfat _ hf.exfatSlot
  refine ⟨?_, hhalf⟩
  constructor
  · exact hf.newDentry
  · exact h.knownDentry d hf.knownDentry
  · rw [hd, hf.mounted]
  · rw [hd]
    exact hf.newInode
  · rw [hd]
    exact hf.nonzero
  · rw [hd]
    exact h.known _ hf.knownInode
  · rw [hd, hi, hf.superblock]
  · rw [hd, hi]
    exact hf.empty
  · rw [hhalf]
    exact hf.newExfat
  · rw [hhalf]
    exact h.exfatSlots _ hf.exfatSlot
  · rw [hhalf, he, hf.loadNeeded]
  · rw [hd, hi, hhalf, he]
    exact hf.noClusters

/-- The load of `dir` from `k` on has come to `k'` and added the entries `ds`. -/
structure Adding (k : FsKernel) (dir : U64) (k' : FsKernel) (ds : List U64) : Prop where
  slabs : k'.Slabs
  known : ∀ y, k.Known y → k'.Known y
  only : ∀ y, k'.Known y → k.Known y ∨ ∃ d ∈ ds, y = (k'.fs.dentries.objects d).inode
  knownDentry : ∀ y, k.KnownDentry y → k'.KnownDentry y
  exfatSlots : ∀ y ∈ k.exfatSlots, y ∈ k'.exfatSlots
  superblock : (k'.inode dir).superblock = (k.inode dir).superblock
  parent : (k'.inode dir).dentries = (k.inode dir).dentries ++ ds
  fresh : ∀ d ∈ ds, FreshEntry k k' dir d
  nodup : (ds.map k'.halfOf).Nodup
  superblocks : k'.superblocks = k.superblocks
  clusters : k'.exfatFileClusters = k.exfatFileClusters

namespace Adding

variable {ds : List U64}

theorem refl (h : k.Slabs) (dir : U64) : Adding k dir k [] where
  slabs := h
  known _ hy := hy
  only _ hy := .inl hy
  knownDentry _ hy := hy
  exfatSlots _ hy := hy
  superblock := rfl
  parent := (List.append_nil _).symm
  fresh _ hd := absurd hd List.not_mem_nil
  nodup := List.nodup_nil
  superblocks := rfl
  clusters := rfl

theorem keep (h : Adding k dir k₁ ds) (hk : KeepsLinks k₁ k') : Adding k dir k' ds where
  slabs := hk.slabs h.slabs
  known y hy := (hk.known_iff y).mpr (h.known y hy)
  only y hy := by
    refine (h.only y ((hk.known_iff y).mp hy)).imp_right ?_
    rintro ⟨d, hd, he⟩
    exact ⟨d, hd, he.trans (hk.dentries d).1.symm⟩
  knownDentry y hy := (h.knownDentry y hy).imp
    (fun hh => hk.dentrySlots ▸ hh) fun hh => hk.statics ▸ hh
  exfatSlots y hy := hk.exfatSlots ▸ h.exfatSlots y hy
  superblock := (congrArg (fun slab => (Slab.objects slab dir).superblock) hk.inodes).trans
    h.superblock
  parent := (congrArg (fun slab => (Slab.objects slab dir).dentries) hk.inodes).trans h.parent
  fresh d hd := (h.fresh d hd).keep hk
  nodup := by
    have hsame : ds.map k'.halfOf = ds.map k₁.halfOf := List.map_congr_left fun d _ => hk.halfOf d
    rw [hsame]
    exact h.nodup
  superblocks := hk.superblocks.trans h.superblocks
  clusters := hk.clusters.trans h.clusters

theorem newFile (h : Adding k dir k₁ ds) (hdir : k.Known dir) (hn : NewFile k₁ k' dir d i e x)
    (hl : k₁.loadFileEntry dir x = .ok (d, k')) : Adding k dir k' (ds ++ [d]) := by
  have hext := hn.extends
  have hnew := hn.fresh (h.known dir hdir) hl
  have hold := fun c hc => (h.fresh c hc).extend hdir hext
  constructor
  · exact hext.slabs
  · exact fun y hy => hext.known y (h.known y hy)
  · intro y hy
    rcases (hn.known_iff y).mp hy with rfl | hy
    · exact .inr ⟨d, List.mem_append_right _ List.mem_cons_self, by rw [hn.dentry]⟩
    · refine (h.only y hy).imp_right ?_
      rintro ⟨c, hc, he⟩
      have hsame := hext.dentries c (h.fresh c hc).knownDentry
      exact ⟨c, List.mem_append_left _ hc, by rw [hsame, he]⟩
  · exact fun y hy => hext.knownDentry y (h.knownDentry y hy)
  · exact fun y hy => hext.exfatSlots y (h.exfatSlots y hy)
  · rw [hn.parent, ← h.superblock]
  · rw [hn.parent, ← List.append_assoc, ← h.parent]
  · intro c hc
    rcases List.mem_append.mp hc with hc | hc
    · exact (hold c hc).1
    · obtain rfl := List.mem_singleton.mp hc
      exact ⟨fun hh => hnew.newDentry (h.knownDentry _ hh), hnew.knownDentry, hnew.mounted,
        fun hh => hnew.newInode (h.known _ hh), hnew.nonzero, hnew.knownInode,
        hnew.superblock.trans h.superblock, hnew.empty,
        fun hh => hnew.newExfat (h.exfatSlots _ hh), hnew.exfatSlot, hnew.loadNeeded,
        hnew.noClusters⟩
  · have hsame : ds.map k'.halfOf = ds.map k₁.halfOf :=
      List.map_congr_left fun c hc => (hold c hc).2
    rw [List.map_append, hsame, List.nodup_append]
    refine ⟨h.nodup, List.nodup_singleton _, ?_⟩
    rintro y hy z hz rfl
    obtain ⟨c, hc, hhalf⟩ := List.mem_map.mp hy
    refine hnew.newExfat ?_
    rw [← List.mem_singleton.mp hz, ← hhalf]
    exact (h.fresh c hc).exfatSlot
  · exact hn.superblocks.trans h.superblocks
  · exact (loadFileEntry_half hl).2.2.trans h.clusters

theorem loadEntry {s s' : DirLoad} (h : Adding k dir s.kernel ds) (hdir : k.Known dir)
    (hl : loadEntry sb dir x s = .ok s') : ∃ ds', Adding k dir s'.kernel ds' := by
  rcases loadEntry_cases hl with ⟨-, d, k', hfile, rfl⟩ | ⟨-, -, rfl⟩ |
    ⟨-, -, name, i, -, rfl⟩ | ⟨-, -, -, rfl⟩
  · obtain ⟨i, e, hnew⟩ := h.slabs.loadFileEntry_new (h.known dir hdir) hfile
    exact ⟨_, h.newFile hdir hnew hfile⟩
  · exact ⟨ds, h.keep (keepsLinks_loadInfoEntry _ sb _ x)⟩
  · exact ⟨ds, h.keep (keepsLinks_setName _ _ _)⟩
  · exact ⟨ds, h⟩

theorem loadAll {xs : List (Nat → U8)} {s s' : DirLoad} (h : Adding k dir s.kernel ds)
    (hdir : k.Known dir) (hl : loadAll sb dir xs s = .ok s') :
    ∃ ds', Adding k dir s'.kernel ds' := by
  induction xs generalizing s ds with
  | nil =>
    obtain rfl := Except.ok.inj hl
    exact ⟨ds, h⟩
  | cons x xs ih =>
    rw [loadAll_cons] at hl
    obtain ⟨s₁, hentry, hl⟩ := bind_eq_ok hl
    obtain ⟨ds₁, h₁⟩ := h.loadEntry hdir hentry
    exact ih h₁ hl

end Adding

end FsKernel

end Persistos
