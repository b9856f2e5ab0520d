import Persistos.OpenFailures
import Mathlib.Data.List.Find

/-! A tree on the RAM file system. No directory has two entries of one name, and a new
object changes nothing but the entries of its parent. -/

namespace Persistos

namespace FsKernel

variable {k k' : FsKernel}

/-- SYSCALL_MKDIR. The name buffer holds `name_length` characters. -/
def sysMkdir (fuel : Nat) (r : VfsLookupResult) (k : FsKernel) (path : List U8) :
    Except Crash (U64 × FsKernel) := do
  let (lookupResult, k) ← k.vfsResolve fuel path r
  if lookupResult.status = vfsResolveErrNotADir then .ok (-1, k)
  else if lookupResult.status = vfsResolveErrDoesntExist then .ok (-2, k)
  else if lookupResult.status = vfsResolveSuccessExists then .ok (-3, k)
  else if lookupResult.status = vfsResolveSuccessDoesntExist then do
    let (inode, k) ← k.vfsMkdir lookupResult.parentDirectory
      (lookupResult.nameStart.take lookupResult.nameLength)
    .ok (if inode ≠ 0 then 0 else -1, k)
  else .ok (lookupResult.status.setWidth 64, k)

def nameOf (k : FsKernel) (d : U64) : List U8 := cString (k.fs.dentries.objects d).name

structure RamfsTree (k : FsKernel) : Prop extends Inv k where
  onRamfs : k.OnRamfs
  mounted : ∀ i, k.Known i → (k.inode i).superblock ≠ 0
  records : Slab.Ok k.fs.supply k.fs.ramfsInodes k.fs.ramfsInodes.slots
  unused : Slab.Unused clearedRamfsInode k.fs.ramfsInodes k.fs.ramfsInodes.slots
  regular : ∀ i, k.Known i → (k.inode i).type = inodeRegularFile →
    (k.inode i).privateData ∈ k.fs.ramfsInodes.slots
  unique : ∀ i, k.Known i → (k.inode i).type = inodeDirectory →
    ((k.inode i).dentries.map k.nameOf).Nodup

theorem not_mem_names {dir : U64} {w : List U8}
    (h : k.tree.directories.entry dir w = none) : w ∉ (k.inode dir).dentries.map k.nameOf := by
  intro hmem
  obtain ⟨d, hd, rfl⟩ := List.mem_map.mp hmem
  exact absurd (decide_eq_true rfl) (List.find?_eq_none.mp h d hd)

/-- The records of the RAM files are in order, and those in no slot are cleared. -/
structure RamfsRecords (k : FsKernel) : Prop where
  records : Slab.Ok k.fs.supply k.fs.ramfsInodes k.fs.ramfsInodes.slots
  unused : Slab.Unused clearedRamfsInode k.fs.ramfsInodes k.fs.ramfsInodes.slots

/-- What a creation leaves: an empty object, with an entry at the end of its parent's. -/
structure NewObject (k k' : FsKernel) (dir d i : U64) (w : List U8) (kind : U8) : Prop where
  slabs : k'.Slabs
  newInode : ¬k.Known i
  newDentry : ¬k.KnownDentry d
  inodeSlots : k'.inodeSlots.Perm (i :: k.inodeSlots)
  dentrySlots : k'.dentrySlots.Perm (d :: k.dentrySlots)
  kept : ∀ y, k.Known y → y ≠ dir → k'.inode y = k.inode y
  parent : k'.inode dir = { k.inode dir with dentries := (k.inode dir).dentries ++ [d] }
  type : (k'.inode i).type = kind
  superblock : (k'.inode i).superblock = (k.inode dir).superblock
  empty : (k'.inode i).dentries = []
  dentries : ∀ y, k.KnownDentry y → k'.fs.dentries.objects y = k.fs.dentries.objects y
  name : (k'.fs.dentries.objects d).name = w
  behind : k'.tree.behind d = i
  exfatInodes : k'.exfatInodes = k.exfatInodes
  files : k'.files = k.files
  statics : k'.statics = k.statics
  superblocks : k'.superblocks = k.superblocks
  root : k'.vfsRootInode = k.vfsRootInode
  records : Slab.Ok k'.fs.supply k'.fs.ramfsInodes k'.fs.ramfsInodes.slots
  unused : Slab.Unused clearedRamfsInode k'.fs.ramfsInodes k'.fs.ramfsInodes.slots
  recordSlots : k.fs.ramfsInodes.slots ⊆ k'.fs.ramfsInodes.slots
  record : kind = inodeRegularFile → (k'.inode i).privateData ∈ k'.fs.ramfsInodes.slots ∧
    k'.fs.ramfsInodes.objects (k'.inode i).privateData = clearedRamfsInode

theorem NamedEntry.newObject {k₁ : FsKernel} {parent d i : U64} {w : List U8} {type : U8}
    (h : NamedEntry k k₁ d i w) (hp : k.Known parent) {fs : Ramfs} {φ : Inode → Inode}
    (hinodes : fs.inodes = k₁.fs.inodes.modify i φ)
    (hdentries : fs.dentries = k₁.fs.dentries.modify d fun dentry =>
      { dentry with inode := i, mountedInode := 0 })
    (hsub : fs.supply.pages ⊆ k₁.fs.supply.pages)
    (hφ : ∀ x, (φ x).type = type ∧ (φ x).superblock = (k₁.inode parent).superblock ∧
      (φ x).dentries = [])
    (hrecords : Slab.Ok fs.supply fs.ramfsInodes fs.ramfsInodes.slots)
    (hunused : Slab.Unused clearedRamfsInode fs.ramfsInodes fs.ramfsInodes.slots)
    (hslots : k.fs.ramfsInodes.slots ⊆ fs.ramfsInodes.slots)
    (hrecord : type = inodeRegularFile → ∀ x, (φ x).privateData ∈ fs.ramfsInodes.slots ∧
      fs.ramfsInodes.objects (φ x).privateData = clearedRamfsInode) :
    NewObject k ({ k₁ with fs }.modifyInode parent fun _ =>
      { k₁.inode parent with dentries := (k₁.inode parent).dentries ++ [d] }) parent d i w type := by
  have hne : i ≠ parent := fun hh => h.newInode (hh ▸ hp)
  have hself : FsKernel.inode ({ k₁ with fs }.modifyInode parent fun _ =>
      { k₁.inode parent with dentries := (k₁.inode parent).dentries ++ [d] }) i =
      φ (k₁.inode i) := by
    rw [inode_modifyInode_ne _ hne, FsKernel.inode, hinodes, Slab.modify_objects_self]
    rfl
  have hdentry : fs.dentries.objects d =
      { k₁.fs.dentries.objects d with inode := i, mountedInode := 0 } := by
    rw [hdentries, Slab.modify_objects_self]
  have hi : fs.inodes.allocator = k₁.fs.inodes.allocator := by
    rw [hinodes]
    rfl
  have hd : fs.dentries.allocator = k₁.fs.dentries.allocator := by
    rw [hdentries]
    rfl
  constructor
  · exact (h.slabs.shrinkSupply hsub).congr rfl hi hd rfl rfl rfl rfl
  · exact h.newInode
  · exact h.newDentry
  · have hs : fs.inodes.slots = k₁.inodeSlots := congrArg SlabAllocator.allocatedSlots hi
    exact (List.Perm.of_eq hs).trans h.inodeSlots
  · have hs : fs.dentries.slots = k₁.dentrySlots := congrArg SlabAllocator.allocatedSlots hd
    exact (List.Perm.of_eq hs).trans h.dentrySlots
  · intro y hy hyp
    have hyi : y ≠ i := fun hh => h.newInode (hh ▸ hy)
    rw [inode_modifyInode_ne _ hyp, FsKernel.inode, hinodes, Slab.modify_objects_ne _ hyi]
    exact h.kept y hy
  · rw [inode_modifyInode_self, h.kept parent hp]
  · rw [hself]
    exact (hφ _).1
  · rw [hself, (hφ _).2.1, h.kept parent hp]
  · rw [hself]
    exact (hφ _).2.2
  · intro y hy
    have hyd : y ≠ d := fun hh => h.newDentry (hh ▸ hy)
    have hstep : fs.dentries.objects y = k₁.fs.dentries.objects y := by
      rw [hdentries, Slab.modify_objects_ne _ hyd]
    exact hstep.trans (h.dentries y hy)
  · have hname : (fs.dentries.objects d).name = (k₁.fs.dentries.objects d).name := by rw [hdentry]
    exact hname.trans h.name
  · have hmounted : (fs.dentries.objects d).mountedInode = 0 := by rw [hdentry]
    have hinode : (fs.dentries.objects d).inode = i := by rw [hdentry]
    exact (if_neg (not_not_intro hmounted)).trans hinode
  · exact h.exfatInodes
  · exact h.files
  · exact h.statics
  · exact h.superblocks
  · exact h.root
  · exact hrecords
  · exact hunused
  · exact hslots
  · intro hregular
    rw [hself]
    exact hrecord hregular _

/-- The members of a new file, with its record. -/
def emptyFile (superblock privateData : U64) (inode : Inode) : Inode :=
  { inode with type := inodeRegularFile, superblock, privateData, dentries := [] }

def emptyDirectory (superblock : U64) (inode : Inode) : Inode :=
  { inode with type := inodeDirectory, superblock, dentries := [] }

section Create

variable {parent i : U64} {name : List U8}

theorem NamedEntry.typeOf {k₁ : FsKernel} {d : U64} {w : List U8} (hn : NamedEntry k k₁ d i w)
    (hp : k.Known parent) : k₁.typeOf parent = k.typeOf parent := by
  rw [FsKernel.typeOf, hn.kept parent hp, hn.superblocks]
  rfl

theorem Slabs.vfsCreate (h : k.Slabs) (hr : RamfsRecords k) (hp : k.Known parent)
    (htype : k.typeOf parent = .ramfs) (hc : k.vfsCreate parent name = .ok (i, k')) :
    i ≠ 0 ∧ ∃ d, NewObject k k' parent d i (cString name) inodeRegularFile := by
  obtain ⟨⟨i', d, k₁⟩, ha, hc⟩ := bind_eq_ok hc
  obtain ⟨k₂, hn, hc⟩ := bind_eq_ok hc
  have hnamed := h.namedEntry ha hn
  have hnz : i' ≠ 0 := slot_ne_zero hnamed.slabs.inodes.inv
    (hnamed.inodeSlots.mem_iff.mpr List.mem_cons_self)
  obtain ⟨⟨n, k₃⟩, hcreate, hfinish⟩ := bind_eq_ok hc
  rw [createFileInode, hnamed.typeOf hp, htype] at hcreate
  obtain ⟨⟨n', dir, fs⟩, hramfs, hcreate⟩ := bind_eq_ok hcreate
  obtain ⟨⟨e, supply, records⟩, hslab, hramfs⟩ := bind_eq_ok hramfs
  have hrecords : Slab.Ok k₂.fs.supply k₂.fs.ramfsInodes k.fs.ramfsInodes.slots := by
    rw [hnamed.records]
    exact hr.records.of_subset hnamed.supply
  have hunused : Slab.Unused clearedRamfsInode k₂.fs.ramfsInodes k.fs.ramfsInodes.slots := by
    rw [hnamed.records]
    exact hr.unused
  have halloc := hrecords.alloc hslab
  obtain ⟨hclear, hunused'⟩ := hrecords.alloc_unused hunused hslab
  have hperm := halloc.ok.inv.allocatedSlots_perm
  cases hramfs
  cases hcreate
  have hfinish : Except.ok (i', _) = Except.ok (i, k') :=
    (if_neg (not_not_intro rfl)).symm.trans hfinish
  cases hfinish
  refine ⟨hnz, d, ?_⟩
  have hinodes : (k₂.fs.inodes.modify i fun inode => { inode with
      type := inodeRegularFile, superblock := (k₂.inode parent).superblock, dentries := [] }).modify i
        (fun inode => { inode with privateData := e }) =
      k₂.fs.inodes.modify i (emptyFile (k₂.inode parent).superblock e) := Slab.modify_modify _ _ _ _
  have hslots : (records.modify e fun r => { r with ramfsClusters := [] }).slots = records.slots := rfl
  have hcleared : (records.modify e fun r => { r with ramfsClusters := [] }).objects e =
      clearedRamfsInode := by
    rw [Slab.modify_objects_self, hclear]
    rfl
  refine hnamed.newObject hp hinodes rfl halloc.supply_subset (fun _ => ⟨rfl, rfl, rfl⟩) ?_ ?_ ?_ ?_
  · have hok := (halloc.ok.perm hperm.symm).modify e fun r => { r with ramfsClusters := [] }
    exact hok
  · have hmem : e ∈ records.slots := hperm.mem_iff.mpr List.mem_cons_self
    have hu := (hunused'.perm hperm.symm).modify hmem fun r => { r with ramfsClusters := [] }
    exact hu
  · exact fun x hx => hperm.mem_iff.mpr (List.mem_cons_of_mem e hx)
  · exact fun _ x => ⟨hperm.mem_iff.mpr List.mem_cons_self, hcleared⟩

theorem Slabs.vfsMkdir (h : k.Slabs) (hr : RamfsRecords k) (hp : k.Known parent)
    (htype : k.typeOf parent = .ramfs) (hc : k.vfsMkdir parent name = .ok (i, k')) :
    i ≠ 0 ∧ ∃ d, NewObject k k' parent d i (cString name) inodeDirectory := by
  obtain ⟨⟨i', d, k₁⟩, ha, hc⟩ := bind_eq_ok hc
  obtain ⟨k₂, hn, hc⟩ := bind_eq_ok hc
  have hnamed := h.namedEntry ha hn
  have hnz : i' ≠ 0 := slot_ne_zero hnamed.slabs.inodes.inv
    (hnamed.inodeSlots.mem_iff.mpr List.mem_cons_self)
  obtain ⟨⟨n, k₃⟩, hcreate, hfinish⟩ := bind_eq_ok hc
  cases hfinish
  rw [createDirInode, hnamed.typeOf hp, htype] at hcreate
  cases hcreate
  have hinodes : (k₂.fs.inodes.modify i fun inode => { inode with
      type := inodeDirectory, superblock := (k₂.inode parent).superblock, dentries := [] }) =
      k₂.fs.inodes.modify i (emptyDirectory (k₂.inode parent).superblock) := rfl
  refine ⟨hnz, d, hnamed.newObject hp hinodes rfl (List.Subset.refl _)
    (fun _ => ⟨rfl, rfl, rfl⟩) ?_ ?_ ?_ ?_⟩
  · have hok := hr.records.of_subset hnamed.supply
    rw [← hnamed.records] at hok
    exact hok
  · have hu := hr.unused
    rw [← hnamed.records] at hu
    exact hu
  · have hs := List.Subset.refl k.fs.ramfsInodes.slots
    nth_rewrite 2 [← hnamed.records] at hs
    exact hs
  · exact fun hh => absurd (a := inodeDirectory = inodeRegularFile) hh (by decide)

theorem RamfsTree.vfsCreate (h : k.RamfsTree) (hp : k.Known parent)
    (hc : k.vfsCreate parent name = .ok (i, k')) :
    i ≠ 0 ∧ ∃ d, NewObject k k' parent d i (cString name) inodeRegularFile :=
  h.toSlabs.vfsCreate ⟨h.records, h.unused⟩ hp (h.onRamfs parent hp) hc

theorem RamfsTree.vfsMkdir (h : k.RamfsTree) (hp : k.Known parent)
    (hc : k.vfsMkdir parent name = .ok (i, k')) :
    i ≠ 0 ∧ ∃ d, NewObject k k' parent d i (cString name) inodeDirectory :=
  h.toSlabs.vfsMkdir ⟨h.records, h.unused⟩ hp (h.onRamfs parent hp) hc

end Create

namespace NewObject

variable {dir d i : U64} {w : List U8} {kind : U8}

theorem known_iff (h : NewObject k k' dir d i w kind) (y : U64) :
    k'.Known y ↔ y = i ∨ k.Known y := by
  rw [Known, Known, h.inodeSlots.mem_iff, List.mem_cons, h.statics, or_assoc]

theorem same (h : NewObject k k' dir d i w kind) {y : U64} (hy : k.Known y) :
    (k'.inode y).type = (k.inode y).type ∧ (k'.inode y).superblock = (k.inode y).superblock ∧
      (k'.inode y).privateData = (k.inode y).privateData := by
  by_cases hd : y = dir
  · rw [hd, h.parent]
    exact ⟨rfl, rfl, rfl⟩
  · rw [h.kept y hy hd]
    exact ⟨rfl, rfl, rfl⟩

theorem nameOf_old (h : NewObject k k' dir d i w kind) {c : U64} (hc : k.KnownDentry c) :
    k'.nameOf c = k.nameOf c := by rw [nameOf, nameOf, h.dentries c hc]

theorem behind_old (h : NewObject k k' dir d i w kind) {c : U64} (hc : k.KnownDentry c) :
    k'.tree.behind c = k.tree.behind c := by
  have hobject : k'.tree.dentries c = k.tree.dentries c := h.dentries c hc
  unfold VfsTree.behind
  rw [hobject]

theorem known_old (h : NewObject k k' dir d i w kind) {c : U64} (hc : k.KnownDentry c) :
    k'.KnownDentry c := by
  refine hc.imp (fun hh => h.dentrySlots.mem_iff.mpr (List.mem_cons_of_mem d hh)) fun hh => ?_
  rw [h.statics]
  exact hh

theorem typeOf_new (h : NewObject k k' dir d i w kind) : k'.typeOf i = k.typeOf dir := by
  rw [typeOf, h.superblock, h.superblocks]
  rfl

theorem typeOf_old (h : NewObject k k' dir d i w kind) {y : U64} (hy : k.Known y) :
    k'.typeOf y = k.typeOf y := by
  rw [typeOf, (h.same hy).2.1, h.superblocks]
  rfl

theorem inv (h : NewObject k k' dir d i w kind) (hk : k.Inv) (hdir : k.Known dir)
    (hramfs : k.typeOf dir = .ramfs) : k'.Inv where
  toSlabs := h.slabs
  root := by
    rw [h.root]
    exact (h.known_iff _).mpr (.inr hk.root)
  privates y hy hexfat := by
    rcases (h.known_iff y).mp hy with rfl | hy
    · obtain ⟨sb, partition, hexfat⟩ := hexfat
      rw [h.typeOf_new, hramfs] at hexfat
      cases hexfat
    · rw [OnExfat, h.typeOf_old hy] at hexfat
      rw [(h.same hy).2.2, exfatSlots, h.exfatInodes]
      exact hk.privates y hy hexfat
  entries y hy hd c hc := by
    rcases (h.known_iff y).mp hy with rfl | hy
    · rw [h.empty] at hc
      exact absurd hc List.not_mem_nil
    · rw [(h.same hy).1] at hd
      by_cases hyd : y = dir
      · rw [hyd, h.parent, List.mem_append, List.mem_singleton] at hc
        rcases hc with hc | rfl
        · obtain ⟨hcd, hbehind⟩ := hk.entries y hy hd c (hyd ▸ hc)
          rw [h.behind_old hcd]
          exact ⟨h.known_old hcd, (h.known_iff _).mpr (.inr hbehind)⟩
        · rw [h.behind]
          exact ⟨.inl (h.dentrySlots.mem_iff.mpr List.mem_cons_self), (h.known_iff i).mpr (.inl rfl)⟩
      · rw [h.kept y hy hyd] at hc
        obtain ⟨hcd, hbehind⟩ := hk.entries y hy hd c hc
        rw [h.behind_old hcd]
        exact ⟨h.known_old hcd, (h.known_iff _).mpr (.inr hbehind)⟩

theorem ramfsTree (h : NewObject k k' dir d i w kind) (hk : k.RamfsTree) (hdir : k.Known dir)
    (htype : (k.inode dir).type = inodeDirectory) (hw : cString w = w)
    (hnew : w ∉ (k.inode dir).dentries.map k.nameOf) : k'.RamfsTree where
  toInv := h.inv hk.toInv hdir (hk.onRamfs dir hdir)
  onRamfs y hy := by
    rcases (h.known_iff y).mp hy with rfl | hy
    · exact h.typeOf_new.trans (hk.onRamfs dir hdir)
    · exact (h.typeOf_old hy).trans (hk.onRamfs y hy)
  mounted y hy := by
    rcases (h.known_iff y).mp hy with rfl | hy
    · rw [h.superblock]
      exact hk.mounted dir hdir
    · rw [(h.same hy).2.1]
      exact hk.mounted y hy
  records := h.records
  unused := h.unused
  regular y hy hreg := by
    rcases (h.known_iff y).mp hy with rfl | hy
    · exact (h.record (h.type.symm.trans hreg)).1
    · rw [(h.same hy).1] at hreg
      rw [(h.same hy).2.2]
      exact h.recordSlots (hk.regular y hy hreg)
  unique y hy hd := by
    rcases (h.known_iff y).mp hy with rfl | hy
    · rw [h.empty]
      exact List.nodup_nil
    · rw [(h.same hy).1] at hd
      have hold : (k.inode y).dentries.map k'.nameOf = (k.inode y).dentries.map k.nameOf :=
        List.map_congr_left fun c hc => h.nameOf_old (hk.entries y hy hd c hc).1
      by_cases hyd : y = dir
      · have hname : k'.nameOf d = w := by rw [nameOf, h.name, hw]
        subst hyd
        rw [h.parent]
        simp only [List.map_append, List.map_cons, List.map_nil, hold, hname]
        refine List.nodup_append.mpr ⟨hk.unique y hy hd, List.nodup_singleton w, ?_⟩
        intro a ha b hb hab
        obtain rfl := List.mem_singleton.mp hb
        exact hnew (hab ▸ ha)
      · rw [h.kept y hy hyd, hold]
        exact hk.unique y hy hd

theorem find_old (h : NewObject k k' dir d i w kind) (n : List U8) {l : List U64}
    (hl : ∀ c ∈ l, k.KnownDentry c) :
    l.find? (fun c => cString (k'.tree.dentries c).name = n) =
      l.find? fun c => cString (k.tree.dentries c).name = n := by
  refine List.find?_congr fun c hc => ?_
  have hname : cString (k'.tree.dentries c).name = cString (k.tree.dentries c).name :=
    h.nameOf_old (hl c hc)
  rw [hname]

/-- The directories have one entry more. -/
theorem adds (h : NewObject k k' dir d i w kind) (hk : k.Inv) (hdir : k.Known dir)
    (hdirType : (k.inode dir).type = inodeDirectory) (hw : cString w = w)
    (hnew : k.tree.directories.entry dir w = none) :
    k.tree.directories.Adds k'.tree.directories k.Known dir w d where
  closed := hk.closed
  isDir y hy := by
    have htype : (k'.inode y).type = (k.inode y).type := (h.same hy).1
    change decide ((k'.inode y).type = inodeDirectory) = decide ((k.inode y).type = inodeDirectory)
    rw [htype]
  old y n e hy hd he := by
    have hd : (k.inode y).type = inodeDirectory := of_decide_eq_true hd
    have hentries : ∀ c ∈ (k.inode y).dentries, k.KnownDentry c :=
      fun c hc => (hk.entries y hy hd c hc).1
    refine ⟨?_, h.behind_old (hentries e (List.mem_of_find?_eq_some he))⟩
    have hfind := (h.find_old n hentries).trans he
    change (k'.inode y).dentries.find? _ = some e
    by_cases hyd : y = dir
    · rw [hyd] at hfind ⊢
      rw [h.parent, List.find?_append, hfind]
      rfl
    · rw [h.kept y hy hyd]
      exact hfind
  new := by
    have hfind := (h.find_old w fun c hc => (hk.entries dir hdir hdirType c hc).1).trans hnew
    have hname : cString (k'.tree.dentries d).name = w := (congrArg cString h.name).trans hw
    change (k'.inode dir).dentries.find? _ = some d
    rw [h.parent, List.find?_append, hfind, List.find?_singleton, hname, decide_eq_true rfl]
    rfl

end NewObject

end FsKernel

end Persistos
