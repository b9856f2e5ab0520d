import Persistos.FdTables
import Persistos.RamfsTree
import Mathlib.Logic.Relation

/-! OPEN with `O_CREAT` and MKDIR on a tree in RAM. An object that they create is what its
path resolves to from then on, and no other path leads elsewhere than before. -/

namespace Persistos

open Theory

theorem slabAlloc_supply {s s' : PageSupply} {a b : SlabAllocator} {x : U64} {new : Option U64}
    (h : slabAlloc PageSupply.alloc s a = .ok (x, s', b, new)) : s'.pages ⊆ s.pages := by
  rw [slabAlloc] at h
  split at h
  · cases h
    exact List.Subset.refl _
  · split at h
    · cases h
    · next p supply hp =>
      have hpages := (PageSupply.alloc_ok hp).1
      dsimp only at h
      split at h
      · cases h
        rw [hpages]
        exact List.subset_cons_self _ _
      · cases h

/-- What the steps of a change to the record at `e` have in common. -/
structure RecordRule (e : U64) (R : Ramfs → Ramfs → Prop) : Prop where
  refl : ∀ fs, R fs fs
  trans : ∀ {fs fs' fs''}, R fs fs' → R fs' fs'' → R fs fs''
  append : ∀ {fs fs'}, ramfsAppendCluster fs e = .ok fs' → R fs fs'
  drop : ∀ {fs fs' c}, ramfsDropCluster fs e c = .ok fs' → R fs fs'
  assign : ∀ fs size,
    R fs { fs with ramfsInodes := fs.ramfsInodes.modify e fun r => { r with size } }

namespace RecordRule

variable {e : U64} {R : Ramfs → Ramfs → Prop} {fs fs' : Ramfs}

theorem growPass (h : RecordRule e R) {next next' : List U64}
    (hg : ramfsGrowPass fs e next = .ok (fs', next')) : R fs fs' := by
  cases next with
  | nil =>
    obtain ⟨fs₁, happend, hg⟩ := bind_eq_ok hg
    cases hg
    exact h.append happend
  | cons c next =>
    cases hg
    exact h.refl fs

theorem grow (h : RecordRule e R) {size clusterStart : U64} {next next' : List U64} {passes : Nat}
    (hg : ramfsGrow e size passes fs next clusterStart = .ok (fs', next')) : R fs fs' := by
  induction passes generalizing fs next clusterStart with
  | zero => cases hg
  | succ passes ih =>
    obtain ⟨⟨fs₁, next₁⟩, hpass, hg⟩ := bind_eq_ok hg
    dsimp only at hg
    split at hg
    · exact h.trans (h.growPass hpass) (ih hg)
    · cases hg
      exact h.growPass hpass

theorem dropClusters (h : RecordRule e R) {next : List U64}
    (hd : ramfsDropClusters e fs next = .ok fs') : R fs fs' := by
  induction next generalizing fs with
  | nil =>
    obtain rfl := Except.ok.inj hd
    exact h.refl fs
  | cons c next ih =>
    obtain ⟨fs₁, hdrop, hd⟩ := bind_eq_ok hd
    exact h.trans (h.drop hdrop) (ih hd)

theorem setSize {filp : File} (h : RecordRule (fs.privateOf filp.inode) R) {size n : U64}
    (hs : ramfsSetSize fs filp size = .ok (n, fs')) : R fs fs' := by
  obtain ⟨⟨fs₁, next⟩, hgrow, hs⟩ := bind_eq_ok hs
  obtain ⟨fs₂, hdrop, hs⟩ := bind_eq_ok hs
  cases hs
  exact h.trans (h.trans (h.grow hgrow) (h.dropClusters hdrop)) (h.assign fs₂ size)

theorem makeRoom {filp : File} (h : RecordRule (fs.privateOf filp.inode) R) {stop : U64}
    (hm : ramfsMakeRoom fs filp stop = .ok fs') : R fs fs' := by
  rw [ramfsMakeRoom] at hm
  split at hm
  · obtain ⟨⟨n, fs₁⟩, hsize, hm⟩ := bind_eq_ok hm
    cases hm
    exact h.setSize hsize
  · cases hm
    exact h.refl fs

end RecordRule

/-- A change to the record at `e` and to no other. -/
structure RecordStep (fs fs' : Ramfs) (e : U64) : Prop where
  inodes : fs'.inodes = fs.inodes
  dentries : fs'.dentries = fs.dentries
  allocator : fs'.ramfsInodes.allocator = fs.ramfsInodes.allocator
  kept : ∀ y, y ≠ e → fs'.ramfsInodes.objects y = fs.ramfsInodes.objects y
  supply : fs'.supply.pages ⊆ fs.supply.pages

namespace RecordStep

variable {fs fs' fs'' : Ramfs} {e : U64}

theorem refl (fs : Ramfs) (e : U64) : RecordStep fs fs e :=
  ⟨rfl, rfl, rfl, fun _ _ => rfl, List.Subset.refl _⟩

theorem trans (h : RecordStep fs fs' e) (h' : RecordStep fs' fs'' e) : RecordStep fs fs'' e where
  inodes := h'.inodes.trans h.inodes
  dentries := h'.dentries.trans h.dentries
  allocator := h'.allocator.trans h.allocator
  kept y hy := (h'.kept y hy).trans (h.kept y hy)
  supply := List.Subset.trans h'.supply h.supply

theorem modify (fs : Ramfs) (e : U64) (f : RamfsInode → RamfsInode) {supply : PageSupply}
    (hs : supply.pages ⊆ fs.supply.pages) (ramfsClusters : Slab (Nat → U8)) :
    RecordStep fs { fs with supply, ramfsInodes := fs.ramfsInodes.modify e f, ramfsClusters } e :=
  ⟨rfl, rfl, rfl, fun _ hy => Slab.modify_objects_ne _ hy f, hs⟩

theorem appendCluster (h : ramfsAppendCluster fs e = .ok fs') : RecordStep fs fs' e := by
  obtain ⟨⟨c, supply, clusters⟩, halloc, h⟩ := bind_eq_ok h
  obtain ⟨⟨x, supply', a, new⟩, hslab, halloc⟩ := bind_eq_ok halloc
  cases halloc
  cases h
  exact modify fs e _ (slabAlloc_supply hslab) _

theorem rule (e : U64) : RecordRule e fun fs fs' => RecordStep fs fs' e where
  refl fs := refl fs e
  trans h h' := h.trans h'
  append := appendCluster
  drop {fs fs' c} h := by
    obtain ⟨clusters, -, h⟩ := bind_eq_ok h
    cases h
    exact modify fs e _ (List.Subset.refl _) clusters
  assign fs size := modify fs e _ (List.Subset.refl _) fs.ramfsClusters

theorem setSize {filp : File} {size n : U64} (h : ramfsSetSize fs filp size = .ok (n, fs')) :
    RecordStep fs fs' (fs.privateOf filp.inode) := (rule _).setSize h

end RecordStep

namespace FsKernel

variable {k k' k'' : FsKernel}

/-- The inodes and the dentries are as before. -/
structure SameTree (k k' : FsKernel) : Prop where
  slabs : k'.Slabs
  inodes : k'.fs.inodes = k.fs.inodes
  dentries : k'.fs.dentries = k.fs.dentries
  statics : k'.statics = k.statics
  superblocks : k'.superblocks = k.superblocks
  root : k'.vfsRootInode = k.vfsRootInode
  records : Slab.Ok k'.fs.supply k'.fs.ramfsInodes k'.fs.ramfsInodes.slots
  unused : Slab.Unused clearedRamfsInode k'.fs.ramfsInodes k'.fs.ramfsInodes.slots
  recordSlots : k'.fs.ramfsInodes.slots = k.fs.ramfsInodes.slots

namespace SameTree

theorem tree (h : SameTree k k') : k'.tree = k.tree := by
  rw [FsKernel.tree, h.inodes, h.dentries, h.root]
  rfl

theorem inode (h : SameTree k k') (y : U64) : k'.inode y = k.inode y := by
  rw [FsKernel.inode, h.inodes]
  rfl

theorem known_iff (h : SameTree k k') (y : U64) : k'.Known y ↔ k.Known y := by
  rw [Known, Known, inodeSlots, h.inodes, h.statics]
  rfl

theorem knownDentry_iff (h : SameTree k k') (y : U64) : k'.KnownDentry y ↔ k.KnownDentry y := by
  rw [KnownDentry, KnownDentry, dentrySlots, h.dentries, h.statics]
  rfl

theorem typeOf (h : SameTree k k') (y : U64) : k'.typeOf y = k.typeOf y := by
  rw [FsKernel.typeOf, FsKernel.typeOf, h.inode, h.superblocks]

theorem nameOf (h : SameTree k k') : k'.nameOf = k.nameOf := by
  funext d
  rw [FsKernel.nameOf, FsKernel.nameOf, h.dentries]

theorem ramfsTree (h : SameTree k k') (hk : k.RamfsTree) : k'.RamfsTree where
  toSlabs := h.slabs
  root := by
    rw [h.root, h.known_iff]
    exact hk.root
  privates y hy hexfat := by
    obtain ⟨sb, partition, hexfat⟩ := hexfat
    rw [h.typeOf, hk.onRamfs y ((h.known_iff y).mp hy)] at hexfat
    cases hexfat
  entries y hy hd d hmem := by
    rw [h.inode] at hd hmem
    rw [h.knownDentry_iff, h.tree, h.known_iff]
    exact hk.entries y ((h.known_iff y).mp hy) hd d hmem
  onRamfs y hy := (h.typeOf y).trans (hk.onRamfs y ((h.known_iff y).mp hy))
  mounted y hy := by
    rw [h.inode]
    exact hk.mounted y ((h.known_iff y).mp hy)
  records := h.records
  unused := h.unused
  regular y hy hregular := by
    rw [h.inode] at hregular ⊢
    rw [h.recordSlots]
    exact hk.regular y ((h.known_iff y).mp hy) hregular
  unique y hy hd := by
    rw [h.inode] at hd ⊢
    rw [h.nameOf]
    exact hk.unique y ((h.known_iff y).mp hy) hd

end SameTree

theorem RamfsTree.refl (h : k.RamfsTree) : SameTree k k :=
  ⟨h.toSlabs, rfl, rfl, rfl, rfl, rfl, h.records, h.unused, rfl⟩

theorem SameTree.trans (h : SameTree k k') (h' : SameTree k' k'') : SameTree k k'' where
  slabs := h'.slabs
  inodes := h'.inodes.trans h.inodes
  dentries := h'.dentries.trans h.dentries
  statics := h'.statics.trans h.statics
  superblocks := h'.superblocks.trans h.superblocks
  root := h'.root.trans h.root
  records := h'.records
  unused := h'.unused
  recordSlots := h'.recordSlots.trans h.recordSlots

theorem Slabs.filesPages (h : k.Slabs) :
    SlabInv.FreshPages PageSupply.alloc k.fs.supply k.files := by
  intro p supply' hp
  obtain ⟨hpages, haligned, -⟩ := PageSupply.alloc_ok hp
  exact ⟨haligned, h.filesFresh p (hpages ▸ List.mem_cons_self)⟩

theorem Slabs.fileAlloc (h : k.Slabs) {f : U64} (ha : k.fileAlloc = .ok (f, k')) :
    k'.Slabs ∧ ∃ supply files, k' = { k with fs := { k.fs with supply }, files } ∧
      supply.pages ⊆ k.fs.supply.pages := by
  obtain ⟨⟨x, supply, files, new⟩, hslab, ha⟩ := bind_eq_ok ha
  have hsub := slabAlloc_supply hslab
  cases ha
  obtain ⟨-, hinv, -, -, hpages, -⟩ := h.files.alloc h.filesPages hslab
  have hshrink := h.shrinkSupply hsub
  refine ⟨⟨hshrink.inodes, hshrink.dentries, hshrink.exfatInodes, hshrink.exfatFileClusters,
    hinv.perm hinv.allocatedSlots_perm.symm, ?_, fun y hy => ?_, ?_⟩, supply, files, rfl, hsub⟩
  · rcases hpages with ⟨-, rfl, hpages⟩ | ⟨p, -, hp, hpages⟩
    · rw [hpages]
      exact h.filesFresh
    · obtain ⟨hsupply, -, hnew⟩ := PageSupply.alloc_ok hp
      intro q hq hmem
      rw [hpages, List.mem_cons] at hmem
      rcases hmem with rfl | hmem
      · exact hnew hq
      · exact h.filesFresh q (hsub hq) hmem
  · have ho := hshrink.statics y hy
    exact ⟨ho.supply, ho.inodes, ho.dentries⟩
  · exact ⟨hshrink.dentryPages.supply, hshrink.dentryPages.pages, hshrink.dentryPages.size⟩

theorem fileAlloc_records {f : U64} (ha : k.fileAlloc = .ok (f, k')) :
    k'.fs.ramfsInodes = k.fs.ramfsInodes := by
  obtain ⟨⟨x, supply, files, new⟩, -, ha⟩ := bind_eq_ok ha
  cases ha
  rfl

theorem RamfsTree.fileAlloc (h : k.RamfsTree) {f : U64} (ha : k.fileAlloc = .ok (f, k')) :
    SameTree k k' := by
  obtain ⟨hslabs, supply, files, rfl, hsub⟩ := h.toSlabs.fileAlloc ha
  exact ⟨hslabs, rfl, rfl, rfl, rfl, rfl, h.records.of_subset hsub, h.unused, rfl⟩

theorem RamfsTree.vfsFtruncate (h : k.RamfsTree) {filp : OpenFile} {size n : U64}
    (hf : k.Known filp.inode) (ht : (k.inode filp.inode).type = inodeRegularFile)
    (hc : k.vfsFtruncate filp size = .ok (n, k')) : n = 0 ∧ SameTree k k' := by
  rw [FsKernel.vfsFtruncate, if_pos ht, if_neg (h.mounted _ hf), h.onRamfs _ hf] at hc
  obtain ⟨⟨n', fs⟩, hsize, hc⟩ := bind_eq_ok hc
  cases hc
  have hstep := RecordStep.setSize hsize
  have hmem := h.regular _ hf ht
  have hn : n = 0 := by
    obtain ⟨⟨fs₁, next⟩, -, hsize⟩ := bind_eq_ok hsize
    obtain ⟨fs₂, -, hsize⟩ := bind_eq_ok hsize
    cases hsize
    rfl
  have hslots : fs.ramfsInodes.slots = k.fs.ramfsInodes.slots :=
    congrArg SlabAllocator.allocatedSlots hstep.allocator
  refine ⟨hn, ⟨?_, hstep.inodes, hstep.dentries, rfl, rfl, rfl, ?_, ?_, hslots⟩⟩
  · have hshrink := h.toSlabs.shrinkSupply hstep.supply
    exact hshrink.congr rfl (congrArg Slab.allocator hstep.inodes)
      (congrArg Slab.allocator hstep.dentries) rfl rfl rfl rfl
  · exact (h.records.of_subset hstep.supply).congr_slots rfl hstep.allocator
  · intro y hy hn
    rw [hslots] at hn
    have hy : y &&& pageAddressMask ∈ k.fs.ramfsInodes.allocator.pages := by
      rw [← hstep.allocator]
      exact hy
    rw [hstep.kept y fun hh => hn (hh ▸ hmem)]
    exact h.unused y hy hn

/-- `path` leads to the inode at `i`, and nothing is loaded on the way. -/
def ResolvesTo (k : FsKernel) (fuel : Nat) (r : VfsLookupResult) (path : List U8) (i : U64) :
    Prop :=
  ∃ r', k.vfsResolve fuel path r = .ok (r', k) ∧ r'.status = vfsResolveSuccessExists ∧ r'.inode = i

section Calls

variable {fuel : Nat} {r : VfsLookupResult} {path : List U8}

theorem RamfsTree.resolvesTo_iff (h : k.RamfsTree) {i : U64} :
    k.ResolvesTo fuel r path i ↔ ∃ p, k.tree.resolve path = .found p ∧ p.inode = i := by
  obtain ⟨r', hr, hrep⟩ := h.onRamfs.vfsResolve_reports h.toInv fuel r path
  cases ho : k.tree.resolve path with
  | found p =>
    rw [ho, Reports] at hrep
    constructor
    · rintro ⟨r₁, hr₁, -, rfl⟩
      cases hr.symm.trans hr₁
      exact ⟨p, rfl, by rw [hrep]⟩
    · rintro ⟨q, hq, rfl⟩
      cases hq
      exact ⟨r', hr, by rw [hrep], by rw [hrep]⟩
  | missing p w =>
    rw [ho, Reports] at hrep
    have hstatus : r'.status = vfsResolveSuccessDoesntExist := by rw [hrep.1]
    refine ⟨?_, fun ⟨_, hq, _⟩ => by cases hq⟩
    rintro ⟨r₁, hr₁, hs, -⟩
    cases hr.symm.trans hr₁
    exact absurd (hstatus.symm.trans hs) (by decide)
  | noEntry =>
    rw [ho, Reports] at hrep
    have hstatus : r'.status = vfsResolveErrDoesntExist := by rw [hrep]
    refine ⟨?_, fun ⟨_, hq, _⟩ => by cases hq⟩
    rintro ⟨r₁, hr₁, hs, -⟩
    cases hr.symm.trans hr₁
    exact absurd (hstatus.symm.trans hs) (by decide)
  | notDirectory =>
    rw [ho, Reports] at hrep
    have hstatus : r'.status = vfsResolveErrNotADir := by rw [hrep]
    refine ⟨?_, fun ⟨_, hq, _⟩ => by cases hq⟩
    rintro ⟨r₁, hr₁, hs, -⟩
    cases hr.symm.trans hr₁
    exact absurd (hstatus.symm.trans hs) (by decide)

/-- The place of a missing name. -/
theorem Inv.missing (h : k.Inv) {p : Position U64 U64} {w : List U8}
    (ho : k.tree.resolve path = .missing p w) :
    k.Known p.inode ∧ (k.inode p.inode).type = inodeDirectory ∧
      k.tree.directories.entry p.inode w = none := by
  obtain ⟨hknown, hd, hnone, -⟩ := Directories.walk_missing_entry h.closed h.root ho
  exact ⟨hknown, of_decide_eq_true hd, hnone⟩

section Open

variable {s s' : FileTables FsKernel} {t flags res : U64}

/-- A file at the end of the list of a task, with its number. -/
def LinksFile (s s' : FileTables FsKernel) (t res i : U64) : Prop :=
  ∃ filp : OpenFile, filp.inode = i ∧ res = filp.fd.setWidth 64 ∧
    s'.filesLh = Function.update s.filesLh t (s.filesLh t ++ [filp])

theorem openExisting_links (h : s.kernel.RamfsTree) {i : U64} (hi : s.kernel.Known i)
    (hc : (calls fuel r).openExisting s t i flags = .ok (res, s')) :
    SameTree s.kernel s'.kernel ∧ LinksFile s s' t res i := by
  obtain ⟨⟨filp, s₁⟩, hlink, hc⟩ := bind_eq_ok hc
  obtain ⟨-, hinode, -, halloc, hlists⟩ := KernelCalls.linkFile_ok hlink
  have hsame := h.fileAlloc halloc
  dsimp only at hc
  split at hc
  · next hflags =>
    obtain ⟨⟨n, k₂⟩, htruncate, hc⟩ := bind_eq_ok hc
    have hknown : s₁.kernel.Known filp.inode := by
      rw [hinode, hsame.known_iff]
      exact hi
    have htype : (s₁.kernel.inode filp.inode).type = inodeRegularFile := by
      rw [hinode]
      exact hflags.1
    obtain ⟨rfl, hsame'⟩ := (hsame.ramfsTree h).vfsFtruncate hknown htype htruncate
    cases hc
    exact ⟨hsame.trans hsame', filp, hinode, rfl, hlists⟩
  · cases hc
    exact ⟨hsame, filp, hinode, rfl, hlists⟩

theorem RamfsTree.sysOpen_found (h : s.kernel.RamfsTree) {p : Position U64 U64}
    (ho : s.kernel.tree.resolve path = .found p)
    (hc : (calls fuel r).sysOpen s t path flags = .ok (res, s')) :
    SameTree s.kernel s'.kernel ∧ LinksFile s s' t res p.inode := by
  obtain ⟨r', hr, hrep⟩ := h.onRamfs.vfsResolve_reports h.toInv fuel r path
  rw [ho, Reports] at hrep
  have hfound := (vfsResolve_resolved h.toInv hr).found (by rw [hrep])
  obtain ⟨⟨r₁, k₁⟩, hr₁, hc⟩ := bind_eq_ok hc
  cases hr.symm.trans hr₁
  rw [hrep] at hc hfound
  exact openExisting_links h hfound hc

end Open

end Calls

end FsKernel

open FsKernel

/-- The components of the path have room in the name of a dentry. -/
def Short (path : List U8) : Prop :=
  ∀ w ∈ components slash (cString path), w.length ≤ dentryMaxNameLength

instance (path : List U8) : Decidable (Short path) :=
  inferInstanceAs (Decidable (∀ w ∈ components slash (cString path), _))

/-- OPEN with `O_CREAT`, by the task at `t`, and MKDIR. -/
inductive TreeCall where
  | openCreat (t : U64) (path : List U8) (flags : U64) (creat : flags &&& oCreat ≠ 0)
  | mkdir (path : List U8)

namespace TreeCall

def path : TreeCall → List U8
  | openCreat _ path _ _ => path
  | mkdir path => path

/-- The type of the inode that the call creates. -/
def kind : TreeCall → U8
  | openCreat _ _ _ _ => inodeRegularFile
  | mkdir _ => inodeDirectory

def run (fuel : Nat) (r : VfsLookupResult) (s : FileTables FsKernel) :
    TreeCall → Except Crash (U64 × FileTables FsKernel)
  | openCreat t path flags _ => (calls fuel r).sysOpen s t path flags
  | mkdir path => do
    let (res, kernel) ← s.kernel.sysMkdir fuel r path
    .ok (res, { s with kernel })

/-- What a call does to the tree. -/
inductive Done (c : TreeCall) (k k' : FsKernel) (res : U64) : Prop
  | kept (same : SameTree k k')
      (result : res.toInt < 0 ∨ ∃ p, k.tree.resolve c.path = .found p)
  | created {k₁ : FsKernel} {p : Position U64 U64} {w : List U8} {d i : U64}
      (missing : k.tree.resolve c.path = .missing p w) (name : cString w = w)
      (object : NewObject k k₁ p.inode d i w c.kind) (same : SameTree k₁ k')
      (records : k'.fs.ramfsInodes = k₁.fs.ramfsInodes)

variable {c : TreeCall} {fuel : Nat} {r : VfsLookupResult} {s s' : FileTables FsKernel}
  {res : U64}

theorem openCreat_done (h : s.kernel.RamfsTree) {t flags : U64} {path : List U8}
    (hcreat : flags &&& oCreat ≠ 0)
    (hc : (calls fuel r).sysOpen s t path flags = .ok (res, s')) :
    Done (.openCreat t path flags hcreat) s.kernel s'.kernel res := by
  obtain ⟨r', hr, hrep⟩ := h.onRamfs.vfsResolve_reports h.toInv fuel r path
  have hopen := hc
  obtain ⟨⟨r₁, k₁⟩, hr₁, hc⟩ := bind_eq_ok hc
  cases hr.symm.trans hr₁
  cases ho : s.kernel.tree.resolve path with
  | found p => exact .kept (h.sysOpen_found ho hopen).1 (.inr ⟨p, ho⟩)
  | notDirectory =>
    rw [ho, Reports] at hrep
    rw [hrep] at hc
    cases hc
    exact .kept h.refl (.inl (by decide))
  | noEntry =>
    rw [ho, Reports] at hrep
    rw [hrep] at hc
    cases hc
    exact .kept h.refl (.inl (by decide))
  | missing p w =>
    rw [ho, Reports] at hrep
    obtain ⟨hr', -, hname⟩ := hrep
    have hstatus : r'.status = vfsResolveSuccessDoesntExist := by rw [hr']
    have hparent : r'.parentDirectory = p.inode := by rw [hr']
    have hcreate : (calls fuel r).openCreated s t p.inode r'.nameStart = .ok (res, s') := by
      dsimp only at hc
      rw [hstatus, hparent] at hc
      exact (if_pos hcreat).symm.trans hc
    obtain ⟨⟨i, k₂⟩, hcreate, hlink⟩ := bind_eq_ok hcreate
    obtain ⟨hnz, d, hnew⟩ := h.vfsCreate (h.toInv.missing ho).1 hcreate
    rw [hname] at hnew
    obtain ⟨⟨filp, s₁⟩, hlink, hfd⟩ := bind_eq_ok ((if_neg hnz).symm.trans hlink)
    cases hfd
    have hw : cString w = w := by rw [← hname, cString_cString]
    obtain ⟨hknown, hd, hnone⟩ := h.toInv.missing ho
    have htree := hnew.ramfsTree h hknown hd hw (not_mem_names hnone)
    have halloc := (KernelCalls.linkFile_ok hlink).2.2.2.1
    exact .created ho hw hnew (htree.fileAlloc halloc) (fileAlloc_records halloc)

theorem mkdir_done (h : s.kernel.RamfsTree) {path : List U8} {k' : FsKernel}
    (hc : s.kernel.sysMkdir fuel r path = .ok (res, k')) : Done (.mkdir path) s.kernel k' res := by
  obtain ⟨r', hr, hrep⟩ := h.onRamfs.vfsResolve_reports h.toInv fuel r path
  obtain ⟨⟨r₁, k₁⟩, hr₁, hc⟩ := bind_eq_ok hc
  cases hr.symm.trans hr₁
  cases ho : s.kernel.tree.resolve path with
  | found p =>
    rw [ho, Reports] at hrep
    rw [hrep] at hc
    cases hc
    exact .kept h.refl (.inr ⟨p, ho⟩)
  | notDirectory =>
    rw [ho, Reports] at hrep
    rw [hrep] at hc
    cases hc
    exact .kept h.refl (.inl (by decide))
  | noEntry =>
    rw [ho, Reports] at hrep
    rw [hrep] at hc
    cases hc
    exact .kept h.refl (.inl (by decide))
  | missing p w =>
    rw [ho, Reports] at hrep
    obtain ⟨hr', -, hname⟩ := hrep
    have hstatus : r'.status = vfsResolveSuccessDoesntExist := by rw [hr']
    have hparent : r'.parentDirectory = p.inode := by rw [hr']
    have hlength : r'.nameLength = w.length := by rw [hr']
    have hw : cString w = w := by rw [← hname, cString_cString]
    have htake : r'.nameStart.take w.length = w := by
      rw [← hname]
      exact List.prefix_iff_eq_take.mp (List.takeWhile_prefix _) |>.symm
    dsimp only at hc
    rw [hstatus, hparent, hlength, htake] at hc
    obtain ⟨⟨i, k₂⟩, hcreate, hfinish⟩ := bind_eq_ok hc
    cases hfinish
    obtain ⟨hknown, hd, hnone⟩ := h.toInv.missing ho
    obtain ⟨-, d, hnew⟩ := h.vfsMkdir hknown hcreate
    rw [hw] at hnew
    exact .created ho hw hnew (hnew.ramfsTree h hknown hd hw (not_mem_names hnone)).refl rfl

theorem done (h : s.kernel.RamfsTree) (hc : c.run fuel r s = .ok (res, s')) :
    c.Done s.kernel s'.kernel res := by
  cases c with
  | openCreat t path flags hcreat => exact openCreat_done h hcreat hc
  | mkdir path =>
    obtain ⟨⟨n, kernel⟩, hmkdir, hc⟩ := bind_eq_ok hc
    cases hc
    exact mkdir_done h hmkdir

theorem Done.ramfsTree {k k' : FsKernel} (h : k.RamfsTree) (hd : c.Done k k' res) :
    k'.RamfsTree := by
  cases hd with
  | kept same _ => exact same.ramfsTree h
  | created missing name object same _ =>
    obtain ⟨hknown, hdir, hnone⟩ := h.toInv.missing missing
    exact same.ramfsTree (object.ramfsTree h hknown hdir name (not_mem_names hnone))

end TreeCall

/-- A call on a path whose components have room. -/
def TreeStep (s s' : FileTables FsKernel) : Prop :=
  ∃ (c : TreeCall) (fuel : Nat) (r : VfsLookupResult) (res : U64),
    Short c.path ∧ c.run fuel r s = .ok (res, s')

/-- What the kernel starts with: free pages in its half of the memory, and a root
directory that is on none of them. -/
structure TreeBoot where
  memory : BootMemory
  kernelHalf : ∀ p ∈ memory.supply.pages, userEnd ≤ p.toNat
  root : U64
  outside : root &&& pageAddressMask ∉ memory.supply.pages
  superblocks : U64 → FsType
  superblock : U64
  superblock_ne : superblock ≠ 0
  ramfs : superblocks superblock = .ramfs
  rootInode : memory.inodes root = ⟨inodeDirectory, superblock, 0, []⟩
  exfatInodes : U64 → ExfatNode
  exfatFileClusters : U64 → ExfatFileCluster
  disk : Nat → U8
  stalePage : Nat → U8
  fileLengths : U64 → U64

namespace TreeBoot

def kernel (b : TreeBoot) : FsKernel where
  fs := Ramfs.init b.memory
  files := slabOf 40
  exfatInodes := Slab.init 24 b.exfatInodes
  exfatFileClusters := Slab.init 32 b.exfatFileClusters
  superblocks := b.superblocks
  statics := [b.root]
  fileLengths := b.fileLengths
  vfsRootInode := b.root
  disk := b.disk
  stalePage := b.stalePage

theorem known_iff (b : TreeBoot) (i : U64) : b.kernel.Known i ↔ i = b.root := by
  constructor
  · rintro (h | h)
    · exact absurd h List.not_mem_nil
    · exact List.mem_singleton.mp h
  · rintro rfl
    exact .inr (List.mem_singleton_self _)

theorem root_inode (b : TreeBoot) :
    b.kernel.inode b.root = ⟨inodeDirectory, b.superblock, 0, []⟩ := b.rootInode

theorem ramfsTree (b : TreeBoot) : b.kernel.RamfsTree where
  inodes := .init (by decide) (by decide) _
  dentries := .init (by decide) (by decide) _
  exfatInodes := .init (by decide) (by decide) _
  exfatFileClusters := .init (by decide) (by decide) _
  files := .init (by decide) (by decide)
  filesFresh _ _ := List.not_mem_nil
  statics y hy := by
    obtain rfl := List.mem_singleton.mp hy
    exact ⟨b.outside, List.not_mem_nil, List.not_mem_nil⟩
  dentryPages := ⟨b.kernelHalf, fun _ hp => absurd hp List.not_mem_nil, rfl⟩
  root := (b.known_iff _).mpr rfl
  privates y hy hexfat := by
    obtain rfl := (b.known_iff y).mp hy
    obtain ⟨sb, partition, hexfat⟩ := hexfat
    rw [typeOf, b.root_inode] at hexfat
    cases b.ramfs.symm.trans hexfat
  entries y hy _ d hd := by
    obtain rfl := (b.known_iff y).mp hy
    rw [b.root_inode] at hd
    exact absurd hd List.not_mem_nil
  onRamfs y hy := by
    obtain rfl := (b.known_iff y).mp hy
    rw [typeOf, b.root_inode]
    exact b.ramfs
  mounted y hy := by
    obtain rfl := (b.known_iff y).mp hy
    rw [b.root_inode]
    exact b.superblock_ne
  records := .init (by decide) (by decide) _
  unused := .init _ _ _
  regular y hy hregular := by
    obtain rfl := (b.known_iff y).mp hy
    rw [b.root_inode] at hregular
    exact absurd (a := inodeDirectory = inodeRegularFile) hregular (by decide)
  unique y hy _ := by
    obtain rfl := (b.known_iff y).mp hy
    rw [b.root_inode]
    exact List.nodup_nil

end TreeBoot

/-- The states that the calls reach from an empty tree without open files. -/
def TreeReachable (b : TreeBoot) : FileTables FsKernel → Prop :=
  Relation.ReflTransGen TreeStep ⟨b.kernel, fun _ => []⟩

theorem TreeReachable.ramfsTree {b : TreeBoot} {s : FileTables FsKernel} (h : TreeReachable b s) :
    s.kernel.RamfsTree := by
  induction h with
  | refl => exact b.ramfsTree
  | tail _ hstep ih =>
    obtain ⟨c, fuel, r, res, -, hrun⟩ := hstep
    exact (TreeCall.done ih hrun).ramfsTree ih

/-- A file without clusters or a directory without entries. -/
structure EmptyObject (k : FsKernel) (i : U64) (kind : U8) : Prop where
  type : (k.inode i).type = kind
  entries : (k.inode i).dentries = []
  record : kind = inodeRegularFile →
    k.fs.ramfsInodes.objects (k.inode i).privateData = clearedRamfsInode

/-- The object at `i` is new, and all that has changed for the paths is that `path` leads
to it. -/
structure Created (s s' : FileTables FsKernel) (path : List U8) (kind : U8) (i : U64) : Prop where
  new : ¬s.kernel.Known i
  known : s'.kernel.Known i
  empty : EmptyObject s'.kernel i kind
  resolves : ∀ fuel r, s'.kernel.ResolvesTo fuel r path i
  kept : ∀ q j fuel r fuel' r', s.kernel.ResolvesTo fuel r q j →
    s'.kernel.ResolvesTo fuel' r' q j
  reopens : ∀ fuel r t flags res s'', (calls fuel r).sysOpen s' t path flags = .ok (res, s'') →
    LinksFile s' s'' t res i ∧ s''.kernel.tree = s'.kernel.tree

theorem TreeCall.Done.creates {c : TreeCall} {s s' : FileTables FsKernel} {fuel : Nat}
    {r : VfsLookupResult} {res : U64} (h : s.kernel.RamfsTree)
    (hd : c.Done s.kernel s'.kernel res) (hres : ¬res.toInt < 0)
    (hnew : ∀ i, ¬s.kernel.ResolvesTo fuel r c.path i) : ∃ i, Created s s' c.path c.kind i := by
  have htree := hd.ramfsTree h
  cases hd with
  | kept same result =>
    obtain ⟨p, hp⟩ := result.resolve_left hres
    exact absurd (h.resolvesTo_iff.mpr ⟨p, hp, rfl⟩) (hnew p.inode)
  | @created k₁ p w d i missing name object same records =>
    obtain ⟨hknown, hdir, hnone⟩ := h.toInv.missing missing
    have hadds := object.adds h.toInv hknown hdir name hnone
    have hroot : k₁.tree.root = s.kernel.tree.root := by
      have hh : k₁.tree.vfsRootInode = s.kernel.tree.vfsRootInode := object.root
      rw [VfsTree.root, VfsTree.root, hh]
    have hfound : s'.kernel.tree.resolve c.path = .found (k₁.tree.directories.follow p d) := by
      have hh := hadds.walk_missing h.root missing rfl
      rw [same.tree, VfsTree.resolve, hroot]
      exact hh
    have hbehind : (k₁.tree.directories.follow p d).inode = i := object.behind
    refine ⟨i, object.newInode, ?_, ⟨?_, ?_, ?_⟩, ?_, ?_, ?_⟩
    · rw [same.known_iff, object.known_iff]
      exact .inl rfl
    · rw [same.inode, object.type]
    · rw [same.inode, object.empty]
    · intro hk
      rw [same.inode, records]
      exact (object.record hk).2
    · exact fun fuel r => htree.resolvesTo_iff.mpr ⟨_, hfound, hbehind⟩
    · intro q j fuel r fuel' r' hq
      obtain ⟨p, hp, rfl⟩ := h.resolvesTo_iff.mp hq
      refine htree.resolvesTo_iff.mpr ⟨p, ?_, rfl⟩
      have hh := hadds.walk_found h.root hp
      rw [same.tree, VfsTree.resolve, hroot]
      exact hh
    · intro fuel r t flags res s'' hopen
      obtain ⟨hsame, hlinks⟩ := htree.sysOpen_found hfound hopen
      exact ⟨hbehind ▸ hlinks, hsame.tree⟩

/-- Create, then resolve. -/
theorem create_then_resolve {b : TreeBoot} {s : FileTables FsKernel} (h : TreeReachable b s) :
    (∀ dir, s.kernel.Known dir → (s.kernel.inode dir).type = inodeDirectory →
      ((s.kernel.inode dir).dentries.map s.kernel.nameOf).Nodup) ∧
    ∀ (c : TreeCall) fuel r res s', Short c.path → c.run fuel r s = .ok (res, s') →
      ¬res.toInt < 0 → (∀ i, ¬s.kernel.ResolvesTo fuel r c.path i) →
      ∃ i, Created s s' c.path c.kind i := by
  have htree := h.ramfsTree
  refine ⟨htree.unique, ?_⟩
  intro c fuel r res s' _ hrun hres hnew
  exact (TreeCall.done htree hrun).creates htree hres hnew

/-- The memory of `bare`. -/
def bareBoot : TreeBoot where
  memory := {
    supply := bare.fs.supply
    inodes := bare.fs.inodes.objects
    dentries := bare.fs.dentries.objects
    ramfsInodes := bare.fs.ramfsInodes.objects
    ramfsClusters := bare.fs.ramfsClusters.objects }
  kernelHalf := bare_slabs.dentryPages.supply
  root := rootAddress
  outside := (bare_slabs.statics rootAddress (List.mem_singleton_self _)).supply
  superblocks := bare.superblocks
  superblock := 0x8000
  superblock_ne := by decide
  ramfs := rfl
  rootInode := rfl
  exfatInodes := bare.exfatInodes.objects
  exfatFileClusters := bare.exfatFileClusters.objects
  disk := bare.disk
  stalePage := bare.stalePage
  fileLengths := bare.fileLengths

/-- `open("/z", O_CREAT)`. -/
def openZ : TreeCall := .openCreat 0 [slash, 0x7A] oCreat (by decide)

theorem create_then_resolve_z : ∃ s' i,
    openZ.run 0 noResult ⟨bareBoot.kernel, fun _ => []⟩ = .ok (0, s') ∧
      Created ⟨bareBoot.kernel, fun _ => []⟩ s' [slash, 0x7A] inodeRegularFile i := by
  have hrun : (openZ.run 0 noResult ⟨bareBoot.kernel, fun _ => []⟩).map (·.1) = .ok 0 := by
    decide +kernel
  have hresolve : (bareBoot.kernel.vfsResolve 0 [slash, 0x7A] noResult).map (·.1.status) =
      .ok vfsResolveSuccessDoesntExist := by decide +kernel
  have hreach : TreeReachable bareBoot ⟨bareBoot.kernel, fun _ => []⟩ := .refl
  have hnew : ∀ i, ¬bareBoot.kernel.ResolvesTo 0 noResult openZ.path i := by
    rintro i ⟨r', hr', hstatus, -⟩
    have hr' : bareBoot.kernel.vfsResolve 0 [slash, 0x7A] noResult = .ok (r', bareBoot.kernel) := hr'
    rw [hr'] at hresolve
    exact absurd (hstatus.symm.trans (Except.ok.inj hresolve)) (by decide)
  cases hs' : openZ.run 0 noResult ⟨bareBoot.kernel, fun _ => []⟩ with
  | error e =>
    rw [hs'] at hrun
    cases hrun
  | ok out =>
    obtain ⟨res, s'⟩ := out
    rw [hs'] at hrun
    obtain rfl : res = 0 := Except.ok.inj hrun
    obtain ⟨i, hi⟩ := (create_then_resolve hreach).2 openZ 0 noResult 0 s' (by decide +kernel)
      hs' (by decide) hnew
    exact ⟨s', i, rfl, hi⟩

end Persistos
