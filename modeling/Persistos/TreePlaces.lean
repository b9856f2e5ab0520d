import Persistos.MkdirCalls
import Persistos.RamfsLinks

/-! Directories in RAM that one path leads to, and how the tree grows below them by one object
after the other. -/

namespace Persistos

open Theory

namespace FsKernel

variable {k k' k'' : FsKernel} {us ws : List (List U8)} {w : List U8} {i j : U64}

/-- The inode that a list of names leads to from the root. -/
def locate (k : FsKernel) (ws : List (List U8)) : Option U64 :=
  k.tree.directories.reach k.vfsRootInode ws

theorem Inv.locate_known (h : k.Inv) (hl : k.locate ws = some i) : k.Known i :=
  Directories.reach_mem h.closed h.root hl

theorem StillAlong.append (hs : k.StillAlong i us) (hr : k.tree.directories.reach i us = some j)
    (hs' : k.StillAlong j ws) : k.StillAlong i (us ++ ws) := by
  induction us generalizing i with
  | nil => exact Option.some.inj hr ▸ hs'
  | cons n us ih =>
    intro hdir d he
    obtain ⟨hlookup, hs⟩ := hs hdir d he
    rw [Directories.reach_cons (decide_eq_true hdir), he] at hr
    exact ⟨hlookup, ih hs hr⟩

/-- A directory in RAM that these names alone lead to, with nothing to load on the way. -/
structure Place (k : FsKernel) (ws : List (List U8)) (i : U64) : Prop where
  leads : k.locate ws = some i
  directory : (k.inode i).type = inodeDirectory
  onRamfs : k.typeOf i = .ramfs
  mounted : (k.inode i).superblock ≠ 0
  only : ∀ us, k.locate us = some i → us = ws
  still : k.StillAlong k.vfsRootInode ws

namespace Place

theorem entry_none (h : Place k us i) (hn : k.locate (us ++ [w]) = none) :
    k.tree.directories.entry i w = none := by
  have hleads : k.tree.directories.reach k.vfsRootInode us = some i := h.leads
  rw [locate, Directories.reach_append, hleads, Option.bind_some,
    Directories.reach_cons (decide_eq_true h.directory)] at hn
  cases he : k.tree.directories.entry i w with
  | none => rfl
  | some e =>
    rw [he] at hn
    cases hn

/-- The path of a missing name resolves to its place. -/
theorem resolve (h : Place k us i) (hn : k.locate (us ++ [w]) = none) {path : List U8}
    (hpath : components slash (cString path) = us ++ [w])
    (hend : endsIn slash (cString path) = false) (fuel : Nat) (r : VfsLookupResult) :
    ∃ r', k.vfsResolve fuel path r = .ok (r', k) ∧
      r'.status = vfsResolveSuccessDoesntExist ∧ r'.parentDirectory = i ∧
      r'.nameStart.take r'.nameLength = w ∧ cString w = w := by
  have hnone := h.entry_none hn
  have hstill : k.StillAlong k.vfsRootInode (components slash (cString path)) := by
    rw [hpath]
    refine h.still.append h.leads fun _ d he => ?_
    cases hnone.symm.trans he
  obtain ⟨r', hr, hrep⟩ := hstill.vfsResolve_reports fuel r
  obtain ⟨q, hq, hqi⟩ := Directories.walk_missing_of_reach (p := k.tree.root) h.leads
    (decide_eq_true h.directory) hnone
  have ho : k.tree.resolve path = .missing q w := by
    rw [VfsTree.resolve, hpath, hend, Bool.and_false]
    exact hq
  rw [ho, Reports] at hrep
  obtain ⟨hr', -, hname⟩ := hrep
  refine ⟨r', hr, by rw [hr'], by rw [hr', hqi], ?_, ?_⟩
  · have hlength : r'.nameLength = w.length := by rw [hr']
    rw [hlength, ← hname]
    exact (List.prefix_iff_eq_take.mp (List.takeWhile_prefix _)).symm
  · rw [← hname, cString_cString]

end Place

/-- `k'` is `k` with one object more, at the end of the path `ws`. -/
structure PathAdded (k k' : FsKernel) (ws : List (List U8)) (j : U64) : Prop where
  inv : k'.Inv
  new : ¬k.Known j
  inodeSlots : k'.inodeSlots.Perm (j :: k.inodeSlots)
  dentrySlots : ∃ d, k'.dentrySlots.Perm (d :: k.dentrySlots)
  statics : k'.statics = k.statics
  superblocks : k'.superblocks = k.superblocks
  locate : ∀ us y, k'.locate us = some y ↔ k.locate us = some y ∨ us = ws ∧ y = j
  inodes : ∀ y, k.Known y →
    k'.inode y = { k.inode y with dentries := (k'.inode y).dentries }
  still : ∀ us, k.StillAlong k.vfsRootInode us → k'.StillAlong k'.vfsRootInode us
  stillNew : k'.StillAlong k'.vfsRootInode ws

theorem NewObject.entry_only {d : U64} {kind : U8} (h : NewObject k k' i d j w kind) (hk : k.Inv)
    (hw : cString w = w) {y e : U64} {n : List U8} (hy : k.Known y)
    (hd : k.tree.directories.isDir y = true) (he : k'.tree.directories.entry y n = some e) :
    k.tree.directories.entry y n = some e ∨ y = i ∧ n = w ∧ e = d := by
  have hdir : (k.inode y).type = inodeDirectory := of_decide_eq_true hd
  refine (h.entry_cases hk hy hdir he).imp_right ?_
  rintro rfl
  refine ⟨?_, ?_, rfl⟩
  · by_contra hne
    have hmem : e ∈ (k'.inode y).dentries := List.mem_of_find?_eq_some he
    rw [h.kept y hy hne] at hmem
    exact h.newDentry (hk.entries y hy hdir e hmem).1
  · have hfound := List.find?_some (p := fun c => cString (k'.fs.dentries.objects c).name = n) he
    have hname : cString (k'.fs.dentries.objects e).name = n := of_decide_eq_true hfound
    rw [← hname, h.name, hw]

/-- A new object in a place extends the tree by its path. -/
theorem NewObject.pathAdded {d : U64} {kind : U8} (h : NewObject k k' i d j w kind) (hk : k.Inv)
    (hp : Place k us i) (hw : cString w = w) (hn : k.locate (us ++ [w]) = none) :
    PathAdded k k' (us ++ [w]) j := by
  have hi := hk.locate_known hp.leads
  have hnone := hp.entry_none hn
  have hadds := h.adds hk hi hp.directory hw hnone
  have hleaf : ∀ n, k'.tree.directories.entry (k'.tree.directories.target d) n = none := by
    intro n
    have hempty : (k'.tree.inodes (k'.tree.behind d)).dentries = [] := by
      rw [h.behind]
      exact h.empty
    change (k'.tree.inodes (k'.tree.behind d)).dentries.find? _ = none
    rw [hempty]
    rfl
  have hlocate : ∀ vs y, k'.locate vs = some y ↔ k.locate vs = some y ∨ vs = us ++ [w] ∧ y = j := by
    intro vs y
    rw [FsKernel.locate, h.root, hadds.reach_iff (decide_eq_true hp.directory) hnone
      (fun _ _ _ hy hd he => h.entry_only hk hw hy hd he) hleaf hk.root]
    refine or_congr Iff.rfl ⟨?_, ?_⟩
    · rintro ⟨vs', rfl, hvs, rfl⟩
      exact ⟨by rw [hp.only vs' hvs], h.behind⟩
    · rintro ⟨rfl, rfl⟩
      exact ⟨us, rfl, hp.leads, h.behind.symm⟩
  have hstill : ∀ vs, k.StillAlong k.vfsRootInode vs → k'.StillAlong k'.vfsRootInode vs := by
    intro vs hvs
    rw [h.root]
    exact h.stillAlong hk hp.onRamfs hk.root hvs
  refine ⟨h.inv hk hi hp.onRamfs, h.newInode, h.inodeSlots, ⟨d, h.dentrySlots⟩, h.statics,
    h.superblocks, hlocate, fun y hy => ?_, hstill, ?_⟩
  · by_cases hyi : y = i
    · rw [hyi, h.parent]
    · rw [h.kept y hy hyi]
  · refine (hstill us hp.still).append ((hlocate us i).mpr (.inl hp.leads)) fun hdir e he => ?_
    rcases h.entry_only hk hw hi (decide_eq_true hp.directory) he with hold | ⟨-, -, rfl⟩
    · cases hnone.symm.trans hold
    · rw [h.behind]
      exact ⟨(Settled.of_ramfs (h.typeOf_new.trans hp.onRamfs)).lookup, trivial⟩

theorem PathAdded.type (h : PathAdded k k' ws j) {y : U64} (hy : k.Known y) :
    (k'.inode y).type = (k.inode y).type := by rw [h.inodes y hy]

theorem PathAdded.superblock (h : PathAdded k k' ws j) {y : U64} (hy : k.Known y) :
    (k'.inode y).superblock = (k.inode y).superblock := by rw [h.inodes y hy]

theorem PathAdded.typeOf (h : PathAdded k k' ws j) {y : U64} (hy : k.Known y) :
    k'.typeOf y = k.typeOf y := by
  rw [FsKernel.typeOf, FsKernel.typeOf, h.superblock hy, h.superblocks]

theorem PathAdded.known (h : PathAdded k k' ws j) {y : U64} (hy : k.Known y) : k'.Known y := by
  rw [Known, h.inodeSlots.mem_iff, List.mem_cons, h.statics, or_assoc]
  exact .inr hy

/-- The places stay. -/
theorem Place.of_pathAdded (hp : Place k us i) (h : PathAdded k k' ws j) (hk : k.Inv) :
    Place k' us i := by
  have hi := hk.locate_known hp.leads
  refine ⟨(h.locate us i).mpr (.inl hp.leads), ?_, ?_, ?_, fun vs hvs => ?_, h.still us hp.still⟩
  · rw [h.type hi]
    exact hp.directory
  · rw [h.typeOf hi]
    exact hp.onRamfs
  · rw [h.superblock hi]
    exact hp.mounted
  · rcases (h.locate vs i).mp hvs with hvs | ⟨-, rfl⟩
    · exact hp.only vs hvs
    · exact absurd hi h.new

/-- A new directory is a place. -/
theorem PathAdded.place (h : PathAdded k k' ws j) (hk : k.Inv) (hdir : (k'.inode j).type = inodeDirectory)
    (htype : k'.typeOf j = .ramfs) (hmounted : (k'.inode j).superblock ≠ 0) : Place k' ws j := by
  refine ⟨(h.locate ws j).mpr (.inr ⟨rfl, rfl⟩), hdir, htype, hmounted, fun vs hvs => ?_, h.stillNew⟩
  rcases (h.locate vs j).mp hvs with hvs | ⟨rfl, -⟩
  · exact absurd (hk.locate_known hvs) h.new
  · rfl

/-- What the calls on open files leave of the tree. -/
structure TreeKept (k k' : FsKernel) : Prop where
  inodes : k'.fs.inodes = k.fs.inodes
  dentries : k'.fs.dentries = k.fs.dentries
  exfatInodes : k'.exfatInodes = k.exfatInodes
  superblocks : k'.superblocks = k.superblocks
  root : k'.vfsRootInode = k.vfsRootInode

namespace TreeKept

theorem refl (k : FsKernel) : TreeKept k k := ⟨rfl, rfl, rfl, rfl, rfl⟩

theorem trans (h : TreeKept k k') (h' : TreeKept k' k'') : TreeKept k k'' where
  inodes := h'.inodes.trans h.inodes
  dentries := h'.dentries.trans h.dentries
  exfatInodes := h'.exfatInodes.trans h.exfatInodes
  superblocks := h'.superblocks.trans h.superblocks
  root := h'.root.trans h.root

theorem tree (h : TreeKept k k') : k'.tree = k.tree := by
  rw [FsKernel.tree, h.inodes, h.dentries, h.root]
  rfl

theorem inode (h : TreeKept k k') (y : U64) : k'.inode y = k.inode y := by
  rw [FsKernel.inode, h.inodes]
  rfl

theorem typeOf (h : TreeKept k k') (y : U64) : k'.typeOf y = k.typeOf y := by
  rw [FsKernel.typeOf, FsKernel.typeOf, h.inode, h.superblocks]

theorem settled (h : TreeKept k k') {y : U64} (hy : k.Settled y) : k'.Settled y := by
  rw [Settled, OnExfat, h.typeOf, h.inode, h.exfatInodes]
  exact hy

theorem stillAlong (h : TreeKept k k') {i : U64} {ws : List (List U8)} (hs : k.StillAlong i ws) :
    k'.StillAlong i ws := by
  induction ws generalizing i with
  | nil => trivial
  | cons n ws ih =>
    intro hdir d he
    rw [h.inode] at hdir
    rw [h.tree] at he ⊢
    obtain ⟨hlookup, hs⟩ := hs hdir d he
    exact ⟨(h.settled (settled_iff.mpr hlookup)).lookup, ih hs⟩

end TreeKept

theorem Place.kept (hp : Place k us i) (h : TreeKept k k') : Place k' us i where
  leads := by
    rw [locate, h.tree, h.root]
    exact hp.leads
  directory := by
    rw [h.inode]
    exact hp.directory
  onRamfs := (h.typeOf i).trans hp.onRamfs
  mounted := by
    rw [h.inode]
    exact hp.mounted
  only us hus := by
    rw [locate, h.tree, h.root] at hus
    exact hp.only us hus
  still := by
    rw [h.root]
    exact h.stillAlong hp.still

theorem TreeKept.of_recordStep {fs : Ramfs} {e : U64} (h : RecordStep k.fs fs e) :
    TreeKept k { k with fs } := ⟨h.inodes, h.dentries, rfl, rfl, rfl⟩

theorem StillAlong.of_recordStep {fs : Ramfs} {e : U64} (hs : k.StillAlong i ws)
    (hstep : RecordStep k.fs fs e) : { k with fs }.StillAlong i ws :=
  (TreeKept.of_recordStep hstep).stillAlong hs

/-- What is written to a file afterwards leaves the tree. -/
theorem PathAdded.of_recordStep {fs : Ramfs} {e : U64} (h : PathAdded k k' ws j)
    (hstep : RecordStep k'.fs fs e) : PathAdded k { k' with fs } ws j where
  inv := h.inv.of_recordStep hstep
  new := h.new
  inodeSlots := by
    rw [FsKernel.inodeSlots, hstep.inodes]
    exact h.inodeSlots
  dentrySlots := by
    rw [FsKernel.dentrySlots, hstep.dentries]
    exact h.dentrySlots
  statics := h.statics
  superblocks := h.superblocks
  locate us y := by
    rw [FsKernel.locate, tree, hstep.inodes, hstep.dentries]
    exact h.locate us y
  inodes y hy := by
    rw [inode, hstep.inodes]
    exact h.inodes y hy
  still us hs := (h.still us hs).of_recordStep hstep
  stillNew := h.stillNew.of_recordStep hstep

end FsKernel

end Persistos
