import Persistos.MountTrees
import Persistos.UserCalls

/-! MOUNT of an exFAT volume. It refuses and leaves all paths as they were, or its mountpoint
leads to the root of the volume. Over the root directory there is no entry to write to. -/

namespace Persistos

open Theory

namespace FsKernel

def kpageAlloc (k : FsKernel) : Except Crash (U64 × FsKernel) := do
  let (page, supply) ← k.fs.supply.alloc
  .ok (page, { k with fs := { k.fs with supply } })

def setSuperblock (k : FsKernel) (superblock : U64) (fsType : FsType) : FsKernel :=
  { k with superblocks := Function.update k.superblocks superblock fsType }

/-- The first page of a volume. -/
def page0 (k : FsKernel) (dev : NvmepartDevice) : Nat → U8 := k.deviceRead dev 0 4096 k.stalePage

def exfatSuperblock (k : FsKernel) (dev : NvmepartDevice) : ExfatSuperblock where
  fatOffset := le32 (k.page0 dev) 0x50
  clusterHeapOffset := le32 (k.page0 dev) 0x58
  bytesPerSectorExponent := k.page0 dev 0x6C
  sectorsPerClusterExponent := k.page0 dev 0x6D

def rootDirectoryLba (k : FsKernel) (dev : NvmepartDevice) : U32 :=
  (k.exfatSuperblock dev).clusterLba (le32 (k.page0 dev) 0x60)

/-- Whether `exfat_mount` finds its signature. -/
def signed (k : FsKernel) (dev : NvmepartDevice) : Bool :=
  memcmp ((ascii "EXFAT").getD · 0) (fun i => k.page0 dev (3 + i)) 5 = 0

/-- What `exfat_mount` allocates and fills in, with `vfs_root_inode`. The page of the
superblock of its own is the first one. -/
def exfatVolume (k : FsKernel) (dev : NvmepartDevice) : Except Crash (U64 × FsKernel) := do
  let sb := k.exfatSuperblock dev
  let exfatStartLba := k.rootDirectoryLba dev
  let (_, k) ← k.kpageAlloc
  let (vfsSuperblock, k) ← k.kpageAlloc
  let k := k.setSuperblock vfsSuperblock (.exfat sb dev)
  let (exfatInode, k) ← k.exfatInodeAlloc
  let k := k.modifyExfatInode exfatInode fun e => { e with exfatStartLba, loadNeeded := true }
  let (vfsRootInode, k) ← k.inodeAlloc
  .ok (vfsRootInode,
    k.modifyInode vfsRootInode fun _ => ⟨inodeDirectory, vfsSuperblock, exfatInode, []⟩)

/-- The partition behind an inode, if it has the type of a device and `device_type` is
`DEVICE_NVMEPART`. `partitions` is what there is at the `device` of such inodes. -/
def partition (k : FsKernel) (partitions : U64 → Option NvmepartDevice) (inode : U64) :
    Option NvmepartDevice :=
  if (k.inode inode).type = inodeDevice then partitions inode else none

def setMountedInode (k : FsKernel) (d mountedInode : U64) : FsKernel :=
  k.modifyDentry d fun dentry => { dentry with mountedInode }

def exfatMount (k : FsKernel) (partitions : U64 → Option NvmepartDevice)
    (deviceInode mountpointDentry : U64) : Except Crash (U64 × FsKernel) :=
  match k.partition partitions deviceInode with
  | none => .ok (-10, k)
  | some dev =>
    if k.signed dev then do
      let (vfsRootInode, k) ← k.exfatVolume dev
      -- the store to a member of the dentry that `NULL` would be
      if mountpointDentry = 0 then .error .outOfBounds
      else .ok (0, k.setMountedInode mountpointDentry vfsRootInode)
    else .ok (-11, k)

/-- MOUNT with both paths resolved. -/
def mountResolved (k : FsKernel) (partitions : U64 → Option NvmepartDevice)
    (deviceLookupResult mountpointLookupResult : VfsLookupResult) (fsType : List U8) :
    Except Crash (U64 × FsKernel) :=
  if mountpointLookupResult.status ≠ vfsResolveSuccessExists then .ok (-2, k)
  else if (k.inode mountpointLookupResult.inode).type ≠ inodeDirectory then .ok (-3, k)
  else if strcmp fsType (ascii "exfat") = 0 then
    k.exfatMount partitions deviceLookupResult.inode mountpointLookupResult.dentry
  else .ok (-4, k)

/-- The two results are what the stack holds at first. -/
def sysMount (k : FsKernel) (partitions : U64 → Option NvmepartDevice) (fuel : Nat)
    (deviceLookupResult mountpointLookupResult : VfsLookupResult)
    (devicePath mountpointPath fsType : List U8) : Except Crash (U64 × FsKernel) := do
  let (deviceLookupResult, k) ← k.vfsResolve fuel devicePath deviceLookupResult
  if deviceLookupResult.status ≠ vfsResolveSuccessExists then .ok (-1, k)
  else do
    let (mountpointLookupResult, k) ← k.vfsResolve fuel mountpointPath mountpointLookupResult
    k.mountResolved partitions deviceLookupResult mountpointLookupResult fsType

variable {k k' : FsKernel} {dev : NvmepartDevice} {i : U64}

/-- A root inode of the volume on a partition. -/
structure VolumeRoot (k : FsKernel) (dev : NvmepartDevice) (i : U64) : Prop where
  directory : (k.inode i).type = inodeDirectory
  volume : k.typeOf i = .exfat (k.exfatSuperblock dev) dev
  startLba : (k.exfatInodes.objects (k.inode i).privateData).exfatStartLba = k.rootDirectoryLba dev

/-- The volume is there, but nothing leads to it. -/
structure VolumeMade (k k' : FsKernel) (dev : NvmepartDevice) (i : U64) : Prop where
  slabs : k'.Slabs
  volumeRoot : k'.VolumeRoot dev i
  empty : (k'.inode i).dentries = []
  newInode : ¬k.Known i
  inodeSlots : k'.inodeSlots.Perm (i :: k.inodeSlots)
  kept : ∀ y, k.Known y → k'.inode y = k.inode y
  newExfat : (k'.inode i).privateData ∉ k.exfatSlots
  exfatSlots : k'.exfatSlots.Perm ((k'.inode i).privateData :: k.exfatSlots)
  exfat : ∀ y ∈ k.exfatSlots, k'.exfatInodes.objects y = k.exfatInodes.objects y
  freeBefore : (k'.inode i).superblock ∈ k.fs.supply.pages
  used : (k'.inode i).superblock ∉ k'.fs.supply.pages
  superblocks : ∀ y, y ≠ (k'.inode i).superblock → k'.superblocks y = k.superblocks y
  dentries : k'.fs.dentries = k.fs.dentries
  statics : k'.statics = k.statics
  root : k'.vfsRootInode = k.vfsRootInode
  records : k'.fs.ramfsInodes = k.fs.ramfsInodes
  supply : k'.fs.supply.pages ⊆ k.fs.supply.pages

theorem behind_setMountedInode_self (k : FsKernel) (d : U64) (hi : i ≠ 0) :
    (k.setMountedInode d i).tree.behind d = i := by
  have hmounted : ((k.setMountedInode d i).tree.dentries d).mountedInode = i :=
    congrArg Dentry.mountedInode (k.fs.dentries.modify_objects_self d fun dentry =>
      { dentry with mountedInode := i })
  rw [VfsTree.behind, hmounted, if_pos hi]

theorem behind_setMountedInode_ne (k : FsKernel) {c d : U64} (hc : c ≠ d) :
    (k.setMountedInode d i).tree.behind c = k.tree.behind c := by
  have hsame : (k.setMountedInode d i).tree.dentries c = k.tree.dentries c :=
    k.fs.dentries.modify_objects_ne hc fun dentry => { dentry with mountedInode := i }
  rw [VfsTree.behind, VfsTree.behind, hsame]

theorem nameOf_setMountedInode (k : FsKernel) (c d : U64) :
    (k.setMountedInode d i).nameOf c = k.nameOf c := by
  by_cases hc : c = d
  · subst hc
    have hself := k.fs.dentries.modify_objects_self c fun dentry =>
      { dentry with mountedInode := i }
    rw [nameOf, setMountedInode, modifyDentry, hself, nameOf]
  · exact nameOf_modifyDentry_ne k hc _

theorem kpageAlloc_ok {page : U64} (h : k.kpageAlloc = .ok (page, k')) :
    ∃ supply : PageSupply, k.fs.supply.pages = page :: supply.pages ∧ page ∉ supply.pages ∧
      k' = { k with fs := { k.fs with supply } } := by
  obtain ⟨⟨p, supply⟩, halloc, he⟩ := bind_eq_ok h
  simp only [Except.ok.injEq, Prod.mk.injEq] at he
  obtain ⟨rfl, rfl⟩ := he
  obtain ⟨hpages, -, hnew⟩ := PageSupply.alloc_ok halloc
  exact ⟨supply, hpages, hnew, rfl⟩

theorem Slabs.kpageAlloc {page : U64} (h : k.Slabs) (ha : k.kpageAlloc = .ok (page, k')) :
    k'.Slabs := by
  obtain ⟨supply, hpages, -, rfl⟩ := kpageAlloc_ok ha
  refine h.shrinkSupply ?_
  rw [hpages]
  exact List.subset_cons_self page _

theorem Slabs.exfatVolume (h : k.Slabs) (hv : k.exfatVolume dev = .ok (i, k')) :
    VolumeMade k k' dev i := by
  obtain ⟨⟨p₁, k₁⟩, h₁, hv⟩ := bind_eq_ok hv
  obtain ⟨supply₁, hpages₁, -, rfl⟩ := kpageAlloc_ok h₁
  obtain ⟨⟨vfsSuperblock, k₂⟩, h₂, hv⟩ := bind_eq_ok hv
  obtain ⟨supply₂, hpages₂, hused, rfl⟩ := kpageAlloc_ok h₂
  change supply₁.pages = _ at hpages₂
  obtain ⟨⟨e, k₃⟩, h₃, hv⟩ := bind_eq_ok hv
  obtain ⟨⟨j, k₄⟩, h₄, hv⟩ := bind_eq_ok hv
  simp only [Except.ok.injEq, Prod.mk.injEq] at hv
  obtain ⟨rfl, rfl⟩ := hv
  have hsub : supply₂.pages ⊆ k.fs.supply.pages := by
    rw [hpages₁, hpages₂]
    intro p hp
    exact List.mem_cons_of_mem _ (List.mem_cons_of_mem _ hp)
  have hshrink : Slabs (FsKernel.setSuperblock { k with fs := { k.fs with supply := supply₂ } }
      vfsSuperblock (.exfat (k.exfatSuperblock dev) dev)) :=
    ((h.kpageAlloc h₁).kpageAlloc h₂).congr rfl rfl rfl rfl rfl rfl rfl
  have hexfat := hshrink.exfatInodeAlloc h₃
  have hslabs₃ : (k₃.modifyExfatInode e fun n =>
      { n with exfatStartLba := k.rootDirectoryLba dev, loadNeeded := true }).Slabs :=
    hexfat.slabs.congr rfl rfl rfl rfl rfl rfl rfl
  have hinode := hslabs₃.inodeAlloc h₄
  obtain ⟨⟨e', supply₃, exfatInodes⟩, -, he⟩ := bind_eq_ok h₃
  simp only [Except.ok.injEq, Prod.mk.injEq] at he
  obtain ⟨rfl, rfl⟩ := he
  obtain ⟨⟨j', supply₄, inodes⟩, -, he⟩ := bind_eq_ok h₄
  simp only [Except.ok.injEq, Prod.mk.injEq] at he
  obtain ⟨rfl, rfl⟩ := he
  let k₄ : FsKernel := { k with
    fs := { k.fs with supply := supply₄, inodes }
    superblocks := Function.update k.superblocks vfsSuperblock
      (.exfat (k.exfatSuperblock dev) dev)
    exfatInodes := exfatInodes.modify e' fun n =>
      { n with exfatStartLba := k.rootDirectoryLba dev, loadNeeded := true } }
  change VolumeMade k (k₄.modifyInode j' fun _ => ⟨inodeDirectory, vfsSuperblock, e', []⟩) dev j'
  have hself : (k₄.modifyInode j' fun _ => ⟨inodeDirectory, vfsSuperblock, e', []⟩).inode j' =
      ⟨inodeDirectory, vfsSuperblock, e', []⟩ := inode_modifyInode_self _ _ _
  have hnew : ¬k.Known j' := hinode.new
  constructor
  · exact hinode.slabs.congr rfl rfl rfl rfl rfl rfl rfl
  · constructor
    · rw [hself]
    · rw [typeOf, hself]
      exact Function.update_self ..
    · rw [hself]
      exact congrArg ExfatNode.exfatStartLba (exfatInodes.modify_objects_self e' fun n =>
        { n with exfatStartLba := k.rootDirectoryLba dev, loadNeeded := true })
  · rw [hself]
  · exact hnew
  · exact hinode.slots
  · intro y hy
    have hne : y ≠ j' := fun hh => hnew (hh ▸ hy)
    rw [inode_modifyInode_ne _ hne]
    exact hinode.kept y hy
  · rw [hself]
    exact hexfat.new
  · rw [hself]
    exact hexfat.slots
  · intro y hy
    have hne : y ≠ e' := fun hh => hexfat.new (hh ▸ hy)
    have hother := exfatInodes.modify_objects_ne hne fun n =>
      { n with exfatStartLba := k.rootDirectoryLba dev, loadNeeded := true }
    exact hother.trans (hexfat.kept y hy)
  · rw [hself, hpages₁, hpages₂]
    exact List.mem_cons_of_mem _ List.mem_cons_self
  · rw [hself]
    exact fun hh => hused (hexfat.supply (hinode.supply hh))
  · rw [hself]
    intro y hy
    exact Function.update_of_ne hy _ _
  · rfl
  · rfl
  · rfl
  · rfl
  · exact List.Subset.trans hinode.supply (List.Subset.trans hexfat.supply hsub)

namespace VolumeMade

variable {d : U64}

theorem known_iff (h : VolumeMade k k' dev i) (y : U64) : k'.Known y ↔ y = i ∨ k.Known y := by
  rw [Known, Known, h.inodeSlots.mem_iff, List.mem_cons, h.statics, or_assoc]

theorem inode_ne_zero (h : VolumeMade k k' dev i) : i ≠ 0 :=
  slot_ne_zero h.slabs.inodes.inv (h.inodeSlots.mem_iff.mpr List.mem_cons_self)

theorem typeOf_old (h : VolumeMade k k' dev i) (hs : k.SuperblocksUsed) {y : U64}
    (hy : k.Known y) : k'.typeOf y = k.typeOf y := by
  rw [typeOf, typeOf, h.kept y hy, h.superblocks]
  intro hh
  exact hs y hy (hh ▸ h.freeBefore)

theorem onExfat_iff (h : VolumeMade k k' dev i) (hs : k.SuperblocksUsed) {y : U64}
    (hy : k.Known y) : k'.OnExfat y ↔ k.OnExfat y := by
  rw [OnExfat, OnExfat, h.typeOf_old hs hy]

theorem settled (h : VolumeMade k k' dev i) (hk : k.Inv) (hs : k.SuperblocksUsed) {y : U64}
    (hy : k.Known y) (hsettled : k.Settled y) : k'.Settled y := by
  intro hexfat hm
  have hexfat := (h.onExfat_iff hs hy).mp hexfat
  rw [h.kept y hy] at hm ⊢
  rw [h.exfat _ (hk.privates y hy hexfat)] at hm
  exact hsettled hexfat hm

theorem behind_old (h : VolumeMade k k' dev i) (c : U64) : k'.tree.behind c = k.tree.behind c := by
  have hobject : k'.tree.dentries c = k.tree.dentries c :=
    congrArg (fun slab => Slab.objects slab c) h.dentries
  rw [VfsTree.behind, VfsTree.behind, hobject]

theorem knownDentry_iff (h : VolumeMade k k' dev i) (c : U64) :
    k'.KnownDentry c ↔ k.KnownDentry c := by
  rw [KnownDentry, KnownDentry, dentrySlots, h.dentries, h.statics]
  rfl

theorem sameBut (h : VolumeMade k k' dev i) (hk : k.Inv) (hs : k.SuperblocksUsed) (d : U64) :
    SameBut d k (k'.setMountedInode d i) where
  root := h.root
  known y hy := (h.known_iff y).mpr (.inr hy)
  knownDentry c hc := (h.knownDentry_iff c).mpr hc
  inode y hy hsettled := ⟨h.kept y hy, h.settled hk hs hy hsettled⟩
  names c _ := by
    rw [nameOf_setMountedInode, nameOf, nameOf, h.dentries]
  behind c _ hc := by rw [behind_setMountedInode_ne k' hc, h.behind_old]

theorem mountTree (h : VolumeMade k k' dev i) (hk : k.MountTree) (hd : k.KnownDentry d) :
    (k'.setMountedInode d i).MountTree := by
  have hold : ∀ y, k.Known y → y ≠ i := fun y hy hh => h.newInode (hh ▸ hy)
  have hknown : ∀ y, (k'.setMountedInode d i).Known y ↔ y = i ∨ k.Known y := h.known_iff
  have hbehind : ∀ c, (k'.setMountedInode d i).tree.behind c =
      if c = d then i else k.tree.behind c := by
    intro c
    split
    · next hc =>
      subst hc
      exact behind_setMountedInode_self k' c h.inode_ne_zero
    · next hc => rw [behind_setMountedInode_ne k' hc, h.behind_old]
  have htype : ∀ y, k.Known y → k'.typeOf y = k.typeOf y :=
    fun y hy => h.typeOf_old hk.superblocksUsed hy
  have hroot : (k'.setMountedInode d i).vfsRootInode = k.vfsRootInode := h.root
  refine ⟨⟨⟨?_, ?_, ?_, ?_⟩, ⟨?_, ?_⟩, ?_⟩, ?_, ?_, ?_, ?_⟩
  · exact h.slabs.congr rfl rfl rfl rfl rfl rfl rfl
  · rw [hroot, hknown]
    exact .inr hk.root
  · intro y hy hexfat
    change (k'.inode y).privateData ∈ k'.exfatSlots
    rcases (hknown y).mp hy with rfl | hy
    · exact h.exfatSlots.mem_iff.mpr List.mem_cons_self
    · rw [h.kept y hy]
      exact h.exfatSlots.mem_iff.mpr (List.mem_cons_of_mem _
        (hk.privates y hy ((h.onExfat_iff hk.superblocksUsed hy).mp hexfat)))
  · intro y hy hdir c hc
    change (k'.inode y).type = inodeDirectory at hdir
    change c ∈ (k'.inode y).dentries at hc
    rcases (hknown y).mp hy with rfl | hy
    · rw [h.empty] at hc
      cases hc
    · rw [h.kept y hy] at hdir hc
      obtain ⟨hcd, htarget⟩ := hk.entries y hy hdir c hc
      refine ⟨(h.knownDentry_iff c).mpr hcd, ?_⟩
      rw [hknown, hbehind]
      split
      · exact .inl rfl
      · exact .inr htarget
  · change Slab.Ok k'.fs.supply k'.fs.ramfsInodes k'.fs.ramfsInodes.slots
    rw [h.records]
    exact hk.records.of_subset h.supply
  · change Slab.Unused clearedRamfsInode k'.fs.ramfsInodes k'.fs.ramfsInodes.slots
    rw [h.records]
    exact hk.unused
  · rw [hroot]
    exact (htype _ hk.root).trans hk.rootRamfs
  · obtain ⟨depth, hdepth⟩ := hk.layered
    refine ⟨Function.update depth i (depth (k.tree.behind d)), fun y hy hdir c hc => ?_⟩
    change (k'.inode y).type = inodeDirectory at hdir
    change c ∈ (k'.inode y).dentries at hc
    rcases (hknown y).mp hy with rfl | hy
    · rw [h.empty] at hc
      cases hc
    · rw [h.kept y hy] at hdir hc
      have hlevel := hdepth y hy hdir c hc
      rw [hbehind, Function.update_of_ne (hold y hy)]
      split
      · next hcd => rw [Function.update_self, ← hcd, hlevel]
      · rw [Function.update_of_ne (hold _ (hk.entries y hy hdir c hc).2), hlevel]
  · intro y hy
    change (k'.inode y).superblock ∉ k'.fs.supply.pages
    rcases (hknown y).mp hy with rfl | hy
    · exact h.used
    · rw [h.kept y hy]
      exact fun hh => hk.superblocksUsed y hy (h.supply hh)
  · rw [hroot]
    exact (congrArg Inode.type (h.kept _ hk.root)).trans hk.rootDirectory
  · exact fun hh => hk.nullStatic (h.statics ▸ hh)

end VolumeMade

theorem kpageAlloc_affords (k : FsKernel) :
    Affords k.kpageAlloc Persistos.outOfMemory k.freePages (fun r => r.2.freePages) 1 := by
  cases halloc : k.fs.supply.alloc with
  | error e =>
    obtain ⟨hnone, rfl⟩ := PageSupply.alloc_error halloc
    refine .inr ⟨?_, ?_⟩
    · rw [kpageAlloc, halloc]
      rfl
    · rw [freePages, hnone]
      exact Nat.one_pos
  | ok r =>
    refine .inl ⟨_, by rw [kpageAlloc, halloc]; rfl, ?_⟩
    rw [freePages, (PageSupply.alloc_ok halloc).1]
    exact Nat.le_of_eq (List.length_cons ..)

theorem Slabs.exfatVolume_affords (h : k.Slabs) (dev : NvmepartDevice) :
    Affords (k.exfatVolume dev) Persistos.outOfMemory k.freePages (fun r => r.2.freePages) 4 := by
  refine k.kpageAlloc_affords.bind fun _ h₁ => ?_
  have hslabs₁ := h.kpageAlloc h₁
  refine (kpageAlloc_affords _).bind fun r₂ h₂ => ?_
  have hslabs₂ : Slabs (r₂.2.setSuperblock r₂.1 (.exfat (k.exfatSuperblock dev) dev)) :=
    (hslabs₁.kpageAlloc h₂).congr rfl rfl rfl rfl rfl rfl rfl
  refine hslabs₂.exfatInodeAlloc_affords.bind fun _ h₃ => ?_
  have hslabs₃ := (hslabs₂.exfatInodeAlloc h₃).slabs
  refine Affords.bind_free (Slabs.inodeAlloc_affords ?_) fun _ _ => .ok rfl (Nat.le_refl _)
  exact hslabs₃.congr rfl rfl rfl rfl rfl rfl rfl

section Mount

variable {partitions : U64 → Option NvmepartDevice} {fuel : Nat} {r₁ r₂ : VfsLookupResult}
  {devicePath mountpointPath fsType : List U8}

/-- The mountpoint leads to the root inode of the volume on `dev`, which is new, once that has
been looked up. Paths that do not pass through it resolve as before. -/
def Mounts (fuel : Nat) (k k' : FsKernel) (dev : NvmepartDevice) (mountpointPath : List U8) :
    Prop :=
  ∃ d i, ¬k.Known i ∧ k'.VolumeRoot dev i ∧
    (∀ r, ∃ r', r'.status = vfsResolveSuccessExists ∧ r'.inode = i ∧ r'.dentry = d ∧
      k'.vfsResolve fuel mountpointPath r = (k'.lookup fuel i).map fun k'' => (r', k'')) ∧
    ∀ path, ¬k.tree.directories.Crosses d k.vfsRootInode (components slash (cString path)) →
      AsBefore fuel k k' path

/-- The call refuses and all paths resolve as before, or it mounts the volume. It does not end
at a store through `NULL`, nor stop in any other way but in a resolution or out of memory. -/
structure MountWhole (partitions : U64 → Option NvmepartDevice) (fuel : Nat)
    (r₁ r₂ : VfsLookupResult) (k : FsKernel) (devicePath mountpointPath fsType : List U8) :
    Prop where
  returned : ∀ res k', k.sysMount partitions fuel r₁ r₂ devicePath mountpointPath fsType =
    .ok (res, k') →
      (res.toInt < 0 ∧ ∀ path, AsBefore fuel k k' path) ∨
      (res = 0 ∧ ∃ d k₁ dev, k.vfsResolve fuel devicePath r₁ = .ok (d, k₁) ∧
        k₁.partition partitions d.inode = some dev ∧ Mounts fuel k k' dev mountpointPath)
  stopped : ∀ e, k.sysMount partitions fuel r₁ r₂ devicePath mountpointPath fsType = .error e →
    k.vfsResolve fuel devicePath r₁ = .error e ∨
    ∃ d k₁, k.vfsResolve fuel devicePath r₁ = .ok (d, k₁) ∧
      (k₁.vfsResolve fuel mountpointPath r₂ = .error e ∨
        ∃ p k₂, k₁.vfsResolve fuel mountpointPath r₂ = .ok (p, k₂) ∧ k₂.freePages < 4 ∧
          e = Persistos.outOfMemory)

theorem MountTree.mounts {k₂ k₃ : FsKernel} {d : U64} (hk : k.MountTree) (hl : TreeLoaded k k₂)
    (hk₂ : k₂.MountTree) (hlast : k₂.LastEntry mountpointPath d)
    (hv : k₂.exfatVolume dev = .ok (i, k₃)) :
    Mounts fuel k (k₃.setMountedInode d i) dev mountpointPath := by
  have hmade := hk₂.toSlabs.exfatVolume hv
  have hbut := hmade.sameBut hk₂.toInv hk₂.superblocksUsed d
  have hk' := hmade.mountTree hk₂ hlast.known
  have hroot : (k₃.setMountedInode d i).VolumeRoot dev i :=
    ⟨hmade.volumeRoot.directory, hmade.volumeRoot.volume, hmade.volumeRoot.startLba⟩
  refine ⟨d, i, fun hi => hmade.newInode (hl.known hi), hroot, fun r => ?_, fun path hcross => ?_⟩
  · have hpasses : (skipSlashes mountpointPath).length < mountpointPath.length + 1 :=
      Nat.lt_succ_of_le (List.length_dropWhile_le _ _)
    have hstill := hlast.still
    have hends := hlast.ends
    rw [← components_skipSlashes] at hstill hends
    have hrun : ∃ parent, vfsResolveFrom fuel r (mountpointPath.length + 1)
        (k₃.setMountedInode d i) (skipSlashes mountpointPath) k₂.vfsRootInode 0 k₂.vfsRootInode =
          ((k₃.setMountedInode d i).lookup fuel i).map fun k'' => (r.exists i d parent, k'') :=
      hbut.vfsResolveFrom_mounted hk₂.toInv hk'.toInv ((hmade.known_iff i).mpr (.inl rfl))
        hroot.directory (behind_setMountedInode_self k₃ d hmade.inode_ne_zero) hpasses hk₂.root
        hk₂.rootSettled hstill hends
    obtain ⟨parent, hrun⟩ := hrun
    refine ⟨r.exists i d parent, rfl, rfl, rfl, ?_⟩
    rw [FsKernel.vfsResolve, hbut.root]
    exact hrun
  · exact ((hl.sameBut hk.toInv d).trans hbut).asBefore hcross

/-- A volume, with the memory for it, is to be mounted over the root directory. -/
def MountsOverRoot (partitions : U64 → Option NvmepartDevice) (fuel : Nat)
    (r₁ : VfsLookupResult) (k : FsKernel) (devicePath mountpointPath fsType : List U8) : Prop :=
  components slash (cString mountpointPath) = [] ∧ strcmp fsType (ascii "exfat") = 0 ∧
    ∃ d k₁ dev, k.vfsResolve fuel devicePath r₁ = .ok (d, k₁) ∧
      d.status = vfsResolveSuccessExists ∧ k₁.partition partitions d.inode = some dev ∧
      k₁.signed dev = true ∧ ∃ volume, k₁.exfatVolume dev = .ok volume

theorem TreeLoaded.partition (h : TreeLoaded k k') (hi : k.Known i) :
    k'.partition partitions i = k.partition partitions i := by
  obtain ⟨new, he, -, -⟩ := h.entries i hi
  rw [FsKernel.partition, FsKernel.partition, he]

theorem sysMount_eq {d : VfsLookupResult} {k₁ : FsKernel}
    (h : k.vfsResolve fuel devicePath r₁ = .ok (d, k₁)) (hd : d.status = vfsResolveSuccessExists) :
    k.sysMount partitions fuel r₁ r₂ devicePath mountpointPath fsType =
      k₁.vfsResolve fuel mountpointPath r₂ >>= fun p =>
        p.2.mountResolved partitions d p.1 fsType := by
  rw [sysMount, h, ok_bind]
  exact if_neg (not_not_intro hd)

/-- What the checks let through is a volume for the mountpoint. -/
theorem mountResolved_cases (k : FsKernel) (partitions : U64 → Option NvmepartDevice)
    (d p : VfsLookupResult) (fsType : List U8) :
    (∃ res : U64, res.toInt < 0 ∧ k.mountResolved partitions d p fsType = .ok (res, k)) ∨
    ∃ dev, p.status = vfsResolveSuccessExists ∧ (k.inode p.inode).type = inodeDirectory ∧
      strcmp fsType (ascii "exfat") = 0 ∧ k.partition partitions d.inode = some dev ∧
      k.signed dev = true ∧
      k.mountResolved partitions d p fsType = k.exfatVolume dev >>= fun v =>
        if p.dentry = 0 then .error .outOfBounds else .ok (0, v.2.setMountedInode p.dentry v.1) := by
  rw [mountResolved]
  split
  · exact .inl ⟨-2, by decide, rfl⟩
  split
  · exact .inl ⟨-3, by decide, rfl⟩
  next hs hdir =>
  split
  · next htype =>
    rw [exfatMount]
    split
    · exact .inl ⟨-10, by decide, rfl⟩
    · next dev hdev =>
      split
      · next hsigned =>
        exact .inr ⟨dev, not_not.mp hs, not_not.mp hdir, htype, hdev, hsigned, rfl⟩
      · exact .inl ⟨-11, by decide, rfl⟩
  · exact .inl ⟨-4, by decide, rfl⟩

theorem MountTree.mountsOverRoot_writes (hk : k.MountTree) (r₂ : VfsLookupResult)
    (h : MountsOverRoot partitions fuel r₁ k devicePath mountpointPath fsType) :
    ∃ d k₁ p, k.vfsResolve fuel devicePath r₁ = .ok (d, k₁) ∧
      k₁.vfsResolve fuel mountpointPath r₂ = .ok (p, k₁) ∧
      k.sysMount partitions fuel r₁ r₂ devicePath mountpointPath fsType = .error .outOfBounds := by
  obtain ⟨hn, htype, d, k₁, dev, hdevice, hd, hdev, hsigned, ⟨i, k₃⟩, hv⟩ := h
  have hk₁ := hk.vfsResolve hdevice
  have hroot := hk₁.vfsResolve_root fuel r₂ hn
  refine ⟨d, k₁, _, hdevice, hroot, ?_⟩
  have hs : ¬(r₂.exists k₁.vfsRootInode 0 k₁.vfsRootInode).status ≠ vfsResolveSuccessExists :=
    not_not_intro rfl
  have hdir : ¬(k₁.inode (r₂.exists k₁.vfsRootInode 0 k₁.vfsRootInode).inode).type ≠
    inodeDirectory := not_not_intro hk₁.rootDirectory
  rw [sysMount_eq hdevice hd, hroot, ok_bind, mountResolved, if_neg hs, if_neg hdir, if_pos htype,
    exfatMount, hdev]
  dsimp only
  rw [if_pos hsigned, hv, ok_bind]
  exact if_pos rfl

/-- A mountpoint that the call gets as far as to write to is an entry. -/
theorem MountTree.mountpoint_entry {d p : VfsLookupResult} {k₁ k₂ : FsKernel} {v : U64 × FsKernel}
    (hk : k.MountTree)
    (hnot : ¬MountsOverRoot partitions fuel r₁ k devicePath mountpointPath fsType)
    (hdevice : k.vfsResolve fuel devicePath r₁ = .ok (d, k₁))
    (hd : d.status = vfsResolveSuccessExists)
    (hmountpoint : k₁.vfsResolve fuel mountpointPath r₂ = .ok (p, k₂))
    (hp : p.status = vfsResolveSuccessExists) (htype : strcmp fsType (ascii "exfat") = 0)
    (hdev : k₂.partition partitions d.inode = some dev) (hsigned : k₂.signed dev = true)
    (hv : k₂.exfatVolume dev = .ok v) : k₂.LastEntry mountpointPath p.dentry := by
  have hk₁ := hk.vfsResolve hdevice
  refine hk₁.lastEntry hmountpoint hp fun hn => hnot ?_
  cases (hk₁.vfsResolve_root fuel r₂ hn).symm.trans hmountpoint
  exact ⟨hn, htype, d, k₁, dev, hdevice, hd, hdev, hsigned, v, hv⟩

/-- An empty root directory, and a disk whose first partition bears the signature. -/
def signedDisk : FsKernel := { bare with
  fs := { bare.fs with
    supply := ⟨[0xFFFF800000001000, 0xFFFF800000002000, 0xFFFF800000003000, 0xFFFF800000004000,
      0xFFFF800000005000], by simp [PageAligned], by decide⟩ }
  disk x := (0 :: 0 :: 0 :: ascii "EXFAT").getD x 0 }

theorem signedDisk_slabs : signedDisk.Slabs where
  inodes := .init (by decide) (by decide) _
  dentries := .init (by decide) (by decide) _
  exfatInodes := .init (by decide) (by decide) _
  exfatFileClusters := .init (by decide) (by decide) _
  files := .init (by decide) (by decide)
  filesFresh _ _ := List.not_mem_nil
  statics y hy := by
    obtain rfl := List.mem_singleton.mp hy
    exact ⟨by decide +kernel, by decide +kernel, by decide +kernel⟩
  dentryPages := ⟨by simp [signedDisk, userEnd], fun _ hp => absurd hp List.not_mem_nil, rfl⟩

/-- `signedDisk` with the device `d` and the empty directory `m`. -/
def mountable : Except Crash FsKernel := do
  let (d, k) ← signedDisk.dentryAlloc
  let (i, k) ← k.inodeAlloc
  let k := k.modifyInode i fun _ => ⟨inodeDevice, 0x8000, 0, []⟩
  let k := k.modifyDentry d fun _ => ⟨[0x64], 0, i⟩
  let (e, k) ← (k.addDentry rootAddress d).dentryAlloc
  let (j, k) ← k.inodeAlloc
  let k := k.modifyInode j fun _ => ⟨inodeDirectory, 0x8000, 0, []⟩
  let k := k.modifyDentry e fun _ => ⟨[0x6D], 0, j⟩
  .ok (k.addDentry rootAddress e)

theorem mountable_frame (h : mountable = .ok k) : k.Slabs ∧ k.superblocks = bare.superblocks ∧
    k.fs.ramfsInodes = bare.fs.ramfsInodes := by
  obtain ⟨⟨d, k₁⟩, hd, h⟩ := bind_eq_ok h
  obtain ⟨⟨i, k₂⟩, hi, h⟩ := bind_eq_ok h
  obtain ⟨⟨e, k₃⟩, he, h⟩ := bind_eq_ok h
  obtain ⟨⟨j, k₄⟩, hj, h⟩ := bind_eq_ok h
  obtain rfl := Except.ok.inj h
  have h₁ := signedDisk_slabs.dentryAlloc hd
  have h₂ := h₁.slabs.inodeAlloc hi
  have hslabs₂ : (((k₂.modifyInode i fun _ => ⟨inodeDevice, 0x8000, 0, []⟩).modifyDentry d fun _ =>
      ⟨[0x64], 0, i⟩).addDentry rootAddress d).Slabs :=
    h₂.slabs.congr rfl rfl rfl rfl rfl rfl rfl
  have h₃ := hslabs₂.dentryAlloc he
  have h₄ := h₃.slabs.inodeAlloc hj
  refine ⟨h₄.slabs.congr rfl rfl rfl rfl rfl rfl rfl, ?_, ?_⟩
  · exact h₄.superblocks.trans (h₃.superblocks.trans (h₂.superblocks.trans h₁.superblocks))
  · exact h₄.records.trans (h₃.records.trans (h₂.records.trans h₁.records))

theorem mountable_tree (h : mountable = .ok k) : k.MountTree := by
  obtain ⟨hslabs, hsuperblocks, hrecords⟩ := mountable_frame h
  have hslots : mountable.map (fun k => (k.statics, k.inodeSlots, k.dentrySlots, k.vfsRootInode,
      k.fs.supply.pages)) = .ok ([rootAddress], [0xFFFF800000002030, 0xFFFF800000002060],
        [0xFFFF800000001030, 0xFFFF800000001090], rootAddress,
        [0xFFFF800000003000, 0xFFFF800000004000, 0xFFFF800000005000]) := by decide +kernel
  have hinodes : mountable.map (fun k => [rootAddress, 0xFFFF800000002030, 0xFFFF800000002060].map
      fun i => ((k.inode i).type, (k.inode i).superblock, (k.inode i).dentries)) =
        .ok [(inodeDirectory, 0x8000, [0xFFFF800000001030, 0xFFFF800000001090]),
          (inodeDevice, 0x8000, []), (inodeDirectory, 0x8000, [])] := by decide +kernel
  have hbehind : mountable.map (fun k => [0xFFFF800000001030, 0xFFFF800000001090].map
      k.tree.behind) = .ok [0xFFFF800000002030, 0xFFFF800000002060] := by decide +kernel
  rw [h] at hslots hinodes hbehind
  have hslots := Except.ok.inj hslots
  have hinodes := Except.ok.inj hinodes
  have hbehind := Except.ok.inj hbehind
  simp only [Prod.mk.injEq] at hslots
  simp only [List.map_cons, List.map_nil, List.cons.injEq, Prod.mk.injEq, and_true] at hinodes
  simp only [List.map_cons, List.map_nil, List.cons.injEq, and_true] at hbehind
  obtain ⟨hstatics, hinodeSlots, hdentrySlots, hroot, hpages⟩ := hslots
  obtain ⟨⟨hdir, hsuper, hentries⟩, ⟨-, hsuper₁, hentries₁⟩, -, hsuper₂, hentries₂⟩ := hinodes
  obtain ⟨hbehind₁, hbehind₂⟩ := hbehind
  have hknown : ∀ i, k.Known i ↔
      i = rootAddress ∨ i = 0xFFFF800000002030 ∨ i = 0xFFFF800000002060 := by
    intro i
    rw [Known, hinodeSlots, hstatics, List.mem_singleton, List.mem_cons, List.mem_singleton, or_comm]
  have hsuperblock : ∀ i, k.Known i → (k.inode i).superblock = 0x8000 := by
    intro i hi
    rcases (hknown i).mp hi with rfl | rfl | rfl
    · exact hsuper
    · exact hsuper₁
    · exact hsuper₂
  have hramfs : ∀ i, k.Known i → k.typeOf i = .ramfs := by
    intro i hi
    rw [typeOf, hsuperblock i hi, hsuperblocks]
    rfl
  have hchild : ∀ i, k.Known i → ∀ d ∈ (k.inode i).dentries, i = rootAddress ∧
      d ∈ k.dentrySlots ∧ k.Known (k.tree.behind d) ∧ k.tree.behind d ≠ rootAddress := by
    intro i hi d hd
    rcases (hknown i).mp hi with rfl | rfl | rfl
    · rw [hentries] at hd
      rw [hdentrySlots, hknown]
      refine ⟨rfl, hd, ?_⟩
      rcases List.mem_pair.mp hd with rfl | rfl
      · rw [hbehind₁]
        decide
      · rw [hbehind₂]
        decide
    · rw [hentries₁] at hd
      cases hd
    · rw [hentries₂] at hd
      cases hd
  have hrootKnown : k.Known k.vfsRootInode := by
    rw [hroot, hknown]
    exact .inl rfl
  refine ⟨⟨⟨hslabs, hrootKnown, ?_, ?_⟩, ⟨?_, ?_⟩, hramfs _ hrootKnown⟩, ?_, ?_, ?_, ?_⟩
  · rintro i hi ⟨sb, partition, hexfat⟩
    rw [hramfs i hi] at hexfat
    cases hexfat
  · intro i hi _ d hd
    obtain ⟨-, hslot, htarget, -⟩ := hchild i hi d hd
    exact ⟨.inl hslot, htarget⟩
  · rw [hrecords]
    exact .init (by decide) (by decide) _
  · rw [hrecords]
    exact .init _ _ _
  · refine ⟨fun i => if i = rootAddress then 0 else 1, fun i hi _ d hd => ?_⟩
    obtain ⟨rfl, -, -, hne⟩ := hchild i hi d hd
    dsimp only
    rw [if_neg hne, if_pos rfl]
  · intro i hi
    rw [hsuperblock i hi, hpages]
    decide
  · rw [hroot]
    exact hdir
  · rw [hstatics]
    decide

def firstPartition (_ : U64) : Option NvmepartDevice := some smallPartition

/-- `mount("/d", mountpoint, "exfat")`. -/
def mountSigned (mountpointPath : List U8) : Except Crash (U64 × FsKernel) := do
  let k ← mountable
  k.sysMount firstPartition 2 noResult noResult [slash, 0x64] mountpointPath (ascii "exfat")

end Mount

end FsKernel

end Persistos
