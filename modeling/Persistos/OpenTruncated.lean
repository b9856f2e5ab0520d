import Persistos.LoadedFiles
import Persistos.UserFiles

/-! OPEN with `O_CREAT` and `O_TRUNCATE`, on any path. A file in RAM that it opens is empty
afterwards, and the others are as before. -/

namespace Persistos

open Theory

namespace FsKernel

variable {k k' k'' : FsKernel} {ramFiles : List U64} {f : U64}

theorem Inv.of_treeKept (h : k.Inv) (ht : TreeKept k k') (hs : k'.Slabs)
    (hstatics : k'.statics = k.statics) : k'.Inv := by
  have hknown : ∀ y, k'.Known y ↔ k.Known y := by
    intro y
    rw [Known, inodeSlots, ht.inodes, hstatics]
    rfl
  refine ⟨hs, ?_, fun y hy hexfat => ?_, fun y hy hd d hmem => ?_⟩
  · rw [ht.root, hknown]
    exact h.root
  · rw [OnExfat, ht.typeOf] at hexfat
    rw [ht.inode, exfatSlots, ht.exfatInodes]
    exact h.privates y ((hknown y).mp hy) hexfat
  · rw [ht.inode] at hd hmem
    obtain ⟨hdentry, hbehind⟩ := h.entries y ((hknown y).mp hy) hd d hmem
    rw [ht.tree, hknown, KnownDentry, dentrySlots, ht.dentries, hstatics]
    exact ⟨hdentry, hbehind⟩

/-- What a call on open files leaves that changes no contents but those at `f`. -/
structure OnlyContents (k k' : FsKernel) (ramFiles : List U64) (f : U64) : Prop where
  files : k'.FilesKernel ramFiles
  tree : TreeKept k k'
  statics : k'.statics = k.statics
  disk : k'.disk = k.disk
  images : ∀ g ∈ ramFiles, g ≠ f → k'.fs.image g = k.fs.image g

namespace OnlyContents

theorem refl (h : k.FilesKernel ramFiles) : OnlyContents k k ramFiles f :=
  ⟨h, .refl k, rfl, rfl, fun _ _ _ => rfl⟩

theorem trans (h : OnlyContents k k' ramFiles f) (h' : OnlyContents k' k'' ramFiles f) :
    OnlyContents k k'' ramFiles f :=
  ⟨h'.files, h.tree.trans h'.tree, h'.statics.trans h.statics, h'.disk.trans h.disk,
    fun g hg hne => (h'.images g hg hne).trans (h.images g hg hne)⟩

theorem of_kept (h : k.FilesKernel ramFiles) (hram : k'.RamKernel ramFiles) (ht : TreeKept k k')
    (hstatics : k'.statics = k.statics) (hdisk : k'.disk = k.disk)
    (himages : ∀ g ∈ ramFiles, g ≠ f → k'.fs.image g = k.fs.image g) :
    OnlyContents k k' ramFiles f := by
  have hknown : ∀ y, k'.Known y ↔ k.Known y := by
    intro y
    rw [Known, inodeSlots, ht.inodes, hstatics]
    rfl
  refine ⟨⟨h.toInv.of_treeKept ht hram.toSlabs hstatics, hram.ram, hram.onRamfs,
    hram.clusterSize, ?_, fun g hg => (hknown g).mpr (h.known g hg), fun y hy => ?_,
    fun y hy => ?_⟩, ht, hstatics, hdisk, himages⟩
  · rw [ht.root, ht.typeOf]
    exact h.rootRamfs
  · rw [ht.typeOf, ht.inode]
    exact h.complete y ((hknown y).mp hy)
  · rw [ht.inode]
    exact h.superblocks y ((hknown y).mp hy)

end OnlyContents

namespace FilesKernel

theorem fileAlloc (h : k.FilesKernel ramFiles) {a : U64} (ha : k.fileAlloc = .ok (a, k')) :
    OnlyContents k k' ramFiles f ∧ (∀ g, k'.fs.image g = k.fs.image g) ∧
      k'.fileSlots.Perm (a :: k.fileSlots) := by
  obtain ⟨hram, htree, himages, hslots⟩ := h.toRamKernel.fileAlloc ha
  obtain ⟨-, supply, files, rfl, -⟩ := h.toRamKernel.toSlabs.fileAlloc ha
  exact ⟨.of_kept h hram htree rfl rfl fun g _ _ => himages g, himages, hslots⟩

theorem fileFree (h : k.FilesKernel ramFiles) {a : U64} (ha : a ∈ k.fileSlots)
    (hf : k.fileFree a = .ok k') :
    OnlyContents k k' ramFiles f ∧ k'.fs = k.fs ∧ k'.fileSlots.Perm (k.fileSlots.erase a) := by
  obtain ⟨k₁, hfree, hram, htree, hfs, hslots⟩ := h.toRamKernel.fileFree ha
  cases hf.symm.trans hfree
  obtain ⟨files, -, hf⟩ := bind_eq_ok hf
  cases hf
  exact ⟨.of_kept h hram htree rfl rfl fun g _ _ => by rw [hfs], hfs, hslots⟩

/-- A regular file that is truncated is empty, or it is not in RAM and nothing happens. -/
theorem vfsFtruncate (h : k.FilesKernel ramFiles) {filp : OpenFile} {n : U64}
    (hf : k.Known filp.inode) (hregular : (k.inode filp.inode).type = inodeRegularFile)
    (hc : k.vfsFtruncate filp 0 = .ok (n, k')) :
    (n = -1 ∧ k' = k) ∨ (n = 0 ∧ OnlyContents k k' ramFiles filp.inode ∧
      k'.fileSlots = k.fileSlots ∧ (k'.fs.image filp.inode).content = []) := by
  rw [FsKernel.vfsFtruncate, if_pos hregular] at hc
  split at hc
  · cases hc
    exact .inl ⟨rfl, rfl⟩
  · split at hc
    · next hramfs =>
      obtain ⟨⟨n, fs⟩, hsize, hc⟩ := bind_eq_ok hc
      cases hc
      have hmem : (File.mk filp.inode filp.offset).inode ∈ ramFiles :=
        h.complete _ hf hramfs hregular
      have hstep := RecordStep.setSize hsize
      have hkept := TreeKept.of_recordStep hstep
      have hcall := h.ram.setSize_ok hmem hsize
      have hslabs := (h.toInv.of_recordStep hstep).toSlabs
      have hn : n = 0 := by
        obtain ⟨⟨fs₁, next⟩, -, hsize⟩ := bind_eq_ok hsize
        obtain ⟨fs₂, -, hsize⟩ := bind_eq_ok hsize
        cases hsize
        rfl
      have hram : RamKernel { k with fs } ramFiles := by
        refine ⟨hslabs, hcall.inv, fun g hg => (hkept.typeOf g).trans (h.onRamfs g hg), ?_⟩
        exact ((SameClusterSize.rule _).setSize hsize).trans h.clusterSize
      refine .inr ⟨hn, .of_kept h hram hkept rfl rfl fun g hg hne => hcall.others.image hg hne,
        rfl, ?_⟩
      have himage : fs.image filp.inode = (k.fs.image filp.inode).setSize 0 := hcall.image
      change (fs.image filp.inode).content = []
      rw [himage]
      rfl
    · cases hc
      exact .inl ⟨rfl, rfl⟩
    · cases hc
      exact .inl ⟨rfl, rfl⟩

theorem write (h : k.FilesKernel ramFiles) {filp : File} (hf : filp.inode ∈ ramFiles)
    {buffer : Nat → U8} {length n : U64} {fs : Ramfs}
    (hw : ramfsWrite k.fs filp buffer length = .ok (n, fs)) :
    OnlyContents k { k with fs } ramFiles filp.inode ∧
      fs.image filp.inode = (k.fs.image filp.inode).write filp.offset buffer length := by
  obtain ⟨hram, htree, -, himage, himages⟩ := h.toRamKernel.write hf hw
  exact ⟨.of_kept h hram htree rfl rfl fun g hg hne => himages g hg hne, himage⟩

end FilesKernel

/-- Only the RAM file system makes files. -/
theorem Slabs.vfsCreate_onRamfs (h : k.Slabs) {parent i : U64} {name : List U8}
    (hp : k.Known parent) (hc : k.vfsCreate parent name = .ok (i, k')) (hi : i ≠ 0) :
    k.typeOf parent = .ramfs := by
  obtain ⟨⟨i', d, k₁⟩, ha, hc⟩ := bind_eq_ok hc
  obtain ⟨k₂, hn, hc⟩ := bind_eq_ok hc
  obtain ⟨⟨n, k₃⟩, hcreate, hfinish⟩ := bind_eq_ok hc
  have htype := (h.namedEntry ha hn).typeOf hp
  rw [createFileInode, htype] at hcreate
  split at hcreate
  · assumption
  all_goals
    cases hcreate
    have hne : (-1 : U64) ≠ 0 := by decide
    obtain ⟨k₄, -, hfree⟩ := bind_eq_ok ((if_pos hne).symm.trans hfinish)
    obtain ⟨k₅, -, hfree⟩ := bind_eq_ok hfree
    cases hfree
    exact absurd rfl hi

theorem FilesKernel.vfsCreate (h : k.FilesKernel ramFiles) {parent i : U64} {name : List U8}
    (hp : k.Known parent) (hdir : (k.inode parent).type = inodeDirectory)
    (hc : k.vfsCreate parent name = .ok (i, k')) (hi : i ≠ 0) :
    k'.FilesKernel (ramFiles ++ [i]) ∧ k'.disk = k.disk ∧ k'.fileSlots = k.fileSlots ∧
      (∀ g ∈ ramFiles, k'.fs.image g = k.fs.image g) ∧ (k'.fs.image i).content = [] ∧
      k.typeOf parent = .ramfs ∧
      ∃ d, NewObject k k' parent d i (cString name) inodeRegularFile := by
  have hslabs := h.toInv.toSlabs
  have hramfs := hslabs.vfsCreate_onRamfs hp hc hi
  have hsuperblock := h.superblocks parent hp hdir
  obtain ⟨-, d, hnew⟩ := hslabs.vfsCreate (ramfsRecords_of_inv h.ram) hp hramfs hc
  obtain ⟨hram, himages, hempty⟩ :=
    hslabs.vfsCreate_files h.ram hp hramfs hdir hsuperblock hc
  obtain ⟨dir, fs, hcreate, hk'⟩ := hslabs.vfsCreate_ramfs hp hramfs hc
  obtain ⟨-, -, -, -, hkept, -⟩ := h.ram.create hsuperblock hcreate
  have hclusters : k'.fs.ramfsClusters = k.fs.ramfsClusters := by
    rw [hk']
    exact hkept.ramfsClusters
  have hdisk : k'.disk = k.disk := by
    rw [hk']
    rfl
  have hcontent : (k'.fs.image i).content = [] := by
    rw [Ramfs.image, Ramfs.clustersOf, hempty]
    rfl
  refine ⟨⟨hnew.inv h.toInv hp hramfs, hram, fun g hg => ?_, ?_, ?_, fun g hg => ?_,
    fun y hy htype hregular => ?_, fun y hy hdirectory => ?_⟩, hdisk,
    congrArg SlabAllocator.allocatedSlots hnew.files, himages, hcontent, hramfs, d, hnew⟩
  · rcases List.mem_append.mp hg with hg | hg
    · exact (hnew.typeOf_old (h.known g hg)).trans (h.onRamfs g hg)
    · obtain rfl := List.mem_singleton.mp hg
      exact hnew.typeOf_new.trans hramfs
  · rw [hclusters]
    exact h.clusterSize
  · rw [hnew.root]
    exact (hnew.typeOf_old h.root).trans h.rootRamfs
  · refine (hnew.known_iff g).mpr ?_
    rcases List.mem_append.mp hg with hg | hg
    · exact .inr (h.known g hg)
    · exact .inl (List.mem_singleton.mp hg)
  · rcases (hnew.known_iff y).mp hy with rfl | hy
    · exact List.mem_append_right _ (List.mem_singleton_self y)
    · rw [hnew.typeOf_old hy] at htype
      rw [(hnew.same hy).1] at hregular
      exact List.mem_append_left _ (h.complete y hy htype hregular)
  · rcases (hnew.known_iff y).mp hy with rfl | hy
    · rw [hnew.type] at hdirectory
      exact absurd (a := inodeRegularFile = inodeDirectory) hdirectory (by decide)
    · obtain ⟨htype, hsame, -⟩ := hnew.same hy
      rw [hsame]
      exact h.superblocks y hy (htype.symm.trans hdirectory)

end FsKernel

namespace UserTask

variable {m : UserTask} {s s' : FileTables FsKernel} {ramFiles ramFiles' : List U64}
  {path : List U8} {fd f : U64} {filp : OpenFile}

/-- The path leads to the inode at `f`. -/
def Leads (m : UserTask) (k : FsKernel) (path : List U8) (f : U64) : Prop :=
  k.LeadsTo m.fuel m.lookupResult path fun _ i => i = f

/-- `filp` is the new file at the end of the list, in a new slot. -/
structure Linked (m : UserTask) (s s' : FileTables FsKernel) (filp : OpenFile) : Prop where
  fd : filp.fd = nextFd (s.filesLh m.address)
  offset : filp.offset = 0
  slots : s'.kernel.fileSlots.Perm (filp.address :: s.kernel.fileSlots)
  lists : s'.filesLh = Function.update s.filesLh m.address (s.filesLh m.address ++ [filp])

theorem linkFile_linked (h : s.kernel.FilesKernel ramFiles)
    (hl : m.calls.linkFile s m.address f = .ok (filp, s')) :
    Linked m s s' filp ∧ filp.inode = f ∧ s.kernel.OnlyContents s'.kernel ramFiles f ∧
      ∀ g, s'.kernel.fs.image g = s.kernel.fs.image g := by
  obtain ⟨hfd, hinode, hoffset, halloc, hlists⟩ := KernelCalls.linkFile_ok hl
  have halloc : s.kernel.fileAlloc = .ok (filp.address, s'.kernel) := halloc
  obtain ⟨hkept, himages, hslots⟩ := h.fileAlloc halloc
  exact ⟨⟨hfd, hoffset, hslots, hlists⟩, hinode, hkept, himages⟩

/-- What OPEN leaves that empties the file of `filp` or makes it. -/
structure Emptied (m : UserTask) (s s' : FileTables FsKernel) (ramFiles ramFiles' : List U64)
    (path : List U8) (filp : OpenFile) : Prop extends Linked m s s' filp where
  kernel : s'.kernel.FilesKernel ramFiles'
  subset : ramFiles ⊆ ramFiles'
  disk : s'.kernel.disk = s.kernel.disk
  images : ∀ g ∈ ramFiles, g ≠ filp.inode → s'.kernel.fs.image g = s.kernel.fs.image g
  empty : filp.inode ∈ ramFiles' → (s'.kernel.fs.image filp.inode).content = []
  pathOf : s'.kernel.PathOf path filp.inode
  before : m.Leads s.kernel path filp.inode ∨
    filp.inode ∈ ramFiles' ∧ ¬s.kernel.Known filp.inode ∧ ∀ g, ¬m.Leads s.kernel path g

theorem openExisting_emptied (h : s.kernel.FilesKernel ramFiles) (hf : s.kernel.Known f)
    (hc : m.calls.openExisting s m.address f (oCreat ||| oTruncate) = .ok (fd, s'))
    (hok : isError fd = false) :
    ∃ filp, fd = filp.fd.setWidth 64 ∧ Linked m s s' filp ∧ filp.inode = f ∧
      s.kernel.OnlyContents s'.kernel ramFiles f ∧
      (f ∈ ramFiles → (s'.kernel.fs.image f).content = []) := by
  obtain ⟨⟨filp, s₁⟩, hlink, hc⟩ := bind_eq_ok hc
  obtain ⟨hlinked, rfl, hkept, -⟩ := linkFile_linked h hlink
  have hknown : s₁.kernel.Known filp.inode := by
    rw [FsKernel.Known, FsKernel.inodeSlots, hkept.tree.inodes, hkept.statics]
    exact hf
  dsimp only at hc
  split at hc
  · next hflags =>
    have hregular : (s₁.kernel.inode filp.inode).type = inodeRegularFile := hflags.1
    obtain ⟨⟨n, k₂⟩, htruncate, hc⟩ := bind_eq_ok hc
    have htruncate : s₁.kernel.vfsFtruncate filp 0 = .ok (n, k₂) := htruncate
    rcases hkept.files.vfsFtruncate hknown hregular htruncate with
      ⟨rfl, rfl⟩ | ⟨rfl, hkept', hslots, hempty⟩
    · have hneg : (-1 : U64).toInt < 0 := by decide
      cases (if_pos hneg).symm.trans hc
      exact absurd hok (by decide : ¬isError (-1) = false)
    · have hnot : ¬(0 : U64).toInt < 0 := by decide
      cases (if_neg hnot).symm.trans hc
      refine ⟨filp, rfl, ⟨hlinked.fd, hlinked.offset, ?_, hlinked.lists⟩, rfl,
        hkept.trans hkept', fun _ => hempty⟩
      have hperm := hlinked.slots
      rw [← hslots] at hperm
      exact hperm
  · next hflags =>
    cases hc
    refine ⟨filp, rfl, hlinked, rfl, hkept, fun hmem => absurd ⟨?_, by decide⟩ hflags⟩
    exact hkept.files.toRamKernel.regular hmem

theorem openCreated_emptied (h : s.kernel.FilesKernel ramFiles)
    {parent : U64} {name : List U8} (hp : s.kernel.Known parent)
    (hdir : (s.kernel.inode parent).type = inodeDirectory)
    (hc : m.calls.openCreated s m.address parent name = .ok (fd, s')) (hok : isError fd = false) :
    ∃ filp d k, fd = filp.fd.setWidth 64 ∧ Linked m s s' filp ∧
      s.kernel.NewObject k parent d filp.inode (cString name) inodeRegularFile ∧
      s.kernel.typeOf parent = .ramfs ∧
      k.OnlyContents s'.kernel (ramFiles ++ [filp.inode]) filp.inode ∧
      s'.kernel.disk = s.kernel.disk ∧
      (∀ g ∈ ramFiles, s'.kernel.fs.image g = s.kernel.fs.image g) ∧
      (s'.kernel.fs.image filp.inode).content = [] := by
  obtain ⟨⟨i, k₁⟩, hcreate, hc⟩ := bind_eq_ok hc
  have hcreate : s.kernel.vfsCreate parent name = .ok (i, k₁) := hcreate
  by_cases hi : i = 0
  · cases (if_pos hi).symm.trans hc
    exact absurd hok (by decide)
  · obtain ⟨hkernel, hdisk, hslots, himages, hempty, hramfs, d, hnew⟩ :=
      h.vfsCreate hp hdir hcreate hi
    obtain ⟨⟨filp, s₁⟩, hlink, hfd⟩ := bind_eq_ok ((if_neg hi).symm.trans hc)
    obtain ⟨hlinked, rfl, hkept, hsame⟩ := linkFile_linked hkernel hlink
    cases hfd
    refine ⟨filp, d, k₁, rfl, ⟨hlinked.fd, hlinked.offset, ?_, hlinked.lists⟩, hnew, hramfs,
      hkept, hkept.disk.trans hdisk, fun g hg => (hsame g).trans (himages g hg), ?_⟩
    · exact hlinked.slots.trans (List.Perm.of_eq (congrArg _ hslots))
    · rw [hsame]
      exact hempty

/-- OPEN with both options, on whatever the path leads to. -/
theorem sysOpen_emptied (h : s.kernel.FilesKernel ramFiles)
    (hc : m.calls.sysOpen s m.address path (oCreat ||| oTruncate) = .ok (fd, s'))
    (hok : isError fd = false) :
    ∃ ramFiles' filp, fd = filp.fd.setWidth 64 ∧ Emptied m s s' ramFiles ramFiles' path filp := by
  obtain ⟨⟨r', k₁⟩, hr, hc⟩ := bind_eq_ok hc
  have hr : s.kernel.vfsResolve m.fuel path m.lookupResult = .ok (r', k₁) := hr
  obtain ⟨hloaded, hstill, hrep⟩ := h.toInv.vfsResolve_settles (.of_ramfs h.rootRamfs) hr
  obtain ⟨h₁, hdisk, hslots, himages⟩ := h.vfsResolve hr
  have hres := FsKernel.vfsResolve_resolved h.toInv hr
  cases ho : k₁.tree.resolve path with
  | notDirectory =>
    rw [ho, Reports] at hrep
    rw [hrep] at hc
    cases hc
    exact absurd hok (by decide)
  | noEntry =>
    rw [ho, Reports] at hrep
    rw [hrep] at hc
    cases hc
    exact absurd hok (by decide)
  | found p =>
    rw [ho, Reports] at hrep
    have hstatus : r'.status = vfsResolveSuccessExists := by rw [hrep]
    have hinode : r'.inode = p.inode := by rw [hrep]
    have hknown : k₁.Known p.inode := hinode ▸ hres.found hstatus
    have hexisting : m.calls.openExisting { s with kernel := k₁ } m.address p.inode
        (oCreat ||| oTruncate) = .ok (fd, s') := by
      rw [hrep] at hc
      exact hc
    obtain ⟨filp, hfd, hlinked, hp, hkept, hempty⟩ :=
      openExisting_emptied (s := { s with kernel := k₁ }) h₁ hknown hexisting hok
    have hpath : k₁.PathOf path p.inode := ⟨⟨p, ho, rfl⟩, hstill⟩
    rw [← hp] at hinode hpath hkept hempty
    refine ⟨ramFiles, filp, hfd, ⟨hlinked.fd, hlinked.offset, ?_, hlinked.lists⟩, hkept.files,
      List.Subset.refl _, hkept.disk.trans hdisk, fun g hg hne => ?_, hempty,
      hpath.kept hkept.tree, .inl ⟨r', k₁, hr, hstatus, hinode⟩⟩
    · exact hlinked.slots.trans (List.Perm.of_eq (congrArg _ hslots))
    · exact (hkept.images g hg hne).trans (himages g hg)
  | missing p w =>
    rw [ho, Reports] at hrep
    obtain ⟨hr', -, hname⟩ := hrep
    have hstatus : r'.status = vfsResolveSuccessDoesntExist := by rw [hr']
    have hparent : r'.parentDirectory = p.inode := by rw [hr']
    have hw : cString w = w := by rw [← hname, cString_cString]
    obtain ⟨hknown, hdir, -⟩ := h₁.toInv.missing ho
    have hcreated : m.calls.openCreated { s with kernel := k₁ } m.address p.inode r'.nameStart =
        .ok (fd, s') := by
      dsimp only at hc
      have hflag : (oCreat ||| oTruncate) &&& oCreat ≠ 0 := by decide
      rw [hstatus, hparent, if_neg (by decide), if_neg (by decide), if_pos rfl, if_pos hflag] at hc
      exact hc
    obtain ⟨filp, d, k₂, hfd, hlinked, hnew, hramfs, hkept, hdisk', himages', hempty⟩ :=
      openCreated_emptied (s := { s with kernel := k₁ }) h₁ hknown hdir hcreated hok
    rw [hname] at hnew
    obtain ⟨hfound, hstill'⟩ := hnew.found h₁.toInv hramfs hw hstill ho rfl
    have hpath : k₂.PathOf path filp.inode := ⟨hfound, hstill'⟩
    refine ⟨ramFiles ++ [filp.inode], filp, hfd, ⟨hlinked.fd, hlinked.offset, ?_, hlinked.lists⟩,
      hkept.files, List.subset_append_left _ _, hdisk'.trans hdisk, fun g hg _ => ?_,
      fun _ => hempty, hpath.kept hkept.tree, .inr ⟨?_, ?_, fun g => ?_⟩⟩
    · exact hlinked.slots.trans (List.Perm.of_eq (congrArg _ hslots))
    · exact (himages' g hg).trans (himages g hg)
    · exact List.mem_append_right _ (List.mem_singleton_self _)
    · exact fun hold => hnew.newInode (hloaded.known hold)
    · refine FsKernel.not_leadsTo hr ?_
      rw [hstatus]
      decide

end UserTask

end Persistos
