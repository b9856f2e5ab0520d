import Persistos.ExfatEntries
import Persistos.FsSlots

/-! What the loader of a directory makes of one entry set: a dentry at the end of the
directory that shows what the set says. Nothing that was there before is touched. -/

namespace Persistos

namespace FsKernel

variable {k k' k'' : FsKernel} {dir d i e : U64}

/-- `k'` has all that `k` had, and only the list of `dir` may be longer. -/
structure Extends (k k' : FsKernel) (dir : U64) : Prop where
  slabs : k'.Slabs
  known : ∀ y, k.Known y → k'.Known y
  knownDentry : ∀ y, k.KnownDentry y → k'.KnownDentry y
  exfatSlots : ∀ y ∈ k.exfatSlots, y ∈ k'.exfatSlots
  inodes : ∀ y, k.Known y → y ≠ dir → k'.inode y = k.inode y
  dentries : ∀ y, k.KnownDentry y → k'.fs.dentries.objects y = k.fs.dentries.objects y
  exfat : ∀ y ∈ k.exfatSlots, k'.exfatInodes.objects y = k.exfatInodes.objects y
  fileLengths : ∀ y, k.Known y → k'.fileLengths y = k.fileLengths y
  disk : k'.disk = k.disk

namespace Extends

theorem refl (h : k.Slabs) (dir : U64) : Extends k k dir :=
  ⟨h, fun _ hy => hy, fun _ hy => hy, fun _ hy => hy, fun _ _ _ => rfl, fun _ _ => rfl,
    fun _ _ => rfl, fun _ _ => rfl, rfl⟩

theorem trans (h : Extends k k' dir) (h' : Extends k' k'' dir) : Extends k k'' dir where
  slabs := h'.slabs
  known y hy := h'.known y (h.known y hy)
  knownDentry y hy := h'.knownDentry y (h.knownDentry y hy)
  exfatSlots y hy := h'.exfatSlots y (h.exfatSlots y hy)
  inodes y hy hne := (h'.inodes y (h.known y hy) hne).trans (h.inodes y hy hne)
  dentries y hy := (h'.dentries y (h.knownDentry y hy)).trans (h.dentries y hy)
  exfat y hy := (h'.exfat y (h.exfatSlots y hy)).trans (h.exfat y hy)
  fileLengths y hy := (h'.fileLengths y (h.known y hy)).trans (h.fileLengths y hy)
  disk := h'.disk.trans h.disk

end Extends

/-- The type that the attributes in a directory entry give. -/
def entryType (x : Nat → U8) : U8 :=
  if le16 x 4 &&& (1 <<< 4) ≠ 0 then inodeDirectory else inodeRegularFile

theorem entryType_eq_regular_iff {x : Nat → U8} :
    entryType x = inodeRegularFile ↔ le16 x 4 &&& (1 <<< 4) = 0 := by
  rw [entryType]
  by_cases h : le16 x 4 &&& (1 <<< 4) = 0
  · rw [if_neg (not_not_intro h)]
    exact iff_of_true rfl h
  · rw [if_pos h]
    exact iff_of_false (by decide) h

/-- The dentry, the inode and the exFAT half of it that an entry of type 0x85 leaves. -/
structure NewFile (k k' : FsKernel) (dir d i e : U64) (x : Nat → U8) : Prop
    extends FileEntry k k' dir d i e where
  dentry : k'.fs.dentries.objects d = ⟨List.replicate (dentryMaxNameLength + 1) 0, 0, i⟩
  type : (k'.inode i).type = entryType x
  fileLengths : ∀ y, y ≠ i → k'.fileLengths y = k.fileLengths y
  disk : k'.disk = k.disk

theorem dentryAlloc_frame (ha : k.dentryAlloc = .ok (d, k')) :
    k'.fileLengths = k.fileLengths ∧ k'.disk = k.disk := by
  obtain ⟨⟨y, supply, dentries⟩, -, he⟩ := bind_eq_ok ha
  simp only [Except.ok.injEq, Prod.mk.injEq] at he
  obtain ⟨-, rfl⟩ := he
  exact ⟨rfl, rfl⟩

theorem inodeAlloc_frame (ha : k.inodeAlloc = .ok (i, k')) :
    k'.fileLengths = k.fileLengths ∧ k'.disk = k.disk := by
  obtain ⟨⟨y, supply, inodes⟩, -, he⟩ := bind_eq_ok ha
  simp only [Except.ok.injEq, Prod.mk.injEq] at he
  obtain ⟨-, rfl⟩ := he
  exact ⟨rfl, rfl⟩

theorem exfatInodeAlloc_frame (ha : k.exfatInodeAlloc = .ok (e, k')) :
    k'.fileLengths = k.fileLengths ∧ k'.disk = k.disk := by
  obtain ⟨⟨y, supply, exfatInodes⟩, -, he⟩ := bind_eq_ok ha
  simp only [Except.ok.injEq, Prod.mk.injEq] at he
  obtain ⟨-, rfl⟩ := he
  exact ⟨rfl, rfl⟩

theorem setFileType_new (k : FsKernel) (x : Nat → U8) (i e : U64) :
    ((k.setFileType x i e).inode i).type = entryType x ∧
      (∀ y, y ≠ i → (k.setFileType x i e).fileLengths y = k.fileLengths y) ∧
      (k.setFileType x i e).disk = k.disk := by
  rw [setFileType, entryType]
  by_cases hd : le16 x 4 &&& (1 <<< 4) ≠ 0
  · rw [if_pos hd, if_pos hd]
    refine ⟨?_, fun _ _ => rfl, rfl⟩
    rw [inode_modifyInode_self]
  · rw [if_neg hd, if_neg hd]
    refine ⟨?_, fun y hy => ?_, rfl⟩
    · exact congrArg Inode.type (inode_modifyInode_self k i fun inode =>
        { inode with type := inodeRegularFile })
    · exact Function.update_of_ne hy _ _

theorem Slabs.loadFileEntry_new (h : k.Slabs) (hdir : k.Known dir) {x : Nat → U8}
    (hl : k.loadFileEntry dir x = .ok (d, k')) : ∃ i e, NewFile k k' dir d i e x := by
  obtain ⟨i, e, hentry⟩ := h.loadFileEntry hdir hl
  obtain ⟨⟨d', k₁⟩, hd, hl⟩ := bind_eq_ok hl
  have h₁ := h.dentryAlloc hd
  obtain ⟨⟨i', k₂⟩, hi, hl⟩ := bind_eq_ok hl
  have hslabs₁ : (k₁.modifyDentry d' fun _ =>
    ⟨List.replicate (dentryMaxNameLength + 1) 0, 0, 0⟩).Slabs :=
    h₁.slabs.congr rfl rfl rfl rfl rfl rfl rfl
  have h₂ := hslabs₁.inodeAlloc hi
  obtain ⟨⟨e', k₃⟩, he, hl⟩ := bind_eq_ok hl
  have hslabs₂ : (k₂.modifyInode i' fun inode =>
    { inode with superblock := (k₂.inode dir).superblock }).Slabs :=
    h₂.slabs.congr rfl rfl rfl rfl rfl rfl rfl
  have h₃ := hslabs₂.exfatInodeAlloc he
  simp only [Except.ok.injEq, Prod.mk.injEq] at hl
  obtain ⟨rfl, rfl⟩ := hl
  let k₄ := ((k₃.modifyInode i' fun inode =>
    { inode with privateData := e' }).modifyDentry d' fun dentry =>
      { dentry with inode := i' }).addDentry dir d'
  have hset := setFileType_typeSet k₄ x i' e'
  obtain ⟨htype, hlengths, hdisk⟩ := setFileType_new k₄ x i' e'
  have hdentry : (k₄.setFileType x i' e').fs.dentries.objects d' =
      ⟨List.replicate (dentryMaxNameLength + 1) 0, 0, i'⟩ := by
    have hlast : (k₄.setFileType x i' e').fs.dentries.objects d' =
        { k₃.fs.dentries.objects d' with inode := i' } :=
      (congrArg (fun slab => slab.objects d') hset.dentries).trans
        (k₃.fs.dentries.modify_objects_self d' fun dentry => { dentry with inode := i' })
    have hfirst : k₃.fs.dentries.objects d' = (k₁.fs.dentries.modify d' fun _ =>
        ⟨List.replicate (dentryMaxNameLength + 1) 0, 0, 0⟩).objects d' :=
      congrArg (fun slab => slab.objects d') (h₃.dentries.trans h₂.dentries)
    rw [hlast, hfirst, Slab.modify_objects_self]
  have hbehind : ((k₄.setFileType x i' e').modifyExfatInode e' fun e =>
      { e with loadNeeded := true }).tree.behind d' = i' := by
    have hmounted : ((k₄.setFileType x i' e').fs.dentries.objects d').mountedInode = 0 := by
      rw [hdentry]
    have hinode : ((k₄.setFileType x i' e').fs.dentries.objects d').inode = i' := by rw [hdentry]
    exact (if_neg (not_not_intro hmounted)).trans hinode
  obtain rfl : i = i' := hentry.behind.symm.trans hbehind
  obtain ⟨hlengths₁, hdisk₁⟩ := dentryAlloc_frame hd
  obtain ⟨hlengths₂, hdisk₂⟩ := inodeAlloc_frame hi
  obtain ⟨hlengths₃, hdisk₃⟩ := exfatInodeAlloc_frame he
  refine ⟨i, e, hentry, hdentry, htype, fun y hy => (hlengths y hy).trans ?_, hdisk.trans ?_⟩
  · change k₃.fileLengths y = _
    rw [hlengths₃]
    change k₂.fileLengths y = _
    rw [hlengths₂]
    exact congrFun hlengths₁ y
  · exact hdisk₃.trans (hdisk₂.trans hdisk₁)

theorem Slabs.dentryAlloc_error (h : k.Slabs) {c : Crash} (ha : k.dentryAlloc = .error c) :
    c = outOfMemory := by
  rcases bind_eq_error ha with hslab | ⟨r, -, he⟩
  · exact (h.dentries.alloc_error hslab).2
  · cases he

theorem Slabs.inodeAlloc_error (h : k.Slabs) {c : Crash} (ha : k.inodeAlloc = .error c) :
    c = outOfMemory := by
  rcases bind_eq_error ha with hslab | ⟨r, -, he⟩
  · exact (h.inodes.alloc_error hslab).2
  · cases he

theorem Slabs.exfatInodeAlloc_error (h : k.Slabs) {c : Crash}
    (ha : k.exfatInodeAlloc = .error c) : c = outOfMemory := by
  rcases bind_eq_error ha with hslab | ⟨r, -, he⟩
  · exact (h.exfatInodes.alloc_error hslab).2
  · cases he

theorem Slabs.loadFileEntry_error (h : k.Slabs) {x : Nat → U8} {c : Crash}
    (hl : k.loadFileEntry dir x = .error c) : c = outOfMemory := by
  rcases bind_eq_error hl with hd | ⟨⟨d, k₁⟩, hd, hl⟩
  · exact h.dentryAlloc_error hd
  · have h₁ : (k₁.modifyDentry d fun _ =>
        ⟨List.replicate (dentryMaxNameLength + 1) 0, 0, 0⟩).Slabs :=
      (h.dentryAlloc hd).slabs.congr rfl rfl rfl rfl rfl rfl rfl
    rcases bind_eq_error hl with hi | ⟨⟨i, k₂⟩, hi, hl⟩
    · exact h₁.inodeAlloc_error hi
    · have h₂ : (k₂.modifyInode i fun inode =>
          { inode with superblock := (k₂.inode dir).superblock }).Slabs :=
        (h₁.inodeAlloc hi).slabs.congr rfl rfl rfl rfl rfl rfl rfl
      rcases bind_eq_error hl with he | ⟨r, -, hl⟩
      · exact h₂.exfatInodeAlloc_error he
      · cases hl

theorem loadFileEntry_disk {x : Nat → U8} (hl : k.loadFileEntry dir x = .ok (d, k')) :
    k'.disk = k.disk := by
  obtain ⟨⟨d', k₁⟩, hd, hl⟩ := bind_eq_ok hl
  obtain ⟨⟨i, k₂⟩, hi, hl⟩ := bind_eq_ok hl
  obtain ⟨⟨e, k₃⟩, he, hl⟩ := bind_eq_ok hl
  simp only [Except.ok.injEq, Prod.mk.injEq] at hl
  obtain ⟨rfl, rfl⟩ := hl
  refine (setFileType_new _ x i e).2.2.trans ?_
  exact (exfatInodeAlloc_frame he).2.trans ((inodeAlloc_frame hi).2.trans (dentryAlloc_frame hd).2)

theorem loadInfoEntry_disk (k : FsKernel) (sb : ExfatSuperblock) (d : U64) (x : Nat → U8) :
    (k.loadInfoEntry sb d x).disk = k.disk := by
  rw [loadInfoEntry]
  split <;> rfl

theorem loadEntry_disk {sb : ExfatSuperblock} {x : Nat → U8} {s s' : DirLoad}
    (hl : loadEntry sb dir x s = .ok s') : s'.kernel.disk = s.kernel.disk := by
  rcases loadEntry_cases hl with ⟨-, d, k', hfile, rfl⟩ | ⟨-, -, rfl⟩ |
    ⟨-, -, name, i, -, rfl⟩ | ⟨-, -, -, rfl⟩
  · exact loadFileEntry_disk hfile
  · exact loadInfoEntry_disk s.kernel sb s.fileDentry x
  · rfl
  · rfl

theorem loadAll_disk {sb : ExfatSuperblock} {xs : List (Nat → U8)} {s s' : DirLoad}
    (hl : loadAll sb dir xs s = .ok s') : s'.kernel.disk = s.kernel.disk := by
  induction xs generalizing s with
  | nil =>
    obtain rfl := Except.ok.inj hl
    rfl
  | cons x xs ih =>
    rw [loadAll_cons] at hl
    obtain ⟨s₁, hentry, hl⟩ := bind_eq_ok hl
    exact (ih hl).trans (loadEntry_disk hentry)

theorem NewFile.extends {x : Nat → U8} (h : NewFile k k' dir d i e x) : Extends k k' dir where
  slabs := h.slabs
  known y hy := (h.known_iff y).mpr (.inr hy)
  knownDentry _ hy := hy.imp (fun hh => h.dentrySlots.mem_iff.mpr (List.mem_cons_of_mem d hh))
    fun hh => h.statics ▸ hh
  exfatSlots _ hy := h.exfatSlots.mem_iff.mpr (List.mem_cons_of_mem e hy)
  inodes := h.kept
  dentries := h.dentries
  exfat := h.exfat
  fileLengths y hy := h.fileLengths y fun hh => h.newInode (hh ▸ hy)
  disk := h.disk

/-- `d` is the last entry of `dir`, and it came with its halves after `k`. -/
structure Filling (k k' : FsKernel) (dir d i e : U64) (x : Nat → U8) : Prop
    extends Extends k k' dir where
  parent : (k'.inode dir).dentries = (k.inode dir).dentries ++ [d]
  newDentry : ¬k.KnownDentry d
  newInode : ¬k.Known i
  newExfat : e ∉ k.exfatSlots
  dentrySlot : d ∈ k'.dentrySlots
  inodeSlot : i ∈ k'.inodeSlots
  exfatSlot : e ∈ k'.exfatSlots
  inode : (k'.fs.dentries.objects d).inode = i
  privateData : (k'.inode i).privateData = e
  type : (k'.inode i).type = entryType x

theorem NewFile.filling {x : Nat → U8} (h : NewFile k k' dir d i e x) :
    Filling k k' dir d i e x where
  toExtends := h.extends
  parent := by rw [h.parent]
  newDentry := h.newDentry
  newInode := h.newInode
  newExfat := h.newExfat
  dentrySlot := h.dentrySlots.mem_iff.mpr List.mem_cons_self
  inodeSlot := h.inodeSlots.mem_iff.mpr List.mem_cons_self
  exfatSlot := h.exfatSlots.mem_iff.mpr List.mem_cons_self
  inode := by rw [h.dentry]
  privateData := h.privateData
  type := h.type

/-- Only the name of `d`, the exFAT half `e` and the length of `i` may be other ones. -/
structure Touched (k k' : FsKernel) (d i e : U64) : Prop where
  slabs : k.Slabs → k'.Slabs
  inodes : k'.fs.inodes = k.fs.inodes
  dentrySlots : k'.dentrySlots = k.dentrySlots
  exfatSlots : k'.exfatSlots = k.exfatSlots
  statics : k'.statics = k.statics
  dentries : ∀ y, y ≠ d → k'.fs.dentries.objects y = k.fs.dentries.objects y
  inode : (k'.fs.dentries.objects d).inode = (k.fs.dentries.objects d).inode
  exfat : ∀ y, y ≠ e → k'.exfatInodes.objects y = k.exfatInodes.objects y
  fileLengths : ∀ y, y ≠ i → k'.fileLengths y = k.fileLengths y
  disk : k'.disk = k.disk

theorem touched_modifyDentry (k : FsKernel) (d i e : U64) (name : List U8) :
    Touched k (k.modifyDentry d fun dentry => { dentry with name }) d i e where
  slabs h := h.congr rfl rfl rfl rfl rfl rfl rfl
  inodes := rfl
  dentrySlots := rfl
  exfatSlots := rfl
  statics := rfl
  dentries _ hy := by rw [modifyDentry, Slab.modify_objects_ne _ hy]
  inode := by rw [modifyDentry, Slab.modify_objects_self]
  exfat _ _ := rfl
  fileLengths _ _ := rfl
  disk := rfl

theorem touched_modifyExfatInode (k : FsKernel) (d i e : U64) (f : ExfatNode → ExfatNode) :
    Touched k (k.modifyExfatInode e f) d i e where
  slabs h := h.congr rfl rfl rfl rfl rfl rfl rfl
  inodes := rfl
  dentrySlots := rfl
  exfatSlots := rfl
  statics := rfl
  dentries _ _ := rfl
  inode := rfl
  exfat _ hy := k.exfatInodes.modify_objects_ne hy f
  fileLengths _ _ := rfl
  disk := rfl

theorem touched_setFileLength (k : FsKernel) (d i e : U64) (fileLength : U64) :
    Touched k (k.setFileLength i fileLength) d i e where
  slabs h := h.congr rfl rfl rfl rfl rfl rfl rfl
  inodes := rfl
  dentrySlots := rfl
  exfatSlots := rfl
  statics := rfl
  dentries _ _ := rfl
  inode := rfl
  exfat _ _ := rfl
  fileLengths _ hy := Function.update_of_ne hy _ _
  disk := rfl

namespace Filling

variable {x : Nat → U8}

theorem touched (h : Filling k k' dir d i e x) (ht : Touched k' k'' d i e) :
    Filling k k'' dir d i e x := by
  have hinode : ∀ y, k''.inode y = k'.inode y :=
    fun y => congrArg (fun slab => slab.objects y) ht.inodes
  have hslots : k''.inodeSlots = k'.inodeSlots := congrArg Slab.slots ht.inodes
  constructor
  · constructor
    · exact ht.slabs h.slabs
    · intro y hy
      exact (h.known y hy).imp (fun hh => hslots ▸ hh) fun hh => ht.statics ▸ hh
    · intro y hy
      exact (h.knownDentry y hy).imp (fun hh => ht.dentrySlots ▸ hh) fun hh => ht.statics ▸ hh
    · intro y hy
      exact ht.exfatSlots ▸ h.exfatSlots y hy
    · intro y hy hne
      rw [hinode, h.inodes y hy hne]
    · intro y hy
      rw [ht.dentries y fun hh => h.newDentry (hh ▸ hy), h.dentries y hy]
    · intro y hy
      rw [ht.exfat y fun hh => h.newExfat (hh ▸ hy), h.exfat y hy]
    · intro y hy
      rw [ht.fileLengths y fun hh => h.newInode (hh ▸ hy), h.fileLengths y hy]
    · rw [ht.disk, h.disk]
  · rw [hinode, h.parent]
  · exact h.newDentry
  · exact h.newInode
  · exact h.newExfat
  · exact ht.dentrySlots ▸ h.dentrySlot
  · exact hslots ▸ h.inodeSlot
  · exact ht.exfatSlots ▸ h.exfatSlot
  · rw [ht.inode, h.inode]
  · rw [hinode, h.privateData]
  · rw [hinode, h.type]

/-- An entry of type 0xC0 gives the sector, and the length of what is not a directory. -/
theorem loadInfoEntry (h : Filling k k' dir d i e x) (sb : ExfatSuperblock) (y : Nat → U8) :
    Filling k (k'.loadInfoEntry sb d y) dir d i e x ∧
      (k'.loadInfoEntry sb d y).fs.dentries = k'.fs.dentries ∧
      ((k'.loadInfoEntry sb d y).exfatInodes.objects e).exfatStartLba =
        sb.clusterLba (le32 y 0x14) ∧
      (entryType x = inodeRegularFile →
        (k'.loadInfoEntry sb d y).fileLengths i = (le32 y 0x8).setWidth 64) := by
  have hsector := h.touched (touched_modifyExfatInode k' d i e fun n =>
    { n with exfatStartLba := sb.clusterLba (le32 y 0x14) })
  have hstart : ((k'.modifyExfatInode e fun n =>
      { n with exfatStartLba := sb.clusterLba (le32 y 0x14) }).exfatInodes.objects e).exfatStartLba =
        sb.clusterLba (le32 y 0x14) := by
    rw [FsKernel.modifyExfatInode, Slab.modify_objects_self]
  rw [FsKernel.loadInfoEntry, h.inode, h.privateData]
  by_cases hr : entryType x = inodeRegularFile
  · rw [if_pos (hsector.type.trans hr)]
    exact ⟨hsector.touched (touched_setFileLength _ d i e _), rfl, hstart, fun _ => Function.update_self ..⟩
  · rw [if_neg fun hh => hr (hsector.type.symm.trans hh)]
    exact ⟨hsector, rfl, hstart, fun hh => absurd hh hr⟩

/-- No dentry is at the address zero, which stands for none. -/
theorem dentry_ne_zero (h : Filling k k' dir d i e x) : d ≠ 0 := by
  rintro rfl
  have hpage := h.slabs.dentryPages.pages _ (h.slabs.dentries.mask_mem_pages h.dentrySlot)
  exact absurd hpage (by decide)

end Filling

/-- A name field of which the first `m` characters are set. -/
def nameField (name : List U8) (m : Nat) : List U8 :=
  (List.range (dentryMaxNameLength + 1)).map fun j => if j < m then name.getD j 0 else 0

theorem nameField_zero (name : List U8) :
    nameField name 0 = List.replicate (dentryMaxNameLength + 1) 0 := by
  rw [nameField, List.map_eq_replicate_iff.mpr fun j _ => if_neg (Nat.not_lt_zero j),
    List.length_range]

theorem range_map_eq {name : List U8} {n : Nat} (hname : name.length = n) {f : Nat → U8}
    (h : ∀ j < n, f j = name.getD j 0) : (List.range n).map f = name := by
  refine List.ext_getElem (by rw [List.length_map, List.length_range, hname]) fun j hj hj' => ?_
  rw [List.getElem_map, List.getElem_range, h j (hname ▸ hj'), List.getD,
    List.getElem?_eq_getElem hj', Option.getD_some]

/-- The loop over the characters sets a stretch of the field. -/
theorem loadName_eq (x : Nat → U8) (index : U8) (left : Nat) {i : Nat} {name : List U8}
    (hi : index.toNat + i ≤ dentryMaxNameLength + 1)
    (hname : name.length = dentryMaxNameLength + 1) :
    loadName x index left i name =
      ((List.range (dentryMaxNameLength + 1)).map fun j =>
        if index.toNat + i ≤ j ∧ j < index.toNat + i + left then x (2 * (j - index.toNat + 1))
        else name.getD j 0,
        min (i + left) (dentryMaxNameLength + 1 - index.toNat)) := by
  induction left generalizing i name with
  | zero =>
    rw [range_map_eq hname fun j _ => if_neg (by omega), loadName, Nat.add_zero,
      Nat.min_eq_left (by omega)]
  | succ left ih =>
    rw [loadName]
    by_cases hfull : index.toNat + i > dentryMaxNameLength
    · rw [if_pos hfull, range_map_eq hname fun j _ => if_neg (by omega),
        Nat.min_eq_right (by omega)]
      exact congrArg (Prod.mk name) (by omega)
    · rw [if_neg hfull, ih (by omega) (by rw [List.length_set, hname])]
      refine congrArg₂ Prod.mk (List.map_congr_left fun j hj => ?_) (by omega)
      have hlt := List.mem_range.mp hj
      by_cases hplace : j = index.toNat + i
      · subst hplace
        rw [if_neg (by omega), if_pos (by omega), List.getD, List.getElem?_set_self (by omega),
          Option.getD_some, Nat.add_sub_cancel_left]
      · rw [List.getD, List.getElem?_set_ne (Ne.symm hplace), ← List.getD]
        by_cases hin : index.toNat + (i + 1) ≤ j ∧ j < index.toNat + (i + 1) + left
        · rw [if_pos hin, if_pos (by omega)]
        · rw [if_neg hin, if_neg (by omega)]

end FsKernel

end Persistos
