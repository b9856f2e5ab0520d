import Persistos.CreateResolve
import Persistos.ExfatEntries

/-! What the loads on the way along a path keep of the tree that was there: names, marks and
RAM files. An inode whose mark is off is found as it is. -/

namespace Persistos

open Theory

namespace FsKernel

variable {k k' k'' : FsKernel} {dir : U64}

/-- Loads, with what they keep of the dentries and the records that were there. A mark that
a load finds off stays so. -/
structure TreeLoaded (k k' : FsKernel) : Prop extends Loaded k k' where
  root : k'.vfsRootInode = k.vfsRootInode
  records : k'.fs.ramfsInodes = k.fs.ramfsInodes
  supply : k'.fs.supply.pages ⊆ k.fs.supply.pages
  names : ∀ d, k.KnownDentry d → k'.nameOf d = k.nameOf d
  marks : ∀ e ∈ k.exfatSlots, (k'.exfatInodes.objects e).loadNeeded = true →
    (k.exfatInodes.objects e).loadNeeded = true

namespace TreeLoaded

theorem refl (hk : k.Inv) : TreeLoaded k k :=
  ⟨.refl hk, rfl, rfl, List.Subset.refl _, fun _ _ => rfl, fun _ _ hh => hh⟩

theorem trans (h : TreeLoaded k k') (h' : TreeLoaded k' k'') : TreeLoaded k k'' where
  toLoaded := h.toLoaded.trans h'.toLoaded
  root := h'.root.trans h.root
  records := h'.records.trans h.records
  supply := List.Subset.trans h'.supply h.supply
  names d hd := (h'.names d (h.knownDentry hd)).trans (h.names d hd)
  marks e he hm := h.marks e he (h'.marks e (h.exfat he) hm)

theorem ramfsRecords (h : TreeLoaded k k') (hr : RamfsRecords k) : RamfsRecords k' where
  records := by
    rw [h.records]
    exact hr.records.of_subset h.supply
  unused := by
    rw [h.records]
    exact hr.unused

end TreeLoaded

/-- A quiet step that renames no dentry that was there before `k`. -/
theorem TreeLoaded.quiet (h : TreeLoaded k k') (hq : Quiet k' k'')
    (hnames : ∀ d, k.KnownDentry d → k''.nameOf d = k'.nameOf d) : TreeLoaded k k'' where
  toLoaded := h.toLoaded.trans (hq.loadedOf h.inv)
  root := hq.root.trans h.root
  records := hq.records.trans h.records
  supply := List.Subset.trans hq.supply h.supply
  names d hd := (hnames d hd).trans (h.names d hd)
  marks e he hm := h.marks e he (hq.loaded e hm)

theorem Slabs.loadFileEntry_frame (h : k.Slabs) {d : U64} {x : Nat → U8}
    (hl : k.loadFileEntry dir x = .ok (d, k')) :
    k'.fs.ramfsInodes = k.fs.ramfsInodes ∧ k'.fs.supply.pages ⊆ k.fs.supply.pages := by
  obtain ⟨⟨d', k₁⟩, hd, hl⟩ := bind_eq_ok hl
  have h₁ := h.dentryAlloc hd
  obtain ⟨⟨i, k₂⟩, hi, hl⟩ := bind_eq_ok hl
  have hslabs₁ : (k₁.modifyDentry d' fun _ =>
    ⟨List.replicate (dentryMaxNameLength + 1) 0, 0, 0⟩).Slabs :=
    h₁.slabs.congr rfl rfl rfl rfl rfl rfl rfl
  have h₂ := hslabs₁.inodeAlloc hi
  obtain ⟨⟨e, k₃⟩, he, hl⟩ := bind_eq_ok hl
  have hslabs₂ : (k₂.modifyInode i fun inode =>
    { inode with superblock := (k₂.inode dir).superblock }).Slabs :=
    h₂.slabs.congr rfl rfl rfl rfl rfl rfl rfl
  have h₃ := hslabs₂.exfatInodeAlloc he
  simp only [Except.ok.injEq, Prod.mk.injEq] at hl
  obtain ⟨rfl, rfl⟩ := hl
  have hset := setFileType_typeSet (((k₃.modifyInode i fun inode =>
    { inode with privateData := e }).modifyDentry d' fun dentry =>
      { dentry with inode := i }).addDentry dir d') x i e
  have hrecords : ∀ k₄ : FsKernel, (k₄.setFileType x i e).fs.ramfsInodes = k₄.fs.ramfsInodes := by
    intro k₄
    rw [setFileType]
    split <;> rfl
  constructor
  · exact (hrecords _).trans (h₃.records.trans (h₂.records.trans h₁.records))
  · have hsupply := congrArg PageSupply.pages hset.supply
    exact List.Subset.trans (List.Subset.trans (hsupply ▸ h₃.supply) h₂.supply) h₁.supply

theorem FileEntry.treeLoaded {d i e : U64} {x : Nat → U8} (h : FileEntry k k' dir d i e)
    (hk : k.Inv) (hdir : k.Known dir) (hn : k.NeedsLoad dir)
    (hl : k.loadFileEntry dir x = .ok (d, k')) : TreeLoaded k k' where
  toGrown := h.grown hk hdir hn
  inv := h.inv hk
  root := h.root
  records := (hk.toSlabs.loadFileEntry_frame hl).1
  supply := (hk.toSlabs.loadFileEntry_frame hl).2
  names c hc := by rw [nameOf, nameOf, h.dentries c hc]
  marks y hy hm := by rwa [h.exfat y hy] at hm

/-- The load of `dir` from `k` on. The current dentry is one of its own. -/
structure LoadingDir (k : FsKernel) (dir : U64) (s : DirLoad) : Prop where
  kept : TreeLoaded k s.kernel
  known : s.kernel.Known dir
  needsLoad : s.kernel.NeedsLoad dir
  current : s.fileDentry = 0 ∨ ¬k.KnownDentry s.fileDentry

variable {sb : ExfatSuperblock} {x : Nat → U8} {s s' : DirLoad}

theorem nameOf_modifyDentry_ne (k : FsKernel) {c d : U64} (hc : c ≠ d) (f : Dentry → Dentry) :
    (k.modifyDentry d f).nameOf c = k.nameOf c := by
  rw [nameOf, modifyDentry, Slab.modify_objects_ne _ hc]
  rfl

theorem TreeLoaded.infoEntry (h : TreeLoaded k k') (sb : ExfatSuperblock) (d : U64)
    (x : Nat → U8) : TreeLoaded k (k'.loadInfoEntry sb d x) := by
  have hstart : TreeLoaded k (k'.modifyExfatInode (k'.inode (k'.fs.dentries.objects d).inode).privateData
      fun e => { e with exfatStartLba := sb.clusterLba (le32 x 0x14) }) :=
    h.quiet (h.inv.quiet_modifyExfatInode _ fun _ hh => hh) fun _ _ => rfl
  rw [loadInfoEntry]
  split
  · exact hstart.quiet (hstart.inv.quiet_setFileLength _ _) fun _ _ => rfl
  · exact hstart

theorem LoadingDir.entry (h : LoadingDir k dir s) (hl : loadEntry sb dir x s = .ok s') :
    LoadingDir k dir s' := by
  have hstep := loadEntry_step h.known h.kept.inv h.needsLoad hl
  refine ⟨?_, hstep.known h.known, hstep.needsLoad, ?_⟩
  · rcases loadEntry_cases hl with ⟨-, d, k', hnew, rfl⟩ | ⟨-, -, rfl⟩ | ⟨-, hd, name, i, -, rfl⟩ |
      ⟨-, -, -, rfl⟩
    · obtain ⟨i, e, hentry⟩ := h.kept.inv.toSlabs.loadFileEntry h.known hnew
      exact h.kept.trans (hentry.treeLoaded h.kept.inv h.known h.needsLoad hnew)
    · exact h.kept.infoEntry sb _ x
    · refine h.kept.quiet (h.kept.inv.quiet_setName _ _) fun c hc => ?_
      refine nameOf_modifyDentry_ne _ ?_ _
      rintro rfl
      exact h.current.elim hd fun hh => hh hc
    · exact h.kept
  · rcases loadEntry_cases hl with ⟨-, d, k', hnew, rfl⟩ | ⟨-, -, rfl⟩ | ⟨-, hd, name, i, -, rfl⟩ |
      ⟨-, -, -, rfl⟩
    · obtain ⟨i, e, hentry⟩ := h.kept.inv.toSlabs.loadFileEntry h.known hnew
      exact .inr fun hh => hentry.newDentry (h.kept.knownDentry hh)
    · exact h.current
    · exact h.current
    · exact h.current

theorem LoadingDir.entries {page : Nat → U8} {left x : Nat} (h : LoadingDir k dir s)
    (hl : loadEntries sb dir page left x s = .ok s') : LoadingDir k dir s' := by
  induction left generalizing x s with
  | zero =>
    obtain rfl := Except.ok.inj hl
    exact h
  | succ left ih =>
    obtain ⟨s₁, hentry, hl⟩ := bind_eq_ok hl
    split at hl
    · obtain rfl := Except.ok.inj hl
      exact h.entry hentry
    · exact ih (h.entry hentry) hl

theorem LoadingDir.pages {partition : NvmepartDevice} {fuel : Nat} {lba : U32} {page : Nat → U8}
    (h : LoadingDir k dir s) (hl : loadDirPages sb partition dir fuel lba page s = .ok s') :
    LoadingDir k dir s' := by
  induction fuel generalizing lba page s with
  | zero => cases hl
  | succ fuel ih =>
    obtain ⟨s₁, hentries, hl⟩ := bind_eq_ok hl
    dsimp only at hl
    split at hl
    · obtain rfl := Except.ok.inj hl
      exact h.entries hentries
    · exact ih (h.entries hentries) hl

/-- A lookup finds nothing to load at the inode. -/
def Settled (k : FsKernel) (i : U64) : Prop :=
  k.OnExfat i → (k.exfatInodes.objects (k.inode i).privateData).loadNeeded = true →
    (k.inode i).type ≠ inodeDirectory ∧ (k.inode i).type ≠ inodeRegularFile

theorem Settled.not_needsLoad {i : U64} (h : k.Settled i) : ¬k.NeedsLoad i :=
  fun hn => (h hn.onExfat hn.loadNeeded).1 hn.directory

theorem Settled.of_ramfs {i : U64} (h : k.typeOf i = .ramfs) : k.Settled i := by
  rintro ⟨sb, partition, hexfat⟩
  rw [h] at hexfat
  cases hexfat

theorem Settled.of_mark {i : U64}
    (h : (k.exfatInodes.objects (k.inode i).privateData).loadNeeded = false) : k.Settled i := by
  intro _ hm
  rw [h] at hm
  cases hm

theorem Settled.lookup {i : U64} (h : k.Settled i) (fuel : Nat) : k.lookup fuel i = .ok k := by
  rw [FsKernel.lookup]
  split
  · rfl
  · rfl
  · next sb partition hexfat =>
    rw [exfatLookup]
    split
    · next hm =>
      obtain ⟨hdir, hfile⟩ := h ⟨sb, partition, hexfat⟩ hm
      rw [if_neg hdir, if_neg hfile]
    · rfl

/-- The mark at the end of a load. -/
theorem TreeLoaded.unmark (h : TreeLoaded k k') (e : U64) :
    TreeLoaded k (k'.modifyExfatInode e fun n => { n with loadNeeded := false }) :=
  h.quiet (h.inv.quiet_modifyExfatInode e fun _ hh => absurd hh Bool.false_ne_true) fun _ _ => rfl

theorem addFileCluster_treeLoaded {e : U64} {cluster : ExfatFileCluster} (hk : k.Inv)
    (ha : k.addFileCluster e cluster = .ok k') : TreeLoaded k k' := by
  have hloaded := addFileCluster_loaded hk ha
  obtain ⟨⟨c, k₁⟩, halloc, he⟩ := bind_eq_ok ha
  obtain rfl := Except.ok.inj he
  obtain ⟨hframe, -, hdentries, hexfat⟩ := hk.exfatFileClusterAlloc halloc
  refine ⟨hloaded, hframe.root, hframe.records, hframe.supply, fun d _ => ?_, fun y _ hm => ?_⟩
  · exact congrArg (fun slab => cString (Slab.objects slab d).name) hdentries
  · have hmark := loadNeeded_modifyExfatInode k₁ e
      (f := fun e => { e with fileClusters := e.fileClusters ++ [c] }) (fun _ => rfl) y
    rw [hexfat] at hmark
    exact hmark.symm.trans hm

theorem loadFileClusters_treeLoaded {partition : NvmepartDevice} {e fileLength : U64} {fuel : Nat}
    {byteOffset lba : U32} (hk : k.Inv)
    (hl : loadFileClusters sb partition e fileLength fuel byteOffset lba k = .ok k') :
    TreeLoaded k k' := by
  induction fuel generalizing byteOffset lba k with
  | zero => cases hl
  | succ fuel ih =>
    rw [loadFileClusters] at hl
    split at hl
    · obtain ⟨k₁, hadd, hl⟩ := bind_eq_ok hl
      have hloaded := addFileCluster_treeLoaded hk hadd
      dsimp only at hl
      split at hl
      · obtain rfl := Except.ok.inj hl
        exact hloaded
      · exact hloaded.trans (ih hloaded.inv hl)
    · obtain rfl := Except.ok.inj hl
      exact .refl hk

/-- A settled inode is as it was after any loads. -/
theorem TreeLoaded.inode {i : U64} (h : TreeLoaded k k') (hi : k.Known i) (hs : k.Settled i) :
    k'.inode i = k.inode i := by
  obtain ⟨new, he, hneeds, -⟩ := h.entries i hi
  have hnil : new = [] := by
    by_contra hne
    exact hs.not_needsLoad (hneeds hne)
  rw [he, hnil, List.append_nil]

theorem TreeLoaded.settled {i : U64} (h : TreeLoaded k k') (hk : k.Inv) (hi : k.Known i)
    (hs : k.Settled i) : k'.Settled i := by
  rintro ⟨sb, partition, hexfat⟩ hm
  have hinode := h.inode hi hs
  have hon : k.OnExfat i := ⟨sb, partition, (h.typeOf hi).symm.trans hexfat⟩
  rw [hinode] at hm ⊢
  exact hs hon (h.marks _ (hk.privates i hi hon) hm)

theorem lookup_treeLoaded {fuel : Nat} {i : U64} (hk : k.Inv) (hi : k.Known i)
    (hl : k.lookup fuel i = .ok k') : TreeLoaded k k' ∧ k'.Settled i := by
  rw [lookup] at hl
  split at hl
  · next hramfs =>
    obtain rfl := Except.ok.inj hl
    exact ⟨.refl hk, .of_ramfs hramfs⟩
  · next hsysfs =>
    obtain rfl := Except.ok.inj hl
    refine ⟨.refl hk, ?_⟩
    rintro ⟨sb, partition, hexfat⟩
    rw [hsysfs] at hexfat
    cases hexfat
  · next sb partition htype =>
    rw [exfatLookup] at hl
    have hprivate : ∀ {k₁ : FsKernel}, TreeLoaded k k₁ →
        ((k₁.modifyExfatInode (k.inode i).privateData fun n =>
          { n with loadNeeded := false }).Settled i) := by
      intro k₁ h₁
      refine .of_mark ?_
      obtain ⟨new, he, -, -⟩ := h₁.entries i hi
      have hdata : (k₁.inode i).privateData = (k.inode i).privateData := by rw [he]
      have hsame : ((k₁.modifyExfatInode (k.inode i).privateData fun n =>
        { n with loadNeeded := false }).inode i).privateData = (k.inode i).privateData := hdata
      rw [hsame, modifyExfatInode, Slab.modify_objects_self]
    split at hl
    · next hneeded =>
      split at hl
      · next hd =>
        obtain ⟨s, hpages, he⟩ := bind_eq_ok hl
        obtain rfl := Except.ok.inj he
        have hstart : LoadingDir k i ⟨k, 0, 0⟩ :=
          ⟨.refl hk, hi, ⟨⟨sb, partition, htype⟩, hd, hneeded⟩, .inl rfl⟩
        have hkept := (hstart.pages hpages).kept
        exact ⟨hkept.unmark _, hprivate hkept⟩
      · next hd =>
        split at hl
        · obtain ⟨k₁, hclusters, he⟩ := bind_eq_ok hl
          obtain rfl := Except.ok.inj he
          have hkept := loadFileClusters_treeLoaded hk hclusters
          exact ⟨hkept.unmark _, hprivate hkept⟩
        · next hf =>
          obtain rfl := Except.ok.inj hl
          exact ⟨.refl hk, fun _ _ => ⟨hd, hf⟩⟩
    · next hm =>
      obtain rfl := Except.ok.inj hl
      exact ⟨.refl hk, .of_mark (Bool.eq_false_iff.mpr hm)⟩

/-- A directory that is settled lists the same names after any loads. -/
theorem TreeLoaded.find {i : U64} (h : TreeLoaded k k') (hk : k.Inv) (hi : k.Known i)
    (hdir : (k.inode i).type = inodeDirectory) (w : List U8) :
    (k.inode i).dentries.find? (fun d => cString (k'.tree.dentries d).name = w) =
      (k.inode i).dentries.find? fun d => cString (k.tree.dentries d).name = w := by
  refine List.find?_congr fun d hd => ?_
  have hname : cString (k'.tree.dentries d).name = cString (k.tree.dentries d).name :=
    h.names d (hk.entries i hi hdir d hd).1
  rw [hname]

/-- A resolution loads what it comes by, and in what it leaves it finds the same again. -/
theorem vfsResolveFrom_settles {fuel passes : Nat} {r r' : VfsLookupResult} {buf : List U8}
    {i d parent : U64} (hk : k.Inv) (hi : k.Known i) (hs : k.Settled i)
    (h : vfsResolveFrom fuel r passes k buf i d parent = .ok (r', k')) :
    TreeLoaded k k' ∧ k'.StillAlong i (components slash (cString buf)) ∧
      vfsResolveFrom fuel r passes k' buf i d parent = .ok (r', k') := by
  induction passes generalizing k buf i d parent with
  | zero => cases h
  | succ passes ih =>
    have hrun := h
    rw [vfsResolveFrom] at h
    split at h
    · next hbuf =>
      cases h
      rw [charAt_eq_zero_iff.mp hbuf, components_nil]
      exact ⟨.refl hk, trivial, hrun⟩
    · next hbuf =>
      split at h
      · next hdir =>
        cases h
        refine ⟨.refl hk, ?_, hrun⟩
        cases components slash (cString buf) with
        | nil => trivial
        | cons w ws => exact fun hh => absurd hh hdir
      · next hdir =>
        have hdir := not_not.mp hdir
        have hf := fragment (skipSlashes buf)
        generalize (skipSlashes buf).takeWhile (fun c => c ≠ slash ∧ c ≠ 0) = name at hf
        dsimp only at h
        split at h
        · next hlength =>
          cases h
          have hnil : name = [] := List.length_eq_zero_iff.mp (hf.length_eq.trans hlength)
          subst hnil
          rw [hf.only_slashes]
          exact ⟨.refl hk, trivial, hrun⟩
        · next hlength =>
          have hname : name ≠ [] := by
            rintro rfl
            exact hlength hf.length_eq.symm
          rw [(hf.components hname).1]
          rw [hf.findDentry] at h
          cases hfind : (k.inode i).dentries.find?
              fun dentry => cString (k.tree.dentries dentry).name = name with
          | none =>
            rw [hfind] at h
            dsimp only at h
            have hsame : k' = k := by
              split at h <;> cases h <;> rfl
            subst hsame
            refine ⟨.refl hk, fun _ e he => ?_, hrun⟩
            cases hfind.symm.trans he
          | some dentry =>
            rw [hfind] at h
            obtain ⟨k₁, hlookup, h⟩ := bind_eq_ok h
            have hmem := List.mem_of_find?_eq_some hfind
            obtain ⟨hdentry, htarget⟩ := hk.entries i hi hdir dentry hmem
            obtain ⟨h₁, hs₁⟩ := lookup_treeLoaded hk htarget hlookup
            obtain ⟨h₂, hstill, hagain⟩ := ih h₁.inv (h₁.known htarget) hs₁ h
            have hall := h₁.trans h₂
            have hinode := hall.inode hi hs
            have hbehind := hall.behind dentry hdentry
            have hsettled := (h₂.settled h₁.inv (h₁.known htarget) hs₁).lookup
            have hfind' : (k'.inode i).dentries.find?
                (fun dentry => cString (k'.tree.dentries dentry).name = name) = some dentry := by
              rw [hinode, hall.find hk hi hdir]
              exact hfind
            refine ⟨hall, fun _ e he => ?_, ?_⟩
            · obtain rfl := Option.some.inj (hfind'.symm.trans he)
              rw [hbehind]
              exact ⟨hsettled, hstill⟩
            · have hdir' : ¬(k'.inode i).type ≠ inodeDirectory := by
                rw [hinode]
                exact not_not_intro hdir
              rw [vfsResolveFrom, if_neg hbuf, if_neg hdir']
              dsimp only
              rw [if_neg hlength, hf.findDentry, hfind']
              dsimp only
              rw [hbehind, hsettled, ok_bind]
              exact hagain

/-- The walk through the tree that a resolution leaves is the one that it reports. -/
theorem Inv.vfsResolve_settles {fuel : Nat} {path : List U8} {r r' : VfsLookupResult} (hk : k.Inv)
    (hs : k.Settled k.vfsRootInode) (h : k.vfsResolve fuel path r = .ok (r', k')) :
    TreeLoaded k k' ∧ k'.StillAlong k'.vfsRootInode (components slash (cString path)) ∧
      Reports r r' path (k'.tree.resolve path) := by
  obtain ⟨hloaded, hstill, hagain⟩ := vfsResolveFrom_settles hk hk.root hs h
  rw [components_skipSlashes, ← hloaded.root] at hstill
  obtain ⟨r₁, hr₁, hrep⟩ := hstill.vfsResolve_reports fuel r
  rw [vfsResolve, hloaded.root] at hr₁
  cases hagain.symm.trans hr₁
  exact ⟨hloaded, hstill, hrep⟩

end FsKernel

end Persistos
