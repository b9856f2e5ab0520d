import Persistos.MkdirCalls

/-! Trees that a volume can be mounted on, which loads keep, and the frame of a change to what
is behind one entry: paths that do not cross it resolve as before. -/

namespace Persistos

open Theory

namespace FsKernel

variable {k k' k'' : FsKernel}

/-- A property that the steps of a load keep. -/
structure LoadRule (R : FsKernel → Prop) : Prop where
  quiet : ∀ {k k'}, Quiet k k' → R k → R k'
  entry : ∀ {k k' dir d i e x}, k.Known dir → k.Inv → FileEntry k k' dir d i e →
    k.loadFileEntry dir x = .ok (d, k') → R k → R k'

namespace LoadRule

variable {R : FsKernel → Prop} {sb : ExfatSuperblock} {dir : U64} {s s' : DirLoad} {fuel : Nat}

theorem loadEntry {x : Nat → U8} (h : LoadRule R) (hdir : s.kernel.Known dir)
    (hk : s.kernel.Inv) (hl : loadEntry sb dir x s = .ok s') (hr : R s.kernel) : R s'.kernel := by
  rcases loadEntry_cases hl with ⟨-, d, k', hnew, rfl⟩ | ⟨-, -, rfl⟩ | ⟨-, -, name, i, -, rfl⟩ |
    ⟨-, -, -, rfl⟩
  · obtain ⟨i, e, hentry⟩ := hk.toSlabs.loadFileEntry hdir hnew
    exact h.entry hdir hk hentry hnew hr
  · have hstart := hk.quiet_modifyExfatInode
      (s.kernel.inode (s.kernel.fs.dentries.objects s.fileDentry).inode).privateData
      (f := fun n => { n with exfatStartLba := sb.clusterLba (le32 x 0x14) }) fun _ hh => hh
    dsimp only
    rw [loadInfoEntry]
    split
    · exact h.quiet (hstart.slabs.quiet_setFileLength _ _) (h.quiet hstart hr)
    · exact h.quiet hstart hr
  · exact h.quiet (hk.quiet_setName _ _) hr
  · exact hr

theorem loadEntries {page : Nat → U8} {left x : Nat} (h : LoadRule R)
    (hdir : s.kernel.Known dir) (hk : s.kernel.Inv) (hn : s.kernel.NeedsLoad dir)
    (hl : loadEntries sb dir page left x s = .ok s') (hr : R s.kernel) : R s'.kernel := by
  induction left generalizing x s with
  | zero =>
    obtain rfl := Except.ok.inj hl
    exact hr
  | succ left ih =>
    obtain ⟨s₁, hentry, hl⟩ := bind_eq_ok hl
    have hstep := loadEntry_step hdir hk hn hentry
    have hr₁ := h.loadEntry hdir hk hentry hr
    split at hl
    · obtain rfl := Except.ok.inj hl
      exact hr₁
    · exact ih (hstep.known hdir) hstep.inv hstep.needsLoad hl hr₁

theorem loadDirPages {partition : NvmepartDevice} {lba : U32} {page : Nat → U8} (h : LoadRule R)
    (hdir : s.kernel.Known dir) (hk : s.kernel.Inv) (hn : s.kernel.NeedsLoad dir)
    (hl : loadDirPages sb partition dir fuel lba page s = .ok s') (hr : R s.kernel) :
    R s'.kernel := by
  induction fuel generalizing lba page s with
  | zero => cases hl
  | succ fuel ih =>
    obtain ⟨s₁, hentries, hl⟩ := bind_eq_ok hl
    have hstep := loadEntries_step hdir hk hn hentries
    have hr₁ := h.loadEntries hdir hk hn hentries hr
    dsimp only at hl
    split at hl
    · obtain rfl := Except.ok.inj hl
      exact hr₁
    · exact ih (hstep.known hdir) hstep.inv hstep.needsLoad hl hr₁

theorem loadFileClusters {partition : NvmepartDevice} {e fileLength : U64} {byteOffset lba : U32}
    (h : LoadRule R) (hk : k.Inv)
    (hl : loadFileClusters sb partition e fileLength fuel byteOffset lba k = .ok k') (hr : R k) :
    R k' := by
  induction fuel generalizing byteOffset lba k with
  | zero => cases hl
  | succ fuel ih =>
    rw [FsKernel.loadFileClusters] at hl
    split at hl
    · obtain ⟨k₁, hadd, hl⟩ := bind_eq_ok hl
      have hquiet := addFileCluster_quiet hk.toSlabs hadd
      dsimp only at hl
      split at hl
      · obtain rfl := Except.ok.inj hl
        exact h.quiet hquiet hr
      · exact ih (hquiet.inv hk) hl (h.quiet hquiet hr)
    · obtain rfl := Except.ok.inj hl
      exact hr

/-- The mark at the end of a load. -/
theorem unmark (h : LoadRule R) (hk : k.Inv) (e : U64) (hr : R k) :
    R (k.modifyExfatInode e fun n => { n with loadNeeded := false }) :=
  h.quiet (hk.quiet_modifyExfatInode e fun _ hh => absurd hh Bool.false_ne_true) hr

theorem lookup {i : U64} (h : LoadRule R) (hk : k.Inv) (hi : k.Known i)
    (hl : k.lookup fuel i = .ok k') (hr : R k) : R k' := by
  rw [FsKernel.lookup] at hl
  split at hl
  · obtain rfl := Except.ok.inj hl
    exact hr
  · obtain rfl := Except.ok.inj hl
    exact hr
  · next sb partition htype =>
    rw [exfatLookup] at hl
    split at hl
    · next hneeded =>
      split at hl
      · next hd =>
        obtain ⟨s, hpages, he⟩ := bind_eq_ok hl
        obtain rfl := Except.ok.inj he
        have hn : k.NeedsLoad i := ⟨⟨sb, partition, htype⟩, hd, hneeded⟩
        have hstep := loadDirPages_step (s := ⟨k, 0, 0⟩) hi hk hn hpages
        exact h.unmark hstep.inv _ (h.loadDirPages (s := ⟨k, 0, 0⟩) hi hk hn hpages hr)
      · split at hl
        · obtain ⟨k₁, hclusters, he⟩ := bind_eq_ok hl
          obtain rfl := Except.ok.inj he
          have hinv := (loadFileClusters_loaded hk hclusters).inv
          exact h.unmark hinv _ (h.loadFileClusters hk hclusters hr)
        · obtain rfl := Except.ok.inj hl
          exact hr
    · obtain rfl := Except.ok.inj hl
      exact hr

theorem vfsResolveFrom {passes : Nat} {r r' : VfsLookupResult} {buf : List U8} {i d parent : U64}
    (h : LoadRule R) (hk : k.Inv) (hi : k.Known i)
    (hl : vfsResolveFrom fuel r passes k buf i d parent = .ok (r', k')) (hr : R k) : R k' := by
  induction passes generalizing k buf i d parent with
  | zero => cases hl
  | succ passes ih =>
    rw [FsKernel.vfsResolveFrom] at hl
    split at hl
    · cases hl
      exact hr
    · split at hl
      · cases hl
        exact hr
      · next hdir =>
        dsimp only at hl
        split at hl
        · cases hl
          exact hr
        · split at hl
          · next dentry hfind =>
            obtain ⟨k₁, hlookup, hl⟩ := bind_eq_ok hl
            have htarget := (hk.entries i hi (not_not.mp hdir) dentry (findDentry_mem hfind)).2
            have hloaded := lookup_loaded hk htarget hlookup
            exact ih hloaded.inv (hloaded.known htarget) hl (h.lookup hk htarget hlookup hr)
          · split at hl <;> cases hl <;> exact hr

theorem vfsResolve {path : List U8} {r r' : VfsLookupResult} (h : LoadRule R) (hk : k.Inv)
    (hl : k.vfsResolve fuel path r = .ok (r', k')) (hr : R k) : R k' :=
  h.vfsResolveFrom hk hk.root hl hr

end LoadRule

/-- Each entry leads one level down. -/
def Layered (k : FsKernel) : Prop :=
  ∃ depth : U64 → Nat, ∀ i, k.Known i → (k.inode i).type = inodeDirectory →
    ∀ d ∈ (k.inode i).dentries, depth (k.tree.behind d) = depth i + 1

/-- No page that is free is a superblock. -/
def SuperblocksUsed (k : FsKernel) : Prop :=
  ∀ i, k.Known i → (k.inode i).superblock ∉ k.fs.supply.pages

theorem Layered.rule : LoadRule Layered where
  quiet := by
    rintro k k' hq ⟨depth, h⟩
    refine ⟨depth, fun i hi htype d hd => ?_⟩
    rw [hq.inode] at htype hd
    rw [hq.behind]
    exact h i ((hq.known_iff i).mp hi) htype d hd
  entry := by
    rintro k k' dir d i e x hdir hk hentry - ⟨depth, h⟩
    have hne : ∀ y, k.Known y → y ≠ i := fun y hy hh => hentry.newInode (hh ▸ hy)
    refine ⟨Function.update depth i (depth dir + 1), fun y hy htype c hc => ?_⟩
    rcases (hentry.known_iff y).mp hy with rfl | hy
    · rw [hentry.empty htype] at hc
      cases hc
    · have hold : ∀ c ∈ (k.inode y).dentries, Function.update depth i (depth dir + 1)
          (k'.tree.behind c) = Function.update depth i (depth dir + 1) y + 1 := by
        intro c hc
        have hdirectory := (hentry.same hy).1.symm.trans htype
        obtain ⟨hcd, hbehind⟩ := hk.entries y hy hdirectory c hc
        rw [hentry.behind_old hcd, Function.update_of_ne (hne _ hbehind),
          Function.update_of_ne (hne y hy)]
        exact h y hy hdirectory c hc
      by_cases hyd : y = dir
      · subst hyd
        rw [hentry.parent, List.mem_append, List.mem_singleton] at hc
        rcases hc with hc | rfl
        · exact hold c hc
        · rw [hentry.behind, Function.update_self, Function.update_of_ne (hne y hy)]
      · rw [hentry.kept y hy hyd] at hc
        exact hold c hc

theorem SuperblocksUsed.rule : LoadRule SuperblocksUsed where
  quiet := by
    intro k k' hq h i hi hs
    rw [hq.inode] at hs
    exact h i ((hq.known_iff i).mp hi) (hq.supply hs)
  entry := by
    intro k k' dir d i e x hdir hk hentry hl h y hy hs
    have hs := (hk.toSlabs.loadFileEntry_frame hl).2 hs
    rcases (hentry.known_iff y).mp hy with rfl | hy
    · rw [hentry.superblock] at hs
      exact h dir hdir hs
    · rw [(hentry.same hy).2.1] at hs
      exact h y hy hs

structure MountTree (k : FsKernel) : Prop extends MixedTree k where
  layered : k.Layered
  superblocksUsed : k.SuperblocksUsed
  rootDirectory : (k.inode k.vfsRootInode).type = inodeDirectory
  nullStatic : 0 ∉ k.statics

theorem MixedTree.rootSettled (h : k.MixedTree) : k.Settled k.vfsRootInode :=
  .of_ramfs h.rootRamfs

theorem MountTree.vfsResolve {fuel : Nat} {path : List U8} {r r' : VfsLookupResult}
    (h : k.MountTree) (hr : k.vfsResolve fuel path r = .ok (r', k')) : k'.MountTree := by
  obtain ⟨hloaded, -, -⟩ := h.vfsResolve_settles h.rootSettled hr
  refine ⟨⟨hloaded.inv, hloaded.ramfsRecords h.toRamfsRecords, ?_⟩, ?_, ?_, ?_, ?_⟩
  · rw [hloaded.root, hloaded.typeOf h.root]
    exact h.rootRamfs
  · exact Layered.rule.vfsResolve h.toInv hr h.layered
  · exact SuperblocksUsed.rule.vfsResolve h.toInv hr h.superblocksUsed
  · rw [hloaded.root, hloaded.inode h.root h.rootSettled]
    exact h.rootDirectory
  · rw [hloaded.statics]
    exact h.nullStatic

/-- The entries lead from inodes in use to such, one level down. -/
theorem MountTree.closed (h : k.MountTree) : ∃ depth : U64 → Nat, ∀ i n e, k.Known i →
    k.tree.directories.isDir i = true → k.tree.directories.entry i n = some e →
    k.Known (k.tree.directories.target e) ∧
      depth (k.tree.directories.target e) = depth i + 1 := by
  obtain ⟨depth, hdepth⟩ := h.layered
  refine ⟨depth, fun i n e hi hd he => ⟨h.toInv.closed i n e hi hd he, ?_⟩⟩
  exact hdepth i hi (of_decide_eq_true hd) e (List.mem_of_find?_eq_some he)

/-- `k'` is `k` with something else behind `m` and with directories loaded. -/
structure SameBut (m : U64) (k k' : FsKernel) : Prop where
  root : k'.vfsRootInode = k.vfsRootInode
  known : ∀ i, k.Known i → k'.Known i
  knownDentry : ∀ d, k.KnownDentry d → k'.KnownDentry d
  inode : ∀ i, k.Known i → k.Settled i → k'.inode i = k.inode i ∧ k'.Settled i
  names : ∀ d, k.KnownDentry d → k'.nameOf d = k.nameOf d
  behind : ∀ d, k.KnownDentry d → d ≠ m → k'.tree.behind d = k.tree.behind d

theorem TreeLoaded.sameBut (h : TreeLoaded k k') (hk : k.Inv) (m : U64) : SameBut m k k' where
  root := h.root
  known _ hi := h.known hi
  knownDentry _ hd := h.knownDentry hd
  inode _ hi hs := ⟨h.inode hi hs, h.settled hk hi hs⟩
  names := h.names
  behind d hd _ := h.behind d hd

/-- A path that has no more names has come to its end at a directory. -/
theorem vfsResolveFrom_end {fuel passes : Nat} {r : VfsLookupResult} {buf : List U8}
    {i d parent : U64} (hdir : (k.inode i).type = inodeDirectory)
    (hc : components slash (cString buf) = []) :
    vfsResolveFrom fuel r (passes + 1) k buf i d parent = .ok (r.exists i d parent, k) := by
  rw [vfsResolveFrom]
  split
  · rfl
  · rw [if_neg (not_not_intro hdir)]
    have hf := fragment (skipSlashes buf)
    generalize (skipSlashes buf).takeWhile (fun c => c ≠ slash ∧ c ≠ 0) = name at hf
    have hname : name = [] := by
      by_contra hname
      rw [(hf.components hname).1] at hc
      cases hc
    have hlength : (skipSlashes buf).length - (skipFragment (skipSlashes buf)).length = 0 := by
      rw [← hf.length_eq, hname, List.length_nil]
    dsimp only
    rw [if_pos hlength]

namespace SameBut

variable {m : U64}

theorem trans (h : SameBut m k k') (h' : SameBut m k' k'') : SameBut m k k'' where
  root := h'.root.trans h.root
  known i hi := h'.known i (h.known i hi)
  knownDentry d hd := h'.knownDentry d (h.knownDentry d hd)
  inode i hi hs := by
    obtain ⟨hsame, hs'⟩ := h.inode i hi hs
    obtain ⟨hsame', hs''⟩ := h'.inode i (h.known i hi) hs'
    exact ⟨hsame'.trans hsame, hs''⟩
  names d hd := (h'.names d (h.knownDentry d hd)).trans (h.names d hd)
  behind d hd hm := (h'.behind d (h.knownDentry d hd) hm).trans (h.behind d hd hm)

theorem find (h : SameBut m k k') (hk : k.Inv) {i : U64} (hi : k.Known i) (hs : k.Settled i)
    (hdir : (k.inode i).type = inodeDirectory) (w : List U8) :
    (k'.inode i).dentries.find? (fun d => cString (k'.tree.dentries d).name = w) =
      (k.inode i).dentries.find? fun d => cString (k.tree.dentries d).name = w := by
  rw [(h.inode i hi hs).1]
  refine List.find?_congr fun d hd => ?_
  have hname : cString (k'.tree.dentries d).name = cString (k.tree.dentries d).name :=
    h.names d (hk.entries i hi hdir d hd).1
  rw [hname]

/-- Where nothing is left to load, a path that does not cross `m` resolves as before. -/
theorem vfsResolveFrom_eq (h : SameBut m k k') (hk : k.Inv) {fuel passes : Nat}
    {r : VfsLookupResult} {buf : List U8} {i d parent : U64} (hi : k.Known i) (hs : k.Settled i)
    (hstill : k.StillAlong i (components slash (cString buf)))
    (hcross : ¬k.tree.directories.Crosses m i (components slash (cString buf))) :
    vfsResolveFrom fuel r passes k' buf i d parent =
      (vfsResolveFrom fuel r passes k buf i d parent).map fun p => (p.1, k') := by
  induction passes generalizing buf i d parent with
  | zero => rfl
  | succ passes ih =>
    rw [vfsResolveFrom, vfsResolveFrom, (h.inode i hi hs).1]
    by_cases hbuf : charAt buf = 0
    · rw [if_pos hbuf, if_pos hbuf]
      rfl
    · rw [if_neg hbuf, if_neg hbuf]
      by_cases hdir : (k.inode i).type ≠ inodeDirectory
      · rw [if_pos hdir, if_pos hdir]
        rfl
      · rw [if_neg hdir, if_neg hdir]
        have hdir := not_not.mp hdir
        have hf := fragment (skipSlashes buf)
        generalize (skipSlashes buf).takeWhile (fun c => c ≠ slash ∧ c ≠ 0) = name at hf
        dsimp only
        by_cases hlength : (skipSlashes buf).length - (skipFragment (skipSlashes buf)).length = 0
        · rw [if_pos hlength, if_pos hlength]
          rfl
        · have hname : name ≠ [] := by
            rintro rfl
            exact hlength hf.length_eq.symm
          have hfind' := h.find hk hi hs hdir name
          rw [(h.inode i hi hs).1] at hfind'
          rw [if_neg hlength, if_neg hlength, hf.findDentry, hf.findDentry, hfind']
          cases hfind : (k.inode i).dentries.find?
              fun dentry => cString (k.tree.dentries dentry).name = name with
          | none =>
            dsimp only
            split <;> rfl
          | some dentry =>
            rw [(hf.components hname).1] at hstill hcross
            have hd : k.tree.directories.isDir i = true := decide_eq_true hdir
            have hne : dentry ≠ m := fun hh => hcross ⟨hd, dentry, hfind, .inl hh⟩
            have hafter : ¬k.tree.directories.Crosses m (k.tree.behind dentry)
                (components slash (cString (skipFragment (skipSlashes buf)))) :=
              fun hh => hcross ⟨hd, dentry, hfind, .inr hh⟩
            obtain ⟨hlookup, hstill⟩ := hstill hdir dentry hfind
            obtain ⟨hdentry, htarget⟩ :=
              hk.entries i hi hdir dentry (List.mem_of_find?_eq_some hfind)
            have hsettled := settled_iff.mpr hlookup
            dsimp only
            rw [h.behind dentry hdentry hne, hlookup,
              (h.inode _ htarget hsettled).2.lookup, ok_bind, ok_bind,
              ih htarget hsettled hstill hafter]

/-- A path that ends with `m` leads to what is behind it now, once that has been looked up. -/
theorem vfsResolveFrom_mounted (h : SameBut m k k') (hk : k.Inv) (hk' : k'.Inv) {root : U64}
    (hroot : k'.Known root) (htype : (k'.inode root).type = inodeDirectory)
    (hbehind : k'.tree.behind m = root) {fuel passes : Nat} {r : VfsLookupResult} {buf : List U8}
    {i d parent : U64} (hpasses : buf.length < passes) (hi : k.Known i) (hs : k.Settled i)
    (hstill : k.StillAlong i (components slash (cString buf)))
    (hend : k.tree.directories.EndsWith m i (components slash (cString buf))) :
    ∃ parent', vfsResolveFrom fuel r passes k' buf i d parent =
      (k'.lookup fuel root).map fun k'' => (r.exists root m parent', k'') := by
  induction passes generalizing buf i d parent with
  | zero => omega
  | succ passes ih =>
    have hbuf : charAt buf ≠ 0 := by
      intro hbuf
      rw [charAt_eq_zero_iff.mp hbuf, components_nil] at hend
      exact hend
    have hf := fragment (skipSlashes buf)
    generalize (skipSlashes buf).takeWhile (fun c => c ≠ slash ∧ c ≠ 0) = name at hf
    have hname : name ≠ [] := by
      rintro rfl
      rw [hf.only_slashes] at hend
      exact hend
    have hlength : (skipSlashes buf).length - (skipFragment (skipSlashes buf)).length ≠ 0 := by
      rw [← hf.length_eq]
      exact List.length_pos_iff.mpr hname |>.ne'
    have hshorter : (skipFragment (skipSlashes buf)).length < passes := by
      have hle : (skipSlashes buf).length ≤ buf.length := List.length_dropWhile_le _ buf
      omega
    rw [(hf.components hname).1] at hstill hend
    have hdir : (k.inode i).type = inodeDirectory := by
      generalize components slash (cString (skipFragment (skipSlashes buf))) = ws at hend
      cases ws with
      | nil => exact of_decide_eq_true hend.1
      | cons w ws => exact of_decide_eq_true hend.1
    have hfind' := h.find hk hi hs hdir name
    rw [(h.inode i hi hs).1] at hfind'
    rw [vfsResolveFrom, if_neg hbuf, (h.inode i hi hs).1, if_neg (not_not_intro hdir)]
    dsimp only
    rw [if_neg hlength, hf.findDentry, hfind']
    cases hws : components slash (cString (skipFragment (skipSlashes buf))) with
    | nil =>
      rw [hws] at hend
      obtain ⟨passes, rfl⟩ : ∃ n, passes = n + 1 := ⟨passes - 1, by omega⟩
      have hfind : (k.inode i).dentries.find?
        (fun dentry => cString (k.tree.dentries dentry).name = name) = some m := hend.2
      rw [hfind]
      dsimp only
      rw [hbehind]
      refine ⟨i, ?_⟩
      cases hlookup : k'.lookup fuel root with
      | error e => rfl
      | ok k'' =>
        obtain ⟨new, hinode, -, -⟩ := (lookup_loaded hk' hroot hlookup).entries root hroot
        have htype' : (k''.inode root).type = inodeDirectory := by
          rw [hinode]
          exact htype
        rw [ok_bind, vfsResolveFrom_end htype' hws]
        rfl
    | cons w ws =>
      rw [hws] at hend
      obtain ⟨-, e, hfind, hne, hend⟩ := hend
      change (k.inode i).dentries.find?
        (fun dentry => cString (k.tree.dentries dentry).name = name) = some e at hfind
      obtain ⟨hdentry, htarget⟩ := hk.entries i hi hdir e (List.mem_of_find?_eq_some hfind)
      obtain ⟨hlookup, hstill⟩ := hstill hdir e hfind
      have hsettled := settled_iff.mpr hlookup
      rw [← hws] at hend
      rw [hfind]
      dsimp only
      rw [h.behind e hdentry hne, (h.inode _ htarget hsettled).2.lookup, ok_bind]
      exact ih hshorter htarget hsettled hstill hend

end SameBut

/-- A path that has just been resolved, which left `k`, resolves in `k'` as it did. -/
def AsBefore (fuel : Nat) (k k' : FsKernel) (path : List U8) : Prop :=
  ∀ (k₀ : FsKernel) (r r' : VfsLookupResult), k₀.MountTree →
    k₀.vfsResolve fuel path r = .ok (r', k) → k'.vfsResolve fuel path r = .ok (r', k')

theorem SameBut.asBefore {m : U64} (h : SameBut m k k') {fuel : Nat} {path : List U8}
    (hcross : ¬k.tree.directories.Crosses m k.vfsRootInode (components slash (cString path))) :
    AsBefore fuel k k' path := by
  intro k₀ r r' hk₀ hr
  have hk := hk₀.vfsResolve hr
  obtain ⟨hloaded, hstill, hagain⟩ := vfsResolveFrom_settles hk₀.toInv hk₀.root hk₀.rootSettled hr
  rw [← hloaded.root] at hstill hagain
  rw [← components_skipSlashes] at hcross
  rw [vfsResolve, h.root, h.vfsResolveFrom_eq hk.toInv hk.root hk.rootSettled hstill hcross, hagain]
  rfl

theorem KnownDentry.ne_zero {d : U64} (hd : k.KnownDentry d) (hk : k.MountTree) : d ≠ 0 := by
  rcases hd with hd | hd
  · exact slot_ne_zero hk.dentries.inv hd
  · rintro rfl
    exact hk.nullStatic hd

theorem MountTree.not_crosses_null (hk : k.MountTree) {i : U64} (hi : k.Known i)
    (ws : List (List U8)) : ¬k.tree.directories.Crosses 0 i ws := by
  induction ws generalizing i with
  | nil => exact id
  | cons w ws ih =>
    rintro ⟨hd, e, he, hcross⟩
    obtain ⟨hdentry, htarget⟩ :=
      hk.entries i hi (of_decide_eq_true hd) e (List.mem_of_find?_eq_some he)
    rcases hcross with hnull | hcross
    · exact hdentry.ne_zero hk hnull
    · exact ih htarget hcross

theorem TreeLoaded.asBefore (h : TreeLoaded k k') (hk : k.MountTree) (fuel : Nat)
    (path : List U8) : AsBefore fuel k k' path :=
  (h.sameBut hk.toInv 0).asBefore (hk.not_crosses_null hk.root _)

/-- The entry that a path with names ends with. -/
structure LastEntry (k : FsKernel) (path : List U8) (d : U64) : Prop where
  known : k.KnownDentry d
  still : k.StillAlong k.vfsRootInode (components slash (cString path))
  ends : k.tree.directories.EndsWith d k.vfsRootInode (components slash (cString path))

/-- What a resolution finds is the root, or behind an entry. -/
theorem MountTree.lastEntry {fuel : Nat} {path : List U8} {r r' : VfsLookupResult}
    (hk : k.MountTree) (h : k.vfsResolve fuel path r = .ok (r', k'))
    (hs : r'.status = vfsResolveSuccessExists) (hn : components slash (cString path) ≠ []) :
    k'.LastEntry path r'.dentry := by
  have hk' := hk.vfsResolve h
  obtain ⟨-, hstill, hrep⟩ := hk.vfsResolve_settles hk.rootSettled h
  obtain ⟨depth, hclosed⟩ := hk'.closed
  cases ho : k'.tree.resolve path with
  | found q =>
    rw [ho, Reports] at hrep
    obtain ⟨i, n, e, hi, hd, he, rfl⟩ :=
      Directories.walk_found_entry (fun i n e hi hd he => (hclosed i n e hi hd he).1) hk'.root hn ho
    have hdentry : r'.dentry = e := by rw [hrep]; rfl
    rw [hdentry]
    refine ⟨?_, hstill, Directories.endsWith_of_walk hclosed hk'.root hn ho rfl⟩
    exact (hk'.entries i hi (of_decide_eq_true hd) e (List.mem_of_find?_eq_some he)).1
  | notDirectory =>
    rw [ho] at hrep
    exact absurd hs (hrep.status_ne fun p hp => by cases hp)
  | noEntry =>
    rw [ho] at hrep
    exact absurd hs (hrep.status_ne fun p hp => by cases hp)
  | missing p w =>
    rw [ho] at hrep
    exact absurd hs (hrep.status_ne fun p hp => by cases hp)

/-- A path without names leads to the root, and there is no entry that it ends with. -/
theorem MountTree.vfsResolve_root (hk : k.MountTree) (fuel : Nat) (r : VfsLookupResult)
    {path : List U8} (hn : components slash (cString path) = []) :
    k.vfsResolve fuel path r = .ok (r.exists k.vfsRootInode 0 k.vfsRootInode, k) :=
  vfsResolveFrom_end hk.rootDirectory ((components_skipSlashes path).trans hn)

end FsKernel

end Persistos
