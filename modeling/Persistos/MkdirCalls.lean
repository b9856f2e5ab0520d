import Persistos.ExfatDirLoads
import Persistos.TreeLoads

/-! MKDIR over the mounted file systems. In a directory in RAM it makes an empty directory,
which its path resolves to. A call that refuses leaves the exFAT directories that the path
has loaded. -/

namespace Persistos

open Theory

theorem Reports.status_ne {r r' : VfsLookupResult} {path : List U8} {o : Outcome U64 U64 (List U8)}
    (h : Reports r r' path o) (ho : ∀ p, o ≠ .found p) : r'.status ≠ vfsResolveSuccessExists := by
  cases o with
  | notDirectory =>
    intro hs
    rw [Reports] at h
    rw [h] at hs
    cases hs
  | noEntry =>
    intro hs
    rw [Reports] at h
    rw [h] at hs
    cases hs
  | missing p name =>
    intro hs
    rw [h.1] at hs
    cases hs
  | found p => exact absurd rfl (ho p)

namespace FsKernel

variable {k k' : FsKernel}

/-- A tree with parts on all three file systems, whose root is in RAM. -/
structure MixedTree (k : FsKernel) : Prop extends Inv k, RamfsRecords k where
  rootRamfs : k.typeOf k.vfsRootInode = .ramfs

theorem settled_iff {i : U64} : k.Settled i ↔ ∀ fuel, k.lookup fuel i = .ok k := by
  refine ⟨fun h fuel => h.lookup fuel, ?_⟩
  rintro h ⟨sb, partition, hexfat⟩ hm
  have hzero := h 0
  rw [FsKernel.lookup, hexfat] at hzero
  dsimp only at hzero
  rw [exfatLookup, if_pos hm] at hzero
  constructor
  · intro hd
    rw [if_pos hd] at hzero
    cases hzero
  · intro hf
    have hd : (k.inode i).type ≠ inodeDirectory := by
      rw [hf]
      decide
    rw [if_neg hd, if_pos hf] at hzero
    cases hzero

namespace NewObject

variable {dir d i : U64} {w : List U8} {kind : U8}

theorem settled (h : NewObject k k' dir d i w kind) {y : U64} (hy : k.Known y)
    (hs : k.Settled y) : k'.Settled y := by
  rintro ⟨sb, partition, hexfat⟩ hm
  obtain ⟨htype, -, hprivate⟩ := h.same hy
  rw [h.typeOf_old hy] at hexfat
  rw [hprivate, h.exfatInodes] at hm
  rw [htype]
  exact hs ⟨sb, partition, hexfat⟩ hm

/-- A directory has the entries that it had, and `dir` the new one. -/
theorem entry_cases (h : NewObject k k' dir d i w kind) (hk : k.Inv) {y : U64} (hy : k.Known y)
    (hdir : (k.inode y).type = inodeDirectory) {n : List U8} {e : U64}
    (he : k'.tree.directories.entry y n = some e) :
    k.tree.directories.entry y n = some e ∨ e = d := by
  have hold := h.find_old n fun c hc => (hk.entries y hy hdir c hc).1
  change (k'.inode y).dentries.find? _ = some e at he
  by_cases hyd : y = dir
  · subst hyd
    rw [h.parent, List.find?_append, hold] at he
    cases hfind : (k.inode y).dentries.find? fun c => cString (k.tree.dentries c).name = n with
    | some c =>
      rw [hfind] at he
      exact .inl (hfind.trans he)
    | none =>
      rw [hfind, Option.none_or] at he
      exact .inr (List.mem_singleton.mp (List.mem_of_find?_eq_some he))
  · rw [h.kept y hy hyd] at he
    exact .inl (hold.symm.trans he)

theorem stillAlong (h : NewObject k k' dir d i w kind) (hk : k.Inv)
    (hramfs : k.typeOf dir = .ramfs) {y : U64} (hy : k.Known y) {ws : List (List U8)}
    (hs : k.StillAlong y ws) : k'.StillAlong y ws := by
  induction ws generalizing y with
  | nil => trivial
  | cons n ws ih =>
    intro hdir e he
    have hold : (k.inode y).type = inodeDirectory := (h.same hy).1.symm.trans hdir
    rcases h.entry_cases hk hy hold he with he | rfl
    · obtain ⟨hdentry, htarget⟩ := hk.entries y hy hold e (List.mem_of_find?_eq_some he)
      obtain ⟨hlookup, hstill⟩ := hs hold e he
      rw [h.behind_old hdentry]
      exact ⟨(h.settled htarget (settled_iff.mpr hlookup)).lookup, ih htarget hstill⟩
    · rw [h.behind]
      refine ⟨(Settled.of_ramfs (h.typeOf_new.trans hramfs)).lookup, ?_⟩
      cases ws with
      | nil => trivial
      | cons n ws =>
        intro _ c hc
        change (k'.inode i).dentries.find? _ = some c at hc
        rw [h.empty] at hc
        cases hc

/-- The path that was missing leads to the new object, and nothing is to be loaded on the way. -/
theorem found (h : NewObject k k' dir d i w kind) (hk : k.Inv) (hramfs : k.typeOf dir = .ramfs)
    {path : List U8} {p : Position U64 U64} (hw : cString w = w)
    (hs : k.StillAlong k.vfsRootInode (components slash (cString path)))
    (ho : k.tree.resolve path = .missing p w) (hp : p.inode = dir) :
    (∃ q, k'.tree.resolve path = .found q ∧ q.inode = i) ∧
      k'.StillAlong k'.vfsRootInode (components slash (cString path)) := by
  obtain ⟨hknown, hdir, hnone⟩ := hk.missing ho
  subst hp
  have hadds := h.adds hk hknown hdir hw hnone
  have hroot : k'.tree.root = k.tree.root := by
    have hh : k'.tree.vfsRootInode = k.tree.vfsRootInode := h.root
    rw [VfsTree.root, VfsTree.root, hh]
  have hstill := h.stillAlong hk hramfs hk.root hs
  rw [← h.root] at hstill
  refine ⟨⟨k'.tree.directories.follow p d, ?_, h.behind⟩, hstill⟩
  have hh := hadds.walk_missing hk.root ho rfl
  rw [VfsTree.resolve, hroot]
  exact hh

theorem resolve (h : NewObject k k' dir d i w kind) (hk : k.Inv) (hramfs : k.typeOf dir = .ramfs)
    {path : List U8} {p : Position U64 U64} (hw : cString w = w)
    (hs : k.StillAlong k.vfsRootInode (components slash (cString path)))
    (ho : k.tree.resolve path = .missing p w) (hp : p.inode = dir) (fuel : Nat)
    (r : VfsLookupResult) :
    ∃ r', k'.vfsResolve fuel path r = .ok (r', k') ∧ r'.status = vfsResolveSuccessExists ∧
      r'.inode = i := by
  obtain ⟨⟨q, hq, hi⟩, hstill⟩ := h.found hk hramfs hw hs ho hp
  obtain ⟨r', hr', hrep⟩ := hstill.vfsResolve_reports fuel r
  rw [hq, Reports] at hrep
  refine ⟨r', hr', ?_, ?_⟩
  · rw [hrep]
  · rw [hrep]
    exact hi

end NewObject

/-- The path leads to an inode with the property `P`. -/
def LeadsTo (fuel : Nat) (r : VfsLookupResult) (k : FsKernel) (path : List U8)
    (P : FsKernel → U64 → Prop) : Prop :=
  ∃ r' k', k.vfsResolve fuel path r = .ok (r', k') ∧ r'.status = vfsResolveSuccessExists ∧
    P k' r'.inode

def EmptyDirectory (k : FsKernel) (i : U64) : Prop :=
  (k.inode i).type = inodeDirectory ∧ (k.inode i).dentries = []

/-- Before the call the path leads nowhere, and then to an empty directory. -/
def MakesDirectory (fuel : Nat) (r : VfsLookupResult) (k k' : FsKernel) (path : List U8) : Prop :=
  ¬LeadsTo fuel r k path (fun _ _ => True) ∧ LeadsTo fuel r k' path EmptyDirectory

/-- What a caller may take from the result alone. -/
structure MkdirTruth (fuel : Nat) (r : VfsLookupResult) (k k' : FsKernel) (path : List U8)
    (res : U64) : Prop where
  made : res = 0 ↔ MakesDirectory fuel r k k' path
  refused : res.toInt < 0 → k'.tree = k.tree ∧ k'.inodeSlots.Perm k.inodeSlots ∧
    k'.dentrySlots.Perm k.dentrySlots

/-- If the last name is all that is missing, its directory is in RAM. -/
def ParentInRam (fuel : Nat) (r : VfsLookupResult) (k : FsKernel) (path : List U8) : Prop :=
  ∀ r' k', k.vfsResolve fuel path r = .ok (r', k') →
    r'.status = vfsResolveSuccessDoesntExist → k'.typeOf r'.parentDirectory = .ramfs

/-- What MKDIR does tell. -/
structure MkdirTells (fuel : Nat) (r : VfsLookupResult) (k k' : FsKernel) (path : List U8)
    (res : U64) : Prop where
  made : ParentInRam fuel r k path → (res = 0 ↔ MakesDirectory fuel r k k' path)
  refused : res.toInt < 0 → TreeLoaded k k'
  still : res.toInt < 0 → k.StillAlong k.vfsRootInode (components slash (cString path)) → k' = k

variable {fuel : Nat} {r r' : VfsLookupResult} {path : List U8} {res : U64}

theorem not_leadsTo {P : FsKernel → U64 → Prop} (h : k.vfsResolve fuel path r = .ok (r', k'))
    (hs : r'.status ≠ vfsResolveSuccessExists) : ¬LeadsTo fuel r k path P := by
  rintro ⟨r₁, k₁, h₁, hs₁, -⟩
  cases h.symm.trans h₁
  exact hs hs₁

/-- The names that the copy into the buffer takes. -/
theorem Missing.take_name (h : Missing k' r' path) :
    r'.nameStart.take r'.nameLength = cString r'.nameStart := by
  rw [h.nameLength]
  exact (List.prefix_iff_eq_take.mp (List.takeWhile_prefix _)).symm

theorem Slabs.vfsMkdir_ne_zero {parent i : U64} {name : List U8} (h : k.Slabs)
    (hc : k.vfsMkdir parent name = .ok (i, k')) : i ≠ 0 := by
  obtain ⟨⟨i', d, k₁⟩, ha, hc⟩ := bind_eq_ok hc
  obtain ⟨k₂, hn, hc⟩ := bind_eq_ok hc
  obtain ⟨⟨n, k₃⟩, -, hfinish⟩ := bind_eq_ok hc
  cases hfinish
  have hnamed := h.namedEntry ha hn
  exact slot_ne_zero hnamed.slabs.inodes.inv (hnamed.inodeSlots.mem_iff.mpr List.mem_cons_self)

theorem MixedTree.tells_refused {k₁ : FsKernel} (hk : k.MixedTree)
    (h : k.vfsResolve fuel path r = .ok (r', k₁)) (hres : res ≠ 0)
    (hs : r'.status = vfsResolveSuccessExists ∨ ∀ p, k₁.tree.resolve path ≠ .found p) :
    MkdirTells fuel r k k₁ path res := by
  obtain ⟨hloaded, hstill, hrep⟩ := hk.toInv.vfsResolve_settles (.of_ramfs hk.rootRamfs) h
  refine ⟨fun _ => iff_of_false hres ?_, fun _ => hloaded, fun _ hnone => ?_⟩
  · rintro ⟨hbefore, hafter⟩
    rcases hs with hs | hs
    · exact hbefore ⟨r', k₁, h, hs, trivial⟩
    · obtain ⟨r₁, hr₁, hrep₁⟩ := hstill.vfsResolve_reports fuel r
      exact not_leadsTo hr₁ (hrep₁.status_ne hs) hafter
  · obtain ⟨r₁, hr₁, -⟩ := hnone.vfsResolve_reports fuel r
    cases h.symm.trans hr₁
    rfl

theorem MixedTree.sysMkdir_tells (hk : k.MixedTree)
    (h : k.sysMkdir fuel r path = .ok (res, k')) : MkdirTells fuel r k k' path res := by
  obtain ⟨⟨r₁, k₁⟩, hr₁, hc⟩ := bind_eq_ok h
  obtain ⟨hloaded, hstill, hrep⟩ := hk.toInv.vfsResolve_settles (.of_ramfs hk.rootRamfs) hr₁
  cases ho : k₁.tree.resolve path with
  | found p =>
    rw [ho, Reports] at hrep
    have hs : r₁.status = vfsResolveSuccessExists := by rw [hrep]
    rw [hrep] at hc
    cases hc
    exact hk.tells_refused hr₁ (by decide) (.inl hs)
  | notDirectory =>
    rw [ho, Reports] at hrep
    rw [hrep] at hc
    cases hc
    exact hk.tells_refused hr₁ (by decide) (.inr fun p hp => by cases ho.symm.trans hp)
  | noEntry =>
    rw [ho, Reports] at hrep
    rw [hrep] at hc
    cases hc
    exact hk.tells_refused hr₁ (by decide) (.inr fun p hp => by cases ho.symm.trans hp)
  | missing p w =>
    rw [ho, Reports] at hrep
    obtain ⟨hr, -, hname⟩ := hrep
    have hs : r₁.status = vfsResolveSuccessDoesntExist := by rw [hr]
    have hparent : r₁.parentDirectory = p.inode := by rw [hr]
    have hw : cString w = w := by rw [← hname, cString_cString]
    have hmissing := (vfsResolve_resolved hk.toInv hr₁).missing hs
    have hinv := hloaded.inv
    dsimp only at hc
    rw [hs, hmissing.take_name, hname, hparent] at hc
    obtain ⟨⟨i, k₂⟩, hmkdir, hc⟩ := bind_eq_ok hc
    have hne := hinv.toSlabs.vfsMkdir_ne_zero hmkdir
    have hzero : Except.ok (ε := Crash) ((0 : U64), k₂) = .ok (res, k') := by
      have hif : (if i ≠ 0 then (0 : U64) else -1) = 0 := if_pos hne
      rw [← hif]
      exact hc
    obtain ⟨rfl, rfl⟩ := Prod.mk.inj (Except.ok.inj hzero)
    refine ⟨fun hram => iff_of_true rfl ⟨?_, ?_⟩, fun hneg => absurd hneg (by decide),
      fun hneg => absurd hneg (by decide)⟩
    · refine not_leadsTo hr₁ ?_
      rw [hs]
      decide
    · have htype : k₁.typeOf p.inode = .ramfs := hparent ▸ hram r₁ k₁ hr₁ hs
      obtain ⟨hknown, hdir, hnone⟩ := hinv.missing ho
      obtain ⟨-, d, hnew⟩ := hinv.toSlabs.vfsMkdir (hloaded.ramfsRecords hk.toRamfsRecords) hknown
        htype hmkdir
      rw [hw] at hnew
      obtain ⟨r₂, hr₂, hs₂, hi⟩ := hnew.resolve hinv htype hw hstill ho rfl fuel r
      refine ⟨r₂, k₂, hr₂, hs₂, ?_, ?_⟩
      · rw [hi, hnew.type]
      · rw [hi, hnew.empty]

theorem MixedTree.sysMkdir_returns {k₁ : FsKernel} (hk : k.MixedTree) (hshort : Short path)
    (hr : k.vfsResolve fuel path r = .ok (r', k₁)) (hroom : 2 ≤ k₁.freePages) :
    ∃ res k', k.sysMkdir fuel r path = .ok (res, k') := by
  have hres := vfsResolve_resolved hk.toInv hr
  rw [FsKernel.sysMkdir, hr, ok_bind]
  dsimp only
  split
  · exact ⟨_, _, rfl⟩
  split
  · exact ⟨_, _, rfl⟩
  split
  · exact ⟨_, _, rfl⟩
  split
  · next hs =>
    have hmissing := hres.missing hs
    have hname : (cString (cString r'.nameStart)).length ≤ dentryMaxNameLength := by
      rw [cString_cString]
      exact hshort _ (List.mem_of_getLast? hmissing.name)
    obtain ⟨⟨i, k₂⟩, hmkdir, -⟩ :=
      (hres.inv.toSlabs.vfsMkdir_affords hname r'.parentDirectory).returns (n := 0) hroom
    rw [hmissing.take_name, hmkdir, ok_bind]
    exact ⟨_, _, rfl⟩
  · exact ⟨_, _, rfl⟩

theorem mounted_mixed (h : mounted = .ok k) : k.MixedTree := by
  have hinv := mounted_inv h
  have hroot : mounted.map (fun k => (k.vfsRootInode, (k.inode rootAddress).superblock)) =
      .ok (rootAddress, 0x8000) := by decide +kernel
  rw [h] at hroot
  obtain ⟨hrootInode, hsuperblock⟩ := Prod.mk.inj (Except.ok.inj hroot)
  have hsuperblocks := (mounted_slabs h).2
  obtain ⟨⟨d, k₁⟩, hd, h⟩ := bind_eq_ok h
  obtain ⟨⟨i, k₂⟩, hi, h⟩ := bind_eq_ok h
  obtain ⟨⟨e, k₃⟩, he, h⟩ := bind_eq_ok h
  have h₁ := bare_slabs.dentryAlloc hd
  have h₂ := h₁.slabs.inodeAlloc hi
  have h₃ := h₂.slabs.exfatInodeAlloc he
  obtain rfl := Except.ok.inj h
  have hrecords : k₃.fs.ramfsInodes = bare.fs.ramfsInodes :=
    h₃.records.trans (h₂.records.trans h₁.records)
  have hsupply : k₃.fs.supply.pages ⊆ bare.fs.supply.pages :=
    List.Subset.trans h₃.supply (List.Subset.trans h₂.supply h₁.supply)
  have hbare : RamfsRecords bare := ⟨.init (by decide) (by decide) _, .init _ _ _⟩
  have hok : Slab.Ok k₃.fs.supply k₃.fs.ramfsInodes k₃.fs.ramfsInodes.slots := by
    rw [hrecords]
    exact hbare.records.of_subset hsupply
  have hunused : Slab.Unused clearedRamfsInode k₃.fs.ramfsInodes k₃.fs.ramfsInodes.slots := by
    rw [hrecords]
    exact hbare.unused
  refine ⟨hinv, ⟨hok, hunused⟩, ?_⟩
  rw [typeOf, hrootInode, hsuperblock, hsuperblocks]
  rfl

/-- What shows of the tree before and after a MKDIR. -/
def mkdirMounted (path : List U8) : Except Crash (U64 × List U64 × List U64 × U8) := do
  let k ← mounted
  let (res, k') ← k.sysMkdir 2 noResult path
  let (r, _) ← k'.vfsResolve 2 path noResult
  .ok (res, k.inodeSlots, k'.inodeSlots, r.status)

end FsKernel

end Persistos
