import Persistos.FsLoads

/-! Path resolution over the file systems as they are mounted. It finds inodes in use, or
the place and the name of an entry that is missing. -/

namespace Persistos

open Theory

namespace FsKernel

/-- The outer loop of `vfs_resolve`, for at most as many passes as the third argument
says. -/
def vfsResolveFrom (fuel : Nat) (r : VfsLookupResult) :
    Nat → FsKernel → List U8 → U64 → U64 → U64 → Except Crash (VfsLookupResult × FsKernel)
  | 0, _, _, _, _, _ => .error .endless
  | passes + 1, k, buf, inode, curDentry, parentInode =>
    if charAt buf = 0 then .ok (r.exists inode curDentry parentInode, k)
    else if (k.inode inode).type ≠ inodeDirectory then
      .ok ({ r with status := vfsResolveErrNotADir }, k)
    else
      let fragmentStart := skipSlashes buf
      let fragmentEnd := skipFragment fragmentStart
      let length := fragmentStart.length - fragmentEnd.length
      if length = 0 then .ok (r.exists inode curDentry parentInode, k)
      else
        match k.tree.findDentry fragmentStart length (k.inode inode).dentries with
        | some dentry => do
          let target := k.tree.behind dentry
          let k ← k.lookup fuel target
          vfsResolveFrom fuel r passes k fragmentEnd target dentry inode
        | none =>
          if charAt fragmentEnd = 0 then
            .ok ({ r with
              status := vfsResolveSuccessDoesntExist
              dentry := curDentry
              parentDirectory := inode
              nameStart := fragmentStart
              nameLength := length }, k)
          else .ok ({ r with status := vfsResolveErrDoesntExist }, k)

def vfsResolve (fuel : Nat) (k : FsKernel) (path : List U8) (r : VfsLookupResult) :
    Except Crash (VfsLookupResult × FsKernel) :=
  vfsResolveFrom fuel r (path.length + 1) k (skipSlashes path) k.vfsRootInode 0 k.vfsRootInode

variable {k k' : FsKernel} {r r' : VfsLookupResult}

/-- The entries lead from inodes in use to such. -/
theorem Inv.closed (h : k.Inv) (i : U64) (n : List U8) (e : U64) (hi : k.Known i)
    (hd : k.tree.directories.isDir i = true) (he : k.tree.directories.entry i n = some e) :
    k.Known (k.tree.directories.target e) :=
  (h.entries i hi (of_decide_eq_true hd) e (List.mem_of_find?_eq_some he)).2

/-- A name that a path ends with, whose place is in the directory `r'.parentDirectory`. -/
structure Missing (k' : FsKernel) (r' : VfsLookupResult) (path : List U8) : Prop where
  known : k'.Known r'.parentDirectory
  directory : (k'.inode r'.parentDirectory).type = inodeDirectory
  suffix : r'.nameStart <:+ path
  name : (components slash (cString path)).getLast? = some (cString r'.nameStart)
  nameLength : r'.nameLength = (cString r'.nameStart).length

/-- What a resolution leaves and reports. -/
structure Resolved (k k' : FsKernel) (r' : VfsLookupResult) (path : List U8) : Prop
    extends Loaded k k' where
  found : r'.status = vfsResolveSuccessExists → k'.Known r'.inode
  missing : r'.status = vfsResolveSuccessDoesntExist → Missing k' r' path

theorem Resolved.of_found {path : List U8} (hk : k.Inv) (hi : k.Known r'.inode)
    (hs : r'.status = vfsResolveSuccessExists) : Resolved k k r' path :=
  ⟨.refl hk, fun _ => hi, fun hh => absurd (hs.symm.trans hh) (by decide)⟩

theorem Resolved.of_missing {path : List U8} (hk : k.Inv) (hm : Missing k r' path)
    (hs : r'.status = vfsResolveSuccessDoesntExist) : Resolved k k r' path :=
  ⟨.refl hk, fun hh => absurd (hs.symm.trans hh) (by decide), fun _ => hm⟩

theorem Resolved.of_error {path : List U8} (hk : k.Inv)
    (hs : r'.status = vfsResolveErrNotADir ∨ r'.status = vfsResolveErrDoesntExist) :
    Resolved k k r' path := by
  refine ⟨.refl hk, fun hh => ?_, fun hh => ?_⟩
  · exact absurd (hs.imp hh.symm.trans hh.symm.trans) (by decide)
  · exact absurd (hs.imp hh.symm.trans hh.symm.trans) (by decide)

theorem findDentry_mem {t : VfsTree} {start : List U8} {length : Nat} {dentries : List U64}
    {d : U64} (h : t.findDentry start length dentries = some d) : d ∈ dentries := by
  induction dentries with
  | nil => cases h
  | cons dentry rest ih =>
    rw [VfsTree.findDentry] at h
    split at h
    · obtain rfl := Option.some.inj h
      exact List.mem_cons_self
    · exact List.mem_cons_of_mem dentry (ih h)

theorem Missing.of_fragment {stop name buf : List U8} {length : Nat}
    (hf : Fragment (skipSlashes buf) stop length name) (hname : name ≠ [])
    (hm : Missing k' r' stop) : Missing k' r' buf where
  known := hm.known
  directory := hm.directory
  suffix := by
    have hstop : stop <:+ skipSlashes buf := ⟨name, hf.append⟩
    exact hm.suffix.trans (hstop.trans (List.dropWhile_suffix _))
  name := by
    rw [(hf.components hname).1, List.getLast?_cons, hm.name]
    rfl
  nameLength := hm.nameLength

theorem vfsResolveFrom_resolved {fuel passes : Nat} {buf : List U8} {inode d parent : U64}
    (hk : k.Inv) (hi : k.Known inode)
    (h : vfsResolveFrom fuel r passes k buf inode d parent = .ok (r', k')) :
    Resolved k k' r' buf := by
  induction passes generalizing k buf inode d parent with
  | zero => cases h
  | succ passes ih =>
    rw [vfsResolveFrom] at h
    split at h
    · cases h
      exact .of_found hk hi rfl
    · split at h
      · cases h
        exact .of_error hk (.inl rfl)
      · next hdir =>
        have hdir := not_not.mp hdir
        have hf := fragment (skipSlashes buf)
        generalize (skipSlashes buf).takeWhile (fun c => c ≠ slash ∧ c ≠ 0) = name at hf
        dsimp only at h
        split at h
        · cases h
          exact .of_found hk hi rfl
        · next hlength =>
          have hname : name ≠ [] := by
            rintro rfl
            exact hlength hf.length_eq.symm
          split at h
          · next dentry hfind =>
            obtain ⟨k₁, hlookup, h⟩ := bind_eq_ok h
            have hknown := (hk.entries inode hi hdir dentry (findDentry_mem hfind)).2
            have hloaded := lookup_loaded hk hknown hlookup
            have hres := ih hloaded.inv (hloaded.known hknown) h
            exact ⟨hloaded.trans hres.toLoaded, hres.found,
              fun hh => (hres.missing hh).of_fragment hf hname⟩
          · split at h
            · next hstop =>
              cases h
              have hnil := charAt_eq_zero_iff.mp hstop
              refine .of_missing hk ⟨hi, hdir, ?_, ?_, ?_⟩ rfl
              · exact List.dropWhile_suffix _
              · rw [(hf.components hname).1, hnil, components_nil, hf.cString_start, hnil,
                  List.append_nil]
                rfl
              · rw [hf.cString_start, hnil, List.append_nil]
                exact hf.length_eq.symm
            · cases h
              exact .of_error hk (.inr rfl)

theorem vfsResolve_resolved {fuel : Nat} {path : List U8} (hk : k.Inv)
    (h : k.vfsResolve fuel path r = .ok (r', k')) : Resolved k k' r' path := by
  have hres := vfsResolveFrom_resolved hk hk.root h
  refine ⟨hres.toLoaded, hres.found, fun hh => ?_⟩
  have hm := hres.missing hh
  refine ⟨hm.known, hm.directory, hm.suffix.trans (List.dropWhile_suffix _), ?_, hm.nameLength⟩
  rw [← components_skipSlashes]
  exact hm.name

/-- A lookup of what the names lead to from `i`, as far as there are entries, changes nothing. -/
def StillAlong (k : FsKernel) : U64 → List (List U8) → Prop
  | _, [] => True
  | i, w :: ws => (k.inode i).type = inodeDirectory →
      ∀ d, k.tree.directories.entry i w = some d →
        (∀ fuel, k.lookup fuel (k.tree.behind d) = .ok k) ∧ k.StillAlong (k.tree.behind d) ws

theorem StillAlong.vfsResolveFrom_eq {fuel passes : Nat} {buf : List U8} {inode d parent : U64}
    (h : k.StillAlong inode (components slash (cString buf))) :
    vfsResolveFrom fuel r passes k buf inode d parent =
      (Persistos.vfsResolveFrom (fun t _ _ => .ok t) r passes k.tree buf inode d parent).map
        fun p => (p.1, k) := by
  induction passes generalizing buf inode d parent with
  | zero => rfl
  | succ passes ih =>
    rw [vfsResolveFrom, Persistos.vfsResolveFrom]
    by_cases hbuf : charAt buf = 0
    · rw [if_pos hbuf, if_pos hbuf]
      rfl
    · rw [if_neg hbuf, if_neg hbuf]
      by_cases hdir : (k.inode inode).type ≠ inodeDirectory
      · have hdir' : (k.tree.inodes inode).type ≠ inodeDirectory := hdir
        rw [if_pos hdir, if_pos hdir']
        rfl
      · have hdir' : ¬(k.tree.inodes inode).type ≠ inodeDirectory := hdir
        rw [if_neg hdir, if_neg hdir']
        have hf := fragment (skipSlashes buf)
        generalize (skipSlashes buf).takeWhile (fun c => c ≠ slash ∧ c ≠ 0) = name at hf
        dsimp only
        by_cases hlength : (skipSlashes buf).length - (skipFragment (skipSlashes buf)).length = 0
        · rw [if_pos hlength, if_pos hlength]
          rfl
        · have hname : name ≠ [] := by
            rintro rfl
            exact hlength hf.length_eq.symm
          rw [if_neg hlength, if_neg hlength, hf.findDentry, hf.findDentry]
          have hsame : (k.tree.inodes inode).dentries = (k.inode inode).dentries := rfl
          rw [hsame]
          cases hfind : (k.inode inode).dentries.find?
              fun dentry => cString (k.tree.dentries dentry).name = name with
          | none =>
            dsimp only
            split <;> rfl
          | some dentry =>
            rw [(hf.components hname).1] at h
            obtain ⟨hlookup, hstill⟩ := h (not_not.mp hdir) dentry hfind
            dsimp only
            rw [hlookup, ok_bind, ok_bind, ih hstill]

/-- Where nothing is left to load, a resolution is the walk, and nothing changes. -/
theorem StillAlong.vfsResolve_reports {path : List U8}
    (h : k.StillAlong k.vfsRootInode (components slash (cString path))) (fuel : Nat)
    (r : VfsLookupResult) :
    ∃ r', k.vfsResolve fuel path r = .ok (r', k) ∧ Reports r r' path (k.tree.resolve path) := by
  have hl : k.tree.Loaded fun t _ _ => .ok t := fun _ _ _ => rfl
  obtain ⟨r', hr, hrep⟩ := Persistos.vfsResolve_reports hl path r
  refine ⟨r', ?_, hrep⟩
  rw [← components_skipSlashes] at h
  rw [vfsResolve, h.vfsResolveFrom_eq]
  rw [Persistos.vfsResolve] at hr
  exact congrArg (Except.map fun p => (p.1, k)) hr

/-- All the inodes in use are on the RAM file system. -/
def OnRamfs (k : FsKernel) : Prop := ∀ i, k.Known i → k.typeOf i = .ramfs

theorem OnRamfs.stillAlong (h : k.OnRamfs) (hk : k.Inv) {i : U64} (hi : k.Known i)
    (ws : List (List U8)) : k.StillAlong i ws := by
  induction ws generalizing i with
  | nil => trivial
  | cons w ws ih =>
    intro hdir d he
    have hknown := (hk.entries i hi hdir d (List.mem_of_find?_eq_some he)).2
    refine ⟨fun fuel => ?_, ih hknown⟩
    rw [FsKernel.lookup, h _ hknown]

theorem OnRamfs.vfsResolve_reports (h : k.OnRamfs) (hk : k.Inv) (fuel : Nat)
    (r : VfsLookupResult) (path : List U8) :
    ∃ r', k.vfsResolve fuel path r = .ok (r', k) ∧ Reports r r' path (k.tree.resolve path) :=
  (h.stillAlong hk hk.root _).vfsResolve_reports fuel r

end FsKernel

end Persistos
