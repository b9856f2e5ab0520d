import Persistos.Cstd
import Persistos.Vfs
import Persistos.Theory.Walk

/-! Path resolution. The loop that reads the path, searches the directories and
crosses the mounts is a walk along the components of the path. -/

namespace Persistos

open Theory

def slash : U8 := 0x2F

def vfsResolveSuccessExists : U8 := 0
def vfsResolveSuccessDoesntExist : U8 := 1
def vfsResolveErrDoesntExist : U8 := 3
def vfsResolveErrNotADir : U8 := 4

/-- The inodes and dentries by their addresses, and `&vfs_root_inode`. -/
structure VfsTree where
  vfsRootInode : U64
  inodes : U64 → Inode
  dentries : U64 → Dentry

/-- `nameStart` is a pointer into the path. -/
structure VfsLookupResult where
  status : U8
  inode : U64
  dentry : U64
  parentDirectory : U64
  nameStart : List U8
  nameLength : Nat
  deriving DecidableEq

/-- The hooks `inode->superblock->ops->lookup`, which may load a directory into
the tree. -/
abbrev LookupHook := VfsTree → U64 → U64 → Except Crash VfsTree

namespace VfsTree

/-- The search of a directory for a name of `length` characters. -/
def findDentry (t : VfsTree) (start : List U8) (length : Nat) : List U64 → Option U64
  | [] => none
  | dentry :: rest =>
    if strklcmp (t.dentries dentry).name start length = 0 then some dentry
    else t.findDentry start length rest

/-- The inode that a matching dentry leads to. -/
def behind (t : VfsTree) (dentry : U64) : U64 :=
  if (t.dentries dentry).mountedInode ≠ 0 then (t.dentries dentry).mountedInode
  else (t.dentries dentry).inode

end VfsTree

/-- `while (*buf == '/') buf++;` -/
def skipSlashes (buf : List U8) : List U8 := buf.dropWhile (· = slash)

/-- `while (*buf != '/' && *buf != 0) buf++;` -/
def skipFragment (buf : List U8) : List U8 := buf.dropWhile fun c => c ≠ slash ∧ c ≠ 0

def VfsLookupResult.exists (r : VfsLookupResult) (inode curDentry parentInode : U64) :
    VfsLookupResult :=
  { r with inode, dentry := curDentry, parentDirectory := parentInode,
           status := vfsResolveSuccessExists }

/-- The outer loop of `vfs_resolve`, for at most as many passes as the first argument
says. -/
def vfsResolveFrom (lookup : LookupHook) (r : VfsLookupResult) :
    Nat → VfsTree → List U8 → U64 → U64 → U64 → Except Crash (VfsLookupResult × VfsTree)
  | 0, _, _, _, _, _ => .error .endless
  | passes + 1, t, buf, inode, curDentry, parentInode =>
    if charAt buf = 0 then .ok (r.exists inode curDentry parentInode, t)
    else if (t.inodes inode).type ≠ inodeDirectory then
      .ok ({ r with status := vfsResolveErrNotADir }, t)
    else
      let fragmentStart := skipSlashes buf
      let fragmentEnd := skipFragment fragmentStart
      let length := fragmentStart.length - fragmentEnd.length
      if length = 0 then .ok (r.exists inode curDentry parentInode, t)
      else
        match t.findDentry fragmentStart length (t.inodes inode).dentries with
        | some dentry => do
          let target := t.behind dentry
          let t ← lookup t target dentry
          vfsResolveFrom lookup r passes t fragmentEnd target dentry inode
        | none =>
          if charAt fragmentEnd = 0 then
            .ok ({ r with
              status := vfsResolveSuccessDoesntExist
              dentry := curDentry
              parentDirectory := inode
              nameStart := fragmentStart
              nameLength := length }, t)
          else .ok ({ r with status := vfsResolveErrDoesntExist }, t)

def vfsResolve (lookup : LookupHook) (t : VfsTree) (path : List U8) (r : VfsLookupResult) :
    Except Crash (VfsLookupResult × VfsTree) :=
  vfsResolveFrom lookup r (path.length + 1) t (skipSlashes path) t.vfsRootInode 0 t.vfsRootInode

namespace VfsTree

/-- The directories as a graph. An entry is named by the string in its name field. -/
def directories (t : VfsTree) : Directories U64 U64 (List U8) where
  isDir inode := (t.inodes inode).type = inodeDirectory
  entry inode name :=
    (t.inodes inode).dentries.find? fun dentry => cString (t.dentries dentry).name = name
  target := t.behind

def root (t : VfsTree) : Position U64 U64 := ⟨t.vfsRootInode, none, t.vfsRootInode⟩

/-- The walk that a path describes. -/
def resolve (t : VfsTree) (path : List U8) : Outcome U64 U64 (List U8) :=
  let names := components slash (cString path)
  t.directories.walk (names ≠ [] && endsIn slash (cString path)) t.root names

/-- No hook has anything to load. -/
def Loaded (t : VfsTree) (lookup : LookupHook) : Prop :=
  ∀ inode, ∀ dentry ∈ (t.inodes inode).dentries, lookup t (t.behind dentry) dentry = .ok t

end VfsTree

/-- `r'` is what a caller that passed `r` finds for the outcome of a walk. A
missing name is the string at `nameStart`. -/
def Reports (r r' : VfsLookupResult) (path : List U8) : Outcome U64 U64 (List U8) → Prop
  | .notDirectory => r' = { r with status := vfsResolveErrNotADir }
  | .noEntry => r' = { r with status := vfsResolveErrDoesntExist }
  | .missing p name =>
    r' = { r with
      status := vfsResolveSuccessDoesntExist
      dentry := p.dentry.getD 0
      parentDirectory := p.inode
      nameStart := r'.nameStart
      nameLength := name.length } ∧
    r'.nameStart <:+ path ∧ cString r'.nameStart = name
  | .found p => r' = { r with
      status := vfsResolveSuccessExists
      inode := p.inode
      dentry := p.dentry.getD 0
      parentDirectory := p.parent }

theorem Reports.suffix {r r' : VfsLookupResult} {buf path : List U8}
    {o : Outcome U64 U64 (List U8)} (h : Reports r r' buf o) (hs : buf <:+ path) :
    Reports r r' path o := by
  cases o with
  | missing p name => exact ⟨h.1, h.2.1.trans hs, h.2.2⟩
  | notDirectory => exact h
  | noEntry => exact h
  | found p => exact h

/-- The first fragment of a path that does not start with a slash. -/
structure Fragment (start stop : List U8) (length : Nat) (name : List U8) : Prop where
  append : name ++ stop = start
  length_eq : name.length = length
  noSlash : slash ∉ name
  noZero : 0 ∉ name
  stop : cString stop = [] ∨ (cString stop).head? = some slash

theorem fragment (start : List U8) :
    Fragment start (skipFragment start) (start.length - (skipFragment start).length)
      (start.takeWhile fun c => c ≠ slash ∧ c ≠ 0) := by
  have happ : (start.takeWhile fun c => c ≠ slash ∧ c ≠ 0) ++ skipFragment start = start :=
    List.takeWhile_append_dropWhile
  have hmem : ∀ c ∈ start.takeWhile fun c => c ≠ slash ∧ c ≠ 0, c ≠ slash ∧ c ≠ 0 := by
    intro c hc
    simpa using List.mem_takeWhile_imp hc
  constructor
  · exact happ
  · have hlen := congrArg List.length happ
    rw [List.length_append] at hlen
    omega
  · exact fun h => (hmem _ h).1 rfl
  · exact fun h => (hmem _ h).2 rfl
  · have hh := List.head?_dropWhile_not (fun c => c ≠ slash ∧ c ≠ 0) start
    rw [← skipFragment] at hh
    cases hs : skipFragment start with
    | nil => exact Or.inl rfl
    | cons c rest =>
      by_cases hz : c = 0
      · exact Or.inl (hz ▸ cString_zero rest)
      · rw [hs] at hh
        have hc : c = slash := by
          by_contra hne
          exact hz (by simpa [hne] using hh)
        rw [cString_cons hz, hc]
        exact Or.inr rfl

theorem Fragment.cString_start {start stop name : List U8} {length : Nat}
    (h : Fragment start stop length name) : cString start = name ++ cString stop := by
  rw [← h.append, cString_append h.noZero]

theorem Fragment.findDentry {start stop name : List U8} {length : Nat}
    (h : Fragment start stop length name) (t : VfsTree) (dentries : List U64) :
    t.findDentry start length dentries =
      dentries.find? fun dentry => cString (t.dentries dentry).name = name := by
  have hle : length ≤ (cString start).length := by
    rw [h.cString_start, List.length_append, h.length_eq]
    omega
  have htake : (cString start).take length = name := by
    rw [h.cString_start, ← h.length_eq, List.take_left]
  induction dentries with
  | nil => rfl
  | cons dentry rest ih =>
    rw [VfsTree.findDentry, List.find?_cons]
    by_cases hd : cString (t.dentries dentry).name = name
    · rw [if_pos ((strklcmp_eq_zero_iff hle).mpr (hd.trans htake.symm))]
      simp [hd]
    · rw [if_neg (fun hh => hd (((strklcmp_eq_zero_iff hle).mp hh).trans htake)), ih]
      simp [hd]

theorem cString_skipSlashes (buf : List U8) :
    cString (skipSlashes buf) = (cString buf).dropWhile (· = slash) :=
  cString_dropWhile (by decide) buf

theorem components_skipSlashes (buf : List U8) :
    components slash (cString (skipSlashes buf)) = components slash (cString buf) := by
  rw [cString_skipSlashes, components_dropWhile]

/-- A fragment is the first component of the path, and what follows it holds the others. -/
theorem Fragment.components {buf stop name : List U8} {length : Nat}
    (h : Fragment (skipSlashes buf) stop length name) (hname : name ≠ []) :
    components slash (cString buf) = name :: Theory.components slash (cString stop) ∧
      endsIn slash (cString buf) = endsIn slash (cString stop) := by
  have hstart := cString_skipSlashes buf
  have hc : Theory.components slash (cString buf) =
      name :: Theory.components slash (cString stop) := by
    rw [← components_dropWhile, ← hstart, h.cString_start,
      components_append hname h.noSlash h.stop]
  refine ⟨hc, ?_⟩
  rw [← endsIn_dropWhile (by simp [hc]), ← hstart, h.cString_start, endsIn_append h.noSlash]

theorem Fragment.only_slashes {buf stop : List U8} {length : Nat}
    (h : Fragment (skipSlashes buf) stop length []) :
    Theory.components slash (cString buf) = [] := by
  have hstart := cString_skipSlashes buf
  have hstop : cString stop = cString (skipSlashes buf) := by rw [h.cString_start, List.nil_append]
  rw [components_eq_nil_iff, ← hstart, ← hstop]
  rcases h.stop with hn | hs
  · exact hn
  · rw [hstop, hstart] at hs
    have hh := List.head?_dropWhile_not (· = slash) (cString buf)
    rw [hs] at hh
    simp at hh

theorem vfsResolveFrom_walk {lookup : LookupHook} {t : VfsTree} (hl : t.Loaded lookup)
    (r : VfsLookupResult) {passes : Nat} {buf : List U8} (p : Position U64 U64)
    (hp : buf.length < passes) :
    ∃ r', vfsResolveFrom lookup r passes t buf p.inode (p.dentry.getD 0) p.parent = .ok (r', t) ∧
      Reports r r' buf (t.directories.walk (endsIn slash (cString buf)) p
        (components slash (cString buf))) := by
  induction passes generalizing buf p with
  | zero => omega
  | succ passes ih =>
    rw [vfsResolveFrom]
    by_cases hbuf : charAt buf = 0
    · rw [if_pos hbuf, charAt_eq_zero_iff.mp hbuf]
      exact ⟨_, rfl, by simp [Directories.walk, endsIn]; rfl⟩
    · rw [if_neg hbuf]
      have hne : cString buf ≠ [] := fun hh => hbuf (charAt_eq_zero_iff.mpr hh)
      by_cases hdir : (t.inodes p.inode).type = inodeDirectory
      · rw [if_neg (not_not_intro hdir)]
        have hd : t.directories.isDir p.inode = true := decide_eq_true hdir
        have hlen : (skipSlashes buf).length ≤ buf.length := List.length_dropWhile_le _ buf
        have hsuffix : skipSlashes buf <:+ buf := List.dropWhile_suffix _
        have hf := fragment (skipSlashes buf)
        generalize (skipSlashes buf).takeWhile (fun c => c ≠ slash ∧ c ≠ 0) = name at hf
        have hflen := congrArg List.length hf.append
        rw [List.length_append] at hflen
        simp only
        by_cases hname : name = []
        · subst hname
          have hzero : (skipSlashes buf).length - (skipFragment (skipSlashes buf)).length = 0 :=
            hf.length_eq.symm
          rw [if_pos hzero, hf.only_slashes, Directories.walk_nil_of_isDir hd]
          exact ⟨_, rfl, rfl⟩
        · have hpos : 0 < name.length := List.length_pos_of_ne_nil hname
          obtain ⟨hcomp, hends⟩ := hf.components hname
          rw [if_neg (by rw [← hf.length_eq]; omega), hf.findDentry, hcomp, hends]
          cases he : t.directories.entry p.inode name with
          | some d =>
            have hmem := List.mem_of_find?_eq_some he
            obtain ⟨r', hr, hrep⟩ := ih (t.directories.follow p d)
              (by omega : (skipFragment (skipSlashes buf)).length < passes)
            change List.find? _ _ = some d at he
            rw [he, Directories.walk_cons_some hd he]
            simp only [hl _ d hmem, ok_bind]
            have hstop : skipFragment (skipSlashes buf) <:+ skipSlashes buf := ⟨name, hf.append⟩
            exact ⟨r', hr, hrep.suffix (hstop.trans hsuffix)⟩
          | none =>
            rw [Directories.walk_cons_none hd he]
            change List.find? _ _ = none at he
            rw [he]
            by_cases hstop : charAt (skipFragment (skipSlashes buf)) = 0
            · have hnil := charAt_eq_zero_iff.mp hstop
              simp only [if_pos hstop, hnil, components_nil]
              refine ⟨_, rfl, ?_⟩
              simp only [endsIn, List.getLast?_nil]
              exact ⟨by simp [hf.length_eq], hsuffix, by rw [hf.cString_start, hnil, List.append_nil]⟩
            · simp only [if_neg hstop]
              refine ⟨_, rfl, ?_⟩
              rw [if_neg]
              · rfl
              · intro hh
                have hstop' := fun hh => hstop (charAt_eq_zero_iff.mpr hh)
                simp [endsIn_of_components_eq_nil hh.1 hstop'] at hh
      · rw [if_pos hdir, Directories.walk_of_not_isDir (decide_eq_false hdir)]
        · exact ⟨_, rfl, rfl⟩
        · exact fun hh => endsIn_of_components_eq_nil hh hne

theorem vfsResolve_reports {lookup : LookupHook} {t : VfsTree} (hl : t.Loaded lookup)
    (path : List U8) (r : VfsLookupResult) :
    ∃ r', vfsResolve lookup t path r = .ok (r', t) ∧ Reports r r' path (t.resolve path) := by
  have hlen : (skipSlashes path).length ≤ path.length := List.length_dropWhile_le _ path
  have hstart := cString_skipSlashes path
  obtain ⟨r', hr, hrep⟩ := vfsResolveFrom_walk hl r t.root (Nat.lt_succ_of_le hlen)
  refine ⟨r', hr, ?_⟩
  have hends : endsIn slash (cString (skipSlashes path)) =
      (decide (components slash (cString path) ≠ []) && endsIn slash (cString path)) := by
    by_cases hn : components slash (cString path) = []
    · rw [hstart, components_eq_nil_iff.mp hn]
      simp [endsIn, hn]
    · rw [hstart, endsIn_dropWhile hn]
      simp [hn]
  rw [hends, hstart, components_dropWhile] at hrep
  exact hrep.suffix (List.dropWhile_suffix _)

/-- Every tree and every path: the result is that of the walk. -/
theorem vfs_resolve_is_walk (lookup : LookupHook) (t : VfsTree) (hl : t.Loaded lookup)
    (path : List U8) (r : VfsLookupResult) :
    ∃ r', vfsResolve lookup t path r = .ok (r', t) ∧ Reports r r' path (t.resolve path) :=
  vfsResolve_reports hl path r

/-- A root with a file system mounted at `m`, which holds the file `f`. -/
def mountedTree : VfsTree where
  vfsRootInode := 1
  inodes := fun inode =>
    if inode = 1 then ⟨inodeDirectory, 0, 0, [10]⟩
    else if inode = 3 then ⟨inodeDirectory, 0, 0, [11]⟩
    else ⟨inodeRegularFile, 0, 0, []⟩
  dentries := fun dentry => if dentry = 10 then ⟨[0x6D], 3, 2⟩ else ⟨[0x66], 0, 4⟩

theorem vfs_resolve_is_walk_mountedTree :
    ∃ r', vfsResolve (fun t _ _ => .ok t) mountedTree [0x2F, 0x6D, 0x2F, 0x2F, 0x66] ⟨0, 0, 0, 0, [], 0⟩ =
        .ok (r', mountedTree) ∧
      Reports ⟨0, 0, 0, 0, [], 0⟩ r' [0x2F, 0x6D, 0x2F, 0x2F, 0x66]
        (mountedTree.resolve [0x2F, 0x6D, 0x2F, 0x2F, 0x66]) :=
  vfs_resolve_is_walk _ mountedTree (fun _ _ _ => rfl) _ _

example : mountedTree.resolve [0x2F, 0x6D, 0x2F, 0x2F, 0x66] = .found ⟨4, some 11, 3⟩ := by
  decide +kernel

end Persistos
