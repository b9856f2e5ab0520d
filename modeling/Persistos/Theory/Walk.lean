import Mathlib.Data.List.Nodup
import Mathlib.Data.List.TakeWhile

/-! Paths split at a separator, and walks along the components of a path
through a graph of directories. -/

namespace Persistos.Theory

section Components

variable {γ : Type} [DecidableEq γ]

/-- The maximal runs of characters other than `sep`. -/
def components (sep : γ) (s : List γ) : List (List γ) := (s.splitOn sep).filter (· ≠ [])

def endsIn (sep : γ) (s : List γ) : Bool := s.getLast? = some sep

variable {sep : γ} {s w rest : List γ}

@[simp] theorem components_nil : components sep [] = [] := by simp [components]

@[simp] theorem components_sep (s : List γ) : components sep (sep :: s) = components sep s := by
  have hh : (sep :: s).splitOn sep = [].splitOn sep ++ s.splitOn sep :=
    List.splitOn_append_cons_self [] s
  simp [components, hh]

@[simp] theorem components_append_sep (s : List γ) : components sep (s ++ [sep]) = components sep s := by
  have hh : (s ++ sep :: []).splitOn sep = s.splitOn sep ++ [].splitOn sep :=
    List.splitOn_append_cons_self s []
  simp [components, hh]

theorem components_append (hw : w ≠ []) (hs : sep ∉ w) (hr : rest = [] ∨ rest.head? = some sep) :
    components sep (w ++ rest) = w :: components sep rest := by
  cases rest with
  | nil => simp [components, List.splitOn_eq_singleton hs, hw]
  | cons c rest =>
    have hc : c = sep := by simpa using hr
    subst hc
    rw [components_sep, components, List.splitOn_append_cons_self_of_not_mem hs]
    simp [components, hw]

theorem components_dropWhile (s : List γ) :
    components sep (s.dropWhile (· = sep)) = components sep s := by
  induction s with
  | nil => rfl
  | cons c s ih =>
    by_cases hc : c = sep
    · simp [hc, ih]
    · simp [hc]

theorem endsIn_append (hs : sep ∉ w) :
    endsIn sep (w ++ rest) = endsIn sep rest := by
  cases rest with
  | nil =>
    have hlast : w.getLast? ≠ some sep := fun hh => hs (List.mem_of_getLast? hh)
    simp [endsIn, hlast]
  | cons c rest => simp [endsIn, List.getLast?_append_of_ne_nil w (List.cons_ne_nil c rest)]

theorem components_cons_ne_nil {c : γ} (hc : c ≠ sep) (s : List γ) :
    components sep (c :: s) ≠ [] := by
  have hsplit := List.takeWhile_append_dropWhile (p := (· ≠ sep)) (l := c :: s)
  rw [← hsplit, components_append]
  · simp
  · simp [hc]
  · exact fun hh => by simpa using List.mem_takeWhile_imp hh
  · have hh := List.head?_dropWhile_not (· ≠ sep) (c :: s)
    cases hd : (c :: s).dropWhile (· ≠ sep) with
    | nil => exact Or.inl rfl
    | cons d r =>
      rw [hd] at hh
      exact Or.inr (by simpa using hh)

theorem components_eq_nil_iff : components sep s = [] ↔ s.dropWhile (· = sep) = [] := by
  constructor
  · intro h
    cases hs : s.dropWhile (· = sep) with
    | nil => rfl
    | cons c r =>
      have hc : c ≠ sep := by
        have hh := List.head?_dropWhile_not (· = sep) s
        simpa [hs] using hh
      rw [← components_dropWhile, hs] at h
      exact absurd h (components_cons_ne_nil hc r)
  · intro h
    rw [← components_dropWhile, h, components_nil]

theorem endsIn_dropWhile (h : components sep s ≠ []) :
    endsIn sep (s.dropWhile (· = sep)) = endsIn sep s := by
  have hs : s.dropWhile (· = sep) ≠ [] := fun hh => h (components_eq_nil_iff.mpr hh)
  conv_rhs => rw [← List.takeWhile_append_dropWhile (p := (· = sep)) (l := s)]
  rw [endsIn, endsIn, List.getLast?_append_of_ne_nil _ hs]

theorem endsIn_of_components_eq_nil (h : components sep s = []) (hs : s ≠ []) :
    endsIn sep s = true := by
  have hall : ∀ c ∈ s, c = sep := by
    simpa using List.dropWhile_eq_nil_iff.mp (components_eq_nil_iff.mp h)
  have hh := hall _ (List.getLast_mem hs)
  simp [endsIn, List.getLast?_eq_some_getLast hs, hh]

end Components

/-- A graph of directories: an entry of a directory is found by its name and
leads to its target. -/
structure Directories (ι δ ν : Type) where
  isDir : ι → Bool
  entry : ι → ν → Option δ
  target : δ → ι

/-- Where a walk stands: the node, the entry that led there and the directory of
that entry. -/
structure Position (ι δ : Type) where
  inode : ι
  dentry : Option δ
  parent : ι
  deriving DecidableEq

inductive Outcome (ι δ ν : Type) where
  | notDirectory
  | noEntry
  | missing (position : Position ι δ) (name : ν)
  | found (position : Position ι δ)
  deriving DecidableEq

namespace Directories

variable {ι δ ν : Type}

def follow (D : Directories ι δ ν) (p : Position ι δ) (d : δ) : Position ι δ :=
  ⟨D.target d, some d, p.inode⟩

/-- The walk along a list of names. With `slash` the last one must lead to a
directory, and there is no object to be missing. -/
def walk (D : Directories ι δ ν) (slash : Bool) : Position ι δ → List ν → Outcome ι δ ν
  | p, [] => if slash && !D.isDir p.inode then .notDirectory else .found p
  | p, name :: rest =>
    if D.isDir p.inode then
      match D.entry p.inode name with
      | some d => D.walk slash (D.follow p d) rest
      | none => if rest = [] ∧ slash = false then .missing p name else .noEntry
    else .notDirectory

variable {D : Directories ι δ ν} {slash : Bool} {p : Position ι δ} {names : List ν}

theorem walk_of_not_isDir (h : D.isDir p.inode = false) (hs : names = [] → slash = true) :
    D.walk slash p names = .notDirectory := by
  cases names with
  | nil => simp [walk, h, hs rfl]
  | cons name rest => simp [walk, h]

theorem walk_nil_of_isDir (h : D.isDir p.inode = true) : D.walk slash p [] = .found p := by
  simp [walk, h]

theorem walk_cons_some {name : ν} {d : δ} (h : D.isDir p.inode = true)
    (he : D.entry p.inode name = some d) :
    D.walk slash p (name :: names) = D.walk slash (D.follow p d) names := by
  simp [walk, h, he]

theorem walk_cons_none {name : ν} (h : D.isDir p.inode = true)
    (he : D.entry p.inode name = none) :
    D.walk slash p (name :: names) =
      if names = [] ∧ slash = false then .missing p name else .noEntry := by
  simp [walk, h, he]

/-- `D'` is `D` with the entry `name` new in `dir`, as far as walks among the nodes `K` can
tell. -/
structure Adds (D D' : Directories ι δ ν) (K : ι → Prop) (dir : ι) (name : ν) (d : δ) : Prop where
  closed : ∀ i n e, K i → D.isDir i = true → D.entry i n = some e → K (D.target e)
  isDir : ∀ i, K i → D'.isDir i = D.isDir i
  old : ∀ i n e, K i → D.isDir i = true → D.entry i n = some e →
    D'.entry i n = some e ∧ D'.target e = D.target e
  new : D'.entry dir name = some d

variable {D' : Directories ι δ ν} {K : ι → Prop} {dir : ι} {name : ν} {d : δ} {q : Position ι δ}

theorem Adds.follow (h : D.Adds D' K dir name d) {n : ν} {e : δ} (hp : K p.inode)
    (hd : D.isDir p.inode = true) (he : D.entry p.inode n = some e) :
    D'.follow p e = D.follow p e := by
  rw [Directories.follow, Directories.follow, (h.old _ _ _ hp hd he).2]

/-- What was found is found again. -/
theorem Adds.walk_found (h : D.Adds D' K dir name d) (hp : K p.inode)
    (hw : D.walk slash p names = .found q) : D'.walk slash p names = .found q := by
  induction names generalizing p with
  | nil =>
    rw [walk] at hw ⊢
    rwa [h.isDir _ hp]
  | cons n names ih =>
    cases hd : D.isDir p.inode with
    | false =>
      rw [walk_of_not_isDir hd fun hh => absurd hh (List.cons_ne_nil _ _)] at hw
      cases hw
    | true =>
      have hd' : D'.isDir p.inode = true := (h.isDir _ hp).trans hd
      cases he : D.entry p.inode n with
      | none =>
        rw [walk_cons_none hd he] at hw
        split at hw <;> cases hw
      | some e =>
        rw [walk_cons_some hd he] at hw
        rw [walk_cons_some hd' (h.old _ _ _ hp hd he).1, h.follow hp hd he]
        exact ih (h.closed _ _ _ hp hd he) hw

/-- What was missing is the new entry. -/
theorem Adds.walk_missing (h : D.Adds D' K dir name d) (hp : K p.inode)
    (hw : D.walk slash p names = .missing q name) (hq : q.inode = dir) :
    D'.walk slash p names = .found (D'.follow q d) := by
  induction names generalizing p with
  | nil =>
    rw [walk] at hw
    split at hw <;> cases hw
  | cons n names ih =>
    cases hd : D.isDir p.inode with
    | false =>
      rw [walk_of_not_isDir hd fun hh => absurd hh (List.cons_ne_nil _ _)] at hw
      cases hw
    | true =>
      have hd' : D'.isDir p.inode = true := (h.isDir _ hp).trans hd
      cases he : D.entry p.inode n with
      | none =>
        rw [walk_cons_none hd he] at hw
        split at hw
        · next hlast =>
          obtain ⟨rfl, rfl⟩ := hlast
          cases hw
          rw [walk_cons_some hd' (hq ▸ h.new)]
          rfl
        · cases hw
      | some e =>
        rw [walk_cons_some hd he] at hw
        rw [walk_cons_some hd' (h.old _ _ _ hp hd he).1, h.follow hp hd he]
        exact ih (h.closed _ _ _ hp hd he) hw

/-- The name that is missing is missing in the directory that the walk has come to. -/
theorem walk_missing_entry (hK : ∀ i n e, K i → D.isDir i = true → D.entry i n = some e →
    K (D.target e)) (hp : K p.inode) (hw : D.walk slash p names = .missing q name) :
    K q.inode ∧ D.isDir q.inode = true ∧ D.entry q.inode name = none ∧
      names.getLast? = some name := by
  induction names generalizing p with
  | nil =>
    rw [walk] at hw
    split at hw <;> cases hw
  | cons n names ih =>
    cases hd : D.isDir p.inode with
    | false =>
      rw [walk_of_not_isDir hd fun hh => absurd hh (List.cons_ne_nil _ _)] at hw
      cases hw
    | true =>
      cases he : D.entry p.inode n with
      | none =>
        rw [walk_cons_none hd he] at hw
        split at hw
        · next hlast =>
          obtain ⟨rfl, rfl⟩ := hlast
          cases hw
          exact ⟨hp, hd, he, rfl⟩
        · cases hw
      | some e =>
        rw [walk_cons_some hd he] at hw
        obtain ⟨hk, hdir, hnone, hlast⟩ := ih (hK _ _ _ hp hd he) hw
        refine ⟨hk, hdir, hnone, ?_⟩
        rw [List.getLast?_cons, hlast]
        rfl

/-- A walk with names follows an entry at the end, and stands at its target. -/
theorem walk_found_entry (hK : ∀ i n e, K i → D.isDir i = true → D.entry i n = some e →
    K (D.target e)) (hp : K p.inode) (hn : names ≠ []) (hw : D.walk slash p names = .found q) :
    ∃ i n e, K i ∧ D.isDir i = true ∧ D.entry i n = some e ∧ q = ⟨D.target e, some e, i⟩ := by
  induction names generalizing p with
  | nil => exact absurd rfl hn
  | cons n names ih =>
    cases hd : D.isDir p.inode with
    | false =>
      rw [walk_of_not_isDir hd fun hh => absurd hh (List.cons_ne_nil _ _)] at hw
      cases hw
    | true =>
      cases he : D.entry p.inode n with
      | none =>
        rw [walk_cons_none hd he] at hw
        split at hw <;> cases hw
      | some e =>
        rw [walk_cons_some hd he] at hw
        by_cases hlast : names = []
        · subst hlast
          rw [walk] at hw
          split at hw
          · cases hw
          · obtain rfl := Outcome.found.inj hw
            exact ⟨p.inode, n, e, hp, hd, he, rfl⟩
        · exact ih (hK _ _ _ hp hd he) hlast hw

/-- Where each entry leads one level down, a walk ends as many levels down as it has names. -/
theorem walk_found_depth {depth : ι → Nat} (hK : ∀ i n e, K i → D.isDir i = true →
    D.entry i n = some e → K (D.target e) ∧ depth (D.target e) = depth i + 1) (hp : K p.inode)
    (hw : D.walk slash p names = .found q) : depth q.inode = depth p.inode + names.length := by
  induction names generalizing p with
  | nil =>
    rw [walk] at hw
    split at hw
    · cases hw
    · obtain rfl := Outcome.found.inj hw
      rfl
  | cons n names ih =>
    cases hd : D.isDir p.inode with
    | false =>
      rw [walk_of_not_isDir hd fun hh => absurd hh (List.cons_ne_nil _ _)] at hw
      cases hw
    | true =>
      cases he : D.entry p.inode n with
      | none =>
        rw [walk_cons_none hd he] at hw
        split at hw <;> cases hw
      | some e =>
        rw [walk_cons_some hd he] at hw
        obtain ⟨htarget, hdepth⟩ := hK _ _ _ hp hd he
        have hrest := ih htarget hw
        rw [follow] at hrest
        rw [hrest, hdepth, List.length_cons]
        omega

/-- A walk along the names follows the entry `d`. -/
def Crosses (D : Directories ι δ ν) (d : δ) : ι → List ν → Prop
  | _, [] => False
  | i, n :: ns =>
    D.isDir i = true ∧ ∃ e, D.entry i n = some e ∧ (e = d ∨ D.Crosses d (D.target e) ns)

/-- A walk along the names follows the entry `d` at the end, and not before. -/
def EndsWith (D : Directories ι δ ν) (d : δ) : ι → List ν → Prop
  | _, [] => False
  | i, [n] => D.isDir i = true ∧ D.entry i n = some d
  | i, n :: ns => D.isDir i = true ∧ ∃ e, D.entry i n = some e ∧ e ≠ d ∧
      D.EndsWith d (D.target e) ns

theorem endsWith_of_walk {depth : ι → Nat} (hK : ∀ i n e, K i → D.isDir i = true →
    D.entry i n = some e → K (D.target e) ∧ depth (D.target e) = depth i + 1) (hp : K p.inode)
    (hn : names ≠ []) (hw : D.walk slash p names = .found q) (hq : q.dentry = some d) :
    D.EndsWith d p.inode names := by
  induction names generalizing p with
  | nil => exact absurd rfl hn
  | cons n names ih =>
    cases hd : D.isDir p.inode with
    | false =>
      rw [walk_of_not_isDir hd fun hh => absurd hh (List.cons_ne_nil _ _)] at hw
      cases hw
    | true =>
      cases he : D.entry p.inode n with
      | none =>
        rw [walk_cons_none hd he] at hw
        split at hw <;> cases hw
      | some e =>
        rw [walk_cons_some hd he] at hw
        obtain ⟨htarget, -⟩ := hK _ _ _ hp hd he
        cases names with
        | nil =>
          rw [walk] at hw
          split at hw
          · cases hw
          · obtain rfl := Outcome.found.inj hw
            obtain rfl := Option.some.inj hq
            exact ⟨hd, he⟩
        | cons m names =>
          refine ⟨hd, e, he, ?_, ih htarget (List.cons_ne_nil m names) hw⟩
          rintro rfl
          obtain ⟨i, l, c, -, -, -, hend⟩ := walk_found_entry
            (fun i n e hi hd he => (hK i n e hi hd he).1) htarget (List.cons_ne_nil m names) hw
          have hdepth := walk_found_depth hK htarget hw
          rw [hend] at hq hdepth
          obtain rfl := Option.some.inj hq
          change depth (D.target c) = depth (D.target c) + (names.length + 1) at hdepth
          omega

/-- The node that a list of names leads to. -/
def reach (D : Directories ι δ ν) : ι → List ν → Option ι
  | i, [] => some i
  | i, name :: rest =>
    if D.isDir i then (D.entry i name).bind fun d => D.reach (D.target d) rest else none

variable {i j : ι}

theorem reach_cons_of_not_isDir {n : ν} {ns : List ν} (h : D.isDir i = false) :
    D.reach i (n :: ns) = none := by
  rw [reach, h, if_neg Bool.false_ne_true]

theorem reach_cons {n : ν} {ns : List ν} (h : D.isDir i = true) :
    D.reach i (n :: ns) = (D.entry i n).bind fun d => D.reach (D.target d) ns := by
  rw [reach, if_pos h]

theorem reach_append (us ws : List ν) :
    D.reach i (us ++ ws) = (D.reach i us).bind fun j => D.reach j ws := by
  induction us generalizing i with
  | nil => rfl
  | cons n us ih =>
    rw [List.cons_append]
    cases hd : D.isDir i with
    | false => rw [reach_cons_of_not_isDir hd, reach_cons_of_not_isDir hd, Option.bind_none]
    | true =>
      rw [reach_cons hd, reach_cons hd, Option.bind_assoc]
      exact congrArg (Option.bind (D.entry i n)) (funext fun d => ih)

theorem reach_mem {K : ι → Prop} (hK : ∀ i n e, K i → D.isDir i = true → D.entry i n = some e →
    K (D.target e)) (hi : K i) {ws : List ν} (hr : D.reach i ws = some j) : K j := by
  induction ws generalizing i with
  | nil => exact Option.some.inj hr ▸ hi
  | cons n ws ih =>
    cases hd : D.isDir i with
    | false =>
      rw [reach_cons_of_not_isDir hd] at hr
      cases hr
    | true =>
      rw [reach_cons hd] at hr
      obtain ⟨e, he, hr⟩ := Option.bind_eq_some_iff.mp hr
      exact ih (hK i n e hi hd he) hr

/-- A walk past a directory that lacks the last name. -/
theorem walk_missing_of_reach {us : List ν} (hr : D.reach p.inode us = some i)
    (hd : D.isDir i = true) (hn : D.entry i name = none) :
    ∃ q, D.walk false p (us ++ [name]) = .missing q name ∧ q.inode = i := by
  induction us generalizing p with
  | nil =>
    obtain rfl := Option.some.inj hr
    exact ⟨p, by rw [List.nil_append, walk_cons_none hd hn, if_pos ⟨rfl, rfl⟩], rfl⟩
  | cons n us ih =>
    cases hp : D.isDir p.inode with
    | false =>
      rw [reach_cons_of_not_isDir hp] at hr
      cases hr
    | true =>
      rw [reach_cons hp] at hr
      obtain ⟨e, he, hr⟩ := Option.bind_eq_some_iff.mp hr
      rw [List.cons_append, walk_cons_some hp he]
      exact ih hr

/-- Without a slash at its end, a walk finds what the names lead to. -/
theorem walk_found_of_reach {ws : List ν} (hr : D.reach p.inode ws = some j) :
    ∃ q, D.walk false p ws = .found q ∧ q.inode = j := by
  induction ws generalizing p with
  | nil => exact ⟨p, rfl, Option.some.inj hr⟩
  | cons n ws ih =>
    cases hd : D.isDir p.inode with
    | false =>
      rw [reach_cons_of_not_isDir hd] at hr
      cases hr
    | true =>
      rw [reach_cons hd] at hr
      obtain ⟨e, he, hr⟩ := Option.bind_eq_some_iff.mp hr
      rw [walk_cons_some hd he]
      exact ih hr

/-- With a new entry for a node that has none itself, one more list of names leads somewhere
for each that leads to its directory. -/
theorem Adds.reach_iff (h : D.Adds D' K dir name d) (hdir : D.isDir dir = true)
    (hnone : D.entry dir name = none)
    (honly : ∀ y n e, K y → D.isDir y = true → D'.entry y n = some e →
      D.entry y n = some e ∨ y = dir ∧ n = name ∧ e = d)
    (hleaf : ∀ n, D'.entry (D'.target d) n = none) (hi : K i) {ws : List ν} :
    D'.reach i ws = some j ↔ D.reach i ws = some j ∨
      ∃ us, ws = us ++ [name] ∧ D.reach i us = some dir ∧ j = D'.target d := by
  induction ws generalizing i with
  | nil =>
    refine ⟨fun hr => .inl hr, ?_⟩
    rintro (hr | ⟨us, hus, -⟩)
    · exact hr
    · exact absurd hus.symm (List.append_ne_nil_of_right_ne_nil us (List.cons_ne_nil _ _))
  | cons n ws ih =>
    cases hd : D.isDir i with
    | false =>
      have hd' : D'.isDir i = false := (h.isDir i hi).trans hd
      rw [reach_cons_of_not_isDir hd, reach_cons_of_not_isDir hd']
      refine ⟨fun hr => .inl hr, ?_⟩
      rintro (hr | ⟨us, hus, hr, -⟩)
      · exact hr
      · cases us with
        | nil =>
          obtain rfl := Option.some.inj hr
          rw [hdir] at hd
          cases hd
        | cons m us =>
          rw [reach_cons_of_not_isDir hd] at hr
          cases hr
    | true =>
      have hd' : D'.isDir i = true := (h.isDir i hi).trans hd
      rw [reach_cons hd, reach_cons hd']
      cases he : D.entry i n with
      | some e =>
        obtain ⟨he', htarget⟩ := h.old i n e hi hd he
        rw [he', Option.bind_some, Option.bind_some, htarget, ih (h.closed i n e hi hd he)]
        refine or_congr Iff.rfl ⟨?_, ?_⟩
        · rintro ⟨us, rfl, hr, hj⟩
          refine ⟨n :: us, rfl, ?_, hj⟩
          rw [reach_cons hd, he]
          exact hr
        · rintro ⟨us, hus, hr, hj⟩
          cases us with
          | nil =>
            obtain ⟨rfl, -⟩ := List.cons.inj hus
            obtain rfl := Option.some.inj hr
            rw [hnone] at he
            cases he
          | cons m us =>
            obtain ⟨rfl, rfl⟩ := List.cons.inj hus
            rw [reach_cons hd, he] at hr
            exact ⟨us, rfl, hr, hj⟩
      | none =>
        rw [Option.bind_none]
        cases he' : D'.entry i n with
        | none =>
          rw [Option.bind_none]
          refine ⟨fun hr => .inl hr, ?_⟩
          rintro (hr | ⟨us, hus, hr, -⟩)
          · exact hr
          · cases us with
            | nil =>
              obtain ⟨rfl, -⟩ := List.cons.inj hus
              obtain rfl := Option.some.inj hr
              rw [h.new] at he'
              cases he'
            | cons m us =>
              obtain ⟨rfl, rfl⟩ := List.cons.inj hus
              rw [reach_cons hd, he] at hr
              cases hr
        | some e =>
          obtain ⟨rfl, rfl, rfl⟩ := (honly i n e hi hd he').resolve_left fun hh => by
            rw [he] at hh
            cases hh
          rw [Option.bind_some]
          cases ws with
          | nil =>
            refine ⟨fun hr => .inr ⟨[], rfl, rfl, (Option.some.inj hr).symm⟩, ?_⟩
            rintro (hr | ⟨us, -, -, rfl⟩)
            · cases hr
            · rfl
          | cons m ws =>
            have hstop : D'.reach (D'.target e) (m :: ws) = none := by
              rw [reach, hleaf, Option.bind_none, ite_self]
            rw [hstop]
            refine ⟨fun hr => .inl hr, ?_⟩
            rintro (hr | ⟨us, hus, hr, -⟩)
            · exact hr
            · cases us with
              | nil => cases (List.cons.inj hus).2
              | cons l us =>
                obtain ⟨rfl, -⟩ := List.cons.inj hus
                rw [reach_cons hd, he] at hr
                cases hr

end Directories

end Persistos.Theory
