import Mathlib.Data.List.Induction
import Mathlib.Data.List.Basic

/-! Trees of tables that live in a heap. Every table maps indices to further
tables, the tables are found by following paths of indices from the root, and
no two paths of interest lead to the same table. -/

namespace Persistos.Theory

variable {T I : Type}

def descend (child : T → I → Option T) (root : T) (path : List I) : Option T :=
  path.foldlM child root

@[simp] theorem descend_nil (child : T → I → Option T) (root : T) :
    descend child root [] = some root := rfl

theorem descend_snoc (child : T → I → Option T) (root : T) (path : List I) (i : I) :
    descend child root (path ++ [i]) = (descend child root path).bind (child · i) := by
  rw [descend, List.foldlM_append]
  simp [descend]

/-- Paths of interest: those of at most `depth` indices that satisfy a
predicate closed under dropping the last index. -/
structure Paths (ok : List I → Prop) (depth : Nat) (path : List I) : Prop where
  ok : ok path
  length_le : path.length ≤ depth

/-- No sharing: a table determines the path that leads to it. -/
structure TableTree (child : T → I → Option T) (root : T) (ok : List I → Prop) (depth : Nat) :
    Prop where
  prefix_ok : ∀ path i, ok (path ++ [i]) → ok path
  inj : ∀ p q t, Paths ok depth p → Paths ok depth q →
    descend child root p = some t → descend child root q = some t → p = q

def IsTable (child : T → I → Option T) (root : T) (ok : List I → Prop) (depth : Nat) (t : T) :
    Prop :=
  ∃ path, Paths ok depth path ∧ descend child root path = some t

theorem Paths.of_snoc {ok : List I → Prop} {depth : Nat} {path : List I} {i : I}
    (hpre : ∀ path i, ok (path ++ [i]) → ok path) (h : Paths ok depth (path ++ [i])) :
    Paths ok depth path ∧ path.length < depth := by
  have hl := h.length_le
  simp only [List.length_append, List.length_singleton] at hl
  exact ⟨⟨hpre path i h.ok, by omega⟩, by omega⟩

section Update

variable {child child' : T → I → Option T} {root : T} {ok : List I → Prop} {depth : Nat}

theorem descend_congr (hpre : ∀ path i, ok (path ++ [i]) → ok path)
    (h : ∀ q i t, Paths ok depth (q ++ [i]) → descend child root q = some t →
      child' t i = child t i) {p : List I} (hp : Paths ok depth p) :
    descend child' root p = descend child root p := by
  induction p using List.reverseRecOn with
  | nil => rfl
  | append_singleton q i ih =>
    rw [descend_snoc, descend_snoc, ih (hp.of_snoc hpre).1]
    cases hd : descend child root q with
    | none => rfl
    | some t => exact h q i t hp hd

/-- Tables that lead to nothing new have no new paths. -/
theorem descend_mono (h : ∀ t i u, child' t i = some u → child t i = some u) {p : List I} {t : T}
    (hp : descend child' root p = some t) : descend child root p = some t := by
  induction p using List.reverseRecOn generalizing t with
  | nil => exact hp
  | append_singleton q i ih =>
    rw [descend_snoc] at hp
    obtain ⟨u, hu, hi⟩ := Option.bind_eq_some_iff.mp hp
    rw [descend_snoc, ih hu]
    exact h u i t hi

theorem TableTree.congr (h : TableTree child root ok depth)
    (hd : ∀ q, Paths ok depth q → descend child' root q = descend child root q) :
    TableTree child' root ok depth where
  prefix_ok := h.prefix_ok
  inj := fun q r u hq hr hqu hru => h.inj q r u hq hr (hd q hq ▸ hqu) (hd r hr ▸ hru)

variable [DecidableEq I] {p : List I} {i : I} {t f : T}

/-- Hanging a new table without entries under an empty entry adds the path to
that entry and nothing else. -/
theorem TableTree.descend_graft (h : TableTree child root ok depth)
    (hp : Paths ok depth (p ++ [i])) (ht : descend child root p = some t)
    (habsent : child t i = none)
    (hnew : child' t i = some f)
    (hempty : ∀ j, Paths ok depth (p ++ [i] ++ [j]) → child' f j = none)
    (hsame : ∀ q j u, Paths ok depth (q ++ [j]) → descend child root q = some u →
      q ++ [j] ≠ p ++ [i] → child' u j = child u j)
    {q : List I} (hq : Paths ok depth q) :
    descend child' root q = if q = p ++ [i] then some f else descend child root q := by
  induction q using List.reverseRecOn with
  | nil => simp
  | append_singleton q j ih =>
    have hq' := (hq.of_snoc h.prefix_ok).1
    rw [descend_snoc, descend_snoc, ih hq']
    by_cases hqp : q = p ++ [i]
    · -- the new table is empty, and before it there was no table to follow
      subst hqp
      simp [hempty j hq, descend_snoc, ht, habsent]
    · rw [if_neg hqp]
      by_cases hqj : q ++ [j] = p ++ [i]
      · obtain ⟨rfl, rfl⟩ : q = p ∧ j = i := by simpa using hqj
        simp [ht, hnew]
      · rw [if_neg hqj]
        cases hd : descend child root q with
        | none => rfl
        | some u => exact hsame q j u hq hd hqj

theorem TableTree.graft (h : TableTree child root ok depth)
    (hfresh : ¬ IsTable child root ok depth f)
    (hd : ∀ q, Paths ok depth q →
      descend child' root q = if q = p ++ [i] then some f else descend child root q) :
    TableTree child' root ok depth where
  prefix_ok := h.prefix_ok
  inj := by
    intro q r u hq hr hqu hru
    rw [hd q hq] at hqu
    rw [hd r hr] at hru
    by_cases hqp : q = p ++ [i]
    · by_cases hrp : r = p ++ [i]
      · exact hqp.trans hrp.symm
      · obtain rfl : f = u := by simpa [hqp] using hqu
        exact absurd ⟨r, hr, by simpa [hrp] using hru⟩ hfresh
    · by_cases hrp : r = p ++ [i]
      · obtain rfl : f = u := by simpa [hrp] using hru
        exact absurd ⟨q, hq, by simpa [hqp] using hqu⟩ hfresh
      · exact h.inj q r u hq hr (by simpa [hqp] using hqu) (by simpa [hrp] using hru)

end Update

end Persistos.Theory
