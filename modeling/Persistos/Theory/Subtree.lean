import Persistos.Theory.TableTree
import Mathlib.Data.List.Nodup
import Mathlib.Data.List.Flatten

/-! The tables below a table, in the order in which a walk over all entries leaves
them. A list of widths says how many entries the tables of each level have. -/

namespace Persistos.Theory

variable {T : Type} {child child' : T → Nat → Option T} {root t u : T} {ws : List Nat}

/-- Paths whose indices stay below the widths. -/
def Fits : List Nat → List Nat → Prop
  | _, [] => True
  | [], _ :: _ => False
  | w :: ws, i :: q => i < w ∧ Fits ws q

theorem Fits.nil : Fits ws [] := by cases ws <;> trivial

theorem Fits.length_le {q : List Nat} (h : Fits ws q) : q.length ≤ ws.length := by
  induction q generalizing ws with
  | nil => exact Nat.zero_le _
  | cons i q ih =>
    cases ws with
    | nil => exact h.elim
    | cons w ws => simpa using ih h.2

theorem Fits.of_append {q r : List Nat} (h : Fits ws (q ++ r)) : Fits ws q := by
  induction q generalizing ws with
  | nil => exact .nil
  | cons i q ih =>
    cases ws with
    | nil => exact h.elim
    | cons w ws => exact ⟨h.1, ih h.2⟩

theorem Fits.lt_of_snoc {q : List Nat} {i n : Nat} (h : Fits ws (q ++ [i]))
    (hn : ∀ w ∈ ws, w ≤ n) : i < n := by
  induction q generalizing ws with
  | nil =>
    cases ws with
    | nil => exact h.elim
    | cons w ws => exact Nat.lt_of_lt_of_le h.1 (hn w List.mem_cons_self)
  | cons j q ih =>
    cases ws with
    | nil => exact h.elim
    | cons w ws => exact ih h.2 fun v hv => hn v (List.mem_cons_of_mem w hv)

theorem Fits.paths {q : List Nat} (h : Fits ws q) : Paths (Fits ws) ws.length q := ⟨h, h.length_le⟩

theorem descend_cons (t : T) (i : Nat) (q : List Nat) :
    descend child t (i :: q) = (child t i).bind fun u => descend child u q := rfl

def below (child : T → Nat → Option T) : List Nat → T → List T
  | [], _ => []
  | w :: ws, t => (List.range w).flatMap fun i =>
      (child t i).elim [] fun u => below child ws u ++ [u]

theorem mem_below : u ∈ below child ws t ↔
    ∃ q, q ≠ [] ∧ Fits ws q ∧ descend child t q = some u := by
  induction ws generalizing t with
  | nil =>
    simp only [below, List.not_mem_nil, false_iff]
    rintro ⟨q, hq, hfits, -⟩
    exact hq (List.length_eq_zero_iff.mp (Nat.le_zero.mp hfits.length_le))
  | cons w ws ih =>
    simp only [below, List.mem_flatMap, List.mem_range]
    constructor
    · rintro ⟨i, hi, hu⟩
      cases hc : child t i with
      | none => simp [hc] at hu
      | some v =>
        rw [hc, Option.elim_some, List.mem_append, List.mem_singleton, ih] at hu
        rcases hu with ⟨q, -, hfits, hd⟩ | rfl
        · exact ⟨i :: q, List.cons_ne_nil i q, ⟨hi, hfits⟩, by rw [descend_cons, hc]; exact hd⟩
        · exact ⟨[i], List.cons_ne_nil i [], ⟨hi, .nil⟩, by
            rw [descend_cons, hc]; rfl⟩
    · rintro ⟨q, hq, hfits, hd⟩
      cases q with
      | nil => exact absurd rfl hq
      | cons i q =>
        obtain ⟨v, hc, hv⟩ := Option.bind_eq_some_iff.mp hd
        refine ⟨i, hfits.1, ?_⟩
        rw [hc, Option.elim_some, List.mem_append, List.mem_singleton, ih]
        by_cases hnil : q = []
        · subst hnil
          exact Or.inr (Option.some.inj hv).symm
        · exact Or.inl ⟨q, hnil, hfits.2, hv⟩

/-- Where no two paths meet, the walk meets no table twice. -/
theorem nodup_below (h : ∀ p q u, Fits ws p → Fits ws q → descend child t p = some u →
    descend child t q = some u → p = q) : (t :: below child ws t).Nodup := by
  have hroot : t ∉ below child ws t := by
    intro hmem
    obtain ⟨q, hq, hfits, hd⟩ := mem_below.mp hmem
    exact hq (h q [] t hfits .nil hd rfl)
  refine List.nodup_cons.mpr ⟨hroot, ?_⟩
  clear hroot
  induction ws generalizing t with
  | nil => exact List.nodup_nil
  | cons w ws ih =>
    refine List.nodup_flatMap.mpr ⟨?_, ?_⟩
    · intro i hi
      cases hc : child t i with
      | none => exact List.nodup_nil
      | some v =>
        have hv : ∀ p q u, Fits ws p → Fits ws q → descend child v p = some u →
            descend child v q = some u → p = q := by
          intro p q u hp hq hpu hqu
          have hi := List.mem_range.mp hi
          have hh := h (i :: p) (i :: q) u ⟨hi, hp⟩ ⟨hi, hq⟩ (by rw [descend_cons, hc]; exact hpu)
            (by rw [descend_cons, hc]; exact hqu)
          exact (List.cons.inj hh).2
        refine List.nodup_append_comm.mp (List.nodup_cons.mpr ⟨fun hmem => ?_, ih hv⟩)
        obtain ⟨q, hq, hfits, hd⟩ := mem_below.mp hmem
        exact hq (hv q [] v hfits .nil hd rfl)
    · refine List.nodup_range.imp_of_mem fun {i j} hi hj hij => ?_
      have hpath : ∀ i < w, ∀ u ∈ (child t i).elim [] fun u => below child ws u ++ [u],
          ∃ q, Fits ws q ∧ descend child t (i :: q) = some u := by
        intro i hi u hu
        cases hc : child t i with
        | none => simp [hc] at hu
        | some v =>
          rw [hc, Option.elim_some, List.mem_append, List.mem_singleton, mem_below] at hu
          rcases hu with ⟨q, -, hfits, hd⟩ | rfl
          · exact ⟨q, hfits, by rw [descend_cons, hc]; exact hd⟩
          · exact ⟨[], .nil, by rw [descend_cons, hc]; rfl⟩
      intro u hui huj
      obtain ⟨p, hp, hpu⟩ := hpath i (List.mem_range.mp hi) u hui
      obtain ⟨q, hq, hqu⟩ := hpath j (List.mem_range.mp hj) u huj
      exact hij (List.cons.inj (h _ _ u ⟨List.mem_range.mp hi, hp⟩ ⟨List.mem_range.mp hj, hq⟩
        hpu hqu)).1

theorem below_congr {n : Nat} (hn : ∀ w ∈ ws, w ≤ n)
    (h : ∀ u ∈ t :: below child ws t, ∀ i < n, child' u i = child u i) :
    below child' ws t = below child ws t := by
  induction ws generalizing t with
  | nil => rfl
  | cons w ws ih =>
    refine List.flatMap_congr fun i hi => ?_
    have hi' := List.mem_range.mp hi
    rw [h t List.mem_cons_self i (Nat.lt_of_lt_of_le hi' (hn w List.mem_cons_self))]
    cases hc : child t i with
    | none => rfl
    | some v =>
      have hv : ∀ u ∈ v :: below child ws v, u ∈ t :: below child (w :: ws) t := by
        intro u hu
        refine List.mem_cons_of_mem _ (List.mem_flatMap.mpr ⟨i, hi, ?_⟩)
        rw [hc, Option.elim_some, List.mem_append, List.mem_singleton, or_comm]
        exact List.mem_cons.mp hu
      rw [Option.elim_some, Option.elim_some,
        ih (fun w' hw => hn w' (List.mem_cons_of_mem w hw)) fun u hu => h u (hv u hu)]

end Persistos.Theory
