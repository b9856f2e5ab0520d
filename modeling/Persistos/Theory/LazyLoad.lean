import Mathlib.Data.List.Infix
import Mathlib.Logic.Function.Basic

/-! Objects that several parties load on demand. A load adds items to the list of an object
in portions, with pauses between them, and takes the object's mark off at its end. -/

namespace Persistos.Theory

/-- `start` is what a load of an object does before its first pause, and `next` what it does
after one. It is over where there is no place to go on from. -/
structure Loader (ι σ α : Type) where
  start : ι → List α × Option σ
  next : σ → List α × Option σ

/-- `done` is what the load under way has added. -/
inductive Party (ι σ α : Type) where
  | idle
  | loading (i : ι) (place : σ) (done : List α)
  | killed

structure Loads (τ ι σ α : Type) where
  loadNeeded : ι → Bool
  items : ι → List α
  parties : τ → Party ι σ α

inductive LoadEvent (τ ι : Type) where
  | lookup (t : τ) (i : ι)
  | resume (t : τ)
  | kill (t : τ)

variable {τ ι σ α : Type} {L : Loader ι σ α}

namespace Loader

/-- What one load of an object has added after `n` pauses, if nothing interrupts it. -/
def after (L : Loader ι σ α) (i : ι) : Nat → List α × Option σ
  | 0 => L.start i
  | n + 1 =>
    match (L.after i n).2 with
    | none => L.after i n
    | some place => ((L.after i n).1 ++ (L.next place).1, (L.next place).2)

def Complete (L : Loader ι σ α) (i : ι) (xs : List α) : Prop := ∃ n, L.after i n = (xs, none)

/-- A load that goes on from a place adds `xs` until it ends. -/
inductive Ends (L : Loader ι σ α) : Option σ → List α → Prop where
  | none : L.Ends none []
  | some {place : σ} {xs : List α} :
      L.Ends (L.next place).2 xs → L.Ends (some place) ((L.next place).1 ++ xs)

theorem after_succ_none {i : ι} {n : Nat} (h : (L.after i n).2 = none) :
    L.after i (n + 1) = L.after i n := by
  rw [after, h]

theorem after_succ_some {i : ι} {n : Nat} {place : σ} (h : (L.after i n).2 = some place) :
    L.after i (n + 1) = ((L.after i n).1 ++ (L.next place).1, (L.next place).2) := by
  rw [after, h]

theorem after_prefix (i : ι) {n m : Nat} (h : n ≤ m) :
    (L.after i n).1 <+: (L.after i m).1 := by
  induction h with
  | refl => exact List.prefix_refl _
  | step _ ih =>
    refine ih.trans ?_
    rename_i m _
    cases hplace : (L.after i m).2 with
    | none => rw [after_succ_none hplace]
    | some place =>
      rw [after_succ_some hplace]
      exact List.prefix_append _ _

theorem after_none {i : ι} {n m : Nat} (h : (L.after i n).2 = none) (hle : n ≤ m) :
    L.after i m = L.after i n := by
  induction hle with
  | refl => rfl
  | step _ ih => rw [after_succ_none (by rw [ih, h]), ih]

/-- A load that has ended has added all that any load of the object adds. -/
theorem Complete.le {i : ι} {xs : List α} (h : L.Complete i xs) (n : Nat) :
    (L.after i n).1 <+: xs := by
  obtain ⟨m, hm⟩ := h
  rcases Nat.le_total n m with hle | hle
  · have hh := L.after_prefix i hle
    rwa [hm] at hh
  · rw [after_none (by rw [hm]) hle, hm]

theorem Complete.unique {i : ι} {xs ys : List α} (h : L.Complete i xs) (h' : L.Complete i ys) :
    xs = ys := by
  obtain ⟨n, hn⟩ := h
  obtain ⟨m, hm⟩ := h'
  rcases Nat.le_total n m with hle | hle
  · have hh := after_none (by rw [hn]) hle
    rw [hn, hm] at hh
    exact (congrArg Prod.fst hh).symm
  · have hh := after_none (by rw [hm]) hle
    rw [hn, hm] at hh
    exact congrArg Prod.fst hh

theorem Ends.of_next {place : σ} {xs ys : List α} {o : Option σ} (hn : L.next place = (xs, o))
    (h : L.Ends o ys) : L.Ends (Option.some place) (xs ++ ys) := by
  have hnext : L.Ends (L.next place).2 ys := by rwa [hn]
  have hh := Ends.some hnext
  rwa [hn] at hh

theorem Ends.complete {i : ι} {place : Option σ} {ys : List α} (h : L.Ends place ys) {n : Nat}
    {xs : List α} (hn : L.after i n = (xs, place)) : L.Complete i (xs ++ ys) := by
  induction h generalizing n xs with
  | none =>
    rw [List.append_nil]
    exact ⟨n, hn⟩
  | some h ih =>
    have hnext := after_succ_some (show (L.after i n).2 = _ by rw [hn])
    rw [hn] at hnext
    rw [← List.append_assoc]
    exact ih hnext

/-- The lists that loads of one object have added agree as far as they go. -/
theorem after_head {i : ι} {n m : Nat} (hn : (L.after i n).1 ≠ []) (hm : (L.after i m).1 ≠ []) :
    (L.after i n).1.head? = (L.after i m).1.head? := by
  rcases Nat.le_total n m with hle | hle
  · obtain ⟨zs, hzs⟩ := L.after_prefix i hle
    rw [← hzs, List.head?_append_of_ne_nil _ hn]
  · obtain ⟨zs, hzs⟩ := L.after_prefix i hle
    rw [← hzs, List.head?_append_of_ne_nil _ hm]

end Loader

namespace Loads

def init : Loads τ ι σ α := ⟨fun _ => true, fun _ => [], fun _ => .idle⟩

/-- Which load an event advances, with what it has added and what it adds now. -/
def advances (L : Loader ι σ α) (s : Loads τ ι σ α) :
    LoadEvent τ ι → Option (τ × ι × List α × (List α × Option σ))
  | .lookup t i =>
    match s.parties t with
    | .idle => if s.loadNeeded i then some (t, i, [], L.start i) else none
    | _ => none
  | .resume t =>
    match s.parties t with
    | .loading i place done => some (t, i, done, L.next place)
    | _ => none
  | .kill _ => none

/-- An event adds items to no list that another load has added to. -/
def Alone (L : Loader ι σ α) (s : Loads τ ι σ α) (event : LoadEvent τ ι) : Prop :=
  ∀ t i done portion, s.advances L event = some (t, i, done, portion) → portion.1 ≠ [] →
    s.items i = done

/-- At most one load has added to each list. -/
structure Single (L : Loader ι σ α) (s : Loads τ ι σ α) : Prop where
  place : ∀ t i p done, s.parties t = .loading i p done → ∃ n, L.after i n = (done, some p)
  done : ∀ t i p done, s.parties t = .loading i p done → done = [] ∨ done = s.items i
  one : ∀ t t' i p p' done done', t ≠ t' → s.parties t = .loading i p done →
    s.parties t' = .loading i p' done' → done = [] ∨ done' = []
  items : ∀ i, s.items i = [] ∨ ∃ n, (L.after i n).1 = s.items i
  loaded : ∀ i, s.loadNeeded i = false → L.Complete i (s.items i)

variable {s s' : Loads τ ι σ α} {event : LoadEvent τ ι} {t : τ} {i : ι} {done : List α}
  {portion : List α × Option σ}

theorem single_init : Single L (init : Loads τ ι σ α) where
  place _ _ _ _ h := by cases h
  done _ _ _ _ h := by cases h
  one _ _ _ _ _ _ _ _ h := by cases h
  items _ := .inl rfl
  loaded _ h := by cases h

/-- The load that is advanced has got as far as `done`, and nobody else has where it has. -/
theorem Single.advances (h : Single L s) (ha : s.advances L event = some (t, i, done, portion)) :
    (∃ n, L.after i n = (done ++ portion.1, portion.2)) ∧ (done = [] ∨ done = s.items i) ∧
      ∀ t' p' done', t' ≠ t → s.parties t' = .loading i p' done' → done = [] ∨ done' = [] := by
  cases event with
  | lookup t₀ i₀ =>
    rw [Loads.advances] at ha
    split at ha
    · split at ha
      · simp only [Option.some.injEq, Prod.mk.injEq] at ha
        obtain ⟨rfl, rfl, rfl, rfl⟩ := ha
        exact ⟨⟨0, rfl⟩, .inl rfl, fun _ _ _ _ _ => .inl rfl⟩
      · cases ha
    · cases ha
  | resume t₀ =>
    rw [Loads.advances] at ha
    split at ha
    · next i₀ p done₀ hparty =>
      simp only [Option.some.injEq, Prod.mk.injEq] at ha
      obtain ⟨rfl, rfl, rfl, rfl⟩ := ha
      obtain ⟨n, hn⟩ := h.place _ _ _ _ hparty
      refine ⟨⟨n + 1, ?_⟩, h.done _ _ _ _ hparty, fun t' p' done' hne hparty' => ?_⟩
      · rw [Loader.after_succ_some (by rw [hn]), hn]
      · exact h.one _ _ _ _ _ _ _ hne.symm hparty hparty'
    · cases ha
  | kill t₀ => cases ha

/-- Where a load adds to its list, the others of the object have added nothing. -/
theorem Single.others (h : Single L s) (ha : s.advances L event = some (t, i, done, portion))
    (halone : s.items i = done) {t' : τ} {p' : σ} {done' : List α}
    (ht : t' ≠ t) (hp : s.parties t' = .loading i p' done') : done' = [] := by
  obtain ⟨-, -, hone⟩ := h.advances ha
  rcases hone t' p' done' ht hp with hdone | hdone'
  · rcases h.done _ _ _ _ hp with hdone' | hdone'
    · exact hdone'
    · rw [hdone', halone, hdone]
  · exact hdone'

/-- The list that a load leaves is what the load has added, unless it has added nothing. -/
theorem Single.grown (h : Single L s) (ha : s.advances L event = some (t, i, done, portion))
    (halone : portion.1 ≠ [] → s.items i = done) :
    done ++ portion.1 = [] ∨ done ++ portion.1 = s.items i ++ portion.1 := by
  by_cases hadds : portion.1 = []
  · rw [hadds, List.append_nil, List.append_nil]
    exact (h.advances ha).2.1
  · rw [halone hadds]
    exact .inr rfl

/-- A load that ends leaves a list that no load of the object adds to. -/
theorem Single.ended (h : Single L s) (ha : s.advances L event = some (t, i, done, portion))
    (halone : portion.1 ≠ [] → s.items i = done) (hend : portion.2 = none) :
    L.Complete i (s.items i ++ portion.1) := by
  obtain ⟨⟨n, hn⟩, -, -⟩ := h.advances ha
  rw [hend] at hn
  rcases h.grown ha halone with hnil | hall
  · obtain ⟨rfl, hportion⟩ := List.append_eq_nil_iff.mp hnil
    rw [hportion, List.append_nil] at hn ⊢
    have hitems : s.items i = [] := by
      rcases h.items i with hitems | ⟨m, hm⟩
      · exact hitems
      · rw [← hm]
        exact List.prefix_nil.mp (Loader.Complete.le ⟨n, hn⟩ m)
    exact ⟨n, hitems ▸ hn⟩
  · rw [← hall]
    exact ⟨n, hn⟩

/-- An object without the mark is as it is left to be. -/
theorem Single.kept (h : Single L s) (ha : s.advances L event = some (t, i, done, portion))
    (halone : portion.1 ≠ [] → s.items i = done) (hloaded : s.loadNeeded i = false) :
    portion.1 = [] := by
  by_contra hadds
  obtain ⟨⟨n, hn⟩, -, -⟩ := h.advances ha
  have hprefix := (h.loaded i hloaded).le n
  rw [hn, halone hadds] at hprefix
  have hle := hprefix.length_le
  rw [List.length_append] at hle
  exact hadds (List.length_eq_zero_iff.mp (by omega))

/-- No list has an item twice, and that of an object without the mark is right. -/
def Once {β : Type} (key : α → β) (Right : ι → List α → Prop) (s : Loads τ ι σ α) : Prop :=
  ∀ i, ((s.items i).map key).Nodup ∧ (s.loadNeeded i = false → Right i (s.items i))

variable {β : Type} {key : α → β} {Right : ι → List α → Prop}

theorem Single.once (hright : ∀ i, ∃ xs, L.Complete i xs ∧ Right i xs ∧ (xs.map key).Nodup)
    (h : Single L s) : s.Once key Right := by
  intro i
  obtain ⟨xs, hxs, hi, hnodup⟩ := hright i
  refine ⟨?_, fun hloaded => (h.loaded i hloaded).unique hxs ▸ hi⟩
  rcases h.items i with hitems | ⟨n, hn⟩
  · rw [hitems]
    exact List.nodup_nil
  · rw [← hn]
    exact hnodup.sublist ((hxs.le n).sublist.map key)

variable [DecidableEq τ]

theorem Single.killed (h : Single L s) (t : τ) :
    Single L { s with parties := Function.update s.parties t .killed } := by
  have hparty : ∀ {t' i p done}, Function.update s.parties t .killed t' = .loading i p done →
      s.parties t' = .loading i p done := by
    intro t' i p done hp
    by_cases ht : t' = t
    · rw [ht, Function.update_self] at hp
      cases hp
    · rwa [Function.update_of_ne ht] at hp
  exact ⟨fun _ _ _ _ hp => h.place _ _ _ _ (hparty hp), fun _ _ _ _ hp => h.done _ _ _ _ (hparty hp),
    fun _ _ _ _ _ _ _ hne hp hp' => h.one _ _ _ _ _ _ _ hne (hparty hp) (hparty hp'),
    h.items, h.loaded⟩

variable [DecidableEq ι]

/-- The next portion of the load of `i` by `t`. -/
def advance (s : Loads τ ι σ α) (t : τ) (i : ι) (done : List α)
    (portion : List α × Option σ) : Loads τ ι σ α :=
  match portion.2 with
  | none =>
    { loadNeeded := Function.update s.loadNeeded i false
      items := Function.update s.items i (s.items i ++ portion.1)
      parties := Function.update s.parties t .idle }
  | some place =>
    { s with
      items := Function.update s.items i (s.items i ++ portion.1)
      parties := Function.update s.parties t (.loading i place (done ++ portion.1)) }

/-- An object without the mark is not loaded. A party that was killed takes no step. -/
def step (L : Loader ι σ α) (s : Loads τ ι σ α) (event : LoadEvent τ ι) :
    Option (Loads τ ι σ α) :=
  match s.advances L event with
  | some (t, i, done, portion) => some (s.advance t i done portion)
  | none =>
    match event with
    | .lookup t i =>
      match s.parties t with
      | .idle => if s.loadNeeded i then none else some s
      | _ => none
    | .resume _ => none
    | .kill t => some { s with parties := Function.update s.parties t .killed }

def run (L : Loader ι σ α) (events : List (LoadEvent τ ι)) : Option (Loads τ ι σ α) :=
  events.foldlM (step L) init

theorem step_cases (h : s.step L event = some s') :
    (∃ t i done portion, s.advances L event = some (t, i, done, portion) ∧
      s' = s.advance t i done portion) ∨
    (s.advances L event = none ∧ s' = s) ∨
    (s.advances L event = none ∧
      ∃ t, s' = { s with parties := Function.update s.parties t .killed }) := by
  cases ha : s.advances L event with
  | some advance =>
    obtain ⟨t, i, done, portion⟩ := advance
    simp only [step, ha] at h
    exact .inl ⟨t, i, done, portion, rfl, (Option.some.inj h).symm⟩
  | none =>
    simp only [step, ha] at h
    cases event with
    | lookup t i =>
      dsimp only at h
      split at h
      · split at h
        · cases h
        · exact .inr (.inl ⟨rfl, (Option.some.inj h).symm⟩)
      · cases h
    | resume t => cases h
    | kill t => exact .inr (.inr ⟨rfl, t, (Option.some.inj h).symm⟩)

theorem advance_items (s : Loads τ ι σ α) (t : τ) (i : ι) (done : List α)
    (portion : List α × Option σ) :
    (s.advance t i done portion).items =
      Function.update s.items i (s.items i ++ portion.1) := by
  rw [advance]
  split <;> rfl

theorem advance_loading {t' : τ} {i' : ι} {p' : σ} {done' : List α}
    (h : (s.advance t i done portion).parties t' = .loading i' p' done') :
    (t' = t ∧ i' = i ∧ portion.2 = some p' ∧ done' = done ++ portion.1) ∨
      (t' ≠ t ∧ s.parties t' = .loading i' p' done') := by
  rw [advance] at h
  by_cases ht : t' = t
  · subst ht
    split at h
    · cases (Function.update_self t' Party.idle s.parties).symm.trans h
    · next place hplace =>
      cases (Function.update_self t' _ s.parties).symm.trans h
      exact .inl ⟨rfl, rfl, hplace, rfl⟩
  · refine .inr ⟨ht, ?_⟩
    split at h
    · exact (Function.update_of_ne ht _ _).symm.trans h
    · exact (Function.update_of_ne ht _ _).symm.trans h

theorem advance_loaded {i' : ι} (h : (s.advance t i done portion).loadNeeded i' = false) :
    (i' = i ∧ portion.2 = none) ∨ s.loadNeeded i' = false := by
  rw [advance] at h
  split at h
  · next hend =>
    by_cases hi : i' = i
    · exact .inl ⟨hi, hend⟩
    · exact .inr ((Function.update_of_ne hi _ _).symm.trans h)
  · exact .inr h

theorem Single.advance (h : Single L s) (ha : s.advances L event = some (t, i, done, portion))
    (halone : portion.1 ≠ [] → s.items i = done) : Single L (s.advance t i done portion) where
  place t' i' p' done' hp := by
    rcases advance_loading hp with ⟨-, rfl, hplace, rfl⟩ | ⟨-, hp⟩
    · rw [← hplace]
      exact (h.advances ha).1
    · exact h.place _ _ _ _ hp
  done t' i' p' done' hp := by
    rw [advance_items]
    rcases advance_loading hp with ⟨-, rfl, -, rfl⟩ | ⟨ht, hp'⟩
    · rw [Function.update_self]
      exact h.grown ha halone
    · by_cases hi : i' = i
      · subst hi
        rw [Function.update_self]
        by_cases hadds : portion.1 = []
        · rw [hadds, List.append_nil]
          exact h.done _ _ _ _ hp'
        · exact .inl (h.others ha (halone hadds) ht hp')
      · rw [Function.update_of_ne hi]
        exact h.done _ _ _ _ hp'
  one t₁ t₂ i' p₁ p₂ done₁ done₂ hne hp₁ hp₂ := by
    rcases advance_loading hp₁ with ⟨rfl, rfl, -, rfl⟩ | ⟨ht₁, hp₁'⟩
    · rcases advance_loading hp₂ with ⟨rfl, -⟩ | ⟨ht₂, hp₂'⟩
      · exact absurd rfl hne
      · by_cases hadds : portion.1 = []
        · rw [hadds, List.append_nil]
          exact (h.advances ha).2.2 _ _ _ ht₂ hp₂'
        · exact .inr (h.others ha (halone hadds) ht₂ hp₂')
    · rcases advance_loading hp₂ with ⟨rfl, rfl, -, rfl⟩ | ⟨ht₂, hp₂'⟩
      · by_cases hadds : portion.1 = []
        · rw [hadds, List.append_nil]
          exact ((h.advances ha).2.2 _ _ _ ht₁ hp₁').symm
        · exact .inl (h.others ha (halone hadds) ht₁ hp₁')
      · exact h.one _ _ _ _ _ _ _ hne hp₁' hp₂'
  items i' := by
    rw [advance_items]
    by_cases hi : i' = i
    · subst hi
      rw [Function.update_self]
      by_cases hadds : portion.1 = []
      · rw [hadds, List.append_nil]
        exact h.items i'
      · obtain ⟨⟨n, hn⟩, -, -⟩ := h.advances ha
        rw [halone hadds]
        exact .inr ⟨n, by rw [hn]⟩
    · rw [Function.update_of_ne hi]
      exact h.items i'
  loaded i' hloaded := by
    rw [advance_items]
    by_cases hi : i' = i
    · subst hi
      rw [Function.update_self]
      rcases advance_loaded hloaded with ⟨-, hend⟩ | hloaded
      · exact h.ended ha halone hend
      · rw [h.kept ha halone hloaded, List.append_nil]
        exact h.loaded i' hloaded
    · rw [Function.update_of_ne hi]
      rcases advance_loaded hloaded with ⟨hi', -⟩ | hloaded
      · exact absurd hi' hi
      · exact h.loaded i' hloaded

/-- What one step preserves. -/
theorem Single.step (h : Single L s) (halone : Alone L s event)
    (hstep : s.step L event = some s') : Single L s' := by
  rcases step_cases hstep with ⟨t, i, done, portion, ha, rfl⟩ | ⟨-, rfl⟩ | ⟨-, t, rfl⟩
  · exact h.advance ha (halone t i done portion ha)
  · exact h
  · exact h.killed t

theorem step_advances (ha : s.advances L event = some (t, i, done, portion)) :
    s.step L event = some (s.advance t i done portion) := by
  simp only [step, ha]

/-- A load that adds to a list that another has added to repeats its first item. -/
theorem Single.alone (h : Single L s)
    (honce : ∀ s', s.step L event = some s' → s'.Once key Right) : Alone L s event := by
  intro t i done portion ha hadds
  by_contra hitems
  obtain ⟨⟨n, hn⟩, hdone, -⟩ := h.advances ha
  obtain rfl := hdone.resolve_right (Ne.symm hitems)
  obtain ⟨m, hm⟩ := (h.items i).resolve_left hitems
  have hfirst : (L.after i n).1 = portion.1 := by rw [hn, List.nil_append]
  have hheads : portion.1.head? = (s.items i).head? := by
    rw [← hm, ← hfirst]
    exact Loader.after_head (by rwa [hfirst]) (by rwa [hm])
  have hnodup := (honce _ (step_advances ha) i).1
  rw [advance_items, Function.update_self, List.map_append, List.nodup_append] at hnodup
  cases hportion : portion.1 with
  | nil => exact hadds hportion
  | cons x xs =>
    rw [hportion, List.head?_cons] at hheads
    refine hnodup.2.2 (key x) ?_ (key x) ?_ rfl
    · exact List.mem_map_of_mem (List.mem_of_mem_head? hheads.symm)
    · exact hportion ▸ List.mem_map_of_mem List.mem_cons_self

theorem run_append (events : List (LoadEvent τ ι)) (event : LoadEvent τ ι) :
    run L (events ++ [event]) = (run L events).bind fun s => s.step L event := by
  rw [run, List.foldlM_append]
  simp only [List.foldlM_cons, List.foldlM_nil, bind_pure]
  rfl

/-- What a run preserves. -/
theorem run_single {events : List (LoadEvent τ ι)}
    (halone : ∀ pre event s, pre ++ [event] <+: events → run L pre = some s → Single L s →
      Alone L s event)
    {pre : List (LoadEvent τ ι)} (hpre : pre <+: events) (hrun : run L pre = some s) :
    Single L s := by
  induction pre using List.reverseRecOn generalizing s with
  | nil =>
    obtain rfl := Option.some.inj hrun
    exact single_init
  | append_singleton pre event ih =>
    have hstep := hrun
    rw [run_append] at hstep
    obtain ⟨s₀, hrun₀, hstep⟩ := Option.bind_eq_some_iff.mp hstep
    have hs₀ := ih ((List.prefix_append pre [event]).trans hpre) hrun₀
    exact hs₀.step (halone pre event s₀ hpre hrun₀ hs₀) hstep

/-- Every list has each item once, whatever the parties do, exactly if no load adds to a list
that another load has added to. -/
theorem run_once_iff (hright : ∀ i, ∃ xs, L.Complete i xs ∧ Right i xs ∧ (xs.map key).Nodup)
    (events : List (LoadEvent τ ι)) :
    (∀ pre s, pre <+: events → run L pre = some s → s.Once key Right) ↔
      ∀ pre event s, pre ++ [event] <+: events → run L pre = some s → Alone L s event := by
  constructor
  · intro honce
    have halone : ∀ pre event s, pre ++ [event] <+: events → run L pre = some s → Single L s →
        Alone L s event := by
      intro pre event s hpre hrun hs
      refine hs.alone fun s' hstep => honce (pre ++ [event]) s' hpre ?_
      rw [run_append, hrun, Option.bind_some, hstep]
    intro pre event s hpre hrun
    have hpre' := (List.prefix_append pre [event]).trans hpre
    exact halone pre event s hpre hrun (run_single halone hpre' hrun)
  · intro halone pre s hpre hrun
    exact (run_single (fun pre event s hpre hrun _ => halone pre event s hpre hrun) hpre
      hrun).once hright

end Loads

end Persistos.Theory
