import Mathlib.Data.List.Chain
import Mathlib.Data.List.Find
import Mathlib.Data.List.Rotate

/-! Circular doubly linked lists through a head cell that carries no element,
and searches that go round such a list. -/

namespace Persistos.Theory

structure Link (α : Type) where
  prev : α
  next : α
  deriving DecidableEq

variable {α : Type}

/-- From `head` the cells lead through `xs` and back to `head`, in both directions. -/
structure Linked (m : α → Link α) (head : α) (xs : List α) : Prop where
  nodup : (head :: xs).Nodup
  next : (head :: xs).map (fun a => (m a).next) = xs ++ [head]
  prev : (xs ++ [head]).map (fun a => (m a).prev) = head :: xs

instance [DecidableEq α] (m : α → Link α) (head : α) (xs : List α) : Decidable (Linked m head xs) :=
  decidable_of_iff (((head :: xs).Nodup ∧ (head :: xs).map (fun a => (m a).next) = xs ++ [head]) ∧
    (xs ++ [head]).map (fun a => (m a).prev) = head :: xs)
    ⟨fun h => ⟨h.1.1, h.1.2, h.2⟩, fun h => ⟨⟨h.nodup, h.next⟩, h.prev⟩⟩

theorem isChain_of_map {f : α → α} {a b : α} {l : List α} (h : (a :: l).map f = l ++ [b]) :
    (a :: l ++ [b]).IsChain (fun x y => f x = y) := by
  induction l generalizing a with
  | nil => simpa using h
  | cons c l ih =>
    simp only [List.map_cons, List.cons_append, List.cons.injEq] at h
    exact List.isChain_cons_cons.mpr ⟨h.1, ih h.2⟩

theorem Linked.chain {m : α → Link α} {head : α} {xs : List α} (h : Linked m head xs) :
    (head :: xs ++ [head]).IsChain (fun a b => (m a).next = b) :=
  isChain_of_map h.next

/-- The cells of the list alone matter. -/
theorem Linked.congr {m m' : α → Link α} {head : α} {xs : List α} (h : Linked m head xs)
    (hm : ∀ a ∈ head :: xs, m' a = m a) : Linked m' head xs := by
  refine ⟨h.nodup, ?_, ?_⟩
  · rw [← h.next]
    exact List.map_congr_left fun a ha => by rw [hm a ha]
  · rw [← h.prev]
    refine List.map_congr_left fun a ha => ?_
    rw [hm a (by simpa [or_comm] using ha)]

theorem Linked.next_mem {m : α → Link α} {head a : α} {xs : List α} (h : Linked m head xs)
    (ha : a ∈ head :: xs) : (m a).next ∈ head :: xs := by
  have hmem : (m a).next ∈ xs ++ [head] := h.next ▸ List.mem_map_of_mem ha
  exact (List.perm_append_singleton head xs).subset hmem

theorem Linked.prev_mem {m : α → Link α} {head a : α} {xs : List α} (h : Linked m head xs)
    (ha : a ∈ head :: xs) : (m a).prev ∈ head :: xs := by
  have hmem : a ∈ xs ++ [head] := (List.perm_append_singleton head xs).symm.subset ha
  exact h.prev ▸ List.mem_map_of_mem hmem

/-- The lists that share no cell with `cells` are the same in `m'`. -/
def KeepsOthers (m m' : α → Link α) (cells : List α) : Prop :=
  ∀ head xs, Linked m head xs → List.Disjoint (head :: xs) cells → Linked m' head xs

theorem KeepsOthers.of_cells {m m' : α → Link α} {cells : List α}
    (h : ∀ a, a ∉ cells → m' a = m a) : KeepsOthers m m' cells :=
  fun _ _ hl hdisjoint => hl.congr fun a ha => h a fun hc => hdisjoint ha hc

theorem tail_eq_of_isRotated {d : α} {t u : List α} (hn : (d :: t).Nodup)
    (h : (d :: t) ~r (d :: u)) : t = u := by
  obtain ⟨n, hle, hr⟩ := List.isRotated_iff_mod.mp h
  rcases Nat.lt_or_eq_of_le hle with hlt | heq
  · have hh := List.head?_rotate hlt
    rw [hr, List.head?_cons, List.getElem?_eq_getElem hlt] at hh
    have hlen : 0 < (d :: t).length := by simp
    have hd : (d :: t)[n] = (d :: t)[0] := by simpa using hh.symm
    have hz : n = 0 := hn.getElem_inj_iff.mp hd
    rw [hz, List.rotate_zero] at hr
    exact (List.cons.inj hr).2
  · rw [heq, List.rotate_length] at hr
    exact (List.cons.inj hr).2

section Splice

variable {m m' : α → Link α} {head p q e : α} {xs ys A B : List α}

/-- `p` is the cell before the gap between `xs` and `ys` and `q` the one behind it. -/
theorem Linked.gap (h : Linked m head (xs ++ ys)) (hp : head :: xs = A ++ [p])
    (hq : ys ++ [head] = q :: B) :
    (A.map (fun a => (m a).next) = xs ∧ (m p).next = q ∧ ys.map (fun a => (m a).next) = B) ∧
      xs.map (fun a => (m a).prev) = A ∧ (m q).prev = p ∧ B.map (fun a => (m a).prev) = ys := by
  have hlen := congrArg List.length hp
  simp only [List.length_cons, List.length_append, List.length_nil] at hlen
  have hl : head :: (xs ++ ys) = A ++ (p :: ys) := by simpa using congrArg (· ++ ys) hp
  have hr : xs ++ ys ++ [head] = xs ++ (q :: B) := by simpa using congrArg (xs ++ ·) hq
  have hn := h.next
  have hb := h.prev
  rw [hl, hr, List.map_append] at hn hb
  have hn' := List.append_inj hn (by simp; omega)
  have hb' := List.append_inj hb (by simp; omega)
  simp only [List.map_cons, List.cons.injEq] at hn' hb'
  exact ⟨hn', hb'⟩

/-- The neighbours of a member. -/
theorem Linked.around (h : Linked m head (xs ++ e :: ys)) :
    ∃ A p q B, head :: xs = A ++ [p] ∧ ys ++ [head] = q :: B ∧ (m e).next = q ∧ (m e).prev = p := by
  obtain ⟨A, p, hp⟩ : ∃ A p, head :: xs = A ++ [p] :=
    ⟨_, _, (List.dropLast_concat_getLast (List.cons_ne_nil head xs)).symm⟩
  obtain ⟨q, B, hq⟩ := List.exists_cons_of_ne_nil (List.concat_ne_nil head ys)
  have hgap : e :: ys ++ [head] = e :: (q :: B) := by rw [← hq, List.cons_append]
  obtain ⟨⟨-, -, hnext⟩, -, hprev, -⟩ := h.gap hp hgap
  rw [List.map_cons, List.cons.injEq] at hnext
  exact ⟨A, p, q, B, hp, hq, hnext.1, hprev⟩

/-- The members in the order from the gap's two sides. -/
theorem gap_perm (hp : head :: xs = A ++ [p]) (hq : ys ++ [head] = q :: B) :
    (p :: (A ++ ys)).Perm (head :: (xs ++ ys)) ∧ (q :: (xs ++ B)).Perm (head :: (xs ++ ys)) := by
  have hl : head :: (xs ++ ys) = A ++ (p :: ys) := by simpa using congrArg (· ++ ys) hp
  have hr : xs ++ ys ++ [head] = xs ++ (q :: B) := by simpa using congrArg (xs ++ ·) hq
  constructor
  · rw [hl]
    exact List.perm_middle.symm
  · exact List.perm_middle.symm.trans (hr ▸ List.perm_append_singleton _ _)

theorem Linked.insert [DecidableEq α] (h : Linked m head (xs ++ ys))
    (hp : head :: xs = A ++ [p]) (hq : ys ++ [head] = q :: B) (he : e ∉ head :: (xs ++ ys))
    (hnext : ∀ a, (m' a).next = if a = e then q else if a = p then e else (m a).next)
    (hprev : ∀ a, (m' a).prev = if a = e then p else if a = q then e else (m a).prev) :
    Linked m' head (xs ++ e :: ys) := by
  obtain ⟨⟨hA, -, hys⟩, hxs, -, hB⟩ := h.gap hp hq
  obtain ⟨hl, hr⟩ := gap_perm hp hq
  have hcons : head :: (xs ++ e :: ys) = A ++ p :: e :: ys := by
    simpa using congrArg (fun l => l ++ e :: ys) hp
  have hsnoc : xs ++ e :: ys ++ [head] = xs ++ e :: q :: B := by
    simpa using congrArg (fun l => xs ++ e :: l) hq
  have hel : e ∉ p :: (A ++ ys) := fun hh => he (hl.subset hh)
  have her : e ∉ q :: (xs ++ B) := fun hh => he (hr.subset hh)
  have hpn := List.nodup_cons.mp (hl.nodup_iff.mpr h.nodup)
  have hqn := List.nodup_cons.mp (hr.nodup_iff.mpr h.nodup)
  simp only [List.mem_append, List.mem_cons, not_or] at hel her hpn hqn
  have hoff {l : List α} (h1 : e ∉ l) (h2 : p ∉ l) :
      l.map (fun a => (m' a).next) = l.map (fun a => (m a).next) := by
    apply List.map_congr_left
    intro a ha
    rw [hnext, if_neg (ne_of_mem_of_not_mem ha h1), if_neg (ne_of_mem_of_not_mem ha h2)]
  have hoff' {l : List α} (h1 : e ∉ l) (h2 : q ∉ l) :
      l.map (fun a => (m' a).prev) = l.map (fun a => (m a).prev) := by
    apply List.map_congr_left
    intro a ha
    rw [hprev, if_neg (ne_of_mem_of_not_mem ha h1), if_neg (ne_of_mem_of_not_mem ha h2)]
  constructor
  · have hperm : (head :: (xs ++ e :: ys)).Perm (e :: head :: (xs ++ ys)) :=
      @List.perm_middle _ e (head :: xs) ys
    exact hperm.nodup_iff.mpr (List.nodup_cons.mpr ⟨he, h.nodup⟩)
  · rw [hcons, hsnoc, List.map_append, hoff hel.2.1 hpn.1.1, hA, List.map_cons,
      List.map_cons, hoff hel.2.2 hpn.1.2, hys, hnext, hnext]
    simp [Ne.symm hel.1]
  · rw [hcons, hsnoc, List.map_append, hoff' her.2.1 hqn.1.1, hxs, List.map_cons,
      List.map_cons, hoff' her.2.2 hqn.1.2, hB, hprev, hprev]
    simp [Ne.symm her.1]

theorem Linked.remove [DecidableEq α] (h : Linked m head (xs ++ e :: ys))
    (hp : head :: xs = A ++ [p]) (hq : ys ++ [head] = q :: B)
    (hnext : ∀ a, (m' a).next = if a = p then q else (m a).next)
    (hprev : ∀ a, (m' a).prev = if a = q then p else (m a).prev) :
    Linked m' head (xs ++ ys) := by
  have hsub : (head :: (xs ++ ys)).Sublist (head :: (xs ++ e :: ys)) :=
    ((List.sublist_cons_self e ys).append_left xs).cons_cons head
  have hnd := h.nodup.sublist hsub
  have hgap : e :: ys ++ [head] = e :: (q :: B) := by rw [← hq, List.cons_append]
  obtain ⟨⟨hA, -, hys⟩, hxs, -, hB⟩ := h.gap hp hgap
  simp only [List.map_cons, List.cons.injEq] at hys hB
  obtain ⟨hl, hr⟩ := gap_perm hp hq
  have hpn := List.nodup_cons.mp (hl.nodup_iff.mpr hnd)
  have hqn := List.nodup_cons.mp (hr.nodup_iff.mpr hnd)
  simp only [List.mem_append, not_or] at hpn hqn
  have hcons : head :: (xs ++ ys) = A ++ p :: ys := by
    simpa using congrArg (fun l => l ++ ys) hp
  have hsnoc : xs ++ ys ++ [head] = xs ++ q :: B := by
    simpa using congrArg (fun l => xs ++ l) hq
  have hoff {l : List α} (h1 : p ∉ l) :
      l.map (fun a => (m' a).next) = l.map (fun a => (m a).next) := by
    apply List.map_congr_left
    intro a ha
    rw [hnext, if_neg (ne_of_mem_of_not_mem ha h1)]
  have hoff' {l : List α} (h1 : q ∉ l) :
      l.map (fun a => (m' a).prev) = l.map (fun a => (m a).prev) := by
    apply List.map_congr_left
    intro a ha
    rw [hprev, if_neg (ne_of_mem_of_not_mem ha h1)]
  constructor
  · exact hnd
  · rw [hcons, hsnoc, List.map_append, hoff hpn.1.1, hA, List.map_cons,
      hoff hpn.1.2, hys.2, hnext, if_pos rfl]
  · rw [hcons, hsnoc, List.map_append, hoff' hqn.1.1, hxs, List.map_cons,
      hoff' hqn.1.2, hB.2, hprev, if_pos rfl]

end Splice

section Search

variable [DecidableEq α]

/-- The members of `xs` in cyclic order from the one after `c`, which comes last. -/
def after (xs : List α) (c : α) : List α := xs.rotate (xs.idxOf c + 1)

theorem after_perm (xs : List α) (c : α) : (after xs c).Perm xs := List.rotate_perm xs _

theorem after_append_cons {l r : List α} {c : α} (h : c ∉ l) :
    after (l ++ c :: r) c = r ++ l ++ [c] := by
  have hi : (l ++ c :: r).idxOf c = l.length := by
    rw [List.idxOf_append_of_notMem h]
    simp
  have hs : l ++ c :: r = (l ++ [c]) ++ r := by simp
  have hlen : l.length + 1 = (l ++ [c]).length := by simp
  rw [after, hi, hs, hlen, List.rotate_append_length_eq, List.append_assoc]

/-- A rotation of `xs` has the same cyclic order. -/
theorem after_of_isRotated {xs l r : List α} {d : α} (hn : xs.Nodup) (h : xs ~r (l ++ d :: r)) :
    after xs d = r ++ l ++ [d] := by
  obtain ⟨l', r', rfl, hl'⟩ := List.eq_append_cons_of_mem (h.mem_iff.mpr (by simp) : d ∈ xs)
  have hfront (a b : List α) : (a ++ d :: b) ~r (d :: (b ++ a)) := List.isRotated_append
  have hh := tail_eq_of_isRotated ((hfront l' r').nodup_iff.mp hn)
    ((hfront l' r').symm.trans (h.trans (hfront l r)))
  rw [after_append_cons hl', hh]

/-- The next cell, with one more step where that is the head. -/
def skip (m : α → Link α) (head a : α) : α :=
  if (m a).next = head then (m head).next else (m a).next

theorem skip_chain_to_head {m : α → Link α} {head c d : α} {r : List α}
    (h : (c :: r ++ [head]).IsChain (fun a b => (m a).next = b)) (hr : head ∉ r)
    (hd : (m head).next = d) : (c :: r ++ [d]).IsChain (fun a b => skip m head a = b) := by
  induction r generalizing c with
  | nil =>
    have hc : (m c).next = head := by simpa using h
    simp [skip, hc, hd]
  | cons e r ih =>
    simp only [List.cons_append, List.isChain_cons_cons, List.mem_cons, not_or] at h hr ⊢
    have he : (m c).next ≠ head := fun hh => hr.1 (hh.symm.trans h.1)
    exact ⟨by rw [skip, if_neg he, h.1], ih h.2 hr.2⟩

theorem skip_chain_within {m : α → Link α} {head : α} {l : List α}
    (h : l.IsChain (fun a b => (m a).next = b)) (hl : head ∉ l) :
    l.IsChain (fun a b => skip m head a = b) := by
  refine h.imp_of_mem_imp ?_
  intro a b _ hb hab
  have hne : (m a).next ≠ head := fun hh => hl (hh ▸ hab ▸ hb)
  rw [skip, if_neg hne, hab]

/-- Skipping the head visits the members in cyclic order. -/
theorem Linked.skip_chain {m : α → Link α} {head c : α} {xs : List α} (h : Linked m head xs)
    (hc : c ∈ xs) : (c :: after xs c).IsChain (fun a b => skip m head a = b) := by
  obtain ⟨l, r, rfl, hl⟩ := List.eq_append_cons_of_mem hc
  have hn := (List.nodup_cons.mp h.nodup).1
  simp only [List.mem_append, List.mem_cons, not_or] at hn
  have hh : ((head :: l) ++ c :: (r ++ [head])).IsChain (fun a b => (m a).next = b) := by
    simpa using h.chain
  rw [after_append_cons hl]
  have hcr : (c :: r ++ [head]).IsChain (fun a b => (m a).next = b) := by
    simpa using (List.isChain_split.mp hh).2
  have hlc : (head :: (l ++ [c])).IsChain (fun a b => (m a).next = b) := by
    simpa using (List.isChain_split.mp hh).1
  obtain ⟨d, t, ht⟩ : ∃ d t, l ++ [c] = d :: t := by
    cases l with
    | nil => exact ⟨c, [], rfl⟩
    | cons d t => exact ⟨d, t ++ [c], rfl⟩
  have hnot : head ∉ l ++ [c] := by
    simp only [List.mem_append, List.mem_singleton, not_or]
    exact ⟨hn.1, hn.2.1⟩
  rw [List.append_assoc, ht]
  rw [ht] at hlc hnot
  have hfirst := skip_chain_to_head hcr hn.2.2 (List.isChain_cons_cons.mp hlc).1
  have hrest := skip_chain_within (List.isChain_cons_cons.mp hlc).2 hnot
  exact (@List.isChain_split _ _ _ (c :: r) _).mpr ⟨hfirst, hrest⟩

theorem notMem_of_after_eq {xs l r : List α} {c d : α} (hn : xs.Nodup) (hc : c ∈ xs)
    (h : after xs c = l ++ d :: r) : c ∉ l := by
  obtain ⟨a, b, rfl, ha⟩ := List.eq_append_cons_of_mem hc
  have hlast : c ∈ d :: r := by
    have hh := congrArg List.getLast? h
    rw [after_append_cons ha, List.getLast?_concat, List.getLast?_append_of_ne_nil _ (by simp)] at hh
    exact List.mem_of_getLast? hh.symm
  have hnd := (h ▸ after_perm _ c).nodup_iff.mpr hn
  exact fun hh => (List.disjoint_of_nodup_append hnd) hh hlast

variable {p : α → Bool} {xs : List α}

/-- The members met by `n` searches for the next one with `p`, each of which
starts where the one before ended. -/
def turns (p : α → Bool) (xs : List α) : Nat → α → List α
  | 0, _ => []
  | n + 1, c =>
    match (after xs c).find? p with
    | none => []
    | some d => d :: turns p xs n d

theorem turns_congr {q : α → Bool} {n : Nat} {c : α} (h : ∀ a ∈ xs, p a = q a) :
    turns p xs n c = turns q xs n c := by
  induction n generalizing c with
  | zero => rfl
  | succ n ih =>
    have hf : (after xs c).find? p = (after xs c).find? q :=
      List.find?_congr fun a ha => h a ((after_perm xs c).subset ha)
    simp only [turns, hf, ih]

/-- Where the search from `c` ends at `d`, the later search from `d` meets the
remaining members in the order in which the one from `c` would have met them. -/
theorem after_of_find {c d : α} (hn : xs.Nodup) (h : (after xs c).find? p = some d) :
    d ∈ xs ∧ p d = true ∧ ∃ rest, (after xs c).filter p = d :: rest ∧
      (after xs d).filter p = rest ++ [d] := by
  obtain ⟨hd, l, r, hs, hl⟩ := List.find?_eq_some_iff_append.mp h
  have hlf : l.filter p = [] := by
    apply List.filter_eq_nil_iff.mpr
    intro a ha
    simpa using hl a ha
  have hr : xs ~r (l ++ d :: r) := hs ▸ (List.IsRotated.forall xs _).symm
  refine ⟨hr.mem_iff.mpr (by simp), hd, r.filter p, ?_, ?_⟩
  · rw [hs]
    simp [hlf, hd]
  · rw [after_of_isRotated hn hr]
    simp [hlf, hd]

theorem turns_eq_take {n : Nat} {c : α} (hn : xs.Nodup) (h : n ≤ (xs.filter p).length) :
    turns p xs n c = ((after xs c).filter p).take n := by
  induction n generalizing c with
  | zero => simp [turns]
  | succ n ih =>
    have hlen : ((after xs c).filter p).length = (xs.filter p).length :=
      ((after_perm xs c).filter p).length_eq
    cases hf : (after xs c).find? p with
    | none =>
      have hnil : (after xs c).filter p = [] := List.filter_eq_nil_iff.mpr (by simpa using hf)
      rw [hnil, List.length_nil] at hlen
      omega
    | some d =>
      obtain ⟨-, -, rest, hc, hd⟩ := after_of_find hn hf
      rw [hc, List.length_cons] at hlen
      simp only [turns, hf]
      rw [ih (by omega), hc, hd, List.take_succ_cons, List.take_append_of_le_length (by omega)]

/-- As many searches as there are members with `p` meet each of them once. -/
theorem turns_perm (hn : xs.Nodup) (c : α) :
    (turns p xs (xs.filter p).length c).Perm (xs.filter p) := by
  have hp := (after_perm xs c).filter p
  rw [turns_eq_take hn (Nat.le_refl _), List.take_of_length_le hp.length_eq.le]
  exact hp

end Search

end Persistos.Theory
