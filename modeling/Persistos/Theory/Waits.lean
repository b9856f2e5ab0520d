import Mathlib.Data.List.TakeWhile
import Persistos.Theory.Ring

/-! How long a member of a ring waits for a search that goes round it, while members are added
at the end of the ring and taken out. -/

namespace Persistos.Theory

section

variable {α : Type} [DecidableEq α] {xs : List α} {c d e x : α} {p q : α → Bool}

/-- The members with `p` between `c` and `d`. -/
def ahead (p : α → Bool) (xs : List α) (c d : α) : Nat :=
  ((after xs c).takeWhile fun a => a ≠ d).countP p

theorem takeWhile_append_of_mem {l r : List α} (h : d ∈ l) :
    ((l ++ r).takeWhile fun a => a ≠ d) = l.takeWhile fun a => a ≠ d := by
  rw [List.takeWhile_append, if_neg]
  intro hlen
  have hself := (List.takeWhile_prefix fun a => decide (a ≠ d)).eq_of_length hlen
  rw [← hself] at h
  have hd := List.mem_takeWhile_imp h
  exact of_decide_eq_true hd rfl

theorem takeWhile_append_of_notMem {l r : List α} (h : d ∉ l) :
    ((l ++ r).takeWhile fun a => a ≠ d) = l ++ r.takeWhile fun a => a ≠ d :=
  List.takeWhile_append_of_pos fun a ha => by simpa using ne_of_mem_of_not_mem ha h

theorem takeWhile_erase (hne : d ≠ x) : ((xs.erase x).takeWhile fun a => a ≠ d) =
    (xs.takeWhile fun a => a ≠ d).erase x := by
  induction xs with
  | nil => rfl
  | cons a xs ih =>
    by_cases hax : a = x
    · subst hax
      rw [List.erase_cons_head, List.takeWhile_cons_of_pos (by simpa using Ne.symm hne),
        List.erase_cons_head]
    · rw [List.erase_cons_tail (by simpa using hax)]
      by_cases had : a = d
      · subst had
        rw [List.takeWhile_cons_of_neg (by simp), List.takeWhile_cons_of_neg (by simp)]
        rfl
      · rw [List.takeWhile_cons_of_pos (by simpa using had),
          List.takeWhile_cons_of_pos (by simpa using had), ih,
          List.erase_cons_tail (by simpa using hax)]

/-- The members at both ends of the wait do not count. -/
theorem ahead_le (hc : c ∈ xs) (hd : d ∈ xs) (hne : d ≠ c) (hpc : p c = true) (hpd : p d = true) :
    ahead p xs c d + 2 ≤ xs.countP p := by
  obtain ⟨l, r, rfl, hl⟩ := List.eq_append_cons_of_mem hc
  have hmem : d ∈ r ++ l := by
    rw [List.mem_append, List.mem_cons] at hd
    rw [List.mem_append]
    rcases hd with hd | rfl | hd
    · exact .inr hd
    · exact absurd rfl hne
    · exact .inl hd
  obtain ⟨a, b, hab, ha⟩ := List.eq_append_cons_of_mem hmem
  have hcount : (l ++ c :: r).countP p = (a ++ d :: b).countP p + 1 := by
    rw [← hab, List.countP_append, List.countP_cons_of_pos hpc, List.countP_append]
    omega
  rw [ahead, after_append_cons hl, takeWhile_append_of_mem hmem, hab,
    takeWhile_append_of_notMem ha, List.takeWhile_cons_of_neg (by simp), List.append_nil, hcount,
    List.countP_append, List.countP_cons_of_pos hpd]
  omega

/-- A search that stops before it gets to `d` leaves one member less ahead of `d`. -/
theorem ahead_of_find (hn : xs.Nodup) (h : (after xs c).find? p = some e) (hd : d ∈ xs)
    (hp : p d = true) (hne : d ≠ e) : ahead p xs c d = ahead p xs e d + 1 := by
  obtain ⟨hpe, l, r, hs, hl⟩ := List.find?_eq_some_iff_append.mp h
  have hr : xs ~r (l ++ e :: r) := hs ▸ (List.IsRotated.forall xs _).symm
  have hdl : d ∉ l := fun hh => by simpa [hp] using hl d hh
  have hdr : d ∈ r := by
    have hmem := hr.mem_iff.mp hd
    rw [List.mem_append, List.mem_cons] at hmem
    rcases hmem with hmem | rfl | hmem
    · exact absurd hmem hdl
    · exact absurd rfl hne
    · exact hmem
  have hzero : l.countP p = 0 := List.countP_eq_zero.mpr fun a ha => by simpa using hl a ha
  rw [ahead, ahead, hs, after_of_isRotated hn hr, List.append_assoc, takeWhile_append_of_mem hdr,
    takeWhile_append_of_notMem hdl, List.takeWhile_cons_of_pos (by simpa using Ne.symm hne),
    List.countP_append, List.countP_cons_of_pos hpe, hzero, Nat.zero_add]

/-- A new member at the end is at most one more to wait for. -/
theorem ahead_append (hc : c ∈ xs) : ahead p (xs ++ [x]) c d ≤ ahead p xs c d + 1 := by
  obtain ⟨l, r, rfl, hl⟩ := List.eq_append_cons_of_mem hc
  rw [ahead, ahead, List.append_assoc, List.cons_append, after_append_cons hl, after_append_cons hl]
  simp only [List.append_assoc]
  by_cases hd : d ∈ r
  · rw [takeWhile_append_of_mem hd, takeWhile_append_of_mem hd]
    omega
  · rw [takeWhile_append_of_notMem hd, takeWhile_append_of_notMem hd, List.singleton_append,
      List.takeWhile_cons]
    split
    · rw [List.countP_append, List.countP_append, List.countP_cons]
      split <;> omega
    · rw [List.append_nil, List.countP_append]
      omega

theorem after_erase (hn : xs.Nodup) (hc : c ∈ xs) (hne : c ≠ x) :
    after (xs.erase x) c = (after xs c).erase x := by
  obtain ⟨l, r, rfl, hl⟩ := List.eq_append_cons_of_mem hc
  rw [after_append_cons hl]
  by_cases hx : x ∈ l
  · have hxr : x ∉ r := fun hh =>
      List.disjoint_of_nodup_append hn hx (List.mem_cons_of_mem _ hh)
    have hrl : (r ++ l ++ [c]).erase x = r ++ l.erase x ++ [c] := by
      rw [List.append_assoc, List.erase_append_right _ hxr, List.erase_append_left _ hx,
        List.append_assoc]
    rw [List.erase_append_left _ hx, after_append_cons fun hh => hl (List.mem_of_mem_erase hh), hrl]
  · rw [List.erase_append_right _ hx, List.erase_cons_tail (by simpa using hne),
      after_append_cons hl]
    by_cases hxr : x ∈ r
    · rw [List.append_assoc, List.append_assoc, List.erase_append_left _ hxr]
    · have hall : x ∉ r ++ l ++ [c] := by
        simp only [List.mem_append, List.mem_singleton, not_or]
        exact ⟨⟨hxr, hx⟩, Ne.symm hne⟩
      rw [List.erase_of_not_mem hxr, List.erase_of_not_mem hall]

/-- A member that is taken out is not one more to wait for. -/
theorem ahead_erase (hn : xs.Nodup) (hc : c ∈ xs) (hne : c ≠ x) (hd : d ≠ x) :
    ahead p (xs.erase x) c d ≤ ahead p xs c d := by
  rw [ahead, ahead, after_erase hn hc hne, takeWhile_erase hd]
  exact List.erase_sublist.countP_le

theorem ahead_mono (h : ∀ a ∈ xs, p a = true → q a = true) : ahead p xs c d ≤ ahead q xs c d := by
  refine List.countP_mono_left fun a ha hp => h a ?_ hp
  exact (after_perm xs c).subset ((List.takeWhile_sublist _).subset ha)

end

end Persistos.Theory
