import Mathlib.Data.Set.Lattice
import Mathlib.Order.CompletePartialOrder

/-! Owners of cells of one store. A step of an owner takes cells that were not allocated and
leaves what it does not own as it is, so that owners apart from each other stay apart. -/

namespace Persistos.Theory

variable {ρ ι : Type} {β : ρ → Type}

/-- Which cells are allocated, and what the cells hold. -/
structure Cells (ρ : Type) (β : ρ → Type) where
  live : Set ρ
  val : ∀ r, β r

variable {h h₁ h' : Cells ρ β} {o o₁ o' p : Set ρ} {owns owns' : ι → Set ρ} {i j : ι} {r : ρ}

/-- A step of the owner of `o`, which owns `o'` after it. -/
structure LocalStep (h : Cells ρ β) (o : Set ρ) (h' : Cells ρ β) (o' : Set ρ) : Prop where
  live : ∀ r ∈ h.live, r ∉ o → r ∈ h'.live
  val : ∀ r ∈ h.live, r ∉ o → h'.val r = h.val r
  owned : ∀ r ∈ o', r ∈ o ∨ r ∉ h.live

theorem LocalStep.refl (h : Cells ρ β) (o : Set ρ) : LocalStep h o h o :=
  ⟨fun _ hr _ => hr, fun _ _ _ => rfl, fun _ hr => .inl hr⟩

theorem LocalStep.notMem (hs : LocalStep h o h' o') (hr : r ∈ h.live) (ho : r ∉ o) : r ∉ o' :=
  fun hr' => (hs.owned r hr').elim ho fun hn => hn hr

theorem LocalStep.trans (hs : LocalStep h o h₁ o₁) (hs' : LocalStep h₁ o₁ h' o') :
    LocalStep h o h' o' where
  live r hr ho := hs'.live r (hs.live r hr ho) (hs.notMem hr ho)
  val r hr ho := (hs'.val r (hs.live r hr ho) (hs.notMem hr ho)).trans (hs.val r hr ho)
  owned r hr := by
    by_contra hn
    obtain ⟨ho, hlive⟩ := not_or.mp hn
    rw [not_not] at hlive
    exact hs'.notMem (hs.live r hlive ho) (hs.notMem hlive ho) hr

/-- What somebody else owns is kept, and stays apart. -/
theorem LocalStep.frame (hs : LocalStep h o h' o') (hp : p ⊆ h.live) (hd : Disjoint p o) :
    p ⊆ h'.live ∧ Disjoint p o' ∧ ∀ r ∈ p, h'.val r = h.val r := by
  have hnot : ∀ r ∈ p, r ∉ o := fun r hr ho => Set.disjoint_left.mp hd hr ho
  refine ⟨fun r hr => hs.live r (hp hr) (hnot r hr), ?_, fun r hr => hs.val r (hp hr) (hnot r hr)⟩
  exact Set.disjoint_left.mpr fun r hr => hs.notMem (hp hr) (hnot r hr)

/-- No two owners have a cell in common, and all that they have is allocated. -/
structure Separated (h : Cells ρ β) (owns : ι → Set ρ) : Prop where
  live : ∀ i, owns i ⊆ h.live
  apart : ∀ i j, i ≠ j → Disjoint (owns i) (owns j)

theorem Separated.frame (hs : Separated h owns) (hstep : LocalStep h (owns i) h' o') (hne : j ≠ i) :
    owns j ⊆ h'.live ∧ Disjoint (owns j) o' ∧ ∀ r ∈ owns j, h'.val r = h.val r :=
  hstep.frame (hs.live j) (hs.apart j i hne)

theorem Separated.step (hs : Separated h owns) (hstep : LocalStep h (owns i) h' (owns' i))
    (hlive : owns' i ⊆ h'.live) (hrest : ∀ j, j ≠ i → owns' j = owns j) : Separated h' owns' where
  live j := by
    by_cases hj : j = i
    · exact hj ▸ hlive
    · rw [hrest j hj]
      exact (hs.frame hstep hj).1
  apart j k hne := by
    by_cases hj : j = i
    · subst hj
      rw [hrest k hne.symm]
      exact (hs.frame hstep hne.symm).2.1.symm
    · by_cases hk : k = i
      · subst hk
        rw [hrest j hj]
        exact (hs.frame hstep hj).2.1
      · rw [hrest j hj, hrest k hk]
        exact hs.apart j k hne

end Persistos.Theory
