import Mathlib.Data.List.Nodup

/-! Reading and writing a memory at a list of addresses, one after the other.
An address may occur more than once, and then the last write to it counts. -/

namespace Persistos.Theory

variable {α β : Type} [DecidableEq α]

def gather (m : α → β) (addrs : List α) : List β := addrs.map m

def store (m : α → β) (a : α) (b : β) : α → β := fun x => if x = a then b else m x

def scatter (m : α → β) : List α → List β → α → β
  | a :: addrs, b :: data => scatter (store m a b) addrs data
  | _, _ => m

omit [DecidableEq α] in
theorem gather_append (m : α → β) (addrs addrs' : List α) :
    gather m (addrs ++ addrs') = gather m addrs ++ gather m addrs' := List.map_append

theorem scatter_append (m : α → β) {addrs : List α} {data : List β}
    (hl : addrs.length = data.length) (addrs' : List α) (data' : List β) :
    scatter m (addrs ++ addrs') (data ++ data') = scatter (scatter m addrs data) addrs' data' := by
  induction addrs generalizing m data with
  | nil =>
    obtain rfl := List.length_eq_zero_iff.mp hl.symm
    rfl
  | cons a addrs ih =>
    cases data with
    | nil => simp at hl
    | cons b data =>
      have hl' : addrs.length = data.length := by simpa using hl
      exact ih (store m a b) hl'

/-- The addresses that a reader visits show in what it reads from some memory. -/
theorem eq_of_gather_eq [Nontrivial β] {addrs addrs' : List α}
    (h : ∀ m : α → β, gather m addrs = gather m addrs') : addrs = addrs' := by
  obtain ⟨b, c, hbc⟩ := exists_pair_ne β
  have hlen : addrs.length = addrs'.length := by
    simpa [gather] using congrArg List.length (h fun _ => b)
  apply List.ext_getElem hlen
  intro i hi hi'
  have hm := List.getElem_of_eq (h (store (fun _ => c) addrs[i] b)) (by simpa [gather] using hi)
  simp only [gather, List.getElem_map, store, if_true] at hm
  by_contra hne
  rw [if_neg (Ne.symm hne)] at hm
  exact hbc hm

end Persistos.Theory
