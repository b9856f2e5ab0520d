import Persistos.Word
import Persistos.Theory.Ring

/-! The intrusive lists of the kernel. A cell lies in the object it links, and
the head is a cell of its own. -/

namespace Persistos

open Theory

abbrev ListHead := Link U64

/-- The cells by their addresses. -/
abbrev ListMemory := U64 → ListHead

namespace ListMemory

def setPrev (m : ListMemory) (entry value : U64) : ListMemory :=
  Function.update m entry { m entry with prev := value }

def setNext (m : ListMemory) (entry value : U64) : ListMemory :=
  Function.update m entry { m entry with next := value }

@[simp] theorem setPrev_prev (m : ListMemory) (entry value a : U64) :
    (m.setPrev entry value a).prev = if a = entry then value else (m a).prev := by
  by_cases h : a = entry <;> simp [setPrev, h]

@[simp] theorem setPrev_next (m : ListMemory) (entry value a : U64) :
    (m.setPrev entry value a).next = (m a).next := by
  by_cases h : a = entry <;> simp [setPrev, h]

@[simp] theorem setNext_next (m : ListMemory) (entry value a : U64) :
    (m.setNext entry value a).next = if a = entry then value else (m a).next := by
  by_cases h : a = entry <;> simp [setNext, h]

@[simp] theorem setNext_prev (m : ListMemory) (entry value a : U64) :
    (m.setNext entry value a).prev = (m a).prev := by
  by_cases h : a = entry <;> simp [setNext, h]

end ListMemory

def initList (m : ListMemory) (head : U64) : ListMemory :=
  (m.setPrev head head).setNext head head

def listAdd (m : ListMemory) (newEntry head : U64) : ListMemory :=
  let following := (m head).next
  (((m.setPrev newEntry head).setNext head newEntry).setPrev following newEntry).setNext
    newEntry following

def listAddTail (m : ListMemory) (newEntry head : U64) : ListMemory :=
  let preceding := (m head).prev
  (((m.setPrev newEntry preceding).setNext preceding newEntry).setNext newEntry head).setPrev
    head newEntry

def listDel (m : ListMemory) (entry : U64) : ListMemory :=
  let following := (m entry).next
  let preceding := (m entry).prev
  (m.setPrev following preceding).setNext preceding following

theorem initList_linked (m : ListMemory) (head : U64) : Linked (initList m head) head [] := by
  constructor <;> simp [initList]

variable {m : ListMemory} {head e : U64} {xs ys : List U64}

theorem listAdd_linked (h : Linked m head xs) (he : e ∉ head :: xs) :
    Linked (listAdd m e head) head (e :: xs) := by
  obtain ⟨q, B, hq⟩ := List.exists_cons_of_ne_nil (List.concat_ne_nil head xs)
  have hgap := @Linked.gap _ m head head q [] xs [] B h rfl hq
  have hqm : q ∈ head :: xs := by
    have hh : q ∈ xs ++ [head] := by rw [hq]; exact List.mem_cons_self
    simpa [or_comm] using hh
  have hqe : q ≠ e := ne_of_mem_of_not_mem hqm he
  refine @Linked.insert _ m _ head head q e [] xs [] B _ h rfl hq he ?_ ?_
  · intro a
    simp [listAdd, hgap.1.2.1]
  · intro a
    by_cases ha : a = e
    · simp [listAdd, hgap.1.2.1, ha, hqe.symm]
    · simp [listAdd, hgap.1.2.1, ha]

theorem listAddTail_linked (h : Linked m head xs) (he : e ∉ head :: xs) :
    Linked (listAddTail m e head) head (xs ++ [e]) := by
  obtain ⟨A, p, hp⟩ : ∃ A p, head :: xs = A ++ [p] :=
    ⟨_, _, (List.dropLast_concat_getLast (List.cons_ne_nil head xs)).symm⟩
  have hnil : Linked m head (xs ++ []) := by rwa [List.append_nil]
  have hgap := hnil.gap hp rfl
  have hpm : p ∈ head :: xs := by simp [hp]
  have hpe : p ≠ e := ne_of_mem_of_not_mem hpm he
  have hhe : head ≠ e := ne_of_mem_of_not_mem List.mem_cons_self he
  refine hnil.insert hp rfl (by rwa [List.append_nil]) ?_ ?_
  · intro a
    by_cases ha : a = e
    · simp [listAddTail, ha]
    · simp [listAddTail, hgap.2.2.1, ha]
  · intro a
    by_cases ha : a = e
    · simp [listAddTail, hgap.2.2.1, ha, hhe.symm]
    · simp [listAddTail, hgap.2.2.1, ha]

/-- `list_add_tail` with a cell of the list in the place of its head. -/
theorem listAddTail_linked_before {d : U64} (h : Linked m head (xs ++ d :: ys))
    (he : e ∉ head :: (xs ++ d :: ys)) :
    Linked (listAddTail m e d) head (xs ++ e :: d :: ys) := by
  obtain ⟨A, p, hp⟩ : ∃ A p, head :: xs = A ++ [p] :=
    ⟨_, _, (List.dropLast_concat_getLast (List.cons_ne_nil head xs)).symm⟩
  have hgap := h.gap hp (List.cons_append : d :: ys ++ [head] = _)
  have hpm : p ∈ head :: (xs ++ d :: ys) := by
    have hh : p ∈ head :: xs := by simp [hp]
    exact (List.mem_cons.mp hh).elim (fun hh => hh ▸ List.mem_cons_self)
      fun hh => List.mem_cons_of_mem head (List.mem_append_left _ hh)
  have hpe : p ≠ e := ne_of_mem_of_not_mem hpm he
  have hde : d ≠ e := ne_of_mem_of_not_mem (by simp) he
  refine h.insert hp List.cons_append he ?_ ?_
  · intro a
    by_cases ha : a = e
    · simp [listAddTail, ha]
    · simp [listAddTail, hgap.2.2.1, ha]
  · intro a
    by_cases ha : a = e
    · simp [listAddTail, hgap.2.2.1, ha, hde.symm]
    · simp [listAddTail, hgap.2.2.1, ha]

theorem listDel_linked (h : Linked m head (xs ++ e :: ys)) :
    Linked (listDel m e) head (xs ++ ys) := by
  obtain ⟨A, p, q, B, hp, hq, hnext, hprev⟩ := h.around
  refine h.remove hp hq ?_ ?_
  · intro a
    simp [listDel, hnext, hprev]
  · intro a
    simp [listDel, hnext, hprev]

namespace ListMemory

theorem setPrev_ne {entry value a : U64} (h : a ≠ entry) : m.setPrev entry value a = m a :=
  Function.update_of_ne h _ _

theorem setNext_ne {entry value a : U64} (h : a ≠ entry) : m.setNext entry value a = m a :=
  Function.update_of_ne h _ _

end ListMemory

open ListMemory

/-- No cell changes but the new one and those of the list. -/
theorem listAdd_frame (h : Linked m head xs) {a : U64} (ha : a ∉ e :: head :: xs) :
    listAdd m e head a = m a := by
  have hne : ∀ b ∈ e :: head :: xs, a ≠ b := fun b hb hab => ha (hab ▸ hb)
  have he := hne e List.mem_cons_self
  have hhead := hne head (List.mem_cons_of_mem _ List.mem_cons_self)
  have hfollowing := hne _ (List.mem_cons_of_mem e (h.next_mem List.mem_cons_self))
  rw [listAdd, setNext_ne he, setPrev_ne hfollowing, setNext_ne hhead, setPrev_ne he]

theorem listAddTail_frame {d : U64} (h : Linked m head xs) (hd : d ∈ head :: xs) {a : U64}
    (ha : a ∉ e :: head :: xs) : listAddTail m e d a = m a := by
  have hne : ∀ b ∈ e :: head :: xs, a ≠ b := fun b hb hab => ha (hab ▸ hb)
  have he := hne e List.mem_cons_self
  have hdne := hne d (List.mem_cons_of_mem _ hd)
  have hpreceding := hne _ (List.mem_cons_of_mem e (h.prev_mem hd))
  rw [listAddTail, setPrev_ne hdne, setNext_ne he, setNext_ne hpreceding, setPrev_ne he]

theorem listDel_frame {d : U64} (h : Linked m head xs) (hd : d ∈ head :: xs) {a : U64}
    (ha : a ∉ head :: xs) : listDel m d a = m a := by
  have hnext : a ≠ (m d).next := fun hab => ha (hab ▸ h.next_mem hd)
  have hprev : a ≠ (m d).prev := fun hab => ha (hab ▸ h.prev_mem hd)
  rw [listDel, setNext_ne hprev, setPrev_ne hnext]

/-- The cell that is taken out still points to its old neighbours. -/
theorem listDel_self (h : Linked m head (xs ++ e :: ys)) : listDel m e e = m e := by
  obtain ⟨A, p, q, B, hp, hq, hnext, hprev⟩ := h.around
  have hperm : (head :: (xs ++ e :: ys)).Perm (e :: head :: (xs ++ ys)) :=
    @List.perm_middle _ e (head :: xs) ys
  have he : e ∉ head :: (xs ++ ys) := (List.nodup_cons.mp (hperm.nodup_iff.mp h.nodup)).1
  obtain ⟨hl, hr⟩ := gap_perm hp hq
  have hpe : e ≠ p := fun hh => he (hh ▸ hl.subset List.mem_cons_self)
  have hqe : e ≠ q := fun hh => he (hh ▸ hr.subset List.mem_cons_self)
  rw [listDel, hnext, hprev, setNext_ne hpe, setPrev_ne hqe]

/-- What the operations do to the sequence that `head` stands for, and to all others. -/
theorem lists_are_sequences (h : Linked m head xs) :
    (∀ e, e ∉ head :: xs →
      (Linked (listAdd m e head) head (e :: xs) ∧
        KeepsOthers m (listAdd m e head) (e :: head :: xs)) ∧
      (Linked (listAddTail m e head) head (xs ++ [e]) ∧
        KeepsOthers m (listAddTail m e head) (e :: head :: xs)) ∧
      ∀ ys y zs, xs = ys ++ y :: zs → Linked (listAddTail m e y) head (ys ++ e :: y :: zs) ∧
        KeepsOthers m (listAddTail m e y) (e :: head :: xs)) ∧
    ∀ ys y zs, xs = ys ++ y :: zs → Linked (listDel m y) head (ys ++ zs) ∧ listDel m y y = m y ∧
      KeepsOthers m (listDel m y) (head :: xs) := by
  have hmem : ∀ {ys y zs}, xs = ys ++ y :: zs → y ∈ head :: xs := by
    rintro ys y zs rfl
    simp
  refine ⟨fun e he => ⟨⟨listAdd_linked h he, .of_cells fun a => listAdd_frame h⟩,
    ⟨listAddTail_linked h he, .of_cells fun a => listAddTail_frame h List.mem_cons_self⟩,
    fun ys y zs hxs => ⟨?_, .of_cells fun a => listAddTail_frame h (hmem hxs)⟩⟩,
    fun ys y zs hxs => ⟨?_, ?_, .of_cells fun a => listDel_frame h (hmem hxs)⟩⟩
  · exact listAddTail_linked_before (hxs ▸ h) (hxs ▸ he)
  · exact listDel_linked (hxs ▸ h)
  · exact listDel_self (hxs ▸ h)

/-- A list of two cells at 1 and 2, with its head at 0. -/
def twoCells : ListMemory := listAddTail (listAddTail (initList (fun _ => ⟨9, 9⟩) 0) 1 0) 2 0

theorem lists_are_sequences_twoCells : Linked twoCells 0 [1, 2] ∧
    Linked (listAddTail twoCells 3 2) 0 [1, 3, 2] ∧ Linked (listDel twoCells 1) 0 [2] := by
  have h : Linked twoCells 0 [1, 2] := by decide
  obtain ⟨hadd, hdel⟩ := lists_are_sequences h
  exact ⟨h, ((hadd 3 (by decide)).2.2 [1] 2 [] rfl).1, (hdel [] 1 [2] rfl).1⟩

end Persistos
