import Persistos.FileLedger
import Persistos.FsSlots
import Persistos.Lists

/-! DUP2 in the memory of the kernel: the objects in the slots of `file_allocator`, which keep
their members when they are freed, and the cells that link the files of a task. -/

namespace Persistos

open Theory

/-- `struct file` without the cell `files_le`. -/
structure FileObject where
  fd : U32
  inode : U64
  offset : U64

structure FileSlots where
  supply : PageSupply
  files : Slab FileObject
  cells : ListMemory

/-- The cell of a file. -/
def filesLe (filp : U64) : U64 := filp + 24

/-- `container_of(files_le, struct file, files_le)` -/
def fileOfLe (filesLe : U64) : U64 := filesLe - 24

namespace FileSlots

def clearedFile : FileObject := ⟨0, 0, 0⟩

def file (s : FileSlots) (filp : U64) : FileObject := s.files.objects filp

/-- `list_for_each` from a cell on, left at the first file whose number is as wanted. -/
def findFrom (s : FileSlots) (filesLh : U64) (wanted : U32 → Bool) :
    Nat → U64 → Except Crash (Option U64)
  | 0, _ => .error .endless
  | fuel + 1, le =>
    if le = filesLh then .ok none
    else if wanted (s.file (fileOfLe le)).fd then .ok (some (fileOfLe le))
    else findFrom s filesLh wanted fuel (s.cells le).next

def filpFind (s : FileSlots) (fuel : Nat) (filesLh : U64) (fd : U32) :
    Except Crash (Option U64) :=
  s.findFrom filesLh (fun candidate => candidate = fd) fuel (s.cells filesLh).next

def filpInsertPointFind (s : FileSlots) (fuel : Nat) (filesLh : U64) (fd : U32) :
    Except Crash (Option U64) :=
  s.findFrom filesLh (fun candidate => candidate > fd) fuel (s.cells filesLh).next

/-- What is in a new page is cleared, cells and all. -/
def fileAlloc (s : FileSlots) : Except Crash (U64 × FileSlots) := do
  let (filp, supply, allocator, new) ← slabAlloc PageSupply.alloc s.supply s.files.allocator
  .ok (filp, ⟨supply, ⟨allocator, Slab.clearNew clearedFile new s.files.objects⟩,
    Slab.clearNew ⟨0, 0⟩ new s.cells⟩)

def fileFree (s : FileSlots) (filp : U64) : Except Crash FileSlots := do
  let files ← s.files.free filp
  .ok { s with files }

def modifyFile (s : FileSlots) (filp : U64) (f : FileObject → FileObject) : FileSlots :=
  { s with files := s.files.modify filp f }

/-- The part of DUP2 that takes the file with the new number out of the list. -/
def closeFile (s : FileSlots) : Option U64 → Except Crash FileSlots
  | none => .ok s
  | some filpToClose =>
    { s with cells := listDel s.cells (filesLe filpToClose) }.fileFree filpToClose

def nextFilpLe (filesLh : U64) : Option U64 → U64
  | none => filesLh
  | some nextFilp => filesLe nextFilp

/-- The assignments to the members of the new file. -/
def copyMembers (s : FileSlots) (newFilp oldFilp : U64) (fd : U32) : FileSlots :=
  let s := s.modifyFile newFilp fun filp => { filp with fd }
  let s := s.modifyFile newFilp fun filp => { filp with inode := (s.file oldFilp).inode }
  s.modifyFile newFilp fun filp => { filp with offset := (s.file oldFilp).offset }

/-- The rest of it, which still reads the members of the old file. -/
def linkCopy (s : FileSlots) (fuel : Nat) (filesLh oldFilp : U64) (fd : U32) :
    Except Crash (U64 × FileSlots) := do
  let nextFilp ← s.filpInsertPointFind fuel filesLh fd
  let (newFilp, s) ← s.fileAlloc
  let s := s.copyMembers newFilp oldFilp fd
  let s := { s with cells := listAddTail s.cells (filesLe newFilp) (nextFilpLe filesLh nextFilp) }
  .ok ((s.file newFilp).fd.setWidth 64, s)

/-- SYSCALL_DUP2 by the task with its files at `filesLh`. -/
def sysDup2 (s : FileSlots) (fuel : Nat) (filesLh arg3 arg4 : U64) :
    Except Crash (U64 × FileSlots) := do
  match ← s.filpFind fuel filesLh (arg3.setWidth 32) with
  | none => .ok (-1, s)
  | some oldFilp => do
    let filpToClose ← s.filpFind fuel filesLh (arg4.setWidth 32)
    let s ← s.closeFile filpToClose
    s.linkCopy fuel filesLh oldFilp (arg4.setWidth 32)

/-- The file at `filp` with its members. -/
def openFile (s : FileSlots) (filp : U64) : OpenFile :=
  ⟨filp, (s.file filp).fd, (s.file filp).inode, (s.file filp).offset⟩

/-- The files of a list, which are in slots of their own, in the order of their numbers. The
head of the list is in no page that the slots are in or may come to be in. -/
structure Table (s : FileSlots) (filesLh : U64) (files : List U64) : Prop where
  slab : Slab.Ok s.supply s.files s.files.slots
  size : s.files.allocator.objectSize = openFileSize
  live : ∀ f ∈ files, f ∈ s.files.slots
  linked : Linked s.cells filesLh (files.map filesLe)
  head : filesLh &&& pageAddressMask ∉ s.files.allocator.pages ++ s.supply.pages
  ordered : Ordered (files.map s.openFile)

/-- What a number stands for. -/
def denotes (s : FileSlots) (files : List U64) (fd : U32) : Option (U64 × U64) :=
  (Persistos.filpFind (files.map s.openFile) fd).map fun filp => (filp.inode, filp.offset)

variable {s s' : FileSlots} {filesLh filp next : U64} {files xs ys : List U64} {fuel : Nat} {fd : U32}

/-- The new file may be in the slot of the old one. -/
theorem file_copyMembers_self (s : FileSlots) (newFilp oldFilp : U64) (fd : U32) :
    (s.copyMembers newFilp oldFilp fd).file newFilp =
      ⟨fd, (s.file oldFilp).inode, (s.file oldFilp).offset⟩ := by
  by_cases h : oldFilp = newFilp
  · simp [copyMembers, modifyFile, file, Slab.modify, h]
  · simp [copyMembers, modifyFile, file, Slab.modify, h]

theorem file_copyMembers_ne (s : FileSlots) {newFilp oldFilp f : U64} (fd : U32)
    (h : f ≠ newFilp) : (s.copyMembers newFilp oldFilp fd).file f = s.file f := by
  simp [copyMembers, modifyFile, file, Slab.modify, h]

theorem fileOfLe_filesLe (filp : U64) : fileOfLe (filesLe filp) = filp := BitVec.add_sub_cancel _ _

theorem filesLe_injective : Function.Injective filesLe :=
  fun f g h => (fileOfLe_filesLe f).symm.trans ((congrArg fileOfLe h).trans (fileOfLe_filesLe g))

theorem findFrom_chain {wanted : U32 → Bool} {le : U64}
    (hchain : (le :: (files.map filesLe ++ [filesLh])).IsChain fun a b => (s.cells a).next = b)
    (hhead : filesLh ∉ files.map filesLe) (hfuel : files.length < fuel) :
    s.findFrom filesLh wanted fuel (s.cells le).next =
      .ok (files.find? fun f => wanted (s.file f).fd) := by
  induction files generalizing le fuel with
  | nil =>
    obtain ⟨fuel, rfl⟩ := Nat.exists_eq_succ_of_ne_zero (Nat.ne_of_gt hfuel)
    have hnext : (s.cells le).next = filesLh := (List.isChain_cons_cons.mp hchain).1
    rw [findFrom, if_pos hnext]
    rfl
  | cons f files ih =>
    obtain ⟨fuel, rfl⟩ := Nat.exists_eq_succ_of_ne_zero (Nat.ne_of_gt (Nat.zero_lt_of_lt hfuel))
    obtain ⟨hnext, hrest⟩ := List.isChain_cons_cons.mp hchain
    rw [List.map_cons, List.mem_cons, not_or] at hhead
    rw [findFrom, hnext, if_neg (Ne.symm hhead.1), fileOfLe_filesLe, List.find?_cons]
    by_cases hw : wanted (s.file f).fd = true
    · rw [if_pos hw, hw]
    · rw [if_neg hw, ih hrest hhead.2 (Nat.lt_of_succ_lt_succ hfuel), Bool.eq_false_iff.mpr hw]

namespace Table

/-- The search goes over the whole list. -/
theorem findFrom (h : s.Table filesLh files) (wanted : U32 → Bool) (hfuel : files.length < fuel) :
    s.findFrom filesLh wanted fuel (s.cells filesLh).next =
      .ok (files.find? fun f => wanted (s.file f).fd) :=
  findFrom_chain h.linked.chain (List.nodup_cons.mp h.linked.nodup).1 hfuel

theorem nodup (h : s.Table filesLh files) : files.Nodup :=
  .of_map filesLe (List.nodup_cons.mp h.linked.nodup).2

theorem page_mem (h : s.Table filesLh files) (hf : filp ∈ s.files.slots) :
    filp &&& pageAddressMask ∈ s.files.allocator.pages := h.slab.mask_mem_pages hf

/-- A cell is in the page of its file. -/
theorem filesLe_mask (h : s.Table filesLh files) (hf : filp ∈ s.files.slots) :
    filesLe filp &&& pageAddressMask = filp &&& pageAddressMask := by
  obtain ⟨p, hp, n, hn, -, rfl⟩ := (h.slab.inv.mem_live filp).mp hf
  have halign := h.slab.inv.aligned p hp
  have hat := h.slab.inv.sized.slotAt_toNat halign hn
  have hend := h.slab.inv.sized.slot_end_le hn
  have hlt := p.isLt
  have hal := halign
  simp only [PageAligned] at hal
  have hsize : s.files.allocator.objectSize.toNat = 40 := by
    rw [h.size]
    rfl
  have hcell : (filesLe (s.files.allocator.slotAt p n)).toNat =
      (s.files.allocator.slotAt p n).toNat + 24 := by
    rw [filesLe, BitVec.toNat_add]
    exact Nat.mod_eq_of_lt (by change _ + 24 < _; omega)
  rw [h.slab.inv.sized.slotAt_mask halign hn]
  exact mask_of_mem_page halign (by omega) (by omega)

theorem filesLe_ne_head (h : s.Table filesLh files) (hf : filp ∈ s.files.slots) :
    filesLe filp ≠ filesLh := by
  intro hh
  refine h.head (List.mem_append_left _ ?_)
  rw [← hh, h.filesLe_mask hf]
  exact h.page_mem hf

/-- The numbers tell the files apart. -/
theorem fd_inj (h : s.Table filesLh files) {f g : U64} (hf : f ∈ files) (hg : g ∈ files)
    (hfd : (s.file f).fd = (s.file g).fd) : f = g := by
  have hnd : (files.map fun f => (s.file f).fd).Nodup := by
    have hfds := h.ordered.fds_nodup
    rwa [List.map_map] at hfds
  exact List.inj_on_of_nodup_map hnd hf hg hfd

theorem find (h : s.Table filesLh files) (fd : U32) (hfuel : files.length < fuel) :
    s.filpFind fuel filesLh fd = .ok (files.find? fun f => (s.file f).fd = fd) :=
  h.findFrom (fun candidate => candidate = fd) hfuel

theorem close (h : s.Table filesLh files) (hf : filp ∈ files) :
    ∃ s', s.closeFile (some filp) = .ok s' ∧ s'.Table filesLh (files.erase filp) ∧
      s'.file = s.file ∧ s'.files.allocator.pages = s.files.allocator.pages ∧
      s'.files.slots.Perm (s.files.slots.erase filp) ∧
      ∃ page, ∃ n < 256, s'.files.allocator.SlotFree page n := by
  obtain ⟨allocator, ha, -, -, -, -, page, -, n, hn, -, -, hslot⟩ :=
    h.slab.inv.free (h.live filp hf)
  have hfree : s.files.free filp = .ok { s.files with allocator } := by
    rw [Slab.free, ha]
    rfl
  obtain ⟨hok, hperm, hobjects, hpages, hsize⟩ := h.slab.free_slots (h.live filp hf) hfree
  refine ⟨{ s with cells := listDel s.cells (filesLe filp), files := { s.files with allocator } },
    ?_, ?_, hobjects, hpages, hperm, page, n, Nat.lt_of_lt_of_le hn (Nat.min_le_left _ _),
    (hslot page n).mpr (.inr ⟨rfl, rfl⟩)⟩
  · rw [closeFile, fileFree, hfree]
    rfl
  · have hsame : (files.erase filp).map (openFile { s with
        cells := listDel s.cells (filesLe filp)
        files := { s.files with allocator } }) = (files.erase filp).map s.openFile := by
      refine List.map_congr_left fun f _ => ?_
      simp only [openFile, file]
    constructor
    · exact hok
    · exact hsize.trans h.size
    · intro f hf'
      refine hperm.mem_iff.mpr ((List.mem_erase_of_ne ?_).mpr (h.live f (List.mem_of_mem_erase hf')))
      rintro rfl
      exact h.nodup.not_mem_erase hf'
    · obtain ⟨xs, ys, rfl⟩ := List.append_of_mem hf
      have hx : filp ∉ xs := by
        have hnd := h.nodup
        rw [List.nodup_append] at hnd
        exact fun hh => hnd.2.2 filp hh filp List.mem_cons_self rfl
      have hlinked := h.linked
      rw [List.map_append, List.map_cons] at hlinked
      rw [List.erase_append_right _ hx, List.erase_cons_head, List.map_append]
      exact listDel_linked hlinked
    · rw [show ({ s with
        cells := listDel s.cells (filesLe filp)
        files := { s.files with allocator } } : FileSlots).files.allocator.pages = _ from hpages]
      exact h.head
    · rw [hsame]
      exact List.Pairwise.sublist (List.erase_sublist.map _) h.ordered

/-- `s'` is `s` with one more slot in use. What was in the pages before is as it was. -/
structure Took (s s' : FileSlots) (filesLh : U64) (files : List U64) (filp : U64) : Prop where
  table : s'.Table filesLh files
  slots : s'.files.slots.Perm (filp :: s.files.slots)
  not_mem : filp ∉ s.files.slots
  same : ∀ f, f &&& pageAddressMask ∈ s.files.allocator.pages → s'.file f = s.file f

theorem alloc (h : s.Table filesLh files) (ha : s.fileAlloc = .ok (filp, s')) :
    Took s s' filesLh files filp := by
  obtain ⟨⟨x, supply, allocator, new⟩, hs, he⟩ := bind_eq_ok ha
  simp only [Except.ok.injEq, Prod.mk.injEq] at he
  obtain ⟨rfl, rfl⟩ := he
  have hslab : s.files.alloc clearedFile s.supply =
      .ok (x, supply, ⟨allocator, Slab.clearNew clearedFile new s.files.objects⟩) := by
    rw [Slab.alloc, hs]
    rfl
  obtain ⟨-, -, hsize, -, hpages, -⟩ := h.slab.inv.alloc h.slab.freshPages hs
  obtain ⟨hok, hperm⟩ := h.slab.alloc_slots hslab
  have hkept : ∀ {α : Type} (zero : α) (objects : U64 → α) (y : U64),
      y &&& pageAddressMask ∉ s.supply.pages → Slab.clearNew zero new objects y = objects y := by
    intro α zero objects y hy
    rcases hpages with ⟨rfl, -, -⟩ | ⟨p, rfl, hp, -⟩
    · rfl
    · refine if_neg fun hh => hy ?_
      rw [← Option.some.inj hh, (PageSupply.alloc_ok hp).1]
      exact List.mem_cons_self
  have hold : ∀ y : U64, y &&& pageAddressMask ∈ s.files.allocator.pages →
      y &&& pageAddressMask ∉ s.supply.pages := fun y hy hh => h.slab.fresh _ hh hy
  have hsame : ∀ f, f &&& pageAddressMask ∈ s.files.allocator.pages →
      file ⟨supply, ⟨allocator, Slab.clearNew clearedFile new s.files.objects⟩,
        Slab.clearNew ⟨0, 0⟩ new s.cells⟩ f = s.file f :=
    fun f hf => hkept _ _ f (hold f hf)
  refine ⟨⟨hok, hsize.trans h.size, ?_, ?_, ?_, ?_⟩, hperm, (h.slab.alloc hslab).not_live, hsame⟩
  · exact fun f hf => hperm.mem_iff.mpr (List.mem_cons_of_mem x (h.live f hf))
  · refine h.linked.congr fun a ha => hkept _ _ a ?_
    rcases List.mem_cons.mp ha with rfl | ha
    · exact fun hh => h.head (List.mem_append_right _ hh)
    · obtain ⟨f, hf, rfl⟩ := List.mem_map.mp ha
      have hlive := h.live f hf
      refine hold _ ?_
      rw [h.filesLe_mask hlive]
      exact h.page_mem hlive
  · intro hh
    rcases hpages with ⟨-, rfl, hpages⟩ | ⟨p, -, hp, hpages⟩
    · rw [hpages] at hh
      exact h.head hh
    · rw [hpages, List.cons_append, List.mem_cons, ← List.mem_cons] at hh
      refine h.head ?_
      rw [(PageSupply.alloc_ok hp).1]
      simp only [List.mem_cons, List.mem_append] at hh ⊢
      tauto
  · have hfiles : files.map (openFile ⟨supply, ⟨allocator, Slab.clearNew clearedFile new
        s.files.objects⟩, Slab.clearNew ⟨0, 0⟩ new s.cells⟩) = files.map s.openFile := by
      refine List.map_congr_left fun f hf => ?_
      rw [openFile, hsame f (h.page_mem (h.live f hf))]
      rfl
    rw [hfiles]
    exact h.ordered

end Table

end FileSlots

theorem insertBefore_append {next newFilp : OpenFile} {xs : List OpenFile} (ys : List OpenFile)
    (h : next ∉ xs) :
    insertBefore next newFilp (xs ++ next :: ys) = xs ++ newFilp :: next :: ys := by
  induction xs with
  | nil => exact if_pos rfl
  | cons x xs ih =>
    rw [List.mem_cons, not_or] at h
    rw [List.cons_append, insertBefore, if_neg (Ne.symm h.1), ih h.2]
    rfl

/-- In a list without the number of a new file, only that number comes to stand for it. -/
theorem Ordered.filpFind_insertFile {l : List OpenFile} {newFilp : OpenFile} (h : Ordered l)
    (hne : ∀ f ∈ l, f.fd ≠ newFilp.fd) (fd : U32) :
    filpFind (Persistos.insertFile l newFilp) fd =
      if fd = newFilp.fd then some newFilp else filpFind l fd := by
  refine Option.ext fun g => ?_
  rw [(h.insertFile hne).filpFind_eq_some, (insertFile_perm l newFilp).mem_iff, List.mem_cons]
  split
  · next hfd =>
    subst hfd
    constructor
    · rintro ⟨rfl | hg, hgfd⟩
      · rfl
      · exact absurd hgfd (hne g hg)
    · rintro ⟨⟩
      exact ⟨.inl rfl, rfl⟩
  · next hfd =>
    rw [h.filpFind_eq_some]
    refine and_congr_left fun hgfd => or_iff_right ?_
    rintro rfl
    exact hfd hgfd.symm

namespace FileSlots

variable {s s' : FileSlots} {filesLh filp next : U64} {files xs ys : List U64} {fuel : Nat} {fd : U32}

namespace Table

theorem link {nextFilp : Option U64} (h : s.Table filesLh files) (hx : filp ∈ s.files.slots)
    (hnot : filp ∉ files) (hfree : ∀ f ∈ files, (s.file f).fd ≠ fd)
    (hnext : files.find? (fun f => (s.file f).fd > fd) = nextFilp) (oldFilp : U64) :
    ∃ files', Table { s.copyMembers filp oldFilp fd with
        cells := listAddTail s.cells (filesLe filp) (nextFilpLe filesLh nextFilp) }
        filesLh files' ∧
      files'.map (openFile { s.copyMembers filp oldFilp fd with
        cells := listAddTail s.cells (filesLe filp) (nextFilpLe filesLh nextFilp) }) =
      insertFile (files.map s.openFile)
        ⟨filp, fd, (s.file oldFilp).inode, (s.file oldFilp).offset⟩ := by
  obtain ⟨files', hperm, hlinked, hmap⟩ : ∃ files' : List U64, files'.Perm (filp :: files) ∧
      Linked (listAddTail s.cells (filesLe filp) (nextFilpLe filesLh nextFilp)) filesLh
        (files'.map filesLe) ∧
      files'.map (openFile { s.copyMembers filp oldFilp fd with
        cells := listAddTail s.cells (filesLe filp) (nextFilpLe filesLh nextFilp) }) =
      insertFile (files.map s.openFile)
        ⟨filp, fd, (s.file oldFilp).inode, (s.file oldFilp).offset⟩ := by
    have hself : openFile { s.copyMembers filp oldFilp fd with
        cells := listAddTail s.cells (filesLe filp) (nextFilpLe filesLh nextFilp) } filp =
        ⟨filp, fd, (s.file oldFilp).inode, (s.file oldFilp).offset⟩ := by
      rw [openFile]
      exact congrArg (fun m : FileObject => OpenFile.mk filp m.fd m.inode m.offset)
        (s.file_copyMembers_self filp oldFilp fd)
    have hsame : ∀ l ⊆ files, l.map (openFile { s.copyMembers filp oldFilp fd with
        cells := listAddTail s.cells (filesLe filp) (nextFilpLe filesLh nextFilp) }) =
        l.map s.openFile := by
      intro l hl
      refine List.map_congr_left fun f hf => ?_
      exact congrArg (fun m : FileObject => OpenFile.mk f m.fd m.inode m.offset)
        (s.file_copyMembers_ne fd (ne_of_mem_of_not_mem (hl hf) hnot))
    have hcell : filesLe filp ∉ filesLh :: files.map filesLe := by
      rw [List.mem_cons, not_or]
      refine ⟨h.filesLe_ne_head hx, fun hm => hnot ?_⟩
      obtain ⟨f, hf, hfeq⟩ := List.mem_map.mp hm
      rwa [← filesLe_injective hfeq]
    have hfind : Persistos.filpInsertPointFind (files.map s.openFile) fd = nextFilp.map s.openFile := by
      rw [Persistos.filpInsertPointFind, List.find?_map, ← hnext]
      rfl
    cases nextFilp with
    | none =>
      refine ⟨files ++ [filp], List.perm_append_singleton _ _, ?_, ?_⟩
      · rw [List.map_append]
        exact listAddTail_linked h.linked hcell
      · rw [insertFile, hfind, List.map_append, hsame files (List.Subset.refl _),
          List.map_singleton, hself]
        rfl
    | some next =>
      obtain ⟨-, xs, ys, rfl, hxs⟩ := List.find?_eq_some_iff_append.mp hnext
      refine ⟨xs ++ filp :: next :: ys, List.perm_middle, ?_, ?_⟩
      · have hlinked := h.linked
        simp only [List.map_append, List.map_cons] at hlinked hcell ⊢
        exact listAddTail_linked_before hlinked hcell
      · have hnd := h.nodup
        rw [List.nodup_append] at hnd
        have hnx : s.openFile next ∉ xs.map s.openFile := by
          intro hm
          obtain ⟨f, hf, hfeq⟩ := List.mem_map.mp hm
          exact hnd.2.2 f hf next List.mem_cons_self (congrArg OpenFile.address hfeq)
        rw [List.map_append, List.map_cons, hself, hsame xs (List.subset_append_left _ _),
          hsame (next :: ys) (List.subset_append_right _ _), insertFile, hfind, List.map_append,
          List.map_cons]
        exact (insertBefore_append _ hnx).symm
  refine ⟨files', ⟨?_, ?_, ?_, hlinked, ?_, ?_⟩, hmap⟩
  · exact ⟨h.slab.inv, h.slab.fresh⟩
  · exact h.size
  · intro f hf
    rcases List.mem_cons.mp (hperm.mem_iff.mp hf) with rfl | hf
    · exact hx
    · exact h.live f hf
  · exact h.head
  · rw [hmap]
    refine h.ordered.insertFile fun f hf => ?_
    obtain ⟨g, hg, rfl⟩ := List.mem_map.mp hf
    exact hfree g hg

theorem alloc_error (h : s.Table filesLh files) {e : Crash} (ha : s.fileAlloc = .error e) :
    s.supply.pages = [] ∧ e = .panic "Out of physical memory\n" ∧
      ∀ page, ∀ n < 256, ¬s.files.allocator.SlotFree page n := by
  cases hs : slabAlloc PageSupply.alloc s.supply s.files.allocator with
  | ok r =>
    rw [fileAlloc, hs] at ha
    cases ha
  | error e' =>
    rw [fileAlloc, hs] at ha
    obtain rfl : e' = e := Except.error.inj ha
    obtain ⟨hpages, he⟩ := PageSupply.alloc_error (h.slab.inv.alloc_error hs)
    refine ⟨hpages, he, fun page n hn => ?_⟩
    rw [slabAlloc] at hs
    split at hs
    · cases hs
    · next hnone => exact slabTryAlloc_none hnone page hn

theorem filpFind_map (fd : U32) : Persistos.filpFind (files.map s.openFile) fd =
    (files.find? fun f => (s.file f).fd = fd).map s.openFile := by
  rw [Persistos.filpFind, List.find?_map]
  rfl

/-- The new file, with the members that the old one has even when its slot is free. -/
theorem linkCopy (h : s.Table filesLh files) (hfuel : files.length < fuel)
    (hnew : ∀ f ∈ files, (s.file f).fd ≠ fd) {oldFilp : U64}
    (hold : oldFilp &&& pageAddressMask ∈ s.files.allocator.pages) :
    (∃ s' files' newFilp, s.linkCopy fuel filesLh oldFilp fd = .ok (fd.setWidth 64, s') ∧
      s'.Table filesLh files' ∧ files'.map s'.openFile = insertFile (files.map s.openFile)
        ⟨newFilp, fd, (s.file oldFilp).inode, (s.file oldFilp).offset⟩ ∧
      s'.files.slots.length = s.files.slots.length + 1) ∨
    s.linkCopy fuel filesLh oldFilp fd = .error (.panic "Out of physical memory\n") ∧
      s.supply.pages = [] ∧ ∀ page, ∀ n < 256, ¬s.files.allocator.SlotFree page n := by
  have hfind : s.filpInsertPointFind fuel filesLh fd =
      .ok (files.find? fun f => (s.file f).fd > fd) :=
    h.findFrom (fun candidate => candidate > fd) hfuel
  cases ha : s.fileAlloc with
  | error e =>
    obtain ⟨hpages, rfl, hfull⟩ := h.alloc_error ha
    refine .inr ⟨?_, hpages, hfull⟩
    rw [FileSlots.linkCopy, hfind, ok_bind, ha]
    rfl
  | ok r =>
    obtain ⟨newFilp, s₂⟩ := r
    have htook := h.alloc ha
    have hsame : ∀ f ∈ files, s₂.file f = s.file f :=
      fun f hf => htook.same f (h.page_mem (h.live f hf))
    have hnext : files.find? (fun f => (s₂.file f).fd > fd) =
        files.find? fun f => (s.file f).fd > fd := by
      refine List.find?_congr fun f hf => ?_
      rw [hsame f hf]
    obtain ⟨files', htable, hmap⟩ := htook.table.link
      (htook.slots.mem_iff.mpr List.mem_cons_self) (fun hm => htook.not_mem (h.live _ hm))
      (fun f hf => by rw [hsame f hf]; exact hnew f hf) hnext oldFilp
    have hold' : files.map s₂.openFile = files.map s.openFile :=
      List.map_congr_left fun f hf => by rw [openFile, hsame f hf]; rfl
    rw [hold', htook.same oldFilp hold] at hmap
    refine .inl ⟨_, files', newFilp, ?_, htable, hmap, ?_⟩
    · rw [FileSlots.linkCopy, hfind, ok_bind, ha]
      exact congrArg (fun m : FileObject => (Except.ok (m.fd.setWidth 64, _) : Except Crash _))
        (s₂.file_copyMembers_self newFilp oldFilp fd)
    · exact htook.slots.length_eq

/-- Taking the file with the number out of the list, if there is one. -/
theorem closeFile (h : s.Table filesLh files) (fd : U32) :
    ∃ s' files', s.closeFile (files.find? fun f => (s.file f).fd = fd) = .ok s' ∧
      s'.Table filesLh files' ∧ files'.length ≤ files.length ∧ s'.file = s.file ∧
      s'.files.allocator.pages = s.files.allocator.pages ∧
      (∀ f ∈ files', (s'.file f).fd ≠ fd) ∧
      (∀ fd', fd' ≠ fd → s'.denotes files' fd' = s.denotes files fd') ∧
      ((s.denotes files fd = none ∧ s' = s) ∨
        s.denotes files fd ≠ none ∧ s'.files.slots.length + 1 = s.files.slots.length ∧
          ∃ page, ∃ n < 256, s'.files.allocator.SlotFree page n) := by
  have hdenotes : s.denotes files fd =
      ((files.find? fun f => (s.file f).fd = fd).map s.openFile).map
        fun filp => (filp.inode, filp.offset) := by
    rw [denotes, filpFind_map]
  cases hfind : files.find? fun f => (s.file f).fd = fd with
  | none =>
    rw [hfind] at hdenotes
    refine ⟨s, files, rfl, h, Nat.le_refl _, rfl, rfl, ?_, fun _ _ => rfl, .inl ⟨hdenotes, rfl⟩⟩
    exact fun f hf hfd => List.find?_eq_none.mp hfind f hf (decide_eq_true hfd)
  | some filp =>
    rw [hfind] at hdenotes
    have hm := List.mem_of_find?_eq_some hfind
    have hfd : (s.file filp).fd = fd := by simpa using List.find?_some hfind
    obtain ⟨s', hclose, htable, hfile, hpages, hperm, hslot⟩ := h.close hm
    have hslots := hperm.length_eq
    have hpos := List.length_pos_of_mem (h.live filp hm)
    rw [List.length_erase_of_mem (h.live filp hm)] at hslots
    refine ⟨s', files.erase filp, hclose, htable, List.length_erase_le, hfile, hpages, ?_,
      ?_, .inr ⟨?_, by omega, hslot⟩⟩
    · intro f hf heq
      rw [hfile] at heq
      obtain rfl := h.fd_inj (List.mem_of_mem_erase hf) hm (heq.trans hfd.symm)
      exact h.nodup.not_mem_erase hf
    · intro fd' hne
      have hinj : Function.Injective s.openFile := fun f g he => congrArg OpenFile.address he
      have hmap : (files.erase filp).map s'.openFile =
          (files.map s.openFile).erase (s.openFile filp) := by
        rw [← List.map_erase hinj]
        exact List.map_congr_left fun f _ => by rw [openFile, hfile]; rfl
      rw [denotes, hmap, h.ordered.filpFind_erase (List.mem_map_of_mem hm), if_neg]
      · rfl
      · exact fun hh => hne (hh.trans hfd)
    · rw [hdenotes]
      exact Option.some_ne_none _

end Table

/-- DUP2 fails when the old number stands for no file. Otherwise the new number comes to stand
for what the old one does, in place of what it stood for, and all others for what they did,
unless there is a slot for the file neither in a page nor in the memory. -/
theorem dup2_map_update (h : s.Table filesLh files) (hfuel : files.length < fuel) (a b : U32) :
    (s.denotes files a = none →
      s.sysDup2 fuel filesLh (a.setWidth 64) (b.setWidth 64) = .ok (-1, s)) ∧
    ∀ m, s.denotes files a = some m →
      (∃ s' files', s.sysDup2 fuel filesLh (a.setWidth 64) (b.setWidth 64) =
          .ok (b.setWidth 64, s') ∧
        s'.Table filesLh files' ∧
        (∀ fd, s'.denotes files' fd = if fd = b then some m else s.denotes files fd) ∧
        s'.files.slots.length =
          s.files.slots.length + if s.denotes files b = none then 1 else 0) ∨
      s.sysDup2 fuel filesLh (a.setWidth 64) (b.setWidth 64) =
          .error (.panic "Out of physical memory\n") ∧
        s.denotes files b = none ∧ s.supply.pages = [] ∧
        ∀ page, ∀ n < 256, ¬s.files.allocator.SlotFree page n := by
  have hsearch : ∀ fd : U32, s.filpFind fuel filesLh ((fd.setWidth 64).setWidth 32) =
      .ok (files.find? fun f => (s.file f).fd = fd) := by
    intro fd
    have hwidth : (fd.setWidth 64).setWidth 32 = fd := by simp
    rw [hwidth]
    exact h.find fd hfuel
  constructor
  · intro ha
    rw [denotes, Table.filpFind_map, Option.map_eq_none_iff, Option.map_eq_none_iff] at ha
    rw [sysDup2, hsearch, ha]
    rfl
  · intro m ha
    rw [denotes, Table.filpFind_map, Option.map_map] at ha
    obtain ⟨oldFilp, hfind, rfl⟩ := Option.map_eq_some_iff.mp ha
    have hold := h.live _ (List.mem_of_find?_eq_some hfind)
    obtain ⟨s₁, files₁, hclose, htable, hlength, hfile, hpages, hnew, hothers, hcount⟩ :=
      h.closeFile b
    have hwidth : (b.setWidth 64 : U64).setWidth 32 = b := by simp
    have hrun : s.sysDup2 fuel filesLh (a.setWidth 64) (b.setWidth 64) =
        s₁.linkCopy fuel filesLh oldFilp b := by
      rw [sysDup2, hsearch, hfind, ok_bind]
      dsimp only
      rw [hsearch, ok_bind, hclose, ok_bind, hwidth]
    rw [hrun]
    rcases htable.linkCopy (Nat.lt_of_le_of_lt hlength hfuel) hnew (hpages ▸ h.page_mem hold) with
      ⟨s', files', newFilp, hok, htable', hmap, hslots⟩ | ⟨herror, hempty, hfull⟩
    · refine .inl ⟨s', files', hok, htable', fun fd => ?_, ?_⟩
      · have hne : ∀ f ∈ files₁.map s₁.openFile, f.fd ≠ b := by
          intro f hf
          obtain ⟨g, hg, rfl⟩ := List.mem_map.mp hf
          exact hnew g hg
        rw [denotes, hmap, htable.ordered.filpFind_insertFile hne]
        by_cases hfd : fd = b
        · rw [if_pos hfd, if_pos hfd, hfile]
          rfl
        · rw [if_neg hfd, if_neg hfd]
          exact hothers fd hfd
      · rcases hcount with ⟨hnone, rfl⟩ | ⟨hsome, hcount, -⟩
        · rw [if_pos hnone, hslots]
        · rw [if_neg hsome]
          omega
    · rcases hcount with ⟨hnone, rfl⟩ | ⟨-, -, page, n, hn, hfree⟩
      · exact .inr ⟨herror, hnone, hempty, hfull⟩
      · exact absurd hfree (hfull page n hn)

/-- No files yet. -/
def noFile : FileSlots where
  supply := ⟨[0x1000], by simp [PageAligned], by decide⟩
  files := Slab.init openFileSize fun _ => clearedFile
  cells := initList (fun _ => ⟨0, 0⟩) 0x9000

theorem noFile_table : noFile.Table 0x9000 [] where
  slab := .init (by decide) (by decide) _
  size := rfl
  live _ hf := absurd hf List.not_mem_nil
  linked := initList_linked _ _
  head := by decide
  ordered := .nil

theorem oneFile_table : ∃ (s : FileSlots) (files : List U64) (f : OpenFile),
    s.Table 0x9000 files ∧ files.map s.openFile = [f] ∧ f.fd = 0 := by
  cases ha : noFile.fileAlloc with
  | error e => exact absurd (noFile_table.alloc_error ha).1 (List.cons_ne_nil _ _)
  | ok r =>
    obtain ⟨filp, s⟩ := r
    have htook := noFile_table.alloc ha
    obtain ⟨files, htable, hmap⟩ := @htook.table.link s 0x9000 filp [] 0 none
      (htook.slots.mem_iff.mpr List.mem_cons_self) List.not_mem_nil
      (fun f hf => absurd hf List.not_mem_nil) rfl filp
    exact ⟨_, files, _, htable, hmap, rfl⟩

/-- DUP2 of a file to its own number. -/
theorem dup2_map_update_itself : ∃ (s : FileSlots) (files : List U64) (m : U64 × U64),
    s.denotes files 0 = some m ∧
      ∃ s' files', s.sysDup2 2 0x9000 0 0 = .ok (0, s') ∧ s'.denotes files' 0 = some m ∧
        s'.files.slots.length = s.files.slots.length := by
  obtain ⟨s, files, f, htable, hmap, hfd⟩ := oneFile_table
  have hdenotes : s.denotes files 0 = some (f.inode, f.offset) := by
    rw [denotes, hmap]
    simp [Persistos.filpFind, hfd]
  have hlength : files.length = 1 := by simpa using congrArg List.length hmap
  refine ⟨s, files, _, hdenotes, ?_⟩
  rcases (dup2_map_update htable (by omega : files.length < 2) 0 0).2 _ hdenotes with
    ⟨s', files', hok, -, hfds, hslots⟩ | ⟨-, hnone, -⟩
  · refine ⟨s', files', hok, (hfds 0).trans (if_pos rfl), ?_⟩
    rw [hslots, hdenotes]
    rfl
  · rw [hdenotes] at hnone
    cases hnone

end FileSlots

end Persistos
