import Persistos.Resolve

/-! The open files of the tasks, and the system calls that open, close and copy them. -/

namespace Persistos

/-- `struct file`, with the address of its slot. -/
structure OpenFile where
  address : U64
  fd : U32
  inode : U64
  offset : U64
  deriving DecidableEq, Repr

def oCreat : U64 := 0x1
def oTruncate : U64 := 0x2

/-- What the system calls on open files use of the rest of the kernel, whose states are
`σ`. A pointer that is `NULL` is zero. -/
structure KernelCalls (σ : Type) where
  vfsResolve : σ → List U8 → Except Crash (VfsLookupResult × σ)
  vfsCreate : σ → U64 → List U8 → Except Crash (U64 × σ)
  inodeType : σ → U64 → U8
  vfsFtruncate : σ → OpenFile → U64 → Except Crash (U64 × σ)
  fileAlloc : σ → Except Crash (U64 × σ)
  fileFree : σ → U64 → Except Crash σ

/-- `filesLh t` is the list at `files_lh` of the task at `t`. -/
structure FileTables (σ : Type) where
  kernel : σ
  filesLh : U64 → List OpenFile

def filpFind (files : List OpenFile) (fd : U32) : Option OpenFile :=
  files.find? fun filp => filp.fd = fd

def filpInsertPointFind (files : List OpenFile) (fd : U32) : Option OpenFile :=
  files.find? fun filp => filp.fd > fd

/-- The number that OPEN gives to a file at the end of the list. -/
def nextFd (files : List OpenFile) : U32 :=
  match files.getLast? with
  | none => 0
  | some previous => previous.fd + 1

/-- `list_add_tail` with a file of the list in the place of its head. -/
def insertBefore (next newFilp : OpenFile) : List OpenFile → List OpenFile
  | [] => [newFilp]
  | filp :: files =>
    if filp = next then newFilp :: filp :: files else filp :: insertBefore next newFilp files

def insertFile (files : List OpenFile) (newFilp : OpenFile) : List OpenFile :=
  match filpInsertPointFind files newFilp.fd with
  | none => files ++ [newFilp]
  | some next => insertBefore next newFilp files

namespace FileTables

variable {σ : Type}

def setFiles (s : FileTables σ) (t : U64) (files : List OpenFile) : FileTables σ :=
  { s with filesLh := Function.update s.filesLh t files }

end FileTables

namespace KernelCalls

variable {σ : Type} (calls : KernelCalls σ)

/-- The part of OPEN that the two cases share. -/
def linkFile (s : FileTables σ) (t inode : U64) : Except Crash (OpenFile × FileTables σ) := do
  let (address, kernel) ← calls.fileAlloc s.kernel
  let filp : OpenFile := ⟨address, nextFd (s.filesLh t), inode, 0⟩
  .ok (filp, { s with kernel }.setFiles t (s.filesLh t ++ [filp]))

def openCreated (s : FileTables σ) (t parentDirectory : U64) (name : List U8) :
    Except Crash (U64 × FileTables σ) := do
  let (createResult, kernel) ← calls.vfsCreate s.kernel parentDirectory name
  if createResult = 0 then .ok (-4, { s with kernel })
  else do
    let (filp, s) ← calls.linkFile { s with kernel } t createResult
    .ok (filp.fd.setWidth 64, s)

def openExisting (s : FileTables σ) (t inode flags : U64) : Except Crash (U64 × FileTables σ) := do
  let (filp, s) ← calls.linkFile s t inode
  if calls.inodeType s.kernel inode = inodeRegularFile ∧ flags &&& oTruncate ≠ 0 then do
    let (truncateResult, kernel) ← calls.vfsFtruncate s.kernel filp 0
    if truncateResult.toInt < 0 then .ok (truncateResult, { s with kernel })
    else .ok (filp.fd.setWidth 64, { s with kernel })
  else .ok (filp.fd.setWidth 64, s)

def sysOpen (s : FileTables σ) (t : U64) (path : List U8) (flags : U64) :
    Except Crash (U64 × FileTables σ) := do
  let (lookupResult, kernel) ← calls.vfsResolve s.kernel path
  let s := { s with kernel }
  if lookupResult.status = vfsResolveErrNotADir then .ok (-1, s)
  else if lookupResult.status = vfsResolveErrDoesntExist then .ok (-2, s)
  else if lookupResult.status = vfsResolveSuccessDoesntExist then
    if flags &&& oCreat ≠ 0 then
      calls.openCreated s t lookupResult.parentDirectory lookupResult.nameStart
    else .ok (-3, s)
  else if lookupResult.status = vfsResolveSuccessExists then
    calls.openExisting s t lookupResult.inode flags
  else .error (.panic "Unknown lookup status\n")

def sysClose (s : FileTables σ) (t fd : U64) : Except Crash (U64 × FileTables σ) :=
  match filpFind (s.filesLh t) (fd.setWidth 32) with
  | none => .ok (-1, s)
  | some filp => do
    let kernel ← calls.fileFree s.kernel filp.address
    .ok (0, { s with kernel }.setFiles t ((s.filesLh t).erase filp))

/-- What DUP2 does with the file that has the new number already. -/
def closeForDup2 (s : FileTables σ) (t : U64) (fd : U32) : Except Crash (FileTables σ) :=
  match filpFind (s.filesLh t) fd with
  | none => .ok s
  | some filp => do
    let kernel ← calls.fileFree s.kernel filp.address
    .ok ({ s with kernel }.setFiles t ((s.filesLh t).erase filp))

/-- The members of the old file are read after its slot may have been freed and taken
again, which leaves them as they were. -/
def sysDup2 (s : FileTables σ) (t oldFd newFd : U64) : Except Crash (U64 × FileTables σ) :=
  match filpFind (s.filesLh t) (oldFd.setWidth 32) with
  | none => .ok (-1, s)
  | some oldFilp => do
    let s ← calls.closeForDup2 s t (newFd.setWidth 32)
    let (address, kernel) ← calls.fileAlloc s.kernel
    let newFilp := { oldFilp with address, fd := newFd.setWidth 32 }
    .ok (newFilp.fd.setWidth 64, { s with kernel }.setFiles t (insertFile (s.filesLh t) newFilp))

/-- The loop of FORK over the open files. -/
def cloneFiles (kernel : σ) : List OpenFile → Except Crash (List OpenFile × σ)
  | [] => .ok ([], kernel)
  | file :: files => do
    let (address, kernel) ← calls.fileAlloc kernel
    let (newFiles, kernel) ← cloneFiles kernel files
    .ok ({ file with address } :: newFiles, kernel)

/-- FORK by `t`, as far as open files go. -/
def forkFiles (s : FileTables σ) (t newProcess : U64) : Except Crash (FileTables σ) := do
  let (files, kernel) ← calls.cloneFiles s.kernel (s.filesLh t)
  .ok ({ s with kernel }.setFiles newProcess files)

end KernelCalls

/-- The numbers of a list of files increase strictly. -/
def Ordered (files : List OpenFile) : Prop := files.Pairwise fun f g => f.fd < g.fd

instance (files : List OpenFile) : Decidable (Ordered files) :=
  inferInstanceAs (Decidable (List.Pairwise _ _))

theorem filpFind_some {files : List OpenFile} {fd : U32} {filp : OpenFile}
    (h : filpFind files fd = some filp) : filp ∈ files ∧ filp.fd = fd := by
  have hp := List.find?_some h
  exact ⟨List.mem_of_find?_eq_some h, by simpa using hp⟩

theorem insertBefore_perm {next : OpenFile} (newFilp : OpenFile) (files : List OpenFile) :
    (insertBefore next newFilp files).Perm (newFilp :: files) := by
  induction files with
  | nil => exact .refl _
  | cons filp files ih =>
    by_cases h : filp = next
    · rw [insertBefore, if_pos h]
    · rw [insertBefore, if_neg h]
      exact (ih.cons filp).trans (.swap _ _ _)

theorem insertFile_perm (files : List OpenFile) (newFilp : OpenFile) :
    (insertFile files newFilp).Perm (newFilp :: files) := by
  rw [insertFile]
  split
  · exact List.perm_append_singleton newFilp files
  · exact insertBefore_perm newFilp files

namespace Ordered

variable {files : List OpenFile} {newFilp : OpenFile}

theorem erase (h : Ordered files) (filp : OpenFile) : Ordered (files.erase filp) :=
  List.Pairwise.sublist List.erase_sublist h

theorem map_congr {files' : List OpenFile} (h : Ordered files)
    (he : files'.map OpenFile.fd = files.map OpenFile.fd) : Ordered files' := by
  have hmap : (files'.map OpenFile.fd).Pairwise (· < ·) := he ▸ List.pairwise_map.mpr h
  exact List.pairwise_map.mp hmap

theorem fds_nodup (h : Ordered files) : (files.map OpenFile.fd).Nodup := by
  apply List.Pairwise.imp _ (List.pairwise_map.mpr h)
  intro a b hab he
  exact absurd hab (he ▸ BitVec.lt_irrefl b)

/-- The file that has the number of the file that was removed is no other. -/
theorem fd_ne_of_mem_erase (h : Ordered files) {filp f : OpenFile} (hm : filp ∈ files)
    (hf : f ∈ files.erase filp) : f.fd ≠ filp.fd := by
  have hperm := List.perm_cons_erase hm
  have hnd' := (hperm.map OpenFile.fd).nodup_iff.mp h.fds_nodup
  rw [List.map_cons, List.nodup_cons] at hnd'
  exact fun he => hnd'.1 (List.mem_map.mpr ⟨f, hf, he⟩)

theorem filpFind_eq_some (h : Ordered files) {fd : U32} {filp : OpenFile} :
    filpFind files fd = some filp ↔ filp ∈ files ∧ filp.fd = fd := by
  refine ⟨filpFind_some, fun ⟨hm, hfd⟩ => ?_⟩
  cases hfind : filpFind files fd with
  | none => exact absurd (decide_eq_true hfd) (List.find?_eq_none.mp hfind filp hm)
  | some g =>
    obtain ⟨hg, hgfd⟩ := filpFind_some hfind
    rw [List.inj_on_of_nodup_map h.fds_nodup hg hm (hgfd.trans hfd.symm)]

theorem filpFind_erase (h : Ordered files) {filp : OpenFile} (hm : filp ∈ files) (fd : U32) :
    filpFind (files.erase filp) fd = if fd = filp.fd then none else filpFind files fd := by
  refine Option.ext fun g => ?_
  rw [(h.erase filp).filpFind_eq_some]
  split
  · next hfd =>
    subst hfd
    refine ⟨fun ⟨hg, hgfd⟩ => absurd hgfd (h.fd_ne_of_mem_erase hm hg), fun hg => by cases hg⟩
  · next hfd =>
    rw [h.filpFind_eq_some]
    refine and_congr_left fun hgfd => List.mem_erase_of_ne ?_
    rintro rfl
    exact hfd hgfd.symm

theorem lt_nextFd (h : Ordered files) (hroom : ∀ f ∈ files.getLast?, f.fd ≠ -1) :
    ∀ f ∈ files, f.fd < nextFd files := by
  intro f hf
  obtain ⟨init, last, rfl⟩ : ∃ init last, files = init ++ [last] :=
    ⟨_, _, (List.dropLast_concat_getLast (List.ne_nil_of_mem hf)).symm⟩
  have hlast : last.fd < last.fd + 1 := by
    have hne := hroom last (by simp)
    bv_omega
  have hnext : nextFd (init ++ [last]) = last.fd + 1 := by simp [nextFd]
  rw [hnext]
  rcases List.mem_append.mp hf with hf | hf
  · have hlt := (List.pairwise_append.mp h).2.2 f hf last (List.mem_singleton_self last)
    exact BitVec.lt_trans hlt hlast
  · obtain rfl := List.mem_singleton.mp hf
    exact hlast

theorem append (h : Ordered files) (hlt : ∀ f ∈ files, f.fd < newFilp.fd) :
    Ordered (files ++ [newFilp]) := by
  apply List.pairwise_append.mpr
  refine ⟨h, List.pairwise_singleton _ _, ?_⟩
  intro f hf g hg
  obtain rfl := List.mem_singleton.mp hg
  exact hlt f hf

theorem insertFile (h : Ordered files) (hne : ∀ f ∈ files, f.fd ≠ newFilp.fd) :
    Ordered (insertFile files newFilp) := by
  induction files with
  | nil => simp [Persistos.insertFile, filpInsertPointFind, Ordered]
  | cons filp files ih =>
    have hcons := List.pairwise_cons.mp h
    by_cases hgt : filp.fd > newFilp.fd
    · have heq : Persistos.insertFile (filp :: files) newFilp = newFilp :: filp :: files := by
        simp [Persistos.insertFile, filpInsertPointFind, hgt, insertBefore]
      rw [heq]
      apply List.pairwise_cons.mpr
      refine ⟨?_, h⟩
      intro f hf
      rcases List.mem_cons.mp hf with rfl | hf
      · exact hgt
      · exact BitVec.lt_trans hgt (hcons.1 f hf)
    · have hlt : filp.fd < newFilp.fd := by
        have hne' := hne filp List.mem_cons_self
        bv_omega
      have heq : Persistos.insertFile (filp :: files) newFilp =
          filp :: Persistos.insertFile files newFilp := by
        have hfind : filpInsertPointFind (filp :: files) newFilp.fd =
            filpInsertPointFind files newFilp.fd := by simp [filpInsertPointFind, hgt]
        rw [Persistos.insertFile, Persistos.insertFile, hfind]
        cases hnext : filpInsertPointFind files newFilp.fd with
        | none => rfl
        | some next =>
          have hp := List.find?_some hnext
          have hnf : filp ≠ next := by
            rintro rfl
            exact hgt (by simpa using hp)
          simp [insertBefore, hnf]
      rw [heq]
      apply List.pairwise_cons.mpr
      refine ⟨?_, ih hcons.2 fun f hf => hne f (List.mem_cons_of_mem _ hf)⟩
      intro f hf
      rcases List.mem_cons.mp ((insertFile_perm files newFilp).mem_iff.mp hf) with rfl | hf
      · exact hlt
      · exact hcons.1 f hf

end Ordered

end Persistos
