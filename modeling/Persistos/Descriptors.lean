import Persistos.OpenTruncated

/-! The laws of CLOSE, DUP2 and FORK for any open files: what each number denotes afterwards. None
of them changes the contents of a file. -/

namespace Persistos

open Theory

/-- The inode and the offset behind a number. -/
def denotes (files : List OpenFile) (fd : U32) : Option (U64 × U64) :=
  (filpFind files fd).map fun filp => (filp.inode, filp.offset)

section Lists

variable {files : List OpenFile} {filp : OpenFile}

theorem filpFind_insertFile (h : Ordered files) (hne : ∀ f ∈ files, f.fd ≠ filp.fd) (fd : U32) :
    filpFind (insertFile files filp) fd = if fd = filp.fd then some filp else filpFind files fd := by
  refine Option.ext fun g => ?_
  rw [(h.insertFile hne).filpFind_eq_some, (insertFile_perm files filp).mem_iff, List.mem_cons]
  split
  · next hfd =>
    rw [Option.some.injEq, eq_comm (a := filp)]
    refine ⟨fun ⟨hg, hgfd⟩ => hg.resolve_right fun hmem => ?_, fun hg => ⟨.inl hg, ?_⟩⟩
    · exact hne g hmem (hgfd.trans hfd)
    · rw [hg, hfd]
  · next hfd =>
    rw [h.filpFind_eq_some]
    refine and_congr_left fun hgfd => or_iff_right fun hg => hfd ?_
    rw [← hgfd, hg]

theorem denotes_cons (fd : U32) :
    denotes (filp :: files) fd =
      if filp.fd = fd then some (filp.inode, filp.offset) else denotes files fd := by
  rw [denotes, filpFind, List.find?_cons]
  by_cases hfd : filp.fd = fd
  · rw [decide_eq_true hfd, if_pos hfd]
    rfl
  · rw [decide_eq_false hfd, if_neg hfd]
    rfl

theorem denotes_eq_none (h : Ordered files) {fd : U32} (hne : ∀ f ∈ files, f.fd ≠ fd) :
    denotes files fd = none := by
  rw [denotes, Option.map_eq_none_iff, filpFind, List.find?_eq_none]
  intro f hf
  simpa using hne f hf

end Lists

namespace FsKernel

/-- The files of the list are in slots of their own. -/
def Held (k : FsKernel) (files : List OpenFile) : Prop :=
  (files.map OpenFile.address).Subperm k.fileSlots

variable {k k' : FsKernel} {files files' : List OpenFile} {filp : OpenFile}

theorem Held.mem (h : k.Held files) (hf : filp ∈ files) : filp.address ∈ k.fileSlots :=
  h.subset (List.mem_map_of_mem hf)

theorem Held.cons (h : k.Held files) (hfiles : files'.Perm (filp :: files))
    (hslots : k'.fileSlots.Perm (filp.address :: k.fileSlots)) : k'.Held files' := by
  have hcons : (filp.address :: files.map OpenFile.address).Subperm
      (filp.address :: k.fileSlots) := (List.subperm_cons _).mpr h
  exact ((hfiles.map OpenFile.address).subperm).trans (hcons.trans hslots.symm.subperm)

theorem Held.erase (h : k.Held files) (hf : filp ∈ files)
    (hslots : k'.fileSlots.Perm (k.fileSlots.erase filp.address)) :
    k'.Held (files.erase filp) := by
  have hperm := (List.perm_cons_erase hf).map OpenFile.address
  have hrest := (hperm.symm.subperm.trans h).erase filp.address
  rw [List.map_cons, List.erase_cons_head] at hrest
  exact hrest.trans hslots.symm.subperm

end FsKernel

namespace UserTask

variable {m : UserTask} {s s' : FileTables FsKernel} {ramFiles : List U64} {filp : OpenFile}
  {fd newFd res : U64}

/-- What a number of the task denotes. -/
def denotes (m : UserTask) (s : FileTables FsKernel) (fd : U32) : Option (U64 × U64) :=
  Persistos.denotes (s.filesLh m.address) fd

/-- A call on the files of the task that changes no contents. -/
structure OnlyFiles (m : UserTask) (s s' : FileTables FsKernel) (ramFiles : List U64) : Prop where
  kept : s.kernel.OnlyContents s'.kernel ramFiles 0
  ordered : Ordered (s'.filesLh m.address)
  held : s'.kernel.Held (s'.filesLh m.address)

theorem OnlyFiles.image (h : OnlyFiles m s s' ramFiles) {g : U64} (hg : g ∈ ramFiles) :
    s'.kernel.fs.image g = s.kernel.fs.image g :=
  h.kept.images g hg (h.kept.files.toRamKernel.ne_zero hg)

section Calls

variable (h : s.kernel.FilesKernel ramFiles) (ho : Ordered (s.filesLh m.address))
  (hheld : s.kernel.Held (s.filesLh m.address))

include h ho hheld

/-- A file of the list is freed and taken out. -/
theorem removeFile_ok {kernel : FsKernel} (hf : filp ∈ s.filesLh m.address)
    (hfree : s.kernel.fileFree filp.address = .ok kernel) :
    OnlyFiles m s ({ s with kernel }.setFiles m.address ((s.filesLh m.address).erase filp))
        ramFiles ∧
      ∀ x, m.denotes ({ s with kernel }.setFiles m.address ((s.filesLh m.address).erase filp)) x =
        if x = filp.fd then none else m.denotes s x := by
  obtain ⟨hkept, -, hslots⟩ := h.fileFree (f := 0) (hheld.mem hf) hfree
  refine ⟨⟨hkept, ?_, ?_⟩, fun x => ?_⟩
  · rw [FileTables.setFiles_self]
    exact ho.erase filp
  · rw [FileTables.setFiles_self]
    exact hheld.erase hf hslots
  · rw [denotes, FileTables.setFiles_self, Persistos.denotes, ho.filpFind_erase hf]
    split <;> rfl

theorem sysClose_denotes (hc : m.calls.sysClose s m.address fd = .ok (res, s')) :
    OnlyFiles m s s' ramFiles ∧
      ∀ x, m.denotes s' x = if x = fd.setWidth 32 then none else m.denotes s x := by
  rw [KernelCalls.sysClose] at hc
  split at hc
  · next hnone =>
    cases hc
    refine ⟨⟨.refl h, ho, hheld⟩, fun x => ?_⟩
    split
    · next hx =>
      rw [hx, denotes, Persistos.denotes, hnone]
      rfl
    · rfl
  · next filp hfind =>
    obtain ⟨kernel, hfree, hc⟩ := bind_eq_ok hc
    cases hc
    obtain ⟨hmem, hfd⟩ := filpFind_some hfind
    obtain ⟨honly, hdenotes⟩ := removeFile_ok h ho hheld hmem hfree
    rw [hfd] at hdenotes
    exact ⟨honly, hdenotes⟩

theorem closeForDup2_denotes {fd : U32} (hc : m.calls.closeForDup2 s m.address fd = .ok s') :
    OnlyFiles m s s' ramFiles ∧ (∀ f ∈ s'.filesLh m.address, f.fd ≠ fd) ∧
      ∀ x, x ≠ fd → m.denotes s' x = m.denotes s x := by
  rcases KernelCalls.closeForDup2_ok hc with ⟨rfl, hnone⟩ | ⟨filp, kernel, hfind, hfree, rfl⟩
  · refine ⟨⟨.refl h, ho, hheld⟩, fun f hf => ?_, fun _ _ => rfl⟩
    simpa using List.find?_eq_none.mp hnone f hf
  · obtain ⟨hmem, hfd⟩ := filpFind_some hfind
    obtain ⟨honly, hdenotes⟩ := removeFile_ok h ho hheld hmem hfree
    refine ⟨honly, fun f hf => ?_, fun x hx => ?_⟩
    · rw [FileTables.setFiles_self] at hf
      exact hfd ▸ ho.fd_ne_of_mem_erase hmem hf
    · rw [hdenotes, if_neg (hfd ▸ hx)]

/-- DUP2 of an open file. -/
theorem sysDup2_denotes (hfind : m.filpFind s fd = some filp)
    (hd : m.calls.sysDup2 s m.address fd newFd = .ok (res, s')) :
    OnlyFiles m s s' ramFiles ∧ ∀ x, m.denotes s' x =
      if x = newFd.setWidth 32 then some (filp.inode, filp.offset) else m.denotes s x := by
  have hfind : Persistos.filpFind (s.filesLh m.address) (fd.setWidth 32) = some filp := hfind
  rw [KernelCalls.sysDup2, hfind] at hd
  obtain ⟨s₁, hclose, hd⟩ := bind_eq_ok hd
  obtain ⟨⟨address, kernel⟩, halloc, hd⟩ := bind_eq_ok hd
  cases hd
  obtain ⟨honly, hfree, hothers⟩ := closeForDup2_denotes h ho hheld hclose
  have halloc : s₁.kernel.fileAlloc = .ok (address, kernel) := halloc
  obtain ⟨hkept, -, hslots⟩ := honly.kept.files.fileAlloc (f := 0) halloc
  refine ⟨⟨honly.kept.trans hkept, ?_, ?_⟩, fun x => ?_⟩
  · rw [FileTables.setFiles_self]
    exact honly.ordered.insertFile hfree
  · rw [FileTables.setFiles_self]
    exact honly.held.cons (insertFile_perm _ _) hslots
  · rw [denotes, FileTables.setFiles_self, Persistos.denotes,
      filpFind_insertFile honly.ordered hfree]
    dsimp only
    split
    · rfl
    · next hx => exact hothers x hx

end Calls

/-- FORK gives the child a copy of each file. -/
theorem cloneFiles_held {k k' : FsKernel} {files newFiles : List OpenFile}
    (h : k.FilesKernel ramFiles) (hc : m.calls.cloneFiles k files = .ok (newFiles, k')) :
    k.OnlyContents k' ramFiles 0 ∧
      k'.fileSlots.Perm (newFiles.map OpenFile.address ++ k.fileSlots) ∧
      ∀ x, Persistos.denotes newFiles x = Persistos.denotes files x := by
  induction files generalizing k newFiles with
  | nil =>
    cases hc
    exact ⟨.refl h, .refl _, fun _ => rfl⟩
  | cons file files ih =>
    obtain ⟨⟨address, k₁⟩, halloc, hc⟩ := bind_eq_ok hc
    obtain ⟨⟨rest, k₂⟩, hrest, hc⟩ := bind_eq_ok hc
    cases hc
    have halloc : k.fileAlloc = .ok (address, k₁) := halloc
    obtain ⟨hkept, -, hslots⟩ := h.fileAlloc (f := 0) halloc
    obtain ⟨hkept', hslots', hsame⟩ := ih hkept.files hrest
    refine ⟨hkept.trans hkept', ?_, fun x => ?_⟩
    · have hcons := hslots'.trans (hslots.append_left _)
      exact hcons.trans List.perm_middle
    · rw [denotes_cons, denotes_cons, hsame]

theorem forkFiles_held {t : U64} (h : s.kernel.FilesKernel ramFiles)
    (ho : Ordered (s.filesLh t)) (hf : m.calls.forkFiles s t m.address = .ok s') :
    OnlyFiles m s s' ramFiles ∧
      ∀ x, m.denotes s' x = Persistos.denotes (s.filesLh t) x := by
  obtain ⟨⟨files, kernel⟩, hclone, hf⟩ := bind_eq_ok hf
  cases hf
  obtain ⟨hkept, hslots, hsame⟩ := cloneFiles_held h hclone
  refine ⟨⟨hkept, ?_, ?_⟩, fun x => ?_⟩
  · rw [FileTables.setFiles_self]
    exact ho.map_congr (KernelCalls.cloneFiles_fds hclone)
  · rw [FileTables.setFiles_self]
    have hsub : (files.map OpenFile.address).Subperm
        (files.map OpenFile.address ++ s.kernel.fileSlots) :=
      (List.sublist_append_left _ _).subperm
    exact hsub.trans hslots.symm.subperm
  · rw [denotes, FileTables.setFiles_self]
    exact hsame x

end UserTask

end Persistos
