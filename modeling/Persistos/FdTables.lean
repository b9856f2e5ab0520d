import Persistos.OpenFiles
import Mathlib.Logic.Relation

/-! When the numbers of the open files of every task stay in order. OPEN adds one to
the last number, which DUP2 may have made the largest one there is. -/

namespace Persistos

variable {σ : Type} {calls : KernelCalls σ} {s s' : FileTables σ} {t : U64}

/-- The last number of the list is not the largest one. -/
def FdRoom (s : FileTables σ) (t : U64) : Prop := ∀ f ∈ (s.filesLh t).getLast?, f.fd ≠ -1

/-- A system call of some task, of which OPEN may only be called with room for a number,
or a step of the rest of the kernel. -/
inductive FileStep (calls : KernelCalls σ) (may : FileTables σ → U64 → Prop)
    (s : FileTables σ) : FileTables σ → Prop where
  | opens {t : U64} {path : List U8} {flags r : U64} {s' : FileTables σ} (room : may s t)
      (h : calls.sysOpen s t path flags = .ok (r, s')) : FileStep calls may s s'
  | close {t fd r : U64} {s' : FileTables σ} (h : calls.sysClose s t fd = .ok (r, s')) :
      FileStep calls may s s'
  | dup2 {t oldFd newFd r : U64} {s' : FileTables σ}
      (h : calls.sysDup2 s t oldFd newFd = .ok (r, s')) : FileStep calls may s s'
  | fork {t newProcess : U64} {s' : FileTables σ} (h : calls.forkFiles s t newProcess = .ok s') :
      FileStep calls may s s'
  | other {kernel : σ} : FileStep calls may s { s with kernel }

namespace FileTables

@[simp] theorem setFiles_self (s : FileTables σ) (t : U64) (files : List OpenFile) :
    (s.setFiles t files).filesLh t = files := by simp [setFiles]

theorem setFiles_ne (s : FileTables σ) {t u : U64} (h : u ≠ t) (files : List OpenFile) :
    (s.setFiles t files).filesLh u = s.filesLh u := by simp [setFiles, h]

/-- Every task has its files in order. -/
def Ordered (s : FileTables σ) : Prop := ∀ t, Persistos.Ordered (s.filesLh t)

theorem Ordered.setFiles (h : s.Ordered) {kernel : σ} {files : List OpenFile}
    (hf : Persistos.Ordered files) : ({ s with kernel }.setFiles t files).Ordered := by
  intro u
  by_cases hu : u = t
  · rw [hu, setFiles_self]
    exact hf
  · rw [setFiles_ne _ hu]
    exact h u

end FileTables

/-- A call into the file systems. -/
inductive VfsStep (calls : KernelCalls σ) (k k' : σ) : Prop where
  | resolve {path : List U8} {r : VfsLookupResult} (h : calls.vfsResolve k path = .ok (r, k'))
  | create {parentDirectory r : U64} {name : List U8}
      (h : calls.vfsCreate k parentDirectory name = .ok (r, k'))
  | ftruncate {filp : OpenFile} {size r : U64} (h : calls.vfsFtruncate k filp size = .ok (r, k'))

abbrev VfsSteps (calls : KernelCalls σ) : σ → σ → Prop := Relation.ReflTransGen (VfsStep calls)

/-- What OPEN does to the open files: nothing, and it fails, or it links a new file. -/
inductive Opened (calls : KernelCalls σ) (s s' : FileTables σ) (t r : U64) : Prop where
  | failed (kernel : VfsSteps calls s.kernel s'.kernel) (lists : s'.filesLh = s.filesLh)
      (code : 2 ^ 32 ≤ r.toNat)
  | linked {filp : OpenFile} {k₁ k₂ : σ} (before : VfsSteps calls s.kernel k₁)
      (alloc : calls.fileAlloc k₁ = .ok (filp.address, k₂)) (after : VfsSteps calls k₂ s'.kernel)
      (fd : filp.fd = nextFd (s.filesLh t))
      (lists : s'.filesLh = Function.update s.filesLh t (s.filesLh t ++ [filp]))
      (code : r = filp.fd.setWidth 64 ∨ 2 ^ 32 ≤ r.toNat)

namespace KernelCalls

theorem linkFile_ok {inode : U64} {filp : OpenFile}
    (h : calls.linkFile s t inode = .ok (filp, s')) :
    filp.fd = nextFd (s.filesLh t) ∧ filp.inode = inode ∧ filp.offset = 0 ∧
      calls.fileAlloc s.kernel = .ok (filp.address, s'.kernel) ∧
      s'.filesLh = Function.update s.filesLh t (s.filesLh t ++ [filp]) := by
  obtain ⟨⟨address, kernel⟩, ha, he⟩ := bind_eq_ok h
  simp only [Except.ok.injEq, Prod.mk.injEq] at he
  obtain ⟨rfl, rfl⟩ := he
  exact ⟨rfl, rfl, rfl, ha, rfl⟩

theorem openCreated_opened {parentDirectory r : U64} {name : List U8}
    (h : calls.openCreated s t parentDirectory name = .ok (r, s')) : Opened calls s s' t r := by
  obtain ⟨⟨createResult, kernel⟩, hcreate, h⟩ := bind_eq_ok h
  have hstep : VfsSteps calls s.kernel kernel := .single (.create hcreate)
  dsimp only at h
  split at h
  · simp only [Except.ok.injEq, Prod.mk.injEq] at h
    obtain ⟨rfl, rfl⟩ := h
    exact .failed hstep rfl (by decide)
  · obtain ⟨⟨filp, s₁⟩, hlink, h⟩ := bind_eq_ok h
    simp only [Except.ok.injEq, Prod.mk.injEq] at h
    obtain ⟨rfl, rfl⟩ := h
    obtain ⟨hfd, -, -, halloc, hlists⟩ := linkFile_ok hlink
    exact .linked hstep halloc .refl hfd hlists (.inl rfl)

theorem openExisting_opened {inode flags r : U64}
    (h : calls.openExisting s t inode flags = .ok (r, s')) : Opened calls s s' t r := by
  obtain ⟨⟨filp, s₁⟩, hlink, h⟩ := bind_eq_ok h
  obtain ⟨hfd, -, -, halloc, hlists⟩ := linkFile_ok hlink
  dsimp only at h
  split at h
  · obtain ⟨⟨truncateResult, kernel⟩, htruncate, h⟩ := bind_eq_ok h
    have hstep : VfsSteps calls s₁.kernel kernel := .single (.ftruncate htruncate)
    dsimp only at h
    split at h
    · next hneg =>
      simp only [Except.ok.injEq, Prod.mk.injEq] at h
      obtain ⟨rfl, rfl⟩ := h
      refine .linked .refl halloc hstep hfd hlists (.inr ?_)
      rw [BitVec.toInt_eq_toNat_cond] at hneg
      split at hneg <;> omega
    · simp only [Except.ok.injEq, Prod.mk.injEq] at h
      obtain ⟨rfl, rfl⟩ := h
      exact .linked .refl halloc hstep hfd hlists (.inl rfl)
  · simp only [Except.ok.injEq, Prod.mk.injEq] at h
    obtain ⟨rfl, rfl⟩ := h
    exact .linked .refl halloc .refl hfd hlists (.inl rfl)

theorem sysOpen_opened {path : List U8} {flags r : U64}
    (h : calls.sysOpen s t path flags = .ok (r, s')) : Opened calls s s' t r := by
  obtain ⟨⟨lookupResult, kernel⟩, hresolve, h⟩ := bind_eq_ok h
  have hstep : VfsStep calls s.kernel kernel := .resolve hresolve
  have hfail : ∀ code : U64, 2 ^ 32 ≤ code.toNat →
      Except.ok (code, { s with kernel }) = (Except.ok (r, s') : Except Crash _) →
        Opened calls s s' t r := by
    intro code hcode he
    simp only [Except.ok.injEq, Prod.mk.injEq] at he
    obtain ⟨rfl, rfl⟩ := he
    exact .failed (.single hstep) rfl hcode
  have hlift : Opened calls { s with kernel } s' t r → Opened calls s s' t r := by
    intro ho
    cases ho with
    | failed kernel lists code => exact .failed (.head hstep kernel) lists code
    | linked before alloc after fd lists code =>
      exact .linked (.head hstep before) alloc after fd lists code
  dsimp only at h
  split at h
  · exact hfail _ (by decide) h
  split at h
  · exact hfail _ (by decide) h
  split at h
  · split at h
    · exact hlift (openCreated_opened h)
    · exact hfail _ (by decide) h
  split at h
  · exact hlift (openExisting_opened h)
  · cases h

theorem closeForDup2_ok {fd : U32} (h : calls.closeForDup2 s t fd = .ok s') :
    (s' = s ∧ filpFind (s.filesLh t) fd = none) ∨
      ∃ filp kernel, filpFind (s.filesLh t) fd = some filp ∧
        calls.fileFree s.kernel filp.address = .ok kernel ∧
        s' = { s with kernel }.setFiles t ((s.filesLh t).erase filp) := by
  rw [closeForDup2] at h
  split at h
  · next hnone => exact .inl ⟨(Except.ok.inj h).symm, hnone⟩
  · next filp hfilp =>
    obtain ⟨kernel, hfree, he⟩ := bind_eq_ok h
    exact .inr ⟨filp, kernel, hfilp, hfree, (Except.ok.inj he).symm⟩

theorem cloneFiles_fds {kernel kernel' : σ} {files newFiles : List OpenFile}
    (h : calls.cloneFiles kernel files = .ok (newFiles, kernel')) :
    newFiles.map OpenFile.fd = files.map OpenFile.fd := by
  induction files generalizing kernel kernel' newFiles with
  | nil =>
    obtain ⟨rfl, -⟩ := Prod.mk.inj (Except.ok.inj h)
    rfl
  | cons file files ih =>
    obtain ⟨⟨address, k₁⟩, -, h⟩ := bind_eq_ok h
    obtain ⟨⟨rest, k₂⟩, hrest, h⟩ := bind_eq_ok h
    obtain ⟨rfl, -⟩ := Prod.mk.inj (Except.ok.inj h)
    simp [ih hrest]

end KernelCalls

namespace FileTables.Ordered

theorem close (h : s.Ordered) {fd r : U64} (hc : calls.sysClose s t fd = .ok (r, s')) :
    s'.Ordered := by
  rw [KernelCalls.sysClose] at hc
  split at hc
  · obtain ⟨-, rfl⟩ := Prod.mk.inj (Except.ok.inj hc)
    exact h
  · obtain ⟨kernel, -, he⟩ := bind_eq_ok hc
    obtain ⟨-, rfl⟩ := Prod.mk.inj (Except.ok.inj he)
    exact h.setFiles ((h t).erase _)

theorem dup2 (h : s.Ordered) {oldFd newFd r : U64}
    (hd : calls.sysDup2 s t oldFd newFd = .ok (r, s')) : s'.Ordered := by
  rw [KernelCalls.sysDup2] at hd
  split at hd
  · obtain ⟨-, rfl⟩ := Prod.mk.inj (Except.ok.inj hd)
    exact h
  · next oldFilp _ =>
    obtain ⟨s₁, hclose, hd⟩ := bind_eq_ok hd
    obtain ⟨⟨address, kernel⟩, -, hd⟩ := bind_eq_ok hd
    obtain ⟨-, rfl⟩ := Prod.mk.inj (Except.ok.inj hd)
    -- no file of the list has the new number any more
    have hfree : s₁.Ordered ∧ ∀ f ∈ s₁.filesLh t, f.fd ≠ newFd.setWidth 32 := by
      rcases KernelCalls.closeForDup2_ok hclose with ⟨rfl, hnone⟩ | ⟨filp, k, hfilp, -, rfl⟩
      · exact ⟨h, fun f hf => by simpa using List.find?_eq_none.mp hnone f hf⟩
      · obtain ⟨hm, hfd⟩ := filpFind_some hfilp
        refine ⟨h.setFiles ((h t).erase _), ?_⟩
        rw [setFiles_self, ← hfd]
        exact fun f hf => (h t).fd_ne_of_mem_erase hm hf
    exact hfree.1.setFiles ((hfree.1 t).insertFile hfree.2)

theorem fork (h : s.Ordered) {newProcess : U64}
    (hf : calls.forkFiles s t newProcess = .ok s') : s'.Ordered := by
  obtain ⟨⟨files, kernel⟩, hclone, he⟩ := bind_eq_ok hf
  obtain rfl := Except.ok.inj he
  exact h.setFiles ((h t).map_congr (KernelCalls.cloneFiles_fds hclone))

/-- OPEN by a task with room for a number. -/
theorem opened (h : s.Ordered) {r : U64} (ho : Opened calls s s' t r) (hroom : FdRoom s t) :
    s'.Ordered ∧ (r.toNat < 2 ^ 32 → ∀ f ∈ s.filesLh t, f.fd.setWidth 64 ≠ r) := by
  cases ho with
  | failed _ lists code =>
    refine ⟨fun u => by rw [lists]; exact h u, ?_⟩
    intro hr
    omega
  | @linked filp _ _ _ _ _ fd lists code =>
    have hlt := (h t).lt_nextFd hroom
    rw [← fd] at hlt
    constructor
    · intro u
      rw [lists]
      exact @Ordered.setFiles _ _ t h s.kernel _ ((h t).append hlt) u
    · intro hr f hf
      rcases code with rfl | code
      · have hne := hlt f hf
        bv_omega
      · omega

/-- OPEN by a task whose last number is the largest one. -/
theorem wrapped {r : U64} (ho : Opened calls s s' t r) (hroom : ¬FdRoom s t) (hr : r.toNat < 2 ^ 32) :
    r = 0 ∧ ¬s'.Ordered := by
  simp only [FdRoom, not_forall, not_not] at hroom
  obtain ⟨last, hlast, hfd⟩ := hroom
  cases ho with
  | failed _ _ code => omega
  | @linked filp _ _ _ _ _ fd lists code =>
    have hlast' : (s.filesLh t).getLast? = some last := hlast
    have hzero : filp.fd = 0 := by
      rw [fd, nextFd, hlast']
      simp [hfd]
    constructor
    · rcases code with rfl | code
      · rw [hzero]
        rfl
      · omega
    · intro hord
      have ht := hord t
      rw [lists, Function.update_self] at ht
      have hlt := (List.pairwise_append.mp ht).2.2 last (List.mem_of_getLast? hlast') filp
        (List.mem_singleton_self filp)
      rw [hzero] at hlt
      exact absurd hlt (BitVec.not_lt_zero)

theorem step (h : s.Ordered) (hs : FileStep calls FdRoom s s') : s'.Ordered := by
  cases hs with
  | opens room ho => exact (h.opened (KernelCalls.sysOpen_opened ho) room).1
  | close hc => exact h.close hc
  | dup2 hd => exact h.dup2 hd
  | fork hf => exact h.fork hf
  | other => exact h

theorem run {s₀ : FileTables σ} (h₀ : s₀.Ordered)
    (h : Relation.ReflTransGen (FileStep calls FdRoom) s₀ s) : s.Ordered := by
  induction h with
  | refl => exact h₀
  | tail _ hstep ih => exact ih.step hstep

end FileTables.Ordered

/-- The result of `vfs_resolve` in a root directory without entries. -/
def resolveInRoot (path : List U8) : Except Crash VfsLookupResult := do
  let (lookupResult, _) ← vfsResolve (fun tree _ _ => .ok tree)
    ⟨1, fun _ => ⟨inodeDirectory, 0, 0, []⟩, fun _ => ⟨[], 0, 0⟩⟩ path ⟨0, 0, 0, 0, [], 0⟩
  .ok lookupResult

/-- A root directory, and slots that are never taken twice. -/
def rootCalls : KernelCalls Nat where
  vfsResolve k path := do
    let lookupResult ← resolveInRoot path
    .ok (lookupResult, k)
  vfsCreate k _ _ := .ok (0, k)
  inodeType _ _ := inodeDirectory
  vfsFtruncate k _ _ := .ok (-1, k)
  fileAlloc k := .ok (BitVec.ofNat 64 k, k + 40)
  fileFree k _ := .ok k

def noFiles : FileTables Nat := ⟨0x1000, fun _ => []⟩

end Persistos
