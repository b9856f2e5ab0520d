import Persistos.Cat
import Persistos.Descriptors
import Persistos.RedirectInfos

/-! The redirects of a command, which the shell opens in the child between FORK and EXEC. -/

namespace Persistos

open Theory

namespace ShellRedirects

variable (m : UserTask)

/-- The body of the loop over the redirects. -/
def redirect (s : Process) (ri : RedirectInfo) : Except UserStop Process := do
  let (oldFd, s) ← s.openFile m ri.targetPath (oCreat ||| oTruncate)
  if isError oldFd then s.fail m [ascii "shell: failed to open file for redirect\n"]
  else do
    let (dup2Result, s) ← s.dup2 m oldFd ri.fd
    if isError dup2Result then s.fail m [ascii "shell: failed to duplicate fd"]
    else do
      let (_, s) ← s.close m oldFd
      .ok s

def redirects (s : Process) (redirectInfos : List RedirectInfo) : Except UserStop Process :=
  redirectInfos.foldlM (redirect m) s

end ShellRedirects

namespace UserTask

variable {m : UserTask} {s s' : FileTables FsKernel} {ramFiles : List U64}

/-- The files of a child, which has a number besides 0 and does not have the largest one. -/
structure ChildFiles (m : UserTask) (s : FileTables FsKernel) : Prop where
  ordered : Ordered (s.filesLh m.address)
  held : s.kernel.Held (s.filesLh m.address)
  standard : ∃ x, x ≠ 0 ∧ (m.denotes s x).isSome
  room : m.denotes s (-1) = none

theorem ChildFiles.fdRoom (h : ChildFiles m s) : FdRoom s m.address := by
  intro f hf hfd
  have hfind := h.ordered.filpFind_eq_some.mpr ⟨List.mem_of_getLast? hf, hfd⟩
  have hroom := h.room
  rw [denotes, Persistos.denotes, hfind] at hroom
  cases hroom

/-- A new number is not one of those that redirects are about. -/
theorem ChildFiles.two_le_nextFd (h : ChildFiles m s) : 2 ≤ (nextFd (s.filesLh m.address)).toNat := by
  obtain ⟨x, hx, hsome⟩ := h.standard
  rw [denotes, Persistos.denotes, Option.isSome_map] at hsome
  obtain ⟨f, hf⟩ := Option.isSome_iff_exists.mp hsome
  obtain ⟨hmem, rfl⟩ := filpFind_some hf
  have hlt := h.ordered.lt_nextFd h.fdRoom f hmem
  have hpos : f.fd.toNat ≠ 0 := fun hz => hx (BitVec.eq_of_toNat_eq hz)
  rw [BitVec.lt_def] at hlt
  omega

/-- What a redirect leaves that leads to the file at `f`. -/
structure Redirected (m : UserTask) (s s' : FileTables FsKernel) (ramFiles ramFiles' : List U64)
    (ri : RedirectInfo) (f : U64) : Prop where
  kernel : s'.kernel.FilesKernel ramFiles'
  subset : ramFiles ⊆ ramFiles'
  disk : s'.kernel.disk = s.kernel.disk
  images : ∀ g ∈ ramFiles, g ≠ f → s'.kernel.fs.image g = s.kernel.fs.image g
  empty : f ∈ ramFiles' → (s'.kernel.fs.image f).content = []
  pathOf : s'.kernel.PathOf ri.targetPath f
  before : m.Leads s.kernel ri.targetPath f ∨
    f ∈ ramFiles' ∧ ¬s.kernel.Known f ∧ ∀ g, ¬m.Leads s.kernel ri.targetPath g
  child : ChildFiles m s'
  denotes : ∀ x, m.denotes s' x = if x = ri.fd.setWidth 32 then some (f, 0) else m.denotes s x

/-- OPEN, DUP2 and CLOSE one after the other. -/
theorem redirected {ri : RedirectInfo} (h : s.kernel.FilesKernel ramFiles) (hc : ChildFiles m s)
    (hri : ri.fd = 0 ∨ ri.fd = 1) {s₁ s₂ : FileTables FsKernel} {oldFd n n' : U64}
    (hopen : m.calls.sysOpen s m.address ri.targetPath (oCreat ||| oTruncate) = .ok (oldFd, s₁))
    (hok : isError oldFd = false) (hdup : m.calls.sysDup2 s₁ m.address oldFd ri.fd = .ok (n, s₂))
    (hclose : m.calls.sysClose s₂ m.address oldFd = .ok (n', s')) :
    ∃ ramFiles' f, Redirected m s s' ramFiles ramFiles' ri f := by
  obtain ⟨ramFiles', filp, rfl, hemptied⟩ := sysOpen_emptied h hopen hok
  have hlt := hc.ordered.lt_nextFd hc.fdRoom
  rw [← hemptied.fd] at hlt
  have hne : ∀ g ∈ s.filesLh m.address, g.fd ≠ filp.fd := fun g hg he =>
    absurd (hlt g hg) (he ▸ BitVec.lt_irrefl _)
  have hfiles : s₁.filesLh m.address = s.filesLh m.address ++ [filp] := by
    rw [hemptied.lists, Function.update_self]
  have hordered₁ : Ordered (s₁.filesLh m.address) := by
    rw [hfiles]
    exact hc.ordered.append hlt
  have hheld₁ : s₁.kernel.Held (s₁.filesLh m.address) :=
    hc.held.cons (hfiles ▸ List.perm_append_singleton _ _) hemptied.slots
  have hwidth : (filp.fd.setWidth 64).setWidth 32 = filp.fd :=
    BitVec.setWidth_setWidth_of_le filp.fd (by decide)
  have hfind : m.filpFind s₁ (filp.fd.setWidth 64) = some filp := by
    rw [UserTask.filpFind, hwidth, hfiles, filpFind_append_new hne, if_pos rfl]
  obtain ⟨h₂, hdenotes₂⟩ := sysDup2_denotes hemptied.kernel hordered₁ hheld₁ hfind hdup
  obtain ⟨h₃, hdenotes₃⟩ := sysClose_denotes h₂.kept.files h₂.ordered h₂.held hclose
  have hold : m.denotes s filp.fd = none := denotes_eq_none hc.ordered hne
  have hnew : ri.fd.setWidth 32 ≠ filp.fd := by
    have hle := hc.two_le_nextFd
    rw [← hemptied.fd] at hle
    rintro he
    rw [← he] at hle
    rcases hri with hz | hz <;> rw [hz] at hle <;> exact absurd hle (by decide)
  have hdenotes : ∀ x, m.denotes s' x =
      if x = ri.fd.setWidth 32 then some (filp.inode, 0) else m.denotes s x := by
    intro x
    have hstep : m.denotes s₁ x =
        if x = filp.fd then some (filp.inode, filp.offset) else m.denotes s x := by
      rw [UserTask.denotes, hfiles, Persistos.denotes, filpFind_append_new hne]
      split <;> rfl
    rw [hdenotes₃, hdenotes₂, hstep, hwidth, hemptied.offset]
    by_cases hx : x = filp.fd
    · rw [if_pos hx, if_neg (by rw [hx]; exact hnew.symm), hx, hold]
    · rw [if_neg hx, if_neg hx]
  have htree := h₂.kept.tree.trans h₃.kept.tree
  have himage : ∀ g ∈ ramFiles', s'.kernel.fs.image g = s₁.kernel.fs.image g :=
    fun g hg => (h₃.image hg).trans (h₂.image hg)
  refine ⟨ramFiles', filp.inode, h₃.kept.files, hemptied.subset,
    (h₃.kept.disk.trans h₂.kept.disk).trans hemptied.disk, fun g hg hgne => ?_, fun hmem => ?_,
    hemptied.pathOf.kept htree, hemptied.before, ⟨h₃.ordered, h₃.held, ?_, ?_⟩, hdenotes⟩
  · exact (himage g (hemptied.subset hg)).trans (hemptied.images g hg hgne)
  · rw [himage _ hmem]
    exact hemptied.empty hmem
  · obtain ⟨x, hx, hsome⟩ := hc.standard
    refine ⟨x, hx, ?_⟩
    rw [hdenotes]
    split
    · rfl
    · exact hsome
  · have hlast : (-1 : U32) ≠ ri.fd.setWidth 32 := by
      rcases hri with hz | hz <;> rw [hz] <;> decide
    rw [hdenotes, if_neg hlast]
    exact hc.room

end UserTask

namespace FsKernel

/-- A regular file on the RAM file system. -/
structure FileInRam (k : FsKernel) (f : U64) : Prop where
  known : k.Known f
  onRamfs : k.typeOf f = .ramfs
  regular : (k.inode f).type = inodeRegularFile

def content (k : FsKernel) (f : U64) : List U8 := (k.fs.image f).content

theorem FilesKernel.mem_iff {k : FsKernel} {ramFiles : List U64} (h : k.FilesKernel ramFiles)
    {f : U64} : f ∈ ramFiles ↔ k.FileInRam f :=
  ⟨fun hf => ⟨h.known f hf, h.onRamfs f hf, h.toRamKernel.regular hf⟩,
    fun hf => h.complete f hf.known hf.onRamfs hf.regular⟩

end FsKernel

namespace UserTask

variable {m : UserTask} {k : FsKernel} {s s' : FileTables FsKernel} {ramFiles ramFiles' : List U64}
  {path : List U8} {ri : RedirectInfo} {f g : U64}

theorem Leads.unique (h : m.Leads k path f) (h' : m.Leads k path g) : f = g := by
  obtain ⟨r, k₁, hr, -, rfl⟩ := h
  obtain ⟨r', k₂, hr', -, rfl⟩ := h'
  cases hr.symm.trans hr'
  rfl

/-- OPEN leaves the file that is read from as it is: it is not in RAM, or it is empty. -/
def SafeInput (m : UserTask) (k : FsKernel) (path : List U8) : Prop :=
  ∃ f, m.Leads k path f ∧ (k.FileInRam f → k.content f = [])

/-- A redirect of safe input changes no contents. -/
theorem Redirected.input (h : Redirected m s s' ramFiles ramFiles' ri f)
    (hk : s.kernel.FilesKernel ramFiles) (hsafe : SafeInput m s.kernel ri.targetPath) :
    m.Leads s.kernel ri.targetPath f ∧ ∀ g ∈ ramFiles, s'.kernel.content g = s.kernel.content g := by
  obtain ⟨f', hleads, hempty⟩ := hsafe
  have hbefore : m.Leads s.kernel ri.targetPath f :=
    h.before.resolve_right fun hnew => hnew.2.2 f' hleads
  obtain rfl := hbefore.unique hleads
  refine ⟨hbefore, fun g hg => ?_⟩
  by_cases hgf : g = f
  · subst hgf
    rw [hempty (hk.mem_iff.mp hg)]
    exact h.empty (h.subset hg)
  · exact congrArg Image.content (h.images g hg hgf)

end UserTask

open UserTask

theorem TreeBoot.filesKernel (b : TreeBoot) : b.kernel.FilesKernel [] where
  toInv := b.ramfsTree.toInv
  ram := (RunInv.boot b.memory).inv
  onRamfs _ hf := absurd hf List.not_mem_nil
  clusterSize := rfl
  rootRamfs := b.ramfsTree.onRamfs _ b.ramfsTree.root
  known _ hf := absurd hf List.not_mem_nil
  complete y hy _ hregular := by
    obtain rfl := (b.known_iff y).mp hy
    rw [b.root_inode] at hregular
    exact absurd (a := inodeDirectory = inodeRegularFile) hregular (by decide)
  superblocks y hy _ := b.ramfsTree.mounted y hy

namespace ShellRedirects

variable {m : UserTask} {s s' s₁ : Process} {ri : RedirectInfo} {rs rest : List RedirectInfo}
  {ramFiles : List U64}

theorem redirect_ok (h : s.tables.kernel.FilesKernel ramFiles) (hc : ChildFiles m s.tables)
    (hri : ri.fd = 0 ∨ ri.fd = 1) (hrun : redirect m s ri = .ok s') :
    ∃ ramFiles' f, Redirected m s.tables s'.tables ramFiles ramFiles' ri f := by
  rw [redirect] at hrun
  obtain ⟨⟨oldFd, s₁⟩, hopen, hrun⟩ := bind_user_eq_ok hrun
  obtain ⟨⟨_, t₁⟩, hsys, he⟩ := bind_user_eq_ok hopen
  cases he
  dsimp only at hrun
  split at hrun
  · exact absurd hrun Process.fail_ne_ok
  · next hok =>
    obtain ⟨⟨dup2Result, s₂⟩, hdup, hrun⟩ := bind_user_eq_ok hrun
    obtain ⟨⟨_, t₂⟩, hsys₂, he⟩ := bind_user_eq_ok hdup
    cases he
    dsimp only at hrun
    split at hrun
    · exact absurd hrun Process.fail_ne_ok
    · obtain ⟨⟨n, s₃⟩, hclose, hrun⟩ := bind_user_eq_ok hrun
      cases hrun
      obtain ⟨⟨_, t₃⟩, hsys₃, he⟩ := bind_user_eq_ok hclose
      cases he
      exact redirected h hc hri (mapError_eq_ok hsys) (Bool.eq_false_iff.mpr hok)
        (mapError_eq_ok hsys₂) (mapError_eq_ok hsys₃)

/-- The loop comes to `ri` in the state `s₁`, with `rest` behind it. -/
inductive ComesTo (m : UserTask) : Process → List RedirectInfo → Process → RedirectInfo →
    List RedirectInfo → Prop
  | here {s : Process} {ri : RedirectInfo} {rest : List RedirectInfo} :
      ComesTo m s (ri :: rest) s ri rest
  | later {s s' s₁ : Process} {r ri : RedirectInfo} {rs rest : List RedirectInfo}
      (step : redirect m s r = .ok s') (comesTo : ComesTo m s' rs s₁ ri rest) :
      ComesTo m s (r :: rs) s₁ ri rest

theorem ComesTo.mem (h : ComesTo m s rs s₁ ri rest) : ri ∈ rs := by
  induction h with
  | here => exact List.mem_cons_self
  | later _ _ ih => exact List.mem_cons_of_mem _ ih

/-- The state of a child in the loop. -/
structure InLoop (m : UserTask) (s : Process) (ramFiles : List U64) (rs : List RedirectInfo) :
    Prop where
  kernel : s.tables.kernel.FilesKernel ramFiles
  child : ChildFiles m s.tables
  fds : ∀ ri ∈ rs, ri.fd = 0 ∨ ri.fd = 1

theorem InLoop.step (h : InLoop m s ramFiles (ri :: rs)) (hrun : redirect m s ri = .ok s') :
    ∃ ramFiles' f, Redirected m s.tables s'.tables ramFiles ramFiles' ri f ∧
      InLoop m s' ramFiles' rs := by
  obtain ⟨ramFiles', f, hr⟩ := redirect_ok h.kernel h.child (h.fds ri List.mem_cons_self) hrun
  exact ⟨ramFiles', f, hr, hr.kernel, hr.child, fun r hr => h.fds r (List.mem_cons_of_mem _ hr)⟩

/-- What any number of redirects keeps. -/
structure LoopKept (m : UserTask) (s s' : Process) (ramFiles ramFiles' : List U64)
    (rs : List RedirectInfo) : Prop where
  kernel : s'.tables.kernel.FilesKernel ramFiles'
  subset : ramFiles ⊆ ramFiles'
  disk : s'.tables.kernel.disk = s.tables.kernel.disk
  empty : ∀ f ∈ ramFiles, s.tables.kernel.content f = [] → s'.tables.kernel.content f = []
  denotes : ∀ x, (∀ ri ∈ rs, x ≠ ri.fd.setWidth 32) → m.denotes s'.tables x = m.denotes s.tables x

theorem InLoop.run (h : InLoop m s ramFiles rs) (hrun : redirects m s rs = .ok s') :
    ∃ ramFiles', LoopKept m s s' ramFiles ramFiles' rs := by
  induction rs generalizing s ramFiles with
  | nil =>
    cases hrun
    exact ⟨ramFiles, h.kernel, List.Subset.refl _, rfl, fun _ _ he => he, fun _ _ => rfl⟩
  | cons ri rs ih =>
    obtain ⟨s₁, hstep, hrun⟩ := bind_user_eq_ok hrun
    obtain ⟨ramFiles₁, f, hr, h₁⟩ := h.step hstep
    obtain ⟨ramFiles', hrest⟩ := ih h₁ hrun
    refine ⟨ramFiles', hrest.kernel, List.Subset.trans hr.subset hrest.subset,
      hrest.disk.trans hr.disk, fun g hg he => hrest.empty g (hr.subset hg) ?_, fun x hx => ?_⟩
    · by_cases hgf : g = f
      · subst hgf
        exact hr.empty (hr.subset hg)
      · rw [FsKernel.content, hr.images g hg hgf]
        exact he
    · rw [hrest.denotes x fun r hr => hx r (List.mem_cons_of_mem _ hr), hr.denotes,
        if_neg (hx ri List.mem_cons_self)]

/-- Where the loop comes to a redirect, and goes on from it. -/
theorem ComesTo.splits (hcomes : ComesTo m s rs s₁ ri rest) (h : InLoop m s ramFiles rs)
    (hrun : redirects m s rs = .ok s') :
    ∃ ramFiles₁ s₂, InLoop m s₁ ramFiles₁ (ri :: rest) ∧ redirect m s₁ ri = .ok s₂ ∧
      redirects m s₂ rest = .ok s' := by
  induction hcomes generalizing ramFiles with
  | here =>
    obtain ⟨s₂, hstep, hrun⟩ := bind_user_eq_ok hrun
    exact ⟨ramFiles, s₂, h, hstep, hrun⟩
  | later step comesTo ih =>
    obtain ⟨s₂, hstep, hrun⟩ := bind_user_eq_ok hrun
    cases step.symm.trans hstep
    obtain ⟨ramFiles', f, -, h'⟩ := h.step step
    exact ih h' hrun

/-- Whenever the loop comes to a redirect of the input, what is there is safe. -/
def InputsSafe (m : UserTask) (s : Process) (rs : List RedirectInfo) : Prop :=
  ∀ s₁ ri rest, ComesTo m s rs s₁ ri rest → ri.fd = 0 →
    SafeInput m s₁.tables.kernel ri.targetPath

/-- The redirects have changed the files that they write to and no other, and the numbers that
they are about. `files` are the open files of the parent. -/
structure TouchesOutputs (m : UserTask) (files : List OpenFile) (s s' : Process)
    (rs : List RedirectInfo) : Prop where
  contents : ∀ f, s.tables.kernel.FileInRam f →
    s'.tables.kernel.content f ≠ s.tables.kernel.content f →
      ∃ s₁ ri rest, ComesTo m s rs s₁ ri rest ∧ ri.fd = 1 ∧
        m.Leads s₁.tables.kernel ri.targetPath f
  disk : s'.tables.kernel.disk = s.tables.kernel.disk
  outputs : ∀ s₁ ri rest s₂, ComesTo m s rs s₁ ri rest → redirect m s₁ ri = .ok s₂ → ri.fd = 1 →
    ∃ f, s₂.tables.kernel.PathOf ri.targetPath f ∧
      (m.Leads s₁.tables.kernel ri.targetPath f ∨ ¬s₁.tables.kernel.Known f) ∧
      (s₂.tables.kernel.FileInRam f → s'.tables.kernel.content f = [])
  inputs : ∀ s₁ ri rest s₂, ComesTo m s rs s₁ ri rest → redirect m s₁ ri = .ok s₂ → ri.fd = 0 →
    ∃ f, m.Leads s₁.tables.kernel ri.targetPath f ∧ ∀ g, s₁.tables.kernel.FileInRam g →
      s₂.tables.kernel.content g = s₁.tables.kernel.content g
  last : ∀ s₁ ri rest s₂, ComesTo m s rs s₁ ri rest → redirect m s₁ ri = .ok s₂ →
    (∀ r ∈ rest, r.fd ≠ ri.fd) → ∃ f, s₂.tables.kernel.PathOf ri.targetPath f ∧
      m.denotes s'.tables (ri.fd.setWidth 32) = some (f, 0)
  others : ∀ x, (∀ ri ∈ rs, x ≠ ri.fd.setWidth 32) → m.denotes s'.tables x = denotes files x

theorem InputsSafe.tail (h : InputsSafe m s (ri :: rs)) (hstep : redirect m s ri = .ok s') :
    InputsSafe m s' rs := fun _ _ _ hcomes => h _ _ _ (.later hstep hcomes)

/-- Contents that change are those of a file that the loop writes to. -/
theorem InLoop.contents (h : InLoop m s ramFiles rs) (hsafe : InputsSafe m s rs)
    (hrun : redirects m s rs = .ok s') {f : U64} (hf : f ∈ ramFiles)
    (hne : s'.tables.kernel.content f ≠ s.tables.kernel.content f) :
    ∃ s₁ ri rest, ComesTo m s rs s₁ ri rest ∧ ri.fd = 1 ∧
      m.Leads s₁.tables.kernel ri.targetPath f := by
  induction rs generalizing s ramFiles with
  | nil =>
    cases hrun
    exact absurd rfl hne
  | cons ri rs ih =>
    obtain ⟨s₁, hstep, hrun⟩ := bind_user_eq_ok hrun
    obtain ⟨ramFiles₁, g, hr, h₁⟩ := h.step hstep
    by_cases hlater : s'.tables.kernel.content f = s₁.tables.kernel.content f
    · rw [hlater] at hne
      refine ⟨s, ri, rs, .here, (h.fds ri List.mem_cons_self).resolve_left fun hin => ?_, ?_⟩
      · exact hne ((hr.input h.kernel (hsafe _ _ _ .here hin)).2 f hf)
      · have hfg : f = g := by
          by_contra hfg
          exact hne (congrArg Image.content (hr.images f hf hfg))
        subst hfg
        exact hr.before.resolve_right fun hnew => hnew.2.1 (h.kernel.known f hf)
    · obtain ⟨s₂, r, rest, hcomes, hfd, hleads⟩ :=
        ih h₁ (hsafe.tail hstep) hrun (hr.subset hf) hlater
      exact ⟨s₂, r, rest, .later hstep hcomes, hfd, hleads⟩

theorem InLoop.touches (h : InLoop m s ramFiles rs) (hsafe : InputsSafe m s rs)
    (hrun : redirects m s rs = .ok s') {files : List OpenFile}
    (hfiles : ∀ x, m.denotes s.tables x = denotes files x) : TouchesOutputs m files s s' rs := by
  obtain ⟨ramFiles', hkept⟩ := h.run hrun
  refine ⟨fun f hf hne => h.contents hsafe hrun (h.kernel.mem_iff.mpr hf) hne, hkept.disk,
    fun s₁ ri rest s₂ hcomes hstep _ => ?_, fun s₁ ri rest s₂ hcomes hstep hfd => ?_,
    fun s₁ ri rest s₂ hcomes hstep hlast => ?_,
    fun x hx => (hkept.denotes x hx).trans (hfiles x)⟩
  all_goals
    obtain ⟨ramFiles₁, s₃, h₁, hstep', hrest⟩ := hcomes.splits h hrun
    cases hstep.symm.trans hstep'
    obtain ⟨ramFiles₂, f, hr, h₂⟩ := h₁.step hstep
  · obtain ⟨ramFiles₃, hkept'⟩ := h₂.run hrest
    refine ⟨f, hr.pathOf, hr.before.imp_right fun hnew => hnew.2.1, fun hf => ?_⟩
    have hmem := hr.kernel.mem_iff.mpr hf
    exact hkept'.empty f hmem (hr.empty hmem)
  · obtain ⟨hleads, hsame⟩ := hr.input h₁.kernel (hsafe _ _ _ hcomes hfd)
    exact ⟨f, hleads, fun g hg => hsame g (h₁.kernel.mem_iff.mpr hg)⟩
  · obtain ⟨ramFiles₃, hkept'⟩ := h₂.run hrest
    refine ⟨f, hr.pathOf, ?_⟩
    have hself := hr.denotes (ri.fd.setWidth 32)
    rw [if_pos rfl] at hself
    rw [hkept'.denotes _ fun r hmem he => hlast r hmem ?_, hself]
    rcases h₂.fds r hmem with hz | hz <;>
    rcases h₁.fds ri List.mem_cons_self with hz' | hz' <;>
    rw [hz, hz'] at he ⊢ <;>
    exact absurd he (by decide)

theorem InLoop.inputsSafe (h : InLoop m s ramFiles rs) (hrun : redirects m s rs = .ok s')
    {files : List OpenFile} (ht : TouchesOutputs m files s s' rs) : InputsSafe m s rs := by
  intro s₁ ri rest hcomes hfd
  obtain ⟨ramFiles₁, s₂, h₁, hstep, -⟩ := hcomes.splits h hrun
  obtain ⟨ramFiles₂, f', hr, -⟩ := h₁.step hstep
  obtain ⟨f, hleads, hsame⟩ := ht.inputs s₁ ri rest s₂ hcomes hstep hfd
  have hbefore := hr.before.resolve_right fun hnew => hnew.2.2 f hleads
  obtain rfl := hbefore.unique hleads
  refine ⟨f', hleads, fun hin => ?_⟩
  rw [← hsame f' hin]
  exact hr.empty (hr.subset (h₁.kernel.mem_iff.mpr hin))

/-- The open files of a shell: besides 0 it has other numbers, 1 and 2 from `init`, but not the
largest. -/
structure ShellFiles (files : List OpenFile) : Prop where
  ordered : Ordered files
  standard : ∃ x, x ≠ 0 ∧ (denotes files x).isSome
  room : denotes files (-1) = none

theorem ShellFiles.inLoop {tables : FileTables FsKernel} {parent : U64} {child : Process}
    (hfiles : ShellFiles (tables.filesLh parent)) (h : tables.kernel.FilesKernel ramFiles)
    (hfork : m.calls.forkFiles tables parent m.address = .ok child.tables)
    (hfds : ∀ ri ∈ rs, ri.fd = 0 ∨ ri.fd = 1) : InLoop m child ramFiles rs ∧
      ∀ x, m.denotes child.tables x = denotes (tables.filesLh parent) x := by
  obtain ⟨honly, hsame⟩ := forkFiles_held h hfiles.ordered hfork
  refine ⟨⟨honly.kept.files, ⟨honly.ordered, honly.held, ?_, ?_⟩, hfds⟩, hsame⟩
  · obtain ⟨x, hx, hsome⟩ := hfiles.standard
    rw [← hsame] at hsome
    exact ⟨x, hx, hsome⟩
  · rw [hsame]
    exact hfiles.room

/-- The line `a <x` or `a >x`, with the heap behind it. -/
def redirectHeap (op : U8) : UserHeap where
  memory x := if x.toNat < 0x10000 then [0x61, 0x20, op, 0x78].getD (x.toNat - 0x7000) 0 else 0
  heapTop := 0x10000

/-- What the shell has from `init`, in a kernel with a byte in the file `x`. -/
def shellTables : Except Crash (U64 × FileTables FsKernel) := do
  let k := (bootOf 8 (by decide)).kernel
  let (f, k) ← k.vfsCreate k.vfsRootInode [0x78]
  let (_, fs) ← ramfsWrite k.fs ⟨f, 0⟩ (fun _ => 0x61) 1
  .ok (f, ⟨{ k with fs }, fun _ => [⟨0, 0, f, 0⟩, ⟨40, 1, f, 0⟩, ⟨80, 2, f, 0⟩]⟩)

/-- What comes of a line, as far as it matters. -/
structure RedirectRun where
  returns : Bool
  fds : List U64
  made : Bool
  leads : Bool
  content : List U8
  deriving DecidableEq

def redirectRun (op : U8) : Except Crash RedirectRun := do
  let (f, s) ← shellTables
  let tables ← plainTask.calls.forkFiles s 1 0
  match execShellLine 0x7000 4 (redirectHeap op) (redirectHeap op) with
  | .ok (.command _ _ redirectInfos numRedirects heap) =>
    let rs := redirectInfosAt heap.memory redirectInfos numRedirects.toNat
    let path := (rs.map RedirectInfo.targetPath).headD []
    let (r, _) ← tables.kernel.vfsResolve 0 path plainTask.lookupResult
    .ok ⟨(redirects plainTask ⟨tables, [], []⟩ rs).isOk, rs.map RedirectInfo.fd, f != 0,
      r.status == vfsResolveSuccessExists && r.inode == f, tables.kernel.content f⟩
  | _ => .error .endless


theorem redirectRun_in : redirectRun 0x3C = .ok ⟨true, [0], true, true, [0x61]⟩ := by decide +kernel
theorem redirectRun_out : redirectRun 0x3E = .ok ⟨true, [1], true, true, [0x61]⟩ := by decide +kernel

/-- Runs of the loop, as the theorem on it takes them. -/
theorem exists_redirect {op : U8} {fd : U64}
    (hrun : redirectRun op = .ok ⟨true, [fd], true, true, [0x61]⟩) :
    ∃ (tables : FileTables FsKernel) (f : U64) (child s' : Process)
      (execArgv numWords redirectInfos numRedirects : U64) (heap' : UserHeap) (ri : RedirectInfo),
      tables.kernel.FilesKernel [f] ∧ ShellFiles (tables.filesLh 1) ∧
      plainTask.calls.forkFiles tables 1 plainTask.address = .ok child.tables ∧
      execShellLine 0x7000 4 (redirectHeap op) (redirectHeap op) =
        .ok (.command execArgv numWords redirectInfos numRedirects heap') ∧
      redirectInfosAt heap'.memory redirectInfos numRedirects.toNat = [ri] ∧ ri.fd = fd ∧
      redirects plainTask child [ri] = .ok s' ∧ child.tables.kernel.content f = [0x61] ∧
      plainTask.Leads child.tables.kernel ri.targetPath f := by
  obtain ⟨⟨f, s⟩, htables, hrun⟩ := bind_eq_ok hrun
  obtain ⟨tables, hfork, hrun⟩ := bind_eq_ok hrun
  dsimp only at hrun
  split at hrun
  · next execArgv numWords redirectInfos numRedirects heap' hline =>
    obtain ⟨⟨r, k'⟩, hresolve, hrun⟩ := bind_eq_ok hrun
    generalize hrs : redirectInfosAt heap'.memory redirectInfos numRedirects.toNat = rs
      at hresolve hrun
    have hall := RedirectRun.mk.inj (Except.ok.inj hrun)
    obtain ⟨hok, hfds, hne, hleads, hcontent⟩ := hall
    obtain ⟨ri, rest, rfl, hfd, hrest⟩ := List.map_eq_cons_iff.mp hfds
    obtain rfl := List.map_eq_nil_iff.mp hrest
    obtain ⟨hstatus, hinode⟩ := Bool.and_eq_true_iff.mp hleads
    obtain ⟨⟨f₁, k₁⟩, hcreate, htables⟩ := bind_eq_ok htables
    obtain ⟨⟨n, fs⟩, hwrite, htables⟩ := bind_eq_ok htables
    cases htables
    cases hs : redirects plainTask ⟨tables, [], []⟩ [ri] with
    | error e => rw [hs] at hok; cases hok
    | ok s' =>
      have hdir : ((bootOf 8 (by decide)).kernel.inode
          (bootOf 8 (by decide)).kernel.vfsRootInode).type = inodeDirectory :=
        congrArg Inode.type (bootOf 8 (by decide)).root_inode
      have hboot := (bootOf 8 (by decide)).filesKernel
      obtain ⟨h₁, -⟩ := hboot.vfsCreate ((bootOf 8 (by decide)).ramfsTree.root)
        hdir hcreate (bne_iff_ne.mp hne)
      obtain ⟨hwritten, -⟩ := h₁.write (List.mem_singleton_self f) hwrite
      refine ⟨_, f, ⟨tables, [], []⟩, s', execArgv, numWords, redirectInfos, numRedirects, heap', ri,
        hwritten.files, ⟨?_, ⟨1, by decide, rfl⟩, rfl⟩, hfork, hline, hrs, hfd, hs, hcontent, r, k',
        hresolve, eq_of_beq hstatus, eq_of_beq hinode⟩
      exact ordered_iff_fds.mpr (show List.Pairwise (· < ·) ([0, 1, 2] : List U32) by decide)
  · cases hrun

/-- The redirects of a line touch their outputs only, just if no OPEN of an input makes the file
or empties it. -/
theorem redirects_touch_outputs {tables : FileTables FsKernel} {parent : U64} {child : Process}
    {start length execArgv numWords redirectInfos numRedirects : U64}
    {heap parsed heap' : UserHeap} (h : tables.kernel.FilesKernel ramFiles)
    (hfiles : ShellFiles (tables.filesLh parent))
    (hfork : m.calls.forkFiles tables parent m.address = .ok child.tables)
    (hlength : length.toNat + 400 ≤ 2 ^ 64)
    (hroom : parsed.heapTop.toNat + 408 * ((parseShellStmt (lineMemory heap.memory) start.toNat
      length.toNat).children.length + 1) ≤ 2 ^ 64)
    (hline : execShellLine start length heap parsed =
      .ok (.command execArgv numWords redirectInfos numRedirects heap'))
    (hrun : redirects m child (redirectInfosAt heap'.memory redirectInfos numRedirects.toNat) =
      .ok s') :
    TouchesOutputs m (tables.filesLh parent) child s'
        (redirectInfosAt heap'.memory redirectInfos numRedirects.toNat) ↔
      InputsSafe m child (redirectInfosAt heap'.memory redirectInfos numRedirects.toNat) := by
  obtain ⟨hloop, hsame⟩ :=
    hfiles.inLoop h hfork (execShellLine_redirects hlength hroom hline)
  exact ⟨hloop.inputsSafe hrun, fun hsafe => hloop.touches hsafe hrun hsame⟩

theorem redirects_touch_outputs_out : ∃ (tables : FileTables FsKernel) (child s' : Process)
    (heap' : UserHeap) (redirectInfos numRedirects : U64),
    (redirectInfosAt heap'.memory redirectInfos numRedirects.toNat).map RedirectInfo.fd = [1] ∧
      TouchesOutputs plainTask (tables.filesLh 1) child s'
        (redirectInfosAt heap'.memory redirectInfos numRedirects.toNat) := by
  have hroom : (redirectHeap 0x3E).heapTop.toNat + 408 * ((parseShellStmt
      (lineMemory (redirectHeap 0x3E).memory) (0x7000 : U64).toNat
      (4 : U64).toNat).children.length + 1) ≤ 2 ^ 64 := by decide +kernel
  obtain ⟨tables, f, child, s', execArgv, numWords, redirectInfos, numRedirects, heap', ri, h,
    hfiles, hfork, hline, hrs, hfd, hrun, -⟩ := exists_redirect redirectRun_out
  refine ⟨tables, child, s', heap', redirectInfos, numRedirects, ?_,
    (redirects_touch_outputs h hfiles hfork (by decide) hroom hline (hrs ▸ hrun)).mpr ?_⟩
  · rw [hrs, List.map_singleton, hfd]
  · rw [hrs]
    intro s₁ ri' rest hcomes hin
    obtain rfl := List.mem_singleton.mp hcomes.mem
    exact absurd (hfd.symm.trans hin) (by decide)

/-- The line `a <x` empties the file that it reads. -/
theorem redirect_input_truncates : ∃ (tables : FileTables FsKernel) (f : U64) (child s' : Process)
    (execArgv numWords redirectInfos numRedirects : U64) (heap' : UserHeap),
    tables.kernel.FilesKernel [f] ∧ ShellFiles (tables.filesLh 1) ∧
    plainTask.calls.forkFiles tables 1 plainTask.address = .ok child.tables ∧
    execShellLine 0x7000 4 (redirectHeap 0x3C) (redirectHeap 0x3C) =
      .ok (.command execArgv numWords redirectInfos numRedirects heap') ∧
    redirects plainTask child (redirectInfosAt heap'.memory redirectInfos numRedirects.toNat) =
      .ok s' ∧
    child.tables.kernel.content f = [0x61] ∧ s'.tables.kernel.content f = [] ∧
    ¬TouchesOutputs plainTask (tables.filesLh 1) child s'
      (redirectInfosAt heap'.memory redirectInfos numRedirects.toNat) := by
  obtain ⟨tables, f, child, s', execArgv, numWords, redirectInfos, numRedirects, heap', ri, h,
    hfiles, hfork, hline, hrs, hfd, hrun, hcontent, hleads⟩ := exists_redirect redirectRun_in
  have hzero : ∀ r ∈ [ri], r.fd = 0 ∨ r.fd = 1 := List.forall_mem_singleton.mpr (.inl hfd)
  obtain ⟨⟨hkernel, hchild, hfds⟩, -⟩ := hfiles.inLoop h hfork hzero
  have hstep := hrun
  obtain ⟨s₁, hstep, he⟩ := bind_user_eq_ok hstep
  cases he
  obtain ⟨ramFiles', f', hr, -⟩ := InLoop.step ⟨hkernel, hchild, hfds⟩ hstep
  have hbefore := hr.before.resolve_right fun hnew => hnew.2.2 f hleads
  obtain rfl := hbefore.unique hleads
  have hf : f' ∈ [f'] := List.mem_singleton_self f'
  have hempty := hr.empty (hr.subset hf)
  refine ⟨tables, f', child, s', execArgv, numWords, redirectInfos, numRedirects, heap', h, hfiles,
    hfork, hline, hrs ▸ hrun, hcontent, hempty, fun htouches => ?_⟩
  rw [hrs] at htouches
  obtain ⟨g, hg, hsame⟩ := htouches.inputs _ _ _ _ .here hstep hfd
  have hempty : s'.tables.kernel.content f' = [] := hempty
  rw [hsame f' (hkernel.mem_iff.mp hf), hcontent] at hempty
  cases hempty
end ShellRedirects

end Persistos
