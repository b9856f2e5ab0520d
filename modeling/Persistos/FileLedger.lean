import Persistos.FdTables
import Persistos.Waitpid

/-! The slots of open files over the lives of the processes that hold them. -/

namespace Persistos

variable {τ : Type}

/-- The functions of the virtual file system, over its own state `τ`. -/
structure VfsCalls (τ : Type) where
  vfsResolve : τ → List U8 → Except Crash (VfsLookupResult × τ)
  vfsCreate : τ → U64 → List U8 → Except Crash (U64 × τ)
  inodeType : τ → U64 → U8
  vfsFtruncate : τ → OpenFile → U64 → Except Crash (U64 × τ)

/-- The processes, `file_allocator` with the pages that it may still get, and the file
systems. -/
structure FileKernel (τ : Type) where
  procs : Processes
  supply : PageSupply
  fileAllocator : SlabAllocator
  vfs : τ

/-- `sizeof(struct file)` -/
def openFileSize : U16 := 40

def FileKernel.fileAlloc (k : FileKernel τ) : Except Crash (U64 × FileKernel τ) := do
  let (address, supply, fileAllocator, _) ← slabAlloc PageSupply.alloc k.supply k.fileAllocator
  .ok (address, { k with supply, fileAllocator })

def FileKernel.fileFree (k : FileKernel τ) (address : U64) : Except Crash (FileKernel τ) := do
  let fileAllocator ← slabFree k.fileAllocator address
  .ok { k with fileAllocator }

def VfsCalls.kernelCalls (calls : VfsCalls τ) : KernelCalls (FileKernel τ) where
  vfsResolve k path := do
    let (lookupResult, vfs) ← calls.vfsResolve k.vfs path
    .ok (lookupResult, { k with vfs })
  vfsCreate k parentDirectory name := do
    let (inode, vfs) ← calls.vfsCreate k.vfs parentDirectory name
    .ok (inode, { k with vfs })
  inodeType k inode := calls.inodeType k.vfs inode
  vfsFtruncate k filp size := do
    let (result, vfs) ← calls.vfsFtruncate k.vfs filp size
    .ok (result, { k with vfs })
  fileAlloc := FileKernel.fileAlloc
  fileFree := FileKernel.fileFree

abbrev FileLedger (τ : Type) := FileTables (FileKernel τ)

namespace FileLedger

def init (kernel : KmemRun) (objects : U64 → TaskStruct) (supply : PageSupply) (vfs : τ) :
    FileLedger τ :=
  ⟨⟨Processes.init kernel objects, supply, slabOf openFileSize, vfs⟩, fun _ => []⟩

def procs (s : FileLedger τ) : Processes := s.kernel.procs

/-- The task that was put at the end of the list of tasks. -/
def newest (s : FileLedger τ) : U64 := s.procs.taskStructLh.getLastD 0

/-- The process actions, with what FORK and `kmain` do to the list of open files. -/
def act (calls : VfsCalls τ) (s : FileLedger τ) (a : Action) :
    Except Crash (FileLedger τ × Option U64) := do
  let (procs, r) ← s.procs.act a
  let s : FileLedger τ := { s with kernel.procs := procs }
  match a with
  | .boot => .ok (s.setFiles s.newest [], r)
  | .fork t => do
    let s ← calls.kernelCalls.forkFiles s t s.newest
    .ok (s, r)
  | _ => .ok (s, r)

/-- The allocated slots are as many as the files on the lists of the tasks. -/
def FilesConserved (s : FileLedger τ) : Prop :=
  s.kernel.fileAllocator.allocatedSlots.length =
    (s.procs.taskStructLh.map fun t => (s.filesLh t).length).sum

instance (s : FileLedger τ) : Decidable s.FilesConserved := inferInstanceAs (Decidable (_ = _))

/-- A process that the action frees has closed all its files. -/
def Closes (s : FileLedger τ) (a : Action) : Prop :=
  ∀ r, s.procs.reaper a = some r → s.filesLh r.2 = []

/-- `t` runs outside of the kernel. -/
def InUserMode (s : FileLedger τ) (t : U64) : Prop := s.procs.Enabled (.fork t)

end FileLedger

/-- A step of some task, or of the rest of the kernel, which also stands for EXEC: it
touches no open file. Each process is waited for by one task, and `may` restricts the
actions further. -/
inductive LedgerStep (calls : VfsCalls τ) (may : FileLedger τ → Action → Prop)
    (s : FileLedger τ) : FileLedger τ → Prop where
  | act {a : Action} {s' : FileLedger τ} {r : Option U64} (he : s.procs.Enabled a)
      (hc : s.procs.Careful a) (hm : may s a) (h : s.act calls a = .ok (s', r)) :
      LedgerStep calls may s s'
  | opens {t : U64} {path : List U8} {flags r : U64} {s' : FileLedger τ} (he : s.InUserMode t)
      (h : calls.kernelCalls.sysOpen s t path flags = .ok (r, s')) : LedgerStep calls may s s'
  | close {t fd r : U64} {s' : FileLedger τ} (he : s.InUserMode t)
      (h : calls.kernelCalls.sysClose s t fd = .ok (r, s')) : LedgerStep calls may s s'
  | dup2 {t oldFd newFd r : U64} {s' : FileLedger τ} (he : s.InUserMode t)
      (h : calls.kernelCalls.sysDup2 s t oldFd newFd = .ok (r, s')) : LedgerStep calls may s s'
  | other {kernel : KmemRun} {vfs : τ} (h : KmemStep s.procs.kernel kernel)
      (hb : s.procs.blocks.Subperm kernel.live) :
      LedgerStep calls may s
        { s with kernel := { s.kernel with procs := { s.procs with kernel }, vfs } }

/-- The value at one place of a list, first. -/
theorem flatMap_update_perm {α β : Type} [DecidableEq α] {l : List α} (hnd : l.Nodup) {t : α}
    (ht : t ∈ l) (f : α → List β) (v : List β) :
    (l.flatMap (Function.update f t v)).Perm (v ++ (l.erase t).flatMap f) := by
  have hperm := (List.perm_cons_erase ht).flatMap_right (Function.update f t v)
  rw [List.flatMap_cons, Function.update_self] at hperm
  have hrest : (l.erase t).flatMap (Function.update f t v) = (l.erase t).flatMap f := by
    apply List.flatMap_congr
    intro u hu
    exact Function.update_of_ne (hnd.mem_erase_iff.mp hu).1 v f
  rwa [hrest] at hperm

namespace Processes

variable {s s' : Processes} {x : U64}

theorem spawn_list {setup : TaskStruct → TaskStruct} {r : Option U64} (h : ProcessInv s)
    (hs : s.spawn setup = .ok (s', r)) :
    ∃ x, x ∉ s.taskStructLh ∧ s'.taskStructLh = s.taskStructLh ++ [x] := by
  obtain ⟨⟨x, s₁⟩, ha, hs⟩ := bind_eq_ok hs
  obtain ⟨⟨stack, k₂⟩, -, hs⟩ := bind_eq_ok hs
  obtain ⟨⟨pml4, k₃⟩, -, hs⟩ := bind_eq_ok hs
  simp only [Except.ok.injEq, Prod.mk.injEq] at hs
  obtain ⟨rfl, -⟩ := hs
  obtain ⟨k₁, tasks, rfl, hfresh, -⟩ := taskStructAlloc_spec h.holds ha
  exact ⟨x, hfresh, rfl⟩

theorem awaitZombie_list {t pid : U64} {r : Option U64}
    (h : s.awaitZombie t x pid = .ok (s', r)) :
    (s.frees t (some x) = none ∧ s'.taskStructLh = s.taskStructLh) ∨
      (s.frees t (some x) = some (t, x) ∧ s'.taskStructLh = s.taskStructLh.erase x) := by
  rw [awaitZombie] at h
  split at h
  · next hz =>
    obtain ⟨rfl, -⟩ := Prod.mk.inj (Except.ok.inj h)
    exact .inl ⟨by rw [frees, Option.bind_some, if_pos hz], rfl⟩
  · next hz =>
    exact .inr ⟨by rw [frees, Option.bind_some, if_neg hz], (reap_spec h).1.list⟩

/-- The list of tasks changes where a process is made or freed. -/
theorem act_list {a : Action} {r : Option U64} (hi : ProcessInv s) (he : s.Enabled a)
    (h : s.act a = .ok (s', r)) :
    ((a = .boot ∨ ∃ t, a = .fork t) ∧
        ∃ x, x ∉ s.taskStructLh ∧ s'.taskStructLh = s.taskStructLh ++ [x]) ∨
      (¬(a = .boot ∨ ∃ t, a = .fork t) ∧
        ((s.reaper a = none ∧ s'.taskStructLh = s.taskStructLh) ∨
          ∃ t x, s.reaper a = some (t, x) ∧ x ∈ s.taskStructLh ∧
            s'.taskStructLh = s.taskStructLh.erase x)) := by
  cases a with
  | boot => exact .inl ⟨.inl rfl, spawn_list hi h⟩
  | fork t => exact .inl ⟨.inr ⟨t, rfl⟩, spawn_list hi h⟩
  | exit t code =>
    obtain ⟨rfl, -⟩ := Prod.mk.inj (Except.ok.inj h)
    exact .inr ⟨by simp, .inl ⟨rfl, rfl⟩⟩
  | kill t pid =>
    refine .inr ⟨by simp, .inl ⟨rfl, ?_⟩⟩
    simp only [act, sysKill, Except.ok.injEq] at h
    split at h <;> exact (Prod.mk.inj h).1 ▸ rfl
  | waitpid t pid =>
    refine .inr ⟨by simp, ?_⟩
    simp only [act, sysWaitpid] at h
    split at h
    · next hx =>
      obtain ⟨rfl, -⟩ := Prod.mk.inj (Except.ok.inj h)
      exact .inl ⟨by rw [reaper, hx]; rfl, rfl⟩
    · next x hx =>
      rw [reaper, hx]
      exact (awaitZombie_list h).imp id fun hh => ⟨t, x, hh.1, (waitpidFind_some hx).1, hh.2⟩
  | resume t =>
    refine .inr ⟨by simp, ?_⟩
    simp only [act, resume] at h
    split at h
    · next hw => exact absurd hw he.2
    · next x pid hw =>
      rw [reaper, hw]
      exact (awaitZombie_list h).imp id fun hh =>
        ⟨t, x, hh.1, (hi.waits t he.1 x pid hw).1, hh.2⟩

end Processes

namespace FileLedger

variable {calls : VfsCalls τ} {s s' : FileLedger τ} {t x : U64}

/-- The slots of the open files of all tasks. -/
def addresses (s : FileLedger τ) : List U64 :=
  s.procs.taskStructLh.flatMap fun t => (s.filesLh t).map OpenFile.address

/-- The slots in use are `live`. -/
def FilesAt (k : FileKernel τ) (live : List U64) : Prop :=
  SlabRunInv openFileSize ⟨k.supply, k.fileAllocator, live⟩

/-- Everything but the slots themselves stays. -/
structure SameProcs (k k' : FileKernel τ) : Prop where
  procs : k'.procs = k.procs
  supply : k'.supply = k.supply
  fileAllocator : k'.fileAllocator = k.fileAllocator

theorem FilesAt.perm {k : FileKernel τ} {live live' : List U64} (h : FilesAt k live)
    (hp : live.Perm live') : FilesAt k live' := ⟨h.slab.perm hp, h.size, h.fresh⟩

theorem FilesAt.same {k k' : FileKernel τ} {live : List U64} (h : FilesAt k live)
    (hs : SameProcs k k') : FilesAt k' live := by
  rw [FilesAt, hs.supply, hs.fileAllocator]
  exact h

theorem FilesAt.alloc {k k' : FileKernel τ} {live : List U64} (h : FilesAt k live)
    (ha : k.fileAlloc = .ok (x, k')) : FilesAt k' (x :: live) ∧ k'.procs = k.procs := by
  obtain ⟨⟨y, supply, a, new⟩, hs, he⟩ := bind_eq_ok ha
  simp only [Except.ok.injEq, Prod.mk.injEq] at he
  obtain ⟨rfl, rfl⟩ := he
  exact ⟨SlabStep.inv (.alloc hs) h, rfl⟩

theorem FilesAt.free {k k' : FileKernel τ} {live : List U64} (h : FilesAt k (x :: live))
    (hf : k.fileFree x = .ok k') : FilesAt k' live ∧ k'.procs = k.procs := by
  obtain ⟨a, hs, he⟩ := bind_eq_ok hf
  obtain rfl := Except.ok.inj he
  have hinv : SlabRunInv openFileSize ⟨k.supply, a, (x :: live).erase x⟩ :=
    SlabStep.inv (.free List.mem_cons_self hs) h
  rw [List.erase_cons_head] at hinv
  exact ⟨hinv, rfl⟩

theorem vfsSteps_same {k k' : FileKernel τ} (h : VfsSteps calls.kernelCalls k k') :
    SameProcs k k' := by
  induction h with
  | refl => exact ⟨rfl, rfl, rfl⟩
  | @tail k₁ k₂ _ hstep ih =>
    have hs : SameProcs k₁ k₂ := by
      cases hstep with
      | resolve hr =>
        obtain ⟨⟨r, vfs⟩, -, he⟩ := bind_eq_ok hr
        obtain ⟨-, rfl⟩ := Prod.mk.inj (Except.ok.inj he)
        exact ⟨rfl, rfl, rfl⟩
      | create hr =>
        obtain ⟨⟨r, vfs⟩, -, he⟩ := bind_eq_ok hr
        obtain ⟨-, rfl⟩ := Prod.mk.inj (Except.ok.inj he)
        exact ⟨rfl, rfl, rfl⟩
      | ftruncate hr =>
        obtain ⟨⟨r, vfs⟩, -, he⟩ := bind_eq_ok hr
        obtain ⟨-, rfl⟩ := Prod.mk.inj (Except.ok.inj he)
        exact ⟨rfl, rfl, rfl⟩
    exact ⟨hs.procs.trans ih.procs, hs.supply.trans ih.supply,
      hs.fileAllocator.trans ih.fileAllocator⟩

/-- The slots in use are those of the open files of the tasks. -/
structure Inv (s : FileLedger τ) : Prop where
  procs : ProcessInv s.procs
  files : FilesAt s.kernel s.addresses

namespace Inv

theorem tasks_nodup (h : s.Inv) : s.procs.taskStructLh.Nodup := h.procs.holds.slab.live_nodup

theorem conserved (h : s.Inv) : s.FilesConserved := by
  rw [FilesConserved, h.files.slab.allocatedSlots_perm.length_eq, addresses, List.length_flatMap]
  simp

/-- The slots of the files of one task, and those of all the others. -/
def others (s : FileLedger τ) (t : U64) : List U64 :=
  (s.procs.taskStructLh.erase t).flatMap fun u => (s.filesLh u).map OpenFile.address

theorem addresses_perm (h : s.Inv) (ht : t ∈ s.procs.taskStructLh) :
    s.addresses.Perm ((s.filesLh t).map OpenFile.address ++ others s t) := by
  have hperm := flatMap_update_perm h.tasks_nodup ht
    (fun u => (s.filesLh u).map OpenFile.address) ((s.filesLh t).map OpenFile.address)
  rwa [Function.update_eq_self] at hperm

/-- The files of one task change. -/
theorem setFiles (h : s.Inv) (ht : t ∈ s.procs.taskStructLh) {k : FileKernel τ}
    (hk : k.procs = s.procs) {files : List OpenFile}
    (hf : FilesAt k (files.map OpenFile.address ++ others s t)) :
    Inv (FileTables.setFiles ⟨k, s.filesLh⟩ t files) := by
  constructor
  · change ProcessInv k.procs
    exact hk ▸ h.procs
  · have heq : addresses (FileTables.setFiles ⟨k, s.filesLh⟩ t files) =
        s.procs.taskStructLh.flatMap (Function.update
          (fun u => (s.filesLh u).map OpenFile.address) t (files.map OpenFile.address)) := by
      have hl : (FileLedger.procs (FileTables.setFiles ⟨k, s.filesLh⟩ t files)).taskStructLh =
          s.procs.taskStructLh := congrArg Processes.taskStructLh hk
      rw [addresses, hl]
      apply List.flatMap_congr
      intro u _
      by_cases hu : u = t
      · rw [hu, FileTables.setFiles_self, Function.update_self]
      · rw [FileTables.setFiles_ne _ hu, Function.update_of_ne hu]
    rw [heq]
    exact hf.perm (flatMap_update_perm h.tasks_nodup ht _ _).symm

theorem opens (h : s.Inv) (ht : t ∈ s.procs.taskStructLh) {path : List U8} {flags r : U64}
    (ho : calls.kernelCalls.sysOpen s t path flags = .ok (r, s')) : s'.Inv := by
  obtain ⟨k', filesLh'⟩ := s'
  cases KernelCalls.sysOpen_opened ho with
  | failed kernel lists code =>
    have hs := vfsSteps_same kernel
    have hp : FileLedger.procs ⟨k', filesLh'⟩ = s.procs := hs.procs
    constructor
    · exact hp ▸ h.procs
    · have heq : addresses ⟨k', filesLh'⟩ = s.addresses := by
        rw [addresses, hp, lists]
        rfl
      rw [heq]
      exact h.files.same hs
  | @linked filp k₁ k₂ before alloc after fd lists code =>
    have hs := vfsSteps_same before
    have hs' := vfsSteps_same after
    obtain ⟨hfiles, hp⟩ := (h.files.same hs).alloc alloc
    have hk : k'.procs = s.procs := hs'.procs.trans (hp.trans hs.procs)
    have hperm : (filp.address :: s.addresses).Perm
        ((s.filesLh t ++ [filp]).map OpenFile.address ++ others s t) := by
      simp only [List.map_append, List.map_singleton, List.append_assoc, List.singleton_append]
      exact ((h.addresses_perm ht).cons _).trans List.perm_middle.symm
    have hset := h.setFiles ht hk ((hfiles.same hs').perm hperm)
    have heq : (⟨k', filesLh'⟩ : FileLedger τ) =
        FileTables.setFiles ⟨k', s.filesLh⟩ t (s.filesLh t ++ [filp]) :=
      congrArg (FileTables.mk k') lists
    rw [heq]
    exact hset

/-- A file of the task is taken from its list and its slot freed. -/
theorem remove (h : s.Inv) (ht : t ∈ s.procs.taskStructLh) {filp : OpenFile}
    (hm : filp ∈ s.filesLh t) {k : FileKernel τ} (hf : s.kernel.fileFree filp.address = .ok k) :
    Inv (FileTables.setFiles ⟨k, s.filesLh⟩ t ((s.filesLh t).erase filp)) ∧ k.procs = s.procs := by
  have hperm : s.addresses.Perm (filp.address ::
      (((s.filesLh t).erase filp).map OpenFile.address ++ others s t)) :=
    (h.addresses_perm ht).trans
      (((List.perm_cons_erase hm).map OpenFile.address).append_right (others s t))
  obtain ⟨hfiles, hp⟩ := (h.files.perm hperm).free hf
  exact ⟨h.setFiles ht hp hfiles, hp⟩

theorem close (h : s.Inv) (ht : t ∈ s.procs.taskStructLh) {fd r : U64}
    (hc : calls.kernelCalls.sysClose s t fd = .ok (r, s')) : s'.Inv := by
  rw [KernelCalls.sysClose] at hc
  split at hc
  · obtain ⟨-, rfl⟩ := Prod.mk.inj (Except.ok.inj hc)
    exact h
  · next filp hfilp =>
    obtain ⟨kernel, hfree, he⟩ := bind_eq_ok hc
    obtain ⟨-, rfl⟩ := Prod.mk.inj (Except.ok.inj he)
    exact (h.remove ht (filpFind_some hfilp).1 hfree).1

theorem dup2 (h : s.Inv) (ht : t ∈ s.procs.taskStructLh) {oldFd newFd r : U64}
    (hd : calls.kernelCalls.sysDup2 s t oldFd newFd = .ok (r, s')) : s'.Inv := by
  rw [KernelCalls.sysDup2] at hd
  split at hd
  · obtain ⟨-, rfl⟩ := Prod.mk.inj (Except.ok.inj hd)
    exact h
  · next oldFilp _ =>
    obtain ⟨s₁, hclose, hd⟩ := bind_eq_ok hd
    obtain ⟨⟨address, kernel⟩, halloc, hd⟩ := bind_eq_ok hd
    obtain ⟨-, rfl⟩ := Prod.mk.inj (Except.ok.inj hd)
    have h₁ : Inv s₁ ∧ t ∈ (FileLedger.procs s₁).taskStructLh := by
      rcases KernelCalls.closeForDup2_ok hclose with ⟨rfl, -⟩ | ⟨filp, k, hfilp, hfree, rfl⟩
      · exact ⟨h, ht⟩
      · obtain ⟨hinv, hp⟩ := h.remove ht (filpFind_some hfilp).1 hfree
        refine ⟨hinv, ?_⟩
        change t ∈ k.procs.taskStructLh
        rwa [hp]
    obtain ⟨hfiles, hp⟩ := h₁.1.files.alloc halloc
    have hins := (insertFile_perm (s₁.filesLh t)
      ⟨address, newFd.setWidth 32, oldFilp.inode, oldFilp.offset⟩).map OpenFile.address
    refine h₁.1.setFiles h₁.2 hp (hfiles.perm ?_)
    refine ((h₁.1.addresses_perm h₁.2).cons _).trans ?_
    exact (hins.append_right (others s₁ t)).symm

theorem cloned {k k' : FileKernel τ} {files newFiles : List OpenFile} {live : List U64}
    (h : FilesAt k live) (hc : calls.kernelCalls.cloneFiles k files = .ok (newFiles, k')) :
    FilesAt k' (newFiles.map OpenFile.address ++ live) ∧ k'.procs = k.procs := by
  induction files generalizing k k' newFiles live with
  | nil =>
    obtain ⟨rfl, rfl⟩ := Prod.mk.inj (Except.ok.inj hc)
    exact ⟨h, rfl⟩
  | cons file files ih =>
    obtain ⟨⟨address, k₁⟩, halloc, hc⟩ := bind_eq_ok hc
    obtain ⟨⟨rest, k₂⟩, hrest, hc⟩ := bind_eq_ok hc
    obtain ⟨rfl, rfl⟩ := Prod.mk.inj (Except.ok.inj hc)
    obtain ⟨hfiles, hp⟩ := h.alloc halloc
    obtain ⟨hfiles', hp'⟩ := ih hfiles hrest
    exact ⟨hfiles'.perm List.perm_middle, hp'.trans hp⟩

/-- A process was made, with the files `files`. -/
theorem spawned {k : FileKernel τ} (hp : ProcessInv k.procs)
    (hx : x ∉ s.procs.taskStructLh) (hl : k.procs.taskStructLh = s.procs.taskStructLh ++ [x])
    {files : List OpenFile} (hf : FilesAt k (files.map OpenFile.address ++ s.addresses)) :
    Inv (FileTables.setFiles ⟨k, s.filesLh⟩ x files) := by
  refine ⟨hp, ?_⟩
  have heq : addresses (FileTables.setFiles ⟨k, s.filesLh⟩ x files) =
      s.addresses ++ files.map OpenFile.address := by
    have hlist : (FileLedger.procs (FileTables.setFiles ⟨k, s.filesLh⟩ x files)).taskStructLh =
        s.procs.taskStructLh ++ [x] := hl
    rw [addresses, hlist, List.flatMap_append, List.flatMap_singleton, FileTables.setFiles_self]
    congr 1
    apply List.flatMap_congr
    intro u hu
    rw [FileTables.setFiles_ne _ (ne_of_mem_of_not_mem hu hx)]
  rw [heq]
  exact hf.perm List.perm_append_comm

/-- A process was freed, and its files are on no list any more. -/
theorem reaped (h : s.Inv) (hx : x ∈ s.procs.taskStructLh)
    (hk : s'.kernel.fileAllocator = s.kernel.fileAllocator) (hf : s'.filesLh = s.filesLh)
    (hl : s'.procs.taskStructLh = s.procs.taskStructLh.erase x) :
    s.addresses.Perm ((s.filesLh x).map OpenFile.address ++ s'.addresses) ∧
      (s'.FilesConserved ↔ s.filesLh x = []) := by
  have hothers : s'.addresses = others s x := by
    rw [addresses, hl, hf]
    rfl
  have hperm : s.addresses.Perm ((s.filesLh x).map OpenFile.address ++ s'.addresses) :=
    hothers ▸ h.addresses_perm hx
  refine ⟨hperm, ?_⟩
  have hlen : s.kernel.fileAllocator.allocatedSlots.length =
      (s.filesLh x).length + s'.addresses.length := by
    rw [h.files.slab.allocatedSlots_perm.length_eq, hperm.length_eq, List.length_append,
      List.length_map]
  have hsum : s'.addresses.length =
      (s'.procs.taskStructLh.map fun t => (s'.filesLh t).length).sum := by
    rw [addresses, List.length_flatMap]
    simp
  rw [FilesConserved, hk, hlen, ← hsum, ← List.length_eq_zero_iff]
  omega

theorem act (h : s.Inv) {a : Action} {r : Option U64} (he : s.procs.Enabled a)
    (hc : s.procs.Careful a) (ha : s.act calls a = .ok (s', r)) :
    (s.Closes a → s'.Inv) ∧ (s'.FilesConserved ↔ s.Closes a) := by
  obtain ⟨⟨procs, r₁⟩, hact, ha⟩ := bind_eq_ok ha
  have hp := h.procs.act he hc hact
  have hsame : ∀ k : FileKernel τ, k = { s.kernel with procs } →
      FilesAt k s.addresses := by
    rintro k rfl
    exact ⟨h.files.slab, h.files.size, h.files.fresh⟩
  rcases Processes.act_list h.procs he hact with ⟨hnew, x, hx, hl⟩ | ⟨hnew, hlist⟩
  · have hnewest : procs.taskStructLh.getLastD 0 = x := by simp [hl]
    have hcloses : s.Closes a := by
      intro w hw
      rcases hnew with rfl | ⟨t, rfl⟩ <;> cases hw
    have hinv : s'.Inv := by
      rcases hnew with rfl | ⟨t, rfl⟩
      · obtain ⟨rfl, -⟩ := Prod.mk.inj (Except.ok.inj ha)
        have hset := @spawned _ s x { s.kernel with procs } hp hx hl [] (hsame _ rfl)
        rw [← hnewest] at hset
        exact hset
      · obtain ⟨s₁, hfork, ha⟩ := bind_eq_ok ha
        obtain ⟨rfl, -⟩ := Prod.mk.inj (Except.ok.inj ha)
        obtain ⟨⟨files, k⟩, hclone, hfork⟩ := bind_eq_ok hfork
        obtain rfl := Except.ok.inj hfork
        obtain ⟨hfiles, hk⟩ := cloned (hsame _ rfl) hclone
        have hk' : k.procs = procs := hk
        have hset := @spawned _ s x k (hk' ▸ hp) hx (hk' ▸ hl) files hfiles
        rw [← hnewest] at hset
        exact hset
    exact ⟨fun _ => hinv, fun _ => hcloses, fun _ => hinv.conserved⟩
  · obtain rfl : s' = { s with kernel.procs := procs } := by
      cases a with
      | boot => exact absurd (.inl rfl) hnew
      | fork t => exact absurd (.inr ⟨t, rfl⟩) hnew
      | exit => exact (Prod.mk.inj (Except.ok.inj ha)).1.symm
      | kill => exact (Prod.mk.inj (Except.ok.inj ha)).1.symm
      | waitpid => exact (Prod.mk.inj (Except.ok.inj ha)).1.symm
      | resume => exact (Prod.mk.inj (Except.ok.inj ha)).1.symm
    rcases hlist with ⟨hnone, hl⟩ | ⟨t, x, hsome, hx, hl⟩
    · have hcloses : s.Closes a := by
        intro w hw
        rw [hnone] at hw
        cases hw
      have hinv : Inv { s with kernel.procs := procs } := by
        refine ⟨hp, ?_⟩
        have heq : addresses { s with kernel.procs := procs } = s.addresses := by
          have hl' : (FileLedger.procs { s with kernel.procs := procs }).taskStructLh =
              s.procs.taskStructLh := hl
          rw [addresses, hl']
          rfl
        rw [heq]
        exact hsame _ rfl
      exact ⟨fun _ => hinv, fun _ => hcloses, fun _ => hinv.conserved⟩
    · obtain ⟨hperm, hiff⟩ := @reaped _ s { s with kernel.procs := procs } x h hx rfl rfl hl
      have hclosed : s.Closes a ↔ s.filesLh x = [] := by
        constructor
        · exact fun hh => hh (t, x) hsome
        · intro hnil w hw
          obtain rfl := Option.some.inj (hsome.symm.trans hw)
          exact hnil
      refine ⟨?_, hiff.trans hclosed.symm⟩
      intro hh
      rw [hclosed.mp hh] at hperm
      exact ⟨hp, (hsame _ rfl).perm hperm⟩

theorem step (h : s.Inv) (hs : LedgerStep calls Closes s s') : s'.Inv := by
  cases hs with
  | act he hc hm ha => exact (h.act he hc ha).1 hm
  | opens he ho => exact h.opens he.1.1 ho
  | close he hc => exact h.close he.1.1 hc
  | dup2 he hd => exact h.dup2 he.1.1 hd
  | @other kernel vfs hk hb =>
    refine ⟨h.procs.step (.other hk hb), ?_⟩
    exact ⟨h.files.slab, h.files.size, h.files.fresh⟩

theorem init {kernel : KmemRun} (hk : KmemInv kernel) (hd : DirectMap kernel.kmem)
    (objects : U64 → TaskStruct) (supply : PageSupply) (vfs : τ) :
    (FileLedger.init kernel objects supply vfs).Inv where
  procs := .init hk hd objects
  files := ⟨.init (by decide) (by decide), rfl,
    by simp [FileLedger.init, slabOf, SlabAllocator.pages]⟩

theorem run {s₀ : FileLedger τ} (h₀ : s₀.Inv)
    (h : Relation.ReflTransGen (LedgerStep calls Closes) s₀ s) : s.Inv := by
  induction h with
  | refl => exact h₀
  | tail _ hstep ih => exact ih.step hstep

end Inv

end FileLedger

namespace FileLedger

inductive Call where
  | process (a : Action)
  | opens (t : U64) (path : List U8) (flags : U64)
  | close (t fd : U64)

instance (s : FileLedger τ) (t : U64) : Decidable (s.InUserMode t) :=
  inferInstanceAs (Decidable (s.procs.Enabled (.fork t)))

/-- The state after a call that frees no process. -/
def perform (calls : VfsCalls τ) (s : FileLedger τ) : Call → Option (FileLedger τ)
  | .process a =>
    if s.procs.Enabled a ∧ (s.procs.reaper a).isNone then (s.act calls a).toOption.map Prod.fst
    else none
  | .opens t path flags =>
    if s.InUserMode t then (calls.kernelCalls.sysOpen s t path flags).toOption.map Prod.snd
    else none
  | .close t fd =>
    if s.InUserMode t then (calls.kernelCalls.sysClose s t fd).toOption.map Prod.snd else none

variable {calls : VfsCalls τ} {s s' : FileLedger τ}

theorem toOption_map {α β : Type} {x : Except Crash α} {f : α → β} {b : β}
    (h : x.toOption.map f = some b) : ∃ a, x = .ok a ∧ f a = b := by
  cases x with
  | error e => simp [Except.toOption] at h
  | ok a => exact ⟨a, rfl, by simpa [Except.toOption] using h⟩

theorem perform_step {c : Call} (h : s.perform calls c = some s') :
    LedgerStep calls Closes s s' := by
  cases c with
  | process a =>
    rw [perform] at h
    split at h
    · next he =>
      obtain ⟨⟨s₁, r⟩, ha, rfl⟩ := toOption_map h
      refine .act he.1 (Processes.careful_of_isNone he.2) ?_ ha
      intro w hw
      rw [hw] at he
      simp at he
    · cases h
  | opens t path flags =>
    rw [perform] at h
    split at h
    · next he =>
      obtain ⟨⟨r, s₁⟩, ha, rfl⟩ := toOption_map h
      exact .opens he ha
    · cases h
  | close t fd =>
    rw [perform] at h
    split at h
    · next he =>
      obtain ⟨⟨r, s₁⟩, ha, rfl⟩ := toOption_map h
      exact .close he ha
    · cases h

theorem perform_run {cs : List Call} (h : cs.foldlM (perform calls) s = some s') :
    Relation.ReflTransGen (LedgerStep calls Closes) s s' := by
  induction cs generalizing s with
  | nil =>
    obtain rfl := Option.some.inj h
    exact .refl
  | cons c cs ih =>
    obtain ⟨s₁, h₁, h₂⟩ := Option.bind_eq_some_iff.mp h
    exact .head (perform_step h₁) (ih h₂)

end FileLedger

theorem LedgerStep.mono {calls : VfsCalls τ} {may may' : FileLedger τ → Action → Prop}
    {s s' : FileLedger τ} (h : LedgerStep calls may s s') (hm : ∀ s a, may s a → may' s a) :
    LedgerStep calls may' s s' := by
  cases h with
  | act he hc hmay ha => exact .act he hc (hm _ _ hmay) ha
  | opens he ho => exact .opens he ho
  | close he hc => exact .close he hc
  | dup2 he hd => exact .dup2 he hd
  | other hk hb => exact .other hk hb

def rootVfs : VfsCalls Unit where
  vfsResolve vfs path := do
    let lookupResult ← resolveInRoot path
    .ok (lookupResult, vfs)
  vfsCreate vfs _ _ := .ok (0, vfs)
  inodeType _ _ := inodeDirectory
  vfsFtruncate vfs _ _ := .ok (-1, vfs)

def smallLedger : FileLedger Unit :=
  .init ⟨smallKmem, []⟩ (fun _ => .cleared) ⟨[0x200000], by simp [PageAligned], by simp⟩ ()

/-- `init` and the kernel thread, and a child of `init` that opens the root directory,
makes the calls `cs` and exits, while `init` waits for it. -/
def childOpens (cs : List FileLedger.Call) : List FileLedger.Call :=
  [.process .boot, .process .boot, .process (.fork 0xffff800000101030),
    .opens 0xffff8000001012E0 [slash, 0] 0] ++ cs ++
  [.process (.waitpid 0xffff800000101030 3), .process (.exit 0xffff8000001012E0 7)]

/-- `init` goes on after `childOpens`, and the state it leaves. -/
theorem childOpens_resume {cs : List FileLedger.Call} {n : Nat}
    (h : (((childOpens cs).foldlM (FileLedger.perform rootVfs) smallLedger).bind fun s =>
      if s.procs.Enabled (.resume 0xffff800000101030) then
        (s.act rootVfs (.resume 0xffff800000101030)).toOption.map fun r =>
          (s.procs.taskStructLh.map fun u => (u, s.procs.waiting u),
            (s.filesLh 0xffff8000001012E0).length, r.1.procs.reaps.length, decide r.1.FilesConserved)
      else none) =
      some ([(0xffff800000101030, some (0xffff8000001012E0, 3)), (0xffff800000101188, none),
        (0xffff8000001012E0, none)], n, 1, decide (n = 0))) :
    ∃ s s' r, Relation.ReflTransGen (LedgerStep rootVfs FileLedger.Closes) smallLedger s ∧
      s.procs.Enabled (.resume 0xffff800000101030) ∧ s.procs.Careful (.resume 0xffff800000101030) ∧
      s.act rootVfs (.resume 0xffff800000101030) = .ok (s', r) ∧
      (s.filesLh 0xffff8000001012E0).length = n ∧ s'.procs.reaps.length = 1 ∧
      (s'.FilesConserved ↔ n = 0) := by
  obtain ⟨s, hrun, hs⟩ := Option.bind_eq_some_iff.mp h
  split at hs
  · next he =>
    obtain ⟨⟨s', r⟩, hact, hs'⟩ := FileLedger.toOption_map hs
    simp only [Prod.mk.injEq] at hs'
    obtain ⟨hwaiting, hn, hreaps, hcons⟩ := hs'
    have hcareful : s.procs.Careful (.resume 0xffff800000101030) := by
      refine Processes.careful_resume fun u hu hut => ?_
      have hmem := List.mem_map_of_mem (f := fun u => (u, s.procs.waiting u)) hu
      simp only [hwaiting, List.mem_cons, Prod.mk.injEq, List.not_mem_nil, or_false] at hmem
      rcases hmem with ⟨rfl, -⟩ | ⟨-, hnone⟩ | ⟨-, hnone⟩
      · exact absurd rfl hut
      · exact hnone
      · exact hnone
    refine ⟨s, s', r, FileLedger.perform_run hrun, he, hcareful, hact, hn, hreaps, ?_⟩
    simpa using hcons
  · cases hs

end Persistos
