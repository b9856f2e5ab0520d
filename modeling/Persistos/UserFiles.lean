import Persistos.UserCalls

/-! The laws of the system calls on descriptors of files in RAM. A call moves the offset of its
own descriptor only. -/

namespace Persistos

open Theory

section Lists

variable {files : List OpenFile} {filp : OpenFile} {fd : U32} {offset : U64}

theorem filpFind_moveFile (files : List OpenFile) (filp : OpenFile) (offset : U64) (fd : U32) :
    filpFind (moveFile files filp offset) fd =
      (filpFind files fd).map fun f => if f = filp then { f with offset } else f := by
  rw [filpFind, moveFile, List.find?_map, filpFind]
  congr 2
  funext f
  simp only [Function.comp_apply]
  split <;> rfl

theorem map_fd_moveFile (files : List OpenFile) (filp : OpenFile) (offset : U64) :
    (moveFile files filp offset).map OpenFile.fd = files.map OpenFile.fd := by
  rw [moveFile, List.map_map]
  refine List.map_congr_left fun f _ => ?_
  simp only [Function.comp_apply]
  split <;> rfl

/-- A new number leads to the new file, and the others lead where they did. -/
theorem filpFind_append_new (h : ∀ f ∈ files, f.fd ≠ filp.fd) (fd : U32) :
    filpFind (files ++ [filp]) fd = if fd = filp.fd then some filp else filpFind files fd := by
  rw [filpFind, List.find?_append]
  split
  · next hfd =>
    have hnone : files.find? (fun f => f.fd = fd) = none := by
      refine List.find?_eq_none.mpr fun f hf => ?_
      simpa [hfd] using h f hf
    rw [hnone, Option.none_or, hfd]
    simp
  · next hfd =>
    have hne : filp.fd ≠ fd := fun hh => hfd hh.symm
    simp [hne, filpFind]

end Lists

namespace UserTask

variable {m : UserTask} {s s' : FileTables FsKernel} {ramFiles : List U64} {fd fd' f g : U64}
  {filp : OpenFile} {p q : Nat}

/-- The open file with the number `fd` is at the position `p` of the file at `f`. -/
def At (m : UserTask) (s : FileTables FsKernel) (fd f : U64) (p : Nat) : Prop :=
  ∃ filp, m.filpFind s fd = some filp ∧ filp.inode = f ∧ filp.offset.toNat = p

theorem At.mem_fds (h : m.At s fd f p) :
    fd.setWidth 32 ∈ (s.filesLh m.address).map OpenFile.fd := by
  obtain ⟨filp, hfind, -⟩ := h
  obtain ⟨hmem, hfd⟩ := filpFind_some hfind
  exact hfd ▸ List.mem_map_of_mem hmem

/-- `s'` differs from `s` by the offset of `fd` at most, as far as open files go. -/
structure OnlyMoved (m : UserTask) (s s' : FileTables FsKernel) (fd : U64) : Prop where
  fds : (s'.filesLh m.address).map OpenFile.fd = (s.filesLh m.address).map OpenFile.fd
  others : ∀ {fd' g q}, fd'.setWidth 32 ≠ fd.setWidth 32 → m.At s fd' g q → m.At s' fd' g q
  addresses : ∀ {fd' filp}, m.filpFind s fd' = some filp →
    ∃ filp', m.filpFind s' fd' = some filp' ∧ filp'.address = filp.address

theorem OnlyMoved.refl (m : UserTask) (s : FileTables FsKernel) (fd : U64) : OnlyMoved m s s fd :=
  ⟨rfl, fun _ h => h, fun h => ⟨_, h, rfl⟩⟩

@[simp] theorem moveFile_files (s : FileTables FsKernel) (filp : OpenFile) (offset : U64) :
    (m.moveFile s filp offset).filesLh m.address =
      Persistos.moveFile (s.filesLh m.address) filp offset := by
  simp [moveFile, FileTables.setFiles]

theorem filpFind_moveFile (s : FileTables FsKernel) (filp : OpenFile) (offset fd : U64) :
    m.filpFind (m.moveFile s filp offset) fd =
      (m.filpFind s fd).map fun f => if f = filp then { f with offset } else f := by
  rw [filpFind, moveFile_files]
  exact Persistos.filpFind_moveFile _ filp offset _

theorem onlyMoved (hf : m.filpFind s fd = some filp) (kernel : FsKernel) (offset : U64) :
    OnlyMoved m s (m.moveFile { s with kernel } filp offset) fd where
  fds := by
    rw [moveFile_files]
    exact map_fd_moveFile _ filp offset
  others {fd' g q} hne hat := by
    obtain ⟨filp', hfind, hinode, hoffset⟩ := hat
    have hother : filp' ≠ filp := by
      rintro rfl
      exact hne ((filpFind_some hfind).2.symm.trans (filpFind_some hf).2)
    have hsame : m.filpFind { s with kernel } fd' = some filp' := hfind
    refine ⟨filp', ?_, hinode, hoffset⟩
    rw [filpFind_moveFile, hsame, Option.map_some, if_neg hother]
  addresses {fd' filp'} hfind := by
    have hsame : m.filpFind { s with kernel } fd' = some filp' := hfind
    refine ⟨if filp' = filp then { filp' with offset } else filp', ?_, ?_⟩
    · rw [filpFind_moveFile, hsame, Option.map_some]
    · split <;> rfl

theorem at_moveFile (hf : m.filpFind s fd = some filp) (kernel : FsKernel) (offset : U64) :
    m.At (m.moveFile { s with kernel } filp offset) fd filp.inode offset.toNat := by
  have hsame : m.filpFind { s with kernel } fd = some filp := hf
  refine ⟨{ filp with offset }, ?_, rfl, rfl⟩
  rw [filpFind_moveFile, hsame, Option.map_some, if_pos rfl]

/-- What a read leaves that began at `p` and moved `n` bytes. -/
structure HasRead (m : UserTask) (s s' : FileTables FsKernel) (fd f : U64) (p n : Nat)
    (buffer buffer' : Nat → U8) : Prop extends OnlyMoved m s s' fd where
  kernel : s'.kernel = s.kernel
  position : m.At s' fd f (p + n)
  bytes : slice buffer' 0 n = ((s.kernel.fs.image f).content.drop p).take n
  behind : ∀ i, n ≤ i → buffer' i = buffer i

/-- The bytes that a read moves from `p` on. -/
def toRead (s : FileTables FsKernel) (f : U64) (p length : Nat) : Nat :=
  min length ((s.kernel.fs.image f).content.length - p)

theorem sysRead_ram (h : s.kernel.RamKernel ramFiles) (hf : f ∈ ramFiles) (hat : m.At s fd f p)
    (hp : p ≤ (s.kernel.fs.image f).content.length) (buffer : Nat → U8) {length : U64}
    (hlength : length.toNat ≤ 2 ^ 32) :
    ∃ buffer' s', m.sysRead s fd buffer length =
        .ok (BitVec.ofNat 64 (toRead s f p length.toNat), buffer', s') ∧
      HasRead m s s' fd f p (toRead s f p length.toNat) buffer buffer' := by
  obtain ⟨filp, hfind, rfl, rfl⟩ := hat
  have hsize := h.size_le hf
  rw [toRead]
  rw [Image.content_length] at hp ⊢
  have hcount : (s.kernel.fs.image filp.inode).readCount filp.offset.toNat length.toNat =
      min length.toNat ((s.kernel.fs.image filp.inode).size - filp.offset.toNat) := if_pos hp
  have hread := @Image.read_eq_ok (s.kernel.fs.image filp.inode) filp.offset buffer length
    (by omega) (.inl hp)
  rw [hcount] at hread
  generalize hn : min length.toNat ((s.kernel.fs.image filp.inode).size - filp.offset.toNat) = n
    at hread ⊢
  have hmoved : (filp.offset + BitVec.ofNat 64 n).toNat = filp.offset.toNat + n := by
    rw [BitVec.toNat_add, BitVec.toNat_ofNat]
    omega
  refine ⟨overlay buffer 0 n fun i => (s.kernel.fs.image filp.inode).bytes (filp.offset.toNat + i),
    m.moveFile s filp (filp.offset + BitVec.ofNat 64 n), ?_, onlyMoved hfind s.kernel _, rfl,
    ?_, ?_, fun i hi => ?_⟩
  · rw [sysRead, hfind]
    dsimp only
    rw [FsKernel.vfsRead_ramfs h hf, h.ram.read_eq hf]
    dsimp only
    rw [hread]
    rfl
  · have hat := at_moveFile hfind s.kernel (filp.offset + BitVec.ofNat 64 n)
    rw [hmoved] at hat
    exact hat
  · rw [slice_overlay_self, slice_shift, Image.content, slice_drop, Nat.zero_add, slice_take]
    omega
  · exact overlay_of_ge (by rwa [Nat.zero_add])

theorem sysLseek_ok (hat : m.At s fd f p) (offset : U64) :
    ∃ s', m.sysLseek s fd offset 0 = (offset, s') ∧ OnlyMoved m s s' fd ∧
      s'.kernel = s.kernel ∧ m.At s' fd f offset.toNat := by
  obtain ⟨filp, hfind, rfl, rfl⟩ := hat
  refine ⟨m.moveFile s filp offset, ?_, onlyMoved hfind s.kernel offset, rfl,
    at_moveFile hfind s.kernel offset⟩
  rw [sysLseek, hfind]
  rfl

/-- There are `n` more numbers for files. -/
def Room (m : UserTask) (s : FileTables FsKernel) (n : Nat) : Prop :=
  ∀ x ∈ (s.filesLh m.address).map OpenFile.fd, x.toNat + n < 2 ^ 32

theorem Room.fdRoom {n : Nat} (h : m.Room s (n + 1)) : FdRoom s m.address := by
  intro filp hfilp he
  have hlt := h filp.fd (List.mem_map_of_mem (List.mem_of_getLast? hfilp))
  have hmax : (-1 : U32).toNat = 2 ^ 32 - 1 := rfl
  rw [he] at hlt
  omega

theorem Room.nextFd {n : Nat} (h : m.Room s (n + 1)) (hn : n < 2 ^ 32) :
    (nextFd (s.filesLh m.address)).toNat + n < 2 ^ 32 := by
  rw [Persistos.nextFd]
  split
  · simpa using hn
  · next last hlast =>
    have hlt := h last.fd (List.mem_map_of_mem (List.mem_of_getLast? hlast))
    bv_omega

/-- What OPEN of a file in RAM leaves, with the new number `fd`. -/
structure HasOpened (m : UserTask) (s s' : FileTables FsKernel) (ramFiles : List U64)
    (fd f : U64) : Prop where
  kernel : s'.kernel.RamKernel ramFiles
  tree : s.kernel.TreeKept s'.kernel
  images : ∀ g, s'.kernel.fs.image g = s.kernel.fs.image g
  ordered : Ordered (s'.filesLh m.address)
  fds : (s'.filesLh m.address).map OpenFile.fd =
    (s.filesLh m.address).map OpenFile.fd ++ [fd.setWidth 32]
  number : fd = (nextFd (s.filesLh m.address)).setWidth 64
  fresh : fd.setWidth 32 ∉ (s.filesLh m.address).map OpenFile.fd
  position : m.At s' fd f 0
  others : ∀ {fd' g q}, m.At s fd' g q → m.At s' fd' g q
  slot : ∃ filp, m.filpFind s' fd = some filp ∧ filp.address ∈ s'.kernel.fileSlots
  notError : isError fd = false

theorem isError_setWidth (n : U32) : isError (n.setWidth 64) = false := by
  refine isError_of_lt ?_
  rw [BitVec.toNat_setWidth]
  have hlt := n.isLt
  omega

theorem sysOpen_eq {path : List U8} (hp : s.kernel.PathOf path f) (flags : U64) :
    m.calls.sysOpen s m.address path flags = m.calls.openExisting s m.address f flags := by
  obtain ⟨r', hresolve, hstatus, hinode⟩ := hp.resolve m.fuel m.lookupResult
  have hresolve : m.calls.vfsResolve s.kernel path = .ok (r', s.kernel) := hresolve
  rw [KernelCalls.sysOpen, hresolve, ok_bind]
  dsimp only
  rw [hstatus, if_neg (by decide), if_neg (by decide), if_neg (by decide), if_pos rfl, hinode]

theorem openExisting_eq (f : U64) : m.calls.openExisting s m.address f 0 = (do
    let (filp, s) ← m.calls.linkFile s m.address f
    .ok (filp.fd.setWidth 64, s)) := by
  have hflag : ¬((0 : U64) &&& oTruncate ≠ 0) := by decide
  rw [KernelCalls.openExisting]
  simp only [hflag, and_false, if_false]

theorem linkFile_affords (h : s.kernel.RamKernel ramFiles) (f : U64) :
    Affords (m.calls.linkFile s m.address f) outOfMemory s.kernel.freePages
      (fun r => r.2.kernel.freePages) 1 :=
  h.fileAlloc_affords.bind_free fun _ _ => .ok rfl (Nat.le_refl _)

theorem sysOpen_affords (h : s.kernel.RamKernel ramFiles) {path : List U8}
    (hp : s.kernel.PathOf path f) : Affords (m.calls.sysOpen s m.address path 0) outOfMemory
      s.kernel.freePages (fun r => r.2.kernel.freePages) 1 := by
  rw [sysOpen_eq hp, openExisting_eq]
  exact (linkFile_affords h f).bind_free fun _ _ => .ok rfl (Nat.le_refl _)

theorem linkFile_opened (h : s.kernel.RamKernel ramFiles) (ho : Ordered (s.filesLh m.address))
    {n : Nat} (hroom : m.Room s (n + 1)) (hl : m.calls.linkFile s m.address f = .ok (filp, s')) :
    HasOpened m s s' ramFiles (filp.fd.setWidth 64) f := by
  obtain ⟨hfd, hinode, hoffset, halloc, hlists⟩ := KernelCalls.linkFile_ok hl
  have halloc : s.kernel.fileAlloc = .ok (filp.address, s'.kernel) := halloc
  obtain ⟨hkernel, htree, himages, hslots⟩ := h.fileAlloc halloc
  have hlt := ho.lt_nextFd hroom.fdRoom
  rw [← hfd] at hlt
  have hfiles : s'.filesLh m.address = s.filesLh m.address ++ [filp] := by
    rw [hlists, Function.update_self]
  have hwidth : (filp.fd.setWidth 64).setWidth 32 = filp.fd :=
    BitVec.setWidth_setWidth_of_le filp.fd (by decide)
  have hne : ∀ g ∈ s.filesLh m.address, g.fd ≠ filp.fd := fun g hg he =>
    absurd (hlt g hg) (he ▸ BitVec.lt_irrefl _)
  have hfind : ∀ fd', m.filpFind s' fd' =
      if fd'.setWidth 32 = filp.fd then some filp else m.filpFind s fd' := by
    intro fd'
    rw [UserTask.filpFind, hfiles]
    exact filpFind_append_new hne _
  have hself : m.filpFind s' (filp.fd.setWidth 64) = some filp := by
    rw [hfind, if_pos hwidth]
  refine ⟨hkernel, htree, himages, ?_, ?_, congrArg _ hfd, ?_, ⟨filp, hself, hinode, ?_⟩, ?_,
    ⟨filp, hself, ?_⟩, isError_setWidth _⟩
  · rw [hfiles]
    exact ho.append hlt
  · rw [hfiles, List.map_append, hwidth]
    rfl
  · rw [hwidth]
    intro hmem
    obtain ⟨g, hg, he⟩ := List.mem_map.mp hmem
    exact hne g hg he
  · rw [hoffset]
    rfl
  · rintro fd' g q ⟨filp', hfilp', hat⟩
    refine ⟨filp', ?_, hat⟩
    have hold := hne filp' (filpFind_some hfilp').1
    rw [(filpFind_some hfilp').2] at hold
    rw [hfind, if_neg hold, hfilp']
  · exact hslots.mem_iff.mpr List.mem_cons_self

theorem sysOpen_opened (h : s.kernel.RamKernel ramFiles) (ho : Ordered (s.filesLh m.address))
    {n : Nat} (hroom : m.Room s (n + 1)) {path : List U8} (hp : s.kernel.PathOf path f)
    (hrun : m.calls.sysOpen s m.address path 0 = .ok (fd, s')) :
    HasOpened m s s' ramFiles fd f := by
  rw [sysOpen_eq hp, openExisting_eq] at hrun
  obtain ⟨⟨filp, s₁⟩, hlink, hrun⟩ := bind_eq_ok hrun
  cases hrun
  exact linkFile_opened h ho hroom hlink

theorem HasOpened.room {n : Nat} (h : HasOpened m s s' ramFiles fd f) (hroom : m.Room s (n + 1))
    (hn : n < 2 ^ 32) : m.Room s' n := by
  intro x hx
  rw [h.fds, List.mem_append, List.mem_singleton] at hx
  rcases hx with hx | rfl
  · have hlt := hroom x hx
    omega
  · rw [h.number, BitVec.setWidth_setWidth_of_le _ (by decide)]
    exact hroom.nextFd hn

/-- What CLOSE leaves. -/
structure HasClosed (m : UserTask) (s s' : FileTables FsKernel) (ramFiles : List U64)
    (fd : U64) : Prop where
  kernel : s'.kernel.RamKernel ramFiles
  tree : s.kernel.TreeKept s'.kernel
  ramfs : s'.kernel.fs = s.kernel.fs
  ordered : Ordered (s'.filesLh m.address)
  fds : ∀ x ∈ (s'.filesLh m.address).map OpenFile.fd,
    x ∈ (s.filesLh m.address).map OpenFile.fd ∧ x ≠ fd.setWidth 32
  others : ∀ {fd' g q}, fd'.setWidth 32 ≠ fd.setWidth 32 → m.At s fd' g q → m.At s' fd' g q

theorem sysClose_ok (h : s.kernel.RamKernel ramFiles) (ho : Ordered (s.filesLh m.address))
    (hfind : m.filpFind s fd = some filp) (hslot : filp.address ∈ s.kernel.fileSlots) :
    ∃ s', m.calls.sysClose s m.address fd = .ok (0, s') ∧ HasClosed m s s' ramFiles fd := by
  obtain ⟨k', hfree, hkernel, htree, hfs, -⟩ := h.fileFree hslot
  obtain ⟨hmem, hfd⟩ := filpFind_some hfind
  refine ⟨{ s with kernel := k' }.setFiles m.address ((s.filesLh m.address).erase filp), ?_,
    hkernel, htree, hfs, ?_, ?_, ?_⟩
  · have hfree : m.calls.fileFree s.kernel filp.address = .ok k' := hfree
    have hfind : Persistos.filpFind (s.filesLh m.address) (fd.setWidth 32) = some filp := hfind
    rw [KernelCalls.sysClose, hfind]
    dsimp only
    rw [hfree]
    rfl
  · rw [FileTables.setFiles_self]
    exact ho.erase filp
  · rw [FileTables.setFiles_self]
    intro x hx
    obtain ⟨g, hg, rfl⟩ := List.mem_map.mp hx
    exact ⟨List.mem_map_of_mem (List.mem_of_mem_erase hg), hfd ▸ ho.fd_ne_of_mem_erase hmem hg⟩
  · rintro fd' g q hne ⟨filp', hfilp', hat⟩
    refine ⟨filp', ?_, hat⟩
    have hold : Persistos.filpFind (s.filesLh m.address) (fd'.setWidth 32) = some filp' := hfilp'
    rw [UserTask.filpFind, FileTables.setFiles_self, ho.filpFind_erase hmem, hfd, if_neg hne, hold]

end UserTask

namespace Process

variable {m : UserTask} {s s' : Process} {ramFiles : List U64} {fd f : U64} {p : Nat}

open UserTask

theorem read_ram (h : s.tables.kernel.RamKernel ramFiles) (hf : f ∈ ramFiles)
    (hat : m.At s.tables fd f p) (hp : p ≤ (s.tables.kernel.fs.image f).content.length)
    (buffer : Nat → U8) {length : U64} (hlength : length.toNat ≤ 2 ^ 32) :
    ∃ buffer' s', s.read m fd buffer length =
        .ok (BitVec.ofNat 64 (toRead s.tables f p length.toNat), buffer', s') ∧
      HasRead m s.tables s'.tables fd f p (toRead s.tables f p length.toNat) buffer buffer' ∧
      s'.written = s.written ∧ s'.executed = s.executed := by
  obtain ⟨buffer', tables, hread, hhas⟩ := sysRead_ram h hf hat hp buffer hlength
  refine ⟨buffer', { s with tables }, ?_, hhas, rfl, rfl⟩
  rw [Process.read, hread]
  rfl

theorem openFile_affords (h : s.tables.kernel.RamKernel ramFiles) {path : List U8}
    (hp : s.tables.kernel.PathOf path f) : Affords (s.openFile m path 0) (.crash outOfMemory)
      s.tables.kernel.freePages (fun r => r.2.tables.kernel.freePages) 1 :=
  ((sysOpen_affords h hp).mapError UserStop.crash).bind_free fun _ _ => .ok rfl (Nat.le_refl _)

theorem openFile_opened (h : s.tables.kernel.RamKernel ramFiles)
    (ho : Ordered (s.tables.filesLh m.address)) {n : Nat} (hroom : m.Room s.tables (n + 1))
    {path : List U8} (hp : s.tables.kernel.PathOf path f)
    (hrun : s.openFile m path 0 = .ok (fd, s')) :
    HasOpened m s.tables s'.tables ramFiles fd f ∧ s'.written = s.written ∧
      s'.executed = s.executed := by
  rw [openFile] at hrun
  obtain ⟨⟨fd, tables⟩, hopen, hrun⟩ := bind_user_eq_ok hrun
  cases hrun
  exact ⟨sysOpen_opened h ho hroom hp (mapError_eq_ok hopen), rfl, rfl⟩

theorem fputs_error {str : List U8} {e : UserStop} (h : s.fputs m fd str = .error e) :
    ∃ c, e = .crash c := by
  rw [fputs, write] at h
  cases hw : m.sysWrite s.tables fd (str.getD · 0) (BitVec.ofNat 64 (strlen str)) with
  | error c =>
    rw [hw] at h
    cases h
    exact ⟨c, rfl⟩
  | ok r =>
    rw [hw] at h
    cases h

/-- A message does not change what the program ends with. -/
theorem code_of_puts {α : Type} {str : List U8} {exitCode code : U8}
    (h : Exits (do
      let s ← s.puts m str
      s.exit exitCode : Except UserStop α) code) : code = exitCode := by
  obtain ⟨s', h⟩ := h
  cases hp : s.puts m str with
  | error e =>
    obtain ⟨c, rfl⟩ := fputs_error hp
    rw [hp] at h
    cases h
  | ok s₁ =>
    rw [hp] at h
    cases h
    rfl

end Process

end Persistos
