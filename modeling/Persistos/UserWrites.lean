import Persistos.UserFiles

/-! The laws of WRITE. To a file in RAM it stores the bytes or panics for want of pages, and a
write to something else leaves a file in RAM as it is. -/

namespace Persistos

open Theory

namespace UserTask

variable {m : UserTask} {s s' : FileTables FsKernel} {ramFiles : List U64} {fd f g n : U64}
  {p : Nat}

/-- What a write of `data` to the file at `g` leaves, at the position `p` of it. -/
structure HasWritten (m : UserTask) (s s' : FileTables FsKernel) (ramFiles : List U64) (fd g : U64)
    (p : Nat) (data : List U8) : Prop extends OnlyMoved m s s' fd where
  kernel : s'.kernel.RamKernel ramFiles
  tree : s.kernel.TreeKept s'.kernel
  slots : s'.kernel.fileSlots = s.kernel.fileSlots
  position : m.At s' fd g (p + data.length)
  content : (s'.kernel.fs.image g).content = (s.kernel.fs.image g).content.take p ++ data ++
    (s.kernel.fs.image g).content.drop (p + data.length)
  images : ∀ f ∈ ramFiles, f ≠ g → s'.kernel.fs.image f = s.kernel.fs.image f

theorem sysWrite_eq (h : s.kernel.RamKernel ramFiles) {filp : OpenFile}
    (hfind : m.filpFind s fd = some filp) (hg : filp.inode ∈ ramFiles) (buffer : Nat → U8)
    (length : U64) : m.sysWrite s fd buffer length = (do
      let (n, fs) ← ramfsWrite s.kernel.fs ⟨filp.inode, filp.offset⟩ buffer length
      .ok (n, m.moveFile { s with kernel := { s.kernel with fs } } filp
        (if n ≠ -1 then File.advance ⟨filp.inode, filp.offset⟩ n
          else ⟨filp.inode, filp.offset⟩).offset)) := by
  rw [sysWrite, hfind]
  dsimp only
  rw [FsKernel.vfsWrite_ramfs h.ram hg (h.ne_zero hg) (h.onRamfs _ hg)]
  cases ramfsWrite s.kernel.fs ⟨filp.inode, filp.offset⟩ buffer length <;> rfl

theorem sysWrite_affords (h : s.kernel.RamKernel ramFiles) (hg : g ∈ ramFiles)
    (hat : m.At s fd g p) (buffer : Nat → U8) {length : U64}
    (hstop : p + length.toNat ≤ 2 ^ 64 - 128) :
    Affords (m.sysWrite s fd buffer length) outOfMemory s.kernel.freePages
      (fun r => r.2.kernel.freePages)
      (Image.clustersFor (p + length.toNat) - (s.kernel.fs.clustersOf g).length) := by
  obtain ⟨filp, hfind, rfl, rfl⟩ := hat
  rw [sysWrite_eq h hfind hg]
  have hfile : (File.mk filp.inode filp.offset).inode ∈ ramFiles := hg
  exact (h.ram.write_affords hfile buffer hstop).bind_free fun _ _ => .ok rfl (Nat.le_refl _)

theorem sysWrite_ram (h : s.kernel.RamKernel ramFiles) (hg : g ∈ ramFiles) (hat : m.At s fd g p)
    (hp : p ≤ (s.kernel.fs.image g).content.length) {buffer : Nat → U8} {length : U64}
    (hstop : p + length.toNat ≤ 2 ^ 64 - 128)
    (hw : m.sysWrite s fd buffer length = .ok (n, s')) :
    n = length ∧ HasWritten m s s' ramFiles fd g p (slice buffer 0 length.toNat) := by
  obtain ⟨filp, hfind, rfl, rfl⟩ := hat
  rw [sysWrite_eq h hfind hg] at hw
  obtain ⟨⟨n, fs⟩, hwrite, hw⟩ := bind_eq_ok hw
  cases hw
  have hfile : (File.mk filp.inode filp.offset).inode ∈ ramFiles := hg
  obtain ⟨hkernel, htree, rfl, himage, hothers⟩ := h.write hfile hwrite
  have hne : n ≠ -1 := by
    rintro rfl
    exact absurd hstop (by
      change ¬_ + (2 ^ 64 - 1) ≤ _
      omega)
  have hmoved : (filp.offset + n).toNat = filp.offset.toNat + n.toNat := by
    rw [BitVec.toNat_add]
    omega
  have himage : fs.image filp.inode =
      (s.kernel.fs.image filp.inode).write filp.offset buffer n := himage
  rw [Image.content_length] at hp
  refine ⟨rfl, onlyMoved hfind _ _, hkernel, htree, rfl, ?_, ?_, hothers⟩
  · rw [if_pos hne, slice_length]
    have hat := at_moveFile hfind { s.kernel with fs } (filp.offset + n)
    rw [hmoved] at hat
    exact hat
  · rw [slice_length]
    change (fs.image filp.inode).content = _
    rw [himage, Image.content_write buffer hp (by omega)]

/-- `fd` is open, what it writes to is not the file at `f`, and if it is a file in RAM, it is one
of them. -/
def Apart (m : UserTask) (s : FileTables FsKernel) (ramFiles : List U64) (fd f : U64) : Prop :=
  ∃ g q, m.At s fd g q ∧ g ≠ f ∧ (s.kernel.typeOf g = .ramfs →
    (s.kernel.inode g).type = inodeRegularFile → g ∈ ramFiles)

theorem Apart.kept {fd' : U64} (h : m.Apart s ramFiles fd f) (hmoved : OnlyMoved m s s' fd')
    (hne : fd.setWidth 32 ≠ fd'.setWidth 32) (hkernel : s'.kernel = s.kernel) :
    m.Apart s' ramFiles fd f := by
  obtain ⟨g, q, hat, hg⟩ := h
  exact ⟨g, q, hmoved.others hne hat, hkernel ▸ hg⟩

/-- A new number is another one. -/
theorem Apart.opened {fd' f' : U64} (h : m.Apart s ramFiles fd f)
    (hopened : HasOpened m s s' ramFiles fd' f') :
    m.Apart s' ramFiles fd f ∧ fd'.setWidth 32 ≠ fd.setWidth 32 := by
  obtain ⟨g, q, hat, hg⟩ := h
  refine ⟨⟨g, q, hopened.others hat, ?_⟩, fun he => hopened.fresh (he ▸ hat.mem_fds)⟩
  rw [hopened.tree.typeOf, hopened.tree.inode]
  exact hg

/-- What any write through `fd` leaves of the file at `f`. -/
structure StaysApart (m : UserTask) (s s' : FileTables FsKernel) (ramFiles : List U64)
    (fd f : U64) : Prop extends OnlyMoved m s s' fd where
  kernel : s'.kernel.RamKernel ramFiles
  image : s'.kernel.fs.image f = s.kernel.fs.image f
  apart : m.Apart s' ramFiles fd f

theorem stays_apart {filp : OpenFile} (hfind : m.filpFind s fd = some filp) (hne : filp.inode ≠ f)
    (hram : s.kernel.typeOf filp.inode = .ramfs →
      (s.kernel.inode filp.inode).type = inodeRegularFile → filp.inode ∈ ramFiles)
    {kernel : FsKernel} (h : kernel.RamKernel ramFiles) (htree : s.kernel.TreeKept kernel)
    (himage : kernel.fs.image f = s.kernel.fs.image f) (offset : U64) :
    StaysApart m s (m.moveFile { s with kernel } filp offset) ramFiles fd f := by
  refine ⟨onlyMoved hfind kernel offset, h, himage, filp.inode, offset.toNat,
    at_moveFile hfind kernel offset, hne, fun htype hregular => hram ?_ ?_⟩
  · rw [← htree.typeOf]
    exact htype
  · rw [← htree.inode]
    exact hregular

/-- A write through `fd` that returns, to whatever `fd` is. -/
theorem sysWrite_apart (h : s.kernel.RamKernel ramFiles) (hf : f ∈ ramFiles)
    (ha : m.Apart s ramFiles fd f) {buffer : Nat → U8} {length : U64}
    (hw : m.sysWrite s fd buffer length = .ok (n, s')) : StaysApart m s s' ramFiles fd f := by
  obtain ⟨_, _, ⟨filp, hfind, rfl, rfl⟩, hne, hram⟩ := ha
  rw [sysWrite, hfind] at hw
  obtain ⟨⟨n, file, kernel⟩, hwrite, hw⟩ := bind_eq_ok hw
  cases hw
  have hdisk : ∀ (disk : Nat → U8) (offset : U64), StaysApart m s
      (m.moveFile { s with kernel := { s.kernel with disk } } filp offset) ramFiles fd f :=
    fun disk offset => stays_apart hfind hne hram (h.disk disk) ⟨rfl, rfl, rfl, rfl, rfl⟩ rfl offset
  rw [FsKernel.vfsWrite] at hwrite
  dsimp only at hwrite
  split at hwrite
  · cases hwrite
  · split at hwrite
    · cases hwrite
      exact hdisk _ _
    · split at hwrite
      · next hregular =>
        split at hwrite
        · cases hwrite
        · obtain ⟨⟨n, file, kernel⟩, hfile, hwrite⟩ := bind_eq_ok hwrite
          cases hwrite
          rw [FsKernel.writeFile] at hfile
          split at hfile
          · next htype =>
            obtain ⟨⟨n, fs⟩, hrun, hfile⟩ := bind_eq_ok hfile
            cases hfile
            have hmem : (File.mk filp.inode filp.offset).inode ∈ ramFiles := hram htype hregular
            obtain ⟨hkernel, htree, -, -, hothers⟩ := h.write hmem hrun
            exact stays_apart hfind hne hram hkernel htree (hothers f hf fun he => hne he.symm) _
          · cases hfile
            exact hdisk s.kernel.disk _
          · cases hfile
            exact hdisk _ _
      · split at hwrite
        · cases hwrite
          exact hdisk s.kernel.disk _
        · cases hwrite

/-- `fd` is not open, or it is a device. -/
def ClosedOrDevice (m : UserTask) (s : FileTables FsKernel) (fd : U64) : Prop :=
  ∀ filp, m.filpFind s fd = some filp → filp.inode ≠ 0 ∧
    (s.kernel.inode filp.inode).type = inodeDevice

theorem sysWrite_device (h : m.ClosedOrDevice s fd) (buffer : Nat → U8) (length : U64) :
    ∃ n s', m.sysWrite s fd buffer length = .ok (n, s') ∧ s'.kernel.fs = s.kernel.fs := by
  rw [sysWrite]
  cases hfind : m.filpFind s fd with
  | none => exact ⟨-1, s, rfl, rfl⟩
  | some filp =>
    obtain ⟨hne, hdevice⟩ := h filp hfind
    have hwrite : ∃ n file disk, s.kernel.vfsWrite (m.deviceFops filp.inode)
        ⟨filp.inode, filp.offset⟩ buffer length = .ok (n, file, { s.kernel with disk }) := by
      rw [FsKernel.vfsWrite, if_neg hne, if_pos hdevice]
      exact ⟨_, _, _, rfl⟩
    obtain ⟨n, file, disk, hwrite⟩ := hwrite
    refine ⟨n, m.moveFile { s with kernel := { s.kernel with disk } } filp file.offset, ?_, rfl⟩
    dsimp only
    rw [hwrite]
    rfl

end UserTask

namespace Process

variable {m : UserTask} {s s' : Process} {ramFiles : List U64} {fd f n : U64}

open UserTask

theorem write_ok {buffer : Nat → U8} {length : U64}
    (hw : s.write m fd buffer length = .ok (n, s')) :
    m.sysWrite s.tables fd buffer length = .ok (n, s'.tables) ∧
      s'.written = s.written ++ [(fd, slice buffer 0 length.toNat)] ∧
      s'.executed = s.executed := by
  rw [write] at hw
  obtain ⟨⟨n, tables⟩, hsys, hw⟩ := bind_user_eq_ok hw
  cases hw
  exact ⟨mapError_eq_ok hsys, rfl, rfl⟩

/-- A message that goes to no file. -/
theorem fail_device {α : Type} (h : m.ClosedOrDevice s.tables 2) (message : List U8) :
    ∃ s', (s.fail m [message] : Except UserStop α) = .error (.exited 1 s') ∧
      s'.tables.kernel.fs = s.tables.kernel.fs := by
  obtain ⟨n, tables, hwrite, hfs⟩ := sysWrite_device h (message.getD · 0)
    (BitVec.ofNat 64 (strlen message))
  refine ⟨{ s with tables, written := s.written ++
    [(2, slice (message.getD · 0) 0 (BitVec.ofNat 64 (strlen message)).toNat)] }, ?_, hfs⟩
  rw [fail, List.foldlM_cons, fputs, write, hwrite]
  rfl

end Process

end Persistos
