import Persistos.FileOffsets
import Persistos.RamFiles

/-! What programs do with their open files: the system calls on descriptors, and the functions
of the C library that print and that test results. -/

namespace Persistos

open Theory

namespace FsKernel

/-- `read` of the file system that the file is on. -/
def readFile (sysfs : Sysfs) (k : FsKernel) (filp : File) (buffer : Nat → U8) (length : U64) :
    Except Crash (ReadResult FsKernel) :=
  match k.typeOf filp.inode with
  | .ramfs => do
    let r ← ramfsRead k.fs filp buffer length
    .ok ⟨r.bytesRead, r.filp, r.buffer, { k with fs := r.state }⟩
  | .sysfs => do
    let r ← sysfsRead sysfs filp buffer length
    .ok ⟨r.bytesRead, r.filp, r.buffer, k⟩
  | .exfat _ partition =>
    let r := exfatRead partition.fops k.disk (k.exfatInodeOf filp.inode) filp.offset length
    .ok ⟨r.totalBytesRead, { filp with offset := r.offset },
      overlay buffer 0 r.bytes.length (r.bytes.getD · 0), { k with disk := r.device }⟩

/-- `fops` is the table of the device, for an inode that is one. -/
def vfsRead (fops : FileOperations FsKernel) (sysfs : Sysfs) (k : FsKernel) (filp : File)
    (buffer : Nat → U8) (length : U64) : Except Crash (ReadResult FsKernel) :=
  if filp.inode = 0 then .error .outOfBounds
  else if (k.inode filp.inode).type = inodeDevice then
    let (bytes, k) := fops.read k filp.offset length
    let n : U64 := BitVec.ofNat 64 bytes.length
    .ok ⟨n, filp.advance n, overlay buffer 0 bytes.length (bytes.getD · 0), k⟩
  else if (k.inode filp.inode).type = inodeRegularFile then
    if (k.inode filp.inode).superblock = 0 then .ok ⟨-1, filp, buffer, k⟩
    else k.readFile sysfs filp buffer length
  else .ok ⟨-1, filp, buffer, k⟩

/-- A read of a file in RAM. -/
theorem vfsRead_ramfs {k : FsKernel} {ramFiles : List U64} {fops : FileOperations FsKernel}
    {sysfs : Sysfs} {filp : File} (h : k.RamKernel ramFiles) (hf : filp.inode ∈ ramFiles)
    (buffer : Nat → U8) (length : U64) :
    k.vfsRead fops sysfs filp buffer length = (do
      let r ← ramfsRead k.fs filp buffer length
      .ok ⟨r.bytesRead, r.filp, r.buffer, { k with fs := r.state }⟩) := by
  have hregular := h.regular hf
  have hdevice : (k.inode filp.inode).type ≠ inodeDevice := by
    rw [hregular]
    decide
  rw [FsKernel.vfsRead, if_neg (h.ne_zero hf), if_neg hdevice, if_pos hregular,
    if_neg (h.mounted hf), readFile, h.onRamfs _ hf]

end FsKernel

/-- The list after the offset of `filp` has changed. -/
def moveFile (files : List OpenFile) (filp : OpenFile) (offset : U64) : List OpenFile :=
  files.map fun f => if f = filp then { f with offset } else f

/-- What the calls of a task depend on besides the open files. `fops i` are the operations of
the inode at `i`, where that is a device, and `stack` is what buffers hold before they are
written. -/
structure UserTask where
  address : U64
  fops : U64 → FileOperations (Nat → U8)
  sysfs : Sysfs
  fuel : Nat
  lookupResult : VfsLookupResult
  stack : Nat → U8

namespace UserTask

variable (m : UserTask)

def deviceFops (i : U64) : FileOperations FsKernel :=
  (m.fops i).lift FsKernel.disk fun k disk => { k with disk }

def filpFind (s : FileTables FsKernel) (fd : U64) : Option OpenFile :=
  Persistos.filpFind (s.filesLh m.address) (fd.setWidth 32)

def moveFile (s : FileTables FsKernel) (filp : OpenFile) (offset : U64) : FileTables FsKernel :=
  s.setFiles m.address (Persistos.moveFile (s.filesLh m.address) filp offset)

def sysWrite (s : FileTables FsKernel) (fd : U64) (buffer : Nat → U8) (length : U64) :
    Except Crash (U64 × FileTables FsKernel) :=
  match m.filpFind s fd with
  | none => .ok (-1, s)
  | some filp => do
    let (writeResult, file, kernel) ← s.kernel.vfsWrite (m.deviceFops filp.inode)
      ⟨filp.inode, filp.offset⟩ buffer length
    .ok (writeResult, m.moveFile { s with kernel } filp file.offset)

def sysRead (s : FileTables FsKernel) (fd : U64) (buffer : Nat → U8) (length : U64) :
    Except Crash (U64 × (Nat → U8) × FileTables FsKernel) :=
  match m.filpFind s fd with
  | none => .ok (-1, buffer, s)
  | some filp => do
    let r ← s.kernel.vfsRead (m.deviceFops filp.inode) m.sysfs ⟨filp.inode, filp.offset⟩ buffer
      length
    .ok (r.bytesRead, r.buffer, m.moveFile { s with kernel := r.state } filp r.filp.offset)

/-- Only `SEEK_SET` is supported. -/
def sysLseek (s : FileTables FsKernel) (fd offset whence : U64) : U64 × FileTables FsKernel :=
  match m.filpFind s fd with
  | none => (-1, s)
  | some filp => if whence ≠ 0 then (-1, s) else (offset, m.moveFile s filp offset)

def calls : KernelCalls FsKernel := FsKernel.calls m.fuel m.lookupResult

end UserTask

/-- A program in the middle of its run. `written` is what it has handed to WRITE, with the
descriptors, and `executed` are the lines that a shell has executed, with their statuses. -/
structure Process where
  tables : FileTables FsKernel
  written : List (U64 × List U8)
  executed : List (List U8 × U64)

/-- Why a program does not go on. -/
inductive UserStop where
  | crash (e : Crash)
  | exited (exitCode : U8) (s : Process)

@[simp] theorem ok_bind_user {α β : Type} (a : α) (f : α → Except UserStop β) :
    (Except.ok a >>= f) = f a := rfl

@[simp] theorem error_bind_user {α β : Type} (e : UserStop) (f : α → Except UserStop β) :
    (Except.error e >>= f) = .error e := rfl

theorem bind_user_eq_ok {α β : Type} {x : Except UserStop α} {f : α → Except UserStop β} {b : β}
    (h : (x >>= f) = .ok b) : ∃ a, x = .ok a ∧ f a = .ok b := by
  cases x with
  | error e => cases h
  | ok a => exact ⟨a, rfl, h⟩

theorem mapError_eq_ok {ε α : Type} {x : Except Crash α} {f : Crash → ε} {a : α}
    (h : x.mapError f = .ok a) : x = .ok a := by
  cases x with
  | error e => cases h
  | ok b =>
    cases h
    rfl

namespace Process

variable (m : UserTask) (s : Process)

def write (fd : U64) (buffer : Nat → U8) (length : U64) : Except UserStop (U64 × Process) := do
  let (n, tables) ← (m.sysWrite s.tables fd buffer length).mapError .crash
  .ok (n, { s with tables, written := s.written ++ [(fd, slice buffer 0 length.toNat)] })

def read (fd : U64) (buffer : Nat → U8) (length : U64) :
    Except UserStop (U64 × (Nat → U8) × Process) := do
  let (n, buffer, tables) ← (m.sysRead s.tables fd buffer length).mapError .crash
  .ok (n, buffer, { s with tables })

def openFile (path : List U8) (options : U64) : Except UserStop (U64 × Process) := do
  let (fd, tables) ← (m.calls.sysOpen s.tables m.address path options).mapError .crash
  .ok (fd, { s with tables })

def close (fd : U64) : Except UserStop (U64 × Process) := do
  let (n, tables) ← (m.calls.sysClose s.tables m.address fd).mapError .crash
  .ok (n, { s with tables })

def dup2 (oldFd newFd : U64) : Except UserStop (U64 × Process) := do
  let (n, tables) ← (m.calls.sysDup2 s.tables m.address oldFd newFd).mapError .crash
  .ok (n, { s with tables })

def lseek (fd offset whence : U64) : U64 × Process :=
  let (n, tables) := m.sysLseek s.tables fd offset whence
  (n, { s with tables })

def exit {α : Type} (exitCode : U8) : Except UserStop α := .error (.exited exitCode s)

/-- `fputs` to the file with the descriptor `fd`. -/
def fputs (fd : U64) (str : List U8) : Except UserStop Process := do
  let (_, s) ← s.write m fd (str.getD · 0) (BitVec.ofNat 64 (strlen str))
  .ok s

def puts (str : List U8) : Except UserStop Process := s.fputs m 1 str

/-- A message on `stderr`, and the end. -/
def fail {α : Type} (messages : List (List U8)) : Except UserStop α := do
  let s ← messages.foldlM (fun s message => s.fputs m 2 message) s
  s.exit 1

theorem fail_ne_ok {α : Type} {m : UserTask} {s : Process} {messages : List (List U8)} {a : α} :
    s.fail m messages ≠ .ok a := by
  intro h
  obtain ⟨s', -, h⟩ := bind_user_eq_ok h
  cases h

end Process

/-- The program ends with the code. -/
def Exits {α : Type} (run : Except UserStop α) (exitCode : U8) : Prop :=
  ∃ s, run = .error (.exited exitCode s)

def isError (x : U64) : Bool := -4095 ≤ x.toInt ∧ x.toInt ≤ -1

/-- The first argument is the rest of `buf1`, up to its end. -/
def strcmp : List U8 → List U8 → U8
  | [], buf2 => 0 - charAt buf2
  | c :: rest, buf2 =>
    if c = charAt buf2 ∧ c ≠ 0 ∧ charAt buf2 ≠ 0 then strcmp rest buf2.tail else c - charAt buf2

def memcmp (s1 s2 : Nat → U8) : Nat → Int
  | 0 => 0
  | n + 1 =>
    if s1 0 ≠ s2 0 then if s1 0 < s2 0 then -1 else 1
    else memcmp (fun i => s1 (i + 1)) (fun i => s2 (i + 1)) n

/-- The loop of `parse_n_dec` for at most as many characters as the first argument says. -/
def parseNDecFrom : Nat → List U8 → Nat → U64 → U8 × U64
  | 0, _, c, tmp => (BitVec.ofNat 8 c, tmp)
  | n + 1, str, c, tmp =>
    if 0x30 ≤ charAt str ∧ charAt str ≤ 0x39 then
      parseNDecFrom n str.tail (c + 1) (tmp * 10 + (charAt str - 0x30).setWidth 64)
    else (BitVec.ofNat 8 c, tmp)

def parseNDec (str : List U8) (n : Nat) : U8 × U64 := parseNDecFrom n str 0 0

theorem isError_of_lt {x : U64} (h : x.toNat < 2 ^ 63) : isError x = false := by
  have hpos : 0 ≤ x.toInt := by
    rw [BitVec.toInt_eq_toNat_cond]
    split <;> omega
  rw [isError, decide_eq_false_iff_not]
  omega

theorem memcmp_eq_zero_iff {s1 s2 : Nat → U8} {n : Nat} :
    memcmp s1 s2 n = 0 ↔ slice s1 0 n = slice s2 0 n := by
  induction n generalizing s1 s2 with
  | zero => simp [memcmp, slice]
  | succ n ih =>
    have hcons : ∀ x : Nat → U8, slice x 0 (n + 1) = x 0 :: slice (fun i => x (i + 1)) 0 n := by
      intro x
      simp [slice, List.range_succ_eq_map, Function.comp_def]
    rw [memcmp, hcons, hcons, List.cons.injEq, ← ih]
    by_cases h : s1 0 = s2 0
    · simp [h]
    · rw [if_pos h]
      split <;> simp [h]

end Persistos
