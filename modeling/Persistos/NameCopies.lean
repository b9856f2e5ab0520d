import Persistos.ExecPacking
import Persistos.OpenFailures

/-! The names that OPEN, MKDIR and EXEC copy into arrays of fixed size, byte by byte. -/

namespace Persistos

open Theory

/-- The loop of `strcpy`. -/
def strcpyAt (memory : ByteMemory) (dest src : U64) : Nat → Nat → Except Crash ByteMemory
  | 0, _ => .error .endless
  | fuel + 1, i =>
    let memory := Function.update memory (dest + BitVec.ofNat 64 i) (memory (src + BitVec.ofNat 64 i))
    if memory (src + BitVec.ofNat 64 i) ≠ 0 then strcpyAt memory dest src fuel (i + 1)
    else .ok memory

/-- The characters before the first zero byte from `a` on. -/
def readString (memory : ByteMemory) (a : U64) : Nat → Except Crash (List U8)
  | 0 => .error .endless
  | fuel + 1 =>
    if memory a = 0 then .ok []
    else do
      let rest ← readString memory (a + 1) fuel
      .ok (memory a :: rest)

/-- A `strcpy` into an array of `size` bytes, with the memory around it. -/
structure NameCopy where
  before : ByteMemory
  after : ByteMemory
  array : U64
  size : Nat

/-- `copy` is the last copy of a name. -/
structure NamingKernel where
  kernel : FsKernel
  memory : ByteMemory
  copy : Option NameCopy

namespace NamingKernel

def copyName (s : NamingKernel) (fuel : Nat) (array : U64) (size : Nat) (name : U64) :
    Except Crash NamingKernel := do
  let memory ← strcpyAt s.memory array name fuel 0
  .ok { s with memory, copy := some ⟨s.memory, memory, array, size⟩ }

/-- The entry that `vfs_create` and `vfs_mkdir` begin with, under the string at `name`. -/
def nameEntry (s : NamingKernel) (fuel : Nat) (name : U64) :
    Except Crash (U64 × U64 × NamingKernel) := do
  let (dirInode, dirDentry, kernel) ← s.kernel.allocEntry
  let s ← { s with kernel }.copyName fuel dirDentry (dentryMaxNameLength + 1) name
  let field := (List.range (dentryMaxNameLength + 1)).map fun i =>
    s.memory (dirDentry + BitVec.ofNat 64 i)
  let kernel := s.kernel.modifyDentry dirDentry fun dentry => { dentry with name := field }
  .ok (dirInode, dirDentry, { s with kernel })

def vfsCreate (s : NamingKernel) (fuel : Nat) (parentDir name : U64) :
    Except Crash (U64 × NamingKernel) := do
  let (dirInode, dirDentry, s) ← s.nameEntry fuel name
  let (i, kernel) ← s.kernel.finishCreate parentDir dirInode dirDentry
  .ok (i, { s with kernel })

def vfsMkdir (s : NamingKernel) (fuel : Nat) (parentDir name : U64) :
    Except Crash (U64 × NamingKernel) := do
  let (dirInode, dirDentry, s) ← s.nameEntry fuel name
  let (_, kernel) ← s.kernel.createDirInode parentDir dirInode dirDentry
  .ok (dirInode, { s with kernel })

/-- The place of a suffix of a string. -/
def pointerTo (pathArg : U64) (path nameStart : List U8) : U64 :=
  pathArg + BitVec.ofNat 64 (path.length - nameStart.length)

/-- What OPEN uses of the kernel, with the path it reads. -/
def calls (fuel : Nat) (r : VfsLookupResult) (pathArg : U64) (path : List U8) :
    KernelCalls NamingKernel where
  vfsResolve s path := do
    let (lookupResult, kernel) ← s.kernel.vfsResolve fuel path r
    .ok (lookupResult, { s with kernel })
  vfsCreate s parentDir nameStart := s.vfsCreate fuel parentDir (pointerTo pathArg path nameStart)
  inodeType s i := (s.kernel.inode i).type
  vfsFtruncate s filp size := do
    let (n, kernel) ← s.kernel.vfsFtruncate filp size
    .ok (n, { s with kernel })
  fileAlloc s := do
    let (f, kernel) ← s.kernel.fileAlloc
    .ok (f, { s with kernel })
  fileFree s f := do
    let kernel ← s.kernel.fileFree f
    .ok { s with kernel }

/-- SYSCALL_OPEN by a task with the open files `files`. -/
def sysOpen (s : NamingKernel) (fuel : Nat) (r : VfsLookupResult) (files : U64 → List OpenFile)
    (t pathArg flags : U64) : Except Crash (U64 × NamingKernel) := do
  let path ← readString s.memory pathArg fuel
  let (n, s) ← (calls fuel r pathArg path).sysOpen ⟨s, files⟩ t path flags
  .ok (n, s.kernel)

/-- SYSCALL_MKDIR, which gets the page for its `name_buffer` from `kpageAlloc`. -/
def sysMkdir (s : NamingKernel) (fuel : Nat) (r : VfsLookupResult)
    (kpageAlloc : FsKernel → Except Crash U64) (pathArg : U64) :
    Except Crash (U64 × NamingKernel) := do
  let path ← readString s.memory pathArg fuel
  let (lookupResult, kernel) ← s.kernel.vfsResolve fuel path r
  let s := { s with kernel }
  if lookupResult.status = vfsResolveErrNotADir then .ok (-1, s)
  else if lookupResult.status = vfsResolveErrDoesntExist then .ok (-2, s)
  else if lookupResult.status = vfsResolveSuccessExists then .ok (-3, s)
  else if lookupResult.status = vfsResolveSuccessDoesntExist then do
    let nameBuffer ← kpageAlloc kernel
    let memory := copyBytes s.memory nameBuffer (pointerTo pathArg path lookupResult.nameStart)
      lookupResult.nameLength
    let memory := fillBytes memory (nameBuffer + BitVec.ofNat 64 lookupResult.nameLength) 0 1
    let (inode, s) ← { s with memory }.vfsMkdir fuel lookupResult.parentDirectory nameBuffer
    .ok (if inode ≠ 0 then 0 else -1, s)
  else .ok (lookupResult.status.setWidth 64, s)

/-- The offset and the size of the name in `struct task_struct`. -/
def taskNameOffset : U64 := 40
def taskNameMaxlen : Nat := 256

/-- SYSCALL_EXEC by the task whose `task_struct` is at `task`, until it has the name of
the program. It copies no other name, and fails no more. -/
def sysExec (s : NamingKernel) (fuel : Nat) (r : VfsLookupResult)
    (pathArg argv pathBuffer stackBuffer task : U64) : Except Crash (U64 × NamingKernel) := do
  let memory := fillBytes s.memory pathBuffer 0 4096
  let memory ← strcpyAt memory pathBuffer pathArg fuel 0
  let (memory, _, _, _) ← packStack fuel memory stackBuffer argv
  let path ← readString memory pathBuffer fuel
  let (lookupResult, kernel) ← s.kernel.vfsResolve fuel path r
  let s := { s with kernel, memory }
  if lookupResult.status ≠ vfsResolveSuccessExists then .ok (-1, s)
  else do
    let s ← s.copyName fuel (task + taskNameOffset) taskNameMaxlen pathBuffer
    .ok (0, s)

end NamingKernel

section Strings

variable {memory memory' : ByteMemory} {a dest src : U64} {fuel i size : Nat} {w path : List U8}

/-- A string that does not overlap its copy. -/
theorem strcpyAt_eq (hs : StringAt memory (src + BitVec.ofNat 64 i) w)
    (hb : src.toNat + (i + w.length + 1) ≤ 2 ^ 64) (hd : dest.toNat + (i + w.length + 1) ≤ 2 ^ 64)
    (hap : src.toNat + (i + w.length + 1) ≤ dest.toNat + i ∨
      dest.toNat + (i + w.length + 1) ≤ src.toNat + i)
    (hf : w.length < fuel) :
    strcpyAt memory dest src fuel i = .ok (copyBytes memory (dest + BitVec.ofNat 64 i)
      (src + BitVec.ofNat 64 i) (w.length + 1)) := by
  induction w generalizing memory fuel i with
  | nil =>
    obtain ⟨fuel, rfl⟩ := Nat.exists_eq_succ_of_ne_zero (Nat.ne_of_gt hf)
    have hzero : memory (src + BitVec.ofNat 64 i) = 0 := hs.bytes.1
    have hsrc := toNat_add_ofNat (a := src) (i := i) (by omega)
    have hdest := toNat_add_ofNat (a := dest) (i := i) (by omega)
    have hne : src + BitVec.ofNat 64 i ≠ dest + BitVec.ofNat 64 i := fun hh => by
      rw [hh, hdest] at hsrc
      simp only [List.length_nil] at hap
      omega
    rw [strcpyAt, Function.update_of_ne hne, if_neg (not_not_intro hzero)]
    rfl
  | cons c w ih =>
    obtain ⟨fuel, rfl⟩ := Nat.exists_eq_succ_of_ne_zero (Nat.ne_of_gt (Nat.zero_lt_of_lt hf))
    simp only [List.length_cons] at hb hd hap hf
    have hc : memory (src + BitVec.ofNat 64 i) = c := hs.bytes.1
    have hcz : c ≠ 0 := fun hh => hs.nonzero (hh ▸ List.mem_cons_self)
    have hsrc := toNat_add_ofNat (a := src) (i := i) (by omega)
    have hdest := toNat_add_ofNat (a := dest) (i := i) (by omega)
    have hne : src + BitVec.ofNat 64 i ≠ dest + BitVec.ofNat 64 i := fun hh => by
      rw [hh, hdest] at hsrc
      omega
    have hsucc (b : U64) : b + BitVec.ofNat 64 (i + 1) = b + BitVec.ofNat 64 i + 1 := by
      rw [BitVec.ofNat_add, ← BitVec.add_assoc]
      rfl
    have hsrc' := toNat_add_ofNat (a := src) (i := i + 1) (by omega)
    have hrest : BytesAt memory (src + BitVec.ofNat 64 (i + 1)) (w ++ [0]) := by
      rw [hsucc]
      exact hs.bytes.2
    have hsame : SameOn memory
        (Function.update memory (dest + BitVec.ofNat 64 i) (memory (src + BitVec.ofNat 64 i)))
        (src + BitVec.ofNat 64 (i + 1)).toNat
        ((src + BitVec.ofNat 64 (i + 1)).toNat + (w ++ [0]).length) := by
      intro x hx hx'
      refine Function.update_of_ne (fun hh => ?_) _ _
      rw [hh, hdest] at hx hx'
      simp only [List.length_append, List.length_singleton] at hx'
      omega
    have hnext := hrest.congr hsame (by simp; omega)
    rw [strcpyAt, Function.update_of_ne hne, if_pos (hc.symm ▸ hcz),
      ih ⟨hnext, fun hh => hs.nonzero (List.mem_cons_of_mem c hh)⟩ (by omega) (by omega)
        (by omega) (by omega), hsucc, hsucc]
    rfl

theorem readString_eq (hs : StringAt memory a w) (hf : w.length < fuel) :
    readString memory a fuel = .ok w := by
  induction w generalizing a fuel with
  | nil =>
    obtain ⟨fuel, rfl⟩ := Nat.exists_eq_succ_of_ne_zero (Nat.ne_of_gt hf)
    rw [readString, if_pos hs.bytes.1]
  | cons c w ih =>
    obtain ⟨fuel, rfl⟩ := Nat.exists_eq_succ_of_ne_zero (Nat.ne_of_gt (Nat.zero_lt_of_lt hf))
    have hc : memory a = c := hs.bytes.1
    have hcz : c ≠ 0 := fun hh => hs.nonzero (hh ▸ List.mem_cons_self)
    have hrest : StringAt memory (a + 1) w :=
      ⟨hs.bytes.2, fun hh => hs.nonzero (List.mem_cons_of_mem c hh)⟩
    rw [readString, if_neg (hc.symm ▸ hcz), ih hrest (by simpa using hf), hc]
    rfl

theorem stringAt_suffix (hs : StringAt memory a path) (hw : w <:+ path) :
    StringAt memory (NamingKernel.pointerTo a path w) w := by
  obtain ⟨front, rfl⟩ := hw
  have hlen : (front ++ w).length - w.length = front.length := by
    rw [List.length_append]
    omega
  rw [NamingKernel.pointerTo, hlen]
  refine ⟨?_, fun hh => hs.nonzero (List.mem_append_right front hh)⟩
  have hb := hs.bytes
  rw [List.append_assoc] at hb
  clear hs hlen
  induction front generalizing a with
  | nil => simpa using hb
  | cons c front ih =>
    rw [List.length_cons, add_ofNat_succ]
    exact ih hb.2

end Strings

/-- The array holds the name and a zero byte behind it, and all else is as before. -/
structure NameCopy.Stores (c : NameCopy) (name : List U8) : Prop where
  string : StringAt c.after c.array name
  fits : name.length < c.size
  frame : ∀ x : U64, x.toNat < c.array.toNat ∨ c.array.toNat + c.size ≤ x.toNat →
    c.after x = c.before x

namespace NamingKernel

variable {s s' : NamingKernel} {fuel : Nat} {r : VfsLookupResult} {name array : U64} {w path : List U8}

theorem copyName_stores {size : Nat} (hs : StringAt s.memory name w) (hf : w.length < fuel)
    (harray : array.toNat + size ≤ 2 ^ 64)
    (hap : Apart name (w.length + 1) array.toNat (array.toNat + size))
    (h : s.copyName fuel array size name = .ok s') :
    s'.kernel = s.kernel ∧ ∃ c, s'.copy = some c ∧ (c.Stores w ↔ w.length < size) := by
  obtain ⟨memory, hcopy, h⟩ := bind_eq_ok h
  obtain rfl := Except.ok.inj h
  refine ⟨rfl, _, rfl, NameCopy.Stores.fits, fun hfits => ?_⟩
  have hb := hap.bound
  have ho := hap.outside
  have hs₀ : StringAt s.memory (name + BitVec.ofNat 64 0) w := by simpa using hs
  have heq : strcpyAt s.memory array name fuel 0 = _ :=
    strcpyAt_eq hs₀ (by omega) (by omega) (by omega) hf
  obtain rfl := Except.ok.inj (heq.symm.trans hcopy)
  have hzero (a : U64) : a + BitVec.ofNat 64 0 = a := BitVec.add_zero a
  simp only [hzero]
  refine ⟨hs.copied (copyBytes_copied (by omega) (by omega) (by omega)), hfits, ?_⟩
  intro x hx
  dsimp only at hx
  exact copyBytes_outside (by omega) (by omega)

theorem slot_bounds {a : SlabAllocator} {live : List U64} (h : SlabInv a live) {x : U64}
    (hx : x ∈ live) : ∃ p ∈ a.pages, p.toNat ≤ x.toNat ∧
      x.toNat + a.objectSize.toNat ≤ p.toNat + 4096 ∧ p.toNat + 4096 ≤ 2 ^ 64 := by
  obtain ⟨p, hp, n, hn, -, rfl⟩ := (h.mem_live x).mp hx
  have halign := h.aligned p hp
  have hat := h.sized.slotAt_toNat halign hn
  have hend := h.sized.slot_end_le hn
  have hlt := p.isLt
  simp only [PageAligned] at halign
  exact ⟨p, hp, by omega, by omega, by omega⟩

/-- The string at `name` is in no page that a dentry may be in. -/
def OffDentries (k : FsKernel) (name : U64) (length : Nat) : Prop :=
  ∀ p, p ∈ k.fs.dentries.allocator.pages ∨ p ∈ k.fs.supply.pages →
    Apart name length p.toNat (p.toNat + 4096)

structure NewName (s s' : NamingKernel) (dirInode : U64) (w : List U8) : Prop where
  copy : ∃ c, s'.copy = some c ∧ (c.Stores w ↔ w.length < dentryMaxNameLength + 1)
  inode : dirInode ≠ 0
  typeOf : ∀ y, s.kernel.Known y → s'.kernel.typeOf y = s.kernel.typeOf y

theorem nameEntry_newName {dirInode dirDentry : U64} (hk : s.kernel.Slabs)
    (hs : StringAt s.memory name w) (hf : w.length < fuel)
    (hb : name.toNat + (w.length + 1) ≤ 2 ^ 64)
    (hout : OffDentries s.kernel name (w.length + 1))
    (h : s.nameEntry fuel name = .ok (dirInode, dirDentry, s')) :
    NewName s s' dirInode w := by
  obtain ⟨⟨i, d, k₂⟩, ha, h⟩ := bind_eq_ok h
  obtain ⟨s₂, hcopy, h⟩ := bind_eq_ok h
  simp only [Except.ok.injEq, Prod.mk.injEq] at h
  obtain ⟨rfl, rfl, rfl⟩ := h
  obtain ⟨⟨i', k₁⟩, hinode, ha⟩ := bind_eq_ok ha
  obtain ⟨⟨d', k₂'⟩, hdentry, ha⟩ := bind_eq_ok ha
  simp only [Except.ok.injEq, Prod.mk.injEq] at ha
  obtain ⟨rfl, rfl, rfl⟩ := ha
  have h₁ := hk.inodeAlloc hinode
  have h₂ := h₁.slabs.dentryAlloc hdentry
  have hsize : k₂'.fs.dentries.allocator.objectSize.toNat = 96 := by
    rw [h₂.slabs.dentryPages.size]
    rfl
  obtain ⟨p, hp, hlo, hhi, hend⟩ := slot_bounds h₂.slabs.dentries.inv
    (h₂.slots.mem_iff.mpr List.mem_cons_self)
  have hpage : p ∈ s.kernel.fs.dentries.allocator.pages ∨ p ∈ s.kernel.fs.supply.pages := by
    have hmem := h₂.pages hp
    rw [h₁.dentries] at hmem
    exact (List.mem_append.mp hmem).imp_right fun hh => h₁.supply hh
  have hap := (hout p hpage).outside
  have harray : Apart name (w.length + 1) d'.toNat (d'.toNat + (dentryMaxNameLength + 1)) := by
    have hmax : dentryMaxNameLength = 63 := rfl
    exact ⟨hb, by omega⟩
  have hmax : dentryMaxNameLength = 63 := rfl
  obtain ⟨hkernel, hstores⟩ := copyName_stores (s := { s with kernel := k₂' }) hs hf (by omega)
    harray hcopy
  refine ⟨hstores, ?_, ?_⟩
  · exact FsKernel.slot_ne_zero h₁.slabs.inodes.inv (h₁.slots.mem_iff.mpr List.mem_cons_self)
  · intro y hy
    have hinode₂ : k₂'.inode y = s.kernel.inode y :=
      (congrArg (fun slab => slab.objects y) h₂.inodes).trans (h₁.kept y hy)
    have hsuper : k₂'.superblocks = s.kernel.superblocks := h₂.superblocks.trans h₁.superblocks
    change s₂.kernel.superblocks (s₂.kernel.inode y).superblock = _
    rw [hkernel, hinode₂, hsuper]
    rfl

theorem createFileInode_eq_zero_iff {k k' : FsKernel} {parentDir i d n : U64}
    (h : k.createFileInode parentDir i d = .ok (n, k')) : n = 0 ↔ k.typeOf parentDir = .ramfs := by
  rw [FsKernel.createFileInode] at h
  split at h
  · next htype =>
    obtain ⟨⟨n', dir, fs⟩, hramfs, h⟩ := bind_eq_ok h
    obtain ⟨⟨e, supply, records⟩, -, hramfs⟩ := bind_eq_ok hramfs
    cases hramfs
    cases h
    exact iff_of_true rfl htype
  · next htype =>
    cases h
    refine iff_of_false (by decide) (fun hh => ?_)
    rw [htype] at hh
    cases hh
  · next sb partition htype =>
    cases h
    refine iff_of_false (by decide) (fun hh => ?_)
    rw [htype] at hh
    cases hh

theorem finishCreate_eq_zero_iff {k k' : FsKernel} {parentDir dirInode dirDentry i : U64}
    (hi : dirInode ≠ 0) (h : k.finishCreate parentDir dirInode dirDentry = .ok (i, k')) :
    i = 0 ↔ k.typeOf parentDir ≠ .ramfs := by
  obtain ⟨⟨n, k₁⟩, hcreate, h⟩ := bind_eq_ok h
  rw [ne_eq, ← createFileInode_eq_zero_iff hcreate]
  by_cases hn : n ≠ 0
  · obtain ⟨k₂, -, h⟩ := bind_eq_ok ((if_pos hn).symm.trans h)
    obtain ⟨k₃, -, h⟩ := bind_eq_ok h
    cases h
    exact iff_of_true rfl hn
  · cases (if_neg hn).symm.trans h
    exact iff_of_false hi hn

theorem vfsCreate_newName {parentDir i : U64} (hk : s.kernel.Slabs) (hp : s.kernel.Known parentDir)
    (hs : StringAt s.memory name w) (hf : w.length < fuel)
    (hb : name.toNat + (w.length + 1) ≤ 2 ^ 64)
    (hout : OffDentries s.kernel name (w.length + 1))
    (h : s.vfsCreate fuel parentDir name = .ok (i, s')) :
    (i = 0 ↔ s.kernel.typeOf parentDir ≠ .ramfs) ∧
      ∃ c, s'.copy = some c ∧ (c.Stores w ↔ w.length < dentryMaxNameLength + 1) := by
  obtain ⟨⟨dirInode, dirDentry, s₁⟩, hentry, h⟩ := bind_eq_ok h
  have hnew := nameEntry_newName hk hs hf hb hout hentry
  obtain ⟨⟨j, k₁⟩, hfinish, h⟩ := bind_eq_ok h
  cases h
  rw [← hnew.typeOf parentDir hp]
  exact ⟨finishCreate_eq_zero_iff hnew.inode hfinish, hnew.copy⟩

theorem vfsMkdir_newName {parentDir i : U64} (hk : s.kernel.Slabs)
    (hs : StringAt s.memory name w) (hf : w.length < fuel)
    (hb : name.toNat + (w.length + 1) ≤ 2 ^ 64)
    (hout : OffDentries s.kernel name (w.length + 1))
    (h : s.vfsMkdir fuel parentDir name = .ok (i, s')) :
    i ≠ 0 ∧ ∃ c, s'.copy = some c ∧ (c.Stores w ↔ w.length < dentryMaxNameLength + 1) := by
  obtain ⟨⟨dirInode, dirDentry, s₁⟩, hentry, h⟩ := bind_eq_ok h
  have hnew := nameEntry_newName hk hs hf hb hout hentry
  obtain ⟨⟨n, k₁⟩, -, h⟩ := bind_eq_ok h
  cases h
  exact ⟨hnew.inode, hnew.copy⟩

end NamingKernel

/-- The calls that store a name. -/
inductive NamingCall where
  | openFile (files : U64 → List OpenFile) (t pathArg flags : U64)
  | mkdir (kpageAlloc : FsKernel → Except Crash U64) (pathArg : U64)
  | exec (pathArg argv pathBuffer stackBuffer task : U64)

namespace NamingCall

def run (fuel : Nat) (r : VfsLookupResult) (s : NamingKernel) :
    NamingCall → Except Crash (U64 × NamingKernel)
  | openFile files t pathArg flags => s.sysOpen fuel r files t pathArg flags
  | mkdir kpageAlloc pathArg => s.sysMkdir fuel r kpageAlloc pathArg
  | exec pathArg argv pathBuffer stackBuffer task =>
    s.sysExec fuel r pathArg argv pathBuffer stackBuffer task

def pathArg : NamingCall → U64
  | openFile _ _ pathArg _ => pathArg
  | mkdir _ pathArg => pathArg
  | exec pathArg _ _ _ _ => pathArg

/-- The size of the array that the name goes to. -/
def size : NamingCall → Nat
  | openFile .. => dentryMaxNameLength + 1
  | mkdir .. => dentryMaxNameLength + 1
  | exec .. => NamingKernel.taskNameMaxlen

/-- The name that a call is to store. -/
def name (path : List U8) : NamingCall → List U8
  | openFile .. => (components slash path).getLast?.getD []
  | mkdir .. => (components slash path).getLast?.getD []
  | exec .. => path

/-- A call that comes to the place where it keeps a name. -/
def Stores (fuel : Nat) (r : VfsLookupResult) (k : FsKernel) (path : List U8) : NamingCall → Prop
  | openFile _ _ _ flags => flags &&& oCreat ≠ 0 ∧ ∃ r' k', k.vfsResolve fuel path r = .ok (r', k') ∧
    r'.status = vfsResolveSuccessDoesntExist ∧ k'.typeOf r'.parentDirectory = .ramfs
  | mkdir .. => ∃ r' k', k.vfsResolve fuel path r = .ok (r', k') ∧
    r'.status = vfsResolveSuccessDoesntExist
  | exec .. => ∃ r' k', k.vfsResolve fuel path r = .ok (r', k') ∧
    r'.status = vfsResolveSuccessExists

/-- The call returns an error, or the name it stores is the one it was given, in its array. -/
def Kept (c : NamingCall) (path : List U8) (res : U64) (s' : NamingKernel) : Prop :=
  res.toInt < 0 ∨ ∀ copy, s'.copy = some copy → copy.Stores (c.name path)

end NamingCall

/-- A page for a buffer is nobody else's. -/
structure FreshBuffer (kpageAlloc : FsKernel → Except Crash U64) : Prop where
  aligned : ∀ k p, kpageAlloc k = .ok p → PageAligned p
  high : ∀ k p, kpageAlloc k = .ok p → FsKernel.userEnd ≤ p.toNat
  fresh : ∀ k p, kpageAlloc k = .ok p →
    p ∉ k.fs.supply.pages ∧ p ∉ k.fs.dentries.allocator.pages

/-- The buffers of EXEC, which the arguments fit, and the task. -/
structure ExecBuffers (memory : ByteMemory) (argv pathBuffer stackBuffer task : U64) : Prop where
  path : PageAligned pathBuffer
  stack : PageAligned stackBuffer
  pathHigh : FsKernel.userEnd ≤ pathBuffer.toNat
  stackHigh : FsKernel.userEnd ≤ stackBuffer.toNat
  ne : pathBuffer ≠ stackBuffer
  bound : stackBuffer.toNat + 4096 < 2 ^ 64
  taskBound : task.toNat + 296 ≤ 2 ^ 64
  taskPath : task.toNat + 296 ≤ pathBuffer.toNat ∨ pathBuffer.toNat + 4096 ≤ task.toNat
  args : ∃ strings, CallerArgs memory stackBuffer argv strings ∧
    CallerArgs memory pathBuffer argv strings

namespace NamingCall

def Buffers (s : NamingKernel) : NamingCall → Prop
  | openFile .. => True
  | mkdir kpageAlloc _ => FreshBuffer kpageAlloc
  | exec _ argv pathBuffer stackBuffer task =>
    ExecBuffers s.memory argv pathBuffer stackBuffer task

/-- A program's path that is shorter than a page. -/
structure Given (c : NamingCall) (s : NamingKernel) (fuel : Nat) (path : List U8) : Prop where
  inv : s.kernel.Inv
  fuel : 4096 ≤ fuel
  string : StringAt s.memory c.pathArg path
  short : path.length < 4096
  user : c.pathArg.toNat + 4096 ≤ FsKernel.userEnd
  first : s.copy = none
  buffers : c.Buffers s

variable {s s' : NamingKernel} {fuel : Nat} {r : VfsLookupResult} {path : List U8} {res : U64}

theorem offDentries {k : FsKernel} (hk : k.Slabs) {a : U64} {n : Nat}
    (ha : a.toNat + n ≤ FsKernel.userEnd) : NamingKernel.OffDentries k a n := by
  intro p hp
  have hhigh : FsKernel.userEnd ≤ p.toNat :=
    hp.elim (hk.dentryPages.pages p) (hk.dentryPages.supply p)
  have hlt := p.isLt
  exact ⟨by omega, .inl (by omega)⟩

/-- The name at the end of a path, where it stands. -/
theorem missing_name {k : FsKernel} {r' : VfsLookupResult} {a : U64}
    (hs : StringAt s.memory a path) (ha : a.toNat + path.length < 2 ^ 64)
    (hm : FsKernel.Missing k r' path) :
    StringAt s.memory (NamingKernel.pointerTo a path r'.nameStart) r'.nameStart ∧
      (components slash path).getLast?.getD [] = r'.nameStart ∧
      r'.nameLength = r'.nameStart.length ∧
      (NamingKernel.pointerTo a path r'.nameStart).toNat + r'.nameStart.length =
        a.toNat + path.length := by
  have hlen : r'.nameStart.length ≤ path.length := hm.suffix.length_le
  have hz : 0 ∉ r'.nameStart := fun hh => hs.nonzero (hm.suffix.subset hh)
  have hname := hm.name
  have hlength := hm.nameLength
  rw [cString_of_notMem hs.nonzero, cString_of_notMem hz] at hname
  rw [cString_of_notMem hz] at hlength
  refine ⟨stringAt_suffix hs hm.suffix, by rw [hname]; rfl, hlength, ?_⟩
  rw [NamingKernel.pointerTo, toNat_add_ofNat (by omega)]
  omega

theorem kept_of_none {c : NamingCall} (h : s'.copy = none) : c.Kept path res s' := by
  refine .inr fun copy hcopy => ?_
  rw [h] at hcopy
  cases hcopy

theorem kept_iff_of_copy {c : NamingCall} {n : Nat} (hres : ¬res.toInt < 0)
    (h : ∃ copy, s'.copy = some copy ∧ (copy.Stores (c.name path) ↔ (c.name path).length < n)) :
    c.Kept path res s' ↔ (c.name path).length < n := by
  obtain ⟨copy, hcopy, hstores⟩ := h
  rw [← hstores, Kept, hcopy]
  constructor
  · intro hk
    exact hk.resolve_left hres copy rfl
  · intro hs
    refine .inr fun copy' hcopy' => ?_
    obtain rfl := Option.some.inj hcopy'
    exact hs

/-- OPEN of an entry that exists copies no name. -/
theorem openExisting_copy {a : U64} {files : FileTables NamingKernel} {t inode flags : U64}
    {s₁ : FileTables NamingKernel}
    (h : (NamingKernel.calls fuel r a path).openExisting files t inode flags = .ok (res, s₁)) :
    s₁.kernel.copy = files.kernel.copy := by
  obtain ⟨⟨filp, s₂⟩, hlink, h⟩ := bind_eq_ok h
  obtain ⟨⟨address, k₁⟩, halloc, hlink⟩ := bind_eq_ok hlink
  cases hlink
  obtain ⟨⟨f, k₂⟩, -, halloc⟩ := bind_eq_ok halloc
  cases halloc
  dsimp only at h
  split at h
  · obtain ⟨⟨n, k₃⟩, htruncate, h⟩ := bind_eq_ok h
    obtain ⟨⟨n', k₄⟩, -, htruncate⟩ := bind_eq_ok htruncate
    cases htruncate
    dsimp only at h
    split at h <;> cases h <;> rfl
  · cases h
    rfl

theorem openCreated_kept {files : FileTables NamingKernel} {tasks : U64 → List OpenFile}
    {r' : VfsLookupResult} {t a flags : U64} {s₁ : FileTables NamingKernel}
    (hk : files.kernel.kernel.Inv) (hm : FsKernel.Missing files.kernel.kernel r' path)
    (hs : StringAt files.kernel.memory a path) (hshort : path.length < 4096) (hf : 4096 ≤ fuel)
    (huser : a.toNat + 4096 ≤ FsKernel.userEnd)
    (h : (NamingKernel.calls fuel r a path).openCreated files t r'.parentDirectory r'.nameStart =
      .ok (res, s₁)) :
    Kept (.openFile tasks t a flags) path res s₁.kernel ↔
      (files.kernel.kernel.typeOf r'.parentDirectory = .ramfs →
        ((openFile tasks t a flags).name path).length < dentryMaxNameLength + 1) := by
  have hend : FsKernel.userEnd = 0x800000000000 := rfl
  obtain ⟨hstring, hname, -, hplace⟩ := missing_name hs (by omega) hm
  have hlen : r'.nameStart.length ≤ path.length := hm.suffix.length_le
  obtain ⟨⟨i, k₁⟩, hcreate, h⟩ := bind_eq_ok h
  have hout := offDentries hk.toSlabs (a := NamingKernel.pointerTo a path r'.nameStart)
    (n := r'.nameStart.length + 1) (by omega)
  obtain ⟨hi, hcopy⟩ := NamingKernel.vfsCreate_newName hk.toSlabs hm.known hstring (by omega)
    (by omega) hout hcreate
  by_cases hz : i = 0
  · cases (if_pos hz).symm.trans h
    exact iff_of_true (.inl (by decide)) (fun hh => absurd hh (hi.mp hz))
  · have hramfs := not_not.mp fun hh => hz (hi.mpr hh)
    obtain ⟨⟨filp, s₂⟩, hlink, h⟩ := bind_eq_ok ((if_neg hz).symm.trans h)
    cases h
    obtain ⟨⟨address, k₂⟩, halloc, hlink⟩ := bind_eq_ok hlink
    cases hlink
    obtain ⟨⟨f, k₃⟩, -, halloc⟩ := bind_eq_ok halloc
    cases halloc
    have hname' : (openFile tasks t a flags).name path = r'.nameStart := hname
    refine (kept_iff_of_copy (FsKernel.fd_not_negative _) ?_).trans ⟨fun hh _ => hh, fun hh => hh hramfs⟩
    rw [hname']
    exact hcopy

theorem openFile_kept {files : U64 → List OpenFile} {t a flags : U64}
    (hg : Given (.openFile files t a flags) s fuel path)
    (h : s.sysOpen fuel r files t a flags = .ok (res, s')) :
    Kept (.openFile files t a flags) path res s' ↔
      (Stores fuel r s.kernel path (.openFile files t a flags) →
        ((openFile files t a flags).name path).length < dentryMaxNameLength + 1) := by
  have hshort := hg.short
  have hfuel := hg.fuel
  have hread := readString_eq hg.string (by omega : path.length < fuel)
  rw [NamingKernel.sysOpen, show readString s.memory a fuel = .ok path from hread, ok_bind] at h
  obtain ⟨⟨n, s₁⟩, hopen, h⟩ := bind_eq_ok h
  cases h
  obtain ⟨⟨r', s₂⟩, hcall, hopen⟩ := bind_eq_ok hopen
  obtain ⟨⟨r'', k₁⟩, hresolve, hcall⟩ := bind_eq_ok hcall
  cases hcall
  have hres := FsKernel.vfsResolve_resolved hg.inv hresolve
  have hstatus : Stores fuel r s.kernel path (.openFile files t a flags) →
      flags &&& oCreat ≠ 0 ∧ r'.status = vfsResolveSuccessDoesntExist ∧
        k₁.typeOf r'.parentDirectory = .ramfs := by
    rintro ⟨hflag, r'', k₂, hresolve', hmissing, hramfs⟩
    cases hresolve.symm.trans hresolve'
    exact ⟨hflag, hmissing, hramfs⟩
  have hother : ∀ {st : U8}, r'.status = st → st ≠ vfsResolveSuccessDoesntExist →
      ¬Stores fuel r s.kernel path (.openFile files t a flags) :=
    fun hs hne hh => hne (hs.symm.trans (hstatus hh).2.1)
  dsimp only at hopen
  split at hopen
  · next hs =>
    cases hopen
    exact iff_of_true (.inl (by decide)) (fun hh => absurd hh (hother hs (by decide)))
  split at hopen
  · next hs =>
    cases hopen
    exact iff_of_true (.inl (by decide)) (fun hh => absurd hh (hother hs (by decide)))
  split at hopen
  · next hs =>
    split at hopen
    · next hflag =>
      have hkept : Kept (.openFile files t a flags) path res s₁.kernel ↔
          (k₁.typeOf r'.parentDirectory = .ramfs →
            ((openFile files t a flags).name path).length < dentryMaxNameLength + 1) :=
        openCreated_kept hres.inv (hres.missing hs) hg.string hshort hfuel hg.user hopen
      refine hkept.trans ?_
      exact ⟨fun hh hst => hh (hstatus hst).2.2,
        fun hh hramfs => hh ⟨hflag, r', k₁, hresolve, hs, hramfs⟩⟩
    · next hflag =>
      cases hopen
      exact iff_of_true (.inl (by decide)) (fun hh => absurd (hstatus hh).1 hflag)
  split at hopen
  · next hs =>
    refine iff_of_true (kept_of_none ?_) (fun hh => absurd hh (hother hs (by decide)))
    exact (openExisting_copy hopen).trans hg.first
  · cases hopen

/-- The buffer of MKDIR holds the name. -/
theorem nameBuffer_string {memory : ByteMemory} {src buffer : U64} {w : List U8}
    (hs : StringAt memory src w) (hsrc : src.toNat + (w.length + 1) ≤ FsKernel.userEnd)
    (hlow : FsKernel.userEnd ≤ buffer.toNat) (hbuffer : buffer.toNat + (w.length + 1) ≤ 2 ^ 64) :
    StringAt (fillBytes (copyBytes memory buffer src w.length)
      (buffer + BitVec.ofNat 64 w.length) 0 1) buffer w := by
  have hplace := toNat_add_ofNat (a := buffer) (i := w.length) (by omega)
  have hcopied : Copied memory (copyBytes memory buffer src w.length) src buffer w.length :=
    copyBytes_copied (by omega) (by omega) (by omega)
  refine ⟨bytesAt_append.mpr ⟨?_, Function.update_self _ _ _, trivial⟩, hs.nonzero⟩
  refine ((bytesAt_append.mp hs.bytes).1.copied hcopied).congr ?_ (by omega)
  exact fun x hx hx' => fillBytes_outside (by omega) (by omega)

theorem mkdir_kept {kpageAlloc : FsKernel → Except Crash U64} {a : U64}
    (hg : Given (.mkdir kpageAlloc a) s fuel path)
    (h : s.sysMkdir fuel r kpageAlloc a = .ok (res, s')) :
    Kept (.mkdir kpageAlloc a) path res s' ↔
      (Stores fuel r s.kernel path (.mkdir kpageAlloc a) →
        ((mkdir kpageAlloc a).name path).length < dentryMaxNameLength + 1) := by
  have hshort := hg.short
  have hfuel := hg.fuel
  have huser : a.toNat + 4096 ≤ FsKernel.userEnd := hg.user
  have hend : FsKernel.userEnd = 0x800000000000 := rfl
  have hread := readString_eq hg.string (by omega : path.length < fuel)
  rw [NamingKernel.sysMkdir, show readString s.memory a fuel = .ok path from hread, ok_bind] at h
  obtain ⟨⟨r', k₁⟩, hresolve, h⟩ := bind_eq_ok h
  have hres := FsKernel.vfsResolve_resolved hg.inv hresolve
  have hstatus : Stores fuel r s.kernel path (.mkdir kpageAlloc a) →
      r'.status = vfsResolveSuccessDoesntExist := by
    rintro ⟨r'', k₂, hresolve', hmissing⟩
    cases hresolve.symm.trans hresolve'
    exact hmissing
  have hother : ∀ {st : U8}, r'.status = st → st ≠ vfsResolveSuccessDoesntExist →
      ¬Stores fuel r s.kernel path (.mkdir kpageAlloc a) :=
    fun hs hne hh => hne (hs.symm.trans (hstatus hh))
  dsimp only at h
  split at h
  · next hs =>
    cases h
    exact iff_of_true (.inl (by decide)) (fun hh => absurd hh (hother hs (by decide)))
  split at h
  · next hs =>
    cases h
    exact iff_of_true (.inl (by decide)) (fun hh => absurd hh (hother hs (by decide)))
  split at h
  · next hs =>
    cases h
    exact iff_of_true (.inl (by decide)) (fun hh => absurd hh (hother hs (by decide)))
  split at h
  · next hs =>
    obtain ⟨buffer, hbuffer, h⟩ := bind_eq_ok h
    obtain ⟨⟨i, s₁⟩, hmkdir, h⟩ := bind_eq_ok h
    cases h
    have hm := hres.missing hs
    have hbound : a.toNat + path.length < 2 ^ 64 := by omega
    obtain ⟨hstring, hname, hlength, hplace⟩ := missing_name hg.string hbound hm
    have hplace : (NamingKernel.pointerTo a path r'.nameStart).toNat + r'.nameStart.length =
        a.toNat + path.length := hplace
    have hstring : StringAt s.memory (NamingKernel.pointerTo a path r'.nameStart) r'.nameStart :=
      hstring
    have hlen : r'.nameStart.length ≤ path.length := hm.suffix.length_le
    have hfresh : FreshBuffer kpageAlloc := hg.buffers
    have halign := hfresh.aligned _ _ hbuffer
    have hhigh := hfresh.high _ _ hbuffer
    have hlt := buffer.isLt
    simp only [PageAligned] at halign
    have hcopied := nameBuffer_string hstring (by omega) hhigh (by omega)
    rw [← hlength] at hcopied
    have hout : NamingKernel.OffDentries k₁ buffer (r'.nameStart.length + 1) := by
      intro p hp
      have hpage : PageAligned p ∧ p ≠ buffer := by
        rcases hp with hp | hp
        · exact ⟨hres.inv.dentries.inv.aligned p hp,
            fun hh => (hfresh.fresh _ _ hbuffer).2 (hh ▸ hp)⟩
        · exact ⟨k₁.fs.supply.aligned p hp, fun hh => (hfresh.fresh _ _ hbuffer).1 (hh ▸ hp)⟩
      have hne : p.toNat ≠ buffer.toNat := fun hh => hpage.2 (BitVec.eq_of_toNat_eq hh)
      have hp' := hpage.1
      simp only [PageAligned] at hp'
      exact ⟨by omega, by omega⟩
    obtain ⟨hi, hcopy⟩ := NamingKernel.vfsMkdir_newName hres.inv.toSlabs hcopied (by omega)
      (by omega) hout hmkdir
    rw [if_pos hi]
    have hname' : (mkdir kpageAlloc a).name path = r'.nameStart := hname
    have hst : Stores fuel r s.kernel path (.mkdir kpageAlloc a) := ⟨r', k₁, hresolve, hs⟩
    refine (kept_iff_of_copy (by decide) ?_).trans ⟨fun hh _ => hh, fun hh => hh hst⟩
    rw [hname']
    exact hcopy
  · next hs =>
    cases h
    exact iff_of_true (kept_of_none hg.first) (fun hh => absurd (hstatus hh) hs)

/-- The path is in its buffer when the arguments are packed. -/
theorem packed_args {memory : ByteMemory} {a argv pathBuffer stackBuffer task : U64}
    (hb : ExecBuffers memory argv pathBuffer stackBuffer task) (hs : StringAt memory a path)
    (hshort : path.length < 4096) (huser : a.toNat + 4096 ≤ FsKernel.userEnd)
    (hfuel : 4096 ≤ fuel) :
    ∃ memory₁ memory₂ relocated sp strings,
      strcpyAt (fillBytes memory pathBuffer 0 4096) pathBuffer a fuel 0 = .ok memory₁ ∧
      packStack fuel memory₁ stackBuffer argv = .ok (memory₂, strings.length, relocated, sp) ∧
      StringAt memory₂ pathBuffer path ∧ ArgVector memory argv strings ∧
      PackedPage memory₂ stackBuffer relocated sp (strings.map Prod.snd) := by
  have hend : FsKernel.userEnd = 0x800000000000 := rfl
  obtain ⟨strings, hargs, hargs'⟩ := hb.args
  have hpathHigh := hb.pathHigh
  have hstackBound := hb.bound
  have hpathAlign := hb.path
  have hstackAlign := hb.stack
  have hpathLt := pathBuffer.isLt
  have hne : pathBuffer.toNat ≠ stackBuffer.toNat := fun hh => hb.ne (BitVec.eq_of_toNat_eq hh)
  simp only [PageAligned] at hpathAlign hstackAlign
  have hfill : ∀ x : U64, x.toNat < pathBuffer.toNat ∨ pathBuffer.toNat + 4096 ≤ x.toNat →
      fillBytes memory pathBuffer 0 4096 x = memory x :=
    fun x hx => fillBytes_outside (by omega) hx
  have hzero (b : U64) : b + BitVec.ofNat 64 0 = b := BitVec.add_zero b
  have hstring : StringAt (fillBytes memory pathBuffer 0 4096) (a + BitVec.ofNat 64 0) path := by
    rw [hzero]
    exact hs.apart ⟨by omega, by omega⟩ hfill
  have heq : strcpyAt (fillBytes memory pathBuffer 0 4096) pathBuffer a fuel 0 = _ :=
    strcpyAt_eq hstring (by omega) (by omega) (by omega) (by omega)
  rw [hzero, hzero] at heq
  rw [hzero] at hstring
  have hpath : StringAt _ pathBuffer path :=
    hstring.copied (copyBytes_copied (by omega) (by omega) (by omega))
  have hout : ∀ x : U64, x.toNat < pathBuffer.toNat ∨ pathBuffer.toNat + 4096 ≤ x.toNat →
      copyBytes (fillBytes memory pathBuffer 0 4096) pathBuffer a (path.length + 1) x =
        memory x :=
    fun x hx => (copyBytes_outside (by omega) (by omega)).trans (hfill x hx)
  have hcaller : CallerArgs (copyBytes (fillBytes memory pathBuffer 0 4096) pathBuffer a
      (path.length + 1)) stackBuffer argv strings :=
    ⟨hargs'.vector_congr hout, hargs.array, hargs.apart, hargs.fits⟩
  obtain ⟨packed, relocated, sp, hpack, hpage, hframe⟩ :=
    packStack_spec hcaller (by omega) hstackBound hfuel
  exact ⟨_, packed, relocated, sp, strings, heq, hpack, hpath.apart ⟨by omega, by omega⟩ hframe,
    hargs.vector, hpage⟩

theorem packed_path {memory : ByteMemory} {a argv pathBuffer stackBuffer task : U64}
    (hb : ExecBuffers memory argv pathBuffer stackBuffer task) (hs : StringAt memory a path)
    (hshort : path.length < 4096) (huser : a.toNat + 4096 ≤ FsKernel.userEnd)
    (hfuel : 4096 ≤ fuel) :
    ∃ memory₁ memory₂ argc relocated sp,
      strcpyAt (fillBytes memory pathBuffer 0 4096) pathBuffer a fuel 0 = .ok memory₁ ∧
      packStack fuel memory₁ stackBuffer argv = .ok (memory₂, argc, relocated, sp) ∧
      StringAt memory₂ pathBuffer path := by
  obtain ⟨memory₁, memory₂, relocated, sp, strings, hcopy, hpack, hpath, -⟩ :=
    packed_args hb hs hshort huser hfuel
  exact ⟨memory₁, memory₂, _, relocated, sp, hcopy, hpack, hpath⟩

theorem exec_kept {a argv pathBuffer stackBuffer task : U64}
    (hg : Given (.exec a argv pathBuffer stackBuffer task) s fuel path)
    (h : s.sysExec fuel r a argv pathBuffer stackBuffer task = .ok (res, s')) :
    Kept (.exec a argv pathBuffer stackBuffer task) path res s' ↔
      (Stores fuel r s.kernel path (.exec a argv pathBuffer stackBuffer task) →
        path.length < NamingKernel.taskNameMaxlen) := by
  have hshort := hg.short
  have hfuel := hg.fuel
  have hb : ExecBuffers s.memory argv pathBuffer stackBuffer task := hg.buffers
  obtain ⟨memory₁, hcopy, h⟩ := bind_eq_ok h
  obtain ⟨⟨memory₂, argc, relocated, sp⟩, hpack, h⟩ := bind_eq_ok h
  obtain ⟨_, _, _, _, _, hcopy', hpack', hpath⟩ := packed_path hb hg.string hshort hg.user hfuel
  cases hcopy'.symm.trans hcopy
  cases hpack'.symm.trans hpack
  obtain ⟨path', hread, h⟩ := bind_eq_ok h
  obtain rfl := Except.ok.inj ((readString_eq hpath (by omega)).symm.trans hread)
  obtain ⟨⟨r', k₁⟩, hresolve, h⟩ := bind_eq_ok h
  have hstatus : Stores fuel r s.kernel path (.exec a argv pathBuffer stackBuffer task) ↔
      r'.status = vfsResolveSuccessExists := by
    constructor
    · rintro ⟨r'', k₂, hresolve', hexists⟩
      cases hresolve.symm.trans hresolve'
      exact hexists
    · exact fun hh => ⟨r', k₁, hresolve, hh⟩
  rw [hstatus]
  dsimp only at h
  split at h
  · next hs =>
    cases h
    exact iff_of_true (.inl (by decide)) (fun hh => absurd hh hs)
  · next hs =>
    have hexists := not_not.mp hs
    obtain ⟨s₂, hname, h⟩ := bind_eq_ok h
    cases h
    have hend : FsKernel.userEnd = 0x800000000000 := rfl
    have hpathHigh := hb.pathHigh
    have htaskBound := hb.taskBound
    have htaskPath := hb.taskPath
    have hpathAlign := hb.path
    have hpathLt := pathBuffer.isLt
    simp only [PageAligned] at hpathAlign
    have hoff : (task + NamingKernel.taskNameOffset).toNat = task.toNat + 40 :=
      toNat_add_ofNat (a := task) (i := 40) (by omega)
    have hmax : NamingKernel.taskNameMaxlen = 256 := rfl
    obtain ⟨-, hstores⟩ := NamingKernel.copyName_stores (s := { s with kernel := k₁, memory := memory₂ })
      hpath (by omega : path.length < fuel) (by omega) ⟨by omega, by omega⟩ hname
    exact (kept_iff_of_copy (by decide) hstores).trans ⟨fun hh _ => hh, fun hh => hh hexists⟩

end NamingCall

/-- A slash and 65 times the letter `a`. -/
def longPath : List U8 := 0x2F :: List.replicate 65 0x61

def longPathMemory : ByteMemory := fun x =>
  if x = 0x600000 then 0x2F
  else if 0x600000 < x ∧ x < 0x600042 then 0x61 else 0

def onePage (k : FsKernel) : Except Crash U64 :=
  if (k.fs.supply.pages ++ k.fs.dentries.allocator.pages).contains 0xFFFF800000008000 then
    .error (.panic "Out of physical memory\n")
  else .ok 0xFFFF800000008000

theorem onePage_fresh : FreshBuffer onePage := by
  have hpage : ∀ k p, onePage k = .ok p → p = 0xFFFF800000008000 ∧
      p ∉ k.fs.supply.pages ++ k.fs.dentries.allocator.pages := by
    intro k p h
    rw [onePage] at h
    split at h
    · cases h
    · next hn =>
      obtain rfl := Except.ok.inj h
      exact ⟨rfl, fun hh => hn (List.contains_iff_mem.mpr hh)⟩
  constructor
  · intro k p h
    rw [(hpage k p h).1]
    simp [PageAligned]
  · intro k p h
    rw [(hpage k p h).1]
    simp [FsKernel.userEnd]
  · intro k p h
    have hn := (hpage k p h).2
    rw [List.mem_append, not_or] at hn
    exact hn

namespace FsKernel

theorem bare_inv : bare.Inv where
  toSlabs := bare_slabs
  root := .inr (List.mem_singleton_self _)
  privates i _ hexfat := by
    obtain ⟨sb, partition, htype⟩ := hexfat
    cases htype
  entries i _ _ d hd := absurd hd List.not_mem_nil

end FsKernel

/-- MKDIR of `longPath` on the empty root. -/
def mkdirLong : Except Crash (U64 × NamingKernel) :=
  (NamingCall.mkdir onePage 0x600000).run 4096 FsKernel.noResult
    ⟨FsKernel.bare, longPathMemory, none⟩

theorem mkdirLong_given : (NamingCall.mkdir onePage 0x600000).Given
    ⟨FsKernel.bare, longPathMemory, none⟩ 4096 longPath where
  inv := FsKernel.bare_inv
  fuel := Nat.le_refl _
  string := ⟨by decide +kernel, by decide⟩
  short := by decide
  user := by simp [NamingCall.pathArg, FsKernel.userEnd]
  first := rfl
  buffers := onePage_fresh

theorem mkdirLong_eq : mkdirLong.map (fun p => (p.1, p.2.copy.map fun c =>
    (c.array, c.size, c.before (c.array + 64), c.after (c.array + 64)))) =
    .ok (0, some (0xFFFF800000002030, 64, 0, 0x61)) := by
  decide +kernel

theorem mkdirLong_run : ∃ s' c, mkdirLong = .ok (0, s') ∧ s'.copy = some c ∧
    c.array = 0xFFFF800000002030 ∧ c.size = 64 ∧ c.before (c.array + 64) = 0 ∧
    c.after (c.array + 64) = 0x61 := by
  have heq := mkdirLong_eq
  cases hrun : mkdirLong with
  | error e =>
    rw [hrun] at heq
    cases heq
  | ok p =>
    obtain ⟨res, s'⟩ := p
    rw [hrun] at heq
    obtain ⟨hres, hcopy⟩ := Prod.mk.inj (Except.ok.inj heq)
    obtain ⟨c, hc, hfields⟩ := Option.map_eq_some_iff.mp hcopy
    simp only [Prod.mk.injEq] at hfields
    exact ⟨s', c, by rw [← hres], hc, hfields⟩

end Persistos
