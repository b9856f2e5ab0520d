import Persistos.NameCopies
import Persistos.Theory.Records
import Mathlib.Algebra.BigOperators.Group.List.Basic

/-! The lists of the names in a directory and of the tasks, as the kernel writes them and as
`ls` and `ps` read them. -/

namespace Persistos

open Theory

/-- One pass of the loop of SYSCALL_GETDENTS. The name is the first member of the entry. -/
def getdentsEntry (fuel : Nat) (endOfBuf : U64) (memory : ByteMemory) (buf dentry : U64) :
    Except Crash (Option (U64 × ByteMemory)) := do
  let name ← readString memory dentry fuel
  let dentryNameStrlen := BitVec.ofNat 16 name.length
  let lenRequired := 2 + dentryNameStrlen + 1
  if buf + lenRequired.setWidth 64 ≤ endOfBuf then do
    let memory := storeBytes memory buf 2 lenRequired.toNat
    let buf := buf + 2
    let memory ← strcpyAt memory buf dentry fuel 0
    let buf := buf + (dentryNameStrlen.setWidth 64 + 1)
    .ok (some (buf, memory))
  else .ok none

/-- SYSCALL_GETDENTS by a task with the open files `files`. -/
def sysGetdents (k : FsKernel) (files : List OpenFile) (fuel : Nat) (memory : ByteMemory)
    (arg3 arg4 arg5 : U64) : Except Crash (U64 × ByteMemory) :=
  match filpFind files (arg3.setWidth 32) with
  | none => .ok (-1, memory)
  | some filp =>
    if (k.inode filp.inode).type ≠ inodeDirectory then .ok (-2, memory)
    else do
      let (buf, memory) ← packRecords (getdentsEntry fuel (arg4 + arg5))
        (k.inode filp.inode).dentries memory arg4
      .ok (buf - arg4, memory)

/-- One pass of the loop of SYSCALL_GETTASKS. The number is the first member of the task. -/
def gettasksEntry (fuel : Nat) (endOfBuf : U64) (memory : ByteMemory) (buf ts : U64) :
    Except Crash (Option (U64 × ByteMemory)) := do
  let name ← readString memory (ts + NamingKernel.taskNameOffset) fuel
  let tsNameStrlen := BitVec.ofNat 16 name.length
  let lenRequired := 4 + 2 + tsNameStrlen + 1
  if buf + lenRequired.setWidth 64 ≤ endOfBuf then do
    let pid : U32 := BitVec.ofNat 32 (loadBytes memory ts 4)
    let memory := storeBytes memory buf 4 pid.toNat
    let buf := buf + 4
    let memory := storeBytes memory buf 2 tsNameStrlen.toNat
    let buf := buf + 2
    let memory ← strcpyAt memory buf (ts + NamingKernel.taskNameOffset) fuel 0
    let buf := buf + (tsNameStrlen.setWidth 64 + 1)
    .ok (some (buf, memory))
  else .ok none

def sysGettasks (tasks : List U64) (fuel : Nat) (memory : ByteMemory) (arg3 arg4 : U64) :
    Except Crash (U64 × ByteMemory) := do
  let (buf, memory) ← packRecords (gettasksEntry fuel (arg3 + arg4)) tasks memory arg3
  .ok (buf - arg3, memory)

/-- The loop of `ls`, with what it prints. -/
def lsNames (memory : ByteMemory) (fuel : Nat) (buf bytesRead : U64) :
    Except Crash (List (List U8)) :=
  readRecords (fun x => do
    let len := BitVec.ofNat 16 (loadBytes memory x 2)
    let name ← readString memory (x + 2) fuel
    .ok (name, x + len.setWidth 64)) (buf + bytesRead) .endless fuel buf

/-- The loop of `ps`, with what it prints. -/
def psTasks (memory : ByteMemory) (fuel : Nat) (buf bytesRead : U64) :
    Except Crash (List (U32 × List U8)) :=
  readRecords (fun x => do
    let pid := BitVec.ofNat 32 (loadBytes memory x 4)
    let x := x + 4
    let len : U16 := BitVec.ofNat 16 (loadBytes memory x 2)
    let x := x + 2
    let name ← readString memory x fuel
    .ok ((pid, name), x + (len.setWidth 64 + 1))) (buf + bytesRead) .endless fuel buf

/-- A string in an array of `size` bytes that is in the higher half, where the kernel is. -/
structure KernelName (memory : ByteMemory) (a : U64) (name : List U8) (size : Nat) : Prop where
  string : StringAt memory a name
  fits : name.length < size
  higher : 2 ^ 47 ≤ a.toNat
  bound : a.toNat + size ≤ 2 ^ 64

def direntBytes (name : List U8) : List U8 := leBytes 2 (name.length + 3) ++ (name ++ [0])

def taskBytes (pid : U32) (name : List U8) : List U8 :=
  leBytes 4 pid.toNat ++ (leBytes 2 name.length ++ (name ++ [0]))

@[simp] theorem length_direntBytes (name : List U8) :
    (direntBytes name).length = name.length + 3 := by
  simp [direntBytes]
  omega

@[simp] theorem length_taskBytes (pid : U32) (name : List U8) :
    (taskBytes pid name).length = name.length + 7 := by
  simp [taskBytes]
  omega

variable {memory memory' : ByteMemory} {a buf stop : U64} {name : List U8} {size fuel : Nat}

/-- The strings of the kernel stay while the lower half changes. -/
theorem KernelName.congr (h : KernelName memory a name size)
    (hm : ∀ x : U64, 2 ^ 47 ≤ x.toNat → memory' x = memory x) :
    KernelName memory' a name size := by
  have hfits := h.fits
  have hbound := h.bound
  have hhigher := h.higher
  refine ⟨⟨?_, h.string.nonzero⟩, h.fits, h.higher, h.bound⟩
  refine h.string.bytes.congr (fun x hx _ => hm x (by omega)) ?_
  rw [List.length_append, List.length_singleton]
  omega

theorem KernelName.strcpy (h : KernelName memory a name size) (buf : U64)
    (hbuf : buf.toNat + (name.length + 1) ≤ 2 ^ 47) (hfuel : size ≤ fuel) :
    ∃ memory', strcpyAt memory buf a fuel 0 = .ok memory' ∧
      Wrote memory memory' buf (buf + BitVec.ofNat 64 (name.length + 1)) (name ++ [0]) := by
  have hfits := h.fits
  have hbound := h.bound
  have hhigher := h.higher
  have hzero (b : U64) : b + BitVec.ofNat 64 0 = b := BitVec.add_zero b
  have hstring : StringAt memory (a + BitVec.ofNat 64 0) name := by
    rw [hzero]
    exact h.string
  have hcopy : strcpyAt memory buf a fuel 0 = _ :=
    strcpyAt_eq hstring (by omega) (by omega) (by omega) (by omega)
  rw [hzero, hzero] at hcopy
  have hwrote := Wrote.copyBytes (a := buf) h.string.bytes
  rw [List.length_append, List.length_singleton] at hwrote
  exact ⟨_, hcopy, hwrote (by omega) (by omega) (by omega)⟩

theorem setWidth_ofNat {n : Nat} (hn : n < 2 ^ 16) :
    (BitVec.ofNat 16 n).setWidth 64 = BitVec.ofNat 64 n := by
  apply BitVec.eq_of_toNat_eq
  rw [BitVec.toNat_setWidth, BitVec.toNat_ofNat, BitVec.toNat_ofNat, Nat.mod_eq_of_lt hn]

theorem behind_name {n : Nat} (hn : n < 2 ^ 16) (buf : U64) :
    buf + ((BitVec.ofNat 16 n).setWidth 64 + 1) = buf + BitVec.ofNat 64 (n + 1) := by
  rw [setWidth_ofNat hn, BitVec.ofNat_add]
  rfl

/-- The test for room, in the lower half. -/
theorem room_iff {n : Nat} (hn : n < 2 ^ 16) (hbuf : buf.toNat ≤ 2 ^ 47) :
    buf + (BitVec.ofNat 16 n).setWidth 64 ≤ stop ↔ buf.toNat + n ≤ stop.toNat := by
  rw [setWidth_ofNat hn, BitVec.le_def, toNat_add_ofNat (by omega)]

theorem getdentsEntry_packs {names : U64 → List U8}
    (h : KernelName memory a (names a) (dentryMaxNameLength + 1)) (hstop : stop.toNat ≤ 2 ^ 47)
    (hfuel : dentryMaxNameLength + 1 ≤ fuel) (start : Nat) :
    Packs memory (fun d => direntBytes (names d)) start stop.toNat (getdentsEntry fuel stop) a := by
  have hfits := h.fits
  have hmax : dentryMaxNameLength = 63 := rfl
  have hlen : 2 + BitVec.ofNat 16 (names a).length + 1 = BitVec.ofNat 16 ((names a).length + 3) := by
    rw [BitVec.ofNat_add, BitVec.add_comm 2, BitVec.add_assoc]
    rfl
  have hkernel : ∀ m, (∀ x : U64, x.toNat < start ∨ stop.toNat ≤ x.toNat → m x = memory x) →
      KernelName m a (names a) (dentryMaxNameLength + 1) :=
    fun m hm => h.congr fun x hx => hm x (Or.inr (by omega))
  constructor
  · intro m buf hm _ hroom
    rw [length_direntBytes] at hroom
    have hname := hkernel m hm
    have hstore := Wrote.storeBytes (m := m) (a := buf) (n := 2)
      (BitVec.ofNat 16 ((names a).length + 3)).toNat (by omega)
    have hbuf : (buf + 2).toNat = buf.toNat + 2 := toNat_add_ofNat (i := 2) (by omega)
    have hname' := hname.congr fun x hx =>
      hstore.outside x (Or.inr (by rw [length_leBytes]; omega))
    obtain ⟨m', hcopy, hwrote⟩ := hname'.strcpy (buf + 2) (by omega) hfuel
    refine ⟨buf + 2 + BitVec.ofNat 64 ((names a).length + 1), m', ?_, ?_⟩
    · rw [getdentsEntry, readString_eq hname.string (by omega), ok_bind]
      simp only [hlen]
      rw [if_pos ((room_iff (by omega) (by omega)).mpr (by omega)), hcopy, ok_bind,
        behind_name (by omega)]
    · have happend := hstore.append hwrote
      rw [BitVec.toNat_ofNat, Nat.mod_eq_of_lt (by omega)] at happend
      exact happend
  · intro m buf hm hbuf hroom
    rw [length_direntBytes] at hroom
    rw [getdentsEntry, readString_eq (hkernel m hm).string (by omega), ok_bind]
    simp only [hlen]
    rw [if_neg (mt (room_iff (by omega) (by omega)).mp (by omega))]

theorem gettasksEntry_packs {names : U64 → List U8}
    (h : KernelName memory (a + NamingKernel.taskNameOffset) (names a) NamingKernel.taskNameMaxlen)
    (hlower : 2 ^ 47 ≤ a.toNat) (ha : a.toNat + 4 ≤ 2 ^ 64)
    (hstop : stop.toNat ≤ 2 ^ 47) (hfuel : NamingKernel.taskNameMaxlen ≤ fuel) (start : Nat) :
    Packs memory (fun ts => taskBytes (BitVec.ofNat 32 (loadBytes memory ts 4)) (names ts)) start
      stop.toNat (gettasksEntry fuel stop) a := by
  have hfits := h.fits
  have hmax : NamingKernel.taskNameMaxlen = 256 := rfl
  have hlen : 4 + 2 + BitVec.ofNat 16 (names a).length + 1 =
      BitVec.ofNat 16 ((names a).length + 7) := by
    rw [BitVec.ofNat_add, BitVec.add_comm (4 + 2), BitVec.add_assoc]
    rfl
  have hkernel : ∀ m : ByteMemory,
      (∀ x : U64, x.toNat < start ∨ stop.toNat ≤ x.toNat → m x = memory x) →
      ∀ x : U64, 2 ^ 47 ≤ x.toNat → m x = memory x :=
    fun m hm x hx => hm x (Or.inr (by omega))
  constructor
  · intro m buf hm _ hroom
    rw [length_taskBytes] at hroom
    have hname := h.congr (hkernel m hm)
    have hbuf : (buf + 4).toNat = buf.toNat + 4 := toNat_add_ofNat (i := 4) (by omega)
    have hbuf' : (buf + 4 + 2).toNat = (buf + 4).toNat + 2 :=
      toNat_add_ofNat (i := 2) (by omega)
    have hload : loadBytes m a 4 = loadBytes memory a 4 :=
      loadBytes_congr (fun x hx _ => hkernel m hm x (by omega)) ha
    have hpid := Wrote.storeBytes (m := m) (a := buf) (n := 4)
      (BitVec.ofNat 32 (loadBytes m a 4)).toNat (by omega)
    have hstrlen := Wrote.storeBytes (a := buf + 4) (n := 2)
      (m := storeBytes m buf 4 (BitVec.ofNat 32 (loadBytes m a 4)).toNat)
      (BitVec.ofNat 16 (names a).length).toNat (by omega)
    have hstores := hpid.append hstrlen
    have hname' := hname.congr fun x hx => hstores.outside x (Or.inr (by simp; omega))
    obtain ⟨m', hcopy, hwrote⟩ := hname'.strcpy (buf + 4 + 2) (by omega) hfuel
    refine ⟨buf + 4 + 2 + BitVec.ofNat 64 ((names a).length + 1), m', ?_, ?_⟩
    · rw [gettasksEntry, readString_eq hname.string (by omega), ok_bind]
      simp only [hlen]
      rw [if_pos ((room_iff (by omega) (by omega)).mpr (by omega)), hcopy, ok_bind,
        behind_name (by omega)]
    · have happend := hpid.append (hstrlen.append hwrote)
      rw [hload, BitVec.toNat_ofNat (names a).length, Nat.mod_eq_of_lt (by omega)] at happend
      exact happend
  · intro m buf hm hbuf hroom
    rw [length_taskBytes] at hroom
    rw [gettasksEntry, readString_eq (h.congr (hkernel m hm)).string (by omega), ok_bind]
    simp only [hlen]
    rw [if_neg (mt (room_iff (by omega) (by omega)).mp (by omega))]

theorem loadBytes_u16 {n : Nat} (h : BytesAt memory a (leBytes 2 n)) :
    BitVec.ofNat 16 (loadBytes memory a 2) = BitVec.ofNat 16 n := by
  apply BitVec.eq_of_toNat_eq
  rw [loadBytes_leBytes h, BitVec.toNat_ofNat, BitVec.toNat_ofNat]
  omega

theorem loadBytes_u32 {pid : U32} (h : BytesAt memory a (leBytes 4 pid.toNat)) :
    BitVec.ofNat 32 (loadBytes memory a 4) = pid := by
  apply BitVec.eq_of_toNat_eq
  have hlt := pid.isLt
  rw [loadBytes_leBytes h, BitVec.toNat_ofNat]
  omega

/-- What `ls` does with an entry that is there. -/
theorem ls_next (h : BytesAt memory a (direntBytes name)) (hname : 0 ∉ name)
    (hsize : name.length < dentryMaxNameLength + 1) (hfuel : dentryMaxNameLength + 1 ≤ fuel) :
    (do
      let len := BitVec.ofNat 16 (loadBytes memory a 2)
      let name ← readString memory (a + 2) fuel
      Except.ok (name, a + len.setWidth 64)) =
    Except.ok (ε := Crash) (name, a + BitVec.ofNat 64 (direntBytes name).length) := by
  have hmax : dentryMaxNameLength = 63 := rfl
  obtain ⟨hlen, hstring⟩ := bytesAt_append.mp h
  rw [length_leBytes] at hstring
  have hread := readString_eq ⟨hstring, hname⟩ (by omega : name.length < fuel)
  dsimp only
  rw [loadBytes_u16 hlen, setWidth_ofNat (by omega), length_direntBytes]
  exact congrArg (· >>= _) hread

theorem ps_next {pid : U32} (h : BytesAt memory a (taskBytes pid name)) (hname : 0 ∉ name)
    (hsize : name.length < NamingKernel.taskNameMaxlen)
    (hfuel : NamingKernel.taskNameMaxlen ≤ fuel) :
    (do
      let pid : U32 := BitVec.ofNat 32 (loadBytes memory a 4)
      let x := a + 4
      let len : U16 := BitVec.ofNat 16 (loadBytes memory x 2)
      let x := x + 2
      let name ← readString memory x fuel
      Except.ok ((pid, name), x + (len.setWidth 64 + 1))) =
    Except.ok (ε := Crash) ((pid, name), a + BitVec.ofNat 64 (taskBytes pid name).length) := by
  have hmax : NamingKernel.taskNameMaxlen = 256 := rfl
  obtain ⟨hpid, hrest⟩ := bytesAt_append.mp h
  rw [length_leBytes] at hrest
  obtain ⟨hlen, hstring⟩ := bytesAt_append.mp hrest
  rw [length_leBytes] at hstring
  have hread := readString_eq ⟨hstring, hname⟩ (by omega : name.length < fuel)
  have hnext : a + 4 + 2 + BitVec.ofNat 64 (name.length + 1) =
      a + BitVec.ofNat 64 (taskBytes pid name).length := by
    rw [length_taskBytes, BitVec.add_assoc, BitVec.add_assoc]
    congr 1
    rw [show name.length + 7 = 4 + (2 + (name.length + 1)) by omega, BitVec.ofNat_add 4,
      BitVec.ofNat_add 2]
    rfl
  dsimp only
  rw [loadBytes_u32 hpid, show a + 4 = a + BitVec.ofNat 64 4 from rfl, loadBytes_u16 hlen,
    behind_name (by omega)]
  refine (congrArg (· >>= _) hread).trans ?_
  rw [← hnext]
  rfl

/-- The bytes that a list of records takes. -/
theorem length_flatMap_sizes {α : Type} {encode : α → List U8} {p : List α} :
    (p.flatMap encode).length = (p.map fun e => (encode e).length).sum :=
  List.length_flatMap

/-- What a packing loop gives, with the buffer from `arg` on. -/
theorem packed_listing {α : Type} {encode : α → List U8} {items : List α} {arg length : U64}
    {body : ByteMemory → U64 → α → Except Crash (Option (U64 × ByteMemory))}
    (hbuf : arg.toNat + length.toNat ≤ 2 ^ 47)
    (hbody : ∀ e ∈ items, Packs memory encode arg.toNat (arg + length).toNat body e) :
    ∃ b memory' p, packRecords body items memory arg = .ok (b, memory') ∧
      LongestFitting (fun e => (encode e).length) length.toNat items p ∧
      Wrote memory memory' arg b (p.flatMap encode) ∧
      (p.flatMap encode).length ≤ length.toNat ∧ arg + (b - arg) = b := by
  have hsum : (arg + length).toNat = arg.toNat + length.toNat := by
    rw [BitVec.toNat_add]
    exact Nat.mod_eq_of_lt (by omega)
  obtain ⟨b, memory', hok, hwrote⟩ := packRecords_fitting hbody (fun _ _ => rfl) (Nat.le_refl _)
    (by omega)
  rw [hsum, Nat.add_sub_cancel_left] at hwrote
  have hlongest := fitting_longest (fun e => (encode e).length) length.toNat items
  refine ⟨b, memory', _, hok, hlongest, hwrote, ?_, ?_⟩
  · rw [length_flatMap_sizes]
    exact hlongest.fits
  · rw [BitVec.add_comm, BitVec.sub_add_cancel]

/-- A record has a byte or more, so that the loop of a reader ends. -/
theorem length_lt_fuel {α : Type} {encode : α → List U8} {p : List α} {length : Nat}
    (hpos : ∀ e, 1 ≤ (encode e).length) (hp : (p.flatMap encode).length ≤ length)
    (hfuel : length < fuel) : p.length < fuel := by
  rw [length_flatMap_sizes] at hp
  have hle : (p.map fun e => (encode e).length).length ≤ (p.map fun e => (encode e).length).sum := by
    refine List.length_le_sum_of_one_le _ fun n hn => ?_
    obtain ⟨e, -, rfl⟩ := List.mem_map.mp hn
    exact hpos e
  rw [List.length_map] at hle
  omega

section

variable {buf length : U64}

theorem stop_lower (hbuf : buf.toNat + length.toNat ≤ 2 ^ 47) : (buf + length).toNat ≤ 2 ^ 47 := by
  rw [BitVec.toNat_add]
  exact (Nat.mod_le _ _).trans hbuf

theorem getdents_ls {k : FsKernel} {files : List OpenFile} {filp : OpenFile}
    {names : U64 → List U8} {arg3 : U64} (hbuf : buf.toNat + length.toNat ≤ 2 ^ 47)
    (hfuel : length.toNat + 256 ≤ fuel)
    (hfilp : filpFind files (arg3.setWidth 32) = some filp)
    (hdir : (k.inode filp.inode).type = inodeDirectory)
    (hnames : ∀ d ∈ (k.inode filp.inode).dentries,
      KernelName memory d (names d) (dentryMaxNameLength + 1)) :
    ∃ r memory', sysGetdents k files fuel memory arg3 buf length = .ok (r, memory') ∧
      (∀ x : U64, x.toNat < buf.toNat ∨ buf.toNat + length.toNat ≤ x.toNat →
        memory' x = memory x) ∧
      ∃ p, LongestFitting (fun d => (names d).length + 3) length.toNat
          (k.inode filp.inode).dentries p ∧
        lsNames memory' fuel buf r = .ok (p.map names) := by
  have hmax : dentryMaxNameLength = 63 := rfl
  obtain ⟨b, memory', p, hok, hp, hwrote, hlength, hb⟩ := packed_listing hbuf fun d hd =>
    getdentsEntry_packs (hnames d hd) (stop_lower hbuf)
      (by omega : dentryMaxNameLength + 1 ≤ fuel) buf.toNat
  simp only [length_direntBytes] at hp
  refine ⟨b - buf, memory', ?_, ?_, p, hp, ?_⟩
  · rw [sysGetdents, hfilp]
    dsimp only
    rw [if_neg (not_not_intro hdir), hok]
    rfl
  · exact fun x hx => hwrote.outside x (by omega)
  · rw [lsNames, hb]
    refine readRecords_encoded ?_ ?_ hwrote.bytes
      hwrote.stop (length_lt_fuel (fun e => ?_) hlength (by omega))
    · intro d hd x hx _
      have hname := hnames d (hp.front.subset hd)
      exact ls_next hx hname.string.nonzero hname.fits (by omega)
    · intro d
      rw [direntBytes, leBytes]
      exact List.cons_ne_nil _ _
    · rw [length_direntBytes]
      omega

theorem gettasks_ps {tasks : List U64} {names : U64 → List U8}
    (hbuf : buf.toNat + length.toNat ≤ 2 ^ 47) (hfuel : length.toNat + 256 ≤ fuel)
    (hnames : ∀ ts ∈ tasks, 2 ^ 47 ≤ ts.toNat ∧ ts.toNat + 4 ≤ 2 ^ 64 ∧
      KernelName memory (ts + NamingKernel.taskNameOffset) (names ts)
        NamingKernel.taskNameMaxlen) :
    ∃ r memory', sysGettasks tasks fuel memory buf length = .ok (r, memory') ∧
      (∀ x : U64, x.toNat < buf.toNat ∨ buf.toNat + length.toNat ≤ x.toNat →
        memory' x = memory x) ∧
      ∃ p, LongestFitting (fun ts => (names ts).length + 7) length.toNat tasks p ∧
        psTasks memory' fuel buf r =
          .ok (p.map fun ts => (BitVec.ofNat 32 (loadBytes memory ts 4), names ts)) := by
  have hmax : NamingKernel.taskNameMaxlen = 256 := rfl
  obtain ⟨b, memory', p, hok, hp, hwrote, hlength, hb⟩ := packed_listing hbuf fun ts hts =>
    gettasksEntry_packs (hnames ts hts).2.2 (hnames ts hts).1 (hnames ts hts).2.1
      (stop_lower hbuf) (by omega : NamingKernel.taskNameMaxlen ≤ fuel) buf.toNat
  simp only [length_taskBytes] at hp
  refine ⟨b - buf, memory', ?_, ?_, p, hp, ?_⟩
  · rw [sysGettasks, hok]
    rfl
  · exact fun x hx => hwrote.outside x (by omega)
  · rw [psTasks, hb]
    refine readRecords_encoded ?_ ?_ hwrote.bytes hwrote.stop
      (length_lt_fuel (fun e => ?_) hlength (by omega))
    · intro ts hts x hx _
      have hname := (hnames ts (hp.front.subset hts)).2.2
      exact ps_next hx hname.string.nonzero hname.fits (by omega)
    · intro ts
      rw [taskBytes, leBytes]
      exact List.cons_ne_nil _ _
    · rw [length_taskBytes]
      omega

/-- GETDENTS and GETTASKS change the buffer alone, and `ls` and `ps` find in it what is in as
many entries of the list, from the first on, as have room. -/
theorem listings_decode (hbuf : buf.toNat + length.toNat ≤ 2 ^ 47)
    (hfuel : length.toNat + 256 ≤ fuel) :
    (∀ (k : FsKernel) (files : List OpenFile) (filp : OpenFile) (names : U64 → List U8) (arg3 : U64),
      filpFind files (arg3.setWidth 32) = some filp →
      (k.inode filp.inode).type = inodeDirectory →
      (∀ d ∈ (k.inode filp.inode).dentries,
        KernelName memory d (names d) (dentryMaxNameLength + 1)) →
      ∃ r memory', sysGetdents k files fuel memory arg3 buf length = .ok (r, memory') ∧
        (∀ x : U64, x.toNat < buf.toNat ∨ buf.toNat + length.toNat ≤ x.toNat →
          memory' x = memory x) ∧
        ∃ p, LongestFitting (fun d => (names d).length + 3) length.toNat
            (k.inode filp.inode).dentries p ∧
          lsNames memory' fuel buf r = .ok (p.map names)) ∧
    ∀ (tasks : List U64) (names : U64 → List U8),
      (∀ ts ∈ tasks, 2 ^ 47 ≤ ts.toNat ∧ ts.toNat + 4 ≤ 2 ^ 64 ∧
        KernelName memory (ts + NamingKernel.taskNameOffset) (names ts)
          NamingKernel.taskNameMaxlen) →
      ∃ r memory', sysGettasks tasks fuel memory buf length = .ok (r, memory') ∧
        (∀ x : U64, x.toNat < buf.toNat ∨ buf.toNat + length.toNat ≤ x.toNat →
          memory' x = memory x) ∧
        ∃ p, LongestFitting (fun ts => (names ts).length + 7) length.toNat tasks p ∧
          psTasks memory' fuel buf r =
            .ok (p.map fun ts => (BitVec.ofNat 32 (loadBytes memory ts 4), names ts)) :=
  ⟨fun _ _ _ _ _ hfilp hdir hnames => getdents_ls hbuf hfuel hfilp hdir hnames,
    fun _ _ hnames => gettasks_ps hbuf hfuel hnames⟩

end

/-- A task `b` with the number 1. -/
def oneTask : ByteMemory := fun x =>
  if x = 0xFFFF800000002000 then 1 else if x = 0xFFFF800000002028 then 0x62 else 0

theorem listings_decode_oneTask : ∃ r memory',
    sysGettasks [0xFFFF800000002000] 4352 oneTask 0x600000 4096 = .ok (r, memory') ∧
      ∃ p : List U64, LongestFitting (fun _ => 8) 4096 [0xFFFF800000002000] p ∧
        psTasks memory' 4352 0x600000 r = .ok (p.map fun _ => (1, [0x62])) := by
  have hnames : ∀ ts ∈ ([0xFFFF800000002000] : List U64), 2 ^ 47 ≤ ts.toNat ∧
      ts.toNat + 4 ≤ 2 ^ 64 ∧ KernelName oneTask (ts + NamingKernel.taskNameOffset) [0x62]
        NamingKernel.taskNameMaxlen :=
    List.forall_mem_singleton.mpr
      ⟨by decide, by decide, ⟨by decide +kernel, by decide⟩, by decide, by decide, by decide⟩
  obtain ⟨r, memory', hok, -, p, hp, hps⟩ :=
    (@listings_decode oneTask 4352 0x600000 4096 (by decide) (by decide)).2 _ (fun _ => [0x62])
      hnames
  refine ⟨r, memory', hok, p, hp, hps.trans (congrArg _ (List.map_congr_left fun ts hts => ?_))⟩
  obtain rfl := List.mem_singleton.mp (hp.front.subset hts)
  exact Prod.ext (by decide +kernel) rfl

end Persistos
