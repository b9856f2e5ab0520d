import Persistos.Devices
import Persistos.Exfat
import Persistos.RamfsRuns
import Persistos.Sysfs

/-! The offset of an open file over reads and writes. The layer above the file systems
moves it for devices and after every write, the file systems when they read. -/

namespace Persistos

open Theory

/-- A buffer of a caller, which lies in one half of the address space. -/
structure Buffer where
  bytes : Nat → U8
  length : U64
  length_lt : length.toNat < 2 ^ 63

/-- What is behind the files, on one disk. `exfatInodes` is by the address of the inode. -/
structure Storage where
  ramfs : Ramfs
  sysfs : Sysfs
  exfatInodes : U64 → ExfatInode
  disk : Nat → U8

variable {σ τ : Type}

/-- Operations on a part of the state. -/
def FilesystemOps.lift (ops : FilesystemOps σ) (get : τ → σ) (set : τ → σ → τ) :
    FilesystemOps τ where
  createFileInode s parentDir outInode outDentry := do
    let (n, parentDir, fs) ← ops.createFileInode (get s) parentDir outInode outDentry
    .ok (n, parentDir, set s fs)
  createDirInode s parentDir outInode outDentry := do
    let (n, parentDir, fs) ← ops.createDirInode (get s) parentDir outInode outDentry
    .ok (n, parentDir, set s fs)
  read s filp buffer length := do
    let r ← ops.read (get s) filp buffer length
    .ok ⟨r.bytesRead, r.filp, r.buffer, set s r.state⟩
  write s filp buffer length := do
    let (n, filp, fs) ← ops.write (get s) filp buffer length
    .ok (n, filp, set s fs)
  setSize s filp size := do
    let (n, fs) ← ops.setSize (get s) filp size
    .ok (n, set s fs)

def FileOperations.lift (fops : FileOperations σ) (get : τ → σ) (set : τ → σ → τ) :
    FileOperations τ where
  write s buffer offset length :=
    let (n, disk) := fops.write (get s) buffer offset length
    (n, set s disk)
  read s offset length :=
    let (bytes, disk) := fops.read (get s) offset length
    (bytes, set s disk)

def exfatSuperblockOps (deviceFops : FileOperations (Nat → U8)) : FilesystemOps Storage where
  createFileInode s parentDir _ _ := .ok (-1, parentDir, s)
  createDirInode s parentDir _ _ := .ok (-1, parentDir, s)
  read s filp buffer length :=
    let r := exfatRead deviceFops s.disk (s.exfatInodes filp.inode) filp.offset length
    .ok ⟨r.totalBytesRead, { filp with offset := r.offset },
      overlay buffer 0 r.bytes.length (r.bytes.getD · 0), { s with disk := r.device }⟩
  write s filp buffer length :=
    let w := exfatWrite deviceFops s.disk (s.exfatInodes filp.inode) filp.offset buffer length
    .ok (w.totalBytesWritten, { filp with offset := w.offset }, { s with disk := w.device })
  setSize s _ _ := .ok (-1, s)

/-- The file systems that an inode can be on. exFAT is mounted from a partition only. -/
inductive Superblock where
  | ramfs
  | sysfs
  | exfat (partition : NvmepartDevice)

namespace Superblock

def ops : Superblock → FilesystemOps Storage
  | .ramfs => ramfsSuperblockOps.lift Storage.ramfs fun s ramfs => { s with ramfs }
  | .sysfs => sysfsSuperblockOps.lift Storage.sysfs fun s sysfs => { s with sysfs }
  | .exfat partition => exfatSuperblockOps partition.fops

end Superblock

def Device.storageFops (device : Device) : FileOperations Storage :=
  device.fops.lift Storage.disk fun s disk => { s with disk }

/-- `n` bytes that a file was told to have moved are what its offset moved by. -/
structure Moved (filp filp' : File) (n : U64) : Prop where
  forward : 0 ≤ n.toInt → filp' = filp.advance n
  failed : n = -1 → filp' = filp

/-- The bytes that a write finds room for if it begins in the cluster `c`. -/
def exfatRoom (partition : NvmepartDevice) (inode : ExfatInode) (offset length : U64)
    (c : ExfatFileCluster) : U64 :=
  (nvmepartWrite partition (c.deviceOffset + (exfatPageOffset c offset).setWidth 64)
    (exfatBytesToMove inode.fileLength length 0 offset (exfatPageOffset c offset))).bytes

/-- A write has no room in any cluster in which it may begin. -/
def ExfatIdle (partition : NvmepartDevice) (inode : ExfatInode) (offset length : U64) : Prop :=
  ∀ c ∈ inode.fileClusters, c.byteOffset.setWidth 64 ≤ offset →
    exfatRoom partition inode offset length c = 0

/-- A write to a regular file on exFAT that transfers something. -/
def Superblock.MovesTwice (inode : Inode) (s : Storage) (filp : File) (length : U64) :
    Superblock → Prop
  | .exfat partition => inode.type = inodeRegularFile ∧
      ¬ExfatIdle partition (s.exfatInodes filp.inode) filp.offset length
  | _ => False

section Exfat

variable {δ : Type} {fops : FileOperations δ} (hc : fops.Counted)

theorem exfatBytesToMove_toNat_le (fileLength length done offset : U64) (pageOffset : U16)
    (hd : done.toNat ≤ length.toNat) :
    (exfatBytesToMove fileLength length done offset pageOffset).toNat ≤
      length.toNat - done.toNat := by
  have hle := exfatBytesToMove_le fileLength length done offset pageOffset
  bv_omega

theorem exfatBytesToMove_eq_zero_iff {fileLength length done offset : U64} (c : ExfatFileCluster) :
    exfatBytesToMove fileLength length done offset (exfatPageOffset c offset) = 0 ↔
      length = done ∨ fileLength = offset := by
  have hpage : (exfatPageOffset c offset).toNat < 4096 := by
    rw [exfatPageOffset, BitVec.toNat_setWidth, BitVec.toNat_umod]
    have hm := Nat.mod_lt (offset - c.byteOffset.setWidth 64).toNat (show 0 < 4096 by decide)
    exact Nat.lt_of_le_of_lt (Nat.mod_le _ _) hm
  have hleft : (4096 - (exfatPageOffset c offset).setWidth 64 : U64) ≠ 0 := by bv_omega
  dsimp only [exfatBytesToMove]
  generalize (4096 - (exfatPageOffset c offset).setWidth 64 : U64) = pageLeft at hleft
  split
  · split
    · bv_omega
    · bv_omega
  · split
    · bv_omega
    · bv_omega

include hc

/-- Reading moves the offset by the bytes that were read. -/
theorem exfatReadClusters_offset (fileLength length : U64) (clusters : List ExfatFileCluster)
    (offset : U64) (buf : List U8) (device : δ) (hb : buf.length ≤ length.toNat) :
    let r := exfatReadClusters fops fileLength length clusters offset buf device
    r.offset + BitVec.ofNat 64 buf.length = offset + r.totalBytesRead ∧
      r.bytes.length ≤ length.toNat := by
  induction clusters generalizing offset buf device with
  | nil => exact ⟨rfl, hb⟩
  | cons cluster rest ih =>
    dsimp only
    rw [exfatReadClusters]
    split
    · exact ih offset buf device hb
    · dsimp only
      split
      · exact ⟨rfl, hb⟩
      · have hlt := length.isLt
        have hbuf : (BitVec.ofNat 64 buf.length).toNat = buf.length :=
          Nat.mod_eq_of_lt (by omega)
        have hle := exfatBytesToMove_toNat_le fileLength length (BitVec.ofNat 64 buf.length) offset
          (exfatPageOffset cluster offset) (hbuf.le.trans hb)
        generalize exfatBytesToMove fileLength length (BitVec.ofNat 64 buf.length) offset
          (exfatPageOffset cluster offset) = n at hle ⊢
        have hread := hc.read_le device
          (cluster.deviceOffset + (exfatPageOffset cluster offset).setWidth 64) n
        generalize fops.read device
          (cluster.deviceOffset + (exfatPageOffset cluster offset).setWidth 64) n = read at hread ⊢
        have hlen : (buf ++ read.1).length ≤ length.toNat := by
          rw [List.length_append]
          omega
        have hh := ih (offset + BitVec.ofNat 64 read.1.length) (buf ++ read.1) read.2 hlen
        refine ⟨?_, hh.2⟩
        have hoff := hh.1
        rw [List.length_append, BitVec.ofNat_add] at hoff
        bv_omega

/-- Writing moves the offset by the bytes that were written. -/
theorem exfatWriteClusters_offset (fileLength : U64) (buffer : Nat → U8) (length : U64)
    (clusters : List ExfatFileCluster) (offset done : U64) (device : δ)
    (hd : done.toNat ≤ length.toNat) :
    let w := exfatWriteClusters fops fileLength buffer length clusters offset done device
    w.offset + done = offset + w.totalBytesWritten ∧
      done.toNat ≤ w.totalBytesWritten.toNat ∧ w.totalBytesWritten.toNat ≤ length.toNat := by
  induction clusters generalizing offset done device with
  | nil => exact ⟨rfl, Nat.le_refl _, hd⟩
  | cons cluster rest ih =>
    dsimp only
    rw [exfatWriteClusters]
    split
    · exact ih offset done device hd
    · dsimp only
      split
      · exact ⟨rfl, Nat.le_refl _, hd⟩
      · have hle := exfatBytesToMove_toNat_le fileLength length done offset
          (exfatPageOffset cluster offset) hd
        generalize exfatBytesToMove fileLength length done offset
          (exfatPageOffset cluster offset) = n at hle ⊢
        have hwrite := hc.write_le device (fun i => buffer (done.toNat + i))
          (cluster.deviceOffset + (exfatPageOffset cluster offset).setWidth 64) n
        generalize fops.write device (fun i => buffer (done.toNat + i))
          (cluster.deviceOffset + (exfatPageOffset cluster offset).setWidth 64) n = written
          at hwrite ⊢
        have hsum : (done + written.1).toNat = done.toNat + written.1.toNat := by bv_omega
        have hh := ih (offset + written.1) (done + written.1) written.2 (by omega)
        refine ⟨?_, by omega, hh.2.2⟩
        have hoff := hh.1
        bv_omega

end Exfat

/-- Once nothing is left to write at one cluster there is no room at any. -/
theorem exfatRoom_eq_zero {p : NvmepartDevice} {inode : ExfatInode} {offset length : U64}
    {cluster : ExfatFileCluster} (h : exfatBytesToMove inode.fileLength length 0 offset
      (exfatPageOffset cluster offset) = 0) (c : ExfatFileCluster) :
    exfatRoom p inode offset length c = 0 := by
  have hz := (exfatBytesToMove_eq_zero_iff c).mpr ((exfatBytesToMove_eq_zero_iff cluster).mp h)
  have hle := (Device.nvmepart p).counted.write_le (fun _ => 0) (fun _ => 0)
    (c.deviceOffset + (exfatPageOffset c offset).setWidth 64) 0
  rw [exfatRoom, hz]
  exact BitVec.eq_of_toNat_eq (Nat.le_zero.mp hle)

/-- A write from the start of its buffer on transfers nothing exactly when it is idle. -/
theorem exfatWriteClusters_eq_zero_iff (p : NvmepartDevice) (fileLength : U64)
    (buffer : Nat → U8) (length : U64) (clusters : List ExfatFileCluster) (offset : U64)
    (disk : Nat → U8) :
    (exfatWriteClusters p.fops fileLength buffer length clusters offset 0 disk).totalBytesWritten = 0 ↔
      ExfatIdle p ⟨fileLength, clusters⟩ offset length := by
  have hcounted : p.fops.Counted := (Device.nvmepart p).counted
  induction clusters generalizing disk with
  | nil => simp [exfatWriteClusters, ExfatIdle]
  | cons cluster rest ih =>
    have hcons : ExfatIdle p ⟨fileLength, cluster :: rest⟩ offset length ↔
        (cluster.byteOffset.setWidth 64 ≤ offset →
          exfatRoom p ⟨fileLength, rest⟩ offset length cluster = 0) ∧
          ExfatIdle p ⟨fileLength, rest⟩ offset length := List.forall_mem_cons
    rw [exfatWriteClusters, hcons]
    split
    · next hlt =>
      refine (ih disk).trans ⟨fun h => ⟨fun hle => ?_, h⟩, And.right⟩
      exact absurd hlt (BitVec.not_lt.mpr hle)
    · next hge =>
      have hle : cluster.byteOffset.setWidth 64 ≤ offset := BitVec.not_lt.mp hge
      dsimp only
      split
      · next hzero =>
        have hnone : ∀ c, exfatRoom p ⟨fileLength, rest⟩ offset length c = 0 :=
          exfatRoom_eq_zero hzero
        exact iff_of_true rfl ⟨fun _ => hnone cluster, fun c _ _ => hnone c⟩
      · have hcount := exfatBytesToMove_toNat_le fileLength length 0 offset
          (exfatPageOffset cluster offset) (Nat.zero_le _)
        generalize hn : exfatBytesToMove fileLength length 0 offset
          (exfatPageOffset cluster offset) = n at hcount ⊢
        have hwrite := hcounted.write_le disk (fun i => buffer (BitVec.toNat (0 : U64) + i))
          (cluster.deviceOffset + (exfatPageOffset cluster offset).setWidth 64) n
        have hroom : exfatRoom p ⟨fileLength, rest⟩ offset length cluster =
            (p.fops.write disk (fun i => buffer (BitVec.toNat (0 : U64) + i))
              (cluster.deviceOffset + (exfatPageOffset cluster offset).setWidth 64) n).1 := by
          rw [exfatRoom, hn]
          rfl
        rw [hroom]
        generalize p.fops.write disk (fun i => buffer (BitVec.toNat (0 : U64) + i))
          (cluster.deviceOffset + (exfatPageOffset cluster offset).setWidth 64) n = written
          at hwrite ⊢
        have hadd : (0 : U64) + written.1 = written.1 := BitVec.zero_add _
        rw [hadd]
        by_cases hw : written.1 = 0
        · have hsame : offset + (0 : U64) = offset := BitVec.add_zero _
          rw [hw, hsame]
          exact (ih written.2).trans ⟨fun h => ⟨fun _ => rfl, h⟩, And.right⟩
        · refine iff_of_false (fun h => hw ?_) fun h => hw (h.1 hle)
          have hfit : written.1.toNat ≤ length.toNat := hwrite.trans (hcount.trans (Nat.sub_le _ _))
          have hmono := (exfatWriteClusters_offset hcounted fileLength buffer length rest
            (offset + written.1) written.1 written.2 hfit).2.1
          rw [h] at hmono
          exact BitVec.eq_of_toNat_eq (Nat.le_zero.mp hmono)

namespace Moved

variable {filp : File} {n : U64}

theorem advance (h : n ≠ -1) : Moved filp (filp.advance n) n :=
  ⟨fun _ => rfl, fun hh => absurd hh h⟩

theorem unchanged (filp : File) : Moved filp filp (-1) :=
  ⟨fun h => absurd h (by decide), fun _ => rfl⟩

/-- What the layer above does after a write that left the offset alone. -/
theorem of_write (filp : File) (n : U64) : Moved filp (if n ≠ -1 then filp.advance n else filp) n := by
  by_cases hn : n = -1
  · rw [if_neg (not_not_intro hn), hn]
    exact unchanged filp
  · rw [if_pos hn]
    exact advance hn

end Moved

theorem ne_neg_one_of_lt {n : U64} (h : n.toNat < 2 ^ 63) : n ≠ -1 := by
  rintro rfl
  exact absurd h (by decide)

theorem ofNat_toNat_of_le {k : Nat} {length : U64} (h : k ≤ length.toNat) :
    (BitVec.ofNat 64 k).toNat = k := by
  have hlt := length.isLt
  exact Nat.mod_eq_of_lt (by omega)

theorem ramfsRead_moved {fs : Ramfs} {files : List U64} (h : RamfsInv fs files) {filp : File}
    (hf : filp.inode ∈ files) {buffer : Nat → U8} {length : U64} {r : ReadResult Ramfs}
    (hr : ramfsRead fs filp buffer length = .ok r) : Moved filp r.filp r.bytesRead := by
  have hsize := (h.sized filp.inode hf).size_le
  rw [h.read_eq hf] at hr
  obtain ⟨⟨n, target⟩, hread, he⟩ := bind_eq_ok hr
  obtain rfl := Except.ok.inj he
  apply Moved.advance
  intro hn
  have hmax : n.toNat = 2 ^ 64 - 1 := by rw [hn]; rfl
  rw [Image.read] at hread
  split at hread
  · obtain ⟨rfl, -⟩ := Prod.mk.inj (Except.ok.inj hread)
    have hle : min (filp.offset + length).toNat (fs.image filp.inode).size ≤ 2 ^ 64 - 128 :=
      (Nat.min_le_right _ _).trans hsize
    rw [BitVec.toNat_ofNat] at hmax
    omega
  · split at hread
    · cases hread
    · obtain ⟨rfl, -⟩ := Prod.mk.inj (Except.ok.inj hread)
      exact absurd hmax (by decide)

theorem sysfsRead_moved {fs : Sysfs} {filp : File} (b : Buffer) {r : ReadResult Sysfs}
    (hr : sysfsRead fs filp b.bytes b.length = .ok r) : Moved filp r.filp r.bytesRead := by
  rw [sysfsRead] at hr
  split at hr
  · obtain rfl := Except.ok.inj hr
    have hzero : filp.advance 0 = filp := congrArg (File.mk filp.inode) (BitVec.add_zero _)
    exact ⟨fun _ => hzero.symm, fun _ => rfl⟩
  · next hoffset =>
    obtain ⟨pieces, -, he⟩ := bind_eq_ok hr
    obtain rfl := Except.ok.inj he
    have hz : filp.offset = 0 := by bv_omega
    have hsum := foldl_safeCopyString pieces ⟨b.bytes, 0, b.length⟩
    dsimp only at hsum ⊢
    generalize (pieces.foldl safeCopyString ⟨b.bytes, 0, b.length⟩).destination = k at hsum ⊢
    have hk : k ≤ b.length.toNat := by omega
    have hlt := b.length_lt
    have hn : Moved filp (filp.advance (BitVec.ofNat 64 k)) (BitVec.ofNat 64 k) :=
      .advance (ne_neg_one_of_lt (by rw [ofNat_toNat_of_le hk]; omega))
    have hadd : (0 : U64) + BitVec.ofNat 64 k = BitVec.ofNat 64 k := BitVec.zero_add _
    rwa [File.advance, hz, hadd] at hn

theorem exfatRead_moved {fops : FileOperations (Nat → U8)} (hc : fops.Counted) {s : Storage}
    {filp : File} (b : Buffer) {r : ReadResult Storage}
    (hr : (exfatSuperblockOps fops).read s filp b.bytes b.length = .ok r) :
    Moved filp r.filp r.bytesRead := by
  obtain rfl := Except.ok.inj hr
  have hlt := b.length_lt
  have hread := exfatReadClusters_offset hc (s.exfatInodes filp.inode).fileLength b.length
    (s.exfatInodes filp.inode).fileClusters filp.offset [] s.disk (Nat.zero_le _)
  rw [← exfatRead] at hread
  dsimp only at hread ⊢
  generalize exfatRead fops s.disk (s.exfatInodes filp.inode) filp.offset b.length = result
    at hread ⊢
  have hoffset : result.offset = filp.offset + result.totalBytesRead := by
    have hh := hread.1
    rwa [List.length_nil, BitVec.add_zero] at hh
  rw [hoffset]
  apply Moved.advance
  apply ne_neg_one_of_lt
  rw [ExfatRead.totalBytesRead, ofNat_toNat_of_le hread.2]
  omega

section Calls

variable {sb : Superblock} {device : Device} {inode : Inode} {s : Storage} {filp : File}
  {files : List U64}

theorem vfsRead_moved (h : RamfsInv s.ramfs files)
    (hf : sb = .ramfs → inode.type = inodeRegularFile → filp.inode ∈ files) (b : Buffer)
    {r : ReadResult Storage}
    (hr : vfsRead sb.ops device.storageFops inode s filp b.bytes b.length = .ok r) :
    Moved filp r.filp r.bytesRead := by
  rw [vfsRead] at hr
  split at hr
  · obtain rfl := Except.ok.inj hr
    have hle := device.counted.read_le s.disk filp.offset b.length
    have hlt := b.length_lt
    apply Moved.advance
    apply ne_neg_one_of_lt
    change (BitVec.ofNat 64 (device.fops.read s.disk filp.offset b.length).1.length).toNat < 2 ^ 63
    rw [ofNat_toNat_of_le hle]
    omega
  · split at hr
    · next htype =>
      split at hr
      · obtain rfl := Except.ok.inj hr
        exact Moved.unchanged filp
      · cases sb with
        | ramfs =>
          obtain ⟨r', hr', he⟩ := bind_eq_ok hr
          obtain rfl := Except.ok.inj he
          exact ramfsRead_moved h (hf rfl htype) hr'
        | sysfs =>
          obtain ⟨r', hr', he⟩ := bind_eq_ok hr
          obtain rfl := Except.ok.inj he
          exact sysfsRead_moved b hr'
        | exfat partition => exact exfatRead_moved (Device.nvmepart partition).counted b hr
    · obtain rfl := Except.ok.inj hr
      exact Moved.unchanged filp

theorem exfatWrite_moved {partition : NvmepartDevice} {b : Buffer} {n : U64} {filp' : File}
    {s' : Storage} (hw : (exfatSuperblockOps partition.fops).write s filp b.bytes b.length =
      .ok (n, filp', s')) :
    Moved filp (if n ≠ -1 then filp'.advance n else filp') n ↔
      ExfatIdle partition (s.exfatInodes filp.inode) filp.offset b.length := by
  have hcounted : partition.fops.Counted := (Device.nvmepart partition).counted
  have hzero := exfatWriteClusters_eq_zero_iff partition (s.exfatInodes filp.inode).fileLength
    b.bytes b.length (s.exfatInodes filp.inode).fileClusters filp.offset s.disk
  have hwrite := exfatWriteClusters_offset hcounted (s.exfatInodes filp.inode).fileLength b.bytes
    b.length (s.exfatInodes filp.inode).fileClusters filp.offset 0 s.disk (Nat.zero_le _)
  simp only [Except.ok.injEq, exfatSuperblockOps, exfatWrite, Prod.mk.injEq] at hw
  obtain ⟨hn, rfl, -⟩ := hw
  dsimp only at hwrite
  rw [hn] at hwrite hzero
  rw [← hzero]
  have hlt := b.length_lt
  have hne : n ≠ -1 := ne_neg_one_of_lt (by omega)
  have hpos : 0 ≤ n.toInt := by
    rw [BitVec.toInt_eq_toNat_cond, if_pos (by omega)]
    omega
  rw [if_pos hne]
  generalize (exfatWriteClusters partition.fops (s.exfatInodes filp.inode).fileLength b.bytes
    b.length (s.exfatInodes filp.inode).fileClusters filp.offset 0 s.disk).offset = offset at hwrite
  -- the layer below has moved the offset by `n` already
  have hoffset : offset = filp.offset + n := by
    have hh := hwrite.1
    rwa [show offset + 0 = offset from BitVec.add_zero _] at hh
  subst hoffset
  constructor
  · intro h
    have hh := congrArg File.offset (h.forward hpos)
    simp only [File.advance] at hh
    bv_omega
  · rintro rfl
    exact ⟨fun _ => congrArg (File.mk filp.inode) (BitVec.add_zero _), fun hh => absurd hh hne⟩

theorem vfsWrite_moved {b : Buffer} {n : U64} {filp' : File} {s' : Storage}
    (hw : vfsWrite sb.ops device.storageFops inode s filp b.bytes b.length = .ok (n, filp', s')) :
    Moved filp filp' n ↔ ¬sb.MovesTwice inode s filp b.length := by
  rw [vfsWrite] at hw
  split at hw
  · next htype =>
    simp only [Except.ok.injEq, Prod.mk.injEq] at hw
    obtain ⟨rfl, rfl, -⟩ := hw
    refine iff_of_true (Moved.of_write filp _) ?_
    cases sb with
    | exfat partition =>
      intro h
      exact absurd (htype.symm.trans h.1) (by decide)
    | ramfs => exact id
    | sysfs => exact id
  · split at hw
    · next htype =>
      split at hw
      · cases hw
      · obtain ⟨⟨m, filp₁, s₁⟩, hops, he⟩ := bind_eq_ok hw
        simp only [Except.ok.injEq, Prod.mk.injEq] at he
        obtain ⟨rfl, rfl, rfl⟩ := he
        cases sb with
        | ramfs =>
          obtain ⟨⟨k, filp₂, fs⟩, hlow, he⟩ := bind_eq_ok hops
          obtain ⟨⟨k', fs'⟩, -, hlow⟩ := bind_eq_ok hlow
          cases hlow
          cases he
          exact iff_of_true (Moved.of_write filp _) id
        | sysfs =>
          cases hops
          exact iff_of_true (Moved.of_write filp _) id
        | exfat partition =>
          rw [exfatWrite_moved hops]
          exact ⟨fun h hh => hh.2 h, fun h => not_not.mp fun hh => h ⟨htype, hh⟩⟩
    · next htype =>
      split at hw
      · simp only [Except.ok.injEq, Prod.mk.injEq] at hw
        obtain ⟨rfl, rfl, -⟩ := hw
        refine iff_of_true (Moved.unchanged filp) ?_
        cases sb with
        | exfat partition => exact fun h => htype h.1
        | ramfs => exact id
        | sysfs => exact id
      · cases hw

end Calls

/-- Reads on every file system and device, and writes except for those that exFAT moves
too. A write that moved the offset right leaves it for the next one. -/
theorem offset_moves_by_transfer (sb : Superblock) (device : Device) (inode : Inode) (s : Storage)
    (filp : File) {run : RamfsRun} (hrun : RamfsReachable run) (hs : s.ramfs = run.fs)
    (hf : sb = .ramfs → inode.type = inodeRegularFile → filp.inode ∈ run.files) (b : Buffer) :
    (∀ r, vfsRead sb.ops device.storageFops inode s filp b.bytes b.length = .ok r →
        Moved filp r.filp r.bytesRead) ∧
      ∀ n filp' s', vfsWrite sb.ops device.storageFops inode s filp b.bytes b.length =
          .ok (n, filp', s') →
        ((Moved filp filp' n ↔ ¬sb.MovesTwice inode s filp b.length) ∧
          (¬sb.MovesTwice inode s filp b.length → 0 ≤ n.toInt → ∀ d : Buffer,
            vfsWrite sb.ops device.storageFops inode s' filp' d.bytes d.length =
              vfsWrite sb.ops device.storageFops inode s' ⟨filp.inode, filp.offset + n⟩
                d.bytes d.length)) := by
  have h : RamfsInv s.ramfs run.files := hs ▸ hrun.inv
  refine ⟨fun r hr => vfsRead_moved h hf b hr, fun n filp' s' hw => ⟨vfsWrite_moved hw, ?_⟩⟩
  intro hnot hn d
  rw [((vfsWrite_moved hw).mpr hnot).forward hn]
  rfl

/-- An exFAT file of 20 bytes, for each inode. -/
def smallStorage : Storage where
  ramfs := .init (fourPages 0)
  sysfs := ⟨0, 0, 0, [], [], 0, 0⟩
  exfatInodes _ := ⟨20, [⟨0, 0x1000⟩]⟩
  disk _ := 0

def smallPartition : NvmepartDevice := ⟨⟨9, 1000⟩, 0, 999⟩

def fiveBytes : Buffer := ⟨fun _ => 0x41, 5, by decide⟩

/-- A write of five bytes moves the offset to ten. -/
theorem exfat_write_moves_twice : ∃ s',
    vfsWrite (Superblock.exfat smallPartition).ops Device.zero.storageFops
        ⟨inodeRegularFile, 1, 0, []⟩ smallStorage ⟨7, 0⟩ fiveBytes.bytes fiveBytes.length =
      .ok (5, ⟨7, 10⟩, s') ∧ ¬Moved ⟨7, 0⟩ ⟨7, 10⟩ 5 := by
  refine ⟨_, rfl, fun h => ?_⟩
  exact absurd (congrArg File.offset (h.forward (by decide))) (by decide)

theorem offset_moves_by_transfer_zero : ∃ s',
    vfsWrite Superblock.ramfs.ops Device.zero.storageFops ⟨inodeDevice, 1, 0, []⟩ smallStorage
        ⟨7, 2⟩ fiveBytes.bytes fiveBytes.length = .ok (5, ⟨7, 7⟩, s') ∧
      Moved ⟨7, 2⟩ ⟨7, 7⟩ 5 := by
  have h := @offset_moves_by_transfer .ramfs .zero ⟨inodeDevice, 1, 0, []⟩ smallStorage ⟨7, 2⟩
    (.boot (fourPages 0)) ⟨_, [], rfl⟩ rfl (fun _ hh => absurd hh (by decide)) fiveBytes
  exact ⟨_, rfl, (h.2 _ _ _ rfl).1.mpr id⟩

end Persistos
