import Persistos.Sprintf
import Persistos.Vfs

/-! The files of sysfs. A read at offset zero copies the text of the file piece
by piece, as far as the buffer goes. -/

namespace Persistos

open Theory

structure PciDevice where
  bus : U8
  slot : U8
  function : U8
  vendorId : U16
  deviceId : U16
  classCode : U8
  subclass : U8
  progIf : U8
  mmioPhysBase : U64
  mmioSize : U32
  mmioVirtBase : U64
  interruptLine : U8

/-- The members of `struct nvme_device` that sysfs shows. -/
structure NvmeStatus where
  pciDevice : PciDevice
  majorVersion : U16
  minorVersion : U8
  asqTail : U8
  asqHead : U8
  acqHead : U8
  iosqTail : U8
  iosqHead : U8
  iocqHead : U8
  lbaCount : U64
  lbadsExponent : U8

/-- `pciDevices` and `nvmeDevices` are the entries of the arrays that are in use. -/
structure Sysfs where
  pciinfoInode : U64
  nvmeInode : U64
  meminfoInode : U64
  pciDevices : List PciDevice
  nvmeDevices : List NvmeStatus
  kmemTotalPages : U64
  kmemUsedPages : U64

def PciDevice.pieces (dev : PciDevice) : List (List U8) :=
  [ascii "Pci(", sprintfUint8 dev.bus, ascii ":", sprintfUint8 dev.slot, ascii ".",
    sprintfUint8 dev.function, ascii " d=", sprintfUint16 dev.vendorId, ascii ":",
    sprintfUint16 dev.deviceId, ascii " c=", sprintfUint8 dev.classCode, ascii ":",
    sprintfUint8 dev.subclass, ascii ":", sprintfUint8 dev.progIf, ascii " mb=",
    sprintfUint64 dev.mmioPhysBase, ascii " ms=", sprintfUint32 dev.mmioSize, ascii " bb=",
    sprintfUint64 dev.mmioVirtBase, ascii " il=", sprintfUint8 dev.interruptLine, ascii ")\n"]

def NvmeStatus.pieces (dev : NvmeStatus) : List (List U8) :=
  [ascii "Nvme(", sprintfUint8 dev.pciDevice.bus, ascii ":", sprintfUint8 dev.pciDevice.slot,
    ascii ".", sprintfUint8 dev.pciDevice.function, ascii " addr=",
    sprintfUint32 (dev.pciDevice.mmioPhysBase.setWidth 32), ascii " ver=",
    sprintfUint8 (dev.majorVersion.setWidth 8), ascii ".", sprintfUint8 dev.minorVersion,
    ascii " asq_tail=", sprintfUint8 dev.asqTail, ascii " asq_head=", sprintfUint8 dev.asqHead,
    ascii " acq_head=", sprintfUint8 dev.acqHead, ascii " iosq_tail=", sprintfUint8 dev.iosqTail,
    ascii " iosq_head=", sprintfUint8 dev.iosqHead, ascii " iocq_head=",
    sprintfUint8 dev.iocqHead, ascii " lba_count=", sprintfUint64 dev.lbaCount,
    ascii " lbads_exp=", sprintfUint8 dev.lbadsExponent, ascii ")\n"]

namespace Sysfs

def meminfoPieces (fs : Sysfs) : List (List U8) :=
  [ascii "total_memory_kib = ", sprintfDec ((fs.kmemTotalPages * 4).setWidth 32) 0 0,
    ascii "\nused_memory_kib = ", sprintfDec ((fs.kmemUsedPages * 4).setWidth 32) 0 0, ascii "\n"]

/-- The strings that `sysfs_read` copies for an inode. -/
def pieces (fs : Sysfs) (inode : U64) : Except Crash (List (List U8)) :=
  if inode = fs.pciinfoInode then .ok (fs.pciDevices.flatMap PciDevice.pieces)
  else if inode = fs.nvmeInode then .ok (fs.nvmeDevices.flatMap NvmeStatus.pieces)
  else if inode = fs.meminfoInode then .ok fs.meminfoPieces
  else .error (.panic "Unknown sysfs inode")

end Sysfs

/-- `buffer` with the position of `*destination` in it, and `*destination_length`. -/
structure SafeCopy where
  buffer : Nat → U8
  destination : Nat
  destinationLength : U64

def safeCopyPal (c : SafeCopy) (source : List U8) : SafeCopy :=
  let sourceLength : U64 := BitVec.ofNat 64 source.length
  let bytesToCopy := if c.destinationLength < sourceLength then c.destinationLength
    else sourceLength
  { buffer := overlay c.buffer c.destination bytesToCopy.toNat (source.getD · 0)
    destination := c.destination + bytesToCopy.toNat
    destinationLength := c.destinationLength - bytesToCopy }

/-- `safe_copy_string` of a string that ends at the first zero byte of `source`. -/
def safeCopyString (c : SafeCopy) (source : List U8) : SafeCopy :=
  safeCopyPal c (source.take (strlen source))

def sysfsRead (fs : Sysfs) (filp : File) (buffer : Nat → U8) (length : U64) :
    Except Crash (ReadResult Sysfs) :=
  if filp.offset > 0 then .ok ⟨0, filp, buffer, fs⟩
  else do
    let pieces ← fs.pieces filp.inode
    let c := pieces.foldl safeCopyString ⟨buffer, 0, length⟩
    let offset : U64 := BitVec.ofNat 64 c.destination
    .ok ⟨offset, { filp with offset }, c.buffer, fs⟩

def sysfsSuperblockOps : FilesystemOps Sysfs where
  createFileInode fs parentDir _ _ := .ok (-1, parentDir, fs)
  createDirInode fs parentDir _ _ := .ok (-1, parentDir, fs)
  read := sysfsRead
  write fs filp _ _ := .ok (-1, filp, fs)
  setSize fs _ _ := .ok (-1, fs)

/-- What has been copied and what is left of the buffer are its length together. -/
theorem foldl_safeCopyString (pieces : List (List U8)) (c : SafeCopy) :
    let d := pieces.foldl safeCopyString c
    d.destination + d.destinationLength.toNat = c.destination + c.destinationLength.toNat := by
  induction pieces generalizing c with
  | nil => rfl
  | cons piece pieces ih =>
    have hstep : (safeCopyString c piece).destination +
        (safeCopyString c piece).destinationLength.toNat =
        c.destination + c.destinationLength.toNat := by
      dsimp only [safeCopyString, safeCopyPal]
      split
      · next hlt => bv_omega
      · next hlt => bv_omega
    exact (ih (safeCopyString c piece)).trans hstep

end Persistos
