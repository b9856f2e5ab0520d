import Persistos.Word
import Persistos.Theory.ByteStrings

/-! EXEC packs the arguments into a page, moves the pointers to where the page
will be on the user's stack, and `_start` counts them again. -/

namespace Persistos

open Theory

/-- `argc`, counted until the NULL of `argv`. -/
def countArgs (memory : ByteMemory) (argv : U64) : Nat → Nat → Except Crash Nat
  | 0, _ => .error .endless
  | fuel + 1, argc =>
    if load64 memory (argv + BitVec.ofNat 64 (8 * argc)) ≠ 0 then
      countArgs memory argv fuel (argc + 1)
    else .ok argc

/-- `strlen` of a string in memory. -/
def strlenAt (memory : ByteMemory) (str : U64) : Nat → Nat → Except Crash Nat
  | 0, _ => .error .endless
  | fuel + 1, len =>
    if memory (str + BitVec.ofNat 64 len) ≠ 0 then strlenAt memory str fuel (len + 1)
    else .ok len

/-- The loop that copies the arguments from `i` on, `n` of them, below `stackTop`. -/
def packArgs (fuel : Nat) (argv relocatedArgPointers : U64) :
    Nat → Nat → ByteMemory → U64 → Except Crash (ByteMemory × U64)
  | 0, _, memory, stackTop => .ok (memory, stackTop)
  | n + 1, i, memory, stackTop => do
    let arg := load64 memory (argv + BitVec.ofNat 64 (8 * i))
    let argStrlen ← strlenAt memory arg fuel 0
    let relocatedArg := stackTop - BitVec.ofNat 64 argStrlen - 1
    let memory := copyBytes memory relocatedArg arg (argStrlen + 1)
    let memory := store64 memory (relocatedArgPointers + BitVec.ofNat 64 (8 * i)) relocatedArg
    packArgs fuel argv relocatedArgPointers n (i + 1) memory relocatedArg

/-- `relocated_arg_pointers[i] += user_address_delta`, `n` times from `i` on. -/
def relocateArgs (relocatedArgPointers userAddressDelta : U64) :
    Nat → Nat → ByteMemory → ByteMemory
  | 0, _, memory => memory
  | n + 1, i, memory =>
    let p := relocatedArgPointers + BitVec.ofNat 64 (8 * i)
    relocateArgs relocatedArgPointers userAddressDelta n (i + 1)
      (store64 memory p (load64 memory p + userAddressDelta))

/-- `user_entry_rsp` as `load_elf64` sets it. -/
def userEntryRsp : U64 := 0x0000800000000000

/-- The frame slots of `rip` and `rsp` above the saved registers. -/
def entryRipSlot (interruptRsp : U64) : U64 := interruptRsp + BitVec.ofNat 64 (8 * 14)
def entryRspSlot (interruptRsp : U64) : U64 := interruptRsp + BitVec.ofNat 64 (8 * (14 + 3))

/-- The page at `stackBuffer` once the arguments are packed, with `argc`,
`relocated_arg_pointers` and `stack_top`. -/
def packStack (fuel : Nat) (memory : ByteMemory) (stackBuffer argv : U64) :
    Except Crash (ByteMemory × Nat × U64 × U64) := do
  let memory := fillBytes memory stackBuffer 0 4096
  let argc ← countArgs memory argv fuel 0
  let stackEnd := stackBuffer + 4096
  let relocatedArgPointers := stackEnd - BitVec.ofNat 64 (8 * (argc + 1))
  let (memory, stackTop) ←
    packArgs fuel argv relocatedArgPointers argc 0 memory relocatedArgPointers
  let memory := store64 memory (relocatedArgPointers + BitVec.ofNat 64 (8 * argc)) 0
  let relocatedArgPointersPointer := (stackTop - 8) &&& 0xFFFFFFFFFFFFFFF8
  let memory := store64 memory relocatedArgPointersPointer relocatedArgPointers
  return (memory, argc, relocatedArgPointers, relocatedArgPointersPointer)

/-- What EXEC does once the new program is in memory. -/
def passStack (memory : ByteMemory) (argc : Nat)
    (stackBuffer relocatedArgPointers relocatedArgPointersPointer interruptRsp userEntryRip : U64) :
    ByteMemory :=
  let stackEnd := stackBuffer + 4096
  let stackLength := stackEnd - relocatedArgPointersPointer
  let userAddressDelta := userEntryRsp - stackEnd
  let memory := relocateArgs relocatedArgPointers userAddressDelta argc 0 memory
  let memory := store64 memory relocatedArgPointersPointer
    (load64 memory relocatedArgPointersPointer + userAddressDelta)
  let memory := copyBytes memory (userEntryRsp - stackLength) relocatedArgPointersPointer
    stackLength.toNat
  let memory := store64 memory (entryRipSlot interruptRsp) userEntryRip
  store64 memory (entryRspSlot interruptRsp) (userEntryRsp - stackLength)

/-- SYSCALL_EXEC. `load` resolves the path and loads the program, with its entry
point, or finds no file. -/
def sysExec (fuel : Nat) (load : ByteMemory → Option (ByteMemory × U64)) (memory : ByteMemory)
    (stackBuffer argv interruptRsp : U64) : Except Crash (ByteMemory × U64) := do
  let (memory, argc, relocatedArgPointers, relocatedArgPointersPointer) ←
    packStack fuel memory stackBuffer argv
  match load memory with
  | none => return (memory, -1)
  | some (memory, userEntryRip) =>
    return (passStack memory argc stackBuffer relocatedArgPointers relocatedArgPointersPointer
      interruptRsp userEntryRip, 0)

/-- The loop of `_start`. -/
def startCount (memory : ByteMemory) : Nat → U64 → U64 → Except Crash U64
  | 0, _, _ => .error .endless
  | fuel + 1, rdi, rsi =>
    if load64 memory rsi = 0 then .ok rdi else startCount memory fuel (rdi + 1) (rsi + 8)

/-- `rdi` and `rsi` where `_start` calls `main`. -/
def start (fuel : Nat) (memory : ByteMemory) (rsp : U64) : Except Crash (U64 × U64) := do
  let rdi ← startCount memory fuel 0 (load64 memory rsp)
  return (rdi, load64 memory rsp)

end Persistos
