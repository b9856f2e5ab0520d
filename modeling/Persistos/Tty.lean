import Persistos.Word
import Persistos.Theory.PackedFlags

/-! The three terminals and the framebuffer that they share. Each has its own characters
and flags, and only the active one is painted. -/

namespace Persistos

open Theory

def vtMaxWidth : Nat := 240
def vtMaxHeight : Nat := 135

def vtEscapeNone : U8 := 0
def vtEscapeEsc : U8 := 1
def vtEscapeEscParen : U8 := 2

/-- A framebuffer that has room for a character, and that the 16-bit coordinates of the
code reach all of. `pitch` is the distance of two rows in bytes. -/
structure LimineFramebuffer where
  width : Nat
  height : Nat
  pitch : Nat
  one_cell : 16 ≤ width ∧ 16 ≤ height
  reached : width < 2 ^ 16 ∧ height < 2 ^ 16
  rows_apart : width ≤ pitch / 4

structure VtDevice where
  cursorRow : Nat
  cursorColumn : Nat
  terminalWidth : Nat
  terminalHeight : Nat
  escapeType : U8
  terminalBuffer : Nat → U8
  repaintFlags : Nat → U8
  framebuffer : LimineFramebuffer
  deviceNumber : U32

inductive Terminal where
  | tty1
  | tty2
  | tty3
  deriving DecidableEq, Repr

/-- `pixels` is the memory of the framebuffer in dwords. -/
structure Tty where
  vt : Terminal → VtDevice
  activeVtDevice : Terminal
  pixels : Nat → U32

def vtBackgroundColor (x y width height deviceNumber : U16) : U32 :=
  let red : U32 := (if deviceNumber = 1 then 60 else 0) + x.setWidth 32 * 128 / width.setWidth 32
  let green : U32 := if deviceNumber = 2 then 60 else 0
  let blue : U32 := (if deviceNumber = 3 then 60 else 0) + y.setWidth 32 * 128 / height.setWidth 32
  (red <<< 16) + (green <<< 8) + blue

def desktopColor (x y width height : U16) : U32 :=
  let blue : U32 := x.setWidth 32 * 255 / width.setWidth 32
  let red : U32 := y.setWidth 32 * 255 / height.setWidth 32
  let green := (red + blue) / 2
  (red <<< 16) + (green <<< 8) + blue

namespace LimineFramebuffer

/-- `pixel_y * fb_dword_pitch + pixel_x` -/
def pixelIndex (fb : LimineFramebuffer) (x y : Nat) : Nat := y * (fb.pitch / 4) + x

def width16 (fb : LimineFramebuffer) : U16 := BitVec.ofNat 16 fb.width
def height16 (fb : LimineFramebuffer) : U16 := BitVec.ofNat 16 fb.height

def repaintDesktop (fb : LimineFramebuffer) (pixels : Nat → U32) : Nat → U32 :=
  (List.range fb.height).foldl (fun pixels y =>
    (List.range fb.width).foldl (fun pixels x =>
      let color := desktopColor (BitVec.ofNat 16 x) (BitVec.ofNat 16 y) fb.width16 fb.height16
      Function.update pixels (fb.pixelIndex x y) color) pixels) pixels

end LimineFramebuffer

def vtDeviceInit (framebuffer : LimineFramebuffer) (deviceNumber : U32) : VtDevice where
  cursorRow := 0
  cursorColumn := 0
  terminalWidth :=
    if framebuffer.width / 16 ≤ vtMaxWidth then framebuffer.width / 16 else vtMaxWidth
  terminalHeight :=
    if framebuffer.height / 16 ≤ vtMaxHeight then framebuffer.height / 16 else vtMaxHeight
  escapeType := vtEscapeNone
  terminalBuffer := fun _ => 0
  repaintFlags := fun i => if i < vtMaxWidth * vtMaxHeight / 8 + 1 then 0xFF else 0
  framebuffer := framebuffer
  deviceNumber := deviceNumber

namespace VtDevice

def bufferIndex (row column : Nat) : Nat := row * vtMaxWidth + column

def vtSetChar (vt : VtDevice) (character : U8) (row column : Nat) : VtDevice :=
  let terminalBufferIndex := bufferIndex row column
  { vt with
    terminalBuffer := Function.update vt.terminalBuffer terminalBufferIndex character
    repaintFlags := setFlag vt.repaintFlags terminalBufferIndex }

def vtSetCursor (vt : VtDevice) (row column : Nat) : VtDevice :=
  let oldTerminalBufferIndex := bufferIndex vt.cursorRow vt.cursorColumn
  let newTerminalBufferIndex := bufferIndex row column
  { vt with
    cursorRow := row
    cursorColumn := column
    repaintFlags :=
      setFlag (setFlag vt.repaintFlags oldTerminalBufferIndex) newTerminalBufferIndex }

/-- The characters of row `y + 1` go to row `y`. -/
def vtShiftRow (vt : VtDevice) (y : Nat) : VtDevice :=
  (List.range vt.terminalWidth).foldl (fun vt x =>
    vt.vtSetChar (vt.terminalBuffer (vtMaxWidth * (y + 1) + x)) y x) vt

/-- The columns from `column` on become blank. -/
def vtClearFrom (vt : VtDevice) (row column : Nat) : VtDevice :=
  (List.range' column (vt.terminalWidth - column)).foldl (fun vt x => vt.vtSetChar 0x20 row x) vt

def vtShiftRows (vt : VtDevice) : VtDevice :=
  let vt' := (List.range (vt.terminalHeight - 1)).foldl vtShiftRow vt
  vt'.vtClearFrom (vt'.terminalHeight - 1) 0

/-- The loop of `ESC [ J`. -/
def vtClearDown : Nat → VtDevice → Nat → Nat → Except Crash VtDevice
  | 0, _, _, _ => .error .endless
  | passes + 1, vt, row, col =>
    let vt := vt.vtSetChar 0x20 row col
    let next := if col + 1 = vt.terminalWidth then (row + 1, 0) else (row, col + 1)
    if next.1 = vt.terminalHeight then .ok vt else vtClearDown passes vt next.1 next.2

def escapeNone (vt : VtDevice) : VtDevice := { vt with escapeType := vtEscapeNone }

/-- The byte after `ESC [`. -/
def vtWriteEscape (vt : VtDevice) (byte : U8) : Except Crash VtDevice :=
  if byte = 0x41 then
    .ok (if vt.cursorRow ≠ 0 then vt.vtSetCursor (vt.cursorRow - 1) vt.cursorColumn else vt)
  else if byte = 0x42 then
    .ok (if vt.cursorRow ≠ vt.terminalHeight - 1 then
      vt.vtSetCursor (vt.cursorRow + 1) vt.cursorColumn else vt)
  else if byte = 0x43 then
    .ok (if vt.cursorColumn ≠ vt.terminalWidth - 1 then
      vt.vtSetCursor vt.cursorRow (vt.cursorColumn + 1) else vt)
  else if byte = 0x44 then
    .ok (if vt.cursorColumn ≠ 0 then vt.vtSetCursor vt.cursorRow (vt.cursorColumn - 1) else vt)
  else if byte = 0x4B then .ok (vt.vtClearFrom vt.cursorRow vt.cursorColumn)
  else if byte = 0x48 then .ok (vt.vtSetCursor 0 0)
  else if byte = 0x4A then
    vtClearDown (vtMaxWidth * vtMaxHeight) vt vt.cursorRow vt.cursorColumn
  else .ok vt

/-- The cursor goes to the start of the next row, and the rows move up for it below. -/
def vtNextRow (vt : VtDevice) : VtDevice :=
  if vt.cursorRow = vt.terminalHeight - 1 then (vt.vtSetCursor vt.cursorRow 0).vtShiftRows
  else vt.vtSetCursor (vt.cursorRow + 1) 0

/-- A byte outside of an escape sequence. -/
def vtWritePlain (vt : VtDevice) (byte : U8) : VtDevice :=
  if byte = 0x1B then { vt with escapeType := vtEscapeEsc }
  else if byte = 0x0A then vt.vtNextRow
  else if byte = 0x0D then vt.vtSetCursor vt.cursorRow 0
  else if byte = 0x08 then
    if vt.cursorColumn > 0 then vt.vtSetCursor vt.cursorRow (vt.cursorColumn - 1) else vt
  else
    let vt' := vt.vtSetChar byte vt.cursorRow vt.cursorColumn
    if vt'.cursorColumn = vt'.terminalWidth - 1 then vt'.vtNextRow
    else vt'.vtSetCursor vt'.cursorRow (vt'.cursorColumn + 1)

/-- One pass of the loop of `vt_write`. -/
def vtWriteByte (vt : VtDevice) (byte : U8) : Except Crash VtDevice :=
  if vt.escapeType = vtEscapeEscParen then (vt.vtWriteEscape byte).map escapeNone
  else if vt.escapeType = vtEscapeEsc then
    .ok { vt with escapeType := if byte = 0x5B then vtEscapeEscParen else vtEscapeNone }
  else if vt.escapeType = vtEscapeNone then .ok (vt.vtWritePlain byte)
  else .error .endless

def glyphIdx (asciiChar : U8) : Nat :=
  if asciiChar < 32 ∨ asciiChar > 32 + 95 then 0 else (asciiChar - 32).toNat

def vtTextColor : U32 := 0x00ff00

/-- The colour of pixel `j` in the left half (0) or the right half (1) of line `i` of a
character. `font` are the bytes from `Font16x16` on, of which the last character reads
some behind the table. -/
def vtColor (font : Nat → U8) (vt : VtDevice) (row column i half j : Nat) : U32 :=
  let b := font (glyphIdx (vt.terminalBuffer (bufferIndex row column)) * 32 + i * 2 + half)
  let pixelX := BitVec.ofNat 16 (16 * column + j + 8 * half)
  let pixelY := BitVec.ofNat 16 (16 * row + i)
  let color :=
    if (b >>> (7 - j)) &&& 1 ≠ 0 then vtTextColor
    else vtBackgroundColor pixelX pixelY vt.framebuffer.width16 vt.framebuffer.height16
      (vt.deviceNumber.setWidth 16)
  if row = vt.cursorRow ∧ column = vt.cursorColumn ∧ (i = 0 ∨ i = 15 ∨ j = 7 * half) then
    vtTextColor
  else color

/-- Either inner loop of `vt_repaint_char`. -/
def vtRepaintHalf (font : Nat → U8) (vt : VtDevice) (row column i half : Nat)
    (pixels : Nat → U32) : Nat → U32 :=
  (List.range 8).foldl (fun pixels j =>
    Function.update pixels (vt.framebuffer.pixelIndex (16 * column + j + 8 * half) (16 * row + i))
      (vtColor font vt row column i half j)) pixels

def vtRepaintChar (font : Nat → U8) (vt : VtDevice) (row column : Nat) (pixels : Nat → U32) :
    Nat → U32 :=
  (List.range 16).foldl (fun pixels i =>
    vtRepaintHalf font vt row column i 1 (vtRepaintHalf font vt row column i 0 pixels)) pixels

/-- One pass of the inner loop of `vt_repaint_terminal`. -/
def vtRepaintCell (font : Nat → U8) (row : Nat) (s : VtDevice × (Nat → U32)) (column : Nat) :
    VtDevice × (Nat → U32) :=
  if testFlag s.1.repaintFlags (bufferIndex row column) then
    ({ s.1 with repaintFlags := flipFlag s.1.repaintFlags (bufferIndex row column) },
      vtRepaintChar font s.1 row column s.2)
  else s

def vtRepaintRow (font : Nat → U8) (s : VtDevice × (Nat → U32)) (row : Nat) :
    VtDevice × (Nat → U32) :=
  (List.range s.1.terminalWidth).foldl (vtRepaintCell font row) s

def vtRepaintTerminal (font : Nat → U8) (s : VtDevice × (Nat → U32)) : VtDevice × (Nat → U32) :=
  (List.range s.1.terminalHeight).foldl (vtRepaintRow font) s

/-- `memset` of `repaint_flags`. -/
def repaintAll (vt : VtDevice) : VtDevice :=
  { vt with repaintFlags := fun i =>
      if i < vtMaxWidth * vtMaxHeight / 8 + 1 then 0xFF else vt.repaintFlags i }

end VtDevice

namespace Tty

def vtRepaintTerminal (font : Nat → U8) (s : Tty) (n : Terminal) : Tty :=
  let painted := VtDevice.vtRepaintTerminal font (s.vt n, s.pixels)
  { s with vt := Function.update s.vt n painted.1, pixels := painted.2 }

def setActiveVt (font : Nat → U8) (s : Tty) (n : Terminal) : Tty :=
  let vt := (s.vt n).repaintAll
  vtRepaintTerminal font
    ⟨Function.update s.vt n vt, n, vt.framebuffer.repaintDesktop s.pixels⟩ n

/-- The terminals after `terminal_init_1`, over any contents of the framebuffer. -/
def terminalInit1 (font : Nat → U8) (framebuffer : LimineFramebuffer) (pixels : Nat → U32) : Tty :=
  let vt : Terminal → VtDevice
    | .tty1 => vtDeviceInit framebuffer 1
    | .tty2 => vtDeviceInit framebuffer 2
    | .tty3 => vtDeviceInit framebuffer 3
  setActiveVt font ⟨vt, .tty1, pixels⟩ .tty1

/-- The terminals after the call, and the result. -/
def vtWrite (font : Nat → U8) (s : Tty) (n : Terminal) (buffer : List U8) :
    Except Crash (Tty × Nat) := do
  let vt ← buffer.foldlM VtDevice.vtWriteByte (s.vt n)
  let s := { s with vt := Function.update s.vt n vt }
  .ok (if n = s.activeVtDevice then vtRepaintTerminal font s n else s, buffer.length)

end Tty

inductive TtyCall where
  | write (n : Terminal) (buffer : List U8)
  | setActive (n : Terminal)

namespace Tty

def call (font : Nat → U8) (s : Tty) : TtyCall → Except Crash Tty
  | .write n buffer => (vtWrite font s n buffer).map Prod.fst
  | .setActive n => .ok (setActiveVt font s n)

/-- The calls, one after the other. -/
def run (font : Nat → U8) (s : Tty) (calls : List TtyCall) : Except Crash Tty :=
  calls.foldlM (call font) s

end Tty

end Persistos
