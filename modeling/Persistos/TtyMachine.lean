import Persistos.TtyEdits

/-! A terminal with the 16-bit members of the code, which checks every access to its two
arrays. No check ever fails, and it does what the terminal without them does. -/

namespace Persistos

open Theory

structure VtMachine where
  cursorRow : U16
  cursorColumn : U16
  terminalWidth : U16
  terminalHeight : U16
  escapeType : U8
  terminalBuffer : Nat → U8
  repaintFlags : Nat → U8

namespace VtMachine

/-- The character and the flag with this index are in their arrays, and they are those of a
row and a column of the terminal. -/
structure Holds (vt : VtMachine) (index : Nat) : Prop where
  character : index < vtMaxWidth * vtMaxHeight
  flag : index >>> 3 < vtMaxWidth * vtMaxHeight / 8 + 1
  row : index / vtMaxWidth < vt.terminalHeight.toNat
  column : index % vtMaxWidth < vt.terminalWidth.toNat

instance (vt : VtMachine) (index : Nat) : Decidable (vt.Holds index) :=
  decidable_of_iff (index < vtMaxWidth * vtMaxHeight ∧
    index >>> 3 < vtMaxWidth * vtMaxHeight / 8 + 1 ∧
    index / vtMaxWidth < vt.terminalHeight.toNat ∧ index % vtMaxWidth < vt.terminalWidth.toNat)
    ⟨fun h => ⟨h.1, h.2.1, h.2.2.1, h.2.2.2⟩, fun h => ⟨h.1, h.2, h.3, h.4⟩⟩

def access (vt : VtMachine) (index : Nat) : Except Crash Nat :=
  if vt.Holds index then .ok index else .error .outOfBounds

def bufferIndex (row column : U16) : U32 := row.setWidth 32 * 240 + column.setWidth 32

def vtSetChar (vt : VtMachine) (character : U8) (row column : U16) : Except Crash VtMachine := do
  let terminalBufferIndex ← vt.access (bufferIndex row column).toNat
  .ok { vt with
    terminalBuffer := Function.update vt.terminalBuffer terminalBufferIndex character
    repaintFlags := setFlag vt.repaintFlags terminalBufferIndex }

def vtSetCursor (vt : VtMachine) (row column : U16) : Except Crash VtMachine := do
  let oldTerminalBufferIndex ← vt.access (bufferIndex vt.cursorRow vt.cursorColumn).toNat
  let newTerminalBufferIndex ← vt.access (bufferIndex row column).toNat
  .ok { vt with
    cursorRow := row
    cursorColumn := column
    repaintFlags :=
      setFlag (setFlag vt.repaintFlags oldTerminalBufferIndex) newTerminalBufferIndex }

def vtShiftRow (vt : VtMachine) (y : Nat) : Except Crash VtMachine :=
  (List.range vt.terminalWidth.toNat).foldlM (fun vt x => do
    let sourceIndex ← vt.access (vtMaxWidth * (y + 1) + x)
    vt.vtSetChar (vt.terminalBuffer sourceIndex) (BitVec.ofNat 16 y) (BitVec.ofNat 16 x)) vt

def vtClearFrom (vt : VtMachine) (row column : U16) : Except Crash VtMachine :=
  (List.range' column.toNat (vt.terminalWidth.toNat - column.toNat)).foldlM
    (fun vt x => vt.vtSetChar 0x20 row (BitVec.ofNat 16 x)) vt

/-- `terminal_height - 1`, as a number of 32 bits. -/
def lastRow (vt : VtMachine) : U32 := vt.terminalHeight.setWidth 32 - 1

def lastColumn (vt : VtMachine) : U32 := vt.terminalWidth.setWidth 32 - 1

def vtShiftRows (vt : VtMachine) : Except Crash VtMachine := do
  let vt ← (List.range (vt.terminalHeight.setWidth 64 - 1 : U64).toNat).foldlM vtShiftRow vt
  vt.vtClearFrom (vt.lastRow.setWidth 16) 0

def vtClearDown : Nat → VtMachine → U16 → U16 → Except Crash VtMachine
  | 0, _, _, _ => .error .endless
  | passes + 1, vt, row, col => do
    let vt ← vt.vtSetChar 0x20 row col
    let next := if col + 1 = vt.terminalWidth then (row + 1, 0) else (row, col + 1)
    if next.1 = vt.terminalHeight then .ok vt else vtClearDown passes vt next.1 next.2

def escapeNone (vt : VtMachine) : VtMachine := { vt with escapeType := vtEscapeNone }

def vtWriteEscape (vt : VtMachine) (byte : U8) : Except Crash VtMachine :=
  if byte = 0x41 then
    if vt.cursorRow ≠ 0 then vt.vtSetCursor (vt.cursorRow - 1) vt.cursorColumn else .ok vt
  else if byte = 0x42 then
    if vt.cursorRow.setWidth 32 ≠ vt.lastRow then
      vt.vtSetCursor (vt.cursorRow + 1) vt.cursorColumn
    else .ok vt
  else if byte = 0x43 then
    if vt.cursorColumn.setWidth 32 ≠ vt.lastColumn then
      vt.vtSetCursor vt.cursorRow (vt.cursorColumn + 1)
    else .ok vt
  else if byte = 0x44 then
    if vt.cursorColumn ≠ 0 then vt.vtSetCursor vt.cursorRow (vt.cursorColumn - 1) else .ok vt
  else if byte = 0x4B then vt.vtClearFrom vt.cursorRow vt.cursorColumn
  else if byte = 0x48 then vt.vtSetCursor 0 0
  else if byte = 0x4A then
    vtClearDown (vtMaxWidth * vtMaxHeight) vt vt.cursorRow vt.cursorColumn
  else .ok vt

def vtNextRow (vt : VtMachine) : Except Crash VtMachine :=
  if vt.cursorRow.setWidth 32 = vt.lastRow then vt.vtSetCursor vt.cursorRow 0 >>= vtShiftRows
  else vt.vtSetCursor (vt.cursorRow + 1) 0

def vtWritePlain (vt : VtMachine) (byte : U8) : Except Crash VtMachine :=
  if byte = 0x1B then .ok { vt with escapeType := vtEscapeEsc }
  else if byte = 0x0A then vt.vtNextRow
  else if byte = 0x0D then vt.vtSetCursor vt.cursorRow 0
  else if byte = 0x08 then
    if vt.cursorColumn > 0 then vt.vtSetCursor vt.cursorRow (vt.cursorColumn - 1) else .ok vt
  else do
    let vt ← vt.vtSetChar byte vt.cursorRow vt.cursorColumn
    if vt.cursorColumn.setWidth 32 = vt.lastColumn then vt.vtNextRow
    else vt.vtSetCursor vt.cursorRow (vt.cursorColumn + 1)

def vtWriteByte (vt : VtMachine) (byte : U8) : Except Crash VtMachine :=
  if vt.escapeType = vtEscapeEscParen then (vt.vtWriteEscape byte).map escapeNone
  else if vt.escapeType = vtEscapeEsc then
    .ok { vt with escapeType := if byte = 0x5B then vtEscapeEscParen else vtEscapeNone }
  else if vt.escapeType = vtEscapeNone then vt.vtWritePlain byte
  else .error .endless

/-- One pass of the inner loop of `vt_repaint_terminal`, which reads the character that it
paints. -/
def vtRepaintCell (row : Nat) (vt : VtMachine) (column : Nat) : Except Crash VtMachine := do
  let index := (bufferIndex (BitVec.ofNat 16 row) (BitVec.ofNat 16 column)).toNat
  let flagIndex ← vt.access index
  if testFlag vt.repaintFlags flagIndex then do
    let _ ← vt.access index
    .ok { vt with repaintFlags := flipFlag vt.repaintFlags flagIndex }
  else .ok vt

def vtRepaintTerminal (vt : VtMachine) : Except Crash VtMachine :=
  (List.range vt.terminalHeight.toNat).foldlM (fun vt row =>
    (List.range vt.terminalWidth.toNat).foldlM (vtRepaintCell row) vt) vt

/-- `active` says whether the terminal is the one that is shown. -/
def vtWrite (vt : VtMachine) (active : Bool) (buffer : List U8) : Except Crash VtMachine := do
  let vt ← buffer.foldlM vtWriteByte vt
  if active then vt.vtRepaintTerminal else .ok vt

/-- The calls of `vt_write`, one after the other. -/
def writes (vt : VtMachine) (calls : List (Bool × List U8)) : Except Crash VtMachine :=
  calls.foldlM (fun vt call => vt.vtWrite call.1 call.2) vt

/-- The terminal without the checks. -/
def device (vt : VtMachine) (framebuffer : LimineFramebuffer) (deviceNumber : U32) : VtDevice where
  cursorRow := vt.cursorRow.toNat
  cursorColumn := vt.cursorColumn.toNat
  terminalWidth := vt.terminalWidth.toNat
  terminalHeight := vt.terminalHeight.toNat
  escapeType := vt.escapeType
  terminalBuffer := vt.terminalBuffer
  repaintFlags := vt.repaintFlags
  framebuffer := framebuffer
  deviceNumber := deviceNumber

/-- `d` is what `vt` is without the checks, and inside its screen. -/
structure Tracks (w h : U16) (vt : VtMachine) (d : VtDevice) : Prop where
  device : vt.device d.framebuffer d.deviceNumber = d
  within : d.Within
  width : vt.terminalWidth = w
  height : vt.terminalHeight = h

variable {w h : U16} {vt : VtMachine} {d : VtDevice}

namespace Tracks

theorem terminalWidth (ht : Tracks w h vt d) : d.terminalWidth = w.toNat := by
  rw [← ht.device, ← ht.width]
  rfl

theorem terminalHeight (ht : Tracks w h vt d) : d.terminalHeight = h.toNat := by
  rw [← ht.device, ← ht.height]
  rfl

theorem cursorRow (ht : Tracks w h vt d) : d.cursorRow = vt.cursorRow.toNat := by
  rw [← ht.device]
  rfl

theorem cursorColumn (ht : Tracks w h vt d) : d.cursorColumn = vt.cursorColumn.toNat := by
  rw [← ht.device]
  rfl

theorem escapeType (ht : Tracks w h vt d) : d.escapeType = vt.escapeType := by
  rw [← ht.device]
  rfl

theorem bounds (ht : Tracks w h vt d) : w.toNat ≤ 240 ∧ h.toNat ≤ 135 := by
  rw [← ht.terminalWidth, ← ht.terminalHeight]
  exact ⟨ht.within.width, ht.within.height⟩

theorem row_lt (ht : Tracks w h vt d) : vt.cursorRow.toNat < h.toNat := by
  rw [← ht.cursorRow, ← ht.terminalHeight]
  exact ht.within.row

theorem column_lt (ht : Tracks w h vt d) : vt.cursorColumn.toNat < w.toNat := by
  rw [← ht.cursorColumn, ← ht.terminalWidth]
  exact ht.within.column

theorem access (ht : Tracks w h vt d) {r c : Nat} (hr : r < h.toNat) (hc : c < w.toNat) :
    vt.access (VtDevice.bufferIndex r c) = .ok (VtDevice.bufferIndex r c) := by
  obtain ⟨hwidth, hheight⟩ := ht.bounds
  refine if_pos ⟨?_, ?_, ?_, ?_⟩
  · rw [VtDevice.bufferIndex, vtMaxWidth, vtMaxHeight]
    omega
  · rw [VtDevice.bufferIndex, Nat.shiftRight_eq_div_pow, vtMaxWidth, vtMaxHeight]
    omega
  · rw [VtDevice.bufferIndex, vtMaxWidth, ht.height]
    omega
  · rw [VtDevice.bufferIndex, vtMaxWidth, ht.width]
    omega

theorem bufferIndex_toNat (row column : U16) :
    (bufferIndex row column).toNat = VtDevice.bufferIndex row.toNat column.toNat := by
  have hrow := row.isLt
  have hcolumn := column.isLt
  rw [bufferIndex, VtDevice.bufferIndex, vtMaxWidth, BitVec.toNat_add, BitVec.toNat_mul,
    BitVec.toNat_setWidth, BitVec.toNat_setWidth]
  change (row.toNat % 2 ^ 32 * 240 % 2 ^ 32 + column.toNat % 2 ^ 32) % 2 ^ 32 = _
  omega

theorem vtSetChar (ht : Tracks w h vt d) (character : U8) (row column : U16)
    (hr : row.toNat < h.toNat) (hc : column.toNat < w.toNat) :
    ∃ vt', vt.vtSetChar character row column = .ok vt' ∧
      Tracks w h vt' (d.vtSetChar character row.toNat column.toNat) := by
  rw [VtMachine.vtSetChar, bufferIndex_toNat, ht.access hr hc, ok_bind]
  have hedit : VtDevice.Edit d (d.vtSetChar character row.toNat column.toNat) :=
    .char (by rwa [ht.terminalHeight]) (by rwa [ht.terminalWidth])
  refine ⟨_, rfl, ?_, hedit.within ht.within, ht.width, ht.height⟩
  conv_rhs => rw [← ht.device]
  rfl

theorem vtSetCursor (ht : Tracks w h vt d) (row column : U16) (hr : row.toNat < h.toNat)
    (hc : column.toNat < w.toNat) : ∃ vt', vt.vtSetCursor row column = .ok vt' ∧
      Tracks w h vt' (d.vtSetCursor row.toNat column.toNat) := by
  rw [VtMachine.vtSetCursor, bufferIndex_toNat, bufferIndex_toNat,
    ht.access ht.row_lt ht.column_lt, ok_bind, ht.access hr hc, ok_bind]
  have hedit : VtDevice.Edit d (d.vtSetCursor row.toNat column.toNat) :=
    .cursor (by rwa [ht.terminalHeight]) (by rwa [ht.terminalWidth])
  refine ⟨_, rfl, ?_, hedit.within ht.within, ht.width, ht.height⟩
  conv_rhs => rw [← ht.device]
  rfl

theorem toNat_row (ht : Tracks w h vt d) {y : Nat} (hy : y < h.toNat) :
    (BitVec.ofNat 16 y).toNat = y := by
  have hbounds := ht.bounds
  rw [BitVec.toNat_ofNat]
  omega

theorem toNat_column (ht : Tracks w h vt d) {x : Nat} (hx : x < w.toNat) :
    (BitVec.ofNat 16 x).toNat = x := by
  have hbounds := ht.bounds
  rw [BitVec.toNat_ofNat]
  omega

theorem vtShiftRow (ht : Tracks w h vt d) {y : Nat} (hy : y + 1 < h.toNat) :
    ∃ vt', vt.vtShiftRow y = .ok vt' ∧ Tracks w h vt' (d.vtShiftRow y) := by
  rw [VtMachine.vtShiftRow, VtDevice.vtShiftRow, ht.terminalWidth, ht.width]
  refine foldlM_tracks _ _ (R := Tracks w h) (fun vt d x hx ht => ?_) ht
  have hx' := List.mem_range.mp hx
  have hsource := ht.access hy hx'
  rw [VtDevice.bufferIndex, Nat.mul_comm] at hsource
  rw [hsource, ok_bind]
  have hset := ht.vtSetChar (vt.terminalBuffer (vtMaxWidth * (y + 1) + x))
    (BitVec.ofNat 16 y) (BitVec.ofNat 16 x)
    (by rw [ht.toNat_row (Nat.lt_of_succ_lt hy)]; omega) (by rwa [ht.toNat_column hx'])
  rw [ht.toNat_row (Nat.lt_of_succ_lt hy), ht.toNat_column hx'] at hset
  have hbuffer : d.terminalBuffer = vt.terminalBuffer := by
    rw [← ht.device]
    rfl
  rw [hbuffer]
  exact hset

theorem vtClearFrom (ht : Tracks w h vt d) (row column : U16) (hr : row.toNat < h.toNat) :
    ∃ vt', vt.vtClearFrom row column = .ok vt' ∧
      Tracks w h vt' (d.vtClearFrom row.toNat column.toNat) := by
  rw [VtMachine.vtClearFrom, VtDevice.vtClearFrom, ht.terminalWidth, ht.width]
  refine foldlM_tracks _ _ (R := Tracks w h) (fun vt d x hx ht => ?_) ht
  have hx' : x < w.toNat := by
    have hmem := List.mem_range'_1.mp hx
    omega
  have hset := ht.vtSetChar 0x20 row (BitVec.ofNat 16 x) hr (by rwa [ht.toNat_column hx'])
  rwa [ht.toNat_column hx'] at hset

theorem lastRow (ht : Tracks w h vt d) : vt.lastRow.toNat = h.toNat - 1 := by
  have hpos := Nat.zero_lt_of_lt ht.row_lt
  have hlt := h.isLt
  rw [VtMachine.lastRow, ht.height]
  bv_omega

theorem lastColumn (ht : Tracks w h vt d) : vt.lastColumn.toNat = w.toNat - 1 := by
  have hpos := Nat.zero_lt_of_lt ht.column_lt
  have hlt := w.isLt
  rw [VtMachine.lastColumn, ht.width]
  bv_omega

theorem atLastRow (ht : Tracks w h vt d) :
    vt.cursorRow.setWidth 32 = vt.lastRow ↔ d.cursorRow = d.terminalHeight - 1 := by
  have hlast := ht.lastRow
  have hlt := vt.cursorRow.isLt
  rw [ht.cursorRow, ht.terminalHeight, ← hlast]
  constructor
  · intro he
    rw [← he, BitVec.toNat_setWidth]
    omega
  · intro he
    apply BitVec.eq_of_toNat_eq
    rw [BitVec.toNat_setWidth, ← he]
    omega

theorem atLastColumn (ht : Tracks w h vt d) :
    vt.cursorColumn.setWidth 32 = vt.lastColumn ↔ d.cursorColumn = d.terminalWidth - 1 := by
  have hlast := ht.lastColumn
  have hlt := vt.cursorColumn.isLt
  rw [ht.cursorColumn, ht.terminalWidth, ← hlast]
  constructor
  · intro he
    rw [← he, BitVec.toNat_setWidth]
    omega
  · intro he
    apply BitVec.eq_of_toNat_eq
    rw [BitVec.toNat_setWidth, ← he]
    omega

theorem vtShiftRows (ht : Tracks w h vt d) :
    ∃ vt', vt.vtShiftRows = .ok vt' ∧ Tracks w h vt' d.vtShiftRows := by
  have hrows : (vt.terminalHeight.setWidth 64 - 1 : U64).toNat = d.terminalHeight - 1 := by
    have hpos := Nat.zero_lt_of_lt ht.row_lt
    have hlt := h.isLt
    rw [ht.terminalHeight, ht.height]
    bv_omega
  have hloop : ∃ vt₁, (List.range (d.terminalHeight - 1)).foldlM VtMachine.vtShiftRow vt = .ok vt₁ ∧
      Tracks w h vt₁ ((List.range (d.terminalHeight - 1)).foldl VtDevice.vtShiftRow d) := by
    refine foldlM_tracks VtMachine.vtShiftRow VtDevice.vtShiftRow
      (fun vt d' y hy ht' => ht'.vtShiftRow ?_) ht
    have hmem := List.mem_range.mp hy
    rw [ht.terminalHeight] at hmem
    omega
  obtain ⟨vt₁, hshift, ht₁⟩ := hloop
  have hlast : (vt₁.lastRow.setWidth 16).toNat = h.toNat - 1 := by
    have hlt := h.isLt
    rw [BitVec.toNat_setWidth, ht₁.lastRow]
    omega
  have hpos := Nat.zero_lt_of_lt ht.row_lt
  obtain ⟨vt', hclear, ht'⟩ := ht₁.vtClearFrom (vt₁.lastRow.setWidth 16) 0
    (by rw [hlast]; omega)
  refine ⟨vt', ?_, ?_⟩
  · rw [VtMachine.vtShiftRows, hrows, hshift]
    exact hclear
  · rw [hlast, ← ht₁.terminalHeight] at ht'
    exact ht'

theorem vtNextRow (ht : Tracks w h vt d) :
    ∃ vt', vt.vtNextRow = .ok vt' ∧ Tracks w h vt' d.vtNextRow := by
  have hpos := Nat.zero_lt_of_lt ht.column_lt
  have hrow := ht.row_lt
  rw [VtMachine.vtNextRow, VtDevice.vtNextRow]
  by_cases hlast : vt.cursorRow.setWidth 32 = vt.lastRow
  · rw [if_pos hlast, if_pos (ht.atLastRow.mp hlast), ht.cursorRow]
    obtain ⟨vt₁, hset, ht₁⟩ := ht.vtSetCursor vt.cursorRow 0 hrow hpos
    rw [hset, ok_bind]
    exact ht₁.vtShiftRows
  · have hne : ¬d.cursorRow = d.terminalHeight - 1 := fun he => hlast (ht.atLastRow.mpr he)
    have hnext : (vt.cursorRow + 1).toNat = vt.cursorRow.toNat + 1 := by
      have hlt := h.isLt
      bv_omega
    rw [if_neg hlast, if_neg hne, ht.cursorRow, ← hnext]
    refine ht.vtSetCursor (vt.cursorRow + 1) 0 ?_ hpos
    rw [ht.cursorRow, ht.terminalHeight] at hne
    omega

theorem vtClearDown (ht : Tracks w h vt d) {passes : Nat} {row column : U16}
    (hr : row.toNat < h.toNat) (hc : column.toNat < w.toNat) {d' : VtDevice}
    (hrun : VtDevice.vtClearDown passes d row.toNat column.toNat = .ok d') :
    ∃ vt', VtMachine.vtClearDown passes vt row column = .ok vt' ∧ Tracks w h vt' d' := by
  induction passes generalizing vt d row column with
  | zero => cases hrun
  | succ passes ih =>
    obtain ⟨vt₁, hset, ht₁⟩ := ht.vtSetChar 0x20 row column hr hc
    have hw := w.isLt
    have hh := h.isLt
    have hcol : (column + 1).toNat = column.toNat + 1 := by bv_omega
    have hrow : (row + 1).toNat = row.toNat + 1 := by bv_omega
    have hwidth : column + 1 = vt₁.terminalWidth ↔
        column.toNat + 1 = (d.vtSetChar 0x20 row.toNat column.toNat).terminalWidth := by
      rw [ht₁.terminalWidth, ht₁.width, ← hcol]
      exact BitVec.toNat_inj.symm
    have hheight : ∀ r : U16, r = vt₁.terminalHeight ↔
        r.toNat = (d.vtSetChar 0x20 row.toNat column.toNat).terminalHeight := by
      intro r
      rw [ht₁.terminalHeight, ht₁.height]
      exact BitVec.toNat_inj.symm
    rw [VtDevice.vtClearDown] at hrun
    rw [VtMachine.vtClearDown, hset, ok_bind]
    dsimp only at hrun ⊢
    by_cases hend : column + 1 = vt₁.terminalWidth
    · rw [if_pos hend]
      rw [if_pos (hwidth.mp hend), ← hrow] at hrun
      by_cases hlast : row + 1 = vt₁.terminalHeight
      · rw [if_pos hlast]
        rw [if_pos ((hheight _).mp hlast)] at hrun
        exact ⟨vt₁, rfl, Except.ok.inj hrun ▸ ht₁⟩
      · have hlast' := fun he => hlast ((hheight _).mpr he)
        rw [if_neg hlast]
        rw [if_neg hlast'] at hrun
        rw [ht₁.terminalHeight] at hlast'
        have hlt : (row + 1).toNat < h.toNat := Nat.lt_of_le_of_ne (by omega) hlast'
        exact ih ht₁ hlt (Nat.zero_lt_of_lt hc) hrun
    · rw [if_neg hend]
      rw [if_neg (fun he => hend (hwidth.mpr he)), ← hcol] at hrun
      have hlast : ¬row = vt₁.terminalHeight := by
        rw [ht₁.height]
        exact fun he => absurd hr (he ▸ Nat.lt_irrefl _)
      rw [if_neg hlast]
      rw [if_neg (fun he => hlast ((hheight _).mpr he))] at hrun
      have hlt : (column + 1).toNat < w.toNat := by
        refine Nat.lt_of_le_of_ne (by omega) fun he => hend (hwidth.mpr ?_)
        rw [ht₁.terminalWidth, ← he, hcol]
      exact ih ht₁ hr hlt hrun

/-- A move of the cursor that is made under a condition. -/
theorem move (ht : Tracks w h vt d) {p q : Prop} [Decidable p] [Decidable q] (hpq : p ↔ q)
    {row column : U16} {r c : Nat} (hr : p → row.toNat = r ∧ r < h.toNat)
    (hc : p → column.toNat = c ∧ c < w.toNat) :
    ∃ vt', (if p then vt.vtSetCursor row column else .ok vt) = .ok vt' ∧
      Tracks w h vt' (if q then d.vtSetCursor r c else d) := by
  by_cases hp : p
  · obtain ⟨rfl, hr'⟩ := hr hp
    obtain ⟨rfl, hc'⟩ := hc hp
    rw [if_pos hp, if_pos (hpq.mp hp)]
    exact ht.vtSetCursor row column hr' hc'
  · rw [if_neg hp, if_neg (fun hq => hp (hpq.mpr hq))]
    exact ⟨vt, rfl, ht⟩

theorem ne_zero_iff {x : U16} : x ≠ 0 ↔ x.toNat ≠ 0 := by
  constructor <;> intro hx <;> bv_omega

theorem vtWriteEscape (ht : Tracks w h vt d) (byte : U8) {d' : VtDevice}
    (hrun : d.vtWriteEscape byte = .ok d') :
    ∃ vt', vt.vtWriteEscape byte = .ok vt' ∧ Tracks w h vt' d' := by
  have hrow := ht.row_lt
  have hcolumn := ht.column_lt
  have hh := h.isLt
  have hw := w.isLt
  have hstay : vt.cursorRow.toNat = vt.cursorRow.toNat ∧ vt.cursorRow.toNat < h.toNat :=
    ⟨rfl, hrow⟩
  have hstay' : vt.cursorColumn.toNat = vt.cursorColumn.toNat ∧
      vt.cursorColumn.toNat < w.toNat := ⟨rfl, hcolumn⟩
  have hdown := not_congr ht.atLastRow
  have hright := not_congr ht.atLastColumn
  rw [ht.cursorRow, ht.terminalHeight] at hdown
  rw [ht.cursorColumn, ht.terminalWidth] at hright
  rw [VtDevice.vtWriteEscape, ht.cursorRow, ht.cursorColumn, ht.terminalHeight,
    ht.terminalWidth] at hrun
  rw [VtMachine.vtWriteEscape]
  by_cases h41 : byte = 0x41
  · rw [if_pos h41] at hrun ⊢
    obtain rfl := Except.ok.inj hrun
    exact ht.move ne_zero_iff (fun hne => by constructor <;> bv_omega) fun _ => hstay'
  rw [if_neg h41] at hrun ⊢
  by_cases h42 : byte = 0x42
  · rw [if_pos h42] at hrun ⊢
    obtain rfl := Except.ok.inj hrun
    refine ht.move hdown (fun hne => ?_) fun _ => hstay'
    have hne' := hdown.mp hne
    constructor <;> bv_omega
  rw [if_neg h42] at hrun ⊢
  by_cases h43 : byte = 0x43
  · rw [if_pos h43] at hrun ⊢
    obtain rfl := Except.ok.inj hrun
    refine ht.move hright (fun _ => hstay) fun hne => ?_
    have hne' := hright.mp hne
    constructor <;> bv_omega
  rw [if_neg h43] at hrun ⊢
  by_cases h44 : byte = 0x44
  · rw [if_pos h44] at hrun ⊢
    obtain rfl := Except.ok.inj hrun
    exact ht.move ne_zero_iff (fun _ => hstay) fun hne => by constructor <;> bv_omega
  rw [if_neg h44] at hrun ⊢
  by_cases h4B : byte = 0x4B
  · rw [if_pos h4B] at hrun ⊢
    obtain rfl := Except.ok.inj hrun
    exact ht.vtClearFrom vt.cursorRow vt.cursorColumn hrow
  rw [if_neg h4B] at hrun ⊢
  by_cases h48 : byte = 0x48
  · rw [if_pos h48] at hrun ⊢
    obtain rfl := Except.ok.inj hrun
    exact ht.vtSetCursor 0 0 (Nat.zero_lt_of_lt hrow) (Nat.zero_lt_of_lt hcolumn)
  rw [if_neg h48] at hrun ⊢
  by_cases h4A : byte = 0x4A
  · rw [if_pos h4A] at hrun ⊢
    exact ht.vtClearDown hrow hcolumn hrun
  · rw [if_neg h4A] at hrun ⊢
    obtain rfl := Except.ok.inj hrun
    exact ⟨vt, rfl, ht⟩

theorem vtWritePlain (ht : Tracks w h vt d) (byte : U8) :
    ∃ vt', vt.vtWritePlain byte = .ok vt' ∧ Tracks w h vt' (d.vtWritePlain byte) := by
  have hrow := ht.row_lt
  have hcolumn := ht.column_lt
  rw [VtDevice.vtWritePlain, VtMachine.vtWritePlain]
  by_cases hesc : byte = 0x1B
  · rw [if_pos hesc, if_pos hesc]
    have hedit : VtDevice.Edit d { d with escapeType := vtEscapeEsc } := .escape (.inr (.inl rfl))
    refine ⟨_, rfl, ?_, hedit.within ht.within, ht.width, ht.height⟩
    conv_rhs => rw [← ht.device]
    rfl
  rw [if_neg hesc, if_neg hesc]
  by_cases hnewline : byte = 0x0A
  · rw [if_pos hnewline, if_pos hnewline]
    exact ht.vtNextRow
  rw [if_neg hnewline, if_neg hnewline]
  by_cases hreturn : byte = 0x0D
  · rw [if_pos hreturn, if_pos hreturn, ht.cursorRow]
    exact ht.vtSetCursor vt.cursorRow 0 hrow (Nat.zero_lt_of_lt hcolumn)
  rw [if_neg hreturn, if_neg hreturn]
  by_cases hback : byte = 0x08
  · rw [if_pos hback, if_pos hback, ht.cursorRow, ht.cursorColumn]
    refine ht.move Iff.rfl (fun _ => ⟨rfl, hrow⟩) fun hpos => ?_
    constructor <;> bv_omega
  rw [if_neg hback, if_neg hback]
  obtain ⟨vt₁, hset, ht₁⟩ := ht.vtSetChar byte vt.cursorRow vt.cursorColumn hrow hcolumn
  rw [hset, ok_bind, ht.cursorRow, ht.cursorColumn]
  dsimp only
  by_cases hlast : vt₁.cursorColumn.setWidth 32 = vt₁.lastColumn
  · rw [if_pos hlast, if_pos (ht₁.atLastColumn.mp hlast)]
    exact ht₁.vtNextRow
  · have hne : ¬_ = _ := fun he => hlast (ht₁.atLastColumn.mpr he)
    rw [if_neg hlast, if_neg hne]
    rw [ht₁.cursorColumn, ht₁.terminalWidth] at hne
    have hcolumn₁ := ht₁.column_lt
    have hw := w.isLt
    have hnext : (vt₁.cursorColumn + 1).toNat = vt₁.cursorColumn.toNat + 1 := by bv_omega
    rw [ht₁.cursorRow, ht₁.cursorColumn, ← hnext]
    exact ht₁.vtSetCursor _ _ ht₁.row_lt (by omega)

theorem escapeSet (ht : Tracks w h vt d) {escapeType : U8} (known : escapeType = vtEscapeNone ∨
    escapeType = vtEscapeEsc ∨ escapeType = vtEscapeEscParen) :
    Tracks w h { vt with escapeType } { d with escapeType } := by
  have hedit : VtDevice.Edit d { d with escapeType } := .escape known
  refine ⟨?_, hedit.within ht.within, ht.width, ht.height⟩
  conv_rhs => rw [← ht.device]
  rfl

theorem vtWriteByte (ht : Tracks w h vt d) (byte : U8) :
    ∃ vt' d', vt.vtWriteByte byte = .ok vt' ∧ d.vtWriteByte byte = .ok d' ∧
      Tracks w h vt' d' := by
  rw [VtMachine.vtWriteByte, VtDevice.vtWriteByte, ← ht.escapeType]
  by_cases hparen : d.escapeType = vtEscapeEscParen
  · rw [if_pos hparen, if_pos hparen]
    obtain ⟨d', hrun, -⟩ := VtDevice.vtWriteEscape_edits ht.within byte
    obtain ⟨vt', hrun', ht'⟩ := ht.vtWriteEscape byte hrun
    rw [hrun, hrun']
    exact ⟨_, _, rfl, rfl, ht'.escapeSet (.inl rfl)⟩
  rw [if_neg hparen, if_neg hparen]
  by_cases hesc : d.escapeType = vtEscapeEsc
  · rw [if_pos hesc, if_pos hesc]
    refine ⟨_, _, rfl, rfl, ht.escapeSet ?_⟩
    split
    · exact .inr (.inr rfl)
    · exact .inl rfl
  · have hnone : d.escapeType = vtEscapeNone := by
      rcases ht.within.escape with hh | hh | hh
      · exact hh
      · exact absurd hh hesc
      · exact absurd hh hparen
    rw [if_neg hesc, if_neg hesc, if_pos hnone, if_pos hnone]
    obtain ⟨vt', hrun, ht'⟩ := ht.vtWritePlain byte
    exact ⟨vt', _, hrun, rfl, ht'⟩

theorem vtRepaintCell (ht : Tracks w h vt d) {row column : Nat} (hr : row < h.toNat)
    (hc : column < w.toNat) :
    ∃ vt' d', vt.vtRepaintCell row column = .ok vt' ∧ Tracks w h vt' d' := by
  have haccess : vt.access (bufferIndex (BitVec.ofNat 16 row) (BitVec.ofNat 16 column)).toNat =
      .ok (VtDevice.bufferIndex row column) := by
    rw [bufferIndex_toNat, ht.toNat_row hr, ht.toNat_column hc]
    exact ht.access hr hc
  rw [VtMachine.vtRepaintCell, haccess, ok_bind]
  split
  · refine ⟨_, { d with
      repaintFlags := flipFlag vt.repaintFlags (VtDevice.bufferIndex row column) }, rfl, ?_,
      ⟨ht.within.1, ht.within.2, ht.within.3, ht.within.4, ht.within.5, ht.within.6⟩,
      ht.width, ht.height⟩
    conv_rhs => rw [← ht.device]
    rfl
  · exact ⟨vt, d, rfl, ht⟩

/-- The loops keep that there is a terminal without the checks behind it. -/
theorem foldlM_keeps {α : Type} {l : List α} (step : VtMachine → α → Except Crash VtMachine)
    (hstep : ∀ vt d, ∀ k ∈ l, Tracks w h vt d → ∃ vt' d', step vt k = .ok vt' ∧
      Tracks w h vt' d') (ht : Tracks w h vt d) :
    ∃ vt' d', l.foldlM step vt = .ok vt' ∧ Tracks w h vt' d' := by
  induction l generalizing vt d with
  | nil => exact ⟨vt, d, rfl, ht⟩
  | cons k l ih =>
    obtain ⟨vt₁, d₁, hrun, ht₁⟩ := hstep vt d k List.mem_cons_self ht
    rw [List.foldlM_cons, hrun]
    exact ih (fun vt d k hk => hstep vt d k (List.mem_cons_of_mem _ hk)) ht₁

theorem vtRepaintTerminal (ht : Tracks w h vt d) :
    ∃ vt' d', vt.vtRepaintTerminal = .ok vt' ∧ Tracks w h vt' d' := by
  rw [VtMachine.vtRepaintTerminal, ht.height]
  refine foldlM_keeps _ (fun vt d row hrow ht => ?_) ht
  rw [ht.width]
  refine foldlM_keeps _ (fun vt d column hcolumn ht => ?_) ht
  exact ht.vtRepaintCell (List.mem_range.mp hrow) (List.mem_range.mp hcolumn)

theorem vtWrite (ht : Tracks w h vt d) (active : Bool) (buffer : List U8) :
    ∃ vt' d', vt.vtWrite active buffer = .ok vt' ∧ Tracks w h vt' d' := by
  obtain ⟨vt₁, d₁, hrun, ht₁⟩ := ht.foldlM_keeps (l := buffer) VtMachine.vtWriteByte
    fun vt d byte _ ht => by
      obtain ⟨vt', d', hrun, -, ht'⟩ := ht.vtWriteByte byte
      exact ⟨vt', d', hrun, ht'⟩
  rw [VtMachine.vtWrite, hrun, ok_bind]
  cases active with
  | false => exact ⟨vt₁, d₁, rfl, ht₁⟩
  | true => exact ht₁.vtRepaintTerminal

end Tracks

/-- A terminal of the given size, with nothing written to it. -/
def start (w h : U16) (terminalBuffer repaintFlags : Nat → U8) : VtMachine where
  cursorRow := 0
  cursorColumn := 0
  terminalWidth := w
  terminalHeight := h
  escapeType := vtEscapeNone
  terminalBuffer := terminalBuffer
  repaintFlags := repaintFlags

/-- A framebuffer that the terminal fills. -/
def framebuffer (w h : U16) (hw : 1 ≤ w.toNat ∧ w.toNat ≤ 240) (hh : 1 ≤ h.toNat ∧ h.toNat ≤ 135) :
    LimineFramebuffer where
  width := 16 * w.toNat
  height := 16 * h.toNat
  pitch := 4 * (16 * w.toNat)
  one_cell := by omega
  reached := by omega
  rows_apart := by omega

theorem start_tracks {w h : U16} (hw : 1 ≤ w.toNat ∧ w.toNat ≤ 240)
    (hh : 1 ≤ h.toNat ∧ h.toNat ≤ 135) (terminalBuffer repaintFlags : Nat → U8) :
    Tracks w h (start w h terminalBuffer repaintFlags)
      ((start w h terminalBuffer repaintFlags).device (framebuffer w h hw hh) 1) where
  device := rfl
  within := ⟨hh.1, hw.1, hw.2, hh.2, Nat.le_refl _, .inl rfl⟩
  width := rfl
  height := rfl

/-- No call of `vt_write` leaves the arrays or the terminal or fails to end, and each leaves
the cursor inside and a known escape state. -/
theorem terminal_invariant {w h : U16} (hw : 1 ≤ w.toNat ∧ w.toNat ≤ 240)
    (hh : 1 ≤ h.toNat ∧ h.toNat ≤ 135) (terminalBuffer repaintFlags : Nat → U8)
    (calls : List (Bool × List U8)) :
    ∃ vt, (start w h terminalBuffer repaintFlags).writes calls = .ok vt ∧
      vt.terminalWidth = w ∧ vt.terminalHeight = h ∧ vt.cursorRow < h ∧ vt.cursorColumn < w ∧
      (vt.escapeType = vtEscapeNone ∨ vt.escapeType = vtEscapeEsc ∨
        vt.escapeType = vtEscapeEscParen) := by
  obtain ⟨vt, d, hrun, ht⟩ := (start_tracks hw hh terminalBuffer repaintFlags).foldlM_keeps
    (l := calls) (fun vt call => vt.vtWrite call.1 call.2)
    fun vt d call _ ht => ht.vtWrite call.1 call.2
  refine ⟨vt, hrun, ht.width, ht.height, ht.row_lt, ht.column_lt, ?_⟩
  rw [← ht.escapeType]
  exact ht.within.escape

/-- Two calls that wrap, scroll and erase on a terminal of two rows and three columns. -/
theorem terminal_invariant_small :
    (1 ≤ (3 : U16).toNat ∧ (3 : U16).toNat ≤ 240) ∧ (1 ≤ (2 : U16).toNat ∧ (2 : U16).toNat ≤ 135) ∧
    ∃ vt, (start 3 2 (fun _ => 0) fun _ => 0xFF).writes
        [(false, [0x61, 0x62, 0x63, 0x64, 0x0A, 0x1B]), (true, [0x5B, 0x4A])] = .ok vt ∧
      vt.terminalWidth = 3 ∧ vt.terminalHeight = 2 ∧ vt.cursorRow < 2 ∧ vt.cursorColumn < 3 ∧
      (vt.escapeType = vtEscapeNone ∨ vt.escapeType = vtEscapeEsc ∨
        vt.escapeType = vtEscapeEscParen) :=
  ⟨by decide, by decide, terminal_invariant (by decide) (by decide) _ _ _⟩

end VtMachine

end Persistos
