import Persistos.Tty
import Persistos.Theory.Folds
import Mathlib.Logic.Relation

/-! What a byte can do to a terminal: it sets characters and the cursor inside the
screen, and moves between the escape states. -/

namespace Persistos

open Theory

namespace VtDevice

variable {vt vt' : VtDevice} {row column r c : Nat}

/-- The character at a place of the screen. -/
def cell (vt : VtDevice) (row column : Nat) : U8 := vt.terminalBuffer (bufferIndex row column)

structure Within (vt : VtDevice) : Prop where
  row : vt.cursorRow < vt.terminalHeight
  column : vt.cursorColumn < vt.terminalWidth
  width : vt.terminalWidth ≤ vtMaxWidth
  height : vt.terminalHeight ≤ vtMaxHeight
  painted : 16 * vt.terminalWidth ≤ vt.framebuffer.width
  escape : vt.escapeType = vtEscapeNone ∨ vt.escapeType = vtEscapeEsc ∨
    vt.escapeType = vtEscapeEscParen

/-- One change inside the screen. -/
inductive Edit : VtDevice → VtDevice → Prop
  | char {vt : VtDevice} {character : U8} {row column : Nat} (row_lt : row < vt.terminalHeight)
      (column_lt : column < vt.terminalWidth) : Edit vt (vt.vtSetChar character row column)
  | cursor {vt : VtDevice} {row column : Nat} (row_lt : row < vt.terminalHeight)
      (column_lt : column < vt.terminalWidth) : Edit vt (vt.vtSetCursor row column)
  | escape {vt : VtDevice} {escapeType : U8} (known : escapeType = vtEscapeNone ∨
      escapeType = vtEscapeEsc ∨ escapeType = vtEscapeEscParen) : Edit vt { vt with escapeType }

abbrev Edits : VtDevice → VtDevice → Prop := Relation.ReflTransGen Edit

/-- The terminal on its framebuffer, apart from what is on it. -/
structure SameScreen (vt vt' : VtDevice) : Prop where
  width : vt'.terminalWidth = vt.terminalWidth
  height : vt'.terminalHeight = vt.terminalHeight
  framebuffer : vt'.framebuffer = vt.framebuffer
  deviceNumber : vt'.deviceNumber = vt.deviceNumber

theorem SameScreen.refl (vt : VtDevice) : SameScreen vt vt := ⟨rfl, rfl, rfl, rfl⟩

theorem SameScreen.trans {vt'' : VtDevice} (h : SameScreen vt vt') (h' : SameScreen vt' vt'') :
    SameScreen vt vt'' :=
  ⟨h'.width.trans h.width, h'.height.trans h.height, h'.framebuffer.trans h.framebuffer,
    h'.deviceNumber.trans h.deviceNumber⟩

theorem bufferIndex_inj {row' column' : Nat} (hc : column < vtMaxWidth)
    (hc' : column' < vtMaxWidth) (h : bufferIndex row column = bufferIndex row' column') :
    row = row' ∧ column = column' := by
  simp only [bufferIndex, vtMaxWidth] at h hc hc'
  omega

@[simp] theorem vtSetChar_cell (vt : VtDevice) (character : U8) (hc : column < vtMaxWidth)
    (hc' : c < vtMaxWidth) : (vt.vtSetChar character row column).cell r c =
      if r = row ∧ c = column then character else vt.cell r c := by
  by_cases h : r = row ∧ c = column
  · obtain ⟨rfl, rfl⟩ := h
    simp [cell, vtSetChar]
  · have hne : bufferIndex r c ≠ bufferIndex row column := fun he => h (bufferIndex_inj hc' hc he)
    simp [cell, vtSetChar, hne, h]

theorem Edit.sameScreen (h : Edit vt vt') : SameScreen vt vt' := by
  cases h <;> exact ⟨rfl, rfl, rfl, rfl⟩

theorem Edits.sameScreen (h : Edits vt vt') : SameScreen vt vt' := by
  induction h with
  | refl => exact .refl vt
  | tail _ hedit ih => exact ih.trans hedit.sameScreen

theorem Edit.within (h : Edit vt vt') (hw : vt.Within) : vt'.Within := by
  cases h with
  | char row_lt column_lt => exact ⟨hw.row, hw.column, hw.width, hw.height, hw.painted, hw.escape⟩
  | cursor row_lt column_lt =>
    exact ⟨row_lt, column_lt, hw.width, hw.height, hw.painted, hw.escape⟩
  | escape known => exact ⟨hw.row, hw.column, hw.width, hw.height, hw.painted, known⟩

theorem Edits.within (h : Edits vt vt') (hw : vt.Within) : vt'.Within := by
  induction h with
  | refl => exact hw
  | tail _ hedit ih => exact hedit.within ih

theorem vtShiftRow_edits {y : Nat} (hy : y < vt.terminalHeight) : Edits vt (vt.vtShiftRow y) := by
  refine List.foldlRecOn (motive := Edits vt) _ _ .refl fun vt' h x hx => h.tail ?_
  have hscreen := h.sameScreen
  exact .char (hscreen.height ▸ hy) (hscreen.width ▸ List.mem_range.mp hx)

theorem vtClearFrom_edits (hrow : row < vt.terminalHeight) :
    Edits vt (vt.vtClearFrom row column) := by
  refine List.foldlRecOn (motive := Edits vt) _ _ .refl fun vt' h x hx => h.tail ?_
  have hscreen := h.sameScreen
  have hx' := List.mem_range'_1.mp hx
  exact .char (hscreen.height ▸ hrow) (by rw [hscreen.width]; omega)

theorem vtShiftRows_edits (hw : vt.Within) : Edits vt vt.vtShiftRows := by
  have hshift : Edits vt ((List.range (vt.terminalHeight - 1)).foldl vtShiftRow vt) := by
    refine List.foldlRecOn (motive := Edits vt) _ _ .refl fun vt' h y hy => h.trans ?_
    have hlt := List.mem_range.mp hy
    exact vtShiftRow_edits (by rw [h.sameScreen.height]; omega)
  refine hshift.trans (vtClearFrom_edits ?_)
  have hlt := (hshift.within hw).row
  omega

theorem vtNextRow_edits (hw : vt.Within) : Edits vt vt.vtNextRow := by
  have hcolumn := Nat.zero_lt_of_lt hw.column
  have hrow := hw.row
  rw [vtNextRow]
  split
  · have hcursor : Edits vt (vt.vtSetCursor vt.cursorRow 0) := .single (.cursor hrow hcolumn)
    exact hcursor.trans (vtShiftRows_edits (hcursor.within hw))
  · exact .single (.cursor (by omega) hcolumn)

theorem vtWritePlain_edits (hw : vt.Within) (byte : U8) : Edits vt (vt.vtWritePlain byte) := by
  have hrow := hw.row
  have hcolumn := hw.column
  rw [vtWritePlain]
  split
  · exact .single (.escape (.inr (.inl rfl)))
  split
  · exact vtNextRow_edits hw
  split
  · exact .single (.cursor hrow (by omega))
  split
  · split
    · exact .single (.cursor hrow (by omega))
    · exact .refl
  · have hchar : Edits vt (vt.vtSetChar byte vt.cursorRow vt.cursorColumn) :=
      .single (.char hrow hcolumn)
    dsimp only
    split
    · exact hchar.trans (vtNextRow_edits (hchar.within hw))
    · next hne => exact hchar.tail (.cursor hrow (by simp only [vtSetChar] at hne ⊢; omega))

/-- The passes that are left when the loop of `ESC [ J` is at a place. -/
def cellsFrom (vt : VtDevice) (row column : Nat) : Nat :=
  (vt.terminalHeight - row) * vt.terminalWidth - column

theorem vtClearDown_edits {passes : Nat} (hrow : row < vt.terminalHeight)
    (hcolumn : column < vt.terminalWidth) (hp : vt.cellsFrom row column ≤ passes) :
    ∃ vt', vtClearDown passes vt row column = .ok vt' ∧ Edits vt vt' := by
  have hrest : (vt.terminalHeight - row) * vt.terminalWidth =
      (vt.terminalHeight - (row + 1)) * vt.terminalWidth + vt.terminalWidth := by
    rw [← Nat.succ_mul]
    congr 1
    omega
  induction passes generalizing vt row column with
  | zero =>
    rw [cellsFrom] at hp
    omega
  | succ passes ih =>
    have hedit : Edit vt (vt.vtSetChar 0x20 row column) := .char hrow hcolumn
    rw [cellsFrom] at hp
    rw [vtClearDown]
    by_cases hlast : column + 1 = vt.terminalWidth
    · by_cases hend : row + 1 = vt.terminalHeight
      · exact ⟨_, by simp [vtSetChar, hlast, hend], .single hedit⟩
      · obtain ⟨vt', hrun, hedits⟩ := @ih (vt.vtSetChar 0x20 row column) (row + 1) 0
          (Nat.lt_of_le_of_ne hrow hend) (Nat.zero_lt_of_lt hcolumn)
          (by simp only [cellsFrom, vtSetChar]; omega)
          (by
            rw [← Nat.succ_mul]
            congr 1
            simp only [vtSetChar]
            omega)
        exact ⟨vt', by simpa [vtSetChar, hlast, hend] using hrun, hedits.head hedit⟩
    · obtain ⟨vt', hrun, hedits⟩ := @ih (vt.vtSetChar 0x20 row column) row (column + 1) hrow
        (by simp only [vtSetChar]; omega) (by simp only [cellsFrom, vtSetChar]; omega) hrest
      have hne : row ≠ vt.terminalHeight := Nat.ne_of_lt hrow
      exact ⟨vt', by simpa [vtSetChar, hlast, hne] using hrun, hedits.head hedit⟩

theorem vtWriteEscape_edits (hw : vt.Within) (byte : U8) :
    ∃ vt', vt.vtWriteEscape byte = .ok vt' ∧ Edits vt vt' := by
  have hrow := hw.row
  have hcolumn := hw.column
  rw [vtWriteEscape]
  split
  · refine ⟨_, rfl, ?_⟩
    split
    · exact .single (.cursor (by omega) hcolumn)
    · exact .refl
  split
  · refine ⟨_, rfl, ?_⟩
    split
    · exact .single (.cursor (by omega) hcolumn)
    · exact .refl
  split
  · refine ⟨_, rfl, ?_⟩
    split
    · exact .single (.cursor hrow (by omega))
    · exact .refl
  split
  · refine ⟨_, rfl, ?_⟩
    split
    · exact .single (.cursor hrow (by omega))
    · exact .refl
  split
  · exact ⟨_, rfl, vtClearFrom_edits hrow⟩
  split
  · exact ⟨_, rfl, .single (.cursor (by omega) (by omega))⟩
  split
  · apply vtClearDown_edits hrow hcolumn
    have hmul := Nat.mul_le_mul (Nat.le_trans (Nat.sub_le _ vt.cursorRow) hw.height) hw.width
    rw [cellsFrom, Nat.mul_comm vtMaxWidth]
    omega
  · exact ⟨vt, rfl, .refl⟩

/-- No byte runs into the endless branch. -/
theorem vtWriteByte_edits (hw : vt.Within) (byte : U8) :
    ∃ vt', vt.vtWriteByte byte = .ok vt' ∧ Edits vt vt' := by
  rw [vtWriteByte]
  split
  · obtain ⟨vt', hrun, hedits⟩ := vtWriteEscape_edits hw byte
    refine ⟨vt'.escapeNone, by rw [hrun]; rfl, hedits.tail (.escape (.inl rfl))⟩
  · next hparen =>
    split
    · refine ⟨_, rfl, .single (.escape ?_)⟩
      split
      · exact .inr (.inr rfl)
      · exact .inl rfl
    · next hesc =>
      have hnone : vt.escapeType = vtEscapeNone := by
        rcases hw.escape with h | h | h
        · exact h
        · exact absurd h hesc
        · exact absurd h hparen
      rw [if_pos hnone]
      exact ⟨_, rfl, vtWritePlain_edits hw byte⟩

theorem vtWriteBytes_edits (hw : vt.Within) (buffer : List U8) :
    ∃ vt', buffer.foldlM vtWriteByte vt = .ok vt' ∧ Edits vt vt' := by
  induction buffer generalizing vt with
  | nil => exact ⟨vt, rfl, .refl⟩
  | cons byte buffer ih =>
    obtain ⟨vt₁, hbyte, hedits₁⟩ := vtWriteByte_edits hw byte
    obtain ⟨vt', hrun, hedits⟩ := ih (hedits₁.within hw)
    refine ⟨vt', ?_, hedits₁.trans hedits⟩
    rw [List.foldlM_cons, hbyte]
    exact hrun

/-- The terminal after some of its flags were set or cleared. -/
def Repainted (vt vt' : VtDevice) : Prop := ∃ repaintFlags, vt' = { vt with repaintFlags }

theorem Repainted.refl (vt : VtDevice) : Repainted vt vt := ⟨vt.repaintFlags, rfl⟩

theorem Repainted.trans {vt'' : VtDevice} (h : Repainted vt vt') (h' : Repainted vt' vt'') :
    Repainted vt vt'' := by
  obtain ⟨flags, rfl⟩ := h
  obtain ⟨flags', rfl⟩ := h'
  exact ⟨flags', rfl⟩

theorem Repainted.within (h : Repainted vt vt') (hw : vt.Within) : vt'.Within := by
  obtain ⟨flags, rfl⟩ := h
  exact ⟨hw.row, hw.column, hw.width, hw.height, hw.painted, hw.escape⟩

theorem Repainted.sameScreen (h : Repainted vt vt') : SameScreen vt vt' := by
  obtain ⟨flags, rfl⟩ := h
  exact ⟨rfl, rfl, rfl, rfl⟩

theorem vtRepaintCell_repainted (font : Nat → U8) (row : Nat) (s : VtDevice × (Nat → U32))
    (column : Nat) : Repainted s.1 (vtRepaintCell font row s column).1 := by
  rw [vtRepaintCell]
  split
  · exact ⟨_, rfl⟩
  · exact .refl _

theorem vtRepaintRow_repainted (font : Nat → U8) (s : VtDevice × (Nat → U32)) (row : Nat) :
    Repainted s.1 (vtRepaintRow font s row).1 :=
  List.foldlRecOn (motive := fun s' => Repainted s.1 s'.1) _ _ (.refl _)
    fun s' h column _ => h.trans (vtRepaintCell_repainted font row s' column)

theorem vtRepaintTerminal_repainted (font : Nat → U8) (s : VtDevice × (Nat → U32)) :
    Repainted s.1 (VtDevice.vtRepaintTerminal font s).1 :=
  List.foldlRecOn (motive := fun s' => Repainted s.1 s'.1) _ _ (.refl _)
    fun s' h row _ => h.trans (vtRepaintRow_repainted font s' row)

theorem vtDeviceInit_within (framebuffer : LimineFramebuffer) (deviceNumber : U32) :
    (vtDeviceInit framebuffer deviceNumber).Within := by
  have hcell := framebuffer.one_cell
  refine ⟨?_, ?_, ?_, ?_, ?_, .inl rfl⟩
  all_goals
    simp only [vtDeviceInit, ← Nat.min_def]
    simp only [vtMaxWidth, vtMaxHeight]
    omega

end VtDevice

open VtDevice

/-- The bytes that a call writes to a terminal. -/
def TtyCall.bytesTo (n : Terminal) : TtyCall → List U8
  | .write m buffer => if m = n then buffer else []
  | .setActive _ => []

namespace Tty

/-- Every terminal is as the bytes that were written to it leave it, apart from flags. -/
def Written (s s' : Tty) (bytes : Terminal → List U8) : Prop :=
  ∀ m, ∃ vt, (bytes m).foldlM vtWriteByte (s.vt m) = .ok vt ∧ Repainted vt (s'.vt m)

theorem vtRepaintTerminal_vt (font : Nat → U8) (s : Tty) (n m : Terminal) :
    Repainted (s.vt m) ((vtRepaintTerminal font s n).vt m) := by
  rw [vtRepaintTerminal]
  by_cases h : m = n
  · subst h
    simpa using vtRepaintTerminal_repainted font (s.vt m, s.pixels)
  · simpa [h] using Repainted.refl _

theorem setActiveVt_vt (font : Nat → U8) (s : Tty) (n m : Terminal) :
    Repainted (s.vt m) ((setActiveVt font s n).vt m) := by
  refine Repainted.trans ?_ (vtRepaintTerminal_vt font _ n m)
  by_cases h : m = n
  · subst h
    simp only [Function.update_self]
    exact ⟨_, rfl⟩
  · simpa [h] using Repainted.refl _

theorem vtWrite_ok (font : Nat → U8) {s : Tty} {n : Terminal} {buffer : List U8} {vt : VtDevice}
    (hrun : buffer.foldlM vtWriteByte (s.vt n) = .ok vt) :
    vtWrite font s n buffer =
      let s := { s with vt := Function.update s.vt n vt }
      .ok (if n = s.activeVtDevice then vtRepaintTerminal font s n else s, buffer.length) := by
  rw [vtWrite, hrun]
  rfl

theorem call_ok (font : Nat → U8) {s : Tty} (hw : ∀ m, (s.vt m).Within) (c : TtyCall) :
    ∃ s', s.call font c = .ok s' ∧ Written s s' fun m => c.bytesTo m := by
  cases c with
  | write n buffer =>
    obtain ⟨vt, hrun, -⟩ := vtWriteBytes_edits (hw n) buffer
    refine ⟨_, by rw [call, vtWrite_ok font hrun]; rfl, ?_⟩
    have hupdate : ∀ m, ∃ vt', (TtyCall.bytesTo m (.write n buffer)).foldlM vtWriteByte (s.vt m) =
        .ok vt' ∧ Repainted vt' (Function.update s.vt n vt m) := by
      intro m
      by_cases h : m = n
      · subst h
        exact ⟨vt, by simpa [TtyCall.bytesTo] using hrun, by simpa using Repainted.refl vt⟩
      · refine ⟨s.vt m, by simp [TtyCall.bytesTo, Ne.symm h]; rfl, ?_⟩
        simpa [h] using Repainted.refl _
    intro m
    obtain ⟨vt', hbytes, hkept⟩ := hupdate m
    refine ⟨vt', hbytes, hkept.trans ?_⟩
    dsimp only
    split
    · exact vtRepaintTerminal_vt font { s with vt := Function.update s.vt n vt } n m
    · exact .refl _
  | setActive n =>
    exact ⟨_, rfl, fun m => ⟨s.vt m, rfl, setActiveVt_vt font s n m⟩⟩

theorem Written.within {s s' : Tty} {bytes : Terminal → List U8} (h : Written s s' bytes)
    (hw : ∀ m, (s.vt m).Within) (m : Terminal) : (s'.vt m).Within := by
  obtain ⟨vt, hrun, hkept⟩ := h m
  obtain ⟨vt', hrun', hedits⟩ := vtWriteBytes_edits (hw m) (bytes m)
  obtain rfl := Except.ok.inj (hrun.symm.trans hrun')
  exact hkept.within (hedits.within (hw m))

theorem terminalInit1_vt (font : Nat → U8) (framebuffer : LimineFramebuffer)
    (pixels : Nat → U32) (n : Terminal) : ∃ deviceNumber,
      Repainted (vtDeviceInit framebuffer deviceNumber)
        ((terminalInit1 font framebuffer pixels).vt n) := by
  cases n
  all_goals exact ⟨_, setActiveVt_vt font _ _ _⟩

theorem terminalInit1_within (font : Nat → U8) (framebuffer : LimineFramebuffer)
    (pixels : Nat → U32) (n : Terminal) :
    ((terminalInit1 font framebuffer pixels).vt n).Within := by
  obtain ⟨deviceNumber, h⟩ := terminalInit1_vt font framebuffer pixels n
  exact h.within (vtDeviceInit_within framebuffer deviceNumber)

end Tty

end Persistos
