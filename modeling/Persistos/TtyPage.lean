import Persistos.TtyEdits

/-! A terminal without escape sequences shows the last rows of a page that has no end. -/

namespace Persistos

open Theory

/-- A terminal with as many rows as it needs. -/
structure Page where
  cursorRow : Nat
  cursorColumn : Nat
  cell : Nat → Nat → U8

namespace Page

def blank : Page := ⟨0, 0, fun _ _ => 0⟩

def nextRow (page : Page) : Page := { page with cursorRow := page.cursorRow + 1, cursorColumn := 0 }

def setChar (page : Page) (character : U8) : Page :=
  { page with
    cell := Function.update page.cell page.cursorRow
      (Function.update (page.cell page.cursorRow) page.cursorColumn character) }

/-- What a byte does to a page of `width` columns. -/
def writeByte (width : Nat) (page : Page) (byte : U8) : Page :=
  if byte = 0x0A then page.nextRow
  else if byte = 0x0D then { page with cursorColumn := 0 }
  else if byte = 0x08 then { page with cursorColumn := page.cursorColumn - 1 }
  else if page.cursorColumn + 1 = width then (page.setChar byte).nextRow
  else { page.setChar byte with cursorColumn := page.cursorColumn + 1 }

def write (width : Nat) (page : Page) (buffer : List U8) : Page :=
  buffer.foldl (writeByte width) page

end Page

/-- A byte as it looks on the screen. -/
def blankNul (byte : U8) : U8 := if byte = 0 then 0x20 else byte

namespace VtDevice

variable {vt vt' : VtDevice} {page : Page} {row column r c scrolled : Nat}

/-- The terminal shows the rows of the page from `scrolled` on. -/
structure Window (vt : VtDevice) (page : Page) (scrolled : Nat) : Prop where
  row : page.cursorRow = vt.cursorRow + scrolled
  column : page.cursorColumn = vt.cursorColumn
  cells : ∀ r < vt.terminalHeight, ∀ c < vt.terminalWidth,
    blankNul (vt.cell r c) = blankNul (page.cell (r + scrolled) c)
  below : ∀ r c, page.cursorRow < r → page.cell r c = 0
  plain : vt.escapeType = vtEscapeNone

/-- The cursor and the escape state, which the characters have nothing to do with. -/
def cursor (vt : VtDevice) : Nat × Nat × U8 := (vt.cursorRow, vt.cursorColumn, vt.escapeType)

theorem vtShiftRow_cursor (vt : VtDevice) (y : Nat) : (vt.vtShiftRow y).cursor = vt.cursor :=
  foldl_keeps fun _ _ _ => rfl

theorem vtClearFrom_cursor (vt : VtDevice) (row column : Nat) :
    (vt.vtClearFrom row column).cursor = vt.cursor :=
  foldl_keeps fun _ _ _ => rfl

theorem vtShiftRows_cursor (vt : VtDevice) : vt.vtShiftRows.cursor = vt.cursor := by
  rw [vtShiftRows, vtClearFrom_cursor]
  exact foldl_keeps fun vt' y _ => vtShiftRow_cursor vt' y

theorem vtShiftRow_cell {y : Nat} (hw : vt.terminalWidth ≤ vtMaxWidth) (hc : c < vt.terminalWidth) :
    (vt.vtShiftRow y).cell r c = if r = y then vt.cell (y + 1) c else vt.cell r c := by
  have hmax : ∀ {x}, x ∈ List.range vt.terminalWidth → x < vtMaxWidth :=
    fun hx => Nat.lt_of_lt_of_le (List.mem_range.mp hx) hw
  have hc' : c < vtMaxWidth := Nat.lt_of_lt_of_le hc hw
  by_cases hr : r = y
  · subst hr
    rw [if_pos rfl]
    -- the row below keeps its characters while this one takes them over
    refine foldl_establishes (P := fun s : VtDevice => s.cell (r + 1) c = vt.cell (r + 1) c)
      (D := fun s : VtDevice => s.cell r c = vt.cell (r + 1) c) (List.mem_range.mpr hc) rfl ?_ ?_ ?_
    · intro s x hx hs
      rw [vtSetChar_cell s _ (hmax hx) hc', if_neg (by omega)]
      exact hs
    · intro s hs
      rw [vtSetChar_cell s _ hc' hc', if_pos ⟨rfl, rfl⟩, ← hs, Nat.mul_comm]
      rfl
    · intro s x hx hne _ hs
      rw [vtSetChar_cell s _ (hmax hx) hc', if_neg (fun h => hne h.2.symm)]
      exact hs
  · rw [if_neg hr]
    refine foldl_keeps (f := fun s : VtDevice => s.cell r c) fun s x hx => ?_
    rw [vtSetChar_cell s _ (hmax hx) hc', if_neg (fun h => hr h.1)]

theorem vtClearFrom_cell (hw : vt.terminalWidth ≤ vtMaxWidth) (hc : c < vt.terminalWidth) :
    (vt.vtClearFrom row column).cell r c =
      if r = row ∧ column ≤ c then 0x20 else vt.cell r c := by
  have hc' : c < vtMaxWidth := Nat.lt_of_lt_of_le hc hw
  have hmax : ∀ {x}, x ∈ List.range' column (vt.terminalWidth - column) → x < vtMaxWidth := by
    intro x hx
    have hx' := List.mem_range'_1.mp hx
    omega
  by_cases h : r = row ∧ column ≤ c
  · obtain ⟨rfl, hle⟩ := h
    have hmem : c ∈ List.range' column (vt.terminalWidth - column) :=
      List.mem_range'_1.mpr (by omega)
    rw [if_pos ⟨rfl, hle⟩]
    refine foldl_sets (f := fun s : VtDevice => s.cell r c) hmem ?_ ?_
    · intro s
      rw [vtSetChar_cell s _ hc' hc', if_pos ⟨rfl, rfl⟩]
    · intro s x hx hne
      rw [vtSetChar_cell s _ (hmax hx) hc', if_neg (fun h => hne h.2.symm)]
  · rw [if_neg h]
    refine foldl_keeps (f := fun s : VtDevice => s.cell r c) fun s x hx => ?_
    have hx' := List.mem_range'_1.mp hx
    rw [vtSetChar_cell s _ (hmax hx) hc', if_neg]
    rintro ⟨rfl, rfl⟩
    exact h ⟨rfl, hx'.1⟩

theorem foldl_vtShiftRow_cell (hw : vt.Within) {n : Nat} (hn : n < vt.terminalHeight)
    (hc : c < vt.terminalWidth) : ((List.range n).foldl vtShiftRow vt).cell r c =
      if r < n then vt.cell (r + 1) c else vt.cell r c := by
  induction n generalizing r with
  | zero => rfl
  | succ n ih =>
    have hedits : Edits vt ((List.range n).foldl vtShiftRow vt) := by
      refine List.foldlRecOn (motive := Edits vt) _ _ .refl fun vt' h y hy => h.trans ?_
      have hlt := List.mem_range.mp hy
      exact vtShiftRow_edits (by rw [h.sameScreen.height]; omega)
    have hwidth := hedits.sameScreen.width
    rw [List.range_succ, List.foldl_append, List.foldl_cons, List.foldl_nil,
      vtShiftRow_cell (hwidth ▸ hw.width) (hwidth ▸ hc), ih (by omega), ih (by omega)]
    by_cases hr : r = n
    · subst hr
      rw [if_pos rfl, if_neg (by omega), if_pos (Nat.lt_succ_self r)]
    · rw [if_neg hr]
      by_cases hlt : r < n
      · rw [if_pos hlt, if_pos (by omega)]
      · rw [if_neg hlt, if_neg (by omega)]

/-- Every row takes over the one below it, and the last one is blank. -/
theorem vtShiftRows_cell (hw : vt.Within) (hr : r < vt.terminalHeight)
    (hc : c < vt.terminalWidth) : vt.vtShiftRows.cell r c =
      if r + 1 < vt.terminalHeight then vt.cell (r + 1) c else 0x20 := by
  have hedits : Edits vt ((List.range (vt.terminalHeight - 1)).foldl vtShiftRow vt) := by
    refine List.foldlRecOn (motive := Edits vt) _ _ .refl fun vt' h y hy => h.trans ?_
    have hlt := List.mem_range.mp hy
    exact vtShiftRow_edits (by rw [h.sameScreen.height]; omega)
  have hwidth := hedits.sameScreen.width
  rw [vtShiftRows, vtClearFrom_cell (hwidth ▸ hw.width) (hwidth ▸ hc), hedits.sameScreen.height,
    foldl_vtShiftRow_cell hw (by omega) hc]
  by_cases hlast : r + 1 < vt.terminalHeight
  · rw [if_neg (by omega), if_pos (by omega), if_pos hlast]
  · rw [if_pos (by omega), if_neg hlast]

namespace Window

theorem init (framebuffer : LimineFramebuffer) (deviceNumber : U32) :
    Window (vtDeviceInit framebuffer deviceNumber) .blank 0 :=
  ⟨rfl, rfl, fun _ _ _ _ => rfl, fun _ _ _ => rfl, rfl⟩

theorem setChar (h : Window vt page scrolled) (hw : vt.Within) (character : U8) :
    Window (vt.vtSetChar character vt.cursorRow vt.cursorColumn) (page.setChar character)
      scrolled where
  row := h.row
  column := h.column
  cells := by
    intro r hr c hc
    have hc' : c < vtMaxWidth := Nat.lt_of_lt_of_le hc hw.width
    have hcursor : vt.cursorColumn < vtMaxWidth := Nat.lt_of_lt_of_le hw.column hw.width
    rw [vtSetChar_cell vt _ hcursor hc']
    simp only [Page.setChar, h.row, h.column]
    by_cases hrow : r = vt.cursorRow
    · subst hrow
      by_cases hcol : c = vt.cursorColumn
      · subst hcol
        simp
      · have hold := h.cells _ hr c hc
        simpa [hcol] using hold
    · have hold := h.cells r hr c hc
      simpa [hrow] using hold
  below := by
    intro r c hr
    have hne : r ≠ page.cursorRow := Nat.ne_of_gt hr
    simpa [Page.setChar, hne] using h.below r c hr
  plain := h.plain

theorem setColumn (h : Window vt page scrolled) (column : Nat) :
    Window (vt.vtSetCursor vt.cursorRow column) { page with cursorColumn := column } scrolled :=
  ⟨h.row, rfl, h.cells, h.below, h.plain⟩

/-- The next row is on the screen already, or the screen moves down by one row. -/
theorem nextRow (h : Window vt page scrolled) (hw : vt.Within) :
    ∃ scrolled', Window vt.vtNextRow page.nextRow scrolled' := by
  have hrow := hw.row
  have hpage := h.row
  by_cases hlast : vt.cursorRow = vt.terminalHeight - 1
  · refine ⟨scrolled + 1, ?_⟩
    rw [vtNextRow, if_pos hlast]
    have hcolumn : 0 < vt.terminalWidth := Nat.zero_lt_of_lt hw.column
    have hcursor : Edits vt (vt.vtSetCursor vt.cursorRow 0) := .single (.cursor hrow hcolumn)
    have hscreen := (vtShiftRows_edits (hcursor.within hw)).sameScreen
    have hkept := vtShiftRows_cursor (vt.vtSetCursor vt.cursorRow 0)
    simp only [cursor, Prod.mk.injEq] at hkept
    obtain ⟨hcrow, hccol, hcesc⟩ := hkept
    constructor
    · rw [hcrow]
      change page.cursorRow + 1 = vt.cursorRow + (scrolled + 1)
      omega
    · rw [hccol]
      rfl
    · intro r hr c hc
      rw [hscreen.height] at hr
      rw [hscreen.width] at hc
      rw [vtShiftRows_cell (hcursor.within hw) hr hc]
      change r < vt.terminalHeight at hr
      change blankNul (if r + 1 < vt.terminalHeight then vt.cell (r + 1) c else 0x20) =
        blankNul (page.cell (r + (scrolled + 1)) c)
      by_cases hin : r + 1 < vt.terminalHeight
      · rw [if_pos hin, h.cells (r + 1) hin c hc, Nat.add_right_comm, Nat.add_assoc]
      · rw [if_neg hin, h.below (r + (scrolled + 1)) c (by omega)]
        rfl
    · intro r c hr
      exact h.below r c (Nat.lt_of_succ_lt hr)
    · rw [hcesc]
      exact h.plain
  · refine ⟨scrolled, ?_⟩
    rw [vtNextRow, if_neg hlast]
    refine ⟨?_, rfl, h.cells, ?_, h.plain⟩
    · change page.cursorRow + 1 = vt.cursorRow + 1 + scrolled
      omega
    · intro r c hr
      exact h.below r c (Nat.lt_of_succ_lt hr)

theorem writePlain (h : Window vt page scrolled) (hw : vt.Within) {byte : U8}
    (hbyte : byte ≠ 0x1B) :
    ∃ scrolled',
      Window (vt.vtWritePlain byte) (page.writeByte vt.terminalWidth byte) scrolled' := by
  have hcolumn := hw.column
  rw [vtWritePlain, if_neg hbyte, Page.writeByte]
  by_cases hnl : byte = 0x0A
  · rw [if_pos hnl, if_pos hnl]
    exact h.nextRow hw
  rw [if_neg hnl, if_neg hnl]
  by_cases hcr : byte = 0x0D
  · rw [if_pos hcr, if_pos hcr]
    exact ⟨scrolled, h.setColumn 0⟩
  rw [if_neg hcr, if_neg hcr]
  by_cases hbs : byte = 0x08
  · rw [if_pos hbs, if_pos hbs]
    refine ⟨scrolled, ?_⟩
    rw [h.column]
    by_cases hpos : vt.cursorColumn > 0
    · rw [if_pos hpos]
      exact h.setColumn _
    · have hzero : vt.cursorColumn = 0 := Nat.eq_zero_of_not_pos hpos
      rw [if_neg hpos, hzero]
      exact ⟨h.row, hzero.symm, h.cells, h.below, h.plain⟩
  rw [if_neg hbs, if_neg hbs, h.column]
  have hchar := h.setChar hw byte
  have hedit : Edits vt (vt.vtSetChar byte vt.cursorRow vt.cursorColumn) :=
    .single (.char hw.row hw.column)
  by_cases hend : vt.cursorColumn + 1 = vt.terminalWidth
  · have hlast : vt.cursorColumn = vt.terminalWidth - 1 := by omega
    have hcolumn' : (vt.vtSetChar byte vt.cursorRow vt.cursorColumn).cursorColumn =
      (vt.vtSetChar byte vt.cursorRow vt.cursorColumn).terminalWidth - 1 := hlast
    rw [if_pos hend]
    dsimp only
    rw [if_pos hcolumn']
    exact hchar.nextRow (hedit.within hw)
  · have hlast : ¬vt.cursorColumn = vt.terminalWidth - 1 := by omega
    have hcolumn' : ¬(vt.vtSetChar byte vt.cursorRow vt.cursorColumn).cursorColumn =
      (vt.vtSetChar byte vt.cursorRow vt.cursorColumn).terminalWidth - 1 := hlast
    rw [if_neg hend]
    dsimp only
    rw [if_neg hcolumn']
    exact ⟨scrolled, hchar.setColumn _⟩

theorem writeBytes (h : Window vt page scrolled) (hw : vt.Within) {buffer : List U8}
    (hbuffer : ∀ byte ∈ buffer, byte ≠ 0x1B) (hrun : buffer.foldlM vtWriteByte vt = .ok vt') :
    ∃ scrolled', Window vt' (page.write vt.terminalWidth buffer) scrolled' := by
  induction buffer generalizing vt page scrolled with
  | nil =>
    obtain rfl := Except.ok.inj hrun
    exact ⟨scrolled, h⟩
  | cons byte buffer ih =>
    have hesc := h.plain
    have hstep : vt.vtWriteByte byte = .ok (vt.vtWritePlain byte) := by
      rw [vtWriteByte, hesc]
      rfl
    rw [List.foldlM_cons, hstep] at hrun
    obtain ⟨scrolled₁, h₁⟩ := h.writePlain hw (hbuffer byte List.mem_cons_self)
    have hedits := vtWritePlain_edits hw byte
    have hwidth := hedits.sameScreen.width
    have hh := ih h₁ (hedits.within hw) (fun b hb => hbuffer b (List.mem_cons_of_mem _ hb)) hrun
    rwa [hwidth] at hh

theorem repainted (h : Window vt page scrolled) (hr : Repainted vt vt') :
    Window vt' page scrolled := by
  obtain ⟨flags, rfl⟩ := hr
  exact ⟨h.row, h.column, h.cells, h.below, h.plain⟩

end Window

end VtDevice

open VtDevice

theorem Tty.run_window (font : Nat → U8) {s : Tty} {n : Terminal} {page : Page} {scrolled : Nat}
    {calls : List TtyCall} (hw : ∀ m, (s.vt m).Within) (h : Window (s.vt n) page scrolled)
    (hplain : ∀ byte ∈ calls.flatMap (TtyCall.bytesTo n), byte ≠ 0x1B) :
    ∃ s', s.run font calls = .ok s' ∧ SameScreen (s.vt n) (s'.vt n) ∧ ∃ scrolled',
      Window (s'.vt n)
        (page.write (s.vt n).terminalWidth (calls.flatMap (TtyCall.bytesTo n))) scrolled' := by
  induction calls generalizing s page scrolled with
  | nil => exact ⟨s, rfl, .refl _, scrolled, h⟩
  | cons c calls ih =>
    rw [List.flatMap_cons] at hplain ⊢
    obtain ⟨s₁, hcall, hwritten⟩ := call_ok font hw c
    obtain ⟨vt, hrun, hkept⟩ := hwritten n
    obtain ⟨vt', hrun', hedits⟩ := vtWriteBytes_edits (hw n) (c.bytesTo n)
    obtain rfl := Except.ok.inj (hrun.symm.trans hrun')
    have hscreen := hedits.sameScreen.trans hkept.sameScreen
    obtain ⟨scrolled₁, h₁⟩ :=
      h.writeBytes (hw n) (fun b hb => hplain b (List.mem_append_left _ hb)) hrun
    obtain ⟨s', hcalls, hscreen', scrolled', h'⟩ := ih (hwritten.within hw) (h₁.repainted hkept)
      fun b hb => hplain b (List.mem_append_right _ hb)
    refine ⟨s', ?_, hscreen.trans hscreen', scrolled', ?_⟩
    · rw [Tty.run, List.foldlM_cons, hcall]
      exact hcalls
    · rw [hscreen.width] at h'
      rw [Page.write, List.foldl_append]
      exact h'

/-- A terminal of any size, to which no escape sequence is written, shows a part of the
page that the same bytes make without an end: the cursor is at the same place of it, and
so is every character. What the other terminals do has no part in it. -/
theorem terminal_shows_page (font : Nat → U8) (framebuffer : LimineFramebuffer)
    (pixels : Nat → U32) (n : Terminal) (calls : List TtyCall)
    (hplain : ∀ byte ∈ calls.flatMap (TtyCall.bytesTo n), byte ≠ 0x1B) :
    ∃ s, (Tty.terminalInit1 font framebuffer pixels).run font calls = .ok s ∧
      (s.vt n).terminalWidth = min (framebuffer.width / 16) vtMaxWidth ∧
      (s.vt n).terminalHeight = min (framebuffer.height / 16) vtMaxHeight ∧
      ∃ scrolled,
        let page := Page.blank.write (s.vt n).terminalWidth (calls.flatMap (TtyCall.bytesTo n))
        page.cursorRow = (s.vt n).cursorRow + scrolled ∧
        page.cursorColumn = (s.vt n).cursorColumn ∧
        ∀ row < (s.vt n).terminalHeight, ∀ column < (s.vt n).terminalWidth,
          blankNul ((s.vt n).cell row column) = blankNul (page.cell (row + scrolled) column) := by
  obtain ⟨deviceNumber, hinit⟩ := Tty.terminalInit1_vt font framebuffer pixels n
  have h := (Window.init framebuffer deviceNumber).repainted hinit
  obtain ⟨s, hrun, hscreen, scrolled, hwindow⟩ :=
    Tty.run_window font (Tty.terminalInit1_within font framebuffer pixels) h hplain
  have hscreen' := hinit.sameScreen.trans hscreen
  rw [← hscreen.width] at hwindow
  refine ⟨s, hrun, ?_, ?_, scrolled, hwindow.row, hwindow.column, hwindow.cells⟩
  · rw [hscreen'.width, Nat.min_def]
    rfl
  · rw [hscreen'.height, Nat.min_def]
    rfl

/-- Two columns and one row, and a line that is too long for it. -/
theorem terminal_shows_page_abc : ∃ s : Tty, ∃ scrolled,
    let page := Page.blank.write (s.vt .tty2).terminalWidth [0x61, 0x62, 0x63]
    (s.vt .tty2).terminalWidth = 2 ∧
    page.cursorRow = (s.vt .tty2).cursorRow + scrolled ∧
    ∀ row < (s.vt .tty2).terminalHeight, ∀ column < (s.vt .tty2).terminalWidth,
      blankNul ((s.vt .tty2).cell row column) = blankNul (page.cell (row + scrolled) column) := by
  obtain ⟨s, -, hwidth, -, scrolled, hrow, -, hcells⟩ := terminal_shows_page (fun _ => 0)
    ⟨32, 16, 128, by decide, by decide, by decide⟩ (fun _ => 0) .tty2
    [.write .tty1 [0x1B], .write .tty2 [0x61, 0x62], .setActive .tty3, .write .tty2 [0x63]]
    (by decide)
  exact ⟨s, scrolled, hwidth, hrow, hcells⟩

end Persistos
