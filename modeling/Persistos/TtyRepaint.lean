import Persistos.TtyEdits

/-! What the framebuffer shows. A character is painted again only when one of its flags
is set, and after every call the active terminal looks as if all of it had been. -/

namespace Persistos

open Theory

namespace LimineFramebuffer

theorem pixelIndex_inj (fb : LimineFramebuffer) {x y x' y' : Nat} (hx : x < fb.width)
    (hx' : x' < fb.width) (h : fb.pixelIndex x y = fb.pixelIndex x' y') : x = x' ∧ y = y' := by
  have hrow := fb.rows_apart
  have hpos : 0 < fb.pitch / 4 := by omega
  have hdiv : ∀ {u v}, u < fb.width → fb.pixelIndex u v / (fb.pitch / 4) = v := by
    intro u v hu
    rw [pixelIndex, Nat.mul_comm, Nat.mul_add_div hpos, Nat.div_eq_of_lt (by omega), Nat.add_zero]
  have hy : y = y' :=
    (hdiv hx).symm.trans ((congrArg (· / (fb.pitch / 4)) h).trans (hdiv hx'))
  subst hy
  exact ⟨Nat.add_left_cancel h, rfl⟩

end LimineFramebuffer

namespace VtDevice

variable {font : Nat → U8} {vt vt' : VtDevice} {row column r c : Nat} {pixels : Nat → U32}

/-- Line `i` and column `k` of a character, as the terminal stands: the text colour where
the font has a bit or the cursor a mark, the background elsewhere. -/
def cellPixel (font : Nat → U8) (vt : VtDevice) (row column i k : Nat) : U32 :=
  if row = vt.cursorRow ∧ column = vt.cursorColumn ∧ (i = 0 ∨ i = 15 ∨ k = 0 ∨ k = 15) then
    vtTextColor
  else if (font (glyphIdx (vt.cell row column) * 32 + i * 2 + k / 8)).getLsbD (7 - k % 8) then
    vtTextColor
  else
    vtBackgroundColor (BitVec.ofNat 16 (16 * column + k)) (BitVec.ofNat 16 (16 * row + i))
      vt.framebuffer.width16 vt.framebuffer.height16 (vt.deviceNumber.setWidth 16)

/-- The framebuffer shows the character at a place of the screen. -/
def Shown (font : Nat → U8) (vt : VtDevice) (pixels : Nat → U32) (row column : Nat) : Prop :=
  ∀ i < 16, ∀ k < 16, pixels (vt.framebuffer.pixelIndex (16 * column + k) (16 * row + i)) =
    cellPixel font vt row column i k

/-- It shows every character whose flag is not set. -/
def CleanShown (font : Nat → U8) (vt : VtDevice) (pixels : Nat → U32) : Prop :=
  ∀ row < vt.terminalHeight, ∀ column < vt.terminalWidth,
    testFlag vt.repaintFlags (bufferIndex row column) = false → Shown font vt pixels row column

def AllShown (font : Nat → U8) (vt : VtDevice) (pixels : Nat → U32) : Prop :=
  ∀ row < vt.terminalHeight, ∀ column < vt.terminalWidth, Shown font vt pixels row column

theorem vtColor_eq (font : Nat → U8) (vt : VtDevice) (row column i : Nat) {k : Nat} (hk : k < 16) :
    vtColor font vt row column i (k / 8) (k % 8) = cellPixel font vt row column i k := by
  have hsplit : 16 * column + k % 8 + 8 * (k / 8) = 16 * column + k := by omega
  have hmark : (i = 0 ∨ i = 15 ∨ k % 8 = 7 * (k / 8)) ↔ (i = 0 ∨ i = 15 ∨ k = 0 ∨ k = 15) := by
    omega
  have hbit : ∀ b : U8, (b >>> (7 - k % 8)) &&& 1 ≠ 0 ↔ b.getLsbD (7 - k % 8) = true := by
    intro b
    have hand := shiftRight_and_one b (7 - k % 8)
    change (b >>> (7 - k % 8)) &&& 1#8 ≠ 0 ↔ _
    rw [hand]
    cases b.getLsbD (7 - k % 8) <;> simp
  rw [vtColor, cellPixel]
  simp only [hsplit, hmark, hbit]
  rfl

theorem vtRepaintHalf_keeps {i half p : Nat}
    (hp : ∀ j < 8, p ≠ vt.framebuffer.pixelIndex (16 * column + j + 8 * half) (16 * row + i)) :
    vtRepaintHalf font vt row column i half pixels p = pixels p :=
  foldl_keeps (f := fun pixels : Nat → U32 => pixels p) fun _ j hj =>
    Function.update_of_ne (hp j (List.mem_range.mp hj)) _ _

theorem vtRepaintHalf_sets (hw : vt.Within) (hcolumn : column < vt.terminalWidth)
    {i half j : Nat} (hj : j < 8) (hhalf : half < 2) :
    vtRepaintHalf font vt row column i half pixels
        (vt.framebuffer.pixelIndex (16 * column + j + 8 * half) (16 * row + i)) =
      vtColor font vt row column i half j := by
  have hx : ∀ {j}, j < 8 → 16 * column + j + 8 * half < vt.framebuffer.width := by
    have hfb := hw.painted
    omega
  refine foldl_sets (f := fun pixels : Nat → U32 => pixels _) (List.mem_range.mpr hj)
    (fun _ => Function.update_self _ _ _) fun _ j' hj' hne => Function.update_of_ne ?_ _ _
  intro he
  have hinj := vt.framebuffer.pixelIndex_inj (hx hj) (hx (List.mem_range.mp hj')) he
  omega

theorem vtRepaintChar_shown (hw : vt.Within) (hcolumn : column < vt.terminalWidth) :
    Shown font vt (vtRepaintChar font vt row column pixels) row column := by
  intro i hi k hk
  have hfb := hw.painted
  have hsplit : 16 * column + k = 16 * column + k % 8 + 8 * (k / 8) := by omega
  have hj : k % 8 < 8 := Nat.mod_lt _ (by decide)
  have hx : 16 * column + k % 8 + 8 * (k / 8) < vt.framebuffer.width := by omega
  rw [hsplit, ← vtColor_eq font vt row column i hk]
  have hother : ∀ (pixels : Nat → U32) (i' half : Nat), half < 2 → (i' ≠ i ∨ half ≠ k / 8) →
      vtRepaintHalf font vt row column i' half pixels
        (vt.framebuffer.pixelIndex (16 * column + k % 8 + 8 * (k / 8)) (16 * row + i)) =
      pixels (vt.framebuffer.pixelIndex (16 * column + k % 8 + 8 * (k / 8)) (16 * row + i)) := by
    intro pixels i' half hhalf hne
    apply vtRepaintHalf_keeps
    intro j hj' he
    have hx' : 16 * column + j + 8 * half < vt.framebuffer.width := by omega
    have hinj := vt.framebuffer.pixelIndex_inj hx hx' he
    omega
  refine foldl_sets (f := fun pixels : Nat → U32 => pixels _) (List.mem_range.mpr hi) ?_ ?_
  · intro pixels
    by_cases hhalf : k / 8 = 1
    · have hset := @vtRepaintHalf_sets font vt row column
        (vtRepaintHalf font vt row column i 0 pixels) hw hcolumn i 1 (k % 8) hj (by decide)
      rw [hhalf]
      exact hset
    · have hzero : k / 8 = 0 := by omega
      have hset := @vtRepaintHalf_sets font vt row column pixels hw hcolumn i 0 (k % 8) hj
        (by decide)
      rw [hother _ i 1 (by decide) (by omega), hzero]
      exact hset
  · intro pixels i' _ hne
    rw [hother _ i' 1 (by decide) (.inl hne), hother _ i' 0 (by decide) (.inl hne)]

theorem vtRepaintChar_other (hw : vt.Within) (hcolumn : column < vt.terminalWidth)
    (hc : c < vt.terminalWidth) (hne : ¬(r = row ∧ c = column))
    (h : Shown font vt pixels r c) :
    Shown font vt (vtRepaintChar font vt row column pixels) r c := by
  intro i hi k hk
  have hfb := hw.painted
  rw [← h i hi k hk]
  have hx : 16 * c + k < vt.framebuffer.width := by omega
  have hother : ∀ (pixels : Nat → U32) (i' half : Nat), i' < 16 → half < 2 →
      vtRepaintHalf font vt row column i' half pixels
        (vt.framebuffer.pixelIndex (16 * c + k) (16 * r + i)) =
      pixels (vt.framebuffer.pixelIndex (16 * c + k) (16 * r + i)) := by
    intro pixels i' half hi' hhalf
    apply vtRepaintHalf_keeps
    intro j hj he
    have hx' : 16 * column + j + 8 * half < vt.framebuffer.width := by omega
    have hinj := vt.framebuffer.pixelIndex_inj hx hx' he
    omega
  refine foldl_keeps (f := fun pixels : Nat → U32 => pixels _) fun pixels i' hi' => ?_
  have hlt := List.mem_range.mp hi'
  rw [hother _ i' 1 hlt (by decide), hother _ i' 0 hlt (by decide)]

theorem Repainted.shown (h : Repainted vt vt') :
    Shown font vt' pixels r c ↔ Shown font vt pixels r c := by
  obtain ⟨flags, rfl⟩ := h
  exact Iff.rfl

/-- A change of the screen leaves the characters that it sets no flag for as they are. -/
theorem Edit.cleanShown (h : Edit vt vt') (hw : vt.Within) (hs : CleanShown font vt pixels) :
    CleanShown font vt' pixels := by
  intro r hr c hc hclean
  cases h with
  | @char character row column row_lt column_lt =>
    have hcw : c < vtMaxWidth := Nat.lt_of_lt_of_le hc hw.width
    simp only [vtSetChar, testFlag_setFlag, Bool.or_eq_false_iff, decide_eq_false_iff_not] at hclean
    have hne : ¬(r = row ∧ c = column) := fun he => hclean.1 (he.1 ▸ he.2 ▸ rfl)
    have hcell : (vt.vtSetChar character row column).cell r c = vt.cell r c := by
      rw [vtSetChar_cell vt _ (Nat.lt_of_lt_of_le column_lt hw.width) hcw, if_neg hne]
    intro i hi k hk
    rw [cellPixel, hcell]
    exact hs r hr c hc hclean.2 i hi k hk
  | @cursor row column row_lt column_lt =>
    simp only [vtSetCursor, testFlag_setFlag, Bool.or_eq_false_iff, decide_eq_false_iff_not]
      at hclean
    have hnew : ¬(r = row ∧ c = column) := fun he => hclean.1 (he.1 ▸ he.2 ▸ rfl)
    have hold : ¬(r = vt.cursorRow ∧ c = vt.cursorColumn) :=
      fun he => hclean.2.1 (he.1 ▸ he.2 ▸ rfl)
    intro i hi k hk
    have hshown := hs r hr c hc hclean.2.2 i hi k hk
    rw [cellPixel, if_neg (fun he => hold ⟨he.1, he.2.1⟩)] at hshown
    rw [cellPixel, if_neg (fun he => hnew ⟨he.1, he.2.1⟩)]
    exact hshown
  | escape known => exact hs r hr c hc hclean

theorem Edits.cleanShown (h : Edits vt vt') (hw : vt.Within) (hs : CleanShown font vt pixels) :
    CleanShown font vt' pixels := by
  induction h with
  | refl => exact hs
  | tail hedits hedit ih => exact hedit.cleanShown (Edits.within hedits hw) ih

/-- What the loops of `vt_repaint_terminal` keep. -/
def Repainting (font : Nat → U8) (vt : VtDevice) (s : VtDevice × (Nat → U32)) : Prop :=
  Repainted vt s.1 ∧ CleanShown font s.1 s.2

def CellClean (row column : Nat) (s : VtDevice × (Nat → U32)) : Prop :=
  testFlag s.1.repaintFlags (bufferIndex row column) = false

variable {s : VtDevice × (Nat → U32)}

theorem vtRepaintCell_repainting (hw : vt.Within) (hcolumn : column < vt.terminalWidth)
    (h : Repainting font vt s) : Repainting font vt (vtRepaintCell font row s column) := by
  refine ⟨h.1.trans (vtRepaintCell_repainted font row s column), ?_⟩
  rw [vtRepaintCell]
  split
  · have hscreen := h.1.sameScreen
    have hw' := h.1.within hw
    have hcolumn' : column < s.1.terminalWidth := hscreen.width ▸ hcolumn
    intro r hr c hc hclean
    simp only [testFlag_flipFlag] at hclean
    by_cases hcell : r = row ∧ c = column
    · obtain ⟨rfl, rfl⟩ := hcell
      have hshown : Shown font s.1 (vtRepaintChar font s.1 r c s.2) r c :=
        vtRepaintChar_shown hw' hcolumn'
      exact hshown
    · have hne : bufferIndex r c ≠ bufferIndex row column := fun he =>
        hcell (bufferIndex_inj (Nat.lt_of_lt_of_le hc hw'.width)
          (Nat.lt_of_lt_of_le hcolumn' hw'.width) he)
      rw [decide_eq_false hne, Bool.false_xor] at hclean
      have hshown : Shown font s.1 (vtRepaintChar font s.1 row column s.2) r c :=
        vtRepaintChar_other hw' hcolumn' hc hcell (h.2 r hr c hc hclean)
      exact hshown
  · exact h.2

theorem vtRepaintCell_clean (s : VtDevice × (Nat → U32)) (row column : Nat) :
    CellClean row column (vtRepaintCell font row s column) := by
  rw [CellClean, vtRepaintCell]
  by_cases h : testFlag s.1.repaintFlags (bufferIndex row column) = true
  · rw [if_pos h]
    simp [h]
  · rw [if_neg h]
    exact Bool.eq_false_iff.mpr h

theorem vtRepaintCell_keeps_clean (hclean : CellClean r c s) :
    CellClean r c (vtRepaintCell font row s column) := by
  by_cases h : testFlag s.1.repaintFlags (bufferIndex row column) = true
  · have hne : bufferIndex r c ≠ bufferIndex row column := by
      intro he
      rw [CellClean, he, h] at hclean
      cases hclean
    rw [CellClean] at hclean
    rw [CellClean, vtRepaintCell, if_pos h]
    simpa [hne] using hclean
  · rw [vtRepaintCell, if_neg h]
    exact hclean

theorem vtRepaintRow_repainting (hw : vt.Within) (h : Repainting font vt s) (row : Nat) :
    Repainting font vt (vtRepaintRow font s row) := by
  refine List.foldlRecOn (motive := Repainting font vt) _ _ h fun s' h' column hcolumn => ?_
  apply vtRepaintCell_repainting hw ?_ h'
  exact h.1.sameScreen.width ▸ List.mem_range.mp hcolumn

theorem vtRepaintRow_keeps_clean (hclean : CellClean r c s) (row : Nat) :
    CellClean r c (vtRepaintRow font s row) :=
  List.foldlRecOn (motive := CellClean r c) _ _ hclean fun _ h _ _ => vtRepaintCell_keeps_clean h

theorem vtRepaintRow_clean (hw : vt.Within) (h : Repainting font vt s) (hc : c < vt.terminalWidth) :
    CellClean r c (vtRepaintRow font s r) := by
  have hmem : c ∈ List.range s.1.terminalWidth :=
    List.mem_range.mpr (h.1.sameScreen.width ▸ hc)
  refine foldl_establishes (P := Repainting font vt) (D := CellClean r c) hmem h ?_ ?_ ?_
  · intro s' column hcolumn h'
    exact vtRepaintCell_repainting hw (h.1.sameScreen.width ▸ List.mem_range.mp hcolumn) h'
  · exact fun s' _ => vtRepaintCell_clean s' r c
  · exact fun s' column _ _ _ hclean => vtRepaintCell_keeps_clean hclean

/-- After the loops no flag on the screen is set, and all of it is shown. -/
theorem vtRepaintTerminal_shown (hw : vt.Within) (hs : CleanShown font vt pixels) :
    AllShown font (VtDevice.vtRepaintTerminal font (vt, pixels)).1
      (VtDevice.vtRepaintTerminal font (vt, pixels)).2 := by
  have hstart : Repainting font vt (vt, pixels) := ⟨.refl vt, hs⟩
  have hend : Repainting font vt (VtDevice.vtRepaintTerminal font (vt, pixels)) :=
    List.foldlRecOn (motive := Repainting font vt) _ _ hstart
      fun s' h row _ => vtRepaintRow_repainting hw h row
  intro r hr c hc
  have hscreen := hend.1.sameScreen
  refine hend.2 r hr c hc ?_
  have hmem : r ∈ List.range vt.terminalHeight := List.mem_range.mpr (hscreen.height ▸ hr)
  exact foldl_establishes (P := Repainting font vt) (D := CellClean r c) hmem hstart
    (fun s' row _ h => vtRepaintRow_repainting hw h row)
    (fun s' h => vtRepaintRow_clean hw h (hscreen.width ▸ hc))
    fun s' row _ _ _ hclean => vtRepaintRow_keeps_clean hclean row

theorem repaintAll_cleanShown (hw : vt.Within) : CleanShown font vt.repaintAll pixels := by
  intro r hr c hc hclean
  have hheight := hw.height
  have hwidth := hw.width
  have hfull : vt.repaintAll.repaintFlags (bufferIndex r c >>> 3) = 0xFF := by
    apply if_pos
    change r < vt.terminalHeight at hr
    change c < vt.terminalWidth at hc
    rw [Nat.shiftRight_eq_div_pow]
    simp only [bufferIndex, vtMaxWidth, vtMaxHeight] at *
    omega
  rw [testFlag_of_full hfull] at hclean
  cases hclean

end VtDevice

open VtDevice

namespace Tty

/-- The active terminal is on the framebuffer, and no cursor is outside of its screen. -/
structure Inv (font : Nat → U8) (s : Tty) : Prop where
  within : ∀ m, (s.vt m).Within
  shown : AllShown font (s.vt s.activeVtDevice) s.pixels

theorem vtRepaintTerminal_inv {font : Nat → U8} {s : Tty} (hw : ∀ m, (s.vt m).Within)
    (hs : CleanShown font (s.vt s.activeVtDevice) s.pixels) :
    (s.vtRepaintTerminal font s.activeVtDevice).Inv font where
  within := fun m => (vtRepaintTerminal_vt font s s.activeVtDevice m).within (hw m)
  shown := by
    have hshown := vtRepaintTerminal_shown (hw s.activeVtDevice) hs
    simpa [Tty.vtRepaintTerminal] using hshown

theorem setActiveVt_inv {font : Nat → U8} {s : Tty} (hw : ∀ m, (s.vt m).Within) (n : Terminal) :
    (s.setActiveVt font n).Inv font := by
  refine @vtRepaintTerminal_inv font
    ⟨Function.update s.vt n (s.vt n).repaintAll, n, _⟩ ?_ ?_
  · intro m
    by_cases h : m = n
    · subst h
      have hkept : Repainted (s.vt m) (s.vt m).repaintAll := ⟨_, rfl⟩
      simpa using hkept.within (hw m)
    · simpa [h] using hw m
  · simpa using repaintAll_cleanShown (hw n)

theorem Inv.call {font : Nat → U8} {s : Tty} (h : s.Inv font) (c : TtyCall) :
    ∃ s', s.call font c = .ok s' ∧ s'.Inv font := by
  cases c with
  | setActive n => exact ⟨_, rfl, setActiveVt_inv h.within n⟩
  | write n buffer =>
    obtain ⟨vt, hrun, hedits⟩ := vtWriteBytes_edits (h.within n) buffer
    refine ⟨_, by rw [Tty.call, vtWrite_ok font hrun]; rfl, ?_⟩
    have hw : ∀ m, (Function.update s.vt n vt m).Within := by
      intro m
      by_cases hm : m = n
      · subst hm
        simpa using hedits.within (h.within m)
      · simpa [hm] using h.within m
    by_cases hactive : n = s.activeVtDevice
    · subst hactive
      dsimp only
      rw [if_pos rfl]
      refine @vtRepaintTerminal_inv font { s with vt := Function.update s.vt _ vt } hw ?_
      have hclean : CleanShown font (s.vt s.activeVtDevice) s.pixels :=
        fun r hr c hc _ => h.shown r hr c hc
      simpa using hedits.cleanShown (h.within _) hclean
    · dsimp only
      rw [if_neg hactive]
      refine ⟨hw, ?_⟩
      simpa [Ne.symm hactive] using h.shown

theorem Inv.run {font : Nat → U8} {s : Tty} (h : s.Inv font) (calls : List TtyCall) :
    ∃ s', s.run font calls = .ok s' ∧ s'.Inv font := by
  induction calls generalizing s with
  | nil => exact ⟨s, rfl, h⟩
  | cons c calls ih =>
    obtain ⟨s₁, hcall, h₁⟩ := h.call c
    obtain ⟨s', hrun, h'⟩ := ih h₁
    refine ⟨s', ?_, h'⟩
    rw [Tty.run, List.foldlM_cons, hcall]
    exact hrun

end Tty

/-- After any calls of `vt_write` and `set_active_vt`, with any bytes, every pixel of every
character of the active terminal is what painting it now would make it. -/
theorem repaint_incremental (font : Nat → U8) (framebuffer : LimineFramebuffer)
    (pixels : Nat → U32) (calls : List TtyCall) :
    ∃ s, (Tty.terminalInit1 font framebuffer pixels).run font calls = .ok s ∧
      let vt := s.vt s.activeVtDevice
      (∀ row < vt.terminalHeight, ∀ column < vt.terminalWidth, ∀ i < 16, ∀ k < 16,
        s.pixels (vt.framebuffer.pixelIndex (16 * column + k) (16 * row + i)) =
          cellPixel font vt row column i k) ∧
      ∀ row < vt.terminalHeight, ∀ column < vt.terminalWidth, ∀ i < 16, ∀ k < 16,
        vtRepaintChar font vt row column s.pixels
          (vt.framebuffer.pixelIndex (16 * column + k) (16 * row + i)) =
        s.pixels (vt.framebuffer.pixelIndex (16 * column + k) (16 * row + i)) := by
  have hinit : (Tty.terminalInit1 font framebuffer pixels).Inv font := by
    apply Tty.setActiveVt_inv
    intro m
    cases m
    all_goals exact vtDeviceInit_within framebuffer _
  obtain ⟨s, hrun, hinv⟩ := hinit.run calls
  refine ⟨s, hrun, hinv.shown, ?_⟩
  intro row hrow column hcolumn i hi k hk
  have hpainted := @vtRepaintChar_shown font _ row column s.pixels (hinv.within _) hcolumn i hi k hk
  exact hpainted.trans (hinv.shown row hrow column hcolumn i hi k hk).symm

end Persistos
