import Persistos.Sysfs

/-! A read of a file of sysfs copies as much of its text as the buffer has room for, wherever the
room ends. -/

namespace Persistos

open Theory

theorem take_strlen (buf : List U8) : buf.take (strlen buf) = cString buf := by
  induction buf with
  | nil => rfl
  | cons c buf ih =>
    by_cases hc : c = 0
    · rw [strlen, if_pos hc, hc, cString_zero, List.take_zero]
    · rw [strlen, if_neg hc, cString_cons hc, List.take_succ_cons, ih]

namespace SafeCopy

/-- The state of the copy after as much of a text as there is room for. -/
def append (c : SafeCopy) (text : List U8) : SafeCopy :=
  let n := min c.destinationLength.toNat text.length
  ⟨overlay c.buffer c.destination n (text.getD · 0), c.destination + n,
    c.destinationLength - BitVec.ofNat 64 n⟩

theorem append_nil (c : SafeCopy) : c.append [] = c := by
  simp [append]

/-- Two texts one after the other are one text. -/
theorem append_append (c : SafeCopy) (s t : List U8) : (c.append s).append t = c.append (s ++ t) := by
  have hlt := c.destinationLength.isLt
  simp only [append, List.length_append]
  generalize hn : min c.destinationLength.toNat s.length = n
  have hleft : (c.destinationLength - BitVec.ofNat 64 n).toNat = c.destinationLength.toNat - n := by
    bv_omega
  rw [hleft]
  generalize hk : min (c.destinationLength.toNat - n) t.length = k
  have hsum : min c.destinationLength.toNat (s.length + t.length) = n + k := by omega
  have hfirst : overlay c.buffer c.destination n (s.getD · 0) =
      overlay c.buffer c.destination n ((s ++ t).getD · 0) :=
    overlay_congr fun i hi => by simp [List.getD, List.getElem?_append_left (show i < s.length by omega)]
  have hsecond : overlay (overlay c.buffer c.destination n ((s ++ t).getD · 0)) (c.destination + n)
      k (t.getD · 0) = overlay (overlay c.buffer c.destination n ((s ++ t).getD · 0))
        (c.destination + n) k fun i => (s ++ t).getD (n + i) 0 := by
    refine overlay_congr fun i hi => ?_
    have hall : n = s.length := by omega
    simp [List.getD, hall, List.getElem?_append_right]
  rw [hsum, hfirst, hsecond, overlay_append]
  refine congr (congr (congrArg SafeCopy.mk rfl) (Nat.add_assoc _ _ _)) ?_
  rw [BitVec.ofNat_add]
  bv_omega

end SafeCopy

theorem safeCopyString_eq (c : SafeCopy) {piece : List U8} (h : piece.length < 2 ^ 64) :
    safeCopyString c piece = c.append (cString piece) := by
  have hle : (cString piece).length < 2 ^ 64 :=
    Nat.lt_of_le_of_lt (List.takeWhile_sublist _).length_le h
  have hlength : (BitVec.ofNat 64 (cString piece).length).toNat = (cString piece).length := by
    rw [BitVec.toNat_ofNat]
    exact Nat.mod_eq_of_lt hle
  have hcount : (if c.destinationLength < BitVec.ofNat 64 (cString piece).length then
      c.destinationLength else BitVec.ofNat 64 (cString piece).length) =
      BitVec.ofNat 64 (min c.destinationLength.toNat (cString piece).length) := by
    split
    · next hlt =>
      rw [BitVec.lt_def, hlength] at hlt
      rw [Nat.min_eq_left (Nat.le_of_lt hlt), BitVec.ofNat_toNat, BitVec.setWidth_eq]
    · next hge =>
      rw [BitVec.lt_def, hlength] at hge
      rw [Nat.min_eq_right (Nat.le_of_not_lt hge)]
  have hnat : (BitVec.ofNat 64 (min c.destinationLength.toNat (cString piece).length)).toNat =
      min c.destinationLength.toNat (cString piece).length := by
    rw [BitVec.toNat_ofNat]
    omega
  rw [safeCopyString, safeCopyPal, take_strlen]
  simp only [hcount, hnat, SafeCopy.append]

theorem foldl_safeCopyString_eq (c : SafeCopy) {pieces : List (List U8)}
    (h : ∀ piece ∈ pieces, piece.length < 2 ^ 64) :
    pieces.foldl safeCopyString c = c.append (pieces.flatMap cString) := by
  induction pieces generalizing c with
  | nil => exact c.append_nil.symm
  | cons piece pieces ih =>
    obtain ⟨hpiece, hpieces⟩ := List.forall_mem_cons.mp h
    rw [List.foldl_cons, ih _ hpieces, safeCopyString_eq c hpiece, List.flatMap_cons,
      SafeCopy.append_append]

theorem sprintfDec_length (data : U32) : (sprintfDec data 0 0).length ≤ 21 := by
  have hdigits : ∀ n d buffer first, (sprintfDecDigits n d buffer first).1.length =
      n + buffer.length := by
    intro n
    induction n with
    | zero => simp [sprintfDecDigits]
    | succ n ih =>
      intro d buffer first
      rw [sprintfDecDigits, ih, List.length_cons]
      omega
  have hten := hdigits 10 data [] 9
  simp only [sprintfDec, List.length_append, List.length_replicate]
  generalize sprintfDecDigits 10 data [] 9 = r at hten
  simp at hten
  simp
  omega

theorem sprintfUint64_length (value : U64) : (sprintfUint64 value).length = 17 :=
  sprintfHex_length 16 value [0]

theorem sprintfUint32_length (value : U32) : (sprintfUint32 value).length = 9 :=
  sprintfHex_length 8 value [0]

theorem sprintfUint16_length (data : U16) : (sprintfUint16 data).length = 5 :=
  sprintfHex_length 4 data [0]

theorem sprintfUint8_length (value : U8) : (sprintfUint8 value).length = 3 :=
  sprintfHex_length 2 value [0]

theorem PciDevice.pieces_length (dev : PciDevice) : ∀ piece ∈ dev.pieces, piece.length ≤ 21 := by
  simp [PciDevice.pieces, ascii, sprintfUint64_length, sprintfUint32_length, sprintfUint16_length,
    sprintfUint8_length]

theorem NvmeStatus.pieces_length (dev : NvmeStatus) : ∀ piece ∈ dev.pieces, piece.length ≤ 21 := by
  simp [NvmeStatus.pieces, ascii, sprintfUint64_length, sprintfUint32_length, sprintfUint8_length]

namespace Sysfs

theorem meminfoPieces_length (fs : Sysfs) : ∀ piece ∈ fs.meminfoPieces, piece.length ≤ 21 := by
  intro piece hp
  simp only [meminfoPieces, List.mem_cons, List.not_mem_nil, or_false] at hp
  rcases hp with rfl | rfl | rfl | rfl | rfl
  · decide
  · exact sprintfDec_length _
  · decide
  · exact sprintfDec_length _
  · decide

/-- Every piece is a string of a few characters. -/
theorem pieces_length {fs : Sysfs} {inode : U64} {pieces : List (List U8)}
    (h : fs.pieces inode = .ok pieces) : ∀ piece ∈ pieces, piece.length ≤ 21 := by
  rw [Sysfs.pieces] at h
  split at h
  · cases h
    intro piece hp
    obtain ⟨dev, -, hp⟩ := List.mem_flatMap.mp hp
    exact dev.pieces_length piece hp
  split at h
  · cases h
    intro piece hp
    obtain ⟨dev, -, hp⟩ := List.mem_flatMap.mp hp
    exact dev.pieces_length piece hp
  split at h
  · cases h
    exact fs.meminfoPieces_length
  · cases h

/-- A read at the beginning of a file of sysfs. The text of the file is its pieces one after the
other. -/
theorem read_prefix_exact (fs : Sysfs) {inode : U64} (buffer : Nat → U8) (length : U64)
    (h : inode = fs.pciinfoInode ∨ inode = fs.nvmeInode ∨ inode = fs.meminfoInode) :
    ∃ pieces, fs.pieces inode = .ok pieces ∧
      let t := pieces.flatMap cString
      let n := min length.toNat t.length
      ∃ buffer', sysfsRead fs ⟨inode, 0⟩ buffer length =
          .ok ⟨BitVec.ofNat 64 n, ⟨inode, BitVec.ofNat 64 n⟩, buffer', fs⟩ ∧
        slice buffer' 0 n = t.take length.toNat ∧ ∀ i, n ≤ i → buffer' i = buffer i := by
  obtain ⟨pieces, hpieces⟩ : ∃ pieces, fs.pieces inode = .ok pieces := by
    rw [Sysfs.pieces]
    split_ifs with h₁ h₂ h₃
    · exact ⟨_, rfl⟩
    · exact ⟨_, rfl⟩
    · exact ⟨_, rfl⟩
    · simp [h₁, h₂, h₃] at h
  have hcopy := foldl_safeCopyString_eq ⟨buffer, 0, length⟩ fun piece hp =>
    Nat.lt_of_le_of_lt (pieces_length hpieces piece hp) (by decide)
  refine ⟨pieces, hpieces, overlay buffer 0 (min length.toNat (pieces.flatMap cString).length)
    ((pieces.flatMap cString).getD · 0), ?_, ?_, ?_⟩
  · rw [sysfsRead, if_neg (by simp), hpieces, ok_bind]
    simp only [hcopy, SafeCopy.append, Nat.zero_add]
  · rw [slice_overlay_self]
    generalize pieces.flatMap cString = t
    refine List.ext_getElem (by simp) fun i hi hi' => ?_
    rw [List.length_take] at hi'
    have hlt : i < t.length := by omega
    simp [slice, hlt]
  · intro i hi
    exact overlay_of_ge (by omega)

/-- A read of six bytes of `meminfo`. -/
theorem read_prefix_exact_meminfo : ∃ buffer',
    sysfsRead ⟨1, 2, 3, [], [], 256, 16⟩ ⟨3, 0⟩ (fun _ => 0xFF) 6 =
      .ok ⟨6, ⟨3, 6⟩, buffer', ⟨1, 2, 3, [], [], 256, 16⟩⟩ ∧
    slice buffer' 0 6 = ascii "total_" ∧ ∀ i, 6 ≤ i → buffer' i = 0xFF := by
  obtain ⟨pieces, hpieces, buffer', hread, htext, hbehind⟩ :=
    read_prefix_exact ⟨1, 2, 3, [], [], 256, 16⟩ (fun _ => 0xFF) 6
      (.inr (.inr rfl) : (3 : U64) = 1 ∨ (3 : U64) = 2 ∨ (3 : U64) = 3)
  obtain rfl := Except.ok.inj (hpieces.symm.trans (rfl : Sysfs.pieces ⟨1, 2, 3, [], [], 256, 16⟩ 3 =
    .ok (Sysfs.meminfoPieces ⟨1, 2, 3, [], [], 256, 16⟩)))
  have hcount : min (6 : U64).toNat ((Sysfs.meminfoPieces
      ⟨1, 2, 3, [], [], 256, 16⟩).flatMap cString).length = 6 := by decide +kernel
  rw [hcount] at hread htext hbehind
  exact ⟨buffer', hread, htext.trans (by decide +kernel), hbehind⟩

end Sysfs

end Persistos
