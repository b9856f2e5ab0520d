import Persistos.HexDump
import Persistos.SysfsReads
import Persistos.UserBoot
import Persistos.UserWrites

/-! The program `hd`. It prints a file as a dump, a line at a time, into one buffer for the text. -/

namespace Persistos

open Theory

namespace Hd

/-- The buffer after the bytes have been written to it from the index `o` on. -/
def stored (textBuffer : Nat → U8) (o : Nat) (bytes : List U8) : Nat → U8 :=
  overlay textBuffer o bytes.length (bytes.getD · 0)

/-- The body of the loop over the four groups of a line. -/
def printGroup (binaryBuffer : Nat → U8) (bytesRead : Int) (textBuffer : Nat → U8) (i : Nat) :
    Nat → U8 :=
  let textBuffer := if bytesRead ≥ 4 * i + 1 then
      stored (stored textBuffer (9 * i) [space]) (9 * i + 1) (sprintfUint8 (binaryBuffer (4 * i)))
    else textBuffer
  let textBuffer := if bytesRead ≥ 4 * i + 2 then
      stored textBuffer (9 * i + 3) (sprintfUint8 (binaryBuffer (4 * i + 1)))
    else textBuffer
  let textBuffer := if bytesRead ≥ 4 * i + 3 then
      stored textBuffer (9 * i + 5) (sprintfUint8 (binaryBuffer (4 * i + 2)))
    else textBuffer
  if bytesRead ≥ 4 * i + 4 then
    stored textBuffer (9 * i + 7) (sprintfUint8 (binaryBuffer (4 * i + 3)))
  else textBuffer

def textLength : Nat := 38

variable (m : UserTask)

/-- The loop over the file, for at most as many passes as the number says. -/
def dump (fd lengthLimit : U64) : Nat → (Nat → U8) → U32 → Process →
    Except UserStop (U32 × Process)
  | 0, _, _, _ => .error (.crash .endless)
  | passes + 1, binaryBuffer, fileOffset, s => do
    let (bytesRead, binaryBuffer, s) ← s.read m fd binaryBuffer 16
    if isError bytesRead then s.fail m [ascii "Error reading\n"]
    else if bytesRead = 0 then .ok (fileOffset, s)
    else do
      let textBuffer := stored (fun _ => 0) 0 (sprintfUint32 fileOffset)
      let s ← s.puts m (slice textBuffer 0 textLength)
      let s ← s.puts m (ascii ":")
      let textBuffer := (List.range 4).foldl (printGroup binaryBuffer bytesRead.toInt) fun _ => 0
      let s ← s.puts m (slice textBuffer 0 textLength)
      let s ← s.puts m (ascii "\n")
      let fileOffset := fileOffset + bytesRead.setWidth 32
      if lengthLimit ≠ 0 ∧ fileOffset.setWidth 64 > lengthLimit then .ok (fileOffset, s)
      else dump fd lengthLimit passes binaryBuffer fileOffset s

/-- The length limit that the arguments say. Zero is none. -/
def lengthLimit (argv : List (List U8)) (s : Process) : Except UserStop U64 :=
  if argv.length > 2 then
    if strcmp (argv.getD 2 []) (ascii "-n") = 0 then
      if argv.length < 4 then s.fail m [ascii "hd: Expected a length limit\n"]
      else
        let (parseResult, lengthLimit) := parseNDec (argv.getD 3 []) 100
        if parseResult.setWidth 64 ≠ BitVec.ofNat 64 (strlen (argv.getD 3 [])) then
          s.fail m [ascii "hd: parse error\n"]
        else .ok lengthLimit
    else s.fail m [ascii "hd: Unexpected argument\n"]
  else .ok 0

def main (passes : Nat) (argv : List (List U8)) (s : Process) : Except UserStop Process :=
  if argv.length < 2 then s.fail m [ascii "hd: Expected a filepath argument\n"]
  else do
    let lengthLimit ← lengthLimit m argv s
    let (fd, s) ← s.openFile m (argv.getD 1 []) 0
    if isError fd then s.fail m [ascii "Error opening\n"]
    else do
      let (fileOffset, s) ← dump m fd lengthLimit passes m.stack 0 s
      if fileOffset > 0 then do
        let textBuffer := stored (fun _ => 0) 0 (sprintfUint32 fileOffset)
        let s ← s.puts m (slice textBuffer 0 textLength)
        let s ← s.puts m (ascii ":\n")
        s.exit 0
      else s.exit 0

end Hd

section Text

/-- A buffer that holds the text and zeros behind it. -/
def holding (text : List U8) : Nat → U8 := (text.getD · 0)

theorem stored_holding (text bytes : List U8) :
    Hd.stored (holding text) text.length bytes = holding (text ++ bytes) := by
  funext i
  simp only [Hd.stored, holding]
  rcases Nat.lt_or_ge i text.length with hi | hi
  · rw [overlay_of_lt hi]
    simp [holding, List.getD, List.getElem?_append, hi]
  · obtain ⟨j, rfl⟩ := Nat.exists_eq_add_of_le hi
    rcases Nat.lt_or_ge j bytes.length with hj | hj
    · rw [overlay_add hj]
      simp [List.getD, List.getElem?_append]
    · rw [overlay_of_ge (by omega)]
      simp [holding, List.getD, hj]

theorem holding_zero (text : List U8) : holding (text ++ [0]) = holding text := by
  funext i
  simp only [holding]
  rcases Nat.lt_or_ge i text.length with hi | hi
  · simp [List.getD, List.getElem?_append, hi]
  · obtain ⟨j, rfl⟩ := Nat.exists_eq_add_of_le hi
    cases j <;> simp [List.getD]

theorem cString_holding {text : List U8} {n : Nat} (h : 0 ∉ text) (hn : text.length ≤ n) :
    cString (slice (holding text) 0 n) = text := by
  obtain ⟨d, rfl⟩ := Nat.exists_eq_add_of_le hn
  have hrest : slice (holding text) text.length d = List.replicate d 0 := by
    refine slice_eq_replicate_iff.mpr fun i _ => ?_
    simp [holding, List.getD]
  have htext : slice (holding text) 0 text.length = text := slice_getD_self text 0
  rw [slice_add, htext, Nat.zero_add, hrest, cString_append h]
  cases d <;> simp [List.replicate_succ, cString]

theorem sprintfUint8_eq (b : U8) : sprintfUint8 b = byteDigits b ++ [0] := sprintfHex_append 2 b [0]

variable {piece : List U8} {binaryBuffer : Nat → U8} {j o : Nat}

/-- The buffer when `j` bytes of the piece have been printed. -/
def printed (piece : List U8) (j : Nat) : Nat → U8 := holding (pieceText (piece.take j))

theorem printed_full (h : piece.length ≤ j) : printed piece (j + 1) = printed piece j := by
  rw [printed, printed, List.take_of_length_le h, List.take_of_length_le (by omega)]

theorem take_succ_eq (hp : slice binaryBuffer 0 piece.length = piece) (hj : j < piece.length) :
    piece.take (j + 1) = piece.take j ++ [binaryBuffer j] := by
  have hget := slice_getD binaryBuffer 0 0 hj
  rw [hp, Nat.zero_add] at hget
  rw [List.take_add_one, List.getElem?_eq_getElem hj, Option.toList_some, ← hget]
  simp [List.getD, hj]

theorem stored_byte (hp : slice binaryBuffer 0 piece.length = piece) (hj : j < piece.length)
    (hmod : j % 4 ≠ 0) (ho : o = 2 * j + (j + 3) / 4) :
    Hd.stored (printed piece j) o (sprintfUint8 (binaryBuffer j)) = printed piece (j + 1) := by
  have hlength : (piece.take j).length = j := by
    rw [List.length_take]
    omega
  have ho : o = (pieceText (piece.take j)).length := by rw [pieceText_length, hlength, ho]
  rw [printed, printed, take_succ_eq hp hj, pieceText_append, hlength, byteText, if_neg hmod,
    List.nil_append, ho, sprintfUint8_eq, stored_holding, ← List.append_assoc, holding_zero]

theorem stored_first (hp : slice binaryBuffer 0 piece.length = piece) (hj : j < piece.length)
    (hmod : j % 4 = 0) (ho : o = 2 * j + (j + 3) / 4) :
    Hd.stored (Hd.stored (printed piece j) o [space]) (o + 1) (sprintfUint8 (binaryBuffer j)) =
      printed piece (j + 1) := by
  have hlength : (piece.take j).length = j := by
    rw [List.length_take]
    omega
  have ho : o = (pieceText (piece.take j)).length := by rw [pieceText_length, hlength, ho]
  have hnext : o + 1 = (pieceText (piece.take j) ++ [space]).length := by
    rw [List.length_append, List.length_singleton, ho]
  rw [printed, printed, take_succ_eq hp hj, pieceText_append, hlength, byteText, if_pos hmod]
  rw [hnext, ho, stored_holding, sprintfUint8_eq, stored_holding, ← List.append_assoc, holding_zero,
    ← List.append_assoc]

/-- The prints of a group do what the bytes of it are. -/
theorem printGroup_printed (hp : slice binaryBuffer 0 piece.length = piece) (i : Nat) :
    Hd.printGroup binaryBuffer piece.length (printed piece (4 * i)) i =
      printed piece (4 * (i + 1)) := by
  have hfirst : (if (piece.length : Int) ≥ 4 * i + 1 then
      Hd.stored (Hd.stored (printed piece (4 * i)) (9 * i) [space]) (9 * i + 1)
        (sprintfUint8 (binaryBuffer (4 * i)))
      else printed piece (4 * i)) = printed piece (4 * i + 1) := by
    split
    · exact stored_first hp (by omega) (by omega) (by omega)
    · exact (printed_full (by omega)).symm
  have hnext : ∀ r : Nat, r ∈ [1, 2, 3] → (if (piece.length : Int) ≥ 4 * i + (r + 1 : Nat) then
      Hd.stored (printed piece (4 * i + r)) (9 * i + (2 * r + 1))
        (sprintfUint8 (binaryBuffer (4 * i + r)))
      else printed piece (4 * i + r)) = printed piece (4 * i + r + 1) := by
    intro r hr
    have hrange : 1 ≤ r ∧ r ≤ 3 := by
      simp at hr
      omega
    split
    · exact stored_byte hp (by omega) (by omega) (by omega)
    · exact (printed_full (by omega)).symm
  have h1 := hnext 1 (by decide)
  have h2 := hnext 2 (by decide)
  have h3 := hnext 3 (by decide)
  simp only [Nat.reduceMul, Nat.reduceAdd, Nat.cast_ofNat, Nat.add_assoc] at h1 h2 h3
  rw [Hd.printGroup, hfirst, h1, h2, h3]
  rfl

/-- The text of a line's bytes. -/
theorem printGroups_eq (hp : slice binaryBuffer 0 piece.length = piece)
    (hlength : piece.length ≤ 16) :
    (List.range 4).foldl (Hd.printGroup binaryBuffer piece.length) (fun _ => 0) =
      holding (pieceText piece) := by
  have hstart : (fun _ => 0 : Nat → U8) = printed piece 0 := by
    funext i
    simp [printed, holding, pieceText]
  have hrange : List.range 4 = [0, 1, 2, 3] := rfl
  have hall : printed piece 16 = holding (pieceText piece) := by
    rw [printed, List.take_of_length_le hlength]
  rw [hstart, hrange, List.foldl_cons, List.foldl_cons, List.foldl_cons, List.foldl_cons,
    List.foldl_nil, ← hall]
  have h0 := printGroup_printed hp 0
  have h1 := printGroup_printed hp 1
  have h2 := printGroup_printed hp 2
  have h3 := printGroup_printed hp 3
  rw [h0, h1, h2, h3]

end Text

section Run

variable {m : UserTask} {s : Process} {ramFiles : List U64} {fd f : U64} {content : List U8}
  {p i : Nat}

/-- Between two calls of `hd`: the file at `f` has the content, `fd` is at the position `p` of it,
and the standard output is another file. -/
structure HdReady (m : UserTask) (s : Process) (ramFiles : List U64) (fd f : U64)
    (content : List U8) (p : Nat) : Prop where
  kernel : s.tables.kernel.RamKernel ramFiles
  mem : f ∈ ramFiles
  content : (s.tables.kernel.fs.image f).content = content
  input : m.At s.tables fd f p
  apart : m.Apart s.tables ramFiles 1 f
  other : fd.setWidth 32 ≠ (1 : U64).setWidth 32

/-- What has been handed to WRITE since `written` are these bytes for the standard output. -/
def Wrote (written written' : List (U64 × List U8)) (output : List U8) : Prop :=
  ∃ chunks : List (List U8), written' = written ++ chunks.map (fun chunk => (1, chunk)) ∧
    chunks.flatten = output

theorem Wrote.refl (written : List (U64 × List U8)) : Wrote written written [] :=
  ⟨[], (List.append_nil _).symm, rfl⟩

theorem Wrote.trans {written written' written'' : List (U64 × List U8)} {output output' : List U8}
    (h : Wrote written written' output) (h' : Wrote written' written'' output') :
    Wrote written written'' (output ++ output') := by
  obtain ⟨chunks, rfl, rfl⟩ := h
  obtain ⟨chunks', rfl, rfl⟩ := h'
  exact ⟨chunks ++ chunks', by rw [List.map_append, List.append_assoc], List.flatten_append⟩

/-- The kernel stops the run in a WRITE to the standard output, within `output`. -/
def StopsWriting {α : Type} (m : UserTask) (written : List (U64 × List U8))
    (run : Except UserStop α) (output : List U8) : Prop :=
  ∃ (s : Process) (data first : List U8) (e : Crash),
    run = .error (.crash e) ∧ s.puts m data = .error (.crash e) ∧
      Wrote written s.written first ∧ first ++ cString data <+: output

/-- A run that goes on after something has been written. -/
theorem StopsWriting.after {α : Type} {written written' : List (U64 × List U8)}
    {first output : List U8} {run : Except UserStop α} (h : StopsWriting m written' run output)
    (hw : Wrote written written' first) : StopsWriting m written run (first ++ output) := by
  obtain ⟨s, data, second, e, hrun, hputs, hwrote, hprefix⟩ := h
  refine ⟨s, data, first ++ second, e, hrun, hputs, hw.trans hwrote, ?_⟩
  rw [List.append_assoc]
  exact (List.prefix_append_right_inj _).mpr hprefix

/-- A run that stops does not get to what would follow. -/
theorem StopsWriting.bind {α β : Type} {written : List (U64 × List U8)} {run : Except UserStop α}
    {output : List U8} (h : StopsWriting m written run output) (next : α → Except UserStop β)
    (rest : List U8) : StopsWriting m written (run >>= next) (output ++ rest) := by
  obtain ⟨s, data, first, e, hrun, hputs, hwrote, hprefix⟩ := h
  refine ⟨s, data, first, e, ?_, hputs, hwrote, hprefix.trans (List.prefix_append _ _)⟩
  rw [hrun]
  rfl

theorem puts_ready (h : HdReady m s ramFiles fd f content p) {data : List U8}
    (hlength : data.length < 2 ^ 64) :
    (∃ s', s.puts m data = .ok s' ∧ Wrote s.written s'.written (cString data) ∧
        HdReady m s' ramFiles fd f content p) ∨
      ∃ e, s.puts m data = .error (.crash e) := by
  have hle : strlen data ≤ data.length := by
    rw [strlen_eq]
    exact (List.takeWhile_prefix _).length_le
  have hchunk : slice (data.getD · 0) 0 (BitVec.ofNat 64 (strlen data)).toNat = cString data := by
    rw [BitVec.toNat_ofNat, Nat.mod_eq_of_lt (by omega), ← slice_take _ 0 hle, slice_getD_self,
      take_strlen]
  cases hputs : s.puts m data with
  | error e =>
    obtain ⟨c, rfl⟩ := Process.fputs_error hputs
    exact .inr ⟨c, rfl⟩
  | ok s' =>
    obtain ⟨⟨n, s₁⟩, hwrite, hputs⟩ := bind_user_eq_ok hputs
    cases hputs
    obtain ⟨hsys, hwritten, -⟩ := Process.write_ok hwrite
    have hapart := UserTask.sysWrite_apart h.kernel h.mem h.apart hsys
    refine .inl ⟨s', rfl, ⟨[cString data], ?_, List.flatten_singleton⟩, hapart.kernel, h.mem, ?_,
      hapart.others h.other h.input, hapart.apart, h.other⟩
    · rw [hwritten, hchunk]
      rfl
    · rw [hapart.image, h.content]

/-- Several texts one after the other. -/
theorem putsAll_ready (h : HdReady m s ramFiles fd f content p) {texts : List (List U8)}
    (hlength : ∀ data ∈ texts, data.length < 2 ^ 64) :
    (∃ s', texts.foldlM (fun s data => s.puts m data) s = .ok s' ∧
        Wrote s.written s'.written (texts.flatMap cString) ∧
        HdReady m s' ramFiles fd f content p) ∨
      StopsWriting m s.written (texts.foldlM (fun s data => s.puts m data) s)
        (texts.flatMap cString) := by
  induction texts generalizing s with
  | nil => exact .inl ⟨s, rfl, .refl _, h⟩
  | cons data texts ih =>
    obtain ⟨hdata, htexts⟩ := List.forall_mem_cons.mp hlength
    rw [List.foldlM_cons, List.flatMap_cons]
    rcases puts_ready h hdata with ⟨s₁, hputs, hwrote, hready⟩ | ⟨e, hputs⟩
    · rw [hputs, ok_bind_user]
      rcases ih hready htexts with ⟨s', hall, hwrote', hready'⟩ | hstops
      · exact .inl ⟨s', hall, hwrote.trans hwrote', hready'⟩
      · exact .inr (hstops.after hwrote)
    · refine .inr ⟨s, data, [], e, ?_, hputs, .refl _, List.prefix_append _ _⟩
      rw [hputs]
      rfl

theorem cString_address (offset : U32) :
    cString (slice (Hd.stored (fun _ => 0) 0 (sprintfUint32 offset)) 0 Hd.textLength) =
      sprintfHex 8 offset [] := by
  have hzero : (fun _ => 0 : Nat → U8) = holding [] := rfl
  have hnonzero : 0 ∉ sprintfHex 8 offset [] := fun hc =>
    absurd (le_of_mem_sprintfHex (by decide) hc) (by decide)
  have hstored := stored_holding [] (sprintfUint32 offset)
  rw [List.length_nil, List.nil_append, sprintfUint32, sprintfHex_append, holding_zero] at hstored
  rw [hzero, sprintfUint32, sprintfHex_append, hstored]
  exact cString_holding hnonzero (by rw [sprintfHex_length]; decide)

/-- What is printed for a piece, in the order of the calls. -/
def lineTexts (offset : U32) (binaryBuffer : Nat → U8) (bytesRead : Int) : List (List U8) :=
  [slice (Hd.stored (fun _ => 0) 0 (sprintfUint32 offset)) 0 Hd.textLength, ascii ":",
    slice ((List.range 4).foldl (Hd.printGroup binaryBuffer bytesRead) fun _ => 0) 0 Hd.textLength,
    ascii "\n"]

theorem lineTexts_eq {piece : List U8} {binaryBuffer : Nat → U8} (offset : Nat)
    (hp : slice binaryBuffer 0 piece.length = piece) (hlength : piece.length ≤ 16) :
    (lineTexts (BitVec.ofNat 32 offset) binaryBuffer piece.length).flatMap cString =
      dumpLine offset piece ++ [newline] := by
  have hnonzero : 0 ∉ pieceText piece := by
    intro hc
    obtain ⟨⟨b, j⟩, -, hc⟩ := List.mem_flatMap.mp hc
    rcases List.mem_append.mp hc with hc | hc
    · split at hc
      · exact absurd hc (by decide)
      · cases hc
    · exact absurd (le_of_mem_sprintfHex (Nat.le_refl 8) hc) (by decide)
  have hpiece : cString (slice (holding (pieceText piece)) 0 Hd.textLength) = pieceText piece := by
    refine cString_holding hnonzero ?_
    rw [pieceText_length, Hd.textLength]
    omega
  have hcolon : cString (ascii ":") = ascii ":" := by decide
  have hnewline : cString (ascii "\n") = [newline] := by decide
  simp only [lineTexts, List.flatMap_cons, List.flatMap_nil, cString_address,
    printGroups_eq hp hlength, hpiece, hcolon, hnewline, dumpLine, addressText, List.append_assoc,
    List.append_nil]

theorem lineTexts_length {offset : U32} {binaryBuffer : Nat → U8} {bytesRead : Int} :
    ∀ data ∈ lineTexts offset binaryBuffer bytesRead, data.length < 2 ^ 64 := by
  simp [lineTexts, Hd.textLength, ascii]

/-- The lines from the piece `i` on. -/
def linesFrom (content : List U8) (i : Nat) : List (List U8) :=
  (List.range' i (pieceCount content - i)).map fun i => dumpLine (16 * i) (pieceAt content i)

theorem linesText_linesFrom {i : Nat} (hi : i < pieceCount content) :
    linesText (linesFrom content i) =
      dumpLine (16 * i) (pieceAt content i) ++ [newline] ++ linesText (linesFrom content (i + 1)) := by
  have hcount : pieceCount content - i = pieceCount content - (i + 1) + 1 := by omega
  rw [linesFrom, hcount, List.range'_succ, List.map_cons, linesText, List.flatMap_cons, ← linesText,
    ← linesFrom]

/-- A pass of the loop that reads a piece. -/
theorem dump_piece (h : HdReady m s ramFiles fd f content (min (16 * i) content.length))
    (hi : i < pieceCount content) (hlength : content.length < 2 ^ 32) (passes : Nat)
    (buffer : Nat → U8) :
    ∃ s₁ buffer₁, s₁.written = s.written ∧
      HdReady m s₁ ramFiles fd f content (min (16 * (i + 1)) content.length) ∧
      slice buffer₁ 0 (pieceAt content i).length = pieceAt content i ∧
      Hd.dump m fd 0 (passes + 1) buffer (BitVec.ofNat 32 (min (16 * i) content.length)) s = (do
        let s ← (lineTexts (BitVec.ofNat 32 (16 * i)) buffer₁ (pieceAt content i).length).foldlM
          (fun s data => s.puts m data) s₁
        Hd.dump m fd 0 passes buffer₁ (BitVec.ofNat 32 (min (16 * (i + 1)) content.length)) s) := by
  have h16 : (16 : U64).toNat = 16 := rfl
  have hstart : 16 * i < content.length := by
    rw [pieceCount] at hi
    omega
  have hmin : min (16 * i) content.length = 16 * i := Nat.min_eq_left hstart.le
  rw [hmin] at h ⊢
  have hpiece : (pieceAt content i).length = min 16 (content.length - 16 * i) := by
    rw [pieceAt, List.length_take, List.length_drop]
  obtain ⟨buffer₁, s₁, hread, hhas, hwritten, -⟩ := Process.read_ram h.kernel h.mem h.input
    (by rw [h.content]; exact hstart.le) buffer (show (16 : U64).toNat ≤ 2 ^ 32 by decide)
  have hbytes := hhas.bytes
  have hinput := hhas.position
  rw [UserTask.toRead, h16, h.content, ← hpiece] at hread hbytes hinput
  have htake : (content.drop (16 * i)).take (pieceAt content i).length = pieceAt content i := by
    rw [pieceAt, List.length_take]
    exact List.take_eq_take_min.symm
  generalize hn : (pieceAt content i).length = n at *
  have hnext : 16 * i + n = min (16 * (i + 1)) content.length := by omega
  have hnat : (BitVec.ofNat 64 n).toNat = n := by
    rw [BitVec.toNat_ofNat]
    omega
  have hint : (BitVec.ofNat 64 n).toInt = n := by
    rw [BitVec.toInt_eq_toNat_of_lt (by omega), hnat]
  have hok : isError (BitVec.ofNat 64 n) = false := isError_of_lt (by omega)
  have hzero : BitVec.ofNat 64 n ≠ 0 := by
    intro hh
    have hh := congrArg BitVec.toNat hh
    rw [hnat] at hh
    change n = 0 at hh
    omega
  have hoffset : BitVec.ofNat 32 (16 * i) + (BitVec.ofNat 64 n).setWidth 32 =
      BitVec.ofNat 32 (min (16 * (i + 1)) content.length) := by
    rw [BitVec.setWidth_ofNat_of_le (by decide), ← BitVec.ofNat_add, hnext]
  have hlimit : ∀ x : U64, ¬((0 : U64) ≠ 0 ∧ x > 0) := fun _ hh => hh.1 rfl
  refine ⟨s₁, buffer₁, hwritten, ⟨hhas.kernel ▸ h.kernel, h.mem, ?_, hnext ▸ hinput,
    h.apart.kept hhas.toOnlyMoved h.other.symm hhas.kernel, h.other⟩, hbytes.trans htake, ?_⟩
  · rw [hhas.kernel, h.content]
  · rw [Hd.dump, hread, ok_bind_user]
    dsimp only
    rw [hok, if_neg Bool.false_ne_true, if_neg hzero, hint, hoffset]
    simp only [hlimit, if_false, lineTexts, List.foldlM_cons, List.foldlM_nil, bind_assoc, pure_bind]

/-- The pass at the end of the file. -/
theorem dump_end (h : HdReady m s ramFiles fd f content content.length) (passes : Nat)
    (buffer : Nat → U8) (offset : U32) :
    ∃ s', Hd.dump m fd 0 (passes + 1) buffer offset s = .ok (offset, s') ∧
      s'.written = s.written ∧ HdReady m s' ramFiles fd f content content.length := by
  obtain ⟨buffer₁, s₁, hread, hhas, hwritten, -⟩ := Process.read_ram h.kernel h.mem h.input
    (by rw [h.content]) buffer (show (16 : U64).toNat ≤ 2 ^ 32 by decide)
  have hcount : UserTask.toRead s.tables f content.length (16 : U64).toNat = 0 := by
    rw [UserTask.toRead, h.content, Nat.sub_self, Nat.min_zero]
  have hinput := hhas.position
  rw [hcount, Nat.add_zero] at hinput
  rw [hcount] at hread
  refine ⟨s₁, ?_, hwritten, hhas.kernel ▸ h.kernel, h.mem, ?_, hinput,
    h.apart.kept hhas.toOnlyMoved h.other.symm hhas.kernel, h.other⟩
  · rw [Hd.dump, hread]
    rfl
  · rw [hhas.kernel, h.content]

/-- The loop from the piece `i` on. -/
theorem dump_run (h : HdReady m s ramFiles fd f content (min (16 * i) content.length))
    (hi : i ≤ pieceCount content) (hlength : content.length < 2 ^ 32) {passes : Nat}
    (hpasses : pieceCount content - i < passes) (buffer : Nat → U8) :
    (∃ s', Hd.dump m fd 0 passes buffer (BitVec.ofNat 32 (min (16 * i) content.length)) s =
            .ok (BitVec.ofNat 32 content.length, s') ∧
        Wrote s.written s'.written (linesText (linesFrom content i)) ∧
        HdReady m s' ramFiles fd f content content.length) ∨
      StopsWriting m s.written (Hd.dump m fd 0 passes buffer
        (BitVec.ofNat 32 (min (16 * i) content.length)) s) (linesText (linesFrom content i)) := by
  induction passes generalizing i s buffer with
  | zero => omega
  | succ passes ih =>
    rcases Nat.lt_or_eq_of_le hi with hlt | heq
    · obtain ⟨s₁, buffer₁, hwritten, hready, hpiece, hdump⟩ := dump_piece h hlt hlength passes buffer
      have hsize : (pieceAt content i).length ≤ 16 := by
        rw [pieceAt, List.length_take]
        exact Nat.min_le_left _ _
      rw [hdump, linesText_linesFrom hlt, ← lineTexts_eq (16 * i) hpiece hsize, ← hwritten]
      rcases putsAll_ready hready lineTexts_length with ⟨s₂, hputs, hwrote, hready₂⟩ | hstops
      · rw [hputs, ok_bind_user]
        rcases ih hready₂ hlt (by omega) buffer₁ with ⟨s', hrun, hwrote', hready'⟩ | hstops
        · exact .inl ⟨s', hrun, hwrote.trans hwrote', hready'⟩
        · exact .inr (hstops.after hwrote)
      · exact .inr (hstops.bind _ _)
    · have hend : min (16 * i) content.length = content.length := by
        rw [pieceCount] at heq
        omega
      rw [hend] at h ⊢
      obtain ⟨s', hdump, hwritten, hready⟩ := dump_end h passes buffer _
      have hnone : linesText (linesFrom content i) = [] := by
        rw [linesFrom, heq, Nat.sub_self]
        rfl
      rw [hnone]
      exact .inl ⟨s', hdump, hwritten ▸ .refl _, hready⟩

variable {argv : List (List U8)} {passes : Nat}

/-- The last line. -/
def lastTexts (offset : U32) : List (List U8) :=
  [slice (Hd.stored (fun _ => 0) 0 (sprintfUint32 offset)) 0 Hd.textLength, ascii ":\n"]

theorem lastTexts_eq (offset : Nat) :
    (lastTexts (BitVec.ofNat 32 offset)).flatMap cString = addressText offset ++ [newline] := by
  have hcolon : cString (ascii ":\n") = ascii ":" ++ [newline] := by decide
  simp only [lastTexts, List.flatMap_cons, List.flatMap_nil, cString_address, hcolon, addressText,
    List.append_assoc, List.append_nil]

theorem linesText_dumpLines (content : List U8) : linesText (dumpLines content) =
    linesText (linesFrom content 0) ++
      if content = [] then [] else addressText content.length ++ [newline] := by
  rw [dumpLines, linesText, List.flatMap_append, linesFrom, Nat.sub_zero, ← List.range_eq_range']
  split
  · rfl
  · rw [List.flatMap_singleton, linesText]

/-- `hd` after the file has been opened. -/
theorem hd_prints (h : HdReady m s ramFiles fd f content 0) (hlength : content.length < 2 ^ 32)
    (hpasses : content.length < passes) : let run : Except UserStop Process := (do
      let (fileOffset, s) ← Hd.dump m fd 0 passes m.stack 0 s
      if fileOffset > 0 then do
        let textBuffer := Hd.stored (fun _ => 0) 0 (sprintfUint32 fileOffset)
        let s ← s.puts m (slice textBuffer 0 Hd.textLength)
        let s ← s.puts m (ascii ":\n")
        s.exit 0
      else s.exit 0)
    (∃ s', run = .error (.exited 0 s') ∧
        Wrote s.written s'.written (linesText (dumpLines content))) ∨
      StopsWriting m s.written run (linesText (dumpLines content)) := by
  intro run
  have hstart : min (16 * 0) content.length = 0 := Nat.zero_min _
  have hcount : pieceCount content - 0 < passes := by
    rw [pieceCount]
    omega
  have hdump := dump_run (i := 0) (hstart.symm ▸ h) (Nat.zero_le _) hlength hcount m.stack
  rw [hstart] at hdump
  rw [linesText_dumpLines]
  rcases hdump with ⟨s₁, hrun, hwrote, hready⟩ | hstops
  · have hnext : run = (if BitVec.ofNat 32 content.length > 0 then do
          let s ← (lastTexts (BitVec.ofNat 32 content.length)).foldlM
            (fun s data => s.puts m data) s₁
          s.exit 0
        else s₁.exit 0) := by
      change (Hd.dump m fd 0 passes m.stack (BitVec.ofNat 32 0) s >>= _) = _
      rw [hrun, ok_bind_user]
      simp only [lastTexts, List.foldlM_cons, List.foldlM_nil, bind_assoc, pure_bind]
    have hpos : BitVec.ofNat 32 content.length > 0 ↔ content ≠ [] := by
      rw [gt_iff_lt, BitVec.lt_def, BitVec.toNat_ofNat, Nat.mod_eq_of_lt hlength]
      exact List.length_pos_iff
    rw [hnext]
    by_cases hempty : content = []
    · rw [if_neg fun hh => hpos.mp hh hempty, if_pos hempty, List.append_nil]
      exact .inl ⟨s₁, rfl, hwrote⟩
    · rw [if_pos (hpos.mpr hempty), if_neg hempty, ← lastTexts_eq]
      have htexts : ∀ data ∈ lastTexts (BitVec.ofNat 32 content.length),
          data.length < 2 ^ 64 := by
        simp [lastTexts, Hd.textLength, ascii]
      rcases putsAll_ready hready htexts with ⟨s', hputs, hwrote', -⟩ | hstops
      · refine .inl ⟨s', ?_, hwrote.trans hwrote'⟩
        rw [hputs]
        rfl
      · have hall := (hstops.after hwrote).bind (fun s => (s.exit 0 : Except UserStop Process)) []
        rw [List.append_nil] at hall
        exact .inr hall
  · exact .inr (hstops.bind _ _)

end Run

open FsKernel

end Persistos
