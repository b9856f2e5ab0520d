import Persistos.Exec

/-! The staging page of EXEC. The strings lie one below the other under the
array of their addresses, and the copying loop writes nothing else. -/

namespace Persistos

open Theory

/-- `argv` is an array of pointers to `strings`, and NULL. -/
structure ArgVector (memory : ByteMemory) (argv : U64) (strings : List (U64 × List U8)) : Prop where
  array : WordsAt memory argv (strings.map Prod.fst ++ [0])
  strings : ∀ s ∈ strings, s.1 ≠ 0 ∧ StringAt memory s.1 s.2

def packedSize (args : List (List U8)) : Nat := (args.map fun w => w.length + 1).sum

def packedTop : U64 → List (List U8) → U64
  | top, [] => top
  | top, w :: ws => packedTop (top - BitVec.ofNat 64 w.length - 1) ws

/-- The strings with their places below `top`. -/
def placeArgs : U64 → List (List U8) → List (U64 × List U8)
  | _, [] => []
  | top, w :: ws =>
    (top - BitVec.ofNat 64 w.length - 1, w) :: placeArgs (top - BitVec.ofNat 64 w.length - 1) ws

variable {memory memory' : ByteMemory} {argv p top : U64} {lo hi fuel i : Nat}
  {w : List U8} {args : List (List U8)} {strings : List (U64 × List U8)}

@[simp] theorem packedSize_nil : packedSize [] = 0 := rfl

@[simp] theorem packedSize_cons (w : List U8) (args : List (List U8)) :
    packedSize (w :: args) = w.length + 1 + packedSize args := by
  simp [packedSize]

@[simp] theorem placeArgs_snd (top : U64) (args : List (List U8)) :
    (placeArgs top args).map Prod.snd = args := by
  induction args generalizing top with
  | nil => rfl
  | cons w args ih => simp [placeArgs, ih]

theorem placeArgs_length (top : U64) (args : List (List U8)) :
    (placeArgs top args).length = args.length := by
  rw [← List.length_map (f := Prod.snd), placeArgs_snd]

theorem place_toNat (top : U64) (w : List U8) (h : w.length + 1 ≤ top.toNat) :
    (top - BitVec.ofNat 64 w.length - 1).toNat = top.toNat - (w.length + 1) := by
  have hlt := top.isLt
  have hw : (BitVec.ofNat 64 w.length).toNat = w.length := by
    rw [BitVec.toNat_ofNat]
    exact Nat.mod_eq_of_lt (by omega)
  bv_omega

theorem packedTop_toNat (top : U64) (args : List (List U8)) (h : packedSize args ≤ top.toNat) :
    (packedTop top args).toNat = top.toNat - packedSize args := by
  induction args generalizing top with
  | nil => simp [packedTop]
  | cons w args ih =>
    simp only [packedSize_cons] at h ⊢
    have hp := place_toNat top w (by omega)
    rw [packedTop, ih _ (by omega), hp]
    omega

theorem placeArgs_bounds (h : packedSize args ≤ top.toNat) :
    ∀ s ∈ placeArgs top args,
      top.toNat - packedSize args ≤ s.1.toNat ∧ s.1.toNat + s.2.length + 1 ≤ top.toNat := by
  induction args generalizing top with
  | nil => simp [placeArgs]
  | cons w args ih =>
    simp only [packedSize_cons] at h ⊢
    have hp := place_toNat top w (by omega)
    simp only [placeArgs, List.forall_mem_cons]
    constructor
    · constructor <;> omega
    · intro s hs
      have hsize : packedSize args ≤ (top - BitVec.ofNat 64 w.length - 1).toNat := by omega
      have hh := ih hsize s hs
      omega

/-- No two strings overlap. -/
theorem placeArgs_pairwise (h : packedSize args ≤ top.toNat) :
    (placeArgs top args).Pairwise fun s t => t.1.toNat + t.2.length + 1 ≤ s.1.toNat := by
  induction args generalizing top with
  | nil => simp [placeArgs]
  | cons w args ih =>
    simp only [packedSize_cons] at h
    have hp := place_toNat top w (by omega)
    simp only [placeArgs, List.pairwise_cons]
    constructor
    · intro t ht
      exact (placeArgs_bounds (by omega) t ht).2
    · exact ih (by omega)

theorem words_succ (a : U64) (i : Nat) :
    a + BitVec.ofNat 64 (8 * i) + 8 = a + BitVec.ofNat 64 (8 * (i + 1)) := by
  rw [BitVec.add_assoc, Nat.mul_succ, BitVec.ofNat_add]
  rfl

theorem words_toNat {a : U64} (h : a.toNat + 8 * i < 2 ^ 64) :
    (a + BitVec.ofNat 64 (8 * i)).toNat = a.toNat + 8 * i :=
  toNat_add_ofNat h

theorem countArgs_eq {ptrs : List U64} {argc : Nat}
    (h : WordsAt memory (argv + BitVec.ofNat 64 (8 * argc)) (ptrs ++ [0])) (hn : 0 ∉ ptrs)
    (hf : ptrs.length < fuel) : countArgs memory argv fuel argc = .ok (argc + ptrs.length) := by
  induction ptrs generalizing argc fuel with
  | nil =>
    obtain ⟨fuel, rfl⟩ := Nat.exists_eq_add_of_lt hf
    simp [countArgs, h.1]
  | cons p ptrs ih =>
    cases fuel with
    | zero => simp at hf
    | succ fuel =>
      simp only [List.mem_cons, not_or] at hn
      have hp : load64 memory (argv + BitVec.ofNat 64 (8 * argc)) = p := h.1
      have hrest : WordsAt memory (argv + BitVec.ofNat 64 (8 * (argc + 1))) (ptrs ++ [0]) := by
        rw [← words_succ]
        exact h.2
      rw [countArgs, hp, if_pos (Ne.symm hn.1), ih hrest hn.2 (by simpa using hf),
        List.length_cons]
      congr 1
      omega

theorem strlenAt_eq {str : U64} {len : Nat}
    (h : BytesAt memory (str + BitVec.ofNat 64 len) (w ++ [0])) (hn : 0 ∉ w)
    (hf : w.length < fuel) : strlenAt memory str fuel len = .ok (len + w.length) := by
  induction w generalizing len fuel with
  | nil =>
    obtain ⟨fuel, rfl⟩ := Nat.exists_eq_add_of_lt hf
    simp [strlenAt, h.1]
  | cons c w ih =>
    cases fuel with
    | zero => simp at hf
    | succ fuel =>
      simp only [List.mem_cons, not_or] at hn
      have hc : memory (str + BitVec.ofNat 64 len) = c := h.1
      have hrest : BytesAt memory (str + BitVec.ofNat 64 (len + 1)) (w ++ [0]) := by
        have hadd : str + BitVec.ofNat 64 (len + 1) = str + BitVec.ofNat 64 len + 1 := by
          rw [BitVec.ofNat_add, BitVec.add_assoc]
          rfl
        rw [hadd]
        exact h.2
      rw [strlenAt, hc, if_pos (Ne.symm hn.1), ih hrest hn.2 (by simpa using hf),
        List.length_cons]
      congr 1
      omega

/-- One argument: its string below `top`, its address in the array. -/
theorem packOne {place a : U64} (hstr : StringAt memory p w) (hap : Apart p (w.length + 1) lo hi)
    (hplace : place.toNat + (w.length + 1) = top.toNat) (hlo : lo ≤ place.toNat)
    (ha : top.toNat ≤ a.toNat) (hhi : a.toNat + 8 ≤ hi) (hbound : hi ≤ 2 ^ 64) :
    StringAt (store64 (copyBytes memory place p (w.length + 1)) a place) place w ∧
      load64 (store64 (copyBytes memory place p (w.length + 1)) a place) a = place ∧
      ∀ x : U64, (x.toNat < place.toNat ∨ top.toNat ≤ x.toNat) →
        (x.toNat < a.toNat ∨ a.toNat + 8 ≤ x.toNat) →
        store64 (copyBytes memory place p (w.length + 1)) a place x = memory x := by
  have hpb := hap.bound
  have hpo := hap.outside
  refine ⟨?_, load64_store64 (by omega), ?_⟩
  · have hcopied : Copied memory (copyBytes memory place p (w.length + 1)) p place (w.length + 1) :=
      copyBytes_copied (by omega) hpb (by omega)
    have hsame : SameOn (copyBytes memory place p (w.length + 1))
        (store64 (copyBytes memory place p (w.length + 1)) a place) place.toNat
        (place.toNat + (w.length + 1)) := store64_same (by omega) (by omega)
    exact (hstr.copied hcopied).copied (hsame.copied (by omega))
  · intro x hx hx'
    exact (store64_outside (by omega) hx').trans (copyBytes_outside (by omega) (by omega))

theorem packArgs_spec {relocated : U64}
    (hw : WordsAt memory (argv + BitVec.ofNat 64 (8 * i)) (strings.map Prod.fst))
    (harray : argv.toNat + 8 * (i + strings.length) ≤ lo ∨ hi ≤ argv.toNat)
    (hargv : argv.toNat + 8 * (i + strings.length) < 2 ^ 64)
    (hs : ∀ s ∈ strings, StringAt memory s.1 s.2 ∧ Apart s.1 (s.2.length + 1) lo hi)
    (hroom : lo + packedSize (strings.map Prod.snd) ≤ top.toNat)
    (htop : top.toNat ≤ relocated.toNat)
    (hhi : relocated.toNat + 8 * (i + strings.length) < hi) (hbound : hi ≤ 2 ^ 64)
    (hfuel : packedSize (strings.map Prod.snd) < fuel) :
    ∃ memory', packArgs fuel argv relocated strings.length i memory top =
        .ok (memory', packedTop top (strings.map Prod.snd)) ∧
      WordsAt memory' (relocated + BitVec.ofNat 64 (8 * i))
        ((placeArgs top (strings.map Prod.snd)).map Prod.fst) ∧
      (∀ s ∈ placeArgs top (strings.map Prod.snd), StringAt memory' s.1 s.2) ∧
      ∀ x : U64, (x.toNat < top.toNat - packedSize (strings.map Prod.snd) ∨ top.toNat ≤ x.toNat) →
        (x.toNat < relocated.toNat + 8 * i ∨
          relocated.toNat + 8 * (i + strings.length) ≤ x.toNat) → memory' x = memory x := by
  induction strings generalizing memory i top with
  | nil => exact ⟨memory, rfl, trivial, by simp [placeArgs], fun _ _ _ => rfl⟩
  | cons s strings ih =>
    obtain ⟨p, w⟩ := s
    simp only [List.map_cons, packedSize_cons, List.length_cons, List.forall_mem_cons] at *
    obtain ⟨hp, hw⟩ := hw
    obtain ⟨⟨hstr, hap⟩, hs⟩ := hs
    have hlen : strlenAt memory p fuel 0 = .ok w.length := by
      have hb : BytesAt memory (p + BitVec.ofNat 64 0) (w ++ [0]) := by simpa using hstr.bytes
      simpa using strlenAt_eq hb hstr.nonzero (by omega : w.length < fuel)
    have hslot := words_toNat (a := relocated) (i := i) (by omega)
    have hplace := place_toNat top w (by omega)
    rw [packArgs, hp, hlen, ok_bind, placeArgs, packedTop]
    dsimp only
    generalize top - BitVec.ofNat 64 w.length - 1 = place at *
    have hplaceTop : place.toNat + (w.length + 1) = top.toNat := by omega
    obtain ⟨hstring, haddr, hone⟩ := packOne (a := relocated + BitVec.ofNat 64 (8 * i)) hstr hap
      hplaceTop (by omega) (by omega) (by omega) hbound
    generalize store64 (copyBytes memory place p (w.length + 1))
      (relocated + BitVec.ofNat 64 (8 * i)) place = memory₁ at *
    have houtside : ∀ x : U64, x.toNat < lo ∨ hi ≤ x.toNat → memory₁ x = memory x :=
      fun x hx => hone x (by omega) (by omega)
    rw [words_succ] at hw
    have hargs : Apart (argv + BitVec.ofNat 64 (8 * (i + 1)))
        (8 * (strings.map Prod.fst).length) lo hi := by
      have hnat := words_toNat (a := argv) (i := i + 1) (by omega)
      rw [List.length_map]
      constructor <;> omega
    have hroom' : lo + packedSize (strings.map Prod.snd) ≤ place.toNat := by omega
    obtain ⟨memory₂, hrun, hwords, hstrings, hout⟩ := ih (hw.apart hargs houtside) (by omega)
      (by omega) (fun t ht => ⟨(hs t ht).1.apart (hs t ht).2 houtside, (hs t ht).2⟩) hroom'
      (by omega) (by omega) (by omega)
    refine ⟨memory₂, hrun, ⟨?_, by rw [words_succ]; exact hwords⟩, ?_, ?_⟩
    · have hsame : SameOn memory₁ memory₂ (relocated + BitVec.ofNat 64 (8 * i)).toNat
          ((relocated + BitVec.ofNat 64 (8 * i)).toNat + 8) :=
        fun x hx hx' => hout x (by omega) (by omega)
      exact (load64_congr hsame (by omega)).trans haddr
    · simp only [List.forall_mem_cons]
      have hsame : SameOn memory₁ memory₂ place.toNat (place.toNat + (w.length + 1)) :=
        fun x hx hx' => hout x (by omega) (by omega)
      exact ⟨hstring.copied (hsame.copied (by omega)), hstrings⟩
    · intro x hx hx'
      rw [hout x (by omega) (by omega), hone x (by omega) (by omega)]

/-- A caller's arguments, none of them in the staging page, where they fit with the
leading pointer. -/
structure CallerArgs (memory : ByteMemory) (stackBuffer argv : U64)
    (strings : List (U64 × List U8)) : Prop where
  vector : ArgVector memory argv strings
  array : Apart argv (8 * (strings.length + 1)) stackBuffer.toNat (stackBuffer.toNat + 4096)
  apart : ∀ s ∈ strings,
    Apart s.1 (s.2.length + 1) stackBuffer.toNat (stackBuffer.toNat + 4096)
  fits : 8 * (strings.length + 1) + packedSize (strings.map Prod.snd) + 8 ≤ 4096

theorem CallerArgs.vector_congr {page : U64} (h : CallerArgs memory page argv strings)
    (hs : ∀ x : U64, x.toNat < page.toNat ∨ page.toNat + 4096 ≤ x.toNat →
      memory' x = memory x) : ArgVector memory' argv strings where
  array := h.vector.array.apart (by simpa using h.array) hs
  strings s hmem := ⟨(h.vector.strings s hmem).1, (h.vector.strings s hmem).2.apart (h.apart s hmem) hs⟩

/-- The page with the packed arguments, from `sp` to its end. -/
structure PackedPage (memory : ByteMemory) (stackBuffer relocated sp : U64)
    (args : List (List U8)) : Prop where
  array : relocated.toNat + 8 * (args.length + 1) = stackBuffer.toNat + 4096
  aligned : sp.toNat % 8 = 0
  lower : stackBuffer.toNat ≤ sp.toNat
  room : sp.toNat + 8 + packedSize args ≤ relocated.toNat
  vector : ArgVector memory relocated (placeArgs relocated args)
  leading : load64 memory sp = relocated

theorem ArgVector.nonnull (h : ArgVector memory argv strings) : 0 ∉ strings.map Prod.fst := by
  intro hh
  obtain ⟨s, hs, hz⟩ := List.mem_map.mp hh
  exact (h.strings s hs).1 hz

/-- The packed arguments are those of the page alone. -/
theorem PackedPage.congr {stackBuffer relocated sp : U64}
    (h : PackedPage memory stackBuffer relocated sp args)
    (hb : stackBuffer.toNat + 4096 < 2 ^ 64)
    (hs : SameOn memory memory' stackBuffer.toNat (stackBuffer.toNat + 4096)) :
    PackedPage memory' stackBuffer relocated sp args := by
  have harray := h.array
  have hlower := h.lower
  have hroom := h.room
  constructor
  · exact harray
  · exact h.aligned
  · exact hlower
  · exact hroom
  · constructor
    · have hlen : ((placeArgs relocated args).map Prod.fst ++ [0]).length = args.length + 1 := by
        simp [placeArgs_length]
      exact h.vector.array.congr (hs.mono (by omega) (by rw [hlen]; omega)) (by rw [hlen]; omega)
    · intro s hmem
      obtain ⟨hlo, hhi⟩ := placeArgs_bounds (by omega) s hmem
      have hsame : SameOn memory memory' s.1.toNat (s.1.toNat + (s.2.length + 1)) :=
        hs.mono (by omega) (by omega)
      exact ⟨(h.vector.strings s hmem).1,
        (h.vector.strings s hmem).2.copied (hsame.copied (by omega))⟩
  · exact (load64_congr (hs.mono hlower (by omega)) (by omega)).trans h.leading

theorem and_not_seven (a : U64) : a &&& (0xFFFFFFFFFFFFFFF8 : U64) = (a >>> 3) <<< 3 := by
  have hmask : (0xFFFFFFFFFFFFFFF8 : U64) = BitVec.allOnes 64 <<< 3 := by decide
  have ha : a >>> 3 <<< 3 = a &&& BitVec.allOnes 64 <<< 3 := BitVec.shiftLeft_ushiftRight
  rw [hmask, ha]

theorem alignDown_toNat (a : U64) :
    (a &&& (0xFFFFFFFFFFFFFFF8 : U64)).toNat = a.toNat / 8 * 8 := by
  have hlt := a.isLt
  rw [and_not_seven, shiftLeft_toNat, shiftRight_toNat]
  omega

/-- The last two stores, the NULL of the array and the leading pointer. -/
theorem packedPage_of_packed {stackBuffer relocated sp : U64}
    (hw : WordsAt memory relocated ((placeArgs relocated args).map Prod.fst))
    (hs : ∀ s ∈ placeArgs relocated args, StringAt memory s.1 s.2)
    (harray : relocated.toNat + 8 * (args.length + 1) = stackBuffer.toNat + 4096)
    (haligned : sp.toNat % 8 = 0) (hlower : stackBuffer.toNat ≤ sp.toNat)
    (hroom : sp.toNat + 8 + packedSize args ≤ relocated.toNat)
    (hb : stackBuffer.toNat + 4096 < 2 ^ 64) :
    PackedPage (store64 (store64 memory (relocated + BitVec.ofNat 64 (8 * args.length)) 0) sp
      relocated) stackBuffer relocated sp args := by
  have hnull := words_toNat (a := relocated) (i := args.length) (by omega)
  have hlen : ((placeArgs relocated args).map Prod.fst).length = args.length := by
    rw [List.length_map, placeArgs_length]
  have hsame (lo hi : Nat) (hlo : sp.toNat + 8 ≤ lo)
      (hhi : hi ≤ relocated.toNat + 8 * args.length) :
      SameOn memory (store64 (store64 memory (relocated + BitVec.ofNat 64 (8 * args.length)) 0)
        sp relocated) lo hi :=
    (store64_same (by omega) (by omega)).trans (store64_same (by omega) (by omega))
  constructor
  · exact harray
  · exact haligned
  · exact hlower
  · exact hroom
  · constructor
    · refine wordsAt_append.mpr ⟨?_, ?_, trivial⟩
      · exact hw.congr (hsame _ _ (by omega) (by omega)) (by omega)
      · rw [hlen]
        generalize relocated + BitVec.ofNat 64 (8 * args.length) = p at *
        have hload : load64 (store64 (store64 memory p 0) sp relocated) p =
            load64 (store64 memory p 0) p :=
          load64_congr (store64_same (by omega) (by omega)) (by omega)
        exact hload.trans (load64_store64 (by omega))
    · intro s hmem
      obtain ⟨hlo, hhi⟩ := placeArgs_bounds (by omega) s hmem
      constructor
      · intro hz
        rw [hz] at hlo
        simp at hlo
        omega
      · exact (hs s hmem).copied ((hsame _ _ (by omega) (by omega)).copied (by omega))
  · exact load64_store64 (by omega)

theorem packStack_spec {stackBuffer : U64} (h : CallerArgs memory stackBuffer argv strings)
    (ha : stackBuffer.toNat % 8 = 0) (hb : stackBuffer.toNat + 4096 < 2 ^ 64)
    (hf : 4096 ≤ fuel) :
    ∃ memory' relocated sp, packStack fuel memory stackBuffer argv =
        .ok (memory', strings.length, relocated, sp) ∧
      PackedPage memory' stackBuffer relocated sp (strings.map Prod.snd) ∧
      ∀ x : U64, x.toNat < stackBuffer.toNat ∨ stackBuffer.toNat + 4096 ≤ x.toNat →
        memory' x = memory x := by
  have hfits := h.fits
  have hargv := h.array.bound
  have hargvOut := h.array.outside
  have hfill : ∀ x : U64, x.toNat < stackBuffer.toNat ∨ stackBuffer.toNat + 4096 ≤ x.toNat →
      fillBytes memory stackBuffer 0 4096 x = memory x :=
    fun x hx => fillBytes_outside (by omega) hx
  have hwords := h.vector.array.apart (by simpa using h.array) hfill
  have hcount : countArgs (fillBytes memory stackBuffer 0 4096) argv fuel 0 =
      .ok strings.length := by
    have hlen : (strings.map Prod.fst).length < fuel := by
      rw [List.length_map]
      omega
    have hfirst : WordsAt (fillBytes memory stackBuffer 0 4096) (argv + BitVec.ofNat 64 (8 * 0))
        (strings.map Prod.fst ++ [0]) := by simpa using hwords
    simpa using countArgs_eq hfirst h.vector.nonnull hlen
  have hend : (stackBuffer + 4096).toNat = stackBuffer.toNat + 4096 := toNat_add_ofNat hb
  have hrel : (stackBuffer + 4096 - BitVec.ofNat 64 (8 * (strings.length + 1))).toNat =
      stackBuffer.toNat + 4096 - 8 * (strings.length + 1) := by
    have hof : (BitVec.ofNat 64 (8 * (strings.length + 1))).toNat = 8 * (strings.length + 1) := by
      rw [BitVec.toNat_ofNat]
      omega
    rw [BitVec.toNat_sub, hend, hof]
    omega
  rw [packStack, hcount, ok_bind]
  dsimp only
  generalize stackBuffer + 4096 - BitVec.ofNat 64 (8 * (strings.length + 1)) = relocated at *
  have hlow : stackBuffer.toNat + packedSize (strings.map Prod.snd) ≤ relocated.toNat := by omega
  have hfirst : WordsAt (fillBytes memory stackBuffer 0 4096) (argv + BitVec.ofNat 64 (8 * 0))
      (strings.map Prod.fst) := by simpa using (wordsAt_append.mp hwords).1
  have hsource : ∀ s ∈ strings, StringAt (fillBytes memory stackBuffer 0 4096) s.1 s.2 ∧
      Apart s.1 (s.2.length + 1) stackBuffer.toNat (stackBuffer.toNat + 4096) :=
    fun s hs => ⟨(h.vector.strings s hs).2.apart (h.apart s hs) hfill, h.apart s hs⟩
  have hfuel : packedSize (strings.map Prod.snd) < fuel := by omega
  obtain ⟨memory₁, hrun, hplaced, hstrings, hout⟩ := packArgs_spec hfirst (by omega) (by omega)
    hsource hlow (Nat.le_refl _) (by omega) (Nat.le_of_lt hb) hfuel
  rw [hrun, ok_bind]
  dsimp only
  have htop := packedTop_toNat relocated (strings.map Prod.snd) (by omega)
  have hsp := alignDown_toNat (packedTop relocated (strings.map Prod.snd) - 8)
  have htop8 : (packedTop relocated (strings.map Prod.snd) - 8).toNat =
      relocated.toNat - packedSize (strings.map Prod.snd) - 8 := by
    rw [toNat_sub_eight (by omega), htop]
  refine ⟨_, relocated, _, rfl, ?_, ?_⟩
  · have hlen : (strings.map Prod.snd).length = strings.length := List.length_map ..
    rw [← hlen]
    exact packedPage_of_packed (by simpa using hplaced) hstrings (by omega) (by omega) (by omega)
      (by omega) hb
  · intro x hx
    have hnull := words_toNat (a := relocated) (i := strings.length) (by omega)
    rw [store64_outside (by omega) (by omega), store64_outside (by omega) (by omega),
      hout x (by omega) (by omega), hfill x hx]

end Persistos
