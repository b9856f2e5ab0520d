import Persistos.ExecPacking
import Persistos.ShellExpand

/-! Quoted arguments come back from `exec_shell_line` as they were. A buffer of 400 bytes is
zero behind what has been copied into it, and this is what ends the string. -/

namespace Persistos

open Theory

/-- The bytes `v` in a buffer of which the rest is zero. -/
structure BufferAt (m : ByteMemory) (out : U64) (v : List U8) : Prop where
  bytes : BytesAt m out v
  zero : ∀ i, v.length ≤ i → i < 400 → m (out + BitVec.ofNat 64 i) = 0

section

variable {m m' : ByteMemory} {out : U64} {v : List U8}

theorem BufferAt.congr (h : BufferAt m out v) (hout : out.toNat + 400 ≤ 2 ^ 64)
    (hv : v.length ≤ 400) (hs : SameOn m m' out.toNat (out.toNat + 400)) : BufferAt m' out v := by
  refine ⟨h.bytes.congr (hs.mono (Nat.le_refl _) (by omega)) (by omega), fun i hi hlt => ?_⟩
  have haddr := toNat_add_ofNat (a := out) (i := i) (by omega)
  rw [hs _ (by omega) (by omega)]
  exact h.zero i hi hlt

theorem BufferAt.string (h : BufferAt m out v) (hv : v.length < 400) (hnul : 0 ∉ v) :
    StringAt m out v := by
  refine ⟨bytesAt_append.mpr ⟨h.bytes, h.zero v.length (Nat.le_refl _) hv, trivial⟩, hnul⟩

end

section

variable {m₀ m : ByteMemory} {out : U64} {start stop limit : Nat} {p : Pair}

/-- A word is expanded into a buffer of zeros. -/
theorem expandWord_word (hnode : WordNode (lineMemory m₀) limit p)
    (hzero : ∀ i < 400, m (out + BitVec.ofNat 64 i) = 0)
    (hline : LineKept m₀ m start stop out.toNat (out.toNat + 400)) (hstart : start ≤ p.start)
    (hstop : p.stop ≤ stop) (hout : out.toNat + 400 ≤ 2 ^ 64)
    (hroom : ((span (lineMemory m₀) p.start p.stop).filter (· ≠ singleQuote)).length ≤ 398) :
    ∃ m', expandWord p out m = .ok m' ∧
      BufferAt m' out ((span (lineMemory m₀) p.start p.stop).filter (· ≠ singleQuote)) ∧
      ∀ x : U64, x.toNat < out.toNat ∨ out.toNat + 400 ≤ x.toNat → m' x = m x := by
  have hcontents := hnode.tiles.contents (lineMemory m₀)
  rw [← hcontents] at hroom ⊢
  have hinside : 399 ∉ runningLengths ([] : List U8).length
      (p.children.map (fragmentContent (lineMemory m₀))) := by
    intro hin
    have hle := (mem_runningLengths hin).2
    rw [List.length_nil] at hle
    omega
  obtain ⟨-, -, hrun⟩ := expandFragments_run (show BytesAt m out [] from trivial)
    (Nat.zero_le 398) hline hstart hstop hnode.tiles hnode.fragments hout hinside
  obtain ⟨m', hm', hexpanded⟩ := hrun (by rw [List.length_nil]; omega)
  refine ⟨m', hm', ⟨hexpanded.bytes, fun i hi hlt => ?_⟩, hexpanded.outside⟩
  rw [hexpanded.behind i (by rw [List.length_nil]; omega) hlt, hzero i hlt, ite_self]

end

theorem countElements_words {mem : Nat → U8} {start limit : Nat} {words : List ShellWord}
    {elements : List Pair} (h : List.Forall₂ (WordElement mem start limit) words elements)
    (numWords numRedirects : U64) :
    countElements elements numWords numRedirects =
      .ok (numWords + BitVec.ofNat 64 words.length, numRedirects) := by
  induction h generalizing numWords with
  | nil => simp [countElements]
  | @cons w e words elements he hrest ih =>
    obtain ⟨p, hchildren, -, hnode, -⟩ := he.child
    rw [countElements, if_neg (not_not.mpr he.type), hchildren]
    dsimp only
    rw [if_pos hnode.type, ih, List.length_cons, add_ofNat_succ]

/-- The arguments from number `idx` on have been built, each in a buffer of its own. -/
structure ArgsBuilt (execArgv : U64) (idx : Nat) (heap heap' : UserHeap)
    (strings : List (U64 × List U8)) : Prop where
  array : WordsAt heap'.memory (execArgv + BitVec.ofNat 64 (8 * idx)) (strings.map Prod.fst)
  string : ∀ s ∈ strings, heap.heapTop.toNat ≤ s.1.toNat ∧
    s.1.toNat + 400 ≤ heap'.heapTop.toNat ∧ s.2.length ≤ 398 ∧ StringAt heap'.memory s.1 s.2
  top : heap'.heapTop.toNat = heap.heapTop.toNat + 400 * strings.length
  outside : ∀ x : U64, x.toNat < execArgv.toNat + 8 * idx ∨
      execArgv.toNat + 8 * (idx + strings.length) ≤ x.toNat →
    x.toNat < heap.heapTop.toNat ∨ heap'.heapTop.toNat ≤ x.toNat → heap'.memory x = heap.memory x

theorem ArgsBuilt.nil (execArgv : U64) (idx : Nat) (heap : UserHeap) :
    ArgsBuilt execArgv idx heap heap [] :=
  ⟨trivial, nofun, rfl, fun _ _ _ => rfl⟩

/-- The heap after one argument more, whose buffer is the next block. -/
structure ArgAdded (execArgv : U64) (idx : Nat) (heap heap₁ : UserHeap) (w : List U8) : Prop where
  top : heap₁.heapTop.toNat = heap.heapTop.toNat + 400
  pointer : load64 heap₁.memory (execArgv + BitVec.ofNat 64 (8 * idx)) = heap.heapTop
  string : StringAt heap₁.memory heap.heapTop w
  length : w.length ≤ 398
  outside : ∀ x : U64,
    x.toNat < execArgv.toNat + 8 * idx ∨ execArgv.toNat + 8 * (idx + 1) ≤ x.toNat →
    x.toNat < heap.heapTop.toNat ∨ heap₁.heapTop.toNat ≤ x.toNat → heap₁.memory x = heap.memory x

/-- The first argument stays while the others are built. -/
theorem ArgsBuilt.cons {execArgv : U64} {idx : Nat} {heap heap₁ heap' : UserHeap} {w : List U8}
    {strings : List (U64 × List U8)} (h : ArgsBuilt execArgv (idx + 1) heap₁ heap' strings)
    (h₁ : ArgAdded execArgv idx heap heap₁ w)
    (harray : execArgv.toNat + 8 * (idx + 1 + strings.length) ≤ heap.heapTop.toNat) :
    ArgsBuilt execArgv idx heap heap' ((heap.heapTop, w) :: strings) := by
  have htop := h.top
  have htop₁ := h₁.top
  have hlength := h₁.length
  have hbound := heap'.heapTop.isLt
  have haddr := toNat_add_ofNat (a := execArgv) (i := 8 * idx) (by omega)
  have hnext : execArgv + BitVec.ofNat 64 (8 * idx) + 8 =
      execArgv + BitVec.ofNat 64 (8 * (idx + 1)) := by
    rw [BitVec.add_assoc, Nat.mul_succ, BitVec.ofNat_add]
    rfl
  refine ⟨⟨?_, ?_⟩, ?_, ?_, ?_⟩
  · rw [← h₁.pointer]
    refine load64_congr (fun x hx hlt => ?_) (by omega)
    exact h.outside x (by omega) (by omega)
  · rw [hnext]
    exact h.array
  · intro s hs
    rcases List.mem_cons.mp hs with rfl | hs
    · refine ⟨Nat.le_refl _, by dsimp only; omega, hlength, ?_⟩
      refine h₁.string.copied (SameOn.copied (fun x hx hlt => ?_) (by omega))
      exact h.outside x (by omega) (by omega)
    · obtain ⟨hge, hroom, hlength', hat⟩ := h.string s hs
      exact ⟨by omega, hroom, hlength', hat⟩
  · rw [List.length_cons]
    omega
  · intro x hx hx'
    rw [List.length_cons] at hx
    rw [h.outside x (by omega) (by omega), h₁.outside x (by omega) (by omega)]

section

variable {m₀ : ByteMemory} {start stop limit idx : Nat} {heap : UserHeap}
  {execArgv redirectInfos redirectIndex : U64}

/-- One pass of the loop, for a word. -/
theorem buildArgs_word {w : ShellWord} {e : Pair} {elements : List Pair}
    (he : WordElement (lineMemory m₀) start stop w e) (hw : w.argument.length ≤ 398)
    (hnul : 0 ∉ w.argument) (hline : LineKept m₀ heap.memory start stop execArgv.toNat limit)
    (harray : execArgv.toNat + 8 * (idx + 1) ≤ heap.heapTop.toNat)
    (hroom : heap.heapTop.toNat + 400 ≤ limit) (hlimit : limit < 2 ^ 64)
    (hzero : ∀ x : U64, heap.heapTop.toNat ≤ x.toNat → x.toNat < limit → heap.memory x = 0) :
    ∃ heap₁, ArgAdded execArgv idx heap heap₁ w.argument ∧
      buildArgs execArgv redirectInfos (e :: elements) (BitVec.ofNat 64 idx) redirectIndex heap =
        buildArgs execArgv redirectInfos elements (BitVec.ofNat 64 (idx + 1)) redirectIndex
          heap₁ := by
  obtain ⟨p, hchildren, hstart, hnode, htext⟩ := he.child
  have hapart := hline.apart
  have hout : heap.heapTop.toNat + 400 ≤ 2 ^ 64 := by omega
  have hbuffer : LineKept m₀ heap.memory start stop heap.heapTop.toNat
      (heap.heapTop.toNat + 400) := ⟨hline.same, hline.bound, by omega⟩
  have hfresh : ∀ i < 400, heap.memory (heap.heapTop + BitVec.ofNat 64 i) = 0 := by
    intro i hi
    have haddr := toNat_add_ofNat (a := heap.heapTop) (i := i) (by omega)
    exact hzero _ (by omega) (by omega)
  have hargument : (span (lineMemory m₀) p.start p.stop).filter (· ≠ singleQuote) =
      w.argument := by rw [htext, w.filter_text]
  have hfits : ((span (lineMemory m₀) p.start p.stop).filter (· ≠ singleQuote)).length ≤ 398 := by
    rw [hargument]
    exact hw
  obtain ⟨m, hexpand, hat, hframe⟩ :=
    expandWord_word hnode hfresh hbuffer hstart hnode.le hout hfits
  rw [hargument] at hat
  have haddr : execArgv + 8 * BitVec.ofNat 64 idx = execArgv + BitVec.ofNat 64 (8 * idx) := by
    rw [BitVec.ofNat_mul]
    rfl
  have haddrNat := toNat_add_ofNat (a := execArgv) (i := 8 * idx) (by omega)
  have hstore : ∀ x : U64,
      x.toNat < execArgv.toNat + 8 * idx ∨ execArgv.toNat + 8 * (idx + 1) ≤ x.toNat →
      store64 m (execArgv + BitVec.ofNat 64 (8 * idx)) heap.heapTop x = m x :=
    fun x hx => store64_outside (by omega) (by omega)
  have htop : (heap.heapTop + scriptBufferLength).toNat = heap.heapTop.toNat + 400 :=
    toNat_add_ofNat (a := heap.heapTop) (i := 400) (by omega)
  have hat₁ := hat.congr hout (by omega) fun x hx hlt => hstore x (by omega)
  refine ⟨⟨store64 m (execArgv + BitVec.ofNat 64 (8 * idx)) heap.heapTop,
    heap.heapTop + scriptBufferLength⟩, ⟨htop, load64_store64 (by omega),
      hat₁.string (by omega) hnul, hw, fun x hx hx' => (hstore x hx).trans ?_⟩, ?_⟩
  · dsimp only at hx'
    exact hframe x (by omega)
  · have hindex : BitVec.ofNat 64 idx + 1 = BitVec.ofNat 64 (idx + 1) :=
      (BitVec.ofNat_add idx 1).symm
    rw [buildArgs, hchildren]
    dsimp only [UserHeap.malloc]
    rw [if_pos hnode.type, hexpand]
    dsimp only
    rw [haddr, hindex]

theorem buildArgs_words {words : List ShellWord} {elements : List Pair}
    (hall : List.Forall₂ (WordElement (lineMemory m₀) start stop) words elements)
    (hargs : ∀ w ∈ words, w.argument.length ≤ 398 ∧ 0 ∉ w.argument)
    (hline : LineKept m₀ heap.memory start stop execArgv.toNat limit)
    (harray : execArgv.toNat + 8 * (idx + words.length) ≤ heap.heapTop.toNat)
    (hroom : heap.heapTop.toNat + 400 * words.length ≤ limit) (hlimit : limit < 2 ^ 64)
    (hzero : ∀ x : U64, heap.heapTop.toNat ≤ x.toNat → x.toNat < limit → heap.memory x = 0) :
    ∃ heap' strings, buildArgs execArgv redirectInfos elements (BitVec.ofNat 64 idx)
        redirectIndex heap = .ok heap' ∧
      strings.map Prod.snd = words.map ShellWord.argument ∧
      ArgsBuilt execArgv idx heap heap' strings := by
  induction hall generalizing idx heap with
  | nil => exact ⟨heap, [], rfl, rfl, .nil _ _ _⟩
  | @cons w e words elements he hrest ih =>
    obtain ⟨hw, hnul⟩ := hargs w List.mem_cons_self
    have hapart := hline.apart
    rw [List.length_cons] at harray hroom
    rw [Nat.mul_succ] at hroom
    have harray₀ : execArgv.toNat + 8 * (idx + 1) ≤ heap.heapTop.toNat := by omega
    have hroom₀ : heap.heapTop.toNat + 400 ≤ limit :=
      Nat.le_trans (Nat.add_le_add_left (Nat.le_add_left 400 (400 * words.length)) _) hroom
    obtain ⟨heap₁, h₁, hstep⟩ := buildArgs_word he hw hnul hline harray₀ hroom₀ hlimit hzero
    have htop := h₁.top
    have harray₁ : execArgv.toNat + 8 * (idx + 1 + words.length) ≤ heap₁.heapTop.toNat := by omega
    obtain ⟨heap', strings, hbuild, hvalues, hbuilt⟩ := ih
      (fun w' hw' => hargs w' (List.mem_cons_of_mem w hw'))
      (hline.step fun x hx => h₁.outside x (by omega) (by omega)) harray₁ (by omega)
      fun x hx hlt => (h₁.outside x (by omega) (by omega)).trans (hzero x (by omega) hlt)
    have hcount : strings.length = words.length := by
      have hmap := congrArg List.length hvalues
      rwa [List.length_map, List.length_map] at hmap
    refine ⟨heap', (heap.heapTop, w.argument) :: strings, hstep.trans hbuild, ?_,
      hbuilt.cons h₁ (by omega)⟩
    rw [List.map_cons, List.map_cons, hvalues]

end

theorem span_of_bytesAt {m : ByteMemory} {a : U64} {bs : List U8} (h : BytesAt m a bs)
    (ha : a.toNat + bs.length < 2 ^ 64) :
    span (lineMemory m) a.toNat (a.toNat + bs.length) = bs := by
  induction bs generalizing a with
  | nil =>
    rw [List.length_nil, Nat.add_zero, span_self]
  | cons b bs ih =>
    rw [List.length_cons] at ha ⊢
    have hnext := toNat_add_one (a := a) (by omega)
    have hrest := ih h.2 (by omega)
    have hlength : a.toNat + (bs.length + 1) = (a + 1).toNat + bs.length := by omega
    have hfirst : lineMemory m a.toNat = b := by
      rw [lineMemory, BitVec.ofNat_toNat, BitVec.setWidth_eq]
      exact h.1
    rw [hlength, span_cons _ (by omega), hfirst, ← hnext, hrest]

/-- The array of arguments ends with NULL. -/
theorem ArgsBuilt.argVector {execArgv : U64} {heap heap' : UserHeap}
    {strings : List (U64 × List U8)} (h : ArgsBuilt execArgv 0 heap heap' strings)
    (harray : execArgv.toNat + 8 * (strings.length + 1) ≤ heap.heapTop.toNat) :
    ArgVector (store64 heap'.memory (execArgv + BitVec.ofNat 64 (8 * strings.length)) 0) execArgv
      strings := by
  have htop := h.top
  have hbound := heap'.heapTop.isLt
  have haddr := toNat_add_ofNat (a := execArgv) (i := 8 * strings.length) (by omega)
  have hzero : execArgv + BitVec.ofNat 64 (8 * 0) = execArgv := BitVec.add_zero execArgv
  have harray' := h.array
  rw [hzero] at harray'
  refine ⟨wordsAt_append.mpr ⟨?_, ?_, trivial⟩, fun s hs => ?_⟩
  · refine harray'.congr (store64_same (by omega) ?_) ?_
    · rw [List.length_map]
      omega
    · rw [List.length_map]
      omega
  · rw [List.length_map]
    exact load64_store64 (by omega)
  · obtain ⟨hge, hroom, hlength, hat⟩ := h.string s hs
    refine ⟨fun hnull => ?_, hat.copied ((store64_same (by omega) ?_).copied (by omega))⟩
    · rw [hnull] at hge
      have hz : (0 : U64).toNat = 0 := rfl
      omega
    · omega

/-- The heap with the array for the arguments, where there are no redirects. -/
def UserHeap.withArgv (heap : UserHeap) (numWords : U64) : UserHeap :=
  ⟨heap.memory, heap.heapTop + (numWords + 1) * 8⟩

/-- The command of a statement without redirects. -/
theorem execShellStmt_command {stmtResult : Pair} {start length numWords : U64}
    {heap heap' : UserHeap} (hstop : stmtResult.stop = (start + length).toNat)
    (hcount : countElements stmtResult.children 0 0 = .ok (numWords, 0)) (hwords : numWords ≠ 0)
    (hbuild : buildArgs heap.heapTop (heap.withArgv numWords).heapTop stmtResult.children 0 0
      (heap.withArgv numWords) = .ok heap') :
    execShellStmt stmtResult start length heap =
      .ok (.command heap.heapTop numWords (heap.withArgv numWords).heapTop 0
        ⟨store64 heap'.memory (heap.heapTop + 8 * numWords) 0, heap'.heapTop⟩) := by
  have hsize : (0 : U64) * redirectInfoSize = 0 := BitVec.zero_mul
  have htop : heap.heapTop + (numWords + 1) * 8 + 0 = heap.heapTop + (numWords + 1) * 8 :=
    BitVec.add_zero _
  have hfill : fillBytes heap.memory (heap.heapTop + (numWords + 1) * 8) 0 (0 : U64).toNat =
      heap.memory := rfl
  rw [execShellStmt, if_neg (not_not.mpr hstop), hcount]
  dsimp only
  rw [if_neg hwords]
  dsimp only [UserHeap.malloc]
  rw [UserHeap.withArgv] at hbuild
  rw [hsize, htop, hfill, hbuild, UserHeap.withArgv]

/-- Whatever the arguments, and however they are cut into quoted and bare pieces and spaced,
they are the arguments of the command. -/
theorem execShellLine_quoting (l : ShellLine) {start length : U64} {heap parsed : UserHeap}
    {limit : Nat} (hargs : ∀ w ∈ l.words, w.argument.length ≤ 398 ∧ 0 ∉ w.argument)
    (htext : BytesAt heap.memory start l.text) (hlength : length.toNat = l.text.length)
    (hbound : start.toNat + length.toNat < 2 ^ 64)
    (hzero : ∀ x : U64, heap.heapTop.toNat ≤ x.toNat → x.toNat < limit → heap.memory x = 0)
    (hapart : start.toNat + length.toNat ≤ heap.heapTop.toNat ∨ limit ≤ start.toNat)
    (hparsed : ParserHeap heap parsed) (hlimit : limit < 2 ^ 64)
    (hroom : parsed.heapTop.toNat + 8 * (l.words.length + 1) + 400 * l.words.length ≤ limit) :
    ∃ execArgv redirectInfos heap' strings,
      execShellLine start length heap parsed =
        .ok (.command execArgv (BitVec.ofNat 64 l.words.length) redirectInfos 0 heap') ∧
      ArgVector heap'.memory execArgv strings ∧
      strings.map Prod.snd = l.words.map ShellWord.argument := by
  have hle := hparsed.le
  have hspan : span (lineMemory heap.memory) start.toNat (start.toNat + length.toNat) = l.text := by
    rw [hlength]
    exact span_of_bytesAt htext (by omega)
  obtain ⟨hstop, hall⟩ := parseShellStmt_words hspan
  have hend : (start + length).toNat = start.toNat + length.toNat := by
    rw [BitVec.toNat_add]
    exact Nat.mod_eq_of_lt hbound
  have hpos : 0 < l.words.length := Nat.succ_pos _
  have hcount := countElements_words hall 0 0
  have hadd : (0 : U64) + BitVec.ofNat 64 l.words.length = BitVec.ofNat 64 l.words.length :=
    BitVec.zero_add _
  rw [hadd] at hcount
  have hwords : BitVec.ofNat 64 l.words.length ≠ 0 := by
    intro hnone
    have hnat := congrArg BitVec.toNat hnone
    rw [BitVec.toNat_ofNat, Nat.mod_eq_of_lt (by omega)] at hnat
    exact absurd hnat (Nat.ne_of_gt hpos)
  have hsize : (BitVec.ofNat 64 l.words.length + 1) * 8 =
      BitVec.ofNat 64 (8 * (l.words.length + 1)) := by
    rw [BitVec.ofNat_mul, BitVec.ofNat_add, BitVec.mul_comm]
    rfl
  have htop : (parsed.withArgv (BitVec.ofNat 64 l.words.length)).heapTop.toNat =
      parsed.heapTop.toNat + 8 * (l.words.length + 1) := by
    rw [UserHeap.withArgv, hsize]
    exact toNat_add_ofNat (by omega)
  have hmemory : (parsed.withArgv (BitVec.ofNat 64 l.words.length)).memory = parsed.memory := rfl
  generalize hheap : parsed.withArgv (BitVec.ofNat 64 l.words.length) = first at htop hmemory
  have hline : LineKept heap.memory first.memory start.toNat (start.toNat + length.toNat)
      parsed.heapTop.toNat limit := by
    rw [hmemory]
    exact ⟨fun x hx hlt => hparsed.outside x (by omega), hbound, by omega⟩
  have hfresh : ∀ x : U64, first.heapTop.toNat ≤ x.toNat → x.toNat < limit →
      first.memory x = 0 := by
    intro x hx hlt
    rw [hmemory, hparsed.outside x (by omega)]
    exact hzero x (by omega) hlt
  obtain ⟨heap', strings, hbuild, hvalues, hbuilt⟩ : ∃ heap' strings,
      buildArgs parsed.heapTop first.heapTop
        (parseShellStmt (lineMemory heap.memory) start.toNat length.toNat).children
        (BitVec.ofNat 64 0) 0 first = .ok heap' ∧
      strings.map Prod.snd = l.words.map ShellWord.argument ∧
      ArgsBuilt parsed.heapTop 0 first heap' strings :=
    buildArgs_words hall hargs hline (by omega) (by omega) hlimit hfresh
  have hlengths : strings.length = l.words.length := by
    have hmap := congrArg List.length hvalues
    rwa [List.length_map, List.length_map] at hmap
  have hvector := hbuilt.argVector (by omega)
  have hnull : parsed.heapTop + 8 * BitVec.ofNat 64 l.words.length =
      parsed.heapTop + BitVec.ofNat 64 (8 * l.words.length) := by
    rw [BitVec.ofNat_mul]
    rfl
  rw [hlengths, ← hnull] at hvector
  subst hheap
  exact ⟨_, _, _, strings, execShellStmt_command (hstop.trans hend.symm) hcount hwords hbuild,
    hvector, hvalues⟩

/-- `'a b' c`, typed into a shell whose heap starts at `0x10000`. -/
theorem execShellLine_quoting_example :
    let line : List U8 := [0x27, 0x61, 0x20, 0x62, 0x27, 0x20, 0x63]
    let memory : ByteMemory := fun x =>
      if x.toNat < 0x10000 then line.getD (x.toNat - 0x7000) 0 else 0
    ∃ execArgv redirectInfos heap' strings,
      execShellLine 0x7000 7 ⟨memory, 0x10000⟩ ⟨memory, 0x10000⟩ =
        .ok (.command execArgv 2 redirectInfos 0 heap') ∧
      ArgVector heap'.memory execArgv strings ∧
      strings.map Prod.snd = [[0x61, 0x20, 0x62], [0x63]] := by
  intro line memory
  let first : ShellWord := ⟨[.quoted [0x61, 0x20, 0x62] (by decide)], List.cons_ne_nil _ _⟩
  let second : ShellWord :=
    ⟨[.bare [0x63] (List.cons_ne_nil _ _) (by decide)], List.cons_ne_nil _ _⟩
  let heap : UserHeap := ⟨memory, 0x10000⟩
  have htop : heap.heapTop.toNat = 0x10000 := rfl
  have hzero : ∀ x : U64, heap.heapTop.toNat ≤ x.toNat → x.toNat < 0x11000 →
      heap.memory x = 0 := by
    intro x hx _
    exact if_neg (Nat.not_lt.mpr (htop ▸ hx))
  have hargs : ∀ w ∈ [first, second], w.argument.length ≤ 398 ∧ 0 ∉ w.argument := by decide
  have hline : (0x7000 : U64).toNat + (7 : U64).toNat = 0x7007 := rfl
  have hroom : heap.heapTop.toNat + 8 * ([first, second].length + 1) +
      400 * [first, second].length ≤ 0x11000 := by
    have hwords : [first, second].length = 2 := rfl
    omega
  exact @execShellLine_quoting ⟨first, [(0, second)]⟩ 0x7000 7 heap heap 0x11000 hargs (by decide)
    rfl (by omega) hzero (.inl (by omega)) ⟨Nat.le_refl _, fun _ _ => rfl⟩ (by omega) hroom

end Persistos
