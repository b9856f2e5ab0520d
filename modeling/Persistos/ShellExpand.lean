import Persistos.ShellExec
import Persistos.ShellWords

/-! `expand_word` on any buffer. The zero byte is written behind each fragment, one place too
far, so that it ends the word only where the next fragment is a single character. -/

namespace Persistos

open Theory

section

variable {m : ByteMemory}

/-- A copy touches only its own places. -/
theorem copyBytes_of_ne {m : ByteMemory} {dest src x : U64} {n : Nat}
    (h : ∀ i < n, x ≠ dest + BitVec.ofNat 64 i) : copyBytes m dest src n x = m x := by
  induction n generalizing m dest src with
  | zero => rfl
  | succ n ih =>
    have hfirst : x ≠ dest := by simpa using h 0 (Nat.zero_lt_succ n)
    rw [copyBytes, ih, Function.update_of_ne hfirst]
    intro i hi
    rw [← add_ofNat_succ]
    exact h (i + 1) (Nat.succ_lt_succ hi)

theorem bytesAt_span {m₀ : ByteMemory} {i n : Nat} (hi : i + n ≤ 2 ^ 64)
    (hm : ∀ x : U64, i ≤ x.toNat → x.toNat < i + n → m x = m₀ x) :
    BytesAt m (BitVec.ofNat 64 i) (span (lineMemory m₀) i (i + n)) := by
  induction n generalizing i with
  | zero =>
    rw [Nat.add_zero, span_self]
    trivial
  | succ n ih =>
    have hnat : (BitVec.ofNat 64 i).toNat = i := by
      rw [BitVec.toNat_ofNat]
      exact Nat.mod_eq_of_lt (by omega)
    have hnext : i + (n + 1) = i + 1 + n := by omega
    rw [span_cons _ (by omega), hnext]
    refine ⟨hm _ (by omega) (by omega), ?_⟩
    have hrest := ih (by omega : i + 1 + n ≤ 2 ^ 64) fun x hx hlt => hm x (by omega) (by omega)
    rwa [BitVec.ofNat_add] at hrest

end

section

variable {mem : Nat → U8} {start length : Nat} {f : Pair}

theorem filter_of_ne {s : List U8} (h : ∀ c ∈ s, c ≠ singleQuote) :
    s.filter (· ≠ singleQuote) = s :=
  List.filter_eq_self.mpr fun c hc => decide_eq_true (h c hc)

/-- The bytes that are copied for a fragment are its text without quotes. -/
theorem expandedPair_fragment (h : parseWordFragment mem start length = some f) :
    ∃ c rest p, f.children = c :: rest ∧ expandedPair c = .ok p ∧ start ≤ p.start ∧
      p.start ≤ p.stop ∧ p.stop ≤ f.stop ∧
      span mem p.start p.stop = (span mem start f.stop).filter (· ≠ singleQuote) := by
  have htakes := parseWordFragment_takes h
  obtain ⟨c, hc, rfl⟩ := parseWordFragment_eq_some h
  rcases hc with hq | hu
  · obtain ⟨-, hopen, q, hclose, rfl⟩ := parseSingleQuotedString_eq_some hq
    obtain ⟨hlt, -⟩ := closingQuote_lt hclose
    obtain ⟨hall, hend⟩ := closingQuote_text hclose
    refine ⟨_, [], ⟨.quotedStringContent, start + 1, q, []⟩, rfl, rfl, Nat.le_succ start, hlt,
      Nat.le_succ q, ?_⟩
    dsimp only
    rw [span_cons mem (by omega : start < q + 1), span_append mem hlt (Nat.le_succ q), span_one,
      List.filter_cons_of_neg (by simp [hopen]), List.filter_append, filter_of_ne hall,
      List.filter_singleton]
    simp [hend]
  · obtain ⟨-, hord, rfl⟩ := parseUnquotedString_eq_some hu
    refine ⟨_, [], _, rfl, rfl, Nat.le_refl _, Nat.le_of_lt htakes.lt, Nat.le_refl _, ?_⟩
    dsimp only
    rw [span_cons mem htakes.lt, filter_of_ne]
    refine List.forall_mem_cons.mpr ⟨hord.2.2.1, fun b hb => ?_⟩
    exact (scanWhile_text b hb).2.2.1

end

/-- A line in memory, apart from the buffers. -/
structure LineKept (m₀ m : ByteMemory) (start stop lo hi : Nat) : Prop where
  same : ∀ x : U64, start ≤ x.toNat → x.toNat < stop → m x = m₀ x
  bound : stop < 2 ^ 64
  apart : stop ≤ lo ∨ hi ≤ start

theorem LineKept.step {m₀ m m' : ByteMemory} {start stop lo hi : Nat}
    (h : LineKept m₀ m start stop lo hi)
    (hs : ∀ x : U64, x.toNat < lo ∨ hi ≤ x.toNat → m' x = m x) :
    LineKept m₀ m' start stop lo hi := by
  have hapart := h.apart
  exact ⟨fun x hx hlt => (hs x (by omega)).trans (h.same x hx hlt), h.bound, hapart⟩


/-- The places of the output buffer that the loop of `expand_word` writes, also before it gives
up. -/
def expandOffsets : List Pair → U64 → List U64
  | [], _ => []
  | wordFragmentPair :: l, execBufferLength =>
    match wordFragmentPair.children with
    | [] => []
    | childPair :: _ =>
      match expandedPair childPair with
      | .error _ => []
      | .ok pair =>
        let pairLength := BitVec.ofNat 64 (pair.stop - pair.start)
        if execBufferLength + pairLength ≥ scriptBufferLength then []
        else
          (List.range pairLength.toNat).map (fun i => execBufferLength + BitVec.ofNat 64 i) ++
            (execBufferLength + pairLength + 1) :: expandOffsets l (execBufferLength + pairLength)

theorem expandFragments_frame {out : U64} {fragments : List Pair} {n : U64} {m m' : ByteMemory}
    (h : expandFragments out fragments n m = .ok m') {x : U64}
    (hx : ∀ o ∈ expandOffsets fragments n, x ≠ out + o) : m' x = m x := by
  induction fragments generalizing n m with
  | nil =>
    cases h
    rfl
  | cons f fragments ih =>
    simp only [expandFragments] at h
    simp only [expandOffsets] at hx
    split at h
    · cases h
    · next c rest hchildren =>
      simp only [hchildren] at hx
      split at h
      · cases h
      · next pair hpair =>
        simp only [hpair] at hx
        split at h
        · cases h
        · next hfits =>
          simp only [if_neg hfits, List.mem_append, List.mem_cons] at hx
          rw [ih h fun o ho => hx o (.inr (.inr ho))]
          rw [Function.update_of_ne (hx _ (.inr (.inl rfl)))]
          refine copyBytes_of_ne fun i hi => ?_
          rw [BitVec.add_assoc]
          exact hx _ (.inl (List.mem_map.mpr ⟨i, List.mem_range.mpr hi, rfl⟩))

/-- The text of a fragment without its quotes. -/
def fragmentContent (mem : Nat → U8) (f : Pair) : List U8 :=
  (span mem f.start f.stop).filter (· ≠ singleQuote)

def wordContents (mem : Nat → U8) (p : Pair) : List (List U8) := p.children.map (fragmentContent mem)

theorem Tiles.contents (mem : Nat → U8) {fragments : List Pair} {i j : Nat}
    (h : Tiles fragments i j) : (fragments.map (fragmentContent mem)).flatten =
      (span mem i j).filter (· ≠ singleQuote) := by
  induction fragments generalizing i with
  | nil =>
    obtain rfl : i = j := h
    rw [span_self]
    rfl
  | cons f fragments ih =>
    obtain ⟨rfl, hlt, hrest⟩ := h
    rw [List.map_cons, List.flatten_cons, ih hrest, fragmentContent, ← List.filter_append,
      ← span_append _ (Nat.le_of_lt hlt) hrest.le.1]

/-- How long the word is after each fragment. -/
def runningLengths : Nat → List (List U8) → List Nat
  | _, [] => []
  | n, w :: ws => (n + w.length) :: runningLengths (n + w.length) ws

theorem mem_runningLengths {ws : List (List U8)} {n k : Nat} (h : k ∈ runningLengths n ws) :
    n ≤ k ∧ k ≤ n + ws.flatten.length := by
  induction ws generalizing n with
  | nil => cases h
  | cons w ws ih =>
    rw [List.flatten_cons, List.length_append]
    rcases List.mem_cons.mp h with rfl | h
    · exact ⟨Nat.le_add_right n _, by omega⟩
    · have hrest := ih h
      omega

/-- The contents are behind `v` in the buffer, and zero bytes where the loop wrote them. -/
structure Expanded (m m' : ByteMemory) (out : U64) (v : List U8) (contents : List (List U8)) :
    Prop where
  bytes : BytesAt m' out (v ++ contents.flatten)
  behind : ∀ i, v.length + contents.flatten.length ≤ i → i < 400 →
    m' (out + BitVec.ofNat 64 i) =
      if i ∈ (runningLengths v.length contents).map (· + 1) then 0 else m (out + BitVec.ofNat 64 i)
  outside : ∀ x : U64, x.toNat < out.toNat ∨ out.toNat + 400 ≤ x.toNat → m' x = m x

section

variable {m₀ m m₁ m' : ByteMemory} {out src : U64} {v w : List U8} {ws : List (List U8)}

theorem Expanded.cons (h : Expanded m m₁ out v [w]) (h' : Expanded m₁ m' out (v ++ w) ws) :
    Expanded m m' out v (w :: ws) := by
  refine ⟨?_, ?_, fun x hx => (h'.outside x hx).trans (h.outside x hx)⟩
  · rw [List.flatten_cons, ← List.append_assoc]
    exact h'.bytes
  · intro i hi hlt
    rw [List.flatten_cons, List.length_append] at hi
    have hlater := h'.behind i (by rw [List.length_append]; omega) hlt
    have hfirst := h.behind i (by simp; omega) hlt
    rw [hlater, hfirst, List.length_append]
    simp only [runningLengths, List.map_cons, List.map_nil, List.mem_cons, List.not_mem_nil,
      or_false]
    by_cases hin : i ∈ (runningLengths (v.length + w.length) ws).map (· + 1)
    · simp [hin]
    · simp [hin]

/-- The bytes of a fragment are copied behind those that are there, and the zero byte is written
one place too far. -/
theorem expanded_copy (h : BytesAt m out v) (hw : BytesAt m src w)
    (hroom : v.length + w.length ≤ 398) (hout : out.toNat + 400 ≤ 2 ^ 64)
    (hsrc : src.toNat + w.length ≤ 2 ^ 64)
    (hapart : src.toNat + w.length ≤ out.toNat ∨ out.toNat + 400 ≤ src.toNat) :
    Expanded m (Function.update (copyBytes m (out + BitVec.ofNat 64 v.length) src w.length)
      (out + (BitVec.ofNat 64 (v.length + w.length) + 1)) 0) out v [w] := by
  generalize hm' : Function.update (copyBytes m (out + BitVec.ofNat 64 v.length) src w.length)
    (out + (BitVec.ofNat 64 (v.length + w.length) + 1)) 0 = m'
  have hdest := toNat_add_ofNat (a := out) (i := v.length) (by omega)
  have hadd : BitVec.ofNat 64 (v.length + w.length) + 1 =
      BitVec.ofNat 64 (v.length + w.length + 1) := (BitVec.ofNat_add _ 1).symm
  have hlast := toNat_add_ofNat (a := out) (i := v.length + w.length + 1) (by omega)
  rw [hadd] at hm'
  have hcopy : ∀ x : U64, x.toNat ≠ out.toNat + (v.length + w.length + 1) →
      m' x = copyBytes m (out + BitVec.ofNat 64 v.length) src w.length x := by
    intro x hx
    rw [← hm']
    refine Function.update_of_ne (fun heq => hx ?_) _ _
    rw [heq, hlast]
  have hkeep : ∀ x : U64, x.toNat ≠ out.toNat + (v.length + w.length + 1) →
      (x.toNat < out.toNat + v.length ∨ out.toNat + (v.length + w.length) ≤ x.toNat) →
      m' x = m x := by
    intro x hx hout'
    rw [hcopy x hx]
    exact copyBytes_outside (by omega) (by omega)
  refine ⟨?_, ?_, fun x hx => hkeep x (by omega) (by omega)⟩
  · rw [List.flatten_singleton]
    refine bytesAt_append.mpr ⟨?_, ?_⟩
    · exact h.congr (fun x hx hlt => hkeep x (by omega) (by omega)) (by omega)
    · have hcopied : Copied m (copyBytes m (out + BitVec.ofNat 64 v.length) src w.length) src
          (out + BitVec.ofNat 64 v.length) w.length := copyBytes_copied (by omega) hsrc (by omega)
      exact (hw.copied hcopied).congr (fun x hx hlt => hcopy x (by omega)) (by omega)
  · intro i hi hlt
    rw [List.flatten_singleton] at hi
    have haddr := toNat_add_ofNat (a := out) (i := i) (by omega)
    simp only [runningLengths, List.map_cons, List.map_nil, List.mem_singleton]
    split
    · next heq =>
      rw [heq, ← hm']
      exact Function.update_self _ _ _
    · exact hkeep _ (by omega) (by omega)

def tooLong : Except ShellStop ByteMemory := .error (.exit 2 "shell: word is too long\n")

variable {start stop i j n : Nat} {f : Pair} {fragments : List Pair}

/-- Where the content of a fragment is, and what the loop does with it. -/
structure FragmentStep (m : ByteMemory) (out src : U64) (w : List U8) (n : Nat) (f : Pair) :
    Prop where
  bytes : BytesAt m src w
  bound : src.toNat + w.length ≤ 2 ^ 64
  apart : src.toNat + w.length ≤ out.toNat ∨ out.toNat + 400 ≤ src.toNat
  expand : ∀ fragments, expandFragments out (f :: fragments) (BitVec.ofNat 64 n) m =
    if 400 ≤ n + w.length then tooLong
    else expandFragments out fragments (BitVec.ofNat 64 (n + w.length))
      (Function.update (copyBytes m (out + BitVec.ofNat 64 n) src w.length)
        (out + (BitVec.ofNat 64 (n + w.length) + 1)) 0)
  offsets : ∀ fragments, expandOffsets (f :: fragments) (BitVec.ofNat 64 n) =
    if 400 ≤ n + w.length then []
    else (List.range w.length).map (fun i => BitVec.ofNat 64 n + BitVec.ofNat 64 i) ++
      (BitVec.ofNat 64 (n + w.length) + 1) :: expandOffsets fragments (BitVec.ofNat 64 (n + w.length))

theorem FragmentNode.step (hnode : FragmentNode (lineMemory m₀) f)
    (hline : LineKept m₀ m start stop out.toNat (out.toNat + 400)) (hi : start ≤ f.start)
    (hj : f.stop ≤ stop) (hout : out.toNat + 400 ≤ 2 ^ 64) (hn : n < 400) :
    ∃ src, FragmentStep m out src (fragmentContent (lineMemory m₀) f) n f := by
  obtain ⟨length, hparsed⟩ := hnode.parsed
  obtain ⟨c, rest, p, hchildren, hpair, hpstart, hple, hpstop, htext⟩ :=
    expandedPair_fragment hparsed
  have hbound := hline.bound
  have hapart := hline.apart
  rw [fragmentContent, ← htext]
  generalize hw : span (lineMemory m₀) p.start p.stop = w
  have hlength : p.stop - p.start = w.length := by
    rw [← hw, span, slice_length]
  have hstart : (BitVec.ofNat 64 p.start).toNat = p.start := by
    rw [BitVec.toNat_ofNat]
    exact Nat.mod_eq_of_lt (by omega)
  have hwlength : (BitVec.ofNat 64 w.length).toNat = w.length := by
    rw [BitVec.toNat_ofNat]
    exact Nat.mod_eq_of_lt (by omega)
  have hfits : BitVec.ofNat 64 (n + w.length) ≥ scriptBufferLength ↔ 400 ≤ n + w.length := by
    rw [ge_iff_le, BitVec.le_def, BitVec.toNat_ofNat, Nat.mod_eq_of_lt (by omega)]
    exact Iff.rfl
  refine ⟨BitVec.ofNat 64 p.start, ?_, by omega, by omega, fun fragments => ?_, fun fragments => ?_⟩
  · have hsame : ∀ x : U64, p.start ≤ x.toNat → x.toNat < p.start + (p.stop - p.start) →
        m x = m₀ x := fun x hx hlt => hline.same x (by omega) (by omega)
    have hspan := bytesAt_span (by omega) hsame
    rwa [Nat.add_sub_cancel' hple, hw] at hspan
  · simp only [expandFragments, hchildren, hpair, hlength, ← BitVec.ofNat_add, hfits, hwlength,
      tooLong]
  · simp only [expandOffsets, hchildren, hpair, hlength, ← BitVec.ofNat_add, hfits, hwlength]

/-- The loop over the fragments from `i` on, behind `v`. It stays in the buffer when it never
has 399 bytes. -/
theorem expandFragments_run (h : BytesAt m out v) (hv : v.length ≤ 398)
    (hline : LineKept m₀ m start stop out.toNat (out.toNat + 400)) (hi : start ≤ i)
    (hj : j ≤ stop) (htiles : Tiles fragments i j)
    (hnodes : ∀ f ∈ fragments, FragmentNode (lineMemory m₀) f) (hout : out.toNat + 400 ≤ 2 ^ 64)
    (hinside : 399 ∉ runningLengths v.length (fragments.map (fragmentContent (lineMemory m₀)))) :
    (∀ o ∈ expandOffsets fragments (BitVec.ofNat 64 v.length), o.toNat ≤ 399) ∧
      (400 ≤ v.length + (fragments.map (fragmentContent (lineMemory m₀))).flatten.length →
        expandFragments out fragments (BitVec.ofNat 64 v.length) m = tooLong) ∧
      (v.length + (fragments.map (fragmentContent (lineMemory m₀))).flatten.length < 400 →
        ∃ m', expandFragments out fragments (BitVec.ofNat 64 v.length) m = .ok m' ∧
          Expanded m m' out v (fragments.map (fragmentContent (lineMemory m₀)))) := by
  induction fragments generalizing m v i with
  | nil =>
    refine ⟨nofun, fun hlong => ?_, fun _ => ⟨m, rfl, ?_⟩⟩
    · simp at hlong
      omega
    · exact ⟨by simpa using h, by simp [runningLengths], fun _ _ => rfl⟩
  | cons f fragments ih =>
    obtain ⟨rfl, hlt, hrest⟩ := htiles
    have hend := hrest.le.1
    obtain ⟨src, hstep⟩ := (hnodes f List.mem_cons_self).step hline hi (by omega) hout
      (by omega : v.length < 400)
    rw [List.map_cons, runningLengths, List.mem_cons, not_or] at hinside
    rw [List.map_cons, List.flatten_cons]
    generalize fragmentContent (lineMemory m₀) f = w at hstep hinside ⊢
    rw [hstep.expand, hstep.offsets, List.length_append]
    by_cases hlong : 400 ≤ v.length + w.length
    · rw [if_pos hlong, if_pos hlong]
      exact ⟨nofun, fun _ => rfl, fun hshort => by omega⟩
    · rw [if_neg hlong, if_neg hlong]
      have hroom : v.length + w.length ≤ 398 := by omega
      have hcopied := expanded_copy h hstep.bytes hroom hout hstep.bound hstep.apart
      have hbytes := hcopied.bytes
      rw [List.flatten_singleton] at hbytes
      rw [← List.length_append] at hinside hroom
      obtain ⟨hoffsets, htoo, hrun⟩ := ih hbytes hroom (hline.step hcopied.outside) (by omega) hrest
        (fun f' hf' => hnodes f' (List.mem_cons_of_mem f hf')) hinside.2
      rw [List.length_append] at hoffsets htoo hrun hroom
      refine ⟨fun o ho => ?_, fun hlong => htoo (by omega), fun hshort => ?_⟩
      · rcases List.mem_append.mp ho with ho | ho
        · obtain ⟨k, hk, rfl⟩ := List.mem_map.mp ho
          rw [List.mem_range] at hk
          rw [← BitVec.ofNat_add, BitVec.toNat_ofNat]
          omega
        · rcases List.mem_cons.mp ho with rfl | ho
          · bv_omega
          · exact hoffsets o ho
      · obtain ⟨m', hm', hexpanded⟩ := hrun (by omega)
        exact ⟨m', hm', hcopied.cons hexpanded⟩

/-- Behind 399 bytes the zero byte is out of the buffer. -/
theorem expandOffsets_outside (hline : LineKept m₀ m start stop out.toNat (out.toNat + 400))
    (hi : start ≤ i) (hj : j ≤ stop) (htiles : Tiles fragments i j)
    (hnodes : ∀ f ∈ fragments, FragmentNode (lineMemory m₀) f) (hout : out.toNat + 400 ≤ 2 ^ 64)
    (hn : n < 400)
    (h : 399 ∈ runningLengths n (fragments.map (fragmentContent (lineMemory m₀)))) :
    ∃ o ∈ expandOffsets fragments (BitVec.ofNat 64 n), o.toNat = 400 := by
  induction fragments generalizing n i with
  | nil => cases h
  | cons f fragments ih =>
    obtain ⟨rfl, hlt, hrest⟩ := htiles
    have hend := hrest.le.1
    obtain ⟨src, hstep⟩ := (hnodes f List.mem_cons_self).step hline hi (by omega) hout hn
    rw [List.map_cons, runningLengths, List.mem_cons] at h
    generalize fragmentContent (lineMemory m₀) f = w at hstep h
    have hshort : n + w.length ≤ 399 := by
      rcases h with h | h
      · omega
      · exact (mem_runningLengths h).1
    rw [hstep.offsets, if_neg (by omega)]
    rcases h with h | h
    · refine ⟨_, List.mem_append_right _ List.mem_cons_self, ?_⟩
      rw [← h]
      rfl
    · obtain ⟨o, ho, h400⟩ := ih (by omega) hrest
        (fun f' hf' => hnodes f' (List.mem_cons_of_mem f hf')) (by omega) h
      exact ⟨o, List.mem_append_right _ (List.mem_cons_of_mem _ ho), h400⟩

/-- `expand_word` gives up or leaves the word as a string, and writes to no place outside of the
buffer. -/
structure SelfContained (p : Pair) (out : U64) (contents : List (List U8)) (m : ByteMemory) :
    Prop where
  result : expandWord p out m = tooLong ∨
    ∃ m', expandWord p out m = .ok m' ∧ BytesAt m' out (contents.flatten ++ [0])
  inside : ∀ o ∈ expandOffsets p.children 0, o.toNat ≤ 399

/-- No run of fragments has 399 bytes, and the byte behind the word is zero already or is where
the zero byte of an earlier fragment goes. -/
structure EndsInside (old : Nat → U8) (contents : List (List U8)) : Prop where
  inside : 399 ∉ runningLengths 0 contents
  ends : 400 ≤ contents.flatten.length ∨ old contents.flatten.length = 0 ∨
    contents.flatten.length ∈ (runningLengths 0 contents).map (· + 1)

theorem WordSoFar.selfContained_iff {p : Pair} (hnode : WordSoFar (lineMemory m₀) p)
    (hline : LineKept m₀ m start stop out.toNat (out.toNat + 400)) (hi : start ≤ p.start)
    (hj : p.stop ≤ stop) (hout : out.toNat + 400 ≤ 2 ^ 64) :
    SelfContained p out (wordContents (lineMemory m₀) p) m ↔
      EndsInside (fun i => m (out + BitVec.ofNat 64 i)) (wordContents (lineMemory m₀) p) := by
  by_cases hinside : 399 ∈ runningLengths 0 (wordContents (lineMemory m₀) p)
  · obtain ⟨o, ho, h400⟩ := expandOffsets_outside hline hi hj hnode.tiles hnode.fragments hout
      (Nat.zero_lt_succ 399) hinside
    refine ⟨fun h => ?_, fun h => absurd hinside h.inside⟩
    have hle := h.inside o ho
    omega
  · obtain ⟨hoffsets, htoo, hrun⟩ := expandFragments_run (show BytesAt m out [] from trivial)
      (Nat.zero_le 398) hline hi hj hnode.tiles hnode.fragments hout hinside
    simp only [List.length_nil, Nat.zero_add] at hoffsets htoo hrun
    change (400 ≤ (wordContents (lineMemory m₀) p).flatten.length → expandWord p out m = _) at htoo
    rcases Nat.lt_or_ge (wordContents (lineMemory m₀) p).flatten.length 400 with hshort | hlong
    · obtain ⟨m', hm', hexpanded⟩ := hrun hshort
      have hword : expandWord p out m = .ok m' := hm'
      have hbehind := hexpanded.behind _ (by simp [wordContents]) hshort
      have hzero : BytesAt m' out ((wordContents (lineMemory m₀) p).flatten ++ [0]) ↔
          m' (out + BitVec.ofNat 64 (wordContents (lineMemory m₀) p).flatten.length) = 0 := by
        rw [bytesAt_append]
        exact ⟨fun h => h.2.1, fun h => ⟨hexpanded.bytes, h, trivial⟩⟩
      rw [hbehind] at hzero
      constructor
      · intro h
        refine ⟨hinside, .inr ?_⟩
        rcases h.result with hr | ⟨m'', hr, hat⟩
        · cases hword.symm.trans hr
        · obtain rfl := Except.ok.inj (hword.symm.trans hr)
          have hat' := hzero.mp hat
          split at hat'
          · next hin => exact .inr hin
          · exact .inl hat'
      · intro h
        refine ⟨.inr ⟨m', hword, hzero.mpr ?_⟩, hoffsets⟩
        split
        · rfl
        · next hnotin =>
          rcases h.ends with hlong | hold | hin
          · omega
          · exact hold
          · exact absurd hin hnotin
    · exact ⟨fun _ => ⟨hinside, .inl hlong⟩, fun _ => ⟨.inl (htoo hlong), hoffsets⟩⟩

end

section

variable {m₀ m : ByteMemory} {out : U64} {start length : Nat} {p : Pair}

/-- A parsed word in a line that is apart from the buffer. -/
theorem expand_word_self_contained (hparse : parseWord (lineMemory m₀) start length = some p)
    (hline : LineKept m₀ m start (start + length) out.toNat (out.toNat + 400))
    (hout : out.toNat + 400 ≤ 2 ^ 64) :
    SelfContained p out (wordContents (lineMemory m₀) p) m ↔
      EndsInside (fun i => m (out + BitVec.ofNat 64 i)) (wordContents (lineMemory m₀) p) := by
  have hnode := parseWord_node hparse
  have htakes := parseWord_takes hparse
  exact hnode.toWordSoFar.selfContained_iff hline (Nat.le_of_eq htakes.at_start.symm) hnode.le hout

end

theorem scanWhile_all {mem : Nat → U8} {P : U8 → Prop} [DecidablePred P] {cur limit : Nat}
    (h : ∀ i, cur ≤ i → i < limit → P (mem i)) (hle : cur ≤ limit) :
    scanWhile mem P cur limit = limit := by
  induction cur using scanWhile.induct mem P limit with
  | case1 cur hc ih =>
    rw [scanWhile, if_pos hc]
    exact ih (fun i hi => h i (by omega)) hc.2
  | case2 cur hc =>
    rw [scanWhile, if_neg hc]
    by_contra hne
    exact hc ⟨h cur (Nat.le_refl cur) (by omega), by omega⟩

/-- A word of ordinary characters has one fragment. -/
theorem parseWord_bare {mem : Nat → U8} {start length : Nat} (hlength : 0 < length)
    (h : ∀ i, start ≤ i → i < start + length → isOrdinaryCharacter (mem i)) :
    ∃ p, parseWord mem start length = some p ∧
      wordContents mem p = [span mem start (start + length)] := by
  have hfirst := h start (Nat.le_refl _) (by omega)
  have hquote : mem start ≠ singleQuote := hfirst.2.2.1
  have hscan : scanWhile mem isOrdinaryCharacter (start + 1) (start + length) = start + length :=
    scanWhile_all (fun i hi => h i (by omega)) (by omega)
  have hstring : parseUnquotedString mem start length =
      some ⟨.unquotedString, start, start + length, []⟩ := by
    rw [parseUnquotedString, if_neg, hscan]
    simp [hfirst, Nat.ne_of_gt hlength]
  have hfragment : parseWordFragment mem start length = some ⟨.wordFragment, start,
      start + length, [⟨.unquotedString, start, start + length, []⟩]⟩ := by
    simp [parseWordFragment, parseSingleQuotedString, hquote, hstring]
  have hend : parseWordFragment mem (start + length) (start + length - (start + length)) = none := by
    simp [parseWordFragment, parseSingleQuotedString, parseUnquotedString]
  have hword : parseWord mem start length = some ⟨.word, start, start + length, [⟨.wordFragment,
      start, start + length, [⟨.unquotedString, start, start + length, []⟩]⟩]⟩ := by
    rw [parseWord, hfragment]
    exact congrArg some (parseWordFrom_none hend)
  refine ⟨_, hword, ?_⟩
  have hkeep := filter_of_ne (s := span mem start (start + length)) fun c hc => by
    rw [span, slice, List.mem_map] at hc
    obtain ⟨k, hk, rfl⟩ := hc
    rw [List.mem_range] at hk
    exact (h _ (by omega) (by omega)).2.2.1
  simp only [wordContents, List.map_cons, List.map_nil, fragmentContent, hkeep]

/-- The letter `a` below `stop`, and zero bytes above. -/
def letters (stop : Nat) : ByteMemory := fun x => if x.toNat < stop then 0x61 else 0

theorem parseWord_letters {stop length : Nat} (hlength : 0 < length) (hle : length ≤ stop)
    (hstop : stop ≤ 2 ^ 64) : ∃ p, parseWord (lineMemory (letters stop)) 0 length = some p ∧
      wordContents (lineMemory (letters stop)) p =
        [span (lineMemory (letters stop)) 0 length] := by
  have hbare : ∀ i, 0 ≤ i → i < 0 + length →
      isOrdinaryCharacter (lineMemory (letters stop) i) := by
    intro i _ hi
    have hletter : lineMemory (letters stop) i = 0x61 := by
      rw [lineMemory, letters, BitVec.toNat_ofNat, Nat.mod_eq_of_lt (by omega), if_pos (by omega)]
    rw [hletter]
    decide
  have hparse := parseWord_bare hlength hbare
  rwa [Nat.zero_add] at hparse

theorem letters_lineKept {stop length lo hi : Nat} (hlength : length < 2 ^ 64) (h : length ≤ lo) :
    LineKept (letters stop) (letters stop) 0 (0 + length) lo hi := by
  rw [Nat.zero_add]
  exact ⟨fun _ _ _ => rfl, hlength, .inl h⟩

/-- One letter in a buffer of zero bytes. -/
theorem expand_word_letter : ∃ p, parseWord (lineMemory (letters 1)) 0 1 = some p ∧
    SelfContained p 0x1000 (wordContents (lineMemory (letters 1)) p) (letters 1) := by
  obtain ⟨p, hparse, hcontents⟩ := parseWord_letters Nat.one_pos (Nat.le_refl 1) (by decide)
  refine ⟨p, hparse, (expand_word_self_contained hparse (letters_lineKept (by decide) (by decide))
    (by decide)).mpr ?_⟩
  rw [hcontents]
  exact ⟨by decide, .inr (.inl (by decide))⟩

/-- A word of 399 bytes has its zero byte behind the buffer. In a buffer of letters, the word `a`
goes on with them. -/
theorem expand_word_spills :
    (∃ p, parseWord (lineMemory (letters 399)) 0 399 = some p ∧
      ¬SelfContained p 0x1000 (wordContents (lineMemory (letters 399)) p) (letters 399)) ∧
    ∃ p, parseWord (lineMemory (letters 0x10000)) 0 1 = some p ∧
      ¬SelfContained p 0x1000 (wordContents (lineMemory (letters 0x10000)) p)
        (letters 0x10000) := by
  constructor
  · obtain ⟨p, hparse, hcontents⟩ :=
      parseWord_letters (by decide : 0 < 399) (Nat.le_refl 399) (by decide)
    refine ⟨p, hparse, fun h => ?_⟩
    have hends := ((parseWord_node hparse).selfContained_iff
      (letters_lineKept (by decide) (by decide)) (Nat.zero_le _) (parseWord_node hparse).le
      (by decide)).mp h
    rw [hcontents] at hends
    refine hends.inside ?_
    rw [runningLengths, span, slice_length]
    exact List.mem_cons_self
  · obtain ⟨p, hparse, hcontents⟩ :=
      parseWord_letters Nat.one_pos (by decide : 1 ≤ 0x10000) (by decide)
    refine ⟨p, hparse, fun h => ?_⟩
    have hends := ((parseWord_node hparse).selfContained_iff
      (letters_lineKept (by decide) (by decide)) (Nat.zero_le _) (parseWord_node hparse).le
      (by decide)).mp h
    rw [hcontents] at hends
    exact absurd hends.ends (by decide)

end Persistos
