import Persistos.ShellParser

/-! The grammar of shell statements, and what the nodes of a parsed statement are. -/

namespace Persistos

open Theory Computability

namespace ShellGrammar

def zms : Language U8 := (oneOf (· = space))∗

def redirectOperator : Language U8 := oneOf fun c => c = lessThan ∨ c = greaterThan

def unquotedString : Language U8 := plus (oneOf isOrdinaryCharacter)

def singleQuotedString : Language U8 :=
  oneOf (· = singleQuote) * ((oneOf (· ≠ singleQuote))∗ * oneOf (· = singleQuote))

def wordFragment : Language U8 := singleQuotedString + unquotedString

def word : Language U8 := plus wordFragment

def redirect : Language U8 := redirectOperator * (zms * word)

def simpleCommandElement : Language U8 := redirect + word

def shellStmt : Language U8 := 1 + simpleCommandElement * (zms * simpleCommandElement)∗

end ShellGrammar

/-- `q` is a node of the tree of `p`. -/
inductive Pair.Node : Pair → Pair → Prop
  | self (p : Pair) : Node p p
  | child {p c q : Pair} (mem_children : c ∈ p.children) (node : Node c q) : Node p q

/-- The ranges of all nodes lie within that of the root. -/
def Pair.Inside (p : Pair) : Prop :=
  ∀ q, p.Node q → p.start ≤ q.start ∧ q.start ≤ q.stop ∧ q.stop ≤ p.stop

def Pair.NoWord (p : Pair) : Prop := ∀ q, p.Node q → q.type ≠ .word

/-- Ranges that follow each other without a gap. -/
def Tiles : List Pair → Nat → Nat → Prop
  | [], i, j => i = j
  | c :: l, i, j => c.start = i ∧ c.start < c.stop ∧ Tiles l c.stop j

theorem Pair.node_iff {p q : Pair} : p.Node q ↔ q = p ∨ ∃ c ∈ p.children, c.Node q := by
  constructor
  · intro h
    cases h with
    | self => exact .inl rfl
    | child hc hq => exact .inr ⟨_, hc, hq⟩
  · rintro (rfl | ⟨c, hc, hq⟩)
    · exact .self q
    · exact .child hc hq

theorem Pair.Inside.of_children {p : Pair} (hle : p.start ≤ p.stop)
    (h : ∀ c ∈ p.children, c.Inside ∧ p.start ≤ c.start ∧ c.stop ≤ p.stop) : p.Inside := by
  intro q hq
  rcases Pair.node_iff.mp hq with rfl | ⟨c, hc, hnode⟩
  · exact ⟨Nat.le_refl _, hle, Nat.le_refl _⟩
  · obtain ⟨hinside, hstart, hstop⟩ := h c hc
    obtain ⟨hge, hrange, hend⟩ := hinside q hnode
    exact ⟨Nat.le_trans hstart hge, hrange, Nat.le_trans hend hstop⟩

theorem Pair.NoWord.of_children {p : Pair} (hp : p.type ≠ .word)
    (h : ∀ c ∈ p.children, c.NoWord) : p.NoWord := by
  intro q hq
  rcases Pair.node_iff.mp hq with rfl | ⟨c, hc, hnode⟩
  · exact hp
  · exact h c hc q hnode

theorem Tiles.concat {l : List Pair} {c : Pair} {i : Nat} (h : Tiles l i c.start)
    (hc : c.start < c.stop) : Tiles (l ++ [c]) i c.stop := by
  induction l generalizing i with
  | nil => exact ⟨h.symm, hc, rfl⟩
  | cons a l ih => exact ⟨h.1, h.2.1, ih h.2.2⟩

theorem Tiles.le {l : List Pair} {i j : Nat} (h : Tiles l i j) :
    i ≤ j ∧ ∀ c ∈ l, i ≤ c.start ∧ c.stop ≤ j := by
  induction l generalizing i with
  | nil => exact ⟨Nat.le_of_eq h, fun c hc => by cases hc⟩
  | cons a l ih =>
    obtain ⟨hstart, hlt, hl⟩ := h
    obtain ⟨hle, hall⟩ := ih hl
    refine ⟨by omega, fun c hc => ?_⟩
    rcases List.mem_cons.mp hc with rfl | hc
    · exact ⟨by omega, hle⟩
    · obtain ⟨hge, hend⟩ := hall c hc
      exact ⟨by omega, hend⟩

section

variable {mem : Nat → U8} {p : U8 → Prop} [DecidablePred p] {cur limit : Nat}

theorem scanWhile_text : ∀ c ∈ span mem cur (scanWhile mem p cur limit), p c := by
  induction cur using scanWhile.induct mem p limit with
  | case1 cur h ih =>
    have hge := le_scanWhile mem p (cur + 1) limit
    rw [scanWhile, if_pos h, span_cons mem hge]
    exact List.forall_mem_cons.mpr ⟨h.1, ih⟩
  | case2 cur h =>
    rw [scanWhile, if_neg h, span_self]
    exact List.forall_mem_nil p

theorem scanWhile_stops (h : cur ≤ limit) :
    scanWhile mem p cur limit = limit ∨ ¬p (mem (scanWhile mem p cur limit)) := by
  induction cur using scanWhile.induct mem p limit with
  | case1 cur hp ih =>
    rw [scanWhile, if_pos hp]
    exact ih hp.2
  | case2 cur hp =>
    rw [scanWhile, if_neg hp]
    by_cases heq : cur = limit
    · exact .inl heq
    · exact .inr fun hcur => hp ⟨hcur, by omega⟩

theorem closingQuote_text {q : Nat} (h : closingQuote mem cur limit = some q) :
    (∀ c ∈ span mem (cur + 1) q, c ≠ singleQuote) ∧ mem q = singleQuote := by
  induction cur using closingQuote.induct mem limit with
  | case1 cur hge =>
    rw [closingQuote, if_pos hge] at h
    cases h
  | case2 cur hlt hne ih =>
    rw [closingQuote, if_neg hlt, if_pos hne] at h
    obtain ⟨hq, -⟩ := closingQuote_lt h
    obtain ⟨hall, hend⟩ := ih h
    rw [span_cons mem hq]
    exact ⟨List.forall_mem_cons.mpr ⟨hne, hall⟩, hend⟩
  | case3 cur hlt heq =>
    rw [closingQuote, if_neg hlt, if_neg heq] at h
    obtain rfl := Option.some.inj h
    rw [span_self]
    exact ⟨List.forall_mem_nil _, not_not.mp heq⟩

end

/-- A parsed fragment: its text, and its node with one below. -/
structure FragmentNode (mem : Nat → U8) (f : Pair) : Prop where
  text : span mem f.start f.stop ∈ ShellGrammar.wordFragment
  type : f.type = .wordFragment
  inside : f.Inside
  noWord : f.NoWord
  parsed : ∃ length, parseWordFragment mem f.start length = some f

theorem Pair.inside_leaf {type : PairType} {i j : Nat} (h : i ≤ j) : Pair.Inside ⟨type, i, j, []⟩ :=
  .of_children h fun c hc => by cases hc

theorem Pair.noWord_leaf {type : PairType} {i j : Nat} (h : type ≠ .word) :
    Pair.NoWord ⟨type, i, j, []⟩ := .of_children h fun c hc => by cases hc

section

variable {mem : Nat → U8} {start length : Nat} {p : Pair}

theorem parseUnquotedString_node (h : parseUnquotedString mem start length = some p) :
    span mem p.start p.stop ∈ ShellGrammar.unquotedString ∧ p.Inside ∧ p.NoWord := by
  have htakes := parseUnquotedString_takes h
  obtain ⟨-, hord, rfl⟩ := parseUnquotedString_eq_some h
  refine ⟨?_, Pair.inside_leaf (Nat.le_of_lt htakes.lt), Pair.noWord_leaf nofun⟩
  rw [ShellGrammar.unquotedString, mem_plus_oneOf, span_cons mem htakes.lt]
  exact ⟨List.cons_ne_nil _ _, List.forall_mem_cons.mpr ⟨hord, scanWhile_text⟩⟩

theorem parseSingleQuotedString_node (h : parseSingleQuotedString mem start length = some p) :
    span mem p.start p.stop ∈ ShellGrammar.singleQuotedString ∧ p.Inside ∧ p.NoWord := by
  obtain ⟨-, hopen, q, hq, rfl⟩ := parseSingleQuotedString_eq_some h
  obtain ⟨hlt, hle⟩ := closingQuote_lt hq
  obtain ⟨hall, hend⟩ := closingQuote_text hq
  refine ⟨?_, .of_children (Nat.le_succ_of_le (Nat.le_of_lt hlt)) ?_, .of_children nofun ?_⟩
  · have hfirst : [mem start] ∈ oneOf (· = singleQuote) := ⟨_, hopen, rfl⟩
    have hlast : [mem q] ∈ oneOf (· = singleQuote) := ⟨_, hend, rfl⟩
    rw [span_cons mem (by dsimp only; omega), span_append mem hlt (Nat.le_succ q), span_one]
    exact Language.append_mem_mul hfirst
      (Language.append_mem_mul (mem_kstar_oneOf.mpr hall) hlast)
  · intro c hc
    obtain rfl := List.mem_singleton.mp hc
    exact ⟨Pair.inside_leaf hlt, Nat.le_succ start, Nat.le_succ q⟩
  · intro c hc
    obtain rfl := List.mem_singleton.mp hc
    exact Pair.noWord_leaf nofun

theorem parseWordFragment_node (h : parseWordFragment mem start length = some p) :
    FragmentNode mem p := by
  have htakes := parseWordFragment_takes h
  have hparsed : ∃ length, parseWordFragment mem p.start length = some p :=
    ⟨length, htakes.at_start ▸ h⟩
  obtain ⟨c, hc, rfl⟩ := parseWordFragment_eq_some h
  obtain ⟨htext, hinside, hnoWord⟩ :
      span mem c.start c.stop ∈ ShellGrammar.wordFragment ∧ c.Inside ∧ c.NoWord := by
    rcases hc with hq | hu
    · obtain ⟨htext, hrest⟩ := parseSingleQuotedString_node hq
      exact ⟨.inl htext, hrest⟩
    · obtain ⟨htext, hrest⟩ := parseUnquotedString_node hu
      exact ⟨.inr htext, hrest⟩
  have hle : c.start ≤ c.stop := (hinside c (.self c)).2.1
  refine ⟨htext, rfl, .of_children hle ?_, .of_children nofun ?_, hparsed⟩
  · intro c' hc'
    obtain rfl := List.mem_singleton.mp hc'
    exact ⟨hinside, Nat.le_refl _, Nat.le_refl _⟩
  · intro c' hc'
    obtain rfl := List.mem_singleton.mp hc'
    exact hnoWord

end

/-- The word that the loop of `parse_word` has built. -/
structure WordSoFar (mem : Nat → U8) (p : Pair) : Prop where
  text : span mem p.start p.stop ∈ ShellGrammar.word
  type : p.type = .word
  lt : p.start < p.stop
  tiles : Tiles p.children p.start p.stop
  fragments : ∀ f ∈ p.children, FragmentNode mem f

/-- A parsed word. No fragment goes on where it ends. -/
structure WordNode (mem : Nat → U8) (maxEnd : Nat) (p : Pair) : Prop extends WordSoFar mem p where
  le : p.stop ≤ maxEnd
  maximal : parseWordFragment mem p.stop (maxEnd - p.stop) = none

theorem WordSoFar.inside {mem : Nat → U8} {p : Pair} (h : WordSoFar mem p) : p.Inside := by
  obtain ⟨hle, hall⟩ := h.tiles.le
  refine .of_children hle fun f hf => ⟨(h.fragments f hf).inside, hall f hf⟩

/-- The only word in the tree of a word is the word. -/
theorem WordSoFar.eq_of_node {mem : Nat → U8} {p q : Pair} (h : WordSoFar mem p) (hq : p.Node q)
    (hword : q.type = .word) : q = p := by
  rcases Pair.node_iff.mp hq with rfl | ⟨f, hf, hnode⟩
  · rfl
  · exact absurd hword ((h.fragments f hf).noWord q hnode)

section

variable {mem : Nat → U8} {start length cur maxEnd : Nat} {p f : Pair}

theorem WordSoFar.step (h : WordSoFar mem p)
    (hf : parseWordFragment mem p.stop (maxEnd - p.stop) = some f) :
    WordSoFar mem { p with stop := f.stop, children := p.children ++ [f] } := by
  have htakes := parseWordFragment_takes hf
  have hnode := parseWordFragment_node hf
  have hlt : f.start < f.stop := htakes.at_start ▸ htakes.lt
  have hge : p.start ≤ f.start := htakes.at_start ▸ Nat.le_of_lt h.lt
  refine ⟨?_, h.type, Nat.lt_of_le_of_lt hge hlt, ?_, ?_⟩
  · have htext := plus_append_mem h.text hnode.text
    rw [htakes.at_start] at htext
    rw [span_append mem (Nat.le_of_lt h.lt) (Nat.le_of_lt htakes.lt)]
    exact htext
  · refine Tiles.concat ?_ hlt
    rw [htakes.at_start]
    exact h.tiles
  · intro f' hf'
    rcases List.mem_append.mp hf' with hf' | hf'
    · exact h.fragments f' hf'
    · obtain rfl := List.mem_singleton.mp hf'
      exact hnode

theorem parseWordFrom_node (h : WordSoFar mem p) (hstop : p.stop = cur) (hle : cur ≤ maxEnd) :
    WordNode mem maxEnd (parseWordFrom mem cur maxEnd p) := by
  induction cur, p using parseWordFrom.induct mem maxEnd with
  | case1 cur p hf =>
    subst hstop
    rw [parseWordFrom_none hf]
    exact ⟨h, hle, hf⟩
  | case2 cur p f hf ih =>
    subst hstop
    have htakes := parseWordFragment_takes hf
    have hend : f.stop ≤ maxEnd := by
      have hroom := htakes.le
      omega
    rw [parseWordFrom_some hf]
    exact ih (h.step hf) rfl hend

theorem parseWord_node (h : parseWord mem start length = some p) :
    WordNode mem (start + length) p := by
  rw [parseWord] at h
  cases hf : parseWordFragment mem start length with
  | none =>
    rw [hf] at h
    cases h
  | some f =>
    rw [hf] at h
    obtain rfl := Option.some.inj h
    have htakes := parseWordFragment_takes hf
    have hnode := parseWordFragment_node hf
    have hlt : f.start < f.stop := htakes.at_start ▸ htakes.lt
    refine parseWordFrom_node ⟨mem_plus hnode.text, rfl, hlt, ⟨rfl, hlt, rfl⟩, ?_⟩ rfl htakes.le
    intro f' hf'
    obtain rfl := List.mem_singleton.mp hf'
    exact hnode

end

/-- A byte that ends a word. -/
def IsSeparator (c : U8) : Prop := c = space ∨ c = lessThan ∨ c = greaterThan

/-- A parsed element and its word. Either the element is the word, or it begins with an
operator. -/
structure ElementNode (mem : Nat → U8) (start maxEnd : Nat) (e w : Pair) : Prop where
  text : span mem start e.stop ∈ ShellGrammar.simpleCommandElement
  at_start : e.start = start
  inside : e.Inside
  word : WordNode mem maxEnd w
  word_of_node : ∀ q, e.Node q → q.type = .word → q = w
  stop : w.stop = e.stop
  begins : w.start = start ∧ (parseWordFragment mem start (maxEnd - start)).isSome ∨
    (mem start = lessThan ∨ mem start = greaterThan) ∧ start < w.start

section

variable {mem : Nat → U8} {start length maxEnd : Nat} {p : Pair}

/-- An element has one child. -/
theorem elementNode_of_child {e w c : Pair} (he : e = ⟨.simpleCommandElement, c.start, c.stop, [c]⟩)
    (htext : span mem start c.stop ∈ ShellGrammar.simpleCommandElement) (hstart : c.start = start)
    (hinside : c.Inside) (hword : WordNode mem maxEnd w)
    (hnode : ∀ q, c.Node q → q.type = .word → q = w) (hstop : w.stop = c.stop)
    (hbegins : w.start = start ∧ (parseWordFragment mem start (maxEnd - start)).isSome ∨
      (mem start = lessThan ∨ mem start = greaterThan) ∧ start < w.start) :
    ElementNode mem start maxEnd e w := by
  subst he
  have hle : c.start ≤ c.stop := (hinside c (.self c)).2.1
  refine ⟨htext, hstart, .of_children hle ?_, hword, ?_, hstop, hbegins⟩
  · intro c' hc'
    obtain rfl := List.mem_singleton.mp hc'
    exact ⟨hinside, Nat.le_refl _, Nat.le_refl _⟩
  · intro q hq htype
    rcases Pair.node_iff.mp hq with rfl | ⟨c', hc', hnode'⟩
    · cases htype
    · obtain rfl := List.mem_singleton.mp hc'
      exact hnode q hnode' htype

theorem parseWord_isSome (h : parseWord mem start length = some p) :
    (parseWordFragment mem start length).isSome := by
  rw [parseWord] at h
  cases hf : parseWordFragment mem start length with
  | none =>
    rw [hf] at h
    cases h
  | some f => rfl

theorem parseRedirect_node (h : parseRedirect mem start length = some p) :
    ∃ w, WordNode mem (start + length) w ∧
      span mem start p.stop ∈ ShellGrammar.redirect ∧ p.start = start ∧ p.Inside ∧
      (∀ q, p.Node q → q.type = .word → q = w) ∧ w.stop = p.stop ∧
      (mem start = lessThan ∨ mem start = greaterThan) ∧ start < w.start := by
  obtain ⟨hpos, hop, cur, w, hcur, hword, rfl⟩ := parseRedirect_eq_some h
  have hge : start + 1 ≤ cur := hcur ▸ le_scanWhile mem (· = space) (start + 1) (start + length)
  have hle : cur ≤ start + length := by
    rw [hcur]
    exact scanWhile_le (by omega)
  have htakes := parseWord_takes hword
  have hnode := parseWord_node hword
  have hlt : cur < w.stop := htakes.lt
  rw [Nat.add_sub_cancel' hle] at hnode
  refine ⟨w, hnode, ?_, rfl, .of_children (by dsimp only; omega) ?_, ?_, rfl, hop, ?_⟩
  · have hspaces : span mem (start + 1) cur ∈ ShellGrammar.zms := by
      rw [hcur]
      exact mem_kstar_oneOf.mpr scanWhile_text
    have hfirst : [mem start] ∈ ShellGrammar.redirectOperator := ⟨_, hop, rfl⟩
    have hlast : span mem cur w.stop ∈ ShellGrammar.word := htakes.at_start ▸ hnode.text
    dsimp only
    rw [span_cons mem (by omega : start < w.stop), span_append mem hge (Nat.le_of_lt hlt)]
    exact Language.append_mem_mul hfirst (Language.append_mem_mul hspaces hlast)
  · intro c hc
    rcases List.mem_cons.mp hc with rfl | hc
    · exact ⟨Pair.inside_leaf (Nat.le_succ start), Nat.le_refl _, by dsimp only; omega⟩
    · obtain rfl := List.mem_singleton.mp hc
      have hstart := htakes.at_start
      exact ⟨hnode.inside, by dsimp only; omega, Nat.le_refl _⟩
  · intro q hq htype
    rcases Pair.node_iff.mp hq with rfl | ⟨c, hc, hchild⟩
    · cases htype
    · rcases List.mem_cons.mp hc with rfl | hc
      · have hleaf : Pair.NoWord ⟨.redirectOperator, start, start + 1, []⟩ := Pair.noWord_leaf nofun
        exact absurd htype (hleaf q hchild)
      · obtain rfl := List.mem_singleton.mp hc
        exact hnode.eq_of_node hchild htype
  · rw [htakes.at_start]
    omega

theorem parseSimpleCommandElement_node
    (h : parseSimpleCommandElement mem start length = some p) :
    ∃ w, ElementNode mem start (start + length) p w := by
  obtain ⟨c, hc, hp⟩ := parseSimpleCommandElement_eq_some h
  rcases hc with hr | ⟨-, hw⟩
  · obtain ⟨w, hword, htext, hstart, hinside, hnode, hstop, hbegins⟩ := parseRedirect_node hr
    exact ⟨w, elementNode_of_child hp (.inl htext) hstart hinside hword hnode hstop (.inr hbegins)⟩
  · have htakes := parseWord_takes hw
    have hword := parseWord_node hw
    have htext : span mem start c.stop ∈ ShellGrammar.word := htakes.at_start ▸ hword.text
    have hsome := parseWord_isSome hw
    refine ⟨c, elementNode_of_child hp (.inr htext) htakes.at_start hword.inside hword
      (fun q hq htype => hword.eq_of_node hq htype) rfl (.inl ⟨htakes.at_start, ?_⟩)⟩
    rwa [Nat.add_sub_cancel_left]

end

/-- The statement that the loop of `parse_shell_stmt` has built when it comes to `cur`. -/
structure StmtSoFar (mem : Nat → U8) (start cur maxEnd : Nat) (p : Pair) : Prop where
  type : p.type = .shellStmt
  at_start : p.start = start
  ge : start ≤ p.stop
  gap : p.stop ≤ cur
  le : cur ≤ maxEnd
  spaces : ∀ c ∈ span mem p.stop cur, c = space
  text : p.stop = start ∧ cur = start ∨ span mem start p.stop ∈
    ShellGrammar.simpleCommandElement * (ShellGrammar.zms * ShellGrammar.simpleCommandElement)∗
  children : ∀ c ∈ p.children, c.Inside ∧ p.start ≤ c.start ∧ c.stop ≤ p.stop
  words : ∀ w, p.Node w → w.type = .word →
    WordNode mem maxEnd w ∧ w.stop ≤ p.stop ∧ (w.stop < p.stop → IsSeparator (mem w.stop))
  apart : ∀ w w', p.Node w → w.type = .word → p.Node w' → w'.type = .word →
    w.start < w'.start → w.stop < w'.start

section

variable {mem : Nat → U8} {start cur maxEnd : Nat} {p e w : Pair}

theorem StmtSoFar.init (h : start ≤ maxEnd) :
    StmtSoFar mem start start maxEnd ⟨.shellStmt, start, start, []⟩ := by
  have hleaf : Pair.NoWord ⟨.shellStmt, start, start, []⟩ := Pair.noWord_leaf nofun
  refine ⟨rfl, rfl, Nat.le_refl _, Nat.le_refl _, h, ?_, .inl ⟨rfl, rfl⟩, nofun, ?_, ?_⟩
  · rw [span_self]
    exact nofun
  · exact fun w hw htype => absurd htype (hleaf w hw)
  · exact fun w w' hw htype => absurd htype (hleaf w hw)

theorem StmtSoFar.inside (h : StmtSoFar mem start cur maxEnd p) : p.Inside :=
  .of_children (h.at_start ▸ h.ge) h.children

/-- A word of the statement ends before the next element begins. -/
theorem StmtSoFar.before (h : StmtSoFar mem start cur maxEnd p)
    (he : ElementNode mem cur maxEnd e w) {v : Pair} (hv : p.Node v) (hword : v.type = .word) :
    IsSeparator (mem v.stop) ∧ v.stop < w.start := by
  obtain ⟨hnode, hstop, hsep⟩ := h.words v hv hword
  have hgap := h.gap
  have hw : cur ≤ w.start := by
    rcases he.begins with ⟨hstart, -⟩ | ⟨-, hstart⟩ <;> omega
  by_cases hearlier : v.stop < p.stop
  · exact ⟨hsep hearlier, by omega⟩
  · have heq : v.stop = p.stop := by omega
    rw [heq]
    by_cases hspace : p.stop < cur
    · have hmem : mem p.stop ∈ span mem p.stop cur := mem_span.mpr ⟨_, Nat.le_refl _, hspace, rfl⟩
      exact ⟨.inl (h.spaces _ hmem), by omega⟩
    · have hcur : p.stop = cur := by omega
      rcases he.begins with ⟨-, hsome⟩ | ⟨hop, hlt⟩
      · have hmaximal := hnode.maximal
        rw [heq, hcur] at hmaximal
        rw [hmaximal] at hsome
        cases hsome
      · rw [hcur]
        exact ⟨.inr hop, hlt⟩

theorem ElementNode.bounds (he : ElementNode mem cur maxEnd e w) :
    cur ≤ w.start ∧ w.start < w.stop ∧ w.stop = e.stop ∧ e.stop ≤ maxEnd := by
  have hlt := he.word.lt
  have hle := he.word.le
  have hstop := he.stop
  rcases he.begins with ⟨hstart, -⟩ | ⟨-, hstart⟩
  · exact ⟨by omega, hlt, hstop, by omega⟩
  · exact ⟨by omega, hlt, hstop, by omega⟩

/-- The statement with one more element. -/
def Pair.withElement (p e : Pair) : Pair :=
  { p with stop := e.stop, children := p.children ++ [e] }

/-- A word of the longer statement is one of the statement or that of the element. -/
theorem StmtSoFar.word_cases (h : StmtSoFar mem start cur maxEnd p)
    (he : ElementNode mem cur maxEnd e w) {v : Pair} (hv : (p.withElement e).Node v)
    (hword : v.type = .word) : p.Node v ∨ v = w := by
  rcases Pair.node_iff.mp hv with rfl | ⟨c, hc, hnode⟩
  · have hstmt := h.type
    change p.type = .word at hword
    rw [hstmt] at hword
    cases hword
  · rcases List.mem_append.mp hc with hc | hc
    · exact .inl (.child hc hnode)
    · obtain rfl := List.mem_singleton.mp hc
      exact .inr (he.word_of_node v hnode hword)

theorem StmtSoFar.step_text (h : StmtSoFar mem start cur maxEnd p)
    (he : ElementNode mem cur maxEnd e w) : span mem start e.stop ∈
      ShellGrammar.simpleCommandElement *
        (ShellGrammar.zms * ShellGrammar.simpleCommandElement)∗ := by
  obtain ⟨hw, hlt, hstop, -⟩ := he.bounds
  have hgap := h.gap
  have hge := h.ge
  have hspaces : span mem p.stop cur ∈ ShellGrammar.zms := mem_kstar_oneOf.mpr h.spaces
  rcases h.text with ⟨-, rfl⟩ | htext
  · have hone := Language.append_mem_mul he.text
      (Language.nil_mem_kstar (ShellGrammar.zms * ShellGrammar.simpleCommandElement))
    rwa [List.append_nil] at hone
  · obtain ⟨first, hfirst, others, hothers, hsplit⟩ := Language.mem_mul.mp htext
    have hnext := Language.append_mem_mul hfirst
      (kstar_append_mem hothers (Language.append_mem_mul hspaces he.text))
    rw [span_append mem (by omega : start ≤ p.stop) (by omega : p.stop ≤ e.stop),
      span_append mem hgap (by omega : cur ≤ e.stop), ← hsplit, List.append_assoc]
    exact hnext

theorem StmtSoFar.step (h : StmtSoFar mem start cur maxEnd p)
    (he : ElementNode mem cur maxEnd e w) :
    StmtSoFar mem start (scanWhile mem (· = space) e.stop maxEnd) maxEnd (p.withElement e) := by
  obtain ⟨hw, hlt, hstop, hend⟩ := he.bounds
  have hgap := h.gap
  have hge := h.ge
  have hstart := h.at_start
  have htext := h.step_text he
  refine ⟨h.type, hstart, (by omega : start ≤ e.stop), le_scanWhile mem _ e.stop maxEnd,
    scanWhile_le hend, scanWhile_text, .inr htext, ?_, ?_, ?_⟩
  · intro c hc
    have hnew : p.start ≤ e.start := by
      rw [hstart, he.at_start]
      omega
    rcases List.mem_append.mp hc with hc | hc
    · obtain ⟨hinside, hfirst, hlast⟩ := h.children c hc
      exact ⟨hinside, hfirst, (by omega : c.stop ≤ e.stop)⟩
    · obtain rfl := List.mem_singleton.mp hc
      exact ⟨he.inside, hnew, Nat.le_refl _⟩
  · intro v hv hword
    rcases h.word_cases he hv hword with hv | rfl
    · obtain ⟨hnode, hvstop, -⟩ := h.words v hv hword
      obtain ⟨hsep, -⟩ := h.before he hv hword
      have hle : v.stop ≤ e.stop := by omega
      exact ⟨hnode, hle, fun _ => hsep⟩
    · exact ⟨he.word, Nat.le_of_eq hstop, fun hbefore => absurd hstop (Nat.ne_of_lt hbefore)⟩
  · intro v v' hv hword hv' hword' hbefore
    rcases h.word_cases he hv hword with hv | rfl
    · rcases h.word_cases he hv' hword' with hv' | rfl
      · exact h.apart v v' hv hword hv' hword' hbefore
      · exact (h.before he hv hword).2
    · rcases h.word_cases he hv' hword' with hv' | rfl
      · obtain ⟨hnode, -, -⟩ := h.words v' hv' hword'
        have hlater := (h.before he hv' hword').2
        have hrange := hnode.lt
        omega
      · exact absurd hbefore (Nat.lt_irrefl _)

/-- What `parse_shell_stmt` returns. -/
theorem parseShellStmtFrom_node (h : StmtSoFar mem start cur maxEnd p) :
    ∃ cur', StmtSoFar mem start cur' maxEnd (parseShellStmtFrom mem cur maxEnd p) := by
  induction cur, p using parseShellStmtFrom.induct mem maxEnd with
  | case1 cur p hnone =>
    rw [parseShellStmtFrom_none hnone]
    exact ⟨cur, h⟩
  | case2 cur p e hsome next oms ih =>
    obtain ⟨w, he⟩ := parseSimpleCommandElement_node hsome
    have hle := h.le
    rw [Nat.add_sub_cancel' hle] at he
    obtain ⟨-, -, -, hend⟩ := he.bounds
    have hcur : oms.stop = scanWhile mem (· = space) e.stop maxEnd := by
      dsimp only [oms, next, parseZms]
      rw [Nat.add_sub_cancel' hend]
    rw [hcur] at ih
    rw [parseShellStmtFrom_some hsome hend]
    exact ih (h.step he)

end

end Persistos
