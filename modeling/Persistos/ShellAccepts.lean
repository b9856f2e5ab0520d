import Persistos.ShellGrammar

/-! Why the parser of the shell never takes too much: a statement can be read byte by byte,
and what may follow does not depend on how it is cut into fragments and words. -/

namespace Persistos

open Theory Computability

/-- What comes next in a statement: anything that may follow a fragment, spaces and an
element, an element, spaces and the word of a redirect, a word. -/
inductive ShellState where
  | tail
  | gap
  | element
  | target
  | word
  deriving DecidableEq, Repr

/-- The texts that may come next. -/
inductive ShellRest : ShellState → List U8 → Prop
  | done : ShellRest .tail []
  | next {s : List U8} (rest : ShellRest .gap s) : ShellRest .tail s
  | gapSpace {s : List U8} (rest : ShellRest .gap s) : ShellRest .gap (space :: s)
  | gapElement {s : List U8} (rest : ShellRest .element s) : ShellRest .gap s
  | operator {c : U8} {s : List U8} (is_operator : c = lessThan ∨ c = greaterThan)
      (rest : ShellRest .target s) : ShellRest .element (c :: s)
  | elementWord {s : List U8} (rest : ShellRest .word s) : ShellRest .element s
  | targetSpace {s : List U8} (rest : ShellRest .target s) : ShellRest .target (space :: s)
  | targetWord {s : List U8} (rest : ShellRest .word s) : ShellRest .target s
  | ordinary {c : U8} {s : List U8} (is_ordinary : isOrdinaryCharacter c)
      (rest : ShellRest .tail s) : ShellRest .word (c :: s)
  | quoted {body s : List U8} (content : ∀ c ∈ body, c ≠ singleQuote)
      (rest : ShellRest .tail s) : ShellRest .word (singleQuote :: (body ++ singleQuote :: s))

namespace ShellRest

variable {s t : List U8} {c : U8}

theorem tail_of_word (h : ShellRest .word s) : ShellRest .tail s :=
  .next (.gapElement (.elementWord h))

theorem fragment_append (hs : s ∈ ShellGrammar.wordFragment) (ht : ShellRest .tail t) :
    ShellRest .word (s ++ t) := by
  rcases hs with hq | hu
  · obtain ⟨_, ⟨_, rfl, rfl⟩, _, hrest, rfl⟩ := Language.mem_mul.mp hq
    obtain ⟨body, hbody, _, ⟨_, rfl, rfl⟩, rfl⟩ := Language.mem_mul.mp hrest
    have hquoted := ShellRest.quoted (mem_kstar_oneOf.mp hbody) ht
    simpa using hquoted
  · obtain ⟨hne, hall⟩ := mem_plus_oneOf.mp hu
    clear hu
    induction s with
    | nil => exact absurd rfl hne
    | cons c s ih =>
      obtain ⟨hc, hs⟩ := List.forall_mem_cons.mp hall
      cases s with
      | nil => exact .ordinary hc ht
      | cons d s => exact .ordinary hc (ih (List.cons_ne_nil d s) hs).tail_of_word

theorem word_append (hs : s ∈ ShellGrammar.word) (ht : ShellRest .tail t) :
    ShellRest .word (s ++ t) := by
  obtain ⟨first, hfirst, others, hothers, rfl⟩ := Language.mem_mul.mp hs
  have htail : ShellRest .tail (others ++ t) := by
    refine kstar_induction (P := fun s => ShellRest .tail (s ++ t)) ht ?_ hothers
    intro f hf rest hrest
    rw [List.append_assoc]
    exact (fragment_append hf hrest).tail_of_word
  rw [List.append_assoc]
  exact fragment_append hfirst htail

theorem element_append (hs : s ∈ ShellGrammar.simpleCommandElement) (ht : ShellRest .tail t) :
    ShellRest .element (s ++ t) := by
  rcases hs with hr | hw
  · obtain ⟨_, ⟨op, hop, rfl⟩, _, hrest, rfl⟩ := Language.mem_mul.mp hr
    obtain ⟨spaces, hspaces, word, hword, rfl⟩ := Language.mem_mul.mp hrest
    have hafter : ShellRest .target (word ++ t) := .targetWord (word_append hword ht)
    have htarget : ShellRest .target (spaces ++ (word ++ t)) := by
      refine kstar_induction (P := fun s => ShellRest .target (s ++ (word ++ t))) hafter ?_ hspaces
      rintro _ ⟨c, rfl, rfl⟩ rest hrest
      exact .targetSpace hrest
    have hall := ShellRest.operator hop htarget
    simpa using hall
  · exact .elementWord (word_append hw ht)

theorem gap_append (hs : s ∈ ShellGrammar.zms) (ht : ShellRest .element t) :
    ShellRest .gap (s ++ t) := by
  refine kstar_induction (P := fun s => ShellRest .gap (s ++ t)) (.gapElement ht) ?_ hs
  rintro _ ⟨c, rfl, rfl⟩ rest hrest
  exact .gapSpace hrest

/-- Every statement can be read this way. -/
theorem of_shellStmt (hs : s ∈ ShellGrammar.shellStmt) : s = [] ∨ ShellRest .element s := by
  rcases hs with hnil | hs
  · exact .inl hnil
  · obtain ⟨first, hfirst, others, hothers, rfl⟩ := Language.mem_mul.mp hs
    refine .inr (element_append hfirst ?_)
    refine kstar_induction .done ?_ hothers
    intro part hpart rest hrest
    obtain ⟨spaces, hspaces, element, helement, rfl⟩ := Language.mem_mul.mp hpart
    rw [List.append_assoc]
    exact .next (gap_append hspaces (element_append helement hrest))

theorem word_cases (h : ShellRest .word s) :
    (∃ c t, s = c :: t ∧ isOrdinaryCharacter c ∧ ShellRest .tail t) ∨
      ∃ body t, s = singleQuote :: (body ++ singleQuote :: t) ∧ (∀ c ∈ body, c ≠ singleQuote) ∧
        ShellRest .tail t := by
  cases h with
  | ordinary hc ht => exact .inl ⟨_, _, rfl, hc, ht⟩
  | quoted hbody ht => exact .inr ⟨_, _, rfl, hbody, ht⟩

theorem element_cases (h : ShellRest .element s) :
    (∃ c t, s = c :: t ∧ (c = lessThan ∨ c = greaterThan) ∧ ShellRest .target t) ∨
      ShellRest .word s := by
  cases h with
  | operator hc ht => exact .inl ⟨_, _, rfl, hc, ht⟩
  | elementWord h => exact .inr h

/-- A byte that a fragment may begin with. -/
def BeginsFragment (c : U8) : Prop := isOrdinaryCharacter c ∨ c = singleQuote

theorem BeginsFragment.ne {c : U8} (h : BeginsFragment c) :
    c ≠ space ∧ c ≠ lessThan ∧ c ≠ greaterThan := by
  rcases h with h | rfl
  · exact h.2.2.2
  · decide

theorem begins_of_word (h : ShellRest .word (c :: s)) : BeginsFragment c := by
  rcases h.word_cases with ⟨c', t, heq, hc, -⟩ | ⟨body, t, heq, -, -⟩
  · obtain ⟨rfl, -⟩ := List.cons.inj heq
    exact .inl hc
  · exact .inr (List.cons.inj heq).1

theorem ne_space_of_element (h : ShellRest .element (c :: s)) : c ≠ space := by
  rcases h.element_cases with ⟨c', t, heq, hop, -⟩ | hword
  · obtain ⟨rfl, -⟩ := List.cons.inj heq
    rcases hop with rfl | rfl <;> decide
  · exact (begins_of_word hword).ne.1

theorem ne_nil_of_element (h : ShellRest .element s) : s ≠ [] := by
  rcases h.element_cases with ⟨c, t, rfl, -, -⟩ | hword
  · exact List.cons_ne_nil c t
  · rcases hword.word_cases with ⟨c, t, rfl, -, -⟩ | ⟨body, t, rfl, -, -⟩
    · exact List.cons_ne_nil c t
    · exact List.cons_ne_nil _ _

theorem gap_of_space (h : ShellRest .gap (space :: s)) : ShellRest .gap s := by
  cases h with
  | gapSpace h => exact h
  | gapElement h => exact absurd rfl h.ne_space_of_element

theorem element_of_gap (h : ShellRest .gap s) (hs : s.head? ≠ some space) :
    ShellRest .element s := by
  cases h with
  | gapSpace h => exact absurd rfl hs
  | gapElement h => exact h

theorem target_of_space (h : ShellRest .target (space :: s)) : ShellRest .target s := by
  cases h with
  | targetSpace h => exact h
  | targetWord h => exact absurd rfl h.begins_of_word.ne.1

theorem word_of_target (h : ShellRest .target s) (hs : s.head? ≠ some space) :
    ShellRest .word s := by
  cases h with
  | targetSpace h => exact absurd rfl hs
  | targetWord h => exact h

/-- After a fragment, a byte that begins one begins a word. -/
theorem word_of_tail (h : ShellRest .tail (c :: s)) (hc : BeginsFragment c) :
    ShellRest .word (c :: s) := by
  cases h with
  | next h =>
    have helement := h.element_of_gap fun heq => hc.ne.1 (Option.some.inj heq)
    rcases helement.element_cases with ⟨c', t, heq, hop, -⟩ | hword
    · obtain ⟨rfl, -⟩ := List.cons.inj heq
      rcases hop with rfl | rfl
      · exact absurd rfl hc.ne.2.1
      · exact absurd rfl hc.ne.2.2
    · exact hword

theorem tail_of_ordinary (h : ShellRest .tail (c :: s)) (hc : isOrdinaryCharacter c) :
    ShellRest .tail s := by
  rcases (h.word_of_tail (.inl hc)).word_cases with ⟨c', t, heq, -, ht⟩ | ⟨body, t, heq, -, -⟩
  · rwa [(List.cons.inj heq).2]
  · exact absurd (List.cons.inj heq).1 hc.2.2.1

end ShellRest

section

variable {mem : Nat → U8} {cur limit : Nat}

theorem tail_scanWhile (h : ShellRest .tail (span mem cur limit)) :
    ShellRest .tail (span mem (scanWhile mem isOrdinaryCharacter cur limit) limit) := by
  induction cur using scanWhile.induct mem isOrdinaryCharacter limit with
  | case1 cur hp ih =>
    rw [span_cons mem hp.2] at h
    rw [scanWhile, if_pos hp]
    exact ih (h.tail_of_ordinary hp.1)
  | case2 cur hp => rwa [scanWhile, if_neg hp]

theorem span_head (hle : cur ≤ limit)
    (h : cur = limit ∨ mem cur ≠ space) : (span mem cur limit).head? ≠ some space := by
  by_cases hlt : cur < limit
  · rw [span_cons mem hlt, List.head?_cons]
    exact fun heq => h.elim (Nat.ne_of_lt hlt) fun hne => hne (Option.some.inj heq)
  · obtain rfl : cur = limit := by omega
    rw [span_self]
    exact nofun

theorem gap_scanWhile (h : ShellRest .gap (span mem cur limit)) (hle : cur ≤ limit) :
    ShellRest .element (span mem (scanWhile mem (· = space) cur limit) limit) := by
  have hrest : ShellRest .gap (span mem (scanWhile mem (· = space) cur limit) limit) := by
    clear hle
    induction cur using scanWhile.induct mem (· = space) limit with
    | case1 cur hp ih =>
      rw [span_cons mem hp.2, hp.1] at h
      rw [scanWhile, if_pos hp]
      exact ih h.gap_of_space
    | case2 cur hp => rwa [scanWhile, if_neg hp]
  exact hrest.element_of_gap (span_head (scanWhile_le hle) (scanWhile_stops hle))

theorem target_scanWhile (h : ShellRest .target (span mem cur limit)) (hle : cur ≤ limit) :
    ShellRest .word (span mem (scanWhile mem (· = space) cur limit) limit) := by
  have hrest : ShellRest .target (span mem (scanWhile mem (· = space) cur limit) limit) := by
    clear hle
    induction cur using scanWhile.induct mem (· = space) limit with
    | case1 cur hp ih =>
      rw [span_cons mem hp.2, hp.1] at h
      rw [scanWhile, if_pos hp]
      exact ih h.target_of_space
    | case2 cur hp => rwa [scanWhile, if_neg hp]
  exact hrest.word_of_target (span_head (scanWhile_le hle) (scanWhile_stops hle))

/-- The first quote behind the content is found. -/
theorem closingQuote_eq {body t : List U8} (h : span mem (cur + 1) limit = body ++ singleQuote :: t)
    (hbody : ∀ c ∈ body, c ≠ singleQuote) :
    ∃ q, closingQuote mem cur limit = some q ∧ span mem (q + 1) limit = t := by
  induction body generalizing cur with
  | nil =>
    obtain ⟨hlt, hquote, hrest⟩ := span_eq_cons h
    rw [closingQuote, if_neg (Nat.not_le.mpr hlt), if_neg (not_not.mpr hquote)]
    exact ⟨cur + 1, rfl, hrest⟩
  | cons c body ih =>
    obtain ⟨hlt, hc, hrest⟩ := span_eq_cons h
    obtain ⟨hne, hall⟩ := List.forall_mem_cons.mp hbody
    rw [closingQuote, if_neg (Nat.not_le.mpr hlt), if_pos (hc ▸ hne)]
    exact ih hrest hall

theorem parseWordFragment_ordinary (hlt : cur < limit) (h : isOrdinaryCharacter (mem cur)) :
    parseWordFragment mem cur (limit - cur) =
      some ⟨.wordFragment, cur, scanWhile mem isOrdinaryCharacter (cur + 1) limit,
        [⟨.unquotedString, cur, scanWhile mem isOrdinaryCharacter (cur + 1) limit, []⟩]⟩ := by
  have hroom : cur + (limit - cur) = limit := by omega
  have hquoted : parseSingleQuotedString mem cur (limit - cur) = none := by
    rw [parseSingleQuotedString, if_pos (.inr h.2.2.1)]
  have hunquoted : parseUnquotedString mem cur (limit - cur) = some ⟨.unquotedString, cur,
      scanWhile mem isOrdinaryCharacter (cur + 1) limit, []⟩ := by
    rw [parseUnquotedString, if_neg ?_, hroom]
    rintro (hzero | hnot)
    · omega
    · exact hnot h
  rw [parseWordFragment, hquoted, hunquoted]
  rfl

theorem parseWordFragment_quoted {q : Nat} (hlt : cur < limit) (h : mem cur = singleQuote)
    (hq : closingQuote mem cur limit = some q) :
    parseWordFragment mem cur (limit - cur) =
      some ⟨.wordFragment, cur, q + 1,
        [⟨.quotedString, cur, q + 1, [⟨.quotedStringContent, cur + 1, q, []⟩]⟩]⟩ := by
  have hroom : cur + (limit - cur) = limit := by omega
  have hquoted : parseSingleQuotedString mem cur (limit - cur) = some ⟨.quotedString, cur, q + 1,
      [⟨.quotedStringContent, cur + 1, q, []⟩]⟩ := by
    rw [parseSingleQuotedString, if_neg ?_, hroom, hq]
    rintro (hzero | hnot)
    · omega
    · exact hnot h
  rw [parseWordFragment, hquoted]
  rfl

/-- A fragment is found where one is due, and what may follow it follows. -/
theorem parseWordFragment_complete (h : ShellRest .word (span mem cur limit)) :
    ∃ f, parseWordFragment mem cur (limit - cur) = some f ∧
      ShellRest .tail (span mem f.stop limit) := by
  rcases h.word_cases with ⟨c, t, heq, hc, ht⟩ | ⟨body, t, heq, hbody, ht⟩
  · obtain ⟨hlt, rfl, rfl⟩ := span_eq_cons heq
    exact ⟨_, parseWordFragment_ordinary hlt hc, tail_scanWhile ht⟩
  · obtain ⟨hlt, hquote, hrest⟩ := span_eq_cons heq
    obtain ⟨q, hq, hafter⟩ := closingQuote_eq hrest hbody
    exact ⟨_, parseWordFragment_quoted hlt hquote hq, hafter.symm ▸ ht⟩

/-- A fragment begins with a byte that may begin one. -/
theorem beginsFragment_of_some {length : Nat} {f : Pair}
    (h : parseWordFragment mem cur length = some f) :
    0 < length ∧ ShellRest.BeginsFragment (mem cur) := by
  obtain ⟨c, hc, -⟩ := parseWordFragment_eq_some h
  rcases hc with hq | hu
  · obtain ⟨hpos, hquote, -⟩ := parseSingleQuotedString_eq_some hq
    exact ⟨hpos, .inr hquote⟩
  · obtain ⟨hpos, hord, -⟩ := parseUnquotedString_eq_some hu
    exact ⟨hpos, .inl hord⟩

theorem parseWordFrom_complete {p : Pair} (h : ShellRest .tail (span mem cur limit))
    (hp : p.stop = cur) :
    ShellRest .tail (span mem (parseWordFrom mem cur limit p).stop limit) := by
  induction cur, p using parseWordFrom.induct mem limit with
  | case1 cur p hnone =>
    rw [parseWordFrom_none hnone, hp]
    exact h
  | case2 cur p f hsome ih =>
    obtain ⟨hpos, hbegins⟩ := beginsFragment_of_some hsome
    have hlt : cur < limit := by omega
    have hword : ShellRest .word (span mem cur limit) := by
      rw [span_cons mem hlt] at h ⊢
      exact h.word_of_tail hbegins
    obtain ⟨f', hf', hrest⟩ := parseWordFragment_complete hword
    obtain rfl : f = f' := Option.some.inj (hsome.symm.trans hf')
    rw [parseWordFrom_some hsome]
    exact ih hrest rfl

theorem parseWord_complete (h : ShellRest .word (span mem cur limit)) (hle : cur ≤ limit) :
    ∃ w, parseWord mem cur (limit - cur) = some w ∧ ShellRest .tail (span mem w.stop limit) := by
  obtain ⟨f, hf, hrest⟩ := parseWordFragment_complete h
  rw [parseWord, hf]
  refine ⟨_, rfl, ?_⟩
  rw [Nat.add_sub_cancel' hle]
  exact parseWordFrom_complete hrest rfl

theorem parseRedirect_eq_none {length : Nat} (h : ShellRest.BeginsFragment (mem cur)) :
    parseRedirect mem cur length = none := by
  cases hr : parseRedirect mem cur length with
  | none => rfl
  | some r =>
    obtain ⟨-, hop, -⟩ := parseRedirect_eq_some hr
    exact absurd hop (not_or.mpr h.ne.2)

theorem parseSimpleCommandElement_complete (h : ShellRest .element (span mem cur limit))
    (hle : cur ≤ limit) :
    ∃ e, parseSimpleCommandElement mem cur (limit - cur) = some e ∧
      ShellRest .tail (span mem e.stop limit) := by
  have hroom : cur + (limit - cur) = limit := Nat.add_sub_cancel' hle
  rcases h.element_cases with ⟨c, t, heq, hop, ht⟩ | hword
  · obtain ⟨hlt, rfl, rfl⟩ := span_eq_cons heq
    have hnext : cur + 1 + (limit - (cur + 1)) = limit := by omega
    have hafter := target_scanWhile ht hlt
    obtain ⟨w, hw, hrest⟩ := parseWord_complete hafter (scanWhile_le hlt)
    have hoperator : parseRedirectOperator mem cur (limit - cur) =
        some ⟨.redirectOperator, cur, cur + 1, []⟩ := by
      rw [parseRedirectOperator, if_neg (by omega), if_neg ?_]
      rintro ⟨hl, hg⟩
      exact hop.elim hl hg
    have hredirect : parseRedirect mem cur (limit - cur) = some ⟨.redirect, cur, w.stop,
        [⟨.redirectOperator, cur, cur + 1, []⟩, w]⟩ := by
      rw [parseRedirect, hoperator]
      dsimp only [parseZms]
      rw [hroom, hnext, hw]
    rw [parseSimpleCommandElement, hredirect]
    exact ⟨_, rfl, hrest⟩
  · obtain ⟨w, hw, hrest⟩ := parseWord_complete hword hle
    have hlt : cur < limit := by
      by_contra hge
      rw [span_of_ge mem (Nat.le_of_not_lt hge)] at hword
      exact (ShellRest.elementWord hword).ne_nil_of_element rfl
    rw [span_cons mem hlt] at hword
    have hredirect : parseRedirect mem cur (limit - cur) = none :=
      parseRedirect_eq_none hword.begins_of_word
    rw [parseSimpleCommandElement, hredirect, hw]
    exact ⟨_, rfl, hrest⟩

theorem parseShellStmtFrom_complete {p : Pair} (hle : cur ≤ limit)
    (h : p.stop = limit ∧ cur = limit ∨ ShellRest .element (span mem cur limit)) :
    (parseShellStmtFrom mem cur limit p).stop = limit := by
  induction cur, p using parseShellStmtFrom.induct mem limit with
  | case1 cur p hnone =>
    rw [parseShellStmtFrom_none hnone]
    rcases h with ⟨hstop, -⟩ | helement
    · exact hstop
    · obtain ⟨e, he, -⟩ := parseSimpleCommandElement_complete helement hle
      rw [hnone] at he
      cases he
  | case2 cur p e hsome next oms ih =>
    have htakes := parseSimpleCommandElement_takes hsome
    have hlt := htakes.lt
    have hroom := htakes.le
    have hend : e.stop ≤ limit := by omega
    have hcur : oms.stop = scanWhile mem (· = space) e.stop limit := by
      dsimp only [oms, next, parseZms]
      rw [Nat.add_sub_cancel' hend]
    rw [hcur] at ih
    rw [parseShellStmtFrom_some hsome hend]
    refine ih (scanWhile_le hend) ?_
    have htail : ShellRest .tail (span mem e.stop limit) := by
      rcases h with ⟨-, hlast⟩ | helement
      · omega
      · obtain ⟨e', he', hrest⟩ := parseSimpleCommandElement_complete helement hle
        obtain rfl : e = e' := Option.some.inj (hsome.symm.trans he')
        exact hrest
    generalize hs : span mem e.stop limit = s at htail
    cases htail with
    | done =>
      have hstop : e.stop = limit := by
        by_contra hne
        rw [span_cons mem (by omega)] at hs
        cases hs
      have hge := le_scanWhile mem (· = space) e.stop limit
      have hscan : scanWhile mem (· = space) e.stop limit ≤ limit := scanWhile_le hend
      exact .inl ⟨hstop, by omega⟩
    | next hgap =>
      rw [← hs] at hgap
      exact .inr (gap_scanWhile hgap hend)

end

/-- The parser takes the whole of a text if and only if the grammar derives it. The nodes
lie in the text, the fragments of a word tile it, and a separator ends each word that
another one follows. -/
theorem parseShellStmt_grammar (mem : Nat → U8) (start length : Nat) :
    ((parseShellStmt mem start length).stop = start + length ↔
      span mem start (start + length) ∈ ShellGrammar.shellStmt) ∧
    (∀ q, (parseShellStmt mem start length).Node q →
      start ≤ q.start ∧ q.start ≤ q.stop ∧ q.stop ≤ start + length) ∧
    (∀ w, (parseShellStmt mem start length).Node w → w.type = .word →
      w.start < w.stop ∧ Tiles w.children w.start w.stop ∧
        ∀ f ∈ w.children, f.type = .wordFragment) ∧
    ∀ w w', (parseShellStmt mem start length).Node w → w.type = .word →
      (parseShellStmt mem start length).Node w' → w'.type = .word → w.start < w'.start →
        w.stop < w'.start ∧ IsSeparator (mem w.stop) := by
  have hle : start ≤ start + length := Nat.le_add_right start length
  obtain ⟨cur, h⟩ := parseShellStmtFrom_node (@StmtSoFar.init mem start (start + length) hle)
  rw [← parseShellStmt] at h
  refine ⟨⟨fun hstop => ?_, fun hs => ?_⟩, fun q hq => ?_, fun w hw hword => ?_, ?_⟩
  · rw [← hstop]
    rcases h.text with ⟨hempty, -⟩ | htext
    · rw [hempty, span_self]
      exact .inl rfl
    · exact .inr htext
  · rcases ShellRest.of_shellStmt hs with hnil | helement
    · have hzero : length = 0 := by
        by_contra hne
        rw [span_cons mem (by omega)] at hnil
        cases hnil
      have hend : start = start + length := by omega
      exact parseShellStmtFrom_complete hle (.inl ⟨hend, hend⟩)
    · exact parseShellStmtFrom_complete hle (.inr helement)
  · obtain ⟨hge, hrange, hend⟩ := h.inside q hq
    have hstart := h.at_start
    have hgap := h.gap
    have hcur := h.le
    exact ⟨by omega, hrange, by omega⟩
  · obtain ⟨hnode, -, -⟩ := h.words w hw hword
    exact ⟨hnode.lt, hnode.tiles, fun f hf => (hnode.fragments f hf).type⟩
  · intro w w' hw hword hw' hword' hbefore
    have hapart := h.apart w w' hw hword hw' hword' hbefore
    obtain ⟨hnode, -, -⟩ := h.words w' hw' hword'
    obtain ⟨-, -, hsep⟩ := h.words w hw hword
    obtain ⟨-, hstop, -⟩ := h.words w' hw' hword'
    have hlt := hnode.lt
    exact ⟨hapart, hsep (by omega)⟩

end Persistos
