import Persistos.Word
import Persistos.Theory.Languages
import Persistos.Theory.Overlay

/-! The parser of the shell. It reads a line of a given length from memory and looks at
one byte behind it, whose value does not matter. -/

namespace Persistos

open Theory

def space : U8 := 0x20
def newline : U8 := 0x0A
def singleQuote : U8 := 0x27
def lessThan : U8 := 0x3C
def greaterThan : U8 := 0x3E

inductive PairType where
  | oms
  | unquotedString
  | shellStmt
  | quotedString
  | quotedStringContent
  | wordFragment
  | word
  | simpleCommandElement
  | redirect
  | redirectOperator
  deriving DecidableEq, Repr

/-- `struct pair`, with the children that its links lead to. -/
structure Pair where
  type : PairType
  start : Nat
  stop : Nat
  children : List Pair

def isOrdinaryCharacter (c : U8) : Prop :=
  c ≠ 0 ∧ c ≠ newline ∧ c ≠ singleQuote ∧ c ≠ space ∧ c ≠ lessThan ∧ c ≠ greaterThan

instance (c : U8) : Decidable (isOrdinaryCharacter c) := inferInstanceAs (Decidable (_ ∧ _))

/-- The loop that goes on while the bytes are of a kind. The byte is read before the
bound is checked. -/
def scanWhile (mem : Nat → U8) (p : U8 → Prop) [DecidablePred p] (cur limit : Nat) : Nat :=
  if p (mem cur) ∧ cur < limit then scanWhile mem p (cur + 1) limit else cur
termination_by limit - cur

def parseZms (mem : Nat → U8) (start length : Nat) : Pair :=
  ⟨.oms, start, scanWhile mem (· = space) start (start + length), []⟩

def parseRedirectOperator (mem : Nat → U8) (start length : Nat) : Option Pair :=
  if length = 0 then none
  else if mem start ≠ lessThan ∧ mem start ≠ greaterThan then none
  else some ⟨.redirectOperator, start, start + 1, []⟩

def parseUnquotedString (mem : Nat → U8) (start length : Nat) : Option Pair :=
  if length = 0 ∨ ¬isOrdinaryCharacter (mem start) then none
  else
    some ⟨.unquotedString, start,
      scanWhile mem isOrdinaryCharacter (start + 1) (start + length), []⟩

/-- The loop of `parse_single_quoted_string`, from a byte that it has read on. -/
def closingQuote (mem : Nat → U8) (cur limit : Nat) : Option Nat :=
  if cur + 1 ≥ limit then none
  else if mem (cur + 1) ≠ singleQuote then closingQuote mem (cur + 1) limit
  else some (cur + 1)
termination_by limit - cur

def parseSingleQuotedString (mem : Nat → U8) (start length : Nat) : Option Pair :=
  if length = 0 ∨ mem start ≠ singleQuote then none
  else
    match closingQuote mem start (start + length) with
    | none => none
    | some cur =>
      let contentPair := ⟨.quotedStringContent, start + 1, cur, []⟩
      some ⟨.quotedString, start, cur + 1, [contentPair]⟩

def parseWordFragment (mem : Nat → U8) (start length : Nat) : Option Pair :=
  match (parseSingleQuotedString mem start length).or (parseUnquotedString mem start length) with
  | none => none
  | some childPair => some ⟨.wordFragment, childPair.start, childPair.stop, [childPair]⟩

theorem le_scanWhile (mem : Nat → U8) (p : U8 → Prop) [DecidablePred p] (cur limit : Nat) :
    cur ≤ scanWhile mem p cur limit := by
  induction cur using scanWhile.induct mem p limit with
  | case1 cur h ih =>
    rw [scanWhile, if_pos h]
    omega
  | case2 cur h => rw [scanWhile, if_neg h]

theorem closingQuote_lt {mem : Nat → U8} {cur limit q : Nat}
    (h : closingQuote mem cur limit = some q) : cur < q ∧ q < limit := by
  induction cur using closingQuote.induct mem limit with
  | case1 cur hge =>
    rw [closingQuote, if_pos hge] at h
    cases h
  | case2 cur hlt hne ih =>
    rw [closingQuote, if_neg hlt, if_pos hne] at h
    obtain ⟨hq, hl⟩ := ih h
    omega
  | case3 cur hlt heq =>
    rw [closingQuote, if_neg hlt, if_neg heq] at h
    obtain rfl := Option.some.inj h
    omega

theorem scanWhile_le {mem : Nat → U8} {p : U8 → Prop} [DecidablePred p] {cur limit : Nat}
    (h : cur ≤ limit) : scanWhile mem p cur limit ≤ limit := by
  induction cur using scanWhile.induct mem p limit with
  | case1 cur hp ih =>
    rw [scanWhile, if_pos hp]
    exact ih hp.2
  | case2 cur hp => rwa [scanWhile, if_neg hp]

/-- A node that starts where it was looked for and takes bytes of what there was. -/
structure Pair.Takes (p : Pair) (start length : Nat) : Prop where
  at_start : p.start = start
  lt : start < p.stop
  le : p.stop ≤ start + length

section

variable {mem : Nat → U8} {start length : Nat} {p : Pair}

theorem parseUnquotedString_eq_some (h : parseUnquotedString mem start length = some p) :
    0 < length ∧ isOrdinaryCharacter (mem start) ∧
      p = ⟨.unquotedString, start,
        scanWhile mem isOrdinaryCharacter (start + 1) (start + length), []⟩ := by
  rw [parseUnquotedString] at h
  split at h
  · cases h
  · next hne =>
    obtain ⟨hlength, hord⟩ := not_or.mp hne
    exact ⟨Nat.pos_of_ne_zero hlength, not_not.mp hord, (Option.some.inj h).symm⟩

theorem parseSingleQuotedString_eq_some (h : parseSingleQuotedString mem start length = some p) :
    0 < length ∧ mem start = singleQuote ∧ ∃ q, closingQuote mem start (start + length) = some q ∧
      p = ⟨.quotedString, start, q + 1, [⟨.quotedStringContent, start + 1, q, []⟩]⟩ := by
  rw [parseSingleQuotedString] at h
  split at h
  · cases h
  · next hne =>
    obtain ⟨hlength, hquote⟩ := not_or.mp hne
    cases hq : closingQuote mem start (start + length) with
    | none =>
      rw [hq] at h
      cases h
    | some q =>
      rw [hq] at h
      exact ⟨Nat.pos_of_ne_zero hlength, not_not.mp hquote, q, rfl, (Option.some.inj h).symm⟩

theorem parseUnquotedString_takes (h : parseUnquotedString mem start length = some p) :
    p.Takes start length := by
  obtain ⟨hpos, -, rfl⟩ := parseUnquotedString_eq_some h
  exact ⟨rfl, le_scanWhile mem _ (start + 1) _, scanWhile_le (by omega)⟩

theorem parseSingleQuotedString_takes (h : parseSingleQuotedString mem start length = some p) :
    p.Takes start length := by
  obtain ⟨-, -, q, hq, rfl⟩ := parseSingleQuotedString_eq_some h
  obtain ⟨hlt, hle⟩ := closingQuote_lt hq
  exact ⟨rfl, Nat.lt_succ_of_lt hlt, hle⟩

theorem parseWordFragment_eq_some (h : parseWordFragment mem start length = some p) :
    ∃ c, (parseSingleQuotedString mem start length = some c ∨
        parseUnquotedString mem start length = some c) ∧
      p = ⟨.wordFragment, c.start, c.stop, [c]⟩ := by
  rw [parseWordFragment] at h
  cases hq : parseSingleQuotedString mem start length with
  | some c =>
    rw [hq] at h
    exact ⟨c, .inl rfl, (Option.some.inj h).symm⟩
  | none =>
    rw [hq] at h
    cases hu : parseUnquotedString mem start length with
    | some c =>
      rw [hu] at h
      exact ⟨c, .inr rfl, (Option.some.inj h).symm⟩
    | none =>
      rw [hu] at h
      cases h

theorem parseWordFragment_takes (h : parseWordFragment mem start length = some p) :
    p.Takes start length := by
  obtain ⟨c, hc, rfl⟩ := parseWordFragment_eq_some h
  have htakes : c.Takes start length := by
    rcases hc with hq | hu
    · exact parseSingleQuotedString_takes hq
    · exact parseUnquotedString_takes hu
  exact ⟨htakes.at_start, htakes.lt, htakes.le⟩

end

/-- The loop of `parse_word`, with the word so far. -/
def parseWordFrom (mem : Nat → U8) (cur maxEnd : Nat) (pair : Pair) : Pair :=
  match _h : parseWordFragment mem cur (maxEnd - cur) with
  | none => pair
  | some wordFragment =>
    parseWordFrom mem wordFragment.stop maxEnd
      { pair with stop := wordFragment.stop, children := pair.children ++ [wordFragment] }
termination_by maxEnd - cur
decreasing_by
  have htakes := parseWordFragment_takes _h
  have hlt := htakes.lt
  have hle := htakes.le
  omega

def parseWord (mem : Nat → U8) (start length : Nat) : Option Pair :=
  match parseWordFragment mem start length with
  | none => none
  | some wordFragment =>
    let pair := ⟨.word, wordFragment.start, wordFragment.stop, [wordFragment]⟩
    some (parseWordFrom mem wordFragment.stop (start + length) pair)

def parseRedirect (mem : Nat → U8) (start length : Nat) : Option Pair :=
  let maxEnd := start + length
  match parseRedirectOperator mem start length with
  | none => none
  | some redirectOperatorPair =>
    let cur := redirectOperatorPair.stop
    let zmsPair := parseZms mem cur (maxEnd - cur)
    let cur := zmsPair.stop
    match parseWord mem cur (maxEnd - cur) with
    | none => none
    | some wordPair =>
      some ⟨.redirect, start, wordPair.stop, [redirectOperatorPair, wordPair]⟩

def parseSimpleCommandElement (mem : Nat → U8) (start length : Nat) : Option Pair :=
  match (parseRedirect mem start length).or (parseWord mem start length) with
  | none => none
  | some pair => some ⟨.simpleCommandElement, pair.start, pair.stop, [pair]⟩

section

variable {mem : Nat → U8} {start length : Nat} {p : Pair}

theorem parseWordFrom_none {cur maxEnd : Nat}
    (h : parseWordFragment mem cur (maxEnd - cur) = none) :
    parseWordFrom mem cur maxEnd p = p := by
  rw [parseWordFrom]
  split
  · rfl
  · next hf =>
    rw [h] at hf
    cases hf

theorem parseWordFrom_some {cur maxEnd : Nat} {f : Pair}
    (h : parseWordFragment mem cur (maxEnd - cur) = some f) :
    parseWordFrom mem cur maxEnd p =
      parseWordFrom mem f.stop maxEnd { p with stop := f.stop, children := p.children ++ [f] } := by
  rw [parseWordFrom]
  split
  · next hf =>
    rw [h] at hf
    cases hf
  · next hf =>
    rw [h] at hf
    obtain rfl := Option.some.inj hf
    rfl

theorem parseWordFrom_takes {cur maxEnd : Nat} (hle : cur ≤ maxEnd) (hp : p.stop = cur) :
    (parseWordFrom mem cur maxEnd p).start = p.start ∧
      cur ≤ (parseWordFrom mem cur maxEnd p).stop ∧
      (parseWordFrom mem cur maxEnd p).stop ≤ maxEnd := by
  induction cur, p using parseWordFrom.induct mem maxEnd with
  | case1 cur p h =>
    rw [parseWordFrom_none h]
    exact ⟨rfl, by omega, by omega⟩
  | case2 cur p f h ih =>
    have htakes := parseWordFragment_takes h
    have hlt := htakes.lt
    have hstop := htakes.le
    obtain ⟨hstart, hge, hend⟩ := ih (by omega : f.stop ≤ maxEnd) rfl
    rw [parseWordFrom_some h]
    exact ⟨hstart, by omega, hend⟩

theorem parseWord_takes (h : parseWord mem start length = some p) : p.Takes start length := by
  rw [parseWord] at h
  cases hf : parseWordFragment mem start length with
  | none =>
    rw [hf] at h
    cases h
  | some f =>
    rw [hf] at h
    obtain rfl := Option.some.inj h
    have htakes := parseWordFragment_takes hf
    obtain ⟨hstart, hge, hend⟩ := @parseWordFrom_takes mem ⟨.word, f.start, f.stop, [f]⟩ f.stop
      (start + length) htakes.le rfl
    exact ⟨hstart.trans htakes.at_start, Nat.lt_of_lt_of_le htakes.lt hge, hend⟩

/-- What a redirect is made of. -/
theorem parseRedirect_eq_some (h : parseRedirect mem start length = some p) :
    0 < length ∧ (mem start = lessThan ∨ mem start = greaterThan) ∧
      ∃ cur word, cur = scanWhile mem (· = space) (start + 1) (start + length) ∧
        parseWord mem cur (start + length - cur) = some word ∧
        p = ⟨.redirect, start, word.stop, [⟨.redirectOperator, start, start + 1, []⟩, word]⟩ := by
  rw [parseRedirect, parseRedirectOperator] at h
  by_cases hlength : length = 0
  · rw [if_pos hlength] at h
    cases h
  · by_cases hop : mem start ≠ lessThan ∧ mem start ≠ greaterThan
    · rw [if_neg hlength, if_pos hop] at h
      cases h
    · have hroom : start + 1 + (start + length - (start + 1)) = start + length := by omega
      rw [if_neg hlength, if_neg hop] at h
      dsimp only [parseZms] at h
      rw [hroom] at h
      cases hw : parseWord mem (scanWhile mem (· = space) (start + 1) (start + length))
          (start + length - scanWhile mem (· = space) (start + 1) (start + length)) with
      | none =>
        rw [hw] at h
        cases h
      | some word =>
        rw [hw] at h
        refine ⟨Nat.pos_of_ne_zero hlength, ?_, _, word, rfl, hw, (Option.some.inj h).symm⟩
        by_contra hneither
        exact hop ⟨fun hl => hneither (.inl hl), fun hg => hneither (.inr hg)⟩

theorem parseRedirect_takes (h : parseRedirect mem start length = some p) :
    p.Takes start length := by
  obtain ⟨hpos, -, cur, word, hcur, hword, rfl⟩ := parseRedirect_eq_some h
  have hge := le_scanWhile mem (· = space) (start + 1) (start + length)
  have hle : scanWhile mem (· = space) (start + 1) (start + length) ≤ start + length :=
    scanWhile_le (by omega)
  have htakes := parseWord_takes hword
  have hlt := htakes.lt
  have hstop := htakes.le
  exact ⟨rfl, by dsimp only; omega, by dsimp only; omega⟩

theorem parseSimpleCommandElement_eq_some
    (h : parseSimpleCommandElement mem start length = some p) :
    ∃ c, (parseRedirect mem start length = some c ∨
        parseRedirect mem start length = none ∧ parseWord mem start length = some c) ∧
      p = ⟨.simpleCommandElement, c.start, c.stop, [c]⟩ := by
  rw [parseSimpleCommandElement] at h
  cases hr : parseRedirect mem start length with
  | some c =>
    rw [hr] at h
    exact ⟨c, .inl rfl, (Option.some.inj h).symm⟩
  | none =>
    rw [hr] at h
    cases hw : parseWord mem start length with
    | some c =>
      rw [hw] at h
      exact ⟨c, .inr ⟨rfl, rfl⟩, (Option.some.inj h).symm⟩
    | none =>
      rw [hw] at h
      cases h

theorem parseSimpleCommandElement_takes
    (h : parseSimpleCommandElement mem start length = some p) : p.Takes start length := by
  obtain ⟨c, hc, rfl⟩ := parseSimpleCommandElement_eq_some h
  have htakes : c.Takes start length := by
    rcases hc with hr | ⟨-, hw⟩
    · exact parseRedirect_takes hr
    · exact parseWord_takes hw
  exact ⟨htakes.at_start, htakes.lt, htakes.le⟩

end

/-- The loop of `parse_shell_stmt`, with the statement so far. -/
def parseShellStmtFrom (mem : Nat → U8) (cur maxEnd : Nat) (pair : Pair) : Pair :=
  match _h : parseSimpleCommandElement mem cur (maxEnd - cur) with
  | none => pair
  | some sceResult =>
    let cur := sceResult.stop
    let omsResult := parseZms mem cur (maxEnd - cur)
    parseShellStmtFrom mem omsResult.stop maxEnd
      { pair with stop := sceResult.stop, children := pair.children ++ [sceResult] }
termination_by maxEnd - cur
decreasing_by
  have htakes := parseSimpleCommandElement_takes _h
  have hlt := htakes.lt
  have hle := htakes.le
  have hge := le_scanWhile mem (· = space) sceResult.stop
    (sceResult.stop + (maxEnd - sceResult.stop))
  dsimp only [parseZms]
  omega

def parseShellStmt (mem : Nat → U8) (start length : Nat) : Pair :=
  parseShellStmtFrom mem start (start + length) ⟨.shellStmt, start, start, []⟩

section

variable {mem : Nat → U8} {cur maxEnd : Nat} {p : Pair}

theorem parseShellStmtFrom_none (h : parseSimpleCommandElement mem cur (maxEnd - cur) = none) :
    parseShellStmtFrom mem cur maxEnd p = p := by
  rw [parseShellStmtFrom]
  split
  · rfl
  · next he =>
    rw [h] at he
    cases he

theorem parseShellStmtFrom_some {e : Pair}
    (h : parseSimpleCommandElement mem cur (maxEnd - cur) = some e) (hle : e.stop ≤ maxEnd) :
    parseShellStmtFrom mem cur maxEnd p =
      parseShellStmtFrom mem (scanWhile mem (· = space) e.stop maxEnd) maxEnd
        { p with stop := e.stop, children := p.children ++ [e] } := by
  rw [parseShellStmtFrom]
  split
  · next he =>
    rw [h] at he
    cases he
  · next he =>
    rw [h] at he
    obtain rfl := Option.some.inj he
    dsimp only [parseZms]
    rw [Nat.add_sub_cancel' hle]

end

end Persistos
