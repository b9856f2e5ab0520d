import Persistos.ShellAccepts

/-! Lines of words, each cut into pieces that are quoted or bare, and what the parser of the
shell makes of them. -/

namespace Persistos

open Theory

/-- A part of a word, in single quotes or bare. -/
inductive ShellPiece where
  | quoted (content : List U8) (no_quote : ∀ c ∈ content, c ≠ singleQuote)
  | bare (content : List U8) (nonempty : content ≠ [])
      (ordinary : ∀ c ∈ content, isOrdinaryCharacter c)

namespace ShellPiece

def content : ShellPiece → List U8
  | quoted content _ => content
  | bare content _ _ => content

def text : ShellPiece → List U8
  | quoted content _ => singleQuote :: (content ++ [singleQuote])
  | bare content _ _ => content

end ShellPiece

/-- An argument with a way to quote it. -/
structure ShellWord where
  pieces : List ShellPiece
  nonempty : pieces ≠ []

namespace ShellWord

def argument (w : ShellWord) : List U8 := w.pieces.flatMap ShellPiece.content

def text (w : ShellWord) : List U8 := w.pieces.flatMap ShellPiece.text

end ShellWord

/-- A line of words. The first word stands alone, and each of the others with the number of
spaces before it, less one. -/
structure ShellLine where
  first : ShellWord
  others : List (Nat × ShellWord)

/-- The words behind the first one, with the spaces before them. -/
def othersText (others : List (Nat × ShellWord)) : List U8 :=
  others.flatMap fun w => List.replicate (w.1 + 1) space ++ w.2.text

namespace ShellLine

def words (l : ShellLine) : List ShellWord := l.first :: l.others.map Prod.snd

def text (l : ShellLine) : List U8 := l.first.text ++ othersText l.others

end ShellLine

/-- A text of ordinary characters and quoted strings. -/
inductive WordText : List U8 → Prop
  | nil : WordText []
  | ordinary {c : U8} {s : List U8} (is_ordinary : isOrdinaryCharacter c) (rest : WordText s) :
      WordText (c :: s)
  | quoted {body s : List U8} (content : ∀ c ∈ body, c ≠ singleQuote) (rest : WordText s) :
      WordText (singleQuote :: (body ++ singleQuote :: s))

theorem ShellPiece.wordText_append (p : ShellPiece) {s : List U8} (h : WordText s) :
    WordText (p.text ++ s) := by
  cases p with
  | quoted content hcontent =>
    have hquoted := WordText.quoted hcontent h
    simpa [ShellPiece.text] using hquoted
  | bare content hne hall =>
    rw [ShellPiece.text]
    clear hne
    induction content with
    | nil => exact h
    | cons c content ih =>
      obtain ⟨hc, hrest⟩ := List.forall_mem_cons.mp hall
      exact .ordinary hc (ih hrest)

theorem ShellWord.wordText (w : ShellWord) : WordText w.text := by
  rw [ShellWord.text]
  generalize w.pieces = pieces
  induction pieces with
  | nil => exact .nil
  | cons p pieces ih => exact p.wordText_append ih

/-- Without the quotes a word is its argument. -/
theorem ShellWord.filter_text (w : ShellWord) :
    w.text.filter (· ≠ singleQuote) = w.argument := by
  rw [ShellWord.text, ShellWord.argument, List.filter_flatMap]
  congr 1
  funext p
  cases p with
  | quoted content hcontent =>
    have hkeep : content.filter (· ≠ singleQuote) = content := by
      rw [List.filter_eq_self]
      exact fun c hc => decide_eq_true (hcontent c hc)
    simpa [ShellPiece.text, ShellPiece.content] using hkeep
  | bare content hne hall =>
    rw [ShellPiece.text, ShellPiece.content, List.filter_eq_self]
    exact fun c hc => decide_eq_true (hall c hc).2.2.1

/-- The text does not go on with a fragment. -/
def EndsWord (t : List U8) : Prop := ∀ c ∈ t.head?, ¬ShellRest.BeginsFragment c

section

variable {mem : Nat → U8} {cur limit : Nat} {s t : List U8}

theorem wordText_scanWhile (hs : WordText s) (ht : EndsWord t) (h : span mem cur limit = s ++ t) :
    ∃ s', WordText s' ∧
      span mem (scanWhile mem isOrdinaryCharacter cur limit) limit = s' ++ t := by
  induction cur using scanWhile.induct mem isOrdinaryCharacter limit generalizing s with
  | case1 cur hp ih =>
    rw [span_cons mem hp.2] at h
    rw [scanWhile, if_pos hp]
    cases hs with
    | nil =>
      rw [List.nil_append] at h
      exact absurd (.inl hp.1) (ht (mem cur) (by rw [← h]; rfl))
    | ordinary hc hrest => exact ih hrest (List.cons.inj h).2
    | quoted hbody hrest => exact absurd (List.cons.inj h).1 hp.1.2.2.1
  | case2 cur hp =>
    rw [scanWhile, if_neg hp]
    exact ⟨s, hs, h⟩

theorem parseWordFragment_wordText (hs : WordText s) (hne : s ≠ []) (ht : EndsWord t)
    (h : span mem cur limit = s ++ t) :
    ∃ f s', parseWordFragment mem cur (limit - cur) = some f ∧ WordText s' ∧
      span mem f.stop limit = s' ++ t := by
  cases hs with
  | nil => exact absurd rfl hne
  | ordinary hc hrest =>
    obtain ⟨hlt, rfl, hnext⟩ := span_eq_cons h
    obtain ⟨s', hs', hafter⟩ := wordText_scanWhile hrest ht hnext
    exact ⟨_, s', parseWordFragment_ordinary hlt hc, hs', hafter⟩
  | quoted hbody hrest =>
    rw [List.cons_append, List.append_assoc] at h
    obtain ⟨hlt, hquote, hnext⟩ := span_eq_cons h
    obtain ⟨q, hq, hafter⟩ := closingQuote_eq hnext hbody
    exact ⟨_, _, parseWordFragment_quoted hlt hquote hq, hrest, hafter⟩

theorem parseWordFrom_wordText {p : Pair} (hs : WordText s) (ht : EndsWord t)
    (h : span mem cur limit = s ++ t) (hp : p.stop = cur) :
    span mem (parseWordFrom mem cur limit p).stop limit = t := by
  induction cur, p using parseWordFrom.induct mem limit generalizing s with
  | case1 cur p hnone =>
    rw [parseWordFrom_none hnone, hp, h]
    by_cases hne : s = []
    · rw [hne, List.nil_append]
    · obtain ⟨f, s', hf, -⟩ := parseWordFragment_wordText hs hne ht h
      rw [hnone] at hf
      cases hf
  | case2 cur p f hsome ih =>
    rw [parseWordFrom_some hsome]
    have hne : s ≠ [] := by
      rintro rfl
      obtain ⟨hpos, hbegins⟩ := beginsFragment_of_some hsome
      rw [List.nil_append] at h
      exact ht (mem cur) (by rw [← h, span_cons mem (by omega)]; rfl) hbegins
    obtain ⟨f', s', hf, hs', hafter⟩ := parseWordFragment_wordText hs hne ht h
    obtain rfl : f = f' := Option.some.inj (hsome.symm.trans hf)
    exact ih hs' hafter rfl

theorem parseWord_wordText (hs : WordText s) (hne : s ≠ []) (ht : EndsWord t)
    (h : span mem cur limit = s ++ t) (hle : cur ≤ limit) :
    ∃ w, parseWord mem cur (limit - cur) = some w ∧ span mem cur w.stop = s ∧
      span mem w.stop limit = t := by
  obtain ⟨f, s', hf, hs', hafter⟩ := parseWordFragment_wordText hs hne ht h
  have hword : parseWord mem cur (limit - cur) =
      some (parseWordFrom mem f.stop limit ⟨.word, f.start, f.stop, [f]⟩) := by
    rw [parseWord, hf, Nat.add_sub_cancel' hle]
  refine ⟨_, hword, ?_⟩
  have htakes := parseWord_takes hword
  have hroom := htakes.le
  rw [Nat.add_sub_cancel' hle] at hroom
  have hrest := parseWordFrom_wordText (p := ⟨.word, f.start, f.stop, [f]⟩) hs' ht hafter rfl
  refine ⟨?_, hrest⟩
  rw [span_append mem (Nat.le_of_lt htakes.lt) hroom, hrest] at h
  exact List.append_cancel_right h

theorem WordText.begins {c : U8} (h : WordText (c :: s)) : ShellRest.BeginsFragment c := by
  cases h with
  | ordinary hc => exact .inl hc
  | quoted => exact .inr rfl

theorem scanWhile_spaces {n : Nat} (hs : s.head? ≠ some space)
    (h : span mem cur limit = List.replicate n space ++ s) :
    span mem (scanWhile mem (· = space) cur limit) limit = s := by
  induction n generalizing cur with
  | zero =>
    have hstop : ¬(mem cur = space ∧ cur < limit) := by
      rintro ⟨hspace, hlt⟩
      rw [span_cons mem hlt, hspace] at h
      rw [List.replicate_zero, List.nil_append] at h
      rw [← h] at hs
      exact hs rfl
    rw [scanWhile, if_neg hstop]
    exact h
  | succ n ih =>
    rw [List.replicate_succ, List.cons_append] at h
    obtain ⟨hlt, hspace, hrest⟩ := span_eq_cons h
    rw [scanWhile, if_pos ⟨hspace, hlt⟩]
    exact ih hrest

end

theorem ShellWord.text_ne_nil (w : ShellWord) : w.text ≠ [] := by
  intro hnil
  have hall := List.flatMap_eq_nil_iff.mp hnil
  obtain ⟨p, hp⟩ := List.exists_mem_of_ne_nil w.pieces w.nonempty
  have htext := hall p hp
  cases p with
  | quoted content hcontent => cases htext
  | bare content hne hcontent => exact hne htext

theorem ShellWord.exists_cons (w : ShellWord) :
    ∃ c s, w.text = c :: s ∧ ShellRest.BeginsFragment c := by
  obtain ⟨c, s, hcons⟩ := List.exists_cons_of_ne_nil w.text_ne_nil
  have hword := w.wordText
  rw [hcons] at hword
  exact ⟨c, s, hcons, hword.begins⟩

theorem endsWord_othersText (others : List (Nat × ShellWord)) : EndsWord (othersText others) := by
  intro c hc
  cases others with
  | nil => cases hc
  | cons w others =>
    rw [othersText, List.flatMap_cons, List.replicate_succ] at hc
    obtain rfl : space = c := Option.some.inj hc
    exact fun hbegins => hbegins.ne.1 rfl

/-- An element of a parsed statement that is a word with a given text. -/
structure WordElement (mem : Nat → U8) (start limit : Nat) (w : ShellWord) (e : Pair) :
    Prop where
  type : e.type = .simpleCommandElement
  child : ∃ p, e.children = [p] ∧ start ≤ p.start ∧ WordNode mem limit p ∧
    span mem p.start p.stop = w.text

section

variable {mem : Nat → U8} {start cur limit : Nat} {t : List U8}

theorem parseSimpleCommandElement_word {w : ShellWord} (ht : EndsWord t)
    (h : span mem cur limit = w.text ++ t) (hge : start ≤ cur) (hle : cur ≤ limit) :
    ∃ e, parseSimpleCommandElement mem cur (limit - cur) = some e ∧ cur ≤ e.stop ∧
      e.stop ≤ limit ∧ WordElement mem start limit w e ∧ span mem e.stop limit = t := by
  obtain ⟨p, hp, htext, hrest⟩ := parseWord_wordText w.wordText w.text_ne_nil ht h hle
  obtain ⟨c, s, hcons, hbegins⟩ := w.exists_cons
  have htakes := parseWord_takes hp
  have hnode := parseWord_node hp
  have hredirect : parseRedirect mem cur (limit - cur) = none := by
    rw [hcons, List.cons_append] at h
    obtain ⟨-, rfl, -⟩ := span_eq_cons h
    exact parseRedirect_eq_none hbegins
  rw [Nat.add_sub_cancel' hle] at hnode
  have helement : parseSimpleCommandElement mem cur (limit - cur) =
      some ⟨.simpleCommandElement, p.start, p.stop, [p]⟩ := by
    rw [parseSimpleCommandElement, hredirect, hp]
    rfl
  have hstart := htakes.at_start
  refine ⟨_, helement, Nat.le_of_lt htakes.lt, hnode.le,
    ⟨rfl, p, rfl, hstart.symm ▸ hge, hnode, ?_⟩, hrest⟩
  rw [hstart]
  exact htext

/-- The parser makes an element of each word that is left. -/
theorem parseShellStmtFrom_words {w : ShellWord} {others : List (Nat × ShellWord)} {p : Pair}
    (h : span mem cur limit = w.text ++ othersText others) (hge : start ≤ cur)
    (hle : cur ≤ limit) :
    (parseShellStmtFrom mem cur limit p).stop = limit ∧
      ∃ elements, (parseShellStmtFrom mem cur limit p).children = p.children ++ elements ∧
        List.Forall₂ (WordElement mem start limit) (w :: others.map Prod.snd) elements := by
  obtain ⟨e, he, hcur, hend, helement, hrest⟩ :=
    parseSimpleCommandElement_word (endsWord_othersText others) h hge hle
  rw [parseShellStmtFrom_some he hend]
  induction others generalizing w cur p e with
  | nil =>
    have hstop : e.stop = limit := by
      by_contra hne
      rw [span_cons mem (by omega)] at hrest
      cases hrest
    have hge := le_scanWhile mem (· = space) e.stop limit
    have hscan : scanWhile mem (· = space) e.stop limit ≤ limit := scanWhile_le hend
    have hnone : parseSimpleCommandElement mem (scanWhile mem (· = space) e.stop limit)
        (limit - scanWhile mem (· = space) e.stop limit) = none := by
      cases hsome : parseSimpleCommandElement mem (scanWhile mem (· = space) e.stop limit)
          (limit - scanWhile mem (· = space) e.stop limit) with
      | none => rfl
      | some e' =>
        have htakes := parseSimpleCommandElement_takes hsome
        have hlt := htakes.lt
        have hroom := htakes.le
        omega
    rw [parseShellStmtFrom_none hnone]
    exact ⟨hstop, [e], rfl, .cons helement .nil⟩
  | cons next others ih =>
    have hspaces : span mem e.stop limit =
        List.replicate (next.1 + 1) space ++ (next.2.text ++ othersText others) := by
      rw [hrest, othersText, List.flatMap_cons, List.append_assoc]
      rfl
    have hhead : (next.2.text ++ othersText others).head? ≠ some space := by
      obtain ⟨c, s, hcons, hbegins⟩ := next.2.exists_cons
      rw [hcons]
      exact fun hc => hbegins.ne.1 (Option.some.inj hc)
    have hnext := scanWhile_spaces hhead hspaces
    have hle' : scanWhile mem (· = space) e.stop limit ≤ limit := scanWhile_le hend
    have hge' := le_scanWhile mem (· = space) e.stop limit
    have hstart : start ≤ scanWhile mem (· = space) e.stop limit := by omega
    obtain ⟨e', he', hcur', hend', helement', hrest'⟩ :=
      parseSimpleCommandElement_word (endsWord_othersText others) hnext hstart hle'
    obtain ⟨hstop, elements, hchildren, hall⟩ :=
      ih hnext hstart hle' e' he' hcur' hend' helement' hrest'
    rw [parseShellStmtFrom_some he' hend']
    refine ⟨hstop, e :: elements, ?_, .cons helement hall⟩
    rw [hchildren, List.append_assoc]
    rfl

end

/-- The parser takes a line of words as a whole, with an element for each word. -/
theorem parseShellStmt_words {mem : Nat → U8} {start length : Nat} {l : ShellLine}
    (h : span mem start (start + length) = l.text) :
    (parseShellStmt mem start length).stop = start + length ∧
      List.Forall₂ (WordElement mem start (start + length)) l.words
        (parseShellStmt mem start length).children := by
  obtain ⟨hstop, elements, hchildren, hall⟩ := parseShellStmtFrom_words
    (p := ⟨.shellStmt, start, start, []⟩) h (Nat.le_refl start) (Nat.le_add_right start length)
  refine ⟨hstop, ?_⟩
  rw [parseShellStmt, hchildren]
  exact hall

end Persistos
