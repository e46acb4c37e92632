import GameSchema.Proofs.Token.LineCursor

/-!
# The lexical grammar

The lexical elements of the language and the words that each of them holds, said without a reader. A
text is cut into elements with the text behind each of them in sight, since a word or a version
number ends only where what follows does not go on with it. The text of the lines of a source is a
concatenation of elements exactly when it is read, and then the tokens are the words of the
elements; otherwise reading stops behind the last element, where no further one starts.
-/

namespace GameSchema
open Scan

/-- What a token says, wherever it stands. -/
def Token.content (t : Token) : TokenKind × String := (t.kind, t.lexeme)

namespace LexicalGrammar

section Elements

/-- The kind of a word is the one that the table of keywords gives it, and a word that is not in the
table is an identifier. -/
inductive IsWordKind (w : String) : TokenKind → Prop
  | keyword {k} (h : (w, k) ∈ keywords) : IsWordKind w k
  | identifier (h : ∀ k, (w, k) ∉ keywords) : IsWordKind w .identifier

def layout : List Char := [' ', '\t', '\r', '\n', '\uFEFF']

def punctuation : List (Char × TokenKind) :=
  [('{', .openCurly), ('}', .closeCurly), (':', .colon), (',', .comma), ('<', .less),
    ('>', .greater)]

/-- One part of a version number. -/
def IsNumber (ds : List Char) : Prop := ds ≠ [] ∧ ∀ d ∈ ds, d.isDigit = true

/-- The parts of a version number behind the first one, each with its dot. -/
def dotted (parts : List (List Char)) : List Char := parts.flatMap ('.' :: ·)

/-- What the characters of a comment are read as, from left to right. -/
inductive Mark where
  | opening | closing
  | plain (c : Char)

def marks : List Char → List Mark
  | [] => []
  | '/' :: '*' :: cs => .opening :: marks cs
  | '*' :: '/' :: cs => .closing :: marks cs
  | c :: cs => .plain c :: marks cs

@[simp] def Mark.depth : Mark → Int
  | opening => 1
  | closing => -1
  | plain _ => 0

/-- The number of openings less the number of closings. -/
def nesting (ms : List Mark) : Int := (ms.map Mark.depth).sum

/-- A text from an opening to the closing at which the number of openings less closings is zero for
the first time. -/
structure IsBlockComment (w : List Char) : Prop where
  opens : ['/', '*'] <+: w
  returns : nesting (marks w) = 0
  first : ∀ ms, ms <+: marks w → ms ≠ [] → ms ≠ marks w → 0 < nesting ms

def Mark.char? : Mark → Option Char
  | plain c => some c
  | _ => none

/-- What a line of a block comment says: the line without its markers and the blanks around it, and
without one star in front and the blanks around that. -/
def lineText (l : List Char) : List Char :=
  match Text.trim ((marks l).filterMap Mark.char?) with
  | '*' :: cs => Text.trim cs
  | cs => cs

/-- The word of a line of a block comment, or `none` for a line that says nothing. -/
def lineWord? (l : List Char) : Option (TokenKind × String) :=
  if lineText l = [] then none else some (.comment, String.ofList (lineText l))

/-- The characters of the first list are a lexical element if those of the second list follow, and
hold the given words. -/
inductive IsElement : List Char → List Char → List (TokenKind × String) → Prop
  | layout {c rest} (h : c ∈ layout) : IsElement [c] rest []
  | punctuation {c k rest} (h : (c, k) ∈ punctuation) : IsElement [c] rest [(k, c.toString)]
  | word {w k rest} (h : IsWord w) (hk : IsWordKind w k)
      (hrest : ∀ c ∈ rest.head?, isWordPart c = false) : IsElement w.toList rest [(k, w)]
  | versionNumber {major minor rest} (hmajor : IsNumber major) (hminor : ∀ ds ∈ minor, IsNumber ds)
      (hlength : minor.length ≤ 2) (hdigit : ∀ c ∈ rest.head?, c.isDigit = false)
      (hdot : minor.length < 2 → rest.head? ≠ some '.') :
      IsElement (major ++ dotted minor) rest
        [(.versionNumber, String.ofList (major ++ dotted minor))]
  | lineComment {raw rest} (hraw : '\n' ∉ raw) (hrest : ∀ c ∈ rest.head?, c = '\n') :
      IsElement ('/' :: '/' :: raw) rest [(.comment, String.ofList (Text.trim raw))]
  | blockComment {w rest} (h : IsBlockComment w) :
      IsElement w rest ((Text.pieces '\n' w).filterMap lineWord?)

/-- A concatenation of lexical elements which `rest` follows, and the words in them. -/
inductive Elements (rest : List Char) : List Char → List (TokenKind × String) → Prop
  | nil : Elements rest [] []
  | cons {w more ts us} (h : IsElement w (more ++ rest) ts) (hr : Elements rest more us) :
      Elements rest (w ++ more) (ts ++ us)

/-- No lexical element starts a text. -/
def NoElement (cs : List Char) : Prop :=
  ∀ w rest ts, cs = w ++ rest → ¬ IsElement w rest ts

/-- Where reading stops in a text that starts at `p` and with which no element starts: at its first
character, at the opening of a comment that is never closed, or in a version number behind a dot
that no digit follows. -/
inductive StopsAt (p : Position) : List Char → ScanError → Prop
  | unexpected {c cs} : StopsAt p (c :: cs) ⟨.unexpected c, p⟩
  | unterminatedComment {cs} : StopsAt p ('/' :: '*' :: cs) ⟨.unterminatedComment, p⟩
  | missingDigit {major minor rest} (hmajor : IsNumber major) (hminor : ∀ ds ∈ minor, IsNumber ds)
      (hlength : minor.length < 2) (hdigit : ∀ c ∈ rest.head?, c.isDigit = false) :
      StopsAt p (major ++ dotted minor ++ '.' :: rest)
        ⟨.missingDigit, p.after (major ++ dotted minor ++ ['.'])⟩

end Elements

section Words

theorem isWordKind_iff {w : String} {k : TokenKind} : IsWordKind w k ↔ wordKind w = k := by
  have htable : ∀ p ∈ keywords, wordKind p.1 = p.2 := by decide
  constructor
  · rintro (hmem | hnot)
    · exact htable _ hmem
    · rw [wordKind, keyword?, List.lookup_eq_none_iff.2]
      · rfl
      · intro p hp
        have hne : w ≠ p.1 := by
          rintro rfl
          exact hnot p.2 hp
        simpa using hne
  · rintro rfl
    rw [wordKind, keyword?]
    cases h : keywords.lookup w with
    | none =>
      refine .identifier fun k hk => ?_
      exact absurd (List.lookup_eq_none_iff.1 h _ hk) (by simp)
    | some k =>
      obtain ⟨before, after, hsplit, -⟩ := List.lookup_eq_some_iff.1 h
      refine .keyword ?_
      rw [hsplit]
      simp

end Words

section Marks

variable {n : Nat} {cs : List Char} {m : Mark} {ms : List Mark}

@[simp] theorem marks_nil : marks [] = [] := rfl

@[simp] theorem nesting_nil : nesting [] = 0 := rfl

@[simp] theorem nesting_cons (m : Mark) (ms : List Mark) :
    nesting (m :: ms) = m.depth + nesting ms := by
  simp [nesting]

theorem marks_eq_nil (h : marks cs = []) : cs = [] := by
  fun_cases marks cs <;> simp_all [marks]

theorem filterMap_marks (cs : List Char) :
    (marks cs).filterMap Mark.char? = Comment.unmarked cs := by
  fun_induction marks cs with
  | case1 => rfl
  | case2 cs ih => rw [Comment.unmarked, ← ih]; rfl
  | case3 cs ih => rw [Comment.unmarked, ← ih]; rfl
  | case4 c cs hopen hclose ih =>
    rw [Comment.unmarked, ← ih]
    · rfl
    · exact hopen
    · exact hclose

/-- Inside of `depth` comments, the marks close all of them with the last one and not before. -/
structure Closes (depth : Int) (ms : List Mark) : Prop where
  closed : depth + nesting ms = 0
  opened : ∀ ps, ps <+: ms → ps ≠ ms → 0 < depth + nesting ps

theorem closes_cons_iff {depth : Int} :
    Closes depth (m :: ms) ↔ 0 < depth ∧ Closes (depth + m.depth) ms := by
  constructor
  · rintro ⟨hclosed, hopened⟩
    refine ⟨by simpa using hopened [] List.nil_prefix (by simp), ?_, ?_⟩
    · rw [← hclosed, nesting_cons, Int.add_assoc]
    · intro ps hps hne
      have hcons := hopened (m :: ps) (List.prefix_cons_inj m |>.2 hps) (by simpa using hne)
      rwa [nesting_cons, ← Int.add_assoc] at hcons
  · rintro ⟨hdepth, hclosed, hopened⟩
    refine ⟨?_, ?_⟩
    · rw [← hclosed, nesting_cons, Int.add_assoc]
    · intro ps hps hne
      rcases List.prefix_cons_iff.1 hps with rfl | ⟨qs, rfl, hqs⟩
      · simpa using hdepth
      · rw [nesting_cons, ← Int.add_assoc]
        exact hopened qs hqs (by simpa using hne)

theorem not_closes_nil {depth : Int} (hdepth : depth ≠ 0) : ¬ Closes depth [] :=
  fun h => hdepth (by simpa using h.closed)

theorem eq_nil_of_closes (h : Closes 0 ms) : ms = [] := by
  by_contra hne
  simpa using h.opened [] List.nil_prefix (Ne.symm hne)

/-- Marks that close `n + 1` comments end where the reader closes the outermost of them. -/
theorem extent_of_closes {w : List Char} (h : Closes (n + 1) (marks w)) (rest : List Char) :
    Comment.extent n (w ++ rest) = some (w, rest) := by
  fun_induction marks w generalizing n with
  | case1 => exact absurd h (not_closes_nil (by omega))
  | case2 w ih =>
    have hw := ih (n := n + 1) (by simpa using (closes_cons_iff.1 h).2)
    simp [Comment.extent, hw]
  | case3 w ih =>
    obtain ⟨-, hw⟩ := closes_cons_iff.1 h
    cases n with
    | zero =>
      obtain rfl := marks_eq_nil (eq_nil_of_closes (by simpa using hw))
      rfl
    | succ n =>
      have hrest := ih (n := n) (by simpa using hw)
      simp [Comment.extent, hrest]
  | case4 c w hopen hclose ih =>
    obtain ⟨-, hw⟩ := closes_cons_iff.1 h
    have hrest := ih (n := n) (by simpa using hw)
    cases w with
    | nil => exact absurd hw (not_closes_nil (by simp; omega))
    | cons d w =>
      rw [List.cons_append, Comment.extent, hrest]
      · rfl
      · rintro ds hc hds
        cases hds
        exact hopen _ hc rfl
      · rintro ds - hc hds
        cases hds
        exact hclose _ hc rfl
      · rintro k ds - hc hds
        cases hds
        exact hclose _ hc rfl

theorem closes_of_extent {w rest : List Char} (h : Comment.extent n cs = some (w, rest)) :
    Closes (n + 1) (marks w) := by
  fun_induction Comment.extent n cs generalizing w rest with
  | case1 => cases h
  | case2 depth cs ih =>
    obtain ⟨⟨v, r⟩, hv, he⟩ := Option.map_eq_some_iff.1 h
    cases he
    exact closes_cons_iff.2 ⟨by omega, by simpa using ih hv⟩
  | case3 cs =>
    cases h
    exact closes_cons_iff.2
      ⟨by omega, by simp, fun ps hps hne => absurd (List.prefix_nil.1 hps) hne⟩
  | case4 depth cs ih =>
    obtain ⟨⟨v, r⟩, hv, he⟩ := Option.map_eq_some_iff.1 h
    cases he
    exact closes_cons_iff.2 ⟨by omega, by simpa using ih hv⟩
  | case5 depth c cs hopen hlast hclose ih =>
    obtain ⟨⟨v, r⟩, hv, he⟩ := Option.map_eq_some_iff.1 h
    cases he
    have hcs := Comment.extent_append hv
    rw [marks]
    · exact closes_cons_iff.2 ⟨by omega, by simpa using ih hv⟩
    · rintro ds hc rfl
      exact hopen _ hc hcs.symm
    · rintro ds hc rfl
      cases depth with
      | zero => exact hlast _ rfl hc hcs.symm
      | succ depth => exact hclose _ _ rfl hc hcs.symm

end Marks

section Comments

theorem isBlockComment_iff {w : List Char} :
    IsBlockComment w ↔ ∃ body, w = '/' :: '*' :: body ∧ Closes 1 (marks body) := by
  constructor
  · rintro ⟨⟨body, rfl⟩, hreturns, hfirst⟩
    refine ⟨body, rfl, ?_, ?_⟩
    · simpa [marks] using hreturns
    · intro ps hps hne
      have hopened := hfirst (.opening :: ps) (List.prefix_cons_inj _ |>.2 hps) (by simp)
        (by simpa [marks] using hne)
      simpa using hopened
  · rintro ⟨body, rfl, hclosed, hopened⟩
    refine ⟨⟨body, rfl⟩, by simpa [marks] using hclosed, ?_⟩
    intro ms hms hne hall
    rcases List.prefix_cons_iff.1 hms with rfl | ⟨ps, rfl, hps⟩
    · exact absurd rfl hne
    · simpa using hopened ps hps (by simpa [marks] using hall)

theorem IsBlockComment.extent {body : List Char} (h : IsBlockComment ('/' :: '*' :: body))
    (rest : List Char) : Comment.extent 0 (body ++ rest) = some (body, rest) := by
  obtain ⟨cs, hcs, hcloses⟩ := isBlockComment_iff.1 h
  cases hcs
  exact extent_of_closes (by simpa using hcloses) rest

theorem lineText_of_star {l cs : List Char}
    (h : Text.trimStart (Comment.unmarked l) = '*' :: cs) : lineText l = Text.trim cs := by
  have htrim : Text.trim (Comment.unmarked l) = '*' :: Text.trimEnd cs := by
    rw [Text.trim, h, Text.trimEnd_cons (by decide)]
  rw [lineText, filterMap_marks, htrim]
  exact Text.trim_trimEnd cs

theorem lineText_of_not_star {l : List Char}
    (h : ∀ cs, Text.trimStart (Comment.unmarked l) ≠ '*' :: cs) :
    lineText l = Text.trim (Comment.unmarked l) := by
  rw [lineText, filterMap_marks]
  split
  · next cs htrim =>
    obtain ⟨ds, hds⟩ := Text.prefix_trimEnd (Text.trimStart (Comment.unmarked l))
    rw [← Text.trim, htrim] at hds
    exact absurd hds.symm (h _)
  · rfl

theorem content_lineToken (p : Position) (l : List Char) :
    (Comment.lineToken? p (Comment.unmarked l)).map Token.content = lineWord? l := by
  have htoken (q : Position) {cs : List Char} (hcs : lineText l = Text.trim cs) :
      (if (Comment.token q cs).lexeme = "" then none else some (Comment.token q cs)).map
        Token.content = lineWord? l := by
    by_cases hnil : Text.trim cs = []
    · simp [lineWord?, Comment.token, hcs, hnil]
    · simp [lineWord?, Comment.token, hcs, hnil, Token.content, String.ofList_eq_empty_iff]
  rw [Comment.lineToken?]
  split
  · next cs hstart => exact htoken _ (lineText_of_star hstart)
  · next hne => exact htoken _ (lineText_of_not_star hne)

theorem content_lineTokens (place : Nat → Position) (ls : List (List Char)) :
    (((ls.map Comment.unmarked).mapIdx fun i raw => (place i, raw)).filterMap fun l =>
      (Comment.lineToken? l.1 l.2).map Token.content) = ls.filterMap lineWord? := by
  induction ls generalizing place with
  | nil => rfl
  | cons l ls ih =>
    rw [List.map_cons, List.mapIdx_cons, List.filterMap_cons, List.filterMap_cons,
      content_lineToken, ih fun i => place (i + 1)]

theorem content_blockTokens (p : Position) (w : List Char) :
    (Comment.blockTokens p (Comment.unmarked w)).map Token.content =
      (Text.pieces '\n' w).filterMap lineWord? := by
  obtain ⟨l, ls, hw⟩ := List.exists_cons_of_ne_nil (Text.pieces_ne_nil '\n' w)
  rw [Comment.blockTokens, Comment.pieces_unmarked, hw, List.map_cons, List.map_filterMap,
    List.filterMap_cons, content_lineToken, content_lineTokens fun i => ⟨p.line + 1 + i, 0⟩,
    List.filterMap_cons]

end Comments

section Reading

variable {p : Position} {c : Char} {cs rest : List Char}

theorem isLayout_iff : isLayout c = true ↔ c ∈ layout := by
  simp [isLayout, layout, or_assoc]

theorem punctuation_iff {k : TokenKind} : punctuation? c = some k ↔ (c, k) ∈ punctuation := by
  constructor
  · intro h
    simp only [punctuation?] at h
    split at h <;> cases h <;> decide
  · have htable : ∀ x ∈ punctuation, punctuation? x.1 = some x.2 := by decide
    exact fun h => htable _ h

theorem head_dropWhile (q : Char → Bool) (cs : List Char) :
    ∀ c ∈ (cs.dropWhile q).head?, q c = false := by
  intro c hc
  have hfirst := List.head?_dropWhile_not q cs
  rw [Option.mem_def.1 hc] at hfirst
  exact hfirst

theorem isNumber_takeWhile {d : Char} {ds : List Char} (h : cs.takeWhile Char.isDigit = d :: ds) :
    IsNumber (d :: ds) := by
  refine ⟨by simp, ?_⟩
  rw [← h]
  exact List.all_eq_true.1 List.all_takeWhile

theorem not_isDigit_dotted (minor : List (List Char))
    (hdigit : ∀ c ∈ rest.head?, c.isDigit = false) :
    ∀ c ∈ (dotted minor ++ rest).head?, c.isDigit = false := by
  cases minor with
  | nil => exact hdigit
  | cons ds minor =>
    rintro c ⟨⟩
    rfl

/-- The parts of a version number behind its first one are read up to where they end. -/
theorem versionParts_dotted {n : Nat} {minor : List (List Char)}
    (hminor : ∀ ds ∈ minor, IsNumber ds) (hlength : minor.length ≤ n)
    (hdigit : ∀ c ∈ rest.head?, c.isDigit = false)
    (hdot : minor.length < n → rest.head? ≠ some '.') :
    versionParts n (dotted minor ++ rest) = .ok (dotted minor, rest) := by
  induction minor generalizing n with
  | nil =>
    rw [dotted, List.flatMap_nil, List.nil_append, versionParts]
    rintro m cs rfl rfl
    exact hdot (Nat.succ_pos m) rfl
  | cons ds minor ih =>
    obtain ⟨⟨hne, hds⟩, hmore⟩ := List.forall_mem_cons.1 hminor
    obtain ⟨m, rfl⟩ := Nat.exists_eq_add_of_le' (Nat.le_trans (Nat.succ_pos _) hlength)
    obtain ⟨d, es, rfl⟩ := List.exists_cons_of_ne_nil hne
    obtain ⟨htake, hdrop⟩ :=
      takeWhile_append_stop hds (not_isDigit_dotted minor hdigit)
    have hrest := ih hmore (Nat.le_of_succ_le_succ hlength)
      fun hlt => hdot (Nat.succ_lt_succ hlt)
    have hsplit : dotted ((d :: es) :: minor) ++ rest =
        '.' :: (d :: es ++ (dotted minor ++ rest)) := by simp [dotted]
    rw [hsplit, versionParts, htake, hdrop, hrest]
    rfl

theorem exists_dotted_of_versionParts {n : Nat} {more : List Char}
    (h : versionParts n cs = .ok (more, rest)) (hcs : ∀ c ∈ cs.head?, c.isDigit = false) :
    ∃ minor, more = dotted minor ∧ (∀ ds ∈ minor, IsNumber ds) ∧ minor.length ≤ n ∧
      (∀ c ∈ rest.head?, c.isDigit = false) ∧ (minor.length < n → rest.head? ≠ some '.') := by
  fun_induction versionParts n cs generalizing more rest with
  | case1 => cases h
  | case2 n cs d ds hd m r hr ih =>
    cases h
    obtain ⟨minor, rfl, hminor, hlength, hdigit, hdot⟩ := ih hr (head_dropWhile _ cs)
    exact ⟨(d :: ds) :: minor, rfl, List.forall_mem_cons.2 ⟨isNumber_takeWhile hd, hminor⟩,
      Nat.succ_le_succ hlength, hdigit, fun hlt => hdot (Nat.lt_of_succ_lt_succ hlt)⟩
  | case3 => cases h
  | case4 n cs hne =>
    cases h
    refine ⟨[], rfl, by simp, Nat.zero_le n, hcs, ?_⟩
    intro hlt hhead
    obtain ⟨m, rfl⟩ := Nat.exists_eq_add_of_le' hlt
    obtain ⟨ds, rfl⟩ := List.head?_eq_some_iff.1 hhead
    exact hne _ _ rfl rfl

theorem exists_dotted_of_versionParts_error {n : Nat} {more : List Char}
    (h : versionParts n cs = .error more) :
    ∃ minor ds, cs = dotted minor ++ '.' :: ds ∧ more = dotted minor ++ ['.'] ∧
      (∀ ds ∈ minor, IsNumber ds) ∧ minor.length < n ∧ ∀ c ∈ ds.head?, c.isDigit = false := by
  fun_induction versionParts n cs generalizing more with
  | case1 n cs hd =>
    cases h
    refine ⟨[], cs, rfl, rfl, by simp, Nat.succ_pos n, ?_⟩
    intro c hc
    obtain ⟨ds, rfl⟩ := List.head?_eq_some_iff.1 (Option.mem_def.1 hc)
    by_contra hdigit
    simp [List.takeWhile_cons_of_pos (Bool.of_not_eq_false hdigit)] at hd
  | case2 => cases h
  | case3 n cs d ds hd m hm ih =>
    cases h
    obtain ⟨minor, es, hcs, rfl, hminor, hlength, hdigit⟩ := ih hm
    refine ⟨(d :: ds) :: minor, es, ?_, by simp [dotted],
      List.forall_mem_cons.2 ⟨isNumber_takeWhile hd, hminor⟩, Nat.succ_lt_succ hlength, hdigit⟩
    have hsplit : cs.takeWhile Char.isDigit ++ cs.dropWhile Char.isDigit = cs :=
      List.takeWhile_append_dropWhile
    rw [hd, hcs] at hsplit
    rw [← hsplit]
    simp [dotted]
  | case4 => cases h

/-- The words of an element that is read are those of the grammar. -/
theorem isElement_of_element {e : Element} (h : element p c cs = .ok e) :
    IsElement e.taken e.rest (e.tokens.map Token.content) := by
  simp only [element] at h
  split at h
  · next hlayout =>
    cases h
    exact .layout (isLayout_iff.1 hlayout)
  split at h
  · next k hk =>
    cases h
    exact .punctuation (punctuation_iff.1 hk)
  split at h
  · next hdigit =>
    simp only [versionNumber] at h
    split at h
    · next more rest hread =>
      cases h
      obtain ⟨minor, rfl, hminor, hlength, hend, hdot⟩ :=
        exists_dotted_of_versionParts hread (head_dropWhile _ _)
      have hmajor := List.takeWhile_cons_of_pos (l := cs) hdigit
      refine .versionNumber ?_ hminor hlength hend hdot
      rw [hmajor]
      exact isNumber_takeWhile hmajor
    · cases h
  split at h
  · next hstart =>
    cases h
    have hword := IsElement.word (isWord_takeWhile cs hstart) (isWordKind_iff.2 rfl)
      (head_dropWhile isWordPart (c :: cs))
    rw [String.toList_ofList] at hword
    exact hword
  split at h
  · cases h
    refine .lineComment (not_mem_takeWhile (by simp) _) ?_
    intro c hc
    simpa using head_dropWhile (· ≠ '\n') _ c hc
  · simp only [blockComment] at h
    split at h
    · next body rest hread =>
      cases h
      have hblock : IsBlockComment ('/' :: '*' :: body) :=
        isBlockComment_iff.2 ⟨body, rfl, by simpa using closes_of_extent hread⟩
      have hwords := content_blockTokens (p.shift 2) ('/' :: '*' :: body)
      rw [Comment.unmarked] at hwords
      rw [hwords]
      exact .blockComment hblock
    · cases h
  · cases h

/-- An element of the grammar is read wherever it stands. -/
theorem IsElement.exists_element {w : List Char} {ws : List (TokenKind × String)}
    (h : IsElement w rest ws) (p : Position) :
    ∃ c cs e, w ++ rest = c :: cs ∧ element p c cs = .ok e ∧ e.taken = w ∧ e.rest = rest ∧
      e.tokens.map Token.content = ws := by
  cases h with
  | @layout c _ h =>
    exact ⟨c, rest, _, rfl, element_layout p (isLayout_iff.2 h) rest, rfl, rfl, rfl⟩
  | @punctuation c k _ h =>
    exact ⟨c, rest, _, rfl, element_punctuation p (punctuation_iff.2 h) rest, rfl, rfl, rfl⟩
  | @word w k _ h hk hrest =>
    obtain ⟨c, cs, hcons, he⟩ := element_word p h hrest
    refine ⟨c, cs, _, hcons, he, rfl, rfl, ?_⟩
    rw [isWordKind_iff.1 hk]
    rfl
  | @versionNumber major minor _ hmajor hminor hlength hdigit hdot =>
    obtain ⟨hne, hdigits⟩ := hmajor
    obtain ⟨d, ds, rfl⟩ := List.exists_cons_of_ne_nil hne
    have he := element_versionNumber p hdigits (not_isDigit_dotted minor hdigit)
      (versionParts_dotted hminor hlength hdigit hdot)
    exact ⟨d, ds ++ (dotted minor ++ rest), _, by simp, he, rfl, rfl, rfl⟩
  | @lineComment raw _ hraw hrest =>
    exact ⟨'/', '/' :: (raw ++ rest), _, rfl, element_lineComment p hraw hrest, rfl, rfl, rfl⟩
  | @blockComment _ _ h =>
    obtain ⟨body, rfl, -⟩ := isBlockComment_iff.1 h
    have hread : Scan.blockComment p (body ++ rest) =
        .ok ⟨Comment.blockTokens (p.shift 2) (Comment.unmarked body), '/' :: '*' :: body,
          rest⟩ := by
      rw [Scan.blockComment, h.extent rest]
    exact ⟨'/', '*' :: (body ++ rest), _, rfl, hread, rfl, rfl,
      content_blockTokens (p.shift 2) ('/' :: '*' :: body)⟩

/-- Where reading stops, no element starts. -/
theorem noElement_of_element_error {x : ScanError} (h : element p c cs = .error x) :
    NoElement (c :: cs) := by
  intro w rest ws hsplit hw
  obtain ⟨d, ds, e, hcons, he, -⟩ := hw.exists_element p
  rw [← hsplit] at hcons
  cases hcons
  rw [h] at he
  cases he

theorem stopsAt_of_element_error {x : ScanError} (h : element p c cs = .error x) :
    StopsAt p (c :: cs) x := by
  simp only [element] at h
  split at h
  · cases h
  split at h
  · cases h
  split at h
  · next hdigit =>
    simp only [versionNumber] at h
    split at h
    · cases h
    · next more hmore =>
      cases h
      obtain ⟨minor, ds, hrest, rfl, hminor, hlength, hend⟩ :=
        exists_dotted_of_versionParts_error hmore
      have hmajor := isNumber_takeWhile (List.takeWhile_cons_of_pos (l := cs) hdigit)
      rw [← List.takeWhile_cons_of_pos (l := cs) hdigit] at hmajor
      have hsplit :
          (c :: cs).takeWhile Char.isDigit ++ (c :: cs).dropWhile Char.isDigit = c :: cs :=
        List.takeWhile_append_dropWhile
      rw [hrest, ← List.append_assoc] at hsplit
      rw [← List.append_assoc]
      have hstops := StopsAt.missingDigit (p := p) hmajor hminor hlength hend
      rwa [hsplit] at hstops
  split at h
  · cases h
  split at h
  · cases h
  · simp only [blockComment] at h
    split at h
    · cases h
    · cases h
      exact .unterminatedComment
  · cases h
    exact .unexpected

end Reading

section Texts

variable {p : Position} {cs : List Char}

theorem elements_of_scanFrom {ts : List Token} (h : scanFrom p cs = .ok ts) :
    Elements [] cs (ts.map Token.content) := by
  fun_induction scanFrom p cs generalizing ts with
  | case1 =>
    cases h
    exact .nil
  | case2 => cases h
  | case3 => cases h
  | case4 p c cs e he us hus ih =>
    cases h
    have hfirst := isElement_of_element he
    rw [← element_append he, List.map_append]
    exact .cons (by rwa [List.append_nil]) (ih hus)

theorem Elements.exists_scanFrom {ws : List (TokenKind × String)} (h : Elements [] cs ws)
    (p : Position) : ∃ ts, scanFrom p cs = .ok ts ∧ ts.map Token.content = ws := by
  induction h generalizing p with
  | nil => exact ⟨[], by rw [scanFrom], rfl⟩
  | @cons w more ts us h hr ih =>
    obtain ⟨c, cs, e, hsplit, he, rfl, hrest, rfl⟩ := h.exists_element p
    rw [List.append_nil] at hsplit hrest
    obtain ⟨us, hus, rfl⟩ := ih (p.after e.taken)
    refine ⟨e.tokens ++ us, ?_, List.map_append⟩
    rw [hsplit]
    exact scanFrom_of_element he (by rwa [hrest])

/-- Reading stops behind elements, where no further one starts. -/
theorem exists_elements_of_scanFrom_error {x : ScanError} (h : scanFrom p cs = .error x) :
    ∃ before rest ws, cs = before ++ rest ∧ Elements rest before ws ∧ NoElement rest ∧
      StopsAt (p.after before) rest x := by
  fun_induction scanFrom p cs with
  | case1 => cases h
  | case2 p c cs y hy =>
    cases h
    exact ⟨[], c :: cs, [], rfl, .nil, noElement_of_element_error hy, stopsAt_of_element_error hy⟩
  | case3 p c cs e he y hy ih =>
    cases h
    obtain ⟨before, rest, ws, hrest, hbefore, hno, hstops⟩ := ih hy
    have hfirst := isElement_of_element he
    rw [hrest] at hfirst
    refine ⟨e.taken ++ before, rest, _, ?_, .cons hfirst hbefore, hno, ?_⟩
    · rw [← element_append he, hrest, List.append_assoc]
    · rw [Position.after_append]
      exact hstops
  | case4 => cases h

end Texts

end LexicalGrammar

/-- The loops of the scanner over a cursor come to the result of the scanner. A source is read
exactly when the text of its lines is a concatenation of lexical elements, and then its tokens say
what the elements do, with the end of file behind them. Otherwise reading stops behind elements, at
a place where no further one starts. -/
theorem scan_lexical (source : String) :
    (LineCursor.scan source).run = some (scan source) ∧
    (∀ ws, (∃ ts, scan source = .ok ts ∧ ts.map Token.content = ws) ↔
      ∃ us, LexicalGrammar.Elements [] (Text.normalized source.toList) us ∧
        ws = us ++ [(.eof, "")]) ∧
    ∀ x, scan source = .error x → ∃ before rest us,
      Text.normalized source.toList = before ++ rest ∧ LexicalGrammar.Elements rest before us ∧
        LexicalGrammar.NoElement rest ∧
        LexicalGrammar.StopsAt (Position.origin.after before) rest x := by
  refine ⟨LineCursor.run_scan source, fun ws => ⟨?_, ?_⟩, ?_⟩
  · rintro ⟨ts, hts, rfl⟩
    obtain ⟨us, hus, rfl⟩ := exists_scanFrom hts
    exact ⟨_, LexicalGrammar.elements_of_scanFrom hus, List.map_append⟩
  · rintro ⟨us, hus, rfl⟩
    obtain ⟨ts, hts, rfl⟩ := hus.exists_scanFrom .origin
    refine ⟨ts ++ [Token.endOfFile (sourceEnd source.toList)], ?_, List.map_append⟩
    simp only [scan, hts]
  · intro x hx
    simp only [scan] at hx
    split at hx
    · next y hy =>
      cases hx
      exact LexicalGrammar.exists_elements_of_scanFrom_error hy
    · cases hx

/-- Elements that touch each other, and a version number with a part too many. -/
def crowdedSource : String := "/**/1a//*\n1.2.3.4"

theorem scan_lexical_crowded : scan crowdedSource = .error ⟨.unexpected '.', ⟨1, 5⟩⟩ ∧
    ∃ before rest us, Text.normalized crowdedSource.toList = before ++ rest ∧
      LexicalGrammar.Elements rest before us ∧ LexicalGrammar.NoElement rest ∧
      LexicalGrammar.StopsAt (Position.origin.after before) rest ⟨.unexpected '.', ⟨1, 5⟩⟩ := by
  have h : scan crowdedSource = .error ⟨.unexpected '.', ⟨1, 5⟩⟩ := by cbv
  exact ⟨h, (scan_lexical crowdedSource).2.2 _ h⟩

end GameSchema
