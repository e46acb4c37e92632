import GameSchema.Grammar.Stream
import GameSchema.Proofs.Text.Places
import GameSchema.Proofs.Token.Lexical

/-!
# Where tokens stand

A token that is no comment is a part of one line, from the place where it starts. A comment stands
within its line: what is taken out of a line of a comment only makes it shorter. The end of file
stands behind the last line.
-/

namespace GameSchema
open Scan

/-- A comment that starts at a place or behind it in the same line, and ends at most `n` columns
behind that place. -/
structure Token.CommentWithin (p : Position) (n : Nat) (t : Token) : Prop where
  kind : t.kind = .comment
  line : t.start.line = p.line
  after : p.column ≤ t.start.column
  before : t.start.column + t.length ≤ p.column + n

/-- Where a token stands in the text `w` that it was read from, which starts at `p`. -/
inductive Token.StandsIn (p : Position) (w : List Char) (t : Token) : Prop
  | word (hcomment : t.kind ≠ .comment) (hend : t.kind ≠ .eof) (hne : w ≠ []) (hline : '\n' ∉ w)
      (hw : t.lexeme.toList = w) (hstart : t.start = p)
  | comment (before part after : List Char) (hw : w = before ++ (part ++ after)) (hne : part ≠ [])
      (hline : '\n' ∉ part) (h : t.CommentWithin (p.after before) part.length)

theorem Token.CommentWithin.of_shift {p : Position} {m n : Nat} {t : Token}
    (h : t.CommentWithin (p.shift m) n) : t.CommentWithin p (m + n) := by
  obtain ⟨hkind, hline, hafter, hbefore⟩ := h
  simp only [Position.shift] at hline hafter hbefore
  exact ⟨hkind, hline, by omega, by omega⟩

theorem Token.CommentWithin.mono {p : Position} {m n : Nat} {t : Token}
    (h : t.CommentWithin p m) (hmn : m ≤ n) : t.CommentWithin p n :=
  ⟨h.kind, h.line, h.after, Nat.le_trans h.before (Nat.add_le_add_left hmn _)⟩

namespace Comment

variable {p : Position} {raw : List Char} {t : Token}

theorem indent_add_trim_le (raw : List Char) :
    Text.indent raw + (Text.trim raw).length ≤ raw.length := by
  have htrim : (Text.trim raw).length ≤ (Text.trimStart raw).length :=
    (Text.prefix_trimEnd _).length_le
  have hsplit : Text.indent raw + (Text.trimStart raw).length = raw.length := by
    rw [Text.indent, Text.trimStart, ← List.length_append, List.takeWhile_append_dropWhile]
  omega

theorem token_within (p : Position) (raw : List Char) :
    (token p raw).CommentWithin p raw.length := by
  have hle := indent_add_trim_le raw
  constructor
  · rfl
  · rfl
  · simp [token, Position.shift]
  · simp only [token, Position.shift, Token.length, String.length_ofList]
    omega

theorem lineToken_within (h : lineToken? p raw = some t) :
    t.CommentWithin p raw.length ∧ raw ≠ [] := by
  simp only [lineToken?] at h
  split at h
  · next cs hstart =>
    split at h
    · cases h
    · cases h
      have hlength : raw.length = Text.indent raw + 1 + cs.length := by
        rw [Nat.add_assoc, Nat.add_comm 1, ← List.length_cons, ← hstart, Text.indent,
          Text.trimStart, ← List.length_append, List.takeWhile_append_dropWhile]
      refine ⟨?_, ?_⟩
      · rw [hlength]
        exact (token_within _ cs).of_shift
      · rintro rfl
        cases hstart
  · split at h
    · cases h
    · next hne =>
      cases h
      refine ⟨token_within p raw, ?_⟩
      rintro rfl
      exact hne rfl

theorem unmarked_length_le (cs : List Char) : (unmarked cs).length ≤ cs.length := by
  fun_induction unmarked cs with
  | case1 => exact Nat.le_refl _
  | case2 cs ih | case3 cs ih =>
    simp only [List.length_cons]
    omega
  | case4 c cs _ _ ih => exact Nat.succ_le_succ ih

/-- Markers never run over the end of a line, so lines can be cleared of them one by one. -/
theorem pieces_unmarked (cs : List Char) :
    Text.pieces '\n' (unmarked cs) = (Text.pieces '\n' cs).map unmarked := by
  fun_induction unmarked cs with
  | case1 => rfl
  | case2 cs ih | case3 cs ih =>
    obtain ⟨l, ls, hcs⟩ := List.exists_cons_of_ne_nil (Text.pieces_ne_nil '\n' cs)
    rw [ih, Text.pieces, if_neg (by decide), Text.pieces, if_neg (by decide), hcs]
    simp [Text.pushFirst, unmarked]
  | case4 c cs hopen hclose ih =>
    obtain ⟨l, ls, hcs⟩ := List.exists_cons_of_ne_nil (Text.pieces_ne_nil '\n' cs)
    by_cases hc : c = '\n'
    · subst hc
      simp [ih, unmarked]
    · rw [Text.pieces, if_neg hc, ih, Text.pieces, if_neg hc, hcs]
      obtain ⟨after, rfl⟩ := (Text.exists_of_pieces hcs).1
      have hl : unmarked (c :: l) = c :: unmarked l := by
        rw [unmarked]
        · rintro ds rfl rfl
          exact hopen _ rfl rfl
        · rintro ds rfl rfl
          exact hclose _ rfl rfl
      simp [Text.pushFirst, hl]

/-- The tokens of a block comment stand in the lines of its text. -/
theorem standsIn_blockTokens (p : Position) (body : List Char)
    (h : t ∈ blockTokens (p.shift 2) (unmarked body)) : t.StandsIn p ('/' :: '*' :: body) := by
  obtain ⟨first, more, hbody⟩ := List.exists_cons_of_ne_nil (Text.pieces_ne_nil '\n' body)
  obtain ⟨⟨after, hfirst⟩, hmore⟩ := Text.exists_of_pieces hbody
  have hline : ∀ l ∈ first :: more, '\n' ∉ l := by
    rw [← hbody]
    exact fun l hl => not_mem_of_mem_pieces hl
  rw [blockTokens, pieces_unmarked, hbody, List.map_cons] at h
  obtain ⟨⟨q, raw⟩, hmem, ht⟩ := List.mem_filterMap.1 h
  obtain ⟨hwithin, hraw⟩ := lineToken_within ht
  rcases List.mem_cons.1 hmem with heq | hmem
  · cases heq
    have hle := Nat.add_le_add_left (unmarked_length_le first) 2
    have hpart : ('/' :: '*' :: first).length = 2 + first.length := Nat.add_comm _ 2
    refine .comment [] ('/' :: '*' :: first) after ?_ (by simp) ?_ ?_
    · rw [hfirst]
      rfl
    · simp [hline first List.mem_cons_self]
    · rw [hpart]
      exact hwithin.of_shift.mono hle
  · obtain ⟨i, hi, heq⟩ := List.mem_mapIdx.1 hmem
    cases heq
    rw [List.length_map] at hi
    obtain ⟨before, after, hbefore, hplace⟩ := hmore i more[i] (List.getElem?_eq_getElem hi)
    have hstart : p.after ('/' :: '*' :: before) = ⟨(p.shift 2).line + 1 + i, 0⟩ :=
      hplace (p.shift 2)
    rw [List.getElem_map] at hwithin hraw
    refine .comment ('/' :: '*' :: before) more[i] after ?_ ?_ ?_ ?_
    · rw [hbefore]
      rfl
    · intro hnil
      rw [hnil] at hraw
      exact hraw rfl
    · exact hline _ (List.mem_cons_of_mem first (List.getElem_mem hi))
    · rw [hstart]
      exact hwithin.mono (unmarked_length_le _)

end Comment

namespace Scan

variable {p : Position} {c : Char} {cs : List Char} {e : Element}

theorem not_mem_takeWhile {q : Char → Bool} (hc : q c = false) (cs : List Char) :
    c ∉ cs.takeWhile q := by
  intro hmem
  have hq := List.all_eq_true.1 List.all_takeWhile c hmem
  rw [hc] at hq
  cases hq

theorem newline_not_mem_versionParts {n : Nat} {more rest : List Char}
    (h : versionParts n cs = .ok (more, rest)) : '\n' ∉ more := by
  fun_induction versionParts n cs generalizing more rest with
  | case1 => cases h
  | case2 n cs d ds hd m r hr ih =>
    cases h
    have hdigits := not_mem_takeWhile (q := Char.isDigit) (c := '\n') rfl cs
    rw [hd] at hdigits
    simpa [ih hr] using hdigits
  | case3 => cases h
  | case4 =>
    cases h
    simp

/-- A version number that stops short has been read within its line up to where it stops. -/
theorem append_of_versionParts_error {n : Nat} {more : List Char}
    (h : versionParts n cs = .error more) : '\n' ∉ more ∧ ∃ rest, cs = more ++ rest := by
  fun_induction versionParts n cs generalizing more with
  | case1 n cs hd =>
    cases h
    exact ⟨by simp, cs, rfl⟩
  | case2 => cases h
  | case3 n cs d ds hd m hm ih =>
    cases h
    obtain ⟨hline, rest, hrest⟩ := ih hm
    have hdigits := not_mem_takeWhile (q := Char.isDigit) (c := '\n') rfl cs
    have hsplit : cs = cs.takeWhile Char.isDigit ++ cs.dropWhile Char.isDigit :=
      List.takeWhile_append_dropWhile.symm
    rw [hd] at hdigits hsplit
    refine ⟨by simpa [hline] using hdigits, rest, ?_⟩
    rw [hsplit, hrest]
    simp
  | case4 => cases h

theorem standsIn_versionNumber (hc : c.isDigit = true) (h : versionNumber p (c :: cs) = .ok e) :
    ∀ t ∈ e.tokens, t.StandsIn p e.taken := by
  have hne := versionNumber_taken_ne_nil hc h
  simp only [versionNumber] at h
  split at h
  · next more rest hread =>
    cases h
    intro t ht
    rw [List.mem_singleton.1 ht]
    refine .word (by simp) (by simp) hne ?_ String.toList_ofList rfl
    rw [List.mem_append, not_or]
    exact ⟨not_mem_takeWhile rfl _, newline_not_mem_versionParts hread⟩
  · cases h

theorem standsIn_word (p : Position) (cs : List Char) (hc : isWordStart c = true) :
    ∀ t ∈ (word p (c :: cs)).tokens, t.StandsIn p (word p (c :: cs)).taken := by
  intro t ht
  rw [List.mem_singleton.1 ht]
  have hkind := isWord_wordKind (String.ofList ((c :: cs).takeWhile isWordPart))
  refine .word ?_ ?_ ?_ (not_mem_takeWhile rfl _) String.toList_ofList rfl
  · intro hcomment
    rw [show wordKind _ = .comment from hcomment] at hkind
    cases hkind
  · intro hend
    rw [show wordKind _ = .eof from hend] at hkind
    cases hkind
  · simp [word, isWordPart_of_isWordStart hc]

theorem standsIn_punctuation {k : TokenKind} (hlayout : isLayout c = false)
    (h : punctuation? c = some k) (p : Position) :
    (⟨k, c.toString, p⟩ : Token).StandsIn p [c] := by
  have hk : k ≠ .comment ∧ k ≠ .eof := by
    simp only [punctuation?] at h
    split at h <;> cases h <;> simp
  refine .word hk.1 hk.2 (by simp) ?_ ?_ rfl
  · intro hmem
    rw [← List.mem_singleton.1 hmem] at hlayout
    cases hlayout
  · exact String.toList_singleton c

theorem standsIn_lineComment (p : Position) (cs : List Char) :
    ∀ t ∈ (lineComment p cs).tokens, t.StandsIn p (lineComment p cs).taken := by
  intro t ht
  rw [List.mem_singleton.1 ht]
  have hline : '\n' ∉ cs.takeWhile (· ≠ '\n') := not_mem_takeWhile (by simp) cs
  refine .comment [] (lineComment p cs).taken [] ?_ ?_ ?_ ?_
  · simp
  · simp [lineComment]
  · simpa [lineComment] using hline
  · have hlength : (lineComment p cs).taken.length = 2 + (cs.takeWhile (· ≠ '\n')).length :=
      Nat.add_comm _ 2
    rw [hlength]
    exact (Comment.token_within _ _).of_shift

/-- The tokens of an element stand in it. -/
theorem standsIn_of_mem_element (h : element p c cs = .ok e) :
    ∀ t ∈ e.tokens, t.StandsIn p e.taken := by
  simp only [element] at h
  split at h
  · cases h
    intro t ht
    cases ht
  next hlayout =>
  split at h
  · next k hk =>
    cases h
    intro t ht
    rw [List.mem_singleton.1 ht]
    exact standsIn_punctuation (by simpa using hlayout) hk p
  split at h
  · next hdigit => exact standsIn_versionNumber hdigit h
  split at h
  · next hword =>
    cases h
    exact standsIn_word p cs hword
  split at h
  · cases h
    exact standsIn_lineComment p _
  · simp only [blockComment] at h
    split at h
    · cases h
      exact fun t ht => Comment.standsIn_blockTokens p _ ht
    · cases h
  · cases h

/-- Reading stops within a line, at or behind the start of the element that it stops in. -/
theorem position_of_element_error {x : ScanError} (h : element p c cs = .error x) :
    ∃ w rest, c :: cs = w ++ rest ∧ '\n' ∉ w ∧ x.position = p.after w := by
  simp only [element] at h
  split at h
  · cases h
  split at h
  · cases h
  split at h
  · simp only [versionNumber] at h
    split at h
    · cases h
    · next more hmore =>
      cases h
      obtain ⟨hline, rest, hrest⟩ := append_of_versionParts_error hmore
      refine ⟨(c :: cs).takeWhile Char.isDigit ++ more, rest, ?_, ?_, rfl⟩
      · rw [List.append_assoc, ← hrest, List.takeWhile_append_dropWhile]
      · rw [List.mem_append, not_or]
        exact ⟨not_mem_takeWhile rfl _, hline⟩
  split at h
  · cases h
  split at h
  · cases h
  · simp only [blockComment] at h
    split at h
    · cases h
    · cases h
      exact ⟨[], _, rfl, by simp, rfl⟩
  · cases h
    exact ⟨[], _, rfl, by simp, rfl⟩

end Scan

section Scanning

variable {p : Position} {cs : List Char} {ts : List Token}

/-- Every token that is read from a text comes from an element in it. -/
theorem exists_element_of_mem_scanFrom (h : scanFrom p cs = .ok ts) {t : Token} (ht : t ∈ ts) :
    ∃ before c rest e, cs = before ++ c :: rest ∧ element (p.after before) c rest = .ok e ∧
      t ∈ e.tokens := by
  fun_induction scanFrom p cs generalizing ts with
  | case1 =>
    cases h
    cases ht
  | case2 => cases h
  | case3 => cases h
  | case4 p c cs e he us hus ih =>
    cases h
    rcases List.mem_append.1 ht with ht | ht
    · exact ⟨[], c, cs, e, rfl, he, ht⟩
    · obtain ⟨before, d, rest, e', hrest, he', ht⟩ := ih hus ht
      refine ⟨e.taken ++ before, d, rest, e', ?_, ?_, ht⟩
      · rw [← element_append he, hrest, List.append_assoc]
      · rw [Position.after_append]
        exact he'

theorem standsIn_of_mem_scanFrom (h : scanFrom p cs = .ok ts) {t : Token} (ht : t ∈ ts) :
    ∃ before w after, cs = before ++ (w ++ after) ∧ t.StandsIn (p.after before) w := by
  obtain ⟨before, c, rest, e, rfl, he, ht⟩ := exists_element_of_mem_scanFrom h ht
  exact ⟨before, e.taken, e.rest, by rw [element_append he], standsIn_of_mem_element he t ht⟩

/-- Nothing that is read from a text is its end. -/
theorem kind_ne_eof_of_mem_scanFrom (h : scanFrom p cs = .ok ts) {t : Token} (ht : t ∈ ts) :
    t.kind ≠ .eof := by
  obtain ⟨before, w, after, -, hstands⟩ := standsIn_of_mem_scanFrom h ht
  cases hstands with
  | word hcomment hend => exact hend
  | comment _ _ _ hw hne hline hwithin =>
    rw [hwithin.kind]
    simp

theorem position_of_scanFrom_error {x : ScanError} (h : scanFrom p cs = .error x) :
    ∃ before w rest, cs = before ++ (w ++ rest) ∧ '\n' ∉ w ∧ w ++ rest ≠ [] ∧
      x.position = (p.after before).after w := by
  fun_induction scanFrom p cs with
  | case1 => cases h
  | case2 p c cs y hy =>
    cases h
    obtain ⟨w, rest, hsplit, hline, hposition⟩ := position_of_element_error hy
    exact ⟨[], w, rest, hsplit, hline, by simp [← hsplit], hposition⟩
  | case3 p c cs e he y hy ih =>
    cases h
    obtain ⟨before, w, rest, hrest, hline, hne, hposition⟩ := ih hy
    refine ⟨e.taken ++ before, w, rest, ?_, hline, hne, ?_⟩
    · rw [← element_append he, hrest, List.append_assoc]
    · rw [Position.after_append]
      exact hposition
  | case4 => cases h

end Scanning

/-- Where a token stands in the lines of a source. -/
inductive Token.Placed (source : List Char) (t : Token) : Prop
  | word (hcomment : t.kind ≠ .comment) (hend : t.kind ≠ .eof) (hne : t.lexeme ≠ "")
      (before after : List Char)
      (hline : (Text.lines source)[t.start.line]? = some (before ++ t.lexeme.toList ++ after))
      (hcolumn : before.length = t.start.column)
  | comment (hcomment : t.kind = .comment) (l : List Char)
      (hline : (Text.lines source)[t.start.line]? = some l)
      (hfit : t.start.column + t.length ≤ l.length)
  | eof (h : t = .endOfFile (sourceEnd source))

section Sources

variable {source : String} {ts : List Token}

theorem Token.StandsIn.placed {before w after : List Char} {t : Token}
    (h : t.StandsIn (Position.origin.after before) w)
    (hsource : Text.normalized source.toList = before ++ (w ++ after)) :
    t.Placed source.toList := by
  have hlines : ∀ l ∈ Text.lines source.toList, '\n' ∉ l :=
    fun l hl => Text.newline_not_mem_of_mem_lines hl
  cases h with
  | word hcomment hend hne hline hw hstart =>
    subst hw
    have hsome : t.lexeme.toList ++ after ≠ [] := by simp [hne]
    obtain ⟨k, a, b, hplace, hk⟩ :=
      Text.exists_line_of_unlines hlines hline hsome hsource.symm 0
    have hposition : t.start = ⟨0 + k, a.length⟩ := hstart.trans hplace
    refine .word hcomment hend ?_ a b ?_ ?_
    · rintro hempty
      rw [hempty] at hne
      exact hne rfl
    · rw [hposition, Nat.zero_add]
      exact hk
    · rw [hposition]
  | comment b part a hw hne hline hwithin =>
    have hsplit : (before ++ b) ++ (part ++ (a ++ after)) = Text.normalized source.toList := by
      rw [hsource, hw]
      simp only [List.append_assoc]
    obtain ⟨k, c, d, hplace, hk⟩ :=
      Text.exists_line_of_unlines hlines hline (by simp [hne]) hsplit 0
    rw [← Position.after_append] at hwithin
    have hposition : Position.origin.after (before ++ b) = ⟨0 + k, c.length⟩ := hplace
    rw [hposition, Nat.zero_add] at hwithin
    have hbefore := hwithin.before
    refine .comment hwithin.kind (c ++ part ++ d) ?_ ?_
    · rw [hwithin.line]
      exact hk
    · simp only [List.length_append]
      simp only at hbefore
      omega

theorem exists_scanFrom (h : scan source = .ok ts) :
    ∃ us, scanFrom .origin (Text.normalized source.toList) = .ok us ∧
      ts = us ++ [Token.endOfFile (sourceEnd source.toList)] := by
  simp only [scan] at h
  split at h
  · cases h
  · next us hus =>
    cases h
    exact ⟨us, hus, rfl⟩

/-- Every token of a source stands in its lines. -/
theorem placed_of_mem_scan (h : scan source = .ok ts) {t : Token} (ht : t ∈ ts) :
    t.Placed source.toList := by
  obtain ⟨us, hus, rfl⟩ := exists_scanFrom h
  rcases List.mem_append.1 ht with ht | ht
  · obtain ⟨before, w, after, hsplit, hstands⟩ := standsIn_of_mem_scanFrom hus ht
    exact hstands.placed hsplit
  · exact .eof (List.mem_singleton.1 ht)

/-- Reading stops at a place in a line or at the end of one. -/
theorem exists_line_of_scan_error {x : ScanError} (h : scan source = .error x) :
    ∃ l, (Text.lines source.toList)[x.position.line]? = some l ∧ x.position.column ≤ l.length := by
  simp only [scan] at h
  split at h
  · next y hy =>
    cases h
    obtain ⟨before, w, rest, hsplit, hline, hne, hposition⟩ := position_of_scanFrom_error hy
    obtain ⟨k, a, b, hplace, hk⟩ := Text.exists_line_of_unlines
      (fun l hl => Text.newline_not_mem_of_mem_lines hl) hline hne hsplit.symm 0
    have horigin : Position.origin.after before = ⟨0 + k, a.length⟩ := hplace
    rw [horigin, Position.after_eq_shift _ hline] at hposition
    refine ⟨a ++ w ++ b, ?_, ?_⟩
    · rw [hposition, Position.shift, Nat.zero_add]
      exact hk
    · rw [hposition]
      simp [Position.shift]
  · cases h

/-- The tokens of a source are those that the grammar reads. -/
theorem toList_ofList_of_scan (h : scan source = .ok ts) :
    (TokenStream.ofList ts).toList = ts := by
  obtain ⟨us, hus, rfl⟩ := exists_scanFrom h
  have hend : ∀ t ∈ us, t.kind ≠ .eof := fun t ht => kind_ne_eof_of_mem_scanFrom hus ht
  rw [TokenStream.ofList_append hend rfl]
  rfl

end Sources

end GameSchema
