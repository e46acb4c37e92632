import GameSchema.Compilation
import GameSchema.Diagnostic.Render
import GameSchema.Proofs.Grammar.Provenance
import GameSchema.Proofs.Token.Geometry
import Mathlib

/-!
# Where diagnostics stand

A diagnostic stands in a line of its source, at a token that was read from there. The row of carets
in its rendering therefore points at the characters of that token.
-/

namespace GameSchema

namespace Text

theorem pieces_append_separator (separator : Char) (cs ds : List Char) :
    pieces separator (cs ++ separator :: ds) = pieces separator cs ++ pieces separator ds := by
  induction cs with
  | nil => simp
  | cons c cs ih =>
    by_cases hc : c = separator
    · rw [hc, List.cons_append, pieces_separator, pieces_separator, ih, List.cons_append]
    · obtain ⟨l, ls, hcs⟩ := List.exists_cons_of_ne_nil (pieces_ne_nil separator cs)
      rw [List.cons_append, pieces, if_neg hc, pieces, if_neg hc, ih, hcs]
      rfl

end Text

namespace Diagnostic

/-- The number of characters of the token of a diagnostic; a scan has none where it fails. -/
def width (d : Diagnostic) : Nat :=
  match d.token? with
  | none => 0
  | some t => t.length

/-- The row of a rendering that shows the line of the source. -/
def sourceRow (lines : List String) (d : Diagnostic) : List Char :=
  (d.gutter ++ " | " ++ lines.getD d.start.line "").toList

/-- The last row of a rendering, with the carets. -/
def caretRow (d : Diagnostic) : List Char :=
  List.replicate d.gutter.length ' ' ++ " | ".toList ++ d.underline.toList

/-- The columns of a rendering before those of the line of the source. -/
def margin (d : Diagnostic) : Nat := d.gutter.length + 3

section Rows

variable (d : Diagnostic) (lines : List String)

theorem newline_not_mem_gutter : '\n' ∉ d.gutter.toList := by
  intro hmem
  simp only [gutter, String.toList_ofList] at hmem
  rcases List.mem_append.1 hmem with hmem | hmem
  · cases (List.mem_replicate.1 hmem).2
  · have hdigit : Char.isDigit '\n' = true :=
      Nat.isDigit_of_mem_toDigits (b := 10) (n := d.start.line + 1) (by decide) (by decide)
        (by simpa using hmem)
    cases hdigit

theorem newline_not_mem_caretRow : '\n' ∉ d.caretRow := by
  simp [caretRow, underline]

/-- A rendering without colours ends in the row of the source and the row of carets. -/
theorem exists_pieces_renderPretty (file : String)
    (hline : '\n' ∉ (lines.getD d.start.line "").toList) :
    ∃ before, Text.pieces '\n' (d.renderPretty false file lines).toList =
      before ++ [d.sourceRow lines, d.caretRow, []] := by
  obtain ⟨head, hrender⟩ : ∃ head, (d.renderPretty false file lines).toList =
      head ++ '\n' :: (d.sourceRow lines ++ '\n' :: (d.caretRow ++ '\n' :: [])) := by
    refine ⟨(d.severity.word ++ ":" ++ " " ++ d.message ++ "\n" ++ "-->" ++ " " ++
      d.location file ++ "\n" ++ String.ofList (List.replicate d.gutter.length ' ') ++ " " ++
      "|").toList, ?_⟩
    simp [renderPretty, Style.paint, sourceRow, caretRow]
  have hrow : '\n' ∉ d.sourceRow lines := by
    simpa [sourceRow, newline_not_mem_gutter] using hline
  refine ⟨Text.pieces '\n' head, ?_⟩
  rw [hrender, Text.pieces_append_separator, Text.pieces_append hrow,
    Text.pieces_append d.newline_not_mem_caretRow]
  rfl

theorem getElem?_append_replicate {c : Char} {xs : List Char} (h : c ∉ xs) (n i : Nat) :
    (xs ++ List.replicate n c)[i]? = some c ↔ xs.length ≤ i ∧ i < xs.length + n := by
  rw [List.getElem?_append]
  split
  · next hi =>
    constructor
    · intro hc
      exact absurd (List.mem_of_getElem? hc) h
    · omega
  · rw [List.getElem?_replicate]
    split <;> simp <;> omega

/-- The carets stand behind the margin, from the column of the diagnostic on. -/
theorem getElem?_caretRow (i : Nat) : d.caretRow[i]? = some '^' ↔
    d.margin + d.start.column ≤ i ∧ i < d.margin + d.start.column + d.length := by
  have hrow : d.caretRow = List.replicate d.gutter.length ' ' ++ " | ".toList ++
      List.replicate d.start.column ' ' ++ List.replicate d.length '^' := by
    simp [caretRow, underline]
  have hblank : '^' ∉ List.replicate d.gutter.length ' ' ++ " | ".toList ++
      List.replicate d.start.column ' ' := by
    simp
  have hlength : (List.replicate d.gutter.length ' ' ++ " | ".toList ++
      List.replicate d.start.column ' ').length = d.margin + d.start.column := by
    simp [margin]
    omega
  rw [hrow, getElem?_append_replicate hblank, hlength]

theorem sourceRow_eq : d.sourceRow lines =
    (d.gutter ++ " | ").toList ++ (lines.getD d.start.line "").toList := by
  rw [sourceRow, String.toList_append]

theorem length_gutter_bar : (d.gutter ++ " | ").toList.length = d.margin := by
  rw [String.length_toList, String.length_append]
  rfl

end Rows

section Tokens

variable {d : Diagnostic} {t : Token}

theorem start_of_token (h : d.token? = some t) : d.start = t.start := by
  cases d <;> cases h <;> rfl

theorem width_of_token (h : d.token? = some t) : d.width = t.length := by
  simp only [width, h]

theorem length_of_token (h : d.token? = some t) : d.length = max t.length 1 := by
  simp only [length, h]

theorem forall_mem_token {P : Token → Prop} (htoken : d.token? = some t) (h : P t) :
    ∀ u ∈ d.token?, P u := by
  intro u hu
  rw [htoken] at hu
  cases hu
  exact h

end Tokens

end Diagnostic

/-- Where a diagnostic of a source with the given lines stands, and what its rendering shows. -/
structure Diagnostic.Located (source : String) (lines : List String) (d : Diagnostic) : Prop where
  /-- The token ends in the line that it starts in. Without lines the start is that of the text. -/
  inside : (∃ l, lines[d.start.line]? = some l ∧ d.start.column + d.width ≤ l.length) ∨
    lines = [] ∧ d.start = .origin
  scanned : ∀ t ∈ d.token?, ∃ ts, GameSchema.scan source = .ok ts ∧ t ∈ ts
  /-- The line has the characters of the token from its column on. -/
  lexeme : ∀ t ∈ d.token?, t.kind ≠ .comment →
    ((lines.getD d.start.line "").toList.drop d.start.column).take t.length = t.lexeme.toList
  rows : ∀ file, ∃ before, Text.pieces '\n' (d.renderPretty false file lines).toList =
    before ++ [d.sourceRow lines, d.caretRow, []]
  span : ∀ i, d.caretRow[i]? = some '^' ↔
    d.margin + d.start.column ≤ i ∧ i < d.margin + d.start.column + d.length
  /-- There is a caret exactly below every character of the token. -/
  carets : ∀ t ∈ d.token?, t.kind ≠ .comment → t.kind ≠ .eof → ∃ left right,
    d.sourceRow lines = left ++ t.lexeme.toList ++ right ∧
      left.length = d.margin + d.start.column ∧
        ∀ i, d.caretRow[i]? = some '^' ↔ left.length ≤ i ∧ i < left.length + t.length
  /-- At the end of the file there is one caret, behind the row. -/
  caretAtEnd : ∀ t ∈ d.token?, t.kind = .eof →
    ∀ i, d.caretRow[i]? = some '^' ↔ i = (d.sourceRow lines).length

section Lines

variable {source : String} {d : Diagnostic} {t : Token}

theorem getElem?_sourceLines (n : Nat) :
    (sourceLines source)[n]? = ((Text.lines source.toList)[n]?).map String.ofList :=
  List.getElem?_map

theorem getD_sourceLines {n : Nat} {l : List Char} (h : (Text.lines source.toList)[n]? = some l) :
    ((sourceLines source).getD n "").toList = l := by
  rw [List.getD_eq_getElem?_getD, getElem?_sourceLines, h]
  exact String.toList_ofList

theorem newline_not_mem_sourceLines (n : Nat) :
    '\n' ∉ ((sourceLines source).getD n "").toList := by
  cases h : (Text.lines source.toList)[n]? with
  | none =>
    rw [List.getD_eq_getElem?_getD, getElem?_sourceLines, h]
    simp
  | some l =>
    rw [getD_sourceLines h]
    exact Text.newline_not_mem_of_mem_lines (List.mem_of_getElem? h)

/-- Either a source has no lines, or it ends at the end of its last line. -/
theorem sourceEnd_cases (source : String) :
    (Text.lines source.toList = [] ∧ sourceEnd source.toList = .origin) ∨
      ∃ l, (Text.lines source.toList)[(sourceEnd source.toList).line]? = some l ∧
        (sourceEnd source.toList).column = l.length := by
  cases h : (Text.lines source.toList).getLast? with
  | none =>
    left
    exact ⟨List.getLast?_eq_none_iff.1 h, by simp only [sourceEnd, h]⟩
  | some l =>
    right
    refine ⟨l, ?_, ?_⟩
    · simp only [sourceEnd, h]
      rw [← List.getLast?_eq_getElem?, h]
    · simp only [sourceEnd, h]

namespace Diagnostic

theorem inside_of_line {l : List Char}
    (hline : (Text.lines source.toList)[d.start.line]? = some l)
    (hfit : d.start.column + d.width ≤ l.length) :
    ∃ l, (sourceLines source)[d.start.line]? = some l ∧ d.start.column + d.width ≤ l.length := by
  refine ⟨String.ofList l, ?_, ?_⟩
  · rw [getElem?_sourceLines, hline]
    rfl
  · rwa [String.length_ofList]

theorem exists_rows (file : String) : ∃ before,
    Text.pieces '\n' (d.renderPretty false file (sourceLines source)).toList =
      before ++ [d.sourceRow (sourceLines source), d.caretRow, []] :=
  d.exists_pieces_renderPretty _ file (newline_not_mem_sourceLines d.start.line)

/-- The carets of a token that is a part of its line. -/
theorem carets_of_line {before after : List Char}
    (hline : (Text.lines source.toList)[d.start.line]? = some (before ++ t.lexeme.toList ++ after))
    (hcolumn : before.length = d.start.column) (hlength : d.length = t.length) :
    ∃ left right, d.sourceRow (sourceLines source) = left ++ t.lexeme.toList ++ right ∧
      left.length = d.margin + d.start.column ∧
        ∀ i, d.caretRow[i]? = some '^' ↔ left.length ≤ i ∧ i < left.length + t.length := by
  have hleft : ((d.gutter ++ " | ").toList ++ before).length = d.margin + d.start.column := by
    rw [List.length_append, length_gutter_bar, hcolumn]
  refine ⟨(d.gutter ++ " | ").toList ++ before, after, ?_, hleft, ?_⟩
  · rw [sourceRow_eq, getD_sourceLines hline]
    simp only [List.append_assoc]
  · intro i
    rw [getElem?_caretRow, hleft, hlength]

/-- The caret at the end of the last line. -/
theorem caret_of_end (hlength : d.length = 1)
    (hend : ((sourceLines source).getD d.start.line "").toList.length = d.start.column) (i : Nat) :
    d.caretRow[i]? = some '^' ↔ i = (d.sourceRow (sourceLines source)).length := by
  rw [getElem?_caretRow, sourceRow_eq, List.length_append, length_gutter_bar, hend, hlength]
  omega

/-- What stands at the end of a source stands in its last line, if it has lines. -/
theorem inside_of_end (hend : d.start = sourceEnd source.toList) (hwidth : d.width = 0) :
    (∃ l, (sourceLines source)[d.start.line]? = some l ∧ d.start.column + d.width ≤ l.length) ∨
      sourceLines source = [] ∧ d.start = .origin := by
  rcases sourceEnd_cases source with ⟨hnone, horigin⟩ | ⟨l, hline, hcolumn⟩
  · right
    exact ⟨by rw [sourceLines, hnone]; rfl, hend.trans horigin⟩
  · left
    rw [← hend] at hline hcolumn
    exact inside_of_line hline (by omega)

theorem length_line_of_end (hend : d.start = sourceEnd source.toList) :
    ((sourceLines source).getD d.start.line "").toList.length = d.start.column := by
  rcases sourceEnd_cases source with ⟨hnone, horigin⟩ | ⟨l, hline, hcolumn⟩
  · rw [hend, horigin, List.getD_eq_getElem?_getD, getElem?_sourceLines, hnone]
    rfl
  · rw [← hend] at hline hcolumn
    rw [getD_sourceLines hline, hcolumn]

theorem located_of_placed (htoken : d.token? = some t) (hplaced : t.Placed source.toList)
    (hscan : ∃ ts, GameSchema.scan source = .ok ts ∧ t ∈ ts) :
    d.Located source (sourceLines source) := by
  have hstart := start_of_token htoken
  have hwidth := width_of_token htoken
  have hlength := length_of_token htoken
  have hscanned : ∀ u ∈ d.token?, ∃ ts, GameSchema.scan source = .ok ts ∧ u ∈ ts :=
    forall_mem_token htoken hscan
  cases hplaced with
  | word hcomment hend hne before after hline hcolumn =>
    rw [← hstart] at hline hcolumn
    have hpos : t.length ≠ 0 := fun h => hne (String.length_eq_zero_iff.1 h)
    have hmax : d.length = t.length := by omega
    refine ⟨.inl (inside_of_line hline ?_), hscanned, forall_mem_token htoken ?_, exists_rows,
      d.getElem?_caretRow, forall_mem_token htoken ?_, forall_mem_token htoken ?_⟩
    · simp only [hwidth, ← hcolumn, List.length_append, String.length_toList, Token.length]
      omega
    · intro _
      rw [getD_sourceLines hline, ← hcolumn, List.append_assoc, List.drop_left, Token.length,
        ← String.length_toList, List.take_left]
    · intro _ _
      exact carets_of_line hline hcolumn hmax
    · intro heof
      exact absurd heof hend
  | comment hcomment l hline hfit =>
    rw [← hstart] at hline hfit
    refine ⟨.inl (inside_of_line hline ?_), hscanned, forall_mem_token htoken ?_, exists_rows,
      d.getElem?_caretRow, forall_mem_token htoken ?_, forall_mem_token htoken ?_⟩
    · rw [hwidth]
      exact hfit
    · intro hne
      exact absurd hcomment hne
    · intro hne
      exact absurd hcomment hne
    · intro heof
      rw [hcomment] at heof
      cases heof
  | eof h =>
    have hzero : t.length = 0 := by rw [h]; rfl
    have hplace : d.start = sourceEnd source.toList := by rw [hstart, h]; rfl
    have hone : d.length = 1 := by omega
    have hlexeme : t.lexeme.toList = [] := by rw [h]; rfl
    refine ⟨inside_of_end hplace (hwidth.trans hzero), hscanned, forall_mem_token htoken ?_,
      exists_rows, d.getElem?_caretRow, forall_mem_token htoken ?_, forall_mem_token htoken ?_⟩
    · intro _
      rw [hzero, List.take_zero, hlexeme]
    · intro _ hne
      rw [h] at hne
      exact absurd rfl hne
    · intro _
      exact caret_of_end hone (length_line_of_end hplace)

theorem located_of_scan_error {x : ScanError} (h : GameSchema.scan source = .error x) :
    (Diagnostic.scan x).Located source (sourceLines source) := by
  obtain ⟨l, hline, hfit⟩ := exists_line_of_scan_error h
  refine ⟨.inl (inside_of_line hline hfit), ?_, ?_, exists_rows, getElem?_caretRow _, ?_, ?_⟩
  all_goals
    intro t ht
    cases ht

end Diagnostic

/-- A diagnostic of a source is about one of its tokens, unless the source cannot be cut into
tokens. -/
theorem scanned_of_mem_compile {version source : String} {d : Diagnostic}
    (h : d ∈ (compile version source).diagnostics) :
    (∃ x, GameSchema.scan source = .error x ∧ d = .scan x) ∨
      ∃ ts, GameSchema.scan source = .ok ts ∧ ∃ t ∈ ts, d.token? = some t := by
  simp only [compile] at h
  split at h
  · next x hx => exact .inl ⟨x, hx, List.mem_singleton.1 h⟩
  · next ts hts =>
    refine .inr ⟨ts, hts, ?_⟩
    rw [← toList_ofList_of_scan hts]
    rcases List.mem_append.1 h with h | h
    · exact at_of_mem_parse h
    · obtain ⟨a, ha, t, ht, htoken⟩ := Cycle.exists_node_of_mem_diagnostics h
      obtain ⟨u, hu, hname, -⟩ := namedBy_of_mem_parse ha
      rw [ht] at hname
      cases hname
      exact ⟨t, hu, htoken⟩

/-- Every diagnostic of a source stands in its lines, at a token that was read there, and its
rendering points at the characters of that token. -/
theorem located_of_mem_compile {version source : String} {d : Diagnostic}
    (h : d ∈ (compile version source).diagnostics) :
    d.Located source (compile version source).lines := by
  rw [Compilation.lines_compile]
  rcases scanned_of_mem_compile h with ⟨x, hx, rfl⟩ | ⟨ts, hts, t, ht, htoken⟩
  · exact Diagnostic.located_of_scan_error hx
  · exact Diagnostic.located_of_placed htoken (placed_of_mem_scan hts ht) ⟨ts, hts, ht⟩

/-- A type that nothing declares, in the second line. -/
def undeclaredType : String := "name g version 1.0.0\ntype A { b: C }"

theorem located_undeclaredType : ∃ d ∈ (compile "1.0.0" undeclaredType).diagnostics,
    d.Located undeclaredType (compile "1.0.0" undeclaredType).lines := by
  have h : (compile "1.0.0" undeclaredType).diagnostics =
      [.semantic .undefinedType ⟨.identifier, "C", ⟨1, 12⟩⟩] := by cbv
  have hmem : Diagnostic.semantic .undefinedType ⟨.identifier, "C", ⟨1, 12⟩⟩ ∈
      (compile "1.0.0" undeclaredType).diagnostics := by
    rw [h]
    exact List.mem_cons_self
  exact ⟨_, hmem, located_of_mem_compile hmem⟩

end Lines

end GameSchema
