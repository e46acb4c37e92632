import GameSchema.Proofs.Token.LexicalGrammar

/-!
# Printed tokens

The tokens of a source can be printed one after the other, with a blank or the end of a line between
them, and are read again as they were. A comment is printed to the end of its line, whichever kind
of comment it came from; every other token is printed before a blank, which no token goes on with.
-/

namespace GameSchema
open Scan Text

/-- The text of a token and what keeps it apart from the next one. -/
def Token.print (t : Token) : String :=
  match t.kind with
  | .eof => ""
  | .comment => "// " ++ t.lexeme ++ "\n"
  | _ => t.lexeme ++ " "

def printTokens (ts : List Token) : String := String.join (ts.map Token.print)

theorem toList_printTokens_cons (t : Token) (ts : List Token) :
    (printTokens (t :: ts)).toList = t.print.toList ++ (printTokens ts).toList := by
  simp [printTokens, String.toList_join]

/-- What tokens say does not depend on their places. -/
theorem map_content_unplaced (ts : List Token) :
    (ts.map Token.unplaced).map Token.content = ts.map Token.content := by
  rw [List.map_map]
  rfl

section Symbols

variable {rest cs w : List Char} {ws : List (TokenKind × String)} {x : TokenKind × String}

/-- What an element says is a word, a comment, a version number or punctuation. -/
theorem LexicalGrammar.IsElement.symbol (h : LexicalGrammar.IsElement w rest ws) (hx : x ∈ ws)
    (hword : x.1.isWord = false) (hcomment : x.1 ≠ .comment) (hversion : x.1 ≠ .versionNumber) :
    ∃ c, (c, x.1) ∈ LexicalGrammar.punctuation ∧ x.2 = c.toString := by
  cases h with
  | layout h => cases hx
  | punctuation h =>
    rw [List.mem_singleton.1 hx]
    exact ⟨_, h, rfl⟩
  | @word w k _ h hk hrest =>
    rw [List.mem_singleton.1 hx, ← LexicalGrammar.isWordKind_iff.1 hk, isWord_wordKind] at hword
    cases hword
  | versionNumber => exact absurd (by rw [List.mem_singleton.1 hx]) hversion
  | lineComment => exact absurd (by rw [List.mem_singleton.1 hx]) hcomment
  | blockComment h =>
    obtain ⟨l, -, hl⟩ := List.mem_filterMap.1 hx
    rw [LexicalGrammar.lineWord?] at hl
    split at hl
    · cases hl
    · cases hl
      exact absurd rfl hcomment

theorem LexicalGrammar.Elements.symbol (h : LexicalGrammar.Elements rest cs ws) (hx : x ∈ ws)
    (hword : x.1.isWord = false) (hcomment : x.1 ≠ .comment) (hversion : x.1 ≠ .versionNumber) :
    ∃ c, (c, x.1) ∈ LexicalGrammar.punctuation ∧ x.2 = c.toString := by
  induction h with
  | nil => cases hx
  | cons h hr ih =>
    rcases List.mem_append.1 hx with hx | hx
    · exact h.symbol hx hword hcomment hversion
    · exact ih hx

end Symbols

section Tokens

/-- A token whose text, printed, is read as the token again: as a comment to the end of a line, or
before a blank. -/
inductive Token.Separable (t : Token) : Prop
  | comment (hk : t.kind = .comment) (h : IsCommentText t.lexeme)
  | blank (hcomment : t.kind ≠ .comment) (hend : t.kind ≠ .eof) (hline : NoBreak t.lexeme.toList)
      (hscans : ∀ rest, ScansTo (t.lexeme.toList ++ ' ' :: rest) [t.unplaced] (' ' :: rest))

theorem Token.separable_of_punctuation {t : Token} {c : Char}
    (hc : (c, t.kind) ∈ LexicalGrammar.punctuation) (ht : t.lexeme = c.toString) :
    t.Separable := by
  have htable : ∀ x ∈ LexicalGrammar.punctuation, x.2 ≠ .comment ∧ x.2 ≠ .eof ∧
      (x.1 ≠ '\n' ∧ x.1 ≠ '\r') ∧ x.1.toString = x.2.text := by decide
  obtain ⟨hcomment, hend, hbreak, htext⟩ := htable _ hc
  have hlist : t.lexeme.toList = [c] := by
    rw [ht, Char.toString_eq_singleton, String.toList_singleton]
  have hsymbol : t.unplaced = .symbol t.kind := by rw [unplaced, symbol, ← htext, ← ht]
  refine .blank hcomment hend ?_ ?_
  · rw [hlist]
    exact .cons hbreak noBreak_nil
  · intro rest
    rw [hlist, hsymbol]
    exact .symbol (LexicalGrammar.punctuation_iff.2 hc)

theorem separable_of_mem_scanFrom {p : Position} {cs : List Char} {ts : List Token} {t : Token}
    (h : scanFrom p cs = .ok ts) (ht : t ∈ ts) : t.Separable := by
  have hlexical := lexical_of_mem_scanFrom h t ht
  have hend := kind_ne_eof_of_mem_scanFrom h ht
  by_cases hcomment : t.kind = .comment
  · exact .comment hcomment (hlexical.comment hcomment)
  by_cases hversion : t.kind = .versionNumber
  · have hnumber := hlexical.versionNumber hversion
    refine .blank hcomment hend hnumber.noBreak fun rest => ?_
    have hunplaced : t.unplaced = ⟨.versionNumber, t.lexeme, .origin⟩ := by
      rw [Token.unplaced, hversion]
    rw [hunplaced]
    exact .versionNumber hnumber (by simp) (by rintro c ⟨⟩; decide)
  cases hword : t.kind.isWord with
  | true =>
    exact .blank hcomment hend (hlexical.word hword).1.noBreak
      fun rest => hlexical.scansTo hword (by rintro c ⟨⟩; decide)
  | false =>
    obtain ⟨c, hc, hlexeme⟩ := (LexicalGrammar.elements_of_scanFrom h).symbol
      (List.mem_map_of_mem ht) hword hcomment hversion
    exact Token.separable_of_punctuation hc hlexeme

variable {t : Token}

theorem Token.toList_print_comment (h : t.kind = .comment) :
    t.print.toList = '/' :: '/' :: ' ' :: t.lexeme.toList ++ ['\n'] := by
  simp [print, h]

theorem Token.toList_print_blank (hcomment : t.kind ≠ .comment) (hend : t.kind ≠ .eof) :
    t.print.toList = t.lexeme.toList ++ [' '] := by
  rw [print]
  split
  · next h => exact absurd h hend
  · next h => exact absurd h hcomment
  · rw [String.toList_append]
    rfl

/-- A printed token is read up to what is printed behind it. -/
theorem Token.Separable.scansTo (h : t.Separable) (rest : List Char) :
    ScansTo (t.print.toList ++ rest) [t.unplaced] rest := by
  cases h with
  | comment hk h =>
    have hunplaced : t.unplaced = ⟨.comment, t.lexeme, .origin⟩ := by rw [unplaced, hk]
    have hnewline : ScansTo ('\n' :: rest) [] rest := .layout rfl
    rw [Token.toList_print_comment hk, hunplaced]
    simpa using (ScansTo.comment h).trans hnewline
  | blank hcomment hend hline hscans =>
    have hblank : ScansTo (' ' :: rest) [] rest := .layout rfl
    rw [Token.toList_print_blank hcomment hend]
    simpa using (hscans rest).trans hblank

theorem scansTo_printTokens {ts : List Token} (h : ∀ t ∈ ts, t.Separable) (rest : List Char) :
    ScansTo ((printTokens ts).toList ++ rest) (ts.map Token.unplaced) rest := by
  induction ts with
  | nil => exact .refl rest
  | cons t ts ih =>
    obtain ⟨ht, hts⟩ := List.forall_mem_cons.1 h
    rw [toList_printTokens_cons, List.append_assoc]
    exact (ht.scansTo _).trans (ih hts)

end Tokens

section Lines

/-- A text on one line is completed by a newline, unless it is empty. -/
theorem Text.NoBreak.normalized {cs : List Char} (h : NoBreak cs) (hne : cs ≠ []) :
    normalized cs = cs ++ ['\n'] := by
  obtain ⟨c, hc⟩ := List.getLast?_isSome.2 hne |> Option.isSome_iff_exists.1
  have hlast := h c (List.mem_of_getLast? hc)
  have hclean : ∀ l ∈ [cs], CleanLine l := by simpa using h.cleanLine
  have hunlines : cs ++ ['\n'] = unlines [cs] := by simp
  rw [normalized_of_append hunlines hclean hc hlast.1 hlast.2, hunlines]

/-- Printed tokens are a text of clean lines. Those behind the last comment lack their newline. -/
theorem normalized_printTokens {ts : List Token} (h : ∀ t ∈ ts, t.Separable) {cs : List Char}
    (hcs : NoBreak cs) : ∃ more, (more = [] ∨ more = ['\n']) ∧
      normalized (cs ++ (printTokens ts).toList) = cs ++ (printTokens ts).toList ++ more := by
  induction ts generalizing cs with
  | nil =>
    have hnil : (printTokens []).toList = [] := rfl
    rw [hnil, List.append_nil]
    by_cases hne : cs = []
    · subst hne
      exact ⟨[], .inl rfl, rfl⟩
    · exact ⟨_, .inr rfl, hcs.normalized hne⟩
  | cons t ts ih =>
    obtain ⟨ht, hts⟩ := List.forall_mem_cons.1 h
    rw [toList_printTokens_cons]
    cases ht with
    | comment hk htext =>
      obtain ⟨more, hmore, hrest⟩ := ih hts noBreak_nil
      refine ⟨more, hmore, ?_⟩
      have hlines := (htext.cleanLine hcs).lines_append (printTokens ts).toList
      rw [normalized_eq_unlines, List.nil_append] at hrest
      rw [Token.toList_print_comment hk, normalized_eq_unlines]
      simpa [hrest] using congrArg unlines hlines
    | blank hcomment hend hline hscans =>
      obtain ⟨more, hmore, hrest⟩ := ih hts ((hcs.append hline).concat (c := ' ') (by decide))
      refine ⟨more, hmore, ?_⟩
      rw [Token.toList_print_blank hcomment hend]
      simpa using hrest

end Lines

/-- The printed tokens of a source are read as tokens of the same kinds with the same texts. -/
theorem scan_printTokens {source : String} {ts : List Token} (h : scan source = .ok ts) :
    ∃ us, scan (printTokens ts) = .ok us ∧ us.map Token.content = ts.map Token.content := by
  obtain ⟨vs, hvs, rfl⟩ := exists_scanFrom h
  have hseparable : ∀ t ∈ vs, t.Separable := fun t ht => separable_of_mem_scanFrom hvs ht
  have hprint : (printTokens (vs ++ [Token.endOfFile (sourceEnd source.toList)])).toList =
      (printTokens vs).toList := by
    simp [printTokens, String.toList_join, Token.print, Token.endOfFile]
  obtain ⟨more, hmore, hnormalized⟩ := normalized_printTokens hseparable noBreak_nil
  have hlayout : ScansTo more [] [] := by
    rcases hmore with rfl | rfl
    · exact .refl []
    · exact .layout rfl
  obtain ⟨us, hus, hscan⟩ :=
    ((scansTo_printTokens hseparable more).trans hlayout).scanFrom_eq .origin
  have hcontent : us.map Token.content = vs.map Token.content := by
    rw [← map_content_unplaced, hus, List.append_nil, map_content_unplaced]
  refine ⟨us ++ [Token.endOfFile (sourceEnd (printTokens vs).toList)], ?_, ?_⟩
  · simp only [List.nil_append] at hnormalized
    simp only [scan, hprint, hnormalized, hscan]
  · simp only [List.map_append, hcontent]
    rfl

/-- Comments of both kinds, a carriage return inside of one, and tokens that touch each other. -/
def touchingSource : String := "/* a\r b\n** /*c*/*/1a:b<2.3,//\n// d\re\r\n\x7d"

theorem scan_printTokens_touching : ∃ ts, scan touchingSource = .ok ts ∧
    ∃ us, scan (printTokens ts) = .ok us ∧ us.map Token.content = ts.map Token.content := by
  have h : scan touchingSource = .ok [⟨.comment, "a\r b", ⟨0, 3⟩⟩, ⟨.comment, "* c", ⟨1, 1⟩⟩,
      ⟨.versionNumber, "1", ⟨1, 10⟩⟩, ⟨.identifier, "a", ⟨1, 11⟩⟩, ⟨.colon, ":", ⟨1, 12⟩⟩,
      ⟨.identifier, "b", ⟨1, 13⟩⟩, ⟨.less, "<", ⟨1, 14⟩⟩, ⟨.versionNumber, "2.3", ⟨1, 15⟩⟩,
      ⟨.comma, ",", ⟨1, 18⟩⟩, ⟨.comment, "", ⟨1, 21⟩⟩, ⟨.comment, "d\re", ⟨2, 3⟩⟩,
      ⟨.closeCurly, "\x7d", ⟨3, 0⟩⟩, ⟨.eof, "", ⟨3, 1⟩⟩] := by cbv
  exact ⟨_, h, scan_printTokens h⟩

end GameSchema
