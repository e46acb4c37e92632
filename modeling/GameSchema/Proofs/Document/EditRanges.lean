import GameSchema.Proofs.Diagnostic.Locations
import GameSchema.Proofs.Document.History
import GameSchema.Proofs.Document.Utf8
import Mathlib

/-!
# Diagnostics as edit ranges

Diagnostics count places in lines without their line ends, while edits count them in the text
itself, where only newlines end a line and a carriage return is a character, and cut it at bytes.
The two agree on every token: what a line has lost at its end lies behind its tokens. So a change of
the range that is published for a diagnostic replaces exactly the token that the diagnostic is
about.
-/

namespace GameSchema

/-- An edit of a range that starts and stops at the ends of a part replaces that part. -/
theorem Edit.perform?_of_offsets {source : String} {r : Range} {pre w post : List Char}
    (hsource : source.toList = pre ++ (w ++ post))
    (hstart : Text.offset source.toList r.start = pre.length)
    (hstop : Text.offset source.toList r.stop = pre.length + w.length) (new : String) :
    (⟨some r, new⟩ : Edit).perform? source =
      some (String.ofList pre ++ new ++ String.ofList post) := by
  have hle : ¬ pre.length + w.length < pre.length := by omega
  have hsplice : Text.splice source.toList pre.length (pre.length + w.length) new.toList =
      pre ++ new.toList ++ post := by
    rw [Text.splice, hsource, List.take_left, ← List.append_assoc pre w post,
      ← List.length_append, List.drop_left]
  simp only [perform?, hstart, hstop, if_neg hle, hsplice]
  congr 1
  apply String.toList_injective
  simp

namespace DocumentStore

variable {version uri : String} {calls : List Call} {d : Document}

/-- An open document is compiled. -/
theorem compiled_of_get?_run (h : (run version calls).get? uri = some d) :
    d.compilation = compile version d.text := by
  rcases exists_lastOpen uri calls with hno | ⟨text, later, hlast⟩
  · have hnone : (run version calls).get? uri = none := get?_foldl_of_closed rfl hno
    rw [h] at hnone
    cases hnone
  · by_cases hclose : .close uri ∈ later
    · rw [get?_run_of_close version hlast hclose] at h
      cases h
    · obtain ⟨d', hget, hreflects, -⟩ := get?_run_of_lastOpen version hlast hclose
      rw [h] at hget
      cases hget
      exact hreflects.compiled

/-- A change of one edit that can be made succeeds and leaves the text that the edit gives. -/
theorem exists_change_of_perform? {s : DocumentStore} {e : Edit} {text : String}
    (hopen : s.get? uri = some d) (he : e.perform? d.text = some text) :
    ∃ s', s.change uri [e] = .ok s' ∧ s'.text? uri = some text := by
  have hall : Edit.performAll? [e] d.text = some text := by
    rw [Edit.performAll?_cons, he]
    rfl
  refine ⟨_, change_of_success hopen hall, ?_⟩
  simp [text?, Document.ofText]

/-- A change of the range that is published for a diagnostic replaces the token of the diagnostic,
which stands in the text of the document where the start of the range says. -/
theorem change_at_diagnostic (new : String) {i : Nat} {x : Diagnostic} {t : Token}
    {shown : List DocumentDiagnostic} {y : DocumentDiagnostic}
    (hopen : (run version calls).get? uri = some d)
    (hx : d.compilation.diagnostics[i]? = some x) (htoken : x.token? = some t)
    (hcomment : t.kind ≠ .comment) (hend : t.kind ≠ .eof)
    (hshown : (run version calls).diagnostics? uri = some shown) (hy : shown[i]? = some y) :
    ∃ pre post, d.text = pre ++ t.lexeme ++ post ∧
      pre.toList.count '\n' = y.range.start.line ∧
      (pre.toList.reverse.takeWhile (· ≠ '\n')).length = y.range.start.column ∧
      Utf8.offset? d.text y.range.start = some pre.utf8ByteSize ∧
      Utf8.offset? d.text y.range.stop = some (pre.utf8ByteSize + t.lexeme.utf8ByteSize) ∧
      Utf8.perform? ⟨some y.range, new⟩ d.text = some (.ok (pre ++ new ++ post)) ∧
      ∃ s, (run version calls).change uri [⟨some y.range, new⟩] = .ok s ∧
        s.text? uri = some (pre ++ new ++ post) := by
  have hrange : y.range = ⟨t.start, t.start.shift x.length⟩ := by
    rw [diagnostics?, hopen, Option.map_some] at hshown
    cases hshown
    rw [Document.diagnostics, List.getElem?_map, hx] at hy
    cases hy
    simp only [Diagnostic.range, Diagnostic.start_of_token htoken]
  have hplaced : t.Placed d.text.toList := by
    rw [compiled_of_get?_run hopen] at hx
    rcases scanned_of_mem_compile (List.mem_of_getElem? hx) with
      ⟨e, -, rfl⟩ | ⟨ts, hts, u, hu, hsame⟩
    · cases htoken
    · cases htoken.symm.trans hsame
      exact placed_of_mem_scan hts hu
  cases hplaced with
  | comment h => exact absurd h hcomment
  | eof h =>
    rw [h] at hend
    exact absurd rfl hend
  | word _ _ hne before after hline hcolumn =>
    have hpos : t.length ≠ 0 := fun h => hne (String.length_eq_zero_iff.1 h)
    have hlength : x.length = t.lexeme.toList.length := by
      rw [Diagnostic.length_of_token htoken, String.length_toList]
      exact Nat.max_eq_left (Nat.pos_of_ne_zero hpos)
    obtain ⟨pre, post, htext, hcount, hlast, hstart, hstop⟩ := Text.exists_offsets_of_line hline
    rw [hcolumn] at hlast hstart hstop
    have hbehind : d.text.toList = (pre ++ t.lexeme.toList) ++ post := by
      rw [htext, List.append_assoc]
    have hperform : (⟨some y.range, new⟩ : Edit).perform? d.text =
        some (String.ofList pre ++ new ++ String.ofList post) := by
      rw [hrange]
      apply Edit.perform?_of_offsets htext hstart
      rw [hlength]
      exact hstop
    refine ⟨String.ofList pre, String.ofList post, ?_, ?_, ?_, ?_, ?_, ?_, ?_⟩
    · apply String.toList_injective
      simp [htext]
    · rw [String.toList_ofList, hcount, hrange]
    · rw [String.toList_ofList, hlast, hrange]
    · rw [hrange]
      exact Utf8.offset?_of_offset htext hstart
    · rw [hrange, Position.shift, hlength, Utf8.offset?_of_offset hbehind, Utf8.size_append,
        Utf8.size_toList]
      · rfl
      · rw [hstop, List.length_append]
    · exact Utf8.perform?_eq_ok_iff.2 hperform
    · exact exists_change_of_perform? hopen hperform

/-- A document with line ends of two characters, where a type is not declared. -/
def crlfDocument : String := "// é\r\nname g version 1.0.0\r\ntype A { b: C }\r\n"

theorem change_at_crlfDocument : ∃ shown y,
    (run "1.0.0" [.openText "a" crlfDocument]).diagnostics? "a" = some shown ∧
    shown[0]? = some y ∧ ∃ pre post, crlfDocument = pre ++ "C" ++ post ∧
      pre.toList.count '\n' = y.range.start.line ∧
      (pre.toList.reverse.takeWhile (· ≠ '\n')).length = y.range.start.column ∧
      Utf8.offset? crlfDocument y.range.start = some pre.utf8ByteSize ∧
      Utf8.offset? crlfDocument y.range.stop =
        some (pre.utf8ByteSize + ("C" : String).utf8ByteSize) ∧
      Utf8.perform? ⟨some y.range, "int"⟩ crlfDocument = some (.ok (pre ++ "int" ++ post)) ∧
      ∃ s, (run "1.0.0" [.openText "a" crlfDocument]).change "a" [⟨some y.range, "int"⟩] = .ok s ∧
        s.text? "a" = some (pre ++ "int" ++ post) := by
  have hopen : (run "1.0.0" [.openText "a" crlfDocument]).get? "a" =
      some (.ofText "1.0.0" [] crlfDocument) := rfl
  have hx : (Document.ofText "1.0.0" [] crlfDocument).compilation.diagnostics[0]? =
      some (.semantic .undefinedType ⟨.identifier, "C", ⟨2, 12⟩⟩) := by cbv
  have hshown : (run "1.0.0" [.openText "a" crlfDocument]).diagnostics? "a" =
      some (Document.ofText "1.0.0" [] crlfDocument).diagnostics := rfl
  have hy : (Document.ofText "1.0.0" [] crlfDocument).diagnostics[0]? =
      some ⟨⟨⟨2, 12⟩, ⟨2, 13⟩⟩, .error, "Undefined type 'C'"⟩ := by
    rw [Document.diagnostics, List.getElem?_map, hx]
    rfl
  exact ⟨_, _, hshown, hy, change_at_diagnostic "int" hopen hx rfl (by simp) (by simp) hshown hy⟩

end DocumentStore

end GameSchema
