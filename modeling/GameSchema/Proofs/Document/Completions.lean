import GameSchema.Proofs.Completion
import GameSchema.Proofs.Document.EditRanges

/-!
# Accepted completions

Completion counts a place in the lines of a text without their line ends, while edits count it in
the text itself. Up to the end of a line the two mean the same place, and the word before it is one
part of the text, also when both are counted in bytes. So a change that replaces the word by a label
that starts with it puts the rest of the label at that place and changes nothing else.
-/

namespace GameSchema

namespace Completion

variable {text : String} {line : List Char} {l column : Nat}

theorem wordAt_of_line (hline : (Text.lines text.toList)[l]? = some line) :
    wordAt text l column = wordBefore line column := by
  rw [wordAt, List.getD_eq_getElem?_getD, hline, Option.getD_some]

/-- The word before a place is found in the text, between the columns that the place tells. -/
theorem exists_offsets_of_wordAt (hline : (Text.lines text.toList)[l]? = some line)
    (hcolumn : column ≤ line.length) : ∃ pre post,
      text.toList = pre ++ (wordAt text l column ++ post) ∧
      Text.offset text.toList ⟨l, column - (wordAt text l column).length⟩ = pre.length ∧
      Text.offset text.toList ⟨l, column⟩ = pre.length + (wordAt text l column).length := by
  rw [wordAt_of_line hline]
  obtain ⟨before, hbefore⟩ := (isWordBefore_wordBefore line column).suffix
  have hlength : column = before.length + (wordBefore line column).length := by
    rw [← List.length_append, hbefore, List.length_take_of_le hcolumn]
  have hparts : line = before ++ wordBefore line column ++ line.drop column := by
    rw [hbefore, List.take_append_drop]
  rw [hparts] at hline
  obtain ⟨pre, post, htext, -, -, hstart, hstop⟩ := Text.exists_offsets_of_line hline
  refine ⟨pre, post, htext, ?_, ?_⟩
  · rwa [show column - (wordBefore line column).length = before.length by omega]
  · rwa [← hlength] at hstop

end Completion

namespace DocumentStore

variable {s : DocumentStore} {uri : String} {d : Document} {line : List Char} {l column : Nat}

/-- Accepting a completion only inserts text: a change that puts the label of an item in place of
the word before the cursor leaves the text as it was, with what the word lacks at the cursor. -/
theorem change_at_completion (hopen : s.get? uri = some d)
    (hline : (Text.lines d.text.toList)[l]? = some line) (hcolumn : column ≤ line.length) :
    ∃ word i head tail, Utf8.wordBefore? (String.ofList line) column = some word ∧
      Completion.IsWordBefore (line.take column) word.toList ∧
      Utf8.offset? d.text ⟨l, column⟩ = some i ∧ Utf8.slice? d.text 0 i = some head ∧
      Utf8.slice? d.text i d.text.utf8ByteSize = some tail ∧
      s.completions? uri ⟨l, column⟩ =
        some (Completion.items s.version d.lastGood word.toList) ∧
      ∀ x ∈ Completion.items s.version d.lastGood word.toList, ∃ rest, x.label = word ++ rest ∧
        Utf8.perform? ⟨some ⟨⟨l, column - word.length⟩, ⟨l, column⟩⟩, x.label⟩ d.text =
          some (.ok (head ++ rest ++ tail)) ∧
        ∃ s', s.change uri [⟨some ⟨⟨l, column - word.length⟩, ⟨l, column⟩⟩, x.label⟩] = .ok s' ∧
          s'.text? uri = some (head ++ rest ++ tail) := by
  obtain ⟨pre, post, htext, hstart, hstop⟩ := Completion.exists_offsets_of_wordAt hline hcolumn
  have hword : Completion.wordAt d.text l column = Completion.wordBefore line column :=
    Completion.wordAt_of_line hline
  generalize hat : Completion.wordAt d.text l column = word at htext hstart hstop hword
  have hbehind : d.text.toList = (pre ++ word) ++ post := by rw [htext, List.append_assoc]
  have hparts : d.text = String.ofList (pre ++ word) ++ String.ofList post := by
    rw [← String.ofList_append, ← hbehind, String.ofList_toList]
  refine ⟨String.ofList word, Utf8.size (pre ++ word), String.ofList (pre ++ word),
    String.ofList post, ?_, ?_, ?_, ?_, ?_, ?_, ?_⟩
  · rw [Utf8.wordBefore?_eq, hword]
  · rw [String.toList_ofList, hword]
    exact Completion.isWordBefore_wordBefore line column
  · rw [Utf8.offset?_of_offset hbehind]
    rw [hstop, List.length_append]
  · rw [hparts]
    exact Utf8.slice?_head _ _
  · rw [hparts]
    exact Utf8.slice?_tail _ _
  · rw [completions?, hopen, Option.map_some, Document.completions, Completion.itemsAt, hat,
      String.toList_ofList]
  · intro x hx
    obtain ⟨rest, hrest⟩ := (Completion.mem_items_iff.1 hx).2
    have hlabel : x.label = String.ofList word ++ String.ofList rest := by
      apply String.toList_injective
      rw [← hrest, String.toList_append, String.toList_ofList, String.toList_ofList]
    have hperform :
        (⟨some ⟨⟨l, column - word.length⟩, ⟨l, column⟩⟩, x.label⟩ : Edit).perform? d.text =
          some (String.ofList (pre ++ word) ++ String.ofList rest ++ String.ofList post) := by
      rw [Edit.perform?_of_offsets htext hstart hstop, hlabel]
      simp only [String.ofList_append, String.append_assoc]
    rw [String.length_ofList]
    exact ⟨String.ofList rest, hlabel, Utf8.perform?_eq_ok_iff.2 hperform,
      exists_change_of_perform? hopen hperform⟩

/-- A line behind a tab, with a character of more than one byte, that ends in two characters. -/
def indentedDocument : String := "x\r\n\té:ev\r\n"

theorem change_at_indentedDocument : ∃ shown word i head tail,
    Utf8.wordBefore? (String.ofList ['\t', 'é', ':', 'e', 'v']) 5 = some word ∧
      Completion.IsWordBefore ['\t', 'é', ':', 'e', 'v'] word.toList ∧
      Utf8.offset? indentedDocument ⟨1, 5⟩ = some i ∧
      Utf8.slice? indentedDocument 0 i = some head ∧
      Utf8.slice? indentedDocument i indentedDocument.utf8ByteSize = some tail ∧
      ((empty "1.0.0").openText "a" indentedDocument).completions? "a" ⟨1, 5⟩ = some shown ∧
      ∀ x ∈ shown, ∃ rest, x.label = word ++ rest ∧
        Utf8.perform? ⟨some ⟨⟨1, 5 - word.length⟩, ⟨1, 5⟩⟩, x.label⟩ indentedDocument =
          some (.ok (head ++ rest ++ tail)) ∧
        ∃ s', ((empty "1.0.0").openText "a" indentedDocument).change "a"
            [⟨some ⟨⟨1, 5 - word.length⟩, ⟨1, 5⟩⟩, x.label⟩] = .ok s' ∧
          s'.text? "a" = some (head ++ rest ++ tail) := by
  have hopen : ((empty "1.0.0").openText "a" indentedDocument).get? "a" =
      some (.ofText "1.0.0" [] indentedDocument) := rfl
  have hline : (Text.lines indentedDocument.toList)[1]? = some ['\t', 'é', ':', 'e', 'v'] := by
    decide
  have hcolumn : 5 ≤ ['\t', 'é', ':', 'e', 'v'].length := by decide
  obtain ⟨word, i, head, tail, h⟩ := change_at_completion hopen hline hcolumn
  exact ⟨_, word, i, head, tail, h⟩

end DocumentStore

end GameSchema
