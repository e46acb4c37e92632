import GameSchema.Compilation
import GameSchema.Completion
import GameSchema.Proofs.Grammar.Extension
import GameSchema.Proofs.Grammar.Printability
import GameSchema.Proofs.Grammar.Provenance
import Mathlib

/-!
# What completion offers

The word before a cursor is as long as it can be without a separator. The words of the language have
no separators, so a declared type is offered wherever its name has been begun. It is offered once:
the types and enums of a source have different names, however broken the source is, and none of them
has the name of a keyword, a built-in type or a snippet, since the scanner reserves all of these.
-/

namespace GameSchema

namespace Completion

section Words

/-- The characters that no word before a cursor has. -/
def separators : List Char := [' ', '\t', '<', '>', ':', ',']

/-- The longest end of the text before a cursor that has no separator. -/
structure IsWordBefore (head word : List Char) : Prop where
  suffix : word <:+ head
  free : ∀ c ∈ word, c ∉ separators
  longest : ∀ w, w <:+ head → (∀ c ∈ w, c ∉ separators) → w <:+ word

variable {line before word : List Char} {column : Nat}

theorem isSeparator_iff {c : Char} : isSeparator c = true ↔ c ∈ separators := by
  simp [isSeparator, separators, or_assoc]

theorem isWordBefore_wordBefore (line : List Char) (column : Nat) :
    IsWordBefore (line.take column) (wordBefore line column) where
  suffix := by
    rw [wordBefore, ← List.reverse_prefix, List.reverse_reverse]
    exact List.takeWhile_prefix _
  free := by
    intro c hc
    have hkept := List.all_eq_true.1 List.all_takeWhile c (List.mem_reverse.1 hc)
    rw [← isSeparator_iff]
    simpa using hkept
  longest := by
    rintro w ⟨before, hhead⟩ hw
    have hkept : ∀ c ∈ w.reverse, (!isSeparator c) = true := by
      intro c hc
      have hno := mt isSeparator_iff.1 (hw c (List.mem_reverse.1 hc))
      simpa using hno
    rw [wordBefore, ← hhead, List.reverse_append, List.takeWhile_append_of_pos hkept,
      List.reverse_append, List.reverse_reverse]
    exact List.suffix_append _ _

theorem IsWordBefore.unique {head v w : List Char} (hv : IsWordBefore head v)
    (hw : IsWordBefore head w) : v = w := by
  have hvw := hw.longest v hv.suffix hv.free
  have hwv := hv.longest w hw.suffix hw.free
  exact hvw.eq_of_length_le hwv.length_le

/-- What has been typed since the last separator, or since the start of the line, is the word before
the cursor. -/
theorem isWordBefore_append (hbefore : ∀ c ∈ before.getLast?, c ∈ separators)
    (hword : ∀ c ∈ word, c ∉ separators) : IsWordBefore (before ++ word) word where
  suffix := List.suffix_append before word
  free := hword
  longest := by
    rintro w ⟨rest, hhead⟩ hw
    rcases List.append_eq_append_iff.1 hhead with ⟨x, rfl, rfl⟩ | ⟨x, rfl, rfl⟩
    · cases hx : x.getLast? with
      | none =>
        rw [List.getLast?_eq_none_iff.1 hx]
        exact List.suffix_rfl
      | some c =>
        have hc : c ∈ (rest ++ x).getLast? := by
          rw [List.getLast?_append, hx]
          rfl
        have hmem := List.mem_append_left word (List.mem_of_getLast? hx)
        exact absurd (hbefore c hc) (hw c hmem)
    · exact List.suffix_append x w

theorem wordAt_eq {text : String} {l : Nat}
    (hline : ((Text.lines text.toList).getD l []).take column = before ++ word)
    (hbefore : ∀ c ∈ before.getLast?, c ∈ separators) (hword : ∀ c ∈ word, c ∉ separators) :
    wordAt text l column = word := by
  have hat := isWordBefore_wordBefore ((Text.lines text.toList).getD l []) column
  rw [hline] at hat
  exact hat.unique (isWordBefore_append hbefore hword)

theorem not_separator_of_isWord {w : String} (h : IsWord w) : ∀ c ∈ w.toList, c ∉ separators := by
  obtain ⟨d, ds, hw, -, hparts⟩ := h
  rw [hw]
  intro c hc hseparator
  have htable : separators.any Scan.isWordPart = false := by decide
  exact List.any_eq_false.1 htable c hseparator (hparts c hc)

end Words

section Types

/-- How the types and enums among some declarations are offered. -/
structure OffersTypes (version : String) (ds : List Declaration) : Prop where
  /-- The declared types that are offered have different labels. -/
  distinct : ∀ word,
    (((items version ds word).filter (·.kind = .reference)).map (·.label)).Nodup
  /-- No keyword, built-in type or snippet has the label of a declared type that is offered. -/
  apart : ∀ word, ∀ i ∈ items version ds word, i.kind = .reference →
    ∀ j ∈ all version ds, j.kind ≠ .reference → j.label ≠ i.label
  /-- Behind any beginning of its name, in any text, a declared type is offered exactly once. -/
  once : ∀ x ∈ ds, x.isType = true → ∀ word, word <+: x.name.toList →
    ∀ (text : String) (l column : Nat) (before : List Char),
      ((Text.lines text.toList).getD l []).take column = before ++ word →
      (∀ c ∈ before.getLast?, c ∈ separators) →
      (itemsAt version ds text l column).filter (·.label = x.name) = [reference x]

variable {version source : String} {ds : List Declaration} {x : Declaration} {i : Item}

/-- An item that is no declared type and is called by a word that the scanner reserves. -/
structure Item.Reserved (i : Item) : Prop where
  kind : i.kind ≠ .reference
  label : wordKind i.label ≠ .identifier

theorem reserved_of_mem_words (h : i ∈ keywords.map (plain .keyword) ++
    builtinTypes.map (plain .type)) : i.Reserved := by
  have hwords : ∀ w ∈ keywords ++ builtinTypes, wordKind w ≠ .identifier := by decide
  rcases List.mem_append.1 h with h | h
  · obtain ⟨w, hw, rfl⟩ := List.mem_map.1 h
    exact ⟨nofun, hwords w (List.mem_append_left _ hw)⟩
  · obtain ⟨w, hw, rfl⟩ := List.mem_map.1 h
    exact ⟨nofun, hwords w (List.mem_append_right _ hw)⟩

/-- Snippets have the same labels for every compiler, though not the same texts. -/
theorem map_snippets (version : String) : (snippets version).map (fun i => (i.kind, i.label)) =
    [(.snippet, "config"), (.snippet, "event"), (.snippet, "command"), (.snippet, "type"),
      (.snippet, "enum"), (.snippet, "name"), (.snippet, "version")] := rfl

theorem reserved_of_mem_snippets (h : i ∈ snippets version) : i.Reserved := by
  have htable : ∀ p ∈ (snippets version).map (fun j => (j.kind, j.label)),
      p.1 ≠ .reference ∧ wordKind p.2 ≠ .identifier := by
    rw [map_snippets]
    decide
  obtain ⟨hkind, hlabel⟩ := htable _ (List.mem_map_of_mem h)
  exact ⟨hkind, hlabel⟩

theorem exists_reference_or_reserved (h : i ∈ all version ds) :
    (∃ x ∈ ds.filter (·.isType), i = reference x) ∨ i.Reserved := by
  rcases List.mem_append.1 h with h | h
  · rcases List.mem_append.1 h with h | h
    · exact .inr (reserved_of_mem_words h)
    · obtain ⟨x, hx, rfl⟩ := List.mem_map.1 h
      exact .inl ⟨x, hx, rfl⟩
  · exact .inr (reserved_of_mem_snippets h)

/-- A choice among the items that leaves out the reserved ones is one among the declared types. -/
theorem filter_all {p : Item → Bool} (hp : ∀ i : Item, i.Reserved → p i = false) :
    (all version ds).filter p = ((ds.filter (·.isType)).filter (p ∘ reference)).map reference := by
  have hnil {is : List Item} (his : ∀ i ∈ is, i.Reserved) : is.filter p = [] := by
    rw [List.filter_eq_nil_iff]
    intro i hi
    rw [hp i (his i hi)]
    nofun
  rw [all, List.filter_append, List.filter_append, hnil fun _ => reserved_of_mem_words,
    hnil fun _ => reserved_of_mem_snippets, List.filter_map, List.nil_append, List.append_nil]

theorem filter_items {p : Item → Bool} (hp : ∀ i : Item, i.Reserved → p i = false)
    (word : List Char) : (items version ds word).filter p = ((ds.filter (·.isType)).filter
      fun x => p (reference x) && word.isPrefixOf x.name.toList).map reference := by
  rw [items, List.filter_filter, filter_all]
  · rfl
  · intro i hi
    rw [hp i hi, Bool.false_and]

/-- A type with a name of its own is the only one that is found by it. -/
theorem filter_name (hnames : ((ds.filter (·.isType)).map (·.name)).Nodup)
    (hx : x ∈ ds.filter (·.isType)) {word : List Char} (hword : word <+: x.name.toList) :
    ((ds.filter (·.isType)).filter fun y =>
      decide (y.name = x.name) && word.isPrefixOf y.name.toList) = [x] := by
  have hsame : ∀ y ∈ ds.filter (·.isType),
      (decide (y.name = x.name) && word.isPrefixOf y.name.toList) = decide (y = x) := by
    intro y hy
    by_cases hyx : y = x
    · simp [hyx, hword]
    · have hname : y.name ≠ x.name := fun h => hyx (List.inj_on_of_nodup_map hnames hy hx h)
      simp [hyx, hname]
  rw [List.filter_congr hsame, List.filter_eq, List.count_eq_one_of_mem (hnames.of_map _) hx]
  rfl

/-- Types that have names of their own, and no name that is reserved, are told apart. -/
theorem offersTypes (version : String) (hnames : ((ds.filter (·.isType)).map (·.name)).Nodup)
    (hidentifier : ∀ x ∈ ds.filter (·.isType), IsIdentifier x.name) : OffersTypes version ds where
  distinct := by
    intro word
    rw [filter_items fun i hi => decide_eq_false hi.kind, List.map_map]
    exact hnames.sublist (List.filter_sublist.map _)
  apart := by
    intro word i hi hkind j hj hnot hlabel
    rcases exists_reference_or_reserved (mem_items_iff.1 hi).1 with ⟨x, hx, rfl⟩ | hi
    · rcases exists_reference_or_reserved hj with ⟨y, -, rfl⟩ | hj
      · exact hnot rfl
      · apply hj.label
        rw [hlabel]
        exact (hidentifier x hx).2
    · exact hi.kind hkind
  once := by
    intro x hx htype word hword text l column before hline hbefore
    have hmem : x ∈ ds.filter (·.isType) := List.mem_filter.2 ⟨hx, htype⟩
    obtain ⟨hisWord, hidentifies⟩ := hidentifier x hmem
    have hfree : ∀ c ∈ word, c ∉ separators := fun c hc =>
      not_separator_of_isWord hisWord c (hword.subset hc)
    have hreserved : ∀ i : Item, i.Reserved → decide (i.label = x.name) = false := by
      intro i hi
      apply decide_eq_false
      intro hlabel
      apply hi.label
      rw [hlabel]
      exact hidentifies
    -- No character of the name ends a word, so all that has been typed of it is the word.
    rw [itemsAt, wordAt_eq hline hbefore hfree, filter_items hreserved]
    exact congrArg (List.map reference) (filter_name hnames hmem hword)

theorem isIdentifier_of_mem_compile (hx : x ∈ (compile version source).declarations)
    (hkind : x.kind ≠ .config) : IsIdentifier x.name := by
  simp only [compile] at hx
  split at hx
  · cases hx
  · next tokens hscan =>
    obtain ⟨t, ht, -, hidentifier, hname⟩ := exists_identifier_of_scan hscan hx hkind
    rw [← hname]
    exact (lexical_of_mem_scan hscan t ht).identifier hidentifier

theorem nodup_keys_compile (version source : String) :
    (keys (compile version source).declarations).Nodup := by
  simp only [compile]
  split
  · exact List.nodup_nil
  · next tokens _ =>
    have hwell : WellFormed (parse version tokens).declarations :=
      Grammar.wellFormed_finalDraft version (.ofList tokens)
    exact hwell.names

/-- Whatever is wrong with a source, completion tells the types and enums that it declares apart
from each other and from all else that it offers. -/
theorem offersTypes_compile (version source : String) :
    OffersTypes version (compile version source).declarations := by
  apply offersTypes version (typeNames_nodup (nodup_keys_compile version source))
  intro x hx
  obtain ⟨hmem, htype⟩ := List.mem_filter.1 hx
  apply isIdentifier_of_mem_compile hmem
  intro hconfig
  rw [Declaration.isType, hconfig] at htype
  cases htype

-- A type that is declared again is rejected, and the enum inside of the first one is still offered.
example : (itemsAt "1.0.0"
    (compile "1.0.0" "type A { b: enum Be { c } } type A { d: int }").declarations
    "\tx: list<B" 0 10).map (·.label) = ["Be"] := by cbv

end Types

end Completion

end GameSchema
