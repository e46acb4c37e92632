import GameSchema.Proofs.Text.Lines
import GameSchema.Token.Scan
import Mathlib

/-!
# The texts of tokens

What a token can have as its text. A word is spelled as its kind demands, the text of a comment is
trimmed and stands on one line, and a version number has its parts.
-/

namespace GameSchema
open Scan

/-- A word starts with a letter or an underscore and goes on with these and digits. -/
def IsWord (w : String) : Prop :=
  ∃ c cs, w.toList = c :: cs ∧ isWordStart c = true ∧ ∀ d ∈ c :: cs, isWordPart d = true

theorem isWord_of_all {w : String} {c : Char} {cs : List Char} (hw : w.toList = c :: cs)
    (hc : isWordStart c = true) (hcs : (c :: cs).all isWordPart = true) : IsWord w :=
  ⟨c, cs, hw, hc, List.all_eq_true.1 hcs⟩

/-- The text of a comment is trimmed and stands on one line. -/
def IsCommentText (s : String) : Prop := Text.Trimmed s.toList ∧ '\n' ∉ s.toList

/-- A version number is digits and at most two parts of a dot and digits. -/
def IsVersionNumber (s : String) : Prop :=
  ∃ d ds more, s.toList = d :: ds ++ more ∧ (∀ c ∈ d :: ds, c.isDigit = true) ∧
    versionParts 2 more = .ok (more, [])

/-- The kinds of token that are words. -/
def TokenKind.isWord : TokenKind → Bool
  | scalar _ | container _ | name | version | declaration _ | identifier => true
  | _ => false

/-- A token whose text is one of its kind. -/
structure Token.Lexical (t : Token) : Prop where
  word : t.kind.isWord = true → IsWord t.lexeme ∧ wordKind t.lexeme = t.kind
  comment : t.kind = .comment → IsCommentText t.lexeme
  versionNumber : t.kind = .versionNumber → IsVersionNumber t.lexeme

theorem isWord_wordKind (w : String) : (wordKind w).isWord = true := by
  have hkeywords : ∀ k ∈ keywords.map Prod.snd, k.isWord = true := by decide
  rw [wordKind, keyword?]
  cases h : keywords.lookup w with
  | none => rfl
  | some k =>
    obtain ⟨before, after, hsplit, -⟩ := List.lookup_eq_some_iff.1 h
    apply hkeywords k
    rw [hsplit]
    simp

theorem lexical_of_word {t : Token} (hword : IsWord t.lexeme) (hkind : wordKind t.lexeme = t.kind) :
    t.Lexical := by
  have hk := isWord_wordKind t.lexeme
  rw [hkind] at hk
  refine ⟨fun _ => ⟨hword, hkind⟩, ?_, ?_⟩
  · intro hcomment
    rw [hcomment] at hk
    cases hk
  · intro hversion
    rw [hversion] at hk
    cases hk

/-- The other tokens are always written in the same way, or not at all. -/
theorem lexical_of_not_word {t : Token} (hk : t.kind.isWord = false) (hcomment : t.kind ≠ .comment)
    (hversion : t.kind ≠ .versionNumber) : t.Lexical := by
  refine ⟨fun hword => ?_, fun hc => absurd hc hcomment, fun hv => absurd hv hversion⟩
  rw [hk] at hword
  cases hword

theorem lexical_eof {t : Token} (h : t.kind = .eof) : t.Lexical :=
  lexical_of_not_word (by rw [h]; rfl) (by simp [h]) (by simp [h])

namespace Scan

section Version

variable {n : Nat} {cs more rest tail : List Char}

/-- What a scan takes ends where the text after it does not go on. -/
theorem takeWhile_append_stop {p : Char → Bool} {ds : List Char} (hds : ∀ c ∈ ds, p c = true)
    (htail : ∀ c ∈ tail.head?, p c = false) :
    (ds ++ tail).takeWhile p = ds ∧ (ds ++ tail).dropWhile p = tail := by
  rw [List.takeWhile_append_of_pos hds, List.dropWhile_append_of_pos hds]
  cases tail with
  | nil => simp
  | cons c tail =>
    have hc := htail c rfl
    simp [hc]

/-- The parts behind the first one start with their dot. -/
theorem not_isDigit_append (h : versionParts n cs = .ok (more, rest))
    (htail : ∀ c ∈ tail.head?, c.isDigit = false) :
    ∀ c ∈ (more ++ tail).head?, c.isDigit = false := by
  fun_induction versionParts n cs with
  | case1 => cases h
  | case2 n cs d ds hd m r hr ih =>
    cases h
    rintro c ⟨⟩
    rfl
  | case3 => cases h
  | case4 n cs hne =>
    cases h
    exact htail

/-- What is read of a version number is read again before any text that does not go on with it. -/
theorem versionParts_read (h : versionParts n cs = .ok (more, rest))
    (hdot : tail.head? ≠ some '.') (hdigit : ∀ c ∈ tail.head?, c.isDigit = false) :
    versionParts n (more ++ tail) = .ok (more, tail) := by
  fun_induction versionParts n cs generalizing more rest with
  | case1 => cases h
  | case2 n cs d ds hd m r hr ih =>
    cases h
    have hdigits : ∀ c ∈ d :: ds, c.isDigit = true := by
      rw [← hd]
      exact List.all_eq_true.1 List.all_takeWhile
    obtain ⟨htake, hdrop⟩ :=
      takeWhile_append_stop hdigits (not_isDigit_append hr hdigit)
    have happend : '.' :: d :: ds ++ m ++ tail = '.' :: (d :: ds ++ (m ++ tail)) := by simp
    rw [happend, versionParts, htake, hdrop, ih hr]
  | case3 => cases h
  | case4 n cs hne =>
    cases h
    rw [List.nil_append, versionParts]
    rintro m ds hm rfl
    exact hdot rfl

/-- A version number that is read has the form of one. -/
theorem isVersionNumber_of_read {d : Char} {ds : List Char}
    (hmajor : cs.takeWhile Char.isDigit = d :: ds)
    (h : versionParts 2 (cs.dropWhile Char.isDigit) = .ok (more, rest)) :
    IsVersionNumber (String.ofList (cs.takeWhile Char.isDigit ++ more)) := by
  refine ⟨d, ds, more, by rw [String.toList_ofList, hmajor], ?_, ?_⟩
  · rw [← hmajor]
    exact List.all_eq_true.1 List.all_takeWhile
  · have hread : versionParts 2 (more ++ []) = .ok (more, []) :=
      versionParts_read h (by simp) (by simp)
    rwa [List.append_nil] at hread

end Version

section Comments

theorem isCommentText_token {raw : List Char} (p : Position) (h : '\n' ∉ raw) :
    IsCommentText (Comment.token p raw).lexeme := by
  refine ⟨?_, ?_⟩
  · rw [Comment.token, String.toList_ofList]
    exact Text.trimmed_trim raw
  · rw [Comment.token, String.toList_ofList]
    exact fun hmem => h ((Text.trim_sublist raw).subset hmem)

theorem not_mem_of_mem_pieces {separator : Char} {cs l : List Char}
    (h : l ∈ Text.pieces separator cs) : separator ∉ l := by
  induction cs generalizing l with
  | nil =>
    rw [Text.pieces_nil, List.mem_singleton] at h
    simp [h]
  | cons c cs ih =>
    rw [Text.pieces] at h
    split at h
    · rcases List.mem_cons.1 h with rfl | h
      · simp
      · exact ih h
    · next hc =>
      cases hp : Text.pieces separator cs with
      | nil => exact absurd hp (Text.pieces_ne_nil separator cs)
      | cons m ms =>
        rw [hp] at h ih
        rcases List.mem_cons.1 h with rfl | h
        · rw [List.mem_cons, not_or]
          exact ⟨fun he => hc he.symm, ih List.mem_cons_self⟩
        · exact ih (List.mem_cons_of_mem m h)

theorem lexical_token {raw : List Char} (p : Position) (h : '\n' ∉ raw) :
    (Comment.token p raw).Lexical where
  word hword := by cases hword
  comment _ := isCommentText_token p h
  versionNumber hversion := by cases hversion

theorem lexical_of_lineToken {p : Position} {raw : List Char} {t : Token} (hraw : '\n' ∉ raw)
    (h : Comment.lineToken? p raw = some t) : t.Lexical := by
  simp only [Comment.lineToken?] at h
  split at h
  · next cs hstart =>
    have hsub := Text.trimStart_sublist raw
    rw [hstart] at hsub
    split at h
    · cases h
    · cases h
      exact lexical_token _ fun hmem => hraw (hsub.subset (List.mem_cons_of_mem _ hmem))
  · split at h
    · cases h
    · cases h
      exact lexical_token p hraw

theorem lexical_of_mem_blockTokens {p : Position} {text : List Char} {t : Token}
    (h : t ∈ Comment.blockTokens p text) : t.Lexical := by
  rw [Comment.blockTokens] at h
  cases hp : Text.pieces '\n' text with
  | nil => exact absurd hp (Text.pieces_ne_nil _ text)
  | cons first more =>
    rw [hp] at h
    obtain ⟨⟨q, raw⟩, hmem, ht⟩ := List.mem_filterMap.1 h
    have hraw : raw ∈ Text.pieces '\n' text := by
      rw [hp]
      rcases List.mem_cons.1 hmem with heq | hmem
      · cases heq
        exact List.mem_cons_self
      · obtain ⟨i, hi, heq⟩ := List.mem_mapIdx.1 hmem
        cases heq
        exact List.mem_cons_of_mem first (List.getElem_mem hi)
    exact lexical_of_lineToken (not_mem_of_mem_pieces hraw) ht

end Comments

theorem isWord_takeWhile {c : Char} (cs : List Char) (hc : isWordStart c = true) :
    IsWord (String.ofList ((c :: cs).takeWhile isWordPart)) := by
  have htake := List.takeWhile_cons_of_pos (l := cs) (isWordPart_of_isWordStart hc)
  refine ⟨c, cs.takeWhile isWordPart, by rw [String.toList_ofList, htake], hc, ?_⟩
  rw [← htake]
  exact List.all_eq_true.1 List.all_takeWhile

theorem lexical_word {cs : List Char} {c : Char} (p : Position) (hc : isWordStart c = true) :
    ∀ t ∈ (word p (c :: cs)).tokens, t.Lexical := by
  intro t ht
  rw [List.mem_singleton.1 ht]
  exact lexical_of_word (isWord_takeWhile cs hc) rfl

theorem lexical_punctuation {c : Char} {k : TokenKind} (h : punctuation? c = some k)
    (lexeme : String) (p : Position) : (⟨k, lexeme, p⟩ : Token).Lexical := by
  have hk : k.isWord = false ∧ k ≠ .comment ∧ k ≠ .versionNumber := by
    simp only [punctuation?] at h
    split at h <;> cases h <;> simp [TokenKind.isWord]
  exact lexical_of_not_word hk.1 hk.2.1 hk.2.2

theorem lexical_versionNumber {p : Position} {c : Char} {cs : List Char} {e : Element}
    (hc : c.isDigit = true) (h : versionNumber p (c :: cs) = .ok e) :
    ∀ t ∈ e.tokens, t.Lexical := by
  simp only [versionNumber] at h
  split at h
  · next more rest hread =>
    cases h
    intro t ht
    rw [List.mem_singleton.1 ht]
    refine ⟨?_, ?_, fun _ => isVersionNumber_of_read (List.takeWhile_cons_of_pos hc) hread⟩
    · intro hword
      cases hword
    · intro hcomment
      cases hcomment
  · cases h

theorem lexical_of_mem_element {p : Position} {c : Char} {cs : List Char} {e : Element}
    (h : element p c cs = .ok e) : ∀ t ∈ e.tokens, t.Lexical := by
  simp only [element] at h
  split at h
  · cases h
    intro t ht
    cases ht
  split at h
  · next k hk =>
    cases h
    intro t ht
    rw [List.mem_singleton.1 ht]
    exact lexical_punctuation hk _ p
  split at h
  · next hdigit => exact lexical_versionNumber hdigit h
  split at h
  · next hword =>
    cases h
    exact lexical_word p hword
  split at h
  · next cs _ =>
    cases h
    intro t ht
    rw [List.mem_singleton.1 ht]
    refine lexical_token _ fun hmem => ?_
    simpa using List.all_eq_true.1 List.all_takeWhile '\n' hmem
  · next cs _ =>
    simp only [blockComment] at h
    split at h
    · cases h
      exact fun t ht => lexical_of_mem_blockTokens ht
    · cases h
  · cases h

end Scan

theorem lexical_of_mem_scanFrom {p : Position} {cs : List Char} {ts : List Token}
    (h : scanFrom p cs = .ok ts) : ∀ t ∈ ts, t.Lexical := by
  fun_induction scanFrom p cs generalizing ts with
  | case1 =>
    cases h
    intro t ht
    cases ht
  | case2 => cases h
  | case3 => cases h
  | case4 p c cs e he us hus ih =>
    cases h
    intro t ht
    rcases List.mem_append.1 ht with ht | ht
    · exact lexical_of_mem_element he t ht
    · exact ih hus t ht

/-- The text of every token of a source is one of its kind. -/
theorem lexical_of_mem_scan {source : String} {ts : List Token} (h : scan source = .ok ts) :
    ∀ t ∈ ts, t.Lexical := by
  simp only [scan] at h
  split at h
  · cases h
  · next us hus =>
    cases h
    intro t ht
    rcases List.mem_append.1 ht with ht | ht
    · exact lexical_of_mem_scanFrom hus t ht
    · rw [List.mem_singleton.1 ht]
      exact lexical_eof rfl

section Clean
open Text

theorem IsWord.noBreak {w : String} (h : IsWord w) : NoBreak w.toList := by
  obtain ⟨c, cs, hw, -, hpart⟩ := h
  rw [hw]
  exact noBreak_of_forall hpart (by decide) (by decide)

theorem noBreak_versionParts {n : Nat} {cs more rest : List Char}
    (h : versionParts n cs = .ok (more, rest)) : NoBreak more := by
  fun_induction versionParts n cs generalizing more rest with
  | case1 => cases h
  | case2 n cs d ds hd m r hr ih =>
    cases h
    have hdigits : ∀ c ∈ d :: ds, c.isDigit = true := by
      rw [← hd]
      exact List.all_eq_true.1 List.all_takeWhile
    refine NoBreak.append ?_ (ih hr)
    exact .cons (by decide) (noBreak_of_forall hdigits (by decide) (by decide))
  | case3 => cases h
  | case4 n cs hne =>
    cases h
    exact noBreak_nil

theorem IsVersionNumber.noBreak {s : String} (h : IsVersionNumber s) : NoBreak s.toList := by
  obtain ⟨d, ds, more, hs, hdigits, hmore⟩ := h
  rw [hs]
  exact (noBreak_of_forall hdigits (by decide) (by decide)).append (noBreak_versionParts hmore)

/-- A comment may end a line, whatever stands before it. -/
theorem IsCommentText.cleanLine {s : String} {cs : List Char} (h : IsCommentText s)
    (hcs : NoBreak cs) : CleanLine (cs ++ '/' :: '/' :: ' ' :: s.toList) := by
  refine ⟨?_, ?_⟩
  · have hnewline : '\n' ∉ cs := fun hmem => (hcs _ hmem).1 rfl
    simpa [hnewline] using h.2
  · intro hlast
    rw [List.getLast?_append_of_ne_nil _ (by simp)] at hlast
    cases hs : s.toList with
    | nil => simp [hs] at hlast
    | cons d ds =>
      rw [hs, List.getLast?_cons_cons, List.getLast?_cons_cons, List.getLast?_cons_cons] at hlast
      have hblank := h.1.last '\r' (by rw [hs]; exact hlast)
      cases hblank

end Clean

end GameSchema
