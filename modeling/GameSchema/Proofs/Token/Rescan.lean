import GameSchema.Proofs.Token.Lexical

/-!
# Scanning written tokens

What a written token is scanned as: the same token at its new place, when what follows it does not
go on with it. A text is scanned as tokens with the text after it in sight, so such readings
compose.
-/

namespace GameSchema
open Scan

def Token.unplaced (t : Token) : Token := { t with start := .origin }

/-- A token of a kind that is always written in the same way. -/
def Token.symbol (k : TokenKind) : Token := ⟨k, k.text, .origin⟩

@[simp] theorem Token.unplaced_kind (t : Token) : t.unplaced.kind = t.kind := rfl

@[simp] theorem Token.unplaced_lexeme (t : Token) : t.unplaced.lexeme = t.lexeme := rfl

/-- An element that is read comes before the tokens of the rest. -/
theorem scanFrom_of_element {p : Position} {c : Char} {cs : List Char} {e : Element}
    {ts : List Token} (he : element p c cs = .ok e)
    (hts : scanFrom (p.after e.taken) e.rest = .ok ts) :
    scanFrom p (c :: cs) = .ok (e.tokens ++ ts) := by
  rw [scanFrom]
  split
  · next x hx =>
    rw [he] at hx
    cases hx
  · next e' hx =>
    rw [he] at hx
    cases hx
    rw [hts]

namespace Scan

variable {c : Char} {cs rest : List Char}

theorem element_layout (p : Position) (h : isLayout c = true) (cs : List Char) :
    element p c cs = .ok ⟨[], [c], cs⟩ := by
  simp only [element, h, ↓reduceIte]

theorem element_punctuation (p : Position) {k : TokenKind} (h : punctuation? c = some k)
    (cs : List Char) : element p c cs = .ok ⟨[⟨k, c.toString, p⟩], [c], cs⟩ := by
  have hc : isLayout c = false := by
    simp only [punctuation?] at h
    split at h <;> cases h <;> decide
  simp only [element, hc, h, Bool.false_eq_true, ↓reduceIte]

/-- The characters that are layout or punctuation. -/
def separators : List Char := [' ', '\t', '\r', '\n', '\uFEFF', '{', '}', ':', ',', '<', '>']

/-- A character that is neither layout nor punctuation is one of those that start a longer
element. -/
theorem not_separator_of_start {p : Char → Bool} {c : Char} (hc : p c = true)
    (h : separators.any p = false) : isLayout c = false ∧ punctuation? c = none := by
  have hne : ∀ d ∈ separators, c ≠ d := by
    rintro d hd rfl
    exact List.any_eq_false.1 h c hd hc
  simp only [separators, List.mem_cons, List.not_mem_nil, or_false, forall_eq_or_imp, forall_eq]
    at hne
  obtain ⟨h₁, h₂, h₃, h₄, h₅, h₆, h₇, h₈, h₉, h₁₀, h₁₁⟩ := hne
  refine ⟨by simp [isLayout, *], ?_⟩
  simp only [punctuation?]

theorem isDigit_eq_false_of_isWordStart {c : Char} (h : isWordStart c = true) :
    c.isDigit = false := by
  rw [Bool.eq_false_iff]
  intro hdigit
  simp only [isWordStart, Char.isAlpha, Char.isUpper, Char.isLower, Char.isDigit, Bool.or_eq_true,
    Bool.and_eq_true, decide_eq_true_eq, beq_iff_eq, ge_iff_le, UInt32.le_iff_toNat_le] at h hdigit
  have hnine : '9'.val.toNat = 57 := rfl
  have hupper : 'A'.val.toNat = 65 := rfl
  have hlower : 'a'.val.toNat = 97 := rfl
  rcases h with rfl | h | h
  · simp at hdigit
  · omega
  · omega

/-- A word is read up to where no further part of it stands. -/
theorem element_word (p : Position) {w : String} (h : IsWord w)
    (hrest : ∀ c ∈ rest.head?, isWordPart c = false) :
    ∃ c cs, w.toList ++ rest = c :: cs ∧
      element p c cs = .ok ⟨[⟨wordKind w, w, p⟩], w.toList, rest⟩ := by
  obtain ⟨c, cs, hw, hstart, hpart⟩ := h
  obtain ⟨hlayout, hpunctuation⟩ := not_separator_of_start hstart (by decide)
  obtain ⟨htake, hdrop⟩ := takeWhile_append_stop hpart hrest
  rw [List.cons_append] at htake hdrop
  refine ⟨c, cs ++ rest, by rw [hw, List.cons_append], ?_⟩
  simp only [element, hlayout, hpunctuation, isDigit_eq_false_of_isWordStart hstart, hstart,
    Bool.false_eq_true, ↓reduceIte, word, htake, hdrop, ← hw, String.ofList_toList]

theorem element_versionNumber (p : Position) {d : Char} {ds more : List Char}
    (hdigits : ∀ c ∈ d :: ds, c.isDigit = true)
    (hmore : ∀ c ∈ (more ++ rest).head?, c.isDigit = false)
    (hread : versionParts 2 (more ++ rest) = .ok (more, rest)) :
    element p d (ds ++ (more ++ rest)) =
      .ok ⟨[⟨.versionNumber, String.ofList (d :: ds ++ more), p⟩], d :: ds ++ more, rest⟩ := by
  have hd : d.isDigit = true := hdigits d List.mem_cons_self
  obtain ⟨hlayout, hpunctuation⟩ := not_separator_of_start hd (by decide)
  obtain ⟨htake, hdrop⟩ := takeWhile_append_stop hdigits hmore
  rw [List.cons_append] at htake hdrop
  simp only [element, hlayout, hpunctuation, hd, Bool.false_eq_true, ↓reduceIte, versionNumber,
    htake, hdrop, hread]

theorem element_lineComment (p : Position) {raw : List Char} (hraw : '\n' ∉ raw)
    (hrest : ∀ c ∈ rest.head?, c = '\n') : element p '/' ('/' :: (raw ++ rest)) =
      .ok ⟨[Comment.token (p.shift 2) raw], '/' :: '/' :: raw, rest⟩ := by
  have hline : ∀ c ∈ raw, decide (c ≠ '\n') = true := by
    intro c hc
    exact decide_eq_true fun hnewline => hraw (hnewline ▸ hc)
  have hstop : ∀ c ∈ rest.head?, decide (c ≠ '\n') = false := by simpa using hrest
  obtain ⟨htake, hdrop⟩ := takeWhile_append_stop hline hstop
  have hread : element p '/' ('/' :: (raw ++ rest)) = .ok (lineComment p (raw ++ rest)) := rfl
  rw [hread, lineComment, htake, hdrop]

end Scan

/-- From every place a text is scanned as the given tokens, up to the rest of it. -/
def ScansTo (cs : List Char) (ts : List Token) (rest : List Char) : Prop :=
  ∀ p, ∃ q us, us.map Token.unplaced = ts ∧
    ∀ vs, scanFrom q rest = .ok vs → scanFrom p cs = .ok (us ++ vs)

namespace ScansTo

variable {cs ds rest : List Char} {ts us : List Token}

theorem refl (cs : List Char) : ScansTo cs [] cs := fun p => ⟨p, [], rfl, fun _ h => h⟩

theorem trans (h : ScansTo cs ts ds) (h' : ScansTo ds us rest) : ScansTo cs (ts ++ us) rest := by
  intro p
  obtain ⟨q, vs, rfl, hvs⟩ := h p
  obtain ⟨r, ws, rfl, hws⟩ := h' q
  refine ⟨r, vs ++ ws, List.map_append, ?_⟩
  intro more hmore
  rw [List.append_assoc]
  exact hvs _ (hws more hmore)

theorem scanFrom_eq (h : ScansTo cs ts []) (p : Position) :
    ∃ us, us.map Token.unplaced = ts ∧ scanFrom p cs = .ok us := by
  obtain ⟨q, us, hus, hscan⟩ := h p
  refine ⟨us, hus, ?_⟩
  have hend := hscan [] (by rw [scanFrom])
  rwa [List.append_nil] at hend

/-- An element that is read at every place. -/
theorem of_element (h : ∀ p, ∃ c ds e, cs = c :: ds ∧ element p c ds = .ok e ∧
    e.tokens.map Token.unplaced = ts ∧ e.rest = rest) : ScansTo cs ts rest := by
  intro p
  obtain ⟨c, ds, e, rfl, he, hts, rfl⟩ := h p
  exact ⟨p.after e.taken, e.tokens, hts, fun vs hvs => scanFrom_of_element he hvs⟩

theorem layout {c : Char} (h : isLayout c = true) : ScansTo (c :: cs) [] cs :=
  of_element fun p => ⟨c, cs, _, rfl, element_layout p h cs, rfl, rfl⟩

theorem symbol {c : Char} {k : TokenKind} (h : punctuation? c = some k) :
    ScansTo (c :: cs) [.symbol k] cs := by
  have htext : c.toString = k.text := by
    simp only [punctuation?] at h
    split at h <;> cases h <;> decide
  refine of_element fun p => ⟨c, cs, _, rfl, element_punctuation p h cs, ?_, rfl⟩
  rw [htext]
  rfl

theorem word {w : String} (h : IsWord w) (hrest : ∀ c ∈ rest.head?, isWordPart c = false) :
    ScansTo (w.toList ++ rest) [⟨wordKind w, w, .origin⟩] rest := by
  refine of_element fun p => ?_
  obtain ⟨c, ds, hcons, he⟩ := element_word p h hrest
  exact ⟨c, ds, _, hcons, he, rfl, rfl⟩

theorem versionNumber {s : String} (h : IsVersionNumber s) (hdot : rest.head? ≠ some '.')
    (hdigit : ∀ c ∈ rest.head?, c.isDigit = false) :
    ScansTo (s.toList ++ rest) [⟨.versionNumber, s, .origin⟩] rest := by
  obtain ⟨d, ds, more, hs, hdigits, hmore⟩ := h
  have hlexeme : String.ofList (d :: ds ++ more) = s := by rw [← hs, String.ofList_toList]
  refine of_element fun p => ⟨d, ds ++ (more ++ rest), _, by simp [hs], element_versionNumber p
    hdigits (not_isDigit_append hmore hdigit) (versionParts_read hmore hdot hdigit), ?_, rfl⟩
  rw [hlexeme]
  rfl

theorem comment {s : String} (h : IsCommentText s) :
    ScansTo ('/' :: '/' :: ' ' :: s.toList ++ '\n' :: rest) [⟨.comment, s, .origin⟩]
      ('\n' :: rest) := by
  have hline : '\n' ∉ ' ' :: s.toList := by simpa using h.2
  have htrim : Text.trim (' ' :: s.toList) = s.toList := by
    rw [Text.trim_cons_blank (by decide), h.1.trim_eq]
  refine of_element fun p => ⟨'/', _, _, rfl, element_lineComment p hline (by simp), ?_, rfl⟩
  rw [Comment.token, htrim, String.ofList_toList]
  rfl

end ScansTo

theorem Token.Lexical.scansTo {t : Token} {rest : List Char} (h : t.Lexical)
    (hk : t.kind.isWord = true) (hrest : ∀ c ∈ rest.head?, isWordPart c = false) :
    ScansTo (t.lexeme.toList ++ rest) [t.unplaced] rest := by
  obtain ⟨hword, hkind⟩ := h.word hk
  have hscans := ScansTo.word hword hrest
  rwa [hkind] at hscans

end GameSchema
