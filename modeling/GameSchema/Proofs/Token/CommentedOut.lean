import GameSchema.Proofs.Token.LexicalGrammar

/-!
# Commenting out

Block comments nest, so a source can be commented out whatever block comments it holds: each of
them is closed inside of it, and its other elements have neither stars nor slashes. Only a line
comment is in the way, since what it holds counts once it stands inside of a block comment.
-/

namespace GameSchema

namespace Comment

/-- To close more comments, some of them are closed first. -/
theorem extent_add (n k : Nat) (cs : List Char) : extent (n + k + 1) cs =
    (extent k cs).bind fun r => (extent n r.2).map fun q => (r.1 ++ q.1, q.2) := by
  fun_induction extent k cs with
  | case1 => simp [extent]
  | case2 k cs ih =>
    rw [extent, show n + k + 1 + 1 = n + (k + 1) + 1 by omega, ih]
    cases extent (k + 1) cs <;> simp [Function.comp_def]
  | case3 cs => simp [extent]
  | case4 k cs ih =>
    rw [show n + (k + 1) + 1 = n + k + 1 + 1 by omega, extent, ih]
    cases extent k cs <;> simp [Function.comp_def]
  | case5 k c cs hopen hlast hclose ih =>
    rw [extent, ih]
    · cases extent k cs <;> simp [Function.comp_def]
    · exact hopen
    · rintro ds ⟨⟩
    · rintro m ds - rfl rfl
      cases k with
      | zero => exact hlast _ rfl rfl rfl
      | succ k => exact hclose _ _ rfl rfl rfl

/-- A comment ends with its closing marker. -/
theorem getLast_of_extent {n : Nat} {cs w rest : List Char} (h : extent n cs = some (w, rest)) :
    w.getLast? = some '/' := by
  fun_induction extent n cs generalizing w rest with
  | case1 => cases h
  | case2 n cs ih | case4 n cs ih | case5 n c cs _ _ _ ih =>
    obtain ⟨⟨v, r⟩, hv, he⟩ := Option.map_eq_some_iff.1 h
    cases he
    simp [List.getLast?_cons, ih hv]
  | case3 cs =>
    cases h
    rfl

/-- A text that closes no comment around it and leaves none open, whatever follows it. -/
def Neutral (cs : List Char) : Prop :=
  ∀ n rest, extent n (cs ++ rest) = (extent n rest).map fun r => (cs ++ r.1, r.2)

variable {cs ds : List Char}

theorem neutral_nil : Neutral [] := by
  intro n rest
  simp

theorem Neutral.append (h : Neutral cs) (h' : Neutral ds) : Neutral (cs ++ ds) := by
  intro n rest
  rw [List.append_assoc, h, h']
  simp [Function.comp_def]

/-- A text without stars and slashes has no markers. -/
theorem neutral_of_forall (h : ∀ c ∈ cs, c ≠ '/' ∧ c ≠ '*') : Neutral cs := by
  induction cs with
  | nil => exact neutral_nil
  | cons c cs ih =>
    obtain ⟨⟨hslash, hstar⟩, hcs⟩ := List.forall_mem_cons.1 h
    intro n rest
    rw [List.cons_append, extent, ih hcs]
    · simp [Function.comp_def]
    · exact fun _ hc _ => hslash hc
    · exact fun _ _ hc _ => hstar hc
    · exact fun _ _ _ hc _ => hstar hc

/-- A block comment closes what it opens. -/
theorem neutral_of_isBlockComment (h : LexicalGrammar.IsBlockComment cs) : Neutral cs := by
  obtain ⟨body, rfl, -⟩ := LexicalGrammar.isBlockComment_iff.1 h
  intro n rest
  have hbody : extent (n + 1) (body ++ rest) =
      (extent n rest).map fun r => (body ++ r.1, r.2) := by
    have hadd := extent_add n 0 (body ++ rest)
    rw [h.extent rest] at hadd
    exact hadd
  rw [List.cons_append, List.cons_append, extent, hbody]
  simp [Function.comp_def]

end Comment

namespace LexicalGrammar
open Comment

variable {w cs rest : List Char} {ts us : List (TokenKind × String)}

/-- The text has no two slashes in a row, so no line comment. -/
def NoLineComment (cs : List Char) : Prop := ¬ ['/', '/'] <:+: cs

theorem NoLineComment.of_infix (h : NoLineComment cs) (hw : w <:+: cs) : NoLineComment w :=
  fun hslashes => h (hslashes.trans hw)

/-- The characters of words and version numbers. -/
def IsSolid (cs : List Char) : Prop := ∀ c ∈ cs, c ∉ layout ∧ c ≠ '/' ∧ c ≠ '*'

theorem isSolid_of_forall {p : Char → Bool} (h : ∀ c ∈ cs, p c = true)
    (hp : ('/' :: '*' :: layout).any p = false) : IsSolid cs := by
  have hne (c : Char) (hc : c ∈ cs) (d : Char) (hd : d ∈ '/' :: '*' :: layout) : c ≠ d := by
    rintro rfl
    exact List.any_eq_false.1 hp c hd (h c hc)
  intro c hc
  refine ⟨?_, hne c hc '/' (by simp), hne c hc '*' (by simp)⟩
  intro hlayout
  exact hne c hc c (by simp [hlayout]) rfl

theorem isSolid_versionNumber {major : List Char} {minor : List (List Char)}
    (hmajor : IsNumber major) (hminor : ∀ ds ∈ minor, IsNumber ds) :
    IsSolid (major ++ dotted minor) := by
  apply isSolid_of_forall (p := fun c => c.isDigit || c == '.')
  · intro c hc
    rcases List.mem_append.1 hc with hc | hc
    · simp [hmajor.2 c hc]
    · obtain ⟨ds, hds, hc⟩ := List.mem_flatMap.1 hc
      rcases List.mem_cons.1 hc with rfl | hc
      · rfl
      · simp [(hminor ds hds).2 c hc]
  · decide

theorem IsWord.isSolid {w : String} (h : IsWord w) : IsSolid w.toList := by
  obtain ⟨c, cs, hw, -, hparts⟩ := h
  rw [hw]
  exact isSolid_of_forall hparts (by decide)

/-- An element that is no line comment closes what it opens. -/
theorem IsElement.neutral (h : IsElement w rest ts) (hw : NoLineComment w) : Neutral w := by
  cases h with
  | @layout c _ h =>
    apply neutral_of_forall
    have htable : LexicalGrammar.layout.all (fun c => c ≠ '/' ∧ c ≠ '*') = true := by decide
    simpa using List.all_eq_true.1 htable c h
  | @punctuation c k _ h =>
    apply neutral_of_forall
    have htable : ∀ x ∈ LexicalGrammar.punctuation, x.1 ≠ '/' ∧ x.1 ≠ '*' := by decide
    simpa using htable _ h
  | word h => exact neutral_of_forall fun c hc => (IsWord.isSolid h c hc).2
  | versionNumber hmajor hminor =>
    exact neutral_of_forall fun c hc => (isSolid_versionNumber hmajor hminor c hc).2
  | lineComment => exact absurd (List.prefix_append ['/', '/'] _).isInfix hw
  | blockComment h => exact neutral_of_isBlockComment h

/-- Only an element of one character is cut so that layout is left of it. -/
theorem IsElement.exists_not_layout {a b : List Char} (h : IsElement (a ++ b) rest ts)
    (hw : NoLineComment (a ++ b)) (ha : a ≠ []) (hb : b ≠ []) :
    ∃ c ∈ b, c ∉ LexicalGrammar.layout := by
  have hone (c : Char) (hc : a ++ b = [c]) : False := by
    have hlength := congrArg List.length hc
    have hapos := List.length_pos_iff.2 ha
    have hbpos := List.length_pos_iff.2 hb
    simp only [List.length_append, List.length_singleton] at hlength
    omega
  have hsolid (hw : IsSolid (a ++ b)) : ∃ c ∈ b, c ∉ LexicalGrammar.layout := by
    obtain ⟨c, hc⟩ := List.exists_mem_of_ne_nil b hb
    exact ⟨c, hc, (hw c (List.mem_append_right a hc)).1⟩
  generalize hab : a ++ b = w at *
  cases h with
  | layout => exact (hone _ rfl).elim
  | punctuation => exact (hone _ rfl).elim
  | word h => exact hsolid (IsWord.isSolid h)
  | versionNumber hmajor hminor => exact hsolid (isSolid_versionNumber hmajor hminor)
  | lineComment => exact absurd (List.prefix_append ['/', '/'] _).isInfix hw
  | blockComment h =>
    obtain ⟨body, rfl, -⟩ := isBlockComment_iff.1 h
    have hbody := h.extent []
    have hlast : ('/' :: '*' :: body).getLast? = some '/' := by
      rw [List.append_nil] at hbody
      have hslash := getLast_of_extent hbody
      simp [List.getLast?_cons, hslash]
    rw [← hab, List.getLast?_append_of_ne_nil a hb] at hlast
    exact ⟨'/', List.mem_of_getLast? hlast, by decide⟩

/-- A text of elements, cut where only layout is left, closes no comment around it and leaves none
open. -/
theorem Elements.neutral {a b : List Char} (h : Elements rest cs us) (hcs : NoLineComment cs)
    (hab : cs = a ++ b) (hb : ∀ c ∈ b, c ∈ layout) : Neutral a := by
  induction h generalizing a with
  | nil =>
    obtain ⟨rfl, -⟩ := List.append_eq_nil_iff.1 hab.symm
    exact neutral_nil
  | @cons w more ts us h _ ih =>
    have hw := hcs.of_infix (List.prefix_append w more).isInfix
    have hmore := hcs.of_infix (List.suffix_append w more).isInfix
    rcases List.append_eq_append_iff.1 hab with ⟨a', rfl, ha'⟩ | ⟨b', rfl, rfl⟩
    · exact (h.neutral hw).append (ih hmore ha')
    · -- The cut lies in the first element, which ends with layout only if it is nothing else.
      by_cases ha : a = []
      · rw [ha]
        exact neutral_nil
      · have hb' : b' = [] := by
          by_contra hne
          obtain ⟨c, hc, hnot⟩ := h.exists_not_layout hw ha hne
          exact hnot (hb c (List.mem_append_left more hc))
        subst hb'
        rw [List.append_nil] at h hw
        exact h.neutral hw

/-- What is lost at the ends of lines brings no two slashes together. -/
theorem NoLineComment.normalized (h : NoLineComment cs) : NoLineComment (Text.normalized cs) := by
  rintro ⟨pre, post, hsplit⟩
  rw [List.append_assoc] at hsplit
  obtain ⟨k, a, b, -, hline⟩ := Text.exists_line_of_unlines
    (fun _ => Text.newline_not_mem_of_mem_lines) (by decide) (by simp) hsplit 0
  obtain ⟨block, rest, rfl, -⟩ := Text.exists_block_of_lines hline
  exact h ⟨block ++ a, b ++ rest, by simp⟩

theorem isBlockComment_of_neutral (h : Neutral cs) :
    IsBlockComment ('/' :: '*' :: (cs ++ ['*', '/'])) := by
  refine isBlockComment_iff.2 ⟨_, rfl, ?_⟩
  have hextent : extent 0 (cs ++ ['*', '/']) = some (cs ++ ['*', '/'], []) := h 0 ['*', '/']
  exact closes_of_extent hextent

theorem kind_of_lineWord {l : List Char} {word : TokenKind × String}
    (h : lineWord? l = some word) : word.1 = .comment := by
  simp only [lineWord?] at h
  split at h <;> cases h
  rfl

/-- A text of elements becomes one block comment between the lines of a comment around it. -/
theorem exists_blockComment (h : Elements [] (Text.normalized cs) us) (hcs : NoLineComment cs) :
    ∃ w, IsBlockComment w ∧
      Text.normalized ('/' :: '*' :: '\n' :: (cs ++ ['\n', '*', '/'])) = w ++ ['\n'] := by
  obtain ⟨a, b, hab, hb, happend⟩ := Text.exists_normalized_append cs
  have hlayout : ∀ c ∈ b, c ∈ layout := by
    intro c hc
    rcases hb c hc with rfl | rfl <;> decide
  have hneutral := h.neutral hcs.normalized hab hlayout
  have hnewline : Neutral ['\n'] := neutral_of_forall (by simp)
  refine ⟨_, isBlockComment_of_neutral (hnewline.append (hneutral.append hnewline)), ?_⟩
  have hclose : Text.normalized ['*', '/'] = ['*', '/', '\n'] := rfl
  rw [Text.normalized_cons (by decide) (by simp) (by simp),
    Text.normalized_cons (by decide) (by simp) (by simp), Text.normalized_newline, happend, hclose]
  simp

end LexicalGrammar

open LexicalGrammar in
/-- A source that can be read and has no two slashes in a row can be commented out: with a comment
around it that has its markers in lines of their own, it can be read and has only comments. -/
theorem scan_commentedOut {source : String} {ts : List Token} (h : scan source = .ok ts)
    (hslashes : ¬ ['/', '/'] <:+: source.toList) :
    ∃ us p, scan ("/*\n" ++ source ++ "\n*/") = .ok (us ++ [Token.endOfFile p]) ∧
      ∀ t ∈ us, t.kind = .comment := by
  obtain ⟨vs, hvs, rfl⟩ := exists_scanFrom h
  obtain ⟨w, hw, htext⟩ := exists_blockComment (elements_of_scanFrom hvs) hslashes
  have hend : Elements [] ['\n'] [] := .cons (.layout (by decide)) .nil
  have helements : Elements [] (w ++ ['\n']) ((Text.pieces '\n' w).filterMap lineWord? ++ []) :=
    .cons (.blockComment hw) hend
  obtain ⟨us, hus, hwords⟩ := helements.exists_scanFrom .origin
  have hlist : ("/*\n" ++ source ++ "\n*/").toList =
      '/' :: '*' :: '\n' :: (source.toList ++ ['\n', '*', '/']) := by
    simp
  refine ⟨us, sourceEnd ("/*\n" ++ source ++ "\n*/").toList, ?_, ?_⟩
  · simp only [scan, hlist, htext, hus]
  · intro t ht
    have hcontent := List.mem_map_of_mem (f := Token.content) ht
    rw [hwords, List.append_nil] at hcontent
    obtain ⟨l, -, hword⟩ := List.mem_filterMap.1 hcontent
    exact kind_of_lineWord hword

/-- Comments inside of a comment, markers that touch others, and a carriage return at the end. -/
def nestedComments : String := "a/*/ /* **/ */\r\n:/**/\r"

theorem scan_commentedOut_nested :
    scan nestedComments = .ok [⟨.identifier, "a", ⟨0, 0⟩⟩, ⟨.comment, "/  *", ⟨0, 3⟩⟩,
      ⟨.colon, ":", ⟨1, 0⟩⟩, ⟨.eof, "", ⟨1, 6⟩⟩] ∧
    ¬ ['/', '/'] <:+: nestedComments.toList ∧
    ∃ us p, scan ("/*\n" ++ nestedComments ++ "\n*/") = .ok (us ++ [Token.endOfFile p]) ∧
      ∀ t ∈ us, t.kind = .comment := by
  have hscan : scan nestedComments = .ok [⟨.identifier, "a", ⟨0, 0⟩⟩,
      ⟨.comment, "/  *", ⟨0, 3⟩⟩, ⟨.colon, ":", ⟨1, 0⟩⟩, ⟨.eof, "", ⟨1, 6⟩⟩] := by cbv
  have hslashes : ¬ ['/', '/'] <:+: nestedComments.toList := by decide
  exact ⟨hscan, hslashes, scan_commentedOut hscan hslashes⟩

end GameSchema
