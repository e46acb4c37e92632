import GameSchema.Proofs.Token.Geometry

/-!
# The order of tokens

Every token ends before the next one starts. An element of the text is read behind all elements
before it, and its tokens stand in it; a block comment, which alone can have more than one token,
has at most one in each of its lines.
-/

namespace GameSchema
open Scan

/-- A place is the end of the last line, or the start of a text that has no lines. -/
inductive EndsLines : List (List Char) → Position → Prop
  | empty : EndsLines [] .origin
  | last (ls : List (List Char)) (l : List Char) : EndsLines (ls ++ [l]) ⟨ls.length, l.length⟩

/-- How the tokens of a text lie in its lines. -/
structure LiesIn (lines : List (List Char)) (ts : List Token) : Prop where
  /-- The end of file stands at the end, and nowhere else. -/
  ended : ∃ us e, ts = us ++ [e] ∧ e.kind = .eof ∧ EndsLines lines e.start ∧
    ∀ t ∈ us, t.kind ≠ .eof
  /-- The line of a token that is no comment has its characters from its column on. -/
  lexeme : ∀ t ∈ ts, t.kind ≠ .comment →
    ((lines.getD t.start.line []).drop t.start.column).take t.length = t.lexeme.toList
  /-- Every token ends before a later one starts. -/
  ordered : ts.Pairwise fun t u => t.stop ≤ u.start

theorem endsLines_sourceEnd (source : List Char) :
    EndsLines (Text.lines source) (sourceEnd source) := by
  cases h : (Text.lines source).getLast? with
  | none =>
    rw [sourceEnd, h, List.getLast?_eq_none_iff.1 h]
    exact .empty
  | some l =>
    obtain ⟨ls, hls⟩ := List.getLast?_eq_some_iff.1 h
    have hlast := EndsLines.last ls l
    rw [sourceEnd, h, hls]
    simpa using hlast

/-- A place in a line is not behind the end of the lines. -/
theorem EndsLines.le {lines : List (List Char)} {p q : Position} {l : List Char}
    (h : EndsLines lines q) (hline : lines[p.line]? = some l) (hcolumn : p.column ≤ l.length) :
    p ≤ q := by
  cases h with
  | empty => simp at hline
  | last ls m =>
    obtain ⟨hlt, hl⟩ := List.getElem?_eq_some_iff.1 hline
    rw [List.length_append, List.length_singleton] at hlt
    rcases Nat.lt_or_eq_of_le (Nat.le_of_lt_succ hlt) with hlt | heq
    · exact .inl hlt
    · rw [List.getElem_append_right (Nat.le_of_eq heq.symm), List.getElem_singleton] at hl
      exact .inr ⟨heq, by rwa [hl]⟩

namespace Token

variable {p : Position} {w : List Char} {t : Token}

theorem CommentWithin.le_start {n : Nat} (h : t.CommentWithin p n) : p ≤ t.start :=
  .inr ⟨h.line.symm, h.after⟩

theorem CommentWithin.stop_le {n : Nat} (h : t.CommentWithin p n) : t.stop ≤ p.shift n :=
  .inr ⟨h.line, h.before⟩

/-- A token stands between the start and the end of the text that it was read from. -/
theorem StandsIn.between (h : t.StandsIn p w) : p ≤ t.start ∧ t.stop ≤ p.after w := by
  cases h with
  | word hcomment hend hne hline hw hstart =>
    subst hw
    rw [hstart, Position.after_eq_shift _ hline, stop, hstart, String.length_toList]
    exact ⟨p.le_refl, Position.le_refl _⟩
  | comment before part after hw hne hline h =>
    subst hw
    have hstop := h.stop_le
    rw [← Position.after_eq_shift _ hline] at hstop
    refine ⟨Position.le_trans (p.le_after before) h.le_start, ?_⟩
    rw [Position.after_append, Position.after_append]
    exact Position.le_trans hstop (Position.le_after _ after)

end Token

section Elements

variable {p : Position} {c : Char} {cs : List Char}

/-- The tokens of a block comment stand in lines of their own. -/
theorem pairwise_blockTokens (p : Position) (text : List Char) :
    (Comment.blockTokens p text).Pairwise fun t u => t.stop ≤ u.start := by
  obtain ⟨first, more, htext⟩ := List.exists_cons_of_ne_nil (Text.pieces_ne_nil '\n' text)
  have hlines : ((p, first) :: more.mapIdx fun i raw =>
      ((⟨p.line + 1 + i, 0⟩ : Position), raw)).Pairwise fun l m => l.1.line < m.1.line := by
    rw [List.pairwise_cons]
    refine ⟨?_, ?_⟩
    · intro l hl
      obtain ⟨i, hi, rfl⟩ := List.mem_mapIdx.1 hl
      simp only
      omega
    · rw [List.pairwise_iff_getElem]
      intro i j hi hj hij
      simp only [List.getElem_mapIdx]
      omega
  rw [Comment.blockTokens, htext]
  refine hlines.filterMap _ ?_
  intro l m hlm t ht u hu
  have hfirst := (Comment.lineToken_within ht).1.line
  have hsecond := (Comment.lineToken_within hu).1.line
  refine .inl ?_
  rw [Token.stop, Position.shift, hfirst, hsecond]
  exact hlm

theorem pairwise_of_element {e : Element} (h : element p c cs = .ok e) :
    e.tokens.Pairwise fun t u => t.stop ≤ u.start := by
  simp only [element] at h
  split at h
  · cases h
    exact .nil
  split at h
  · cases h
    exact List.pairwise_singleton _ _
  split at h
  · simp only [versionNumber] at h
    split at h
    · cases h
      exact List.pairwise_singleton _ _
    · cases h
  split at h
  · cases h
    exact List.pairwise_singleton _ _
  split at h
  · cases h
    exact List.pairwise_singleton _ _
  · simp only [blockComment] at h
    split at h
    · cases h
      exact pairwise_blockTokens _ _
    · cases h
  · cases h

/-- The tokens of a text are read in their order, behind the place where the text starts. -/
theorem pairwise_of_scanFrom {ts : List Token} (h : scanFrom p cs = .ok ts) :
    (∀ t ∈ ts, p ≤ t.start) ∧ ts.Pairwise fun t u => t.stop ≤ u.start := by
  fun_induction scanFrom p cs generalizing ts with
  | case1 =>
    cases h
    exact ⟨by simp, .nil⟩
  | case2 => cases h
  | case3 => cases h
  | case4 p c cs e he us hus ih =>
    cases h
    obtain ⟨hbehind, hordered⟩ := ih hus
    have hbetween := fun t ht => (standsIn_of_mem_element he t ht).between
    refine ⟨?_, List.pairwise_append.2 ⟨pairwise_of_element he, hordered, ?_⟩⟩
    · intro t ht
      rcases List.mem_append.1 ht with ht | ht
      · exact (hbetween t ht).1
      · exact Position.le_trans (p.le_after e.taken) (hbehind t ht)
    · intro t ht u hu
      exact Position.le_trans (hbetween t ht).2 (hbehind u hu)

end Elements

section Sources

variable {source : String} {ts : List Token} {t : Token}

/-- A token ends in its line, and so before the end of the source. -/
theorem Token.Placed.stop_le (h : t.Placed source.toList) : t.stop ≤ sourceEnd source.toList := by
  have hend := endsLines_sourceEnd source.toList
  cases h with
  | word hcomment hkind hne before after hline hcolumn =>
    refine hend.le hline ?_
    simp only [stop, Position.shift, ← hcolumn, List.length_append, String.length_toList, length]
    omega
  | comment hcomment l hline hfit => exact hend.le hline hfit
  | eof h =>
    subst h
    exact Position.le_refl _

theorem Token.Placed.lexeme (h : t.Placed source.toList) (hcomment : t.kind ≠ .comment) :
    (((Text.lines source.toList).getD t.start.line []).drop t.start.column).take t.length =
      t.lexeme.toList := by
  cases h with
  | word hkind hend hne before after hline hcolumn =>
    rw [List.getD_eq_getElem?_getD, hline, Option.getD_some, ← hcolumn, List.append_assoc,
      List.drop_left, length, ← String.length_toList, List.take_left]
  | comment hkind l hline hfit => exact absurd hkind hcomment
  | eof h =>
    subst h
    rfl

/-- The tokens of a source lie in its lines, one behind the other, with the end of file behind the
last line. -/
theorem liesIn_of_scan (h : scan source = .ok ts) : LiesIn (Text.lines source.toList) ts := by
  have hplaced : ∀ t ∈ ts, t.Placed source.toList := fun t ht => placed_of_mem_scan h ht
  obtain ⟨us, hus, rfl⟩ := exists_scanFrom h
  constructor
  · exact ⟨us, _, rfl, rfl, endsLines_sourceEnd source.toList,
      fun t ht => kind_ne_eof_of_mem_scanFrom hus ht⟩
  · exact fun t ht hcomment => (hplaced t ht).lexeme hcomment
  · refine List.pairwise_append.2 ⟨(pairwise_of_scanFrom hus).2, List.pairwise_singleton _ _, ?_⟩
    intro t ht u hu
    rw [List.mem_singleton.1 hu]
    exact (hplaced t (List.mem_append_left _ ht)).stop_le

/-- A comment of two lines, with a star in front of the second one and a comment inside of it. -/
def starredSource : String := "/* a\n * /* b */ c */ x"

theorem liesIn_starred : ∃ ts, scan starredSource = .ok ts ∧
    LiesIn (Text.lines starredSource.toList) ts := by
  have h : scan starredSource = .ok [⟨.comment, "a", ⟨0, 3⟩⟩, ⟨.comment, "b  c", ⟨1, 4⟩⟩,
      ⟨.identifier, "x", ⟨1, 16⟩⟩, ⟨.eof, "", ⟨1, 17⟩⟩] := by cbv
  exact ⟨_, h, liesIn_of_scan h⟩

end Sources

end GameSchema
