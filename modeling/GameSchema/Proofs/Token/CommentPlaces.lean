import GameSchema.Proofs.Token.LexicalGrammar

/-!
# Where the text of a comment begins

The text of a line of a comment begins behind what is passed over in front of it: blanks and, in a
block comment, markers and one star. The token of the line stands at that text, except that its
column is counted once the nested markers are gone: each marker that is passed over puts the token
two columns before the text. Without nested markers every comment stands at its text.
-/

namespace GameSchema
open Scan

namespace LexicalGrammar

section Leads

/-- The number of characters of a mark. -/
def Mark.width : Mark → Nat
  | opening | closing => 2
  | plain _ => 1

def width (ms : List Mark) : Nat := (ms.map Mark.width).sum

/-- The number of openings and closings. -/
def markers (ms : List Mark) : Nat := ms.countP fun m => m.char?.isNone

/-- Markers and blanks. -/
def Mark.isGap (m : Mark) : Bool := m.char?.all Text.isBlank

/-- What is passed over in front of the text of a line of a block comment: markers and blanks, with
at most one star among them. -/
def lead (ms : List Mark) : List Mark :=
  let gap := ms.takeWhile Mark.isGap
  match ms.dropWhile Mark.isGap with
  | .plain '*' :: more => gap ++ .plain '*' :: more.takeWhile Mark.isGap
  | _ => gap

/-- In line `k` of a comment, counted from its opening on, `passed` is what is passed over in front
of the text, and `c` is the first character of the text. -/
inductive Begins : List Char → Nat → List Mark → Char → Prop
  | lineComment {bs c raw} (hbs : ∀ b ∈ bs, Text.isBlank b = true) (hc : Text.isBlank c = false)
      (hline : '\n' ∉ bs ++ c :: raw) :
      Begins ('/' :: '/' :: (bs ++ c :: raw)) 0 (bs.map .plain) c
  | blockComment {body k l c more} (h : IsBlockComment ('/' :: '*' :: body))
      (hl : (Text.pieces '\n' body)[k]? = some l)
      (hmarks : marks l = lead (marks l) ++ .plain c :: more) :
      Begins ('/' :: '*' :: body) k (lead (marks l)) c

/-- Where line `k` of a comment starts that is opened at `p`: behind its opening or at the front of
a line. -/
def lineStart (p : Position) : Nat → Position
  | 0 => p.shift 2
  | k + 1 => ⟨p.line + 1 + k, 0⟩

variable {ms : List Mark} {c : Char} {cs l : List Char}

@[simp] theorem width_cons (m : Mark) (ms : List Mark) : width (m :: ms) = m.width + width ms := by
  simp [width]

theorem width_eq (ms : List Mark) :
    width ms = (ms.filterMap Mark.char?).length + 2 * markers ms := by
  rw [markers]
  induction ms with
  | nil => rfl
  | cons m ms ih =>
    cases m with
    | opening | closing =>
      rw [width_cons, ih, List.countP_cons_of_pos rfl, List.filterMap_cons_none rfl, Mark.width]
      omega
    | plain c =>
      have hplain : (Mark.plain c :: ms).filterMap Mark.char? = c :: ms.filterMap Mark.char? := rfl
      rw [width_cons, ih, List.countP_cons_of_neg (by simp [Mark.char?]), hplain, Mark.width,
        List.length_cons]
      omega

theorem width_plain (cs : List Char) : width (cs.map .plain) = cs.length := by
  simp [width, Function.comp_def, Mark.width]

theorem markers_plain (cs : List Char) : markers (cs.map .plain) = 0 := by
  simp [markers, Mark.char?]

/-- A character that is left of a text stands behind the marks before it. -/
theorem getElem_width {more : List Mark} (h : marks cs = ms ++ .plain c :: more) :
    cs[width ms]? = some c := by
  fun_induction marks cs generalizing ms with
  | case1 => simp at h
  | case2 cs ih | case3 cs ih =>
    cases ms with
    | nil => cases h
    | cons m ms =>
      obtain ⟨rfl, htail⟩ := List.cons.inj h
      rw [width_cons, Nat.add_comm]
      exact ih htail
  | case4 d cs hopen hclose ih =>
    cases ms with
    | nil =>
      cases h
      rfl
    | cons m ms =>
      obtain ⟨rfl, htail⟩ := List.cons.inj h
      rw [width_cons, Nat.add_comm]
      exact ih htail

theorem filterMap_takeWhile_isGap (ms : List Mark) :
    (ms.takeWhile Mark.isGap).filterMap Mark.char? =
      (ms.filterMap Mark.char?).takeWhile Text.isBlank := by
  induction ms with
  | nil => rfl
  | cons m ms ih =>
    cases m with
    | opening | closing => exact ih
    | plain c => cases hc : Text.isBlank c <;> simp [Mark.isGap, Mark.char?, hc, ih]

theorem exists_dropWhile_isGap (h : (ms.filterMap Mark.char?).dropWhile Text.isBlank = c :: cs) :
    ∃ more, ms.dropWhile Mark.isGap = .plain c :: more ∧ more.filterMap Mark.char? = cs := by
  induction ms with
  | nil => cases h
  | cons m ms ih =>
    cases m with
    | opening | closing => exact ih h
    | plain d =>
      cases hd : Text.isBlank d with
      | true =>
        have hdrop := List.dropWhile_cons_of_pos (l := ms.filterMap Mark.char?) hd
        have htail := ih (hdrop ▸ h)
        simpa [Mark.isGap, Mark.char?, hd] using htail
      | false => simpa [Mark.isGap, Mark.char?, hd, and_assoc] using h

/-- A star behind markers and blanks is passed over with the markers and blanks behind it. -/
theorem lead_of_star (h : (ms.filterMap Mark.char?).dropWhile Text.isBlank = '*' :: cs) :
    ∃ ns, ns.filterMap Mark.char? = cs ∧ ms = ms.takeWhile Mark.isGap ++ .plain '*' :: ns ∧
      lead ms = ms.takeWhile Mark.isGap ++ .plain '*' :: ns.takeWhile Mark.isGap := by
  obtain ⟨ns, hdrop, hns⟩ := exists_dropWhile_isGap h
  refine ⟨ns, hns, ?_, ?_⟩
  · rw [← hdrop, List.takeWhile_append_dropWhile]
  · rw [lead, hdrop]
    rfl

theorem lead_of_not_star (h : (ms.filterMap Mark.char?).dropWhile Text.isBlank = c :: cs)
    (hc : c ≠ '*') :
    lead ms = ms.takeWhile Mark.isGap ∧ ∃ more, ms = lead ms ++ .plain c :: more := by
  obtain ⟨more, hdrop, -⟩ := exists_dropWhile_isGap h
  have hlead : lead ms = ms.takeWhile Mark.isGap := by
    rw [lead, hdrop]
    split
    · next heq =>
      cases heq
      exact absurd rfl hc
    · rfl
  refine ⟨hlead, more, ?_⟩
  rw [hlead, ← hdrop, List.takeWhile_append_dropWhile]

theorem exists_cons_of_trim (h : Text.trim cs ≠ []) :
    ∃ c post, Text.trimStart cs = c :: post ∧ Text.isBlank c = false ∧
      (Text.trim cs).head? = some c := by
  cases hstart : Text.trimStart cs with
  | nil =>
    rw [Text.trim, hstart] at h
    exact absurd rfl h
  | cons c post =>
    have hc : Text.isBlank c = false := Text.isBlank_head_trimStart (by rw [hstart]; rfl)
    refine ⟨c, post, rfl, hc, ?_⟩
    rw [Text.trim, hstart, Text.trimEnd_cons hc]
    rfl

end Leads

end LexicalGrammar

/-- A token stands in the line of a comment that starts at `start`, where the text begins with `c`
behind `passed`; markers are not counted. -/
structure Token.BeginsAt (t : Token) (start : Position) (passed : List LexicalGrammar.Mark)
    (c : Char) : Prop where
  first : t.lexeme.toList.head? = some c
  line : t.start.line = start.line
  column : t.start.column + 2 * LexicalGrammar.markers passed =
    start.column + LexicalGrammar.width passed

namespace LexicalGrammar

section Comments

variable {p : Position} {t : Token} {l raw body : List Char}

theorem beginsAt_of_shift {passed : List Mark} {c : Char}
    (hstart : t.start = p.shift (passed.filterMap Mark.char?).length)
    (hfirst : t.lexeme.toList.head? = some c) : t.BeginsAt p passed c := by
  refine ⟨hfirst, by rw [hstart]; rfl, ?_⟩
  rw [hstart, width_eq, ← Nat.add_assoc]
  rfl

theorem exists_first_of_token (h : (Comment.token p raw).lexeme ≠ "") :
    ∃ c post, Text.trimStart raw = c :: post ∧ Text.isBlank c = false ∧
      (Comment.token p raw).lexeme.toList.head? = some c := by
  rw [Comment.token, ne_eq, String.ofList_eq_empty_iff] at h
  rw [Comment.token, String.toList_ofList]
  exact exists_cons_of_trim h

theorem beginsAt_lineToken (h : Comment.lineToken? p (Comment.unmarked l) = some t) :
    ∃ c more, marks l = lead (marks l) ++ .plain c :: more ∧
      t.BeginsAt p (lead (marks l)) c := by
  rw [← filterMap_marks] at h
  generalize marks l = ms at *
  simp only [Comment.lineToken?] at h
  split at h
  · next cs hstart =>
    obtain ⟨ns, rfl, hms, hlead⟩ := lead_of_star hstart
    split at h
    · cases h
    · next hne =>
      cases h
      obtain ⟨c, post, hcs, -, hfirst⟩ := exists_first_of_token hne
      obtain ⟨more, hns, -⟩ := exists_dropWhile_isGap hcs
      refine ⟨c, more, ?_, beginsAt_of_shift ?_ hfirst⟩
      · rw [hlead, List.append_assoc, List.cons_append, ← hns, List.takeWhile_append_dropWhile,
          ← hms]
      · rw [hlead, List.filterMap_append, List.filterMap_cons, filterMap_takeWhile_isGap,
          filterMap_takeWhile_isGap]
        simp only [Comment.token, Position.shift, Text.indent, Mark.char?, List.length_append,
          List.length_cons, Position.mk.injEq, true_and]
        omega
  · next hnot =>
    split at h
    · cases h
    · next hne =>
      cases h
      obtain ⟨c, post, hraw, -, hfirst⟩ := exists_first_of_token hne
      have hc : c ≠ '*' := by
        rintro rfl
        exact hnot post hraw
      obtain ⟨hlead, more, hms⟩ := lead_of_not_star hraw hc
      refine ⟨c, more, hms, beginsAt_of_shift ?_ hfirst⟩
      rw [hlead, filterMap_takeWhile_isGap]
      rfl

theorem take_mapIdx {α β : Type} (f : Nat → α → β) (xs : List α) (k : Nat) :
    (xs.mapIdx f).take k = (xs.take k).mapIdx f := by
  refine List.ext_getElem? fun i => ?_
  simp only [List.getElem?_take, List.getElem?_mapIdx]
  split <;> rfl

/-- What is selected from a list at `j` comes behind what is selected before it. -/
theorem exists_of_getElem_filterMap {α β : Type} {f : α → Option β} {xs : List α} {y : β} {j : Nat}
    (h : (xs.filterMap f)[j]? = some y) :
    ∃ k x, xs[k]? = some x ∧ f x = some y ∧ j = ((xs.take k).filterMap f).length := by
  induction xs generalizing j with
  | nil => simp at h
  | cons x xs ih =>
    cases hx : f x with
    | none =>
      rw [List.filterMap_cons_none hx] at h
      obtain ⟨k, z, hz, hfz, hj⟩ := ih h
      exact ⟨k + 1, z, hz, hfz, by rw [List.take_succ_cons, List.filterMap_cons_none hx, hj]⟩
    | some z =>
      rw [List.filterMap_cons_some hx] at h
      cases j with
      | zero => exact ⟨0, x, rfl, hx.trans h, rfl⟩
      | succ j =>
        obtain ⟨k, w, hw, hfw, hj⟩ := ih h
        exact ⟨k + 1, w, hw, hfw, by
          rw [List.take_succ_cons, List.filterMap_cons_some hx, List.length_cons, hj]⟩

theorem blockTokens_eq (p : Position) (body : List Char) :
    Comment.blockTokens (p.shift 2) (Comment.unmarked body) =
      (((Text.pieces '\n' body).map Comment.unmarked).mapIdx fun k raw =>
        (lineStart p k, raw)).filterMap fun l => Comment.lineToken? l.1 l.2 := by
  obtain ⟨first, more, hbody⟩ := List.exists_cons_of_ne_nil (Text.pieces_ne_nil '\n' body)
  rw [Comment.blockTokens, Comment.pieces_unmarked, hbody, List.map_cons, List.mapIdx_cons]
  rfl

/-- The opening of a comment says nothing in its first line. -/
theorem filterMap_lineWord_opening (body : List Char) (k : Nat) :
    ((Text.pieces '\n' ('/' :: '*' :: body)).take k).filterMap lineWord? =
      ((Text.pieces '\n' body).take k).filterMap lineWord? := by
  obtain ⟨first, more, hbody⟩ := List.exists_cons_of_ne_nil (Text.pieces_ne_nil '\n' body)
  rw [Text.pieces, if_neg (by decide), Text.pieces, if_neg (by decide), hbody]
  cases k with
  | zero => rfl
  | succ k => rfl

theorem exists_begins_of_blockTokens {j : Nat} (h : IsBlockComment ('/' :: '*' :: body))
    (ht : (Comment.blockTokens (p.shift 2) (Comment.unmarked body))[j]? = some t) :
    ∃ k passed c, Begins ('/' :: '*' :: body) k passed c ∧
      j = (((Text.pieces '\n' ('/' :: '*' :: body)).take k).filterMap lineWord?).length ∧
      t.BeginsAt (lineStart p k) passed c := by
  rw [blockTokens_eq] at ht
  obtain ⟨k, x, hx, htoken, rfl⟩ := exists_of_getElem_filterMap ht
  rw [List.getElem?_mapIdx, List.getElem?_map, Option.map_map, Option.map_eq_some_iff] at hx
  obtain ⟨l, hl, rfl⟩ := hx
  obtain ⟨c, more, hmarks, hbegins⟩ := beginsAt_lineToken htoken
  refine ⟨k, _, c, .blockComment h hl hmarks, ?_, hbegins⟩
  rw [filterMap_lineWord_opening, take_mapIdx, ← List.map_take, ← content_lineTokens (lineStart p),
    ← List.map_filterMap, List.length_map]

theorem exists_begins_of_token (hline : '\n' ∉ raw)
    (hne : (Comment.token (p.shift 2) raw).lexeme ≠ "") :
    ∃ passed c, Begins ('/' :: '/' :: raw) 0 passed c ∧
      (Comment.token (p.shift 2) raw).BeginsAt (lineStart p 0) passed c := by
  obtain ⟨c, post, hstart, hc, hfirst⟩ := exists_first_of_token hne
  have hraw : raw.takeWhile Text.isBlank ++ c :: post = raw := by
    rw [← hstart, Text.trimStart, List.takeWhile_append_dropWhile]
  refine ⟨(raw.takeWhile Text.isBlank).map .plain, c, ?_, beginsAt_of_shift ?_ hfirst⟩
  · have hbegins := Begins.lineComment (List.all_eq_true.1 List.all_takeWhile) hc (hraw ▸ hline)
    rwa [hraw] at hbegins
  · rw [List.filterMap_map]
    simp [Comment.token, lineStart, Text.indent, Function.comp_def, Mark.char?]

variable {c : Char} {cs : List Char} {e : Element}

/-- A comment comes from an element that is a comment. -/
theorem taken_of_comment (h : element p c cs = .ok e) (ht : t ∈ e.tokens)
    (hcomment : t.kind = .comment) :
    (∃ raw, '\n' ∉ raw ∧ e.taken = '/' :: '/' :: raw ∧
      e.tokens = [Comment.token (p.shift 2) raw]) ∨
    ∃ body, IsBlockComment ('/' :: '*' :: body) ∧ e.taken = '/' :: '*' :: body ∧
      e.tokens = Comment.blockTokens (p.shift 2) (Comment.unmarked body) := by
  simp only [element] at h
  split at h
  · cases h
    cases ht
  split at h
  · next k hk =>
    cases h
    rw [List.mem_singleton.1 ht] at hcomment
    obtain rfl : k = .comment := hcomment
    simp only [punctuation?] at hk
    split at hk <;> cases hk
  split at h
  · simp only [versionNumber] at h
    split at h
    · cases h
      rw [List.mem_singleton.1 ht] at hcomment
      cases hcomment
    · cases h
  split at h
  · cases h
    rw [List.mem_singleton.1 ht] at hcomment
    have hword := isWord_wordKind (String.ofList ((c :: cs).takeWhile isWordPart))
    rw [show wordKind _ = .comment from hcomment] at hword
    cases hword
  split at h
  · next cs _ _ _ _ =>
    cases h
    exact .inl ⟨_, not_mem_takeWhile (by simp) cs, rfl, rfl⟩
  · simp only [blockComment] at h
    split at h
    · next body rest hread =>
      cases h
      have hcloses := closes_of_extent hread
      exact .inr ⟨body, isBlockComment_iff.2 ⟨body, rfl, by simpa using hcloses⟩, rfl, rfl⟩
    · cases h
  · cases h

/-- The text of a comment begins in the element that the comment comes from. -/
theorem exists_begins_of_element {j : Nat} (h : element p c cs = .ok e)
    (ht : e.tokens[j]? = some t) (hcomment : t.kind = .comment) (hne : t.lexeme ≠ "") :
    ∃ k passed d, Begins e.taken k passed d ∧
      j = (((Text.pieces '\n' e.taken).take k).filterMap lineWord?).length ∧
      t.BeginsAt (lineStart p k) passed d := by
  rcases taken_of_comment h (List.mem_of_getElem? ht) hcomment with
    ⟨raw, hline, htaken, htokens⟩ | ⟨body, hblock, htaken, htokens⟩
  · rw [htokens] at ht
    obtain ⟨hj, rfl⟩ := List.getElem?_eq_some_iff.1 ht
    obtain rfl : j = 0 := by simpa using hj
    obtain ⟨passed, d, hbegins, hat⟩ := exists_begins_of_token hline hne
    exact ⟨0, passed, d, htaken ▸ hbegins, rfl, hat⟩
  · rw [htokens] at ht
    rw [htaken]
    exact exists_begins_of_blockTokens hblock ht

/-- A token that is read from a text comes from an element in it, behind the elements that the
tokens before it come from. -/
theorem exists_element_of_getElem_scanFrom {ts : List Token} {i : Nat}
    (h : scanFrom p cs = .ok ts) (ht : ts[i]? = some t) :
    ∃ outside c rest e us j, cs = outside ++ c :: rest ∧ Elements (c :: rest) outside us ∧
      element (p.after outside) c rest = .ok e ∧ e.tokens[j]? = some t ∧ i = us.length + j := by
  fun_induction scanFrom p cs generalizing ts i with
  | case1 =>
    cases h
    cases ht
  | case2 => cases h
  | case3 => cases h
  | case4 p c cs e he us hus ih =>
    cases h
    by_cases hi : i < e.tokens.length
    · rw [List.getElem?_append_left hi] at ht
      exact ⟨[], c, cs, e, [], i, rfl, .nil, he, ht, (Nat.zero_add i).symm⟩
    · rw [List.getElem?_append_right (Nat.le_of_not_lt hi)] at ht
      obtain ⟨outside, d, rest, e', vs, j, hrest, houtside, he', ht, hij⟩ := ih hus ht
      have hfirst := isElement_of_element he
      rw [hrest] at hfirst
      refine ⟨e.taken ++ outside, d, rest, e', _, j, ?_, .cons hfirst houtside, ?_, ht, ?_⟩
      · rw [← element_append he, hrest, List.append_assoc]
      · rwa [Position.after_append]
      · rw [List.length_append, List.length_map]
        omega

/-- Behind what is passed over, a line of a comment goes on with its text. -/
theorem Begins.exists_line {comment : List Char} {k : Nat} {passed : List Mark}
    (h : Begins comment k passed c) : ∃ before l after, comment = before ++ (l ++ after) ∧
      '\n' ∉ l ∧ (∀ p : Position, p.after before = lineStart p k) ∧
      l[width passed]? = some c := by
  cases h with
  | @lineComment bs _ raw hbs hc hline =>
    refine ⟨['/', '/'], bs ++ c :: raw, [], by simp, hline, fun p => rfl, ?_⟩
    rw [width_plain]
    simp
  | @blockComment body k l _ more h hl hmarks =>
    obtain ⟨first, rest, hbody⟩ := List.exists_cons_of_ne_nil (Text.pieces_ne_nil '\n' body)
    obtain ⟨⟨after, hfirst⟩, hmore⟩ := Text.exists_of_pieces hbody
    have hline : '\n' ∉ l := not_mem_of_mem_pieces (List.mem_of_getElem? hl)
    rw [hbody] at hl
    cases k with
    | zero =>
      obtain rfl : first = l := Option.some.inj hl
      exact ⟨['/', '*'], first, after, by rw [hfirst]; rfl, hline, fun p => rfl,
        getElem_width hmarks⟩
    | succ k =>
      obtain ⟨before, after, hbefore, hplace⟩ := hmore k l hl
      exact ⟨'/' :: '*' :: before, l, after, by rw [hbefore]; rfl, hline,
        fun p => hplace (p.shift 2), getElem_width hmarks⟩

end Comments

section Nesting

variable {comment body l : List Char} {k : Nat} {passed : List Mark} {c : Char}

/-- Markers never run over the end of a line, so the lines of a text have their own marks. -/
theorem marks_of_pieces {cs first : List Char} {more : List (List Char)}
    (h : Text.pieces '\n' cs = first :: more) :
    marks cs = marks first ++ more.flatMap fun l => .plain '\n' :: marks l := by
  fun_induction marks cs generalizing first more with
  | case1 =>
    cases h
    rfl
  | case2 cs ih | case3 cs ih =>
    obtain ⟨m, ms, hcs⟩ := List.exists_cons_of_ne_nil (Text.pieces_ne_nil '\n' cs)
    rw [Text.pieces, if_neg (by decide), Text.pieces, if_neg (by decide), hcs] at h
    cases h
    rw [ih hcs]
    rfl
  | case4 c cs hopen hclose ih =>
    obtain ⟨m, ms, hcs⟩ := List.exists_cons_of_ne_nil (Text.pieces_ne_nil '\n' cs)
    by_cases hc : c = '\n'
    · subst hc
      rw [Text.pieces_separator, hcs] at h
      cases h
      rw [ih hcs]
      simp
    · rw [Text.pieces, if_neg hc, hcs] at h
      cases h
      obtain ⟨after, rfl⟩ := (Text.exists_of_pieces hcs).1
      rw [ih hcs, marks]
      · rfl
      · rintro ds rfl rfl
        exact hopen _ rfl rfl
      · rintro ds rfl rfl
        exact hclose _ rfl rfl

theorem marks_infix_of_mem_pieces (h : l ∈ Text.pieces '\n' body) : marks l <:+: marks body := by
  obtain ⟨first, more, hbody⟩ := List.exists_cons_of_ne_nil (Text.pieces_ne_nil '\n' body)
  rw [marks_of_pieces hbody]
  rw [hbody] at h
  rcases List.mem_cons.1 h with rfl | h
  · exact (List.prefix_append _ _).isInfix
  · obtain ⟨xs, ys, rfl⟩ := List.append_of_mem h
    rw [List.flatMap_append, List.flatMap_cons]
    exact ⟨marks first ++ xs.flatMap (fun m => .plain '\n' :: marks m) ++ [.plain '\n'],
      ys.flatMap fun m => .plain '\n' :: marks m, by simp⟩

/-- No marker is passed over in a comment that has none between its opening and its closing. -/
theorem Begins.markers_eq_zero (h : Begins comment k passed c)
    (hflat : IsBlockComment comment → markers (marks comment).tail.dropLast = 0) :
    markers passed = 0 := by
  cases h with
  | lineComment hbs hc hline => exact markers_plain _
  | @blockComment body k l _ more h hl hmarks =>
    obtain ⟨before, after, hbody⟩ := marks_infix_of_mem_pieces (List.mem_of_getElem? hl)
    rw [hmarks] at hbody
    have hinner : (marks body).dropLast =
        before ++ (lead (marks l) ++ (.plain c :: (more ++ after)).dropLast) := by
      rw [← hbody]
      simp [List.dropLast_append_of_ne_nil]
    have hmarkers := hflat h
    rw [marks, List.tail_cons, hinner, markers, List.countP_append, List.countP_append] at hmarkers
    rw [markers]
    omega

end Nesting

end LexicalGrammar

section Sources
open LexicalGrammar

/-- Token `i` of a source comes from line `k` of a comment that stands behind `outside`. There the
text begins with `c` behind `passed`. -/
structure CommentAt (source : String) (i : Nat) (outside comment : List Char) (k : Nat)
    (passed : List Mark) (c : Char) : Prop where
  exists_elements : ∃ rest us ws, Text.normalized source.toList = outside ++ (comment ++ rest) ∧
    Elements (comment ++ rest) outside us ∧ IsElement comment rest ws ∧
    i = us.length + (((Text.pieces '\n' comment).take k).filterMap lineWord?).length
  begins : Begins comment k passed c

/-- No block comment of a source has a marker between its opening and its closing. -/
def Unnested (source : String) : Prop :=
  ∀ outside w rest us, Text.normalized source.toList = outside ++ (w ++ rest) →
    Elements (w ++ rest) outside us → IsBlockComment w → markers (marks w).tail.dropLast = 0

variable {source : String} {ts : List Token} {t : Token} {i : Nat}

/-- A part of a text that has no newline is found in the lines of the text. -/
theorem exists_line_of_normalized {cs before l after : List Char}
    (h : Text.normalized cs = before ++ (l ++ after)) (hl : '\n' ∉ l) (hne : l ≠ []) :
    ∃ m, (Text.lines cs)[(Position.origin.after before).line]? = some m ∧
      ∀ j < l.length, m[(Position.origin.after before).column + j]? = l[j]? := by
  obtain ⟨k, a, b, hplace, hk⟩ := Text.exists_line_of_unlines
    (fun m hm => Text.newline_not_mem_of_mem_lines hm) hl (by simp [hne]) h.symm 0
  have horigin : Position.origin = ⟨0, 0⟩ := rfl
  rw [horigin, hplace, Nat.zero_add]
  refine ⟨_, hk, fun j hj => ?_⟩
  rw [List.append_assoc, List.getElem?_append_right (Nat.le_add_right _ _), Nat.add_sub_cancel_left,
    List.getElem?_append_left hj]

theorem exists_commentAt (h : scan source = .ok ts) (ht : ts[i]? = some t)
    (hcomment : t.kind = .comment) (hne : t.lexeme ≠ "") :
    ∃ outside comment k passed c, CommentAt source i outside comment k passed c ∧
      t.BeginsAt (lineStart (Position.origin.after outside) k) passed c := by
  obtain ⟨us, hus, rfl⟩ := exists_scanFrom h
  have hi : i < us.length := by
    by_contra hi
    rw [List.getElem?_append_right (Nat.le_of_not_lt hi)] at ht
    rw [List.mem_singleton.1 (List.mem_of_getElem? ht)] at hcomment
    cases hcomment
  rw [List.getElem?_append_left hi] at ht
  obtain ⟨outside, c, rest, e, vs, j, hsource, houtside, he, htoken, rfl⟩ :=
    exists_element_of_getElem_scanFrom hus ht
  obtain ⟨k, passed, d, hbegins, rfl, hat⟩ := exists_begins_of_element he htoken hcomment hne
  rw [← element_append he] at hsource houtside
  exact ⟨outside, e.taken, k, passed, d,
    ⟨⟨e.rest, vs, _, hsource, houtside, isElement_of_element he, rfl⟩, hbegins⟩, hat⟩

theorem CommentAt.exists_line {outside comment : List Char} {k : Nat} {passed : List Mark}
    {c : Char} (h : CommentAt source i outside comment k passed c)
    (hat : t.BeginsAt (lineStart (Position.origin.after outside) k) passed c) :
    ∃ l, (Text.lines source.toList)[t.start.line]? = some l ∧
      l[t.start.column + 2 * markers passed]? = t.lexeme.toList.head? := by
  obtain ⟨rest, us, ws, hsource, -, -, -⟩ := h.exists_elements
  obtain ⟨before, l, after, rfl, hl, hplace, hfirst⟩ := h.begins.exists_line
  obtain ⟨hwidth, -⟩ := List.getElem?_eq_some_iff.1 hfirst
  have hsplit : Text.normalized source.toList = (outside ++ before) ++ (l ++ (after ++ rest)) := by
    rw [hsource]
    simp only [List.append_assoc]
  obtain ⟨m, hm, hcolumns⟩ :=
    exists_line_of_normalized hsplit hl (List.ne_nil_of_length_pos (Nat.zero_lt_of_lt hwidth))
  rw [Position.after_append, hplace] at hm hcolumns
  refine ⟨m, by rw [hat.line, hm], ?_⟩
  rw [hat.column, hcolumns _ hwidth, hfirst, hat.first]

/-- A comment with text stands in its line at that text, less two columns for each marker between
the text and the opening of the comment or the start of the line. -/
theorem exists_text_of_comment (h : scan source = .ok ts) (ht : ts[i]? = some t)
    (hcomment : t.kind = .comment) (hne : t.lexeme ≠ "") :
    ∃ outside comment k passed c, CommentAt source i outside comment k passed c ∧
      t.BeginsAt (lineStart (Position.origin.after outside) k) passed c ∧
      ∃ l, (Text.lines source.toList)[t.start.line]? = some l ∧
        l[t.start.column + 2 * markers passed]? = t.lexeme.toList.head? := by
  obtain ⟨outside, comment, k, passed, c, hcommentAt, hat⟩ := exists_commentAt h ht hcomment hne
  exact ⟨outside, comment, k, passed, c, hcommentAt, hat, hcommentAt.exists_line hat⟩

/-- Without nested markers, each comment with text stands at the first character of its text. -/
theorem text_of_comment_of_unnested (hflat : Unnested source) (h : scan source = .ok ts)
    (ht : t ∈ ts) (hcomment : t.kind = .comment) (hne : t.lexeme ≠ "") :
    ∃ l, (Text.lines source.toList)[t.start.line]? = some l ∧
      l[t.start.column]? = t.lexeme.toList.head? := by
  obtain ⟨i, hi⟩ := List.getElem?_of_mem ht
  obtain ⟨outside, comment, k, passed, c, hcommentAt, hat⟩ := exists_commentAt h hi hcomment hne
  obtain ⟨rest, us, ws, hsource, houtside, -, -⟩ := hcommentAt.exists_elements
  obtain ⟨l, hl, hfirst⟩ := hcommentAt.exists_line hat
  have hblock := hflat outside comment rest us hsource houtside
  rw [hcommentAt.begins.markers_eq_zero hblock] at hfirst
  exact ⟨l, hl, hfirst⟩

end Sources

/-- A comment inside another one, in front of any text. -/
def nestedSource : String := "/* /* x */ */"

theorem scan_nestedSource :
    scan nestedSource = .ok [⟨.comment, "x", ⟨0, 4⟩⟩, .endOfFile ⟨0, 13⟩] := by
  cbv

/-- Where the text of the nested comment is said to be, there is the second marker. -/
theorem displaced_nestedSource : ∃ ts t, scan nestedSource = .ok ts ∧ t ∈ ts ∧
    t.kind = .comment ∧ t.lexeme ≠ "" ∧ ∃ l, (Text.lines nestedSource.toList)[t.start.line]? =
      some l ∧ l[t.start.column]? ≠ t.lexeme.toList.head? := by
  have hline : (Text.lines nestedSource.toList)[0]? = some nestedSource.toList := by cbv
  exact ⟨_, _, scan_nestedSource, List.mem_cons_self, rfl, by simp, _, hline, by decide⟩

theorem exists_text_of_nestedSource : ∃ ts t, scan nestedSource = .ok ts ∧ ts[0]? = some t ∧
    t.kind = .comment ∧ t.lexeme ≠ "" ∧
    ∃ outside comment k passed c, CommentAt nestedSource 0 outside comment k passed c ∧
      t.BeginsAt (LexicalGrammar.lineStart (Position.origin.after outside) k) passed c ∧
      ∃ l, (Text.lines nestedSource.toList)[t.start.line]? = some l ∧
        l[t.start.column + 2 * LexicalGrammar.markers passed]? = t.lexeme.toList.head? :=
  ⟨_, _, scan_nestedSource, rfl, rfl, by simp,
    exists_text_of_comment scan_nestedSource rfl rfl (by simp)⟩

end GameSchema
