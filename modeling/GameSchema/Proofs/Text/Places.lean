import GameSchema.Proofs.Text.Lines
import GameSchema.Text.Basic

/-!
# Places in the lines of a text

Places are ordered as they follow each other in a text. The place that a reader has reached tells
the line that it stands in and the characters of that line that it has passed. What it reads next
without meeting a newline is the part of the line from there.
-/

namespace GameSchema

namespace Position

/-- Places are ordered by their lines, and within a line by their columns. -/
instance : LE Position := ⟨fun p q => p.line < q.line ∨ p.line = q.line ∧ p.column ≤ q.column⟩

variable {p q r : Position}

theorem le_iff : p ≤ q ↔ p.line < q.line ∨ p.line = q.line ∧ p.column ≤ q.column := Iff.rfl

protected theorem le_refl (p : Position) : p ≤ p := .inr ⟨rfl, Nat.le_refl _⟩

protected theorem le_trans (h : p ≤ q) (h' : q ≤ r) : p ≤ r := by
  rw [le_iff] at *
  omega

theorem le_shift (p : Position) (n : Nat) : p ≤ p.shift n := .inr ⟨rfl, Nat.le_add_right _ _⟩

/-- Reading goes on to later places. -/
theorem le_after (p : Position) (cs : List Char) : p ≤ p.after cs := by
  induction cs generalizing p with
  | nil => exact p.le_refl
  | cons c cs ih =>
    refine Position.le_trans ?_ (ih (p.next c))
    by_cases hc : c = '\n'
    · rw [hc, next_newline]
      exact .inl (Nat.lt_succ_self _)
    · rw [next_of_ne p hc]
      exact le_shift p 1

end Position

namespace Text

theorem newline_not_mem_of_mem_lines {cs l : List Char} (h : l ∈ lines cs) : '\n' ∉ l := by
  fun_induction lines cs generalizing l with
  | case1 => cases h
  | case2 cs ih | case3 cs ih =>
    rcases List.mem_cons.1 h with rfl | h
    · simp
    · exact ih h
  | case4 c cs hn _ ih =>
    have hc : '\n' ≠ c := fun h => hn h.symm
    cases hcs : lines cs with
    | nil =>
      rw [hcs, pushFirst, List.mem_singleton] at h
      simp [h, hc]
    | cons m ms =>
      rw [hcs] at h ih
      rcases List.mem_cons.1 h with rfl | h
      · rw [List.mem_cons, not_or]
        exact ⟨hc, ih List.mem_cons_self⟩
      · exact ih (List.mem_cons_of_mem m h)

/-- A text after which a new line starts. -/
def EndsLine (block : List Char) : Prop := ∀ c ∈ block.getLast?, c = '\n'

theorem endsLine_cons {c : Char} {block : List Char} :
    EndsLine (c :: block) ↔ EndsLine block ∧ (block = [] → c = '\n') := by
  cases block with
  | nil => simp [EndsLine]
  | cons d block => simp [EndsLine]

theorem EndsLine.eq_nil {block : List Char} (h : EndsLine block) (hcount : block.count '\n' = 0) :
    block = [] := by
  cases hlast : block.getLast? with
  | none => exact List.getLast?_eq_none_iff.1 hlast
  | some c =>
    obtain rfl := h c hlast
    exact absurd (List.mem_of_getLast? hlast) (List.count_eq_zero.1 hcount)

/-- A line stands in its text behind as many newlines as there are lines before it. -/
theorem exists_block_of_lines {cs l : List Char} {n : Nat} (h : (lines cs)[n]? = some l) :
    ∃ block rest, cs = block ++ (l ++ rest) ∧ EndsLine block ∧ block.count '\n' = n := by
  fun_induction lines cs generalizing l n with
  | case1 => cases h
  | case2 cs ih =>
    cases n with
    | zero =>
      cases h
      exact ⟨[], '\n' :: cs, rfl, by simp [EndsLine], rfl⟩
    | succ n =>
      obtain ⟨block, rest, rfl, hends, hcount⟩ := ih h
      refine ⟨'\n' :: block, rest, rfl, endsLine_cons.2 ⟨hends, fun _ => rfl⟩, ?_⟩
      rw [List.count_cons_self, hcount]
  | case3 cs ih =>
    cases n with
    | zero =>
      cases h
      exact ⟨[], '\r' :: '\n' :: cs, rfl, by simp [EndsLine], rfl⟩
    | succ n =>
      obtain ⟨block, rest, rfl, hends, hcount⟩ := ih h
      have hnewline := endsLine_cons.2 ⟨hends, fun _ => rfl⟩
      refine ⟨'\r' :: '\n' :: block, rest, rfl, endsLine_cons.2 ⟨hnewline, ?_⟩, ?_⟩
      · intro hnil
        cases hnil
      · rw [List.count_cons_of_ne (by decide), List.count_cons_self, hcount]
  | case4 c cs hn _ ih =>
    cases hcs : lines cs with
    | nil =>
      rw [hcs] at h
      cases n with
      | zero =>
        cases h
        exact ⟨[], cs, rfl, by simp [EndsLine], rfl⟩
      | succ n => cases h
    | cons m ms =>
      rw [hcs] at h ih
      cases n with
      | zero =>
        cases h
        obtain ⟨block, rest, rfl, hends, hcount⟩ := ih (n := 0) (l := m) rfl
        rw [hends.eq_nil hcount]
        exact ⟨[], rest, rfl, by simp [EndsLine], rfl⟩
      | succ n =>
        obtain ⟨block, rest, rfl, hends, hcount⟩ := ih (n := n + 1) (l := l) h
        refine ⟨c :: block, rest, rfl, endsLine_cons.2 ⟨hends, ?_⟩, ?_⟩
        · rintro rfl
          cases hcount
        · rw [List.count_cons_of_ne hn, hcount]

/-- A text that starts without a newline starts within its first line. -/
theorem exists_append_of_newline {w l xs ys : List Char} (hw : '\n' ∉ w)
    (h : w ++ ys = l ++ '\n' :: xs) : ∃ b, l = w ++ b ∧ ys = b ++ '\n' :: xs := by
  rcases List.append_eq_append_iff.1 h with ⟨b, hl, hys⟩ | ⟨b, hwl, hxs⟩
  · exact ⟨b, hl, hys⟩
  · cases b with
    | nil => exact ⟨[], by simpa using hwl.symm, by simpa using hxs.symm⟩
    | cons c b =>
      obtain ⟨rfl, -⟩ := List.cons.inj hxs
      exact absurd (by simp [hwl]) hw

/-- A part of a text that has no newline lies in the line in which it starts. -/
theorem exists_line_of_unlines {ls : List (List Char)} (hls : ∀ l ∈ ls, '\n' ∉ l)
    {pre w post : List Char} (hw : '\n' ∉ w) (hne : w ++ post ≠ [])
    (h : pre ++ (w ++ post) = unlines ls) (n : Nat) :
    ∃ k a b, Position.after ⟨n, 0⟩ pre = ⟨n + k, a.length⟩ ∧ ls[k]? = some (a ++ w ++ b) := by
  induction ls generalizing pre n with
  | nil => exact absurd (List.append_eq_nil_iff.1 h).2 hne
  | cons l ls ih =>
    have hl := hls l List.mem_cons_self
    rw [unlines_cons] at h
    by_cases hpre : '\n' ∈ pre
    · obtain ⟨p, q, rfl, hp⟩ := List.eq_append_cons_of_mem hpre
      rw [List.append_assoc, List.cons_append] at h
      obtain ⟨b, rfl, hb⟩ := exists_append_of_newline hp h
      cases b with
      | cons c b =>
        obtain ⟨rfl, -⟩ := List.cons.inj hb
        exact absurd (by simp) hl
      | nil =>
        rw [List.nil_append] at hb
        obtain ⟨k, a, b, hplace, hline⟩ :=
          ih (fun m hm => hls m (List.mem_cons_of_mem _ hm)) (List.cons.inj hb).2 (n + 1)
        refine ⟨k + 1, a, b, ?_, hline⟩
        rw [Position.after_append, Position.after_eq_shift _ hp, Position.after_cons,
          Position.next_newline]
        simp only [Position.shift]
        rw [hplace, Nat.add_assoc, Nat.add_comm 1 k]
    · rw [← List.append_assoc] at h
      have hjoin : '\n' ∉ pre ++ w := by
        rw [List.mem_append, not_or]
        exact ⟨hpre, hw⟩
      obtain ⟨b, rfl, -⟩ := exists_append_of_newline hjoin h
      refine ⟨0, pre, b, ?_, rfl⟩
      rw [Position.after_eq_shift _ hpre]
      simp [Position.shift]

/-- Where the pieces between newlines start: the first one with the text, and each other one at the
front of a line. -/
theorem exists_of_pieces {cs first : List Char} {more : List (List Char)}
    (h : pieces '\n' cs = first :: more) :
    (∃ after, cs = first ++ after) ∧ ∀ i l, more[i]? = some l → ∃ before after,
      cs = before ++ (l ++ after) ∧ ∀ p : Position, p.after before = ⟨p.line + 1 + i, 0⟩ := by
  induction cs generalizing first more with
  | nil =>
    cases h
    exact ⟨⟨[], rfl⟩, by simp⟩
  | cons c cs ih =>
    obtain ⟨m, ms, hcs⟩ := List.exists_cons_of_ne_nil (pieces_ne_nil '\n' cs)
    obtain ⟨hfirst, hmore⟩ := ih hcs
    by_cases hc : c = '\n'
    · subst hc
      rw [pieces_separator, hcs] at h
      cases h
      refine ⟨⟨'\n' :: cs, rfl⟩, ?_⟩
      intro i l hl
      cases i with
      | zero =>
        obtain rfl : m = l := by simpa using hl
        obtain ⟨after, rfl⟩ := hfirst
        exact ⟨['\n'], after, rfl, fun p => rfl⟩
      | succ i =>
        obtain ⟨before, after, rfl, hplace⟩ := hmore i l hl
        refine ⟨'\n' :: before, after, rfl, ?_⟩
        intro p
        rw [Position.after_cons, hplace, Position.next_newline, Nat.add_assoc _ 1 i,
          Nat.add_comm 1 i]
    · rw [pieces, if_neg hc, hcs] at h
      cases h
      obtain ⟨after, rfl⟩ := hfirst
      refine ⟨⟨after, rfl⟩, ?_⟩
      intro i l hl
      obtain ⟨before, after', hbefore, hplace⟩ := hmore i l hl
      refine ⟨c :: before, after', by rw [hbefore]; rfl, ?_⟩
      intro p
      rw [Position.after_cons, hplace, Position.next_of_ne p hc]
      rfl

end Text

end GameSchema
