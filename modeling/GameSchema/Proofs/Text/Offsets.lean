import GameSchema.Document.Store
import GameSchema.Proofs.Token.Geometry

/-!
# Offsets of places

An edit finds a place by counting newlines and then characters. Every place is found in its line or
at the end of it, later places are found no earlier, and the place of a character is found at that
character. Lines without their line ends have the same places, up to the end of each line.
-/

namespace GameSchema.Text

/-- The place behind a text: the newlines in it, and the characters since the last of them. -/
def placeAfter (cs : List Char) : Position :=
  ⟨cs.count '\n', (cs.reverse.takeWhile (· ≠ '\n')).length⟩

section InLines

theorem offset_within {w : List Char} {column : Nat} (hw : '\n' ∉ w) (hle : column ≤ w.length)
    (cs : List Char) : offset (w ++ cs) ⟨0, column⟩ = column := by
  induction w generalizing column with
  | nil =>
    obtain rfl : column = 0 := Nat.le_zero.1 hle
    cases cs <;> rfl
  | cons c w ih =>
    obtain ⟨hc, hw⟩ := not_or.1 fun hmem => hw (List.mem_cons.2 hmem)
    cases column with
    | zero => rfl
    | succ column =>
      rw [List.cons_append, offset, if_neg fun h => hc h.symm, ih hw (Nat.le_of_succ_le_succ hle)]

/-- Edits find a place in the line that starts behind as many newlines as its line number says. -/
theorem offset_behind {block : List Char} (h : EndsLine block) (cs : List Char) (column : Nat) :
    offset (block ++ cs) ⟨block.count '\n', column⟩ = block.length + offset cs ⟨0, column⟩ := by
  induction block with
  | nil => simp
  | cons c block ih =>
    obtain ⟨hends, hlast⟩ := endsLine_cons.1 h
    by_cases hc : c = '\n'
    · subst hc
      rw [List.count_cons_self, List.cons_append, offset, if_pos rfl, ih hends, List.length_cons]
      omega
    · have hpos : block.count '\n' ≠ 0 := by
        intro hzero
        exact hc (hlast (hends.eq_nil hzero))
      obtain ⟨k, hk⟩ := Nat.exists_eq_succ_of_ne_zero hpos
      have hnext := ih hends
      rw [hk] at hnext
      rw [List.count_cons_of_ne hc, hk, List.cons_append, offset, if_neg hc, hnext,
        List.length_cons]
      omega

/-- A part of a line is found again in the text, at the offsets of its first place and the place
behind it. -/
theorem exists_offsets_of_line {cs before w after : List Char} {n : Nat}
    (h : (lines cs)[n]? = some (before ++ w ++ after)) :
    ∃ pre post, cs = pre ++ (w ++ post) ∧ pre.count '\n' = n ∧
      (pre.reverse.takeWhile (· ≠ '\n')).length = before.length ∧
        offset cs ⟨n, before.length⟩ = pre.length ∧
          offset cs ⟨n, before.length + w.length⟩ = pre.length + w.length := by
  have hline := newline_not_mem_of_mem_lines (List.mem_of_getElem? h)
  have hbefore : '\n' ∉ before := fun hmem =>
    hline (List.mem_append_left _ (List.mem_append_left _ hmem))
  obtain ⟨block, rest, rfl, hends, rfl⟩ := exists_block_of_lines h
  refine ⟨block ++ before, after ++ rest, ?_, ?_, ?_, ?_, ?_⟩
  · simp only [List.append_assoc]
  · rw [List.count_append, List.count_eq_zero.2 hbefore, Nat.add_zero]
  · have hall : ∀ c ∈ before.reverse, decide (c ≠ '\n') = true := by
      intro c hc
      exact decide_eq_true fun heq => hbefore (heq ▸ List.mem_reverse.1 hc)
    have hblock : block.reverse.takeWhile (· ≠ '\n') = [] := by
      cases hlast : block.getLast? with
      | none => rw [List.getLast?_eq_none_iff.1 hlast]; rfl
      | some c =>
        obtain ⟨ds, rfl⟩ := List.getLast?_eq_some_iff.1 hlast
        simp [hends c hlast]
    rw [List.reverse_append, List.takeWhile_append_of_pos hall, hblock, List.append_nil,
      List.length_reverse]
  · rw [offset_behind hends, offset_within hline (by simp), List.length_append]
  · rw [offset_behind hends, offset_within hline (by simp), List.length_append, Nat.add_assoc]

end InLines

section Everywhere

variable {cs l : List Char}

theorem offset_below {p : Position} (h : cs.count '\n' < p.line) : offset cs p = cs.length := by
  fun_induction offset cs p with
  | case1 => rfl
  | case2 | case3 | case4 => cases h
  | case5 c cs line column ih =>
    rw [List.length_cons, Nat.add_right_cancel_iff]
    by_cases hc : c = '\n'
    · subst hc
      rw [List.count_cons_self] at h
      simpa using ih (by simpa using h)
    · rw [List.count_cons_of_ne hc] at h
      simpa [hc] using ih (by simpa [hc] using h)

/-- In its first line a text has no more places than the line has characters, and its end. -/
theorem offset_line (hl : '\n' ∉ l) {rest : List Char} (hrest : ∀ c ∈ rest.head?, c = '\n')
    (column : Nat) : offset (l ++ rest) ⟨0, column⟩ = min column l.length := by
  rcases Nat.le_total column l.length with hle | hle
  · rw [offset_within hl hle, Nat.min_eq_left hle]
  · rw [Nat.min_eq_right hle]
    induction l generalizing column with
    | nil =>
      cases rest with
      | nil => rfl
      | cons c rest =>
        obtain rfl : c = '\n' := hrest c rfl
        cases column <;> rfl
    | cons c l ih =>
      obtain ⟨hc, hl⟩ := not_or.1 fun hmem => hl (List.mem_cons.2 hmem)
      cases column with
      | zero => cases hle
      | succ column =>
        rw [List.cons_append, offset, if_neg fun h => hc h.symm,
          ih hl column (Nat.le_of_succ_le_succ hle), List.length_cons]

theorem exists_firstLine (cs : List Char) :
    ∃ l rest, cs = l ++ rest ∧ '\n' ∉ l ∧ ∀ c ∈ rest.head?, c = '\n' := by
  refine ⟨cs.takeWhile (· ≠ '\n'), cs.dropWhile (· ≠ '\n'), ?_, ?_, ?_⟩
  · exact List.takeWhile_append_dropWhile.symm
  · exact Scan.not_mem_takeWhile (by simp) cs
  · intro c hc
    have hfirst := List.head?_dropWhile_not (· ≠ '\n') cs
    rw [Option.mem_def.1 hc] at hfirst
    simpa using hfirst

/-- Behind as many newlines as a text has, or fewer, a line of the text starts. -/
theorem exists_block_of_count {n : Nat} (h : n ≤ cs.count '\n') :
    ∃ block rest, cs = block ++ rest ∧ EndsLine block ∧ block.count '\n' = n := by
  induction cs generalizing n with
  | nil => exact ⟨[], [], rfl, by simp [EndsLine], (Nat.le_zero.1 h).symm⟩
  | cons c cs ih =>
    cases n with
    | zero => exact ⟨[], c :: cs, rfl, by simp [EndsLine], rfl⟩
    | succ n =>
      by_cases hc : c = '\n'
      · subst hc
        rw [List.count_cons_self] at h
        obtain ⟨block, rest, rfl, hends, hcount⟩ := ih (Nat.le_of_succ_le_succ h)
        refine ⟨'\n' :: block, rest, rfl, endsLine_cons.2 ⟨hends, fun _ => rfl⟩, ?_⟩
        rw [List.count_cons_self, hcount]
      · rw [List.count_cons_of_ne hc] at h
        obtain ⟨block, rest, rfl, hends, hcount⟩ := ih h
        refine ⟨c :: block, rest, rfl, endsLine_cons.2 ⟨hends, ?_⟩, ?_⟩
        · rintro rfl
          cases hcount
        · rw [List.count_cons_of_ne hc, hcount]

/-- A later place is found at the same character or at a later one. -/
theorem offset_mono {p q : Position} (h : p ≤ q) : offset cs p ≤ offset cs q := by
  induction cs generalizing p q with
  | nil => exact Nat.le_refl _
  | cons c cs ih =>
    obtain ⟨m, j⟩ := p
    obtain ⟨n, k⟩ := q
    have hle : m < n ∨ m = n ∧ j ≤ k := h
    cases m with
    | zero =>
      cases j with
      | zero => exact Nat.zero_le _
      | succ j =>
        by_cases hc : c = '\n'
        · rw [offset, if_pos hc]
          exact Nat.zero_le _
        · rw [offset, if_neg hc]
          cases n with
          | zero =>
            cases k with
            | zero => omega
            | succ k =>
              rw [offset, if_neg hc]
              exact Nat.succ_le_succ (ih (.inr ⟨rfl, by simp only; omega⟩))
          | succ n =>
            rw [offset, if_neg hc]
            exact Nat.succ_le_succ (ih (.inl (Nat.succ_pos n)))
    | succ m =>
      cases n with
      | zero => omega
      | succ n =>
        rw [offset, offset]
        apply Nat.succ_le_succ
        apply ih
        split
        · exact hle.imp Nat.lt_of_succ_lt_succ (And.imp_left Nat.succ.inj)
        · exact hle

/-- The part of a text since its last newline. -/
theorem exists_lastLine (cs : List Char) : ∃ block l, cs = block ++ l ∧ EndsLine block ∧
    '\n' ∉ l ∧ l.length = (cs.reverse.takeWhile (· ≠ '\n')).length := by
  refine ⟨(cs.reverse.dropWhile (· ≠ '\n')).reverse, (cs.reverse.takeWhile (· ≠ '\n')).reverse,
    ?_, ?_, ?_, List.length_reverse⟩
  · rw [← List.reverse_append, List.takeWhile_append_dropWhile, List.reverse_reverse]
  · intro c hc
    rw [List.getLast?_reverse] at hc
    have hfirst := List.head?_dropWhile_not (· ≠ '\n') cs.reverse
    rw [Option.mem_def.1 hc] at hfirst
    simpa using hfirst
  · rw [List.mem_reverse]
    exact Scan.not_mem_takeWhile (by simp) cs.reverse

/-- The place behind the beginning of a text is found there. -/
theorem offset_placeAfter (pre post : List Char) :
    offset (pre ++ post) (placeAfter pre) = pre.length := by
  obtain ⟨block, l, hpre, hends, hl, hlength⟩ := exists_lastLine pre
  have hplace : placeAfter pre = ⟨block.count '\n', l.length⟩ := by
    rw [placeAfter, ← hlength, hpre, List.count_append, List.count_eq_zero.2 hl, Nat.add_zero]
  rw [hplace, hpre, List.append_assoc, offset_behind hends, offset_within hl (Nat.le_refl _),
    List.length_append]

/-- A place below the first line is found as one in the lines behind it. -/
theorem offset_newline (hl : '\n' ∉ l) (cs : List Char) (line column : Nat) :
    offset (l ++ '\n' :: cs) ⟨line + 1, column⟩ = l.length + 1 + offset cs ⟨line, column⟩ := by
  induction l with
  | nil =>
    rw [List.nil_append, offset, if_pos rfl, List.length_nil, Nat.zero_add, Nat.add_comm]
  | cons c l ih =>
    obtain ⟨hc, hl⟩ := not_or.1 fun hmem => hl (List.mem_cons.2 hmem)
    rw [List.cons_append, offset, if_neg fun h => hc h.symm, ih hl, List.length_cons]
    omega

theorem take_append_drop_take {i j : Nat} (h : i ≤ j) (cs : List Char) :
    cs.take i ++ (cs.take j).drop i = cs.take j := by
  have htake := List.take_append_drop i (cs.take j)
  rwa [List.take_take, Nat.min_eq_left h] at htake

end Everywhere

end GameSchema.Text
