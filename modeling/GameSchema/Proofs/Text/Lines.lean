import GameSchema.Text.Basic

/-!
# Lines and trimmed texts

A text is trimmed when it neither starts nor ends with a blank, and trimming leaves such a text. A
text put together from clean lines is cut into the same lines again.
-/

namespace GameSchema.Text

section Trimmed

/-- A text that neither starts nor ends with a blank. -/
structure Trimmed (cs : List Char) : Prop where
  head : ∀ c ∈ cs.head?, isBlank c = false
  last : ∀ c ∈ cs.getLast?, isBlank c = false

variable {cs : List Char}

theorem trimStart_sublist (cs : List Char) : (trimStart cs).Sublist cs :=
  List.dropWhile_sublist _

theorem prefix_trimEnd (cs : List Char) : trimEnd cs <+: cs := by
  have hsuffix := List.dropWhile_suffix isBlank (l := cs.reverse)
  rw [← List.reverse_prefix, List.reverse_reverse] at hsuffix
  exact hsuffix

theorem trim_sublist (cs : List Char) : (trim cs).Sublist cs :=
  (prefix_trimEnd _).sublist.trans (trimStart_sublist cs)

theorem isBlank_head_trimStart {c : Char} (h : c ∈ (trimStart cs).head?) : isBlank c = false := by
  have hfirst := List.head?_dropWhile_not isBlank cs
  rw [trimStart] at h
  rw [Option.mem_def.1 h] at hfirst
  exact hfirst

theorem isBlank_last_trimEnd {c : Char} (h : c ∈ (trimEnd cs).getLast?) : isBlank c = false := by
  rw [trimEnd, List.getLast?_reverse] at h
  have hfirst := List.head?_dropWhile_not isBlank cs.reverse
  rw [Option.mem_def.1 h] at hfirst
  exact hfirst

theorem trimmed_trim (cs : List Char) : Trimmed (trim cs) := by
  refine ⟨?_, fun c hc => isBlank_last_trimEnd hc⟩
  intro c hc
  obtain ⟨more, hmore⟩ := prefix_trimEnd (trimStart cs)
  have hhead : c ∈ (trimStart cs).head? := by
    rw [← hmore]
    rw [trim] at hc
    cases hs : trimEnd (trimStart cs) with
    | nil => rw [hs] at hc; cases hc
    | cons d ds => rw [hs] at hc; exact hc
  exact isBlank_head_trimStart hhead

theorem dropWhile_isBlank_eq_self (h : ∀ c ∈ cs.head?, isBlank c = false) :
    cs.dropWhile isBlank = cs := by
  cases cs with
  | nil => rfl
  | cons c cs => exact List.dropWhile_cons_of_neg (by simp [h c rfl])

theorem Trimmed.trim_eq (h : Trimmed cs) : trim cs = cs := by
  have hlast : ∀ c ∈ cs.reverse.head?, isBlank c = false := by
    rw [List.head?_reverse]
    exact h.last
  rw [trim, trimStart, dropWhile_isBlank_eq_self h.head, trimEnd, dropWhile_isBlank_eq_self hlast,
    List.reverse_reverse]

theorem trim_cons_blank {b : Char} (hb : isBlank b = true) (cs : List Char) :
    trim (b :: cs) = trim cs := by
  rw [trim, trimStart, List.dropWhile_cons_of_pos hb]
  rfl

theorem trimEnd_cons {c : Char} (hc : isBlank c = false) (cs : List Char) :
    trimEnd (c :: cs) = c :: trimEnd cs := by
  rw [trimEnd, List.reverse_cons, List.dropWhile_append]
  split
  · next h =>
    rw [List.isEmpty_iff] at h
    simp [trimEnd, h, hc]
  · simp [trimEnd]

theorem trim_cons {c : Char} (hc : isBlank c = false) (cs : List Char) :
    trim (c :: cs) = c :: trimEnd cs := by
  rw [trim, trimStart, List.dropWhile_cons_of_neg (by simp [hc]), trimEnd_cons hc]

theorem trimEnd_trimEnd (cs : List Char) : trimEnd (trimEnd cs) = trimEnd cs := by
  have hlast : ∀ c ∈ (trimEnd cs).reverse.head?, isBlank c = false := by
    rw [List.head?_reverse]
    exact fun c hc => isBlank_last_trimEnd hc
  rw [trimEnd, dropWhile_isBlank_eq_self hlast, List.reverse_reverse]

/-- Blanks at the end make no difference to a text that is trimmed. -/
theorem trim_trimEnd (cs : List Char) : trim (trimEnd cs) = trim cs := by
  induction cs with
  | nil => rfl
  | cons c cs ih =>
    cases hc : isBlank c with
    | false => rw [trimEnd_cons hc, trim_cons hc, trim_cons hc, trimEnd_trimEnd]
    | true =>
      rw [trim_cons_blank hc, ← ih, trimEnd, List.reverse_cons, List.dropWhile_append]
      split
      · next h =>
        rw [List.isEmpty_iff] at h
        simp [trimEnd, h, hc]
      · rw [List.reverse_append, List.reverse_singleton, List.singleton_append, trim_cons_blank hc]
        rfl

end Trimmed

section Lines

/-- A line as `lines` gives it: without a newline, and without a carriage return at its end. -/
structure CleanLine (l : List Char) : Prop where
  newline : '\n' ∉ l
  carriageReturn : l.getLast? ≠ some '\r'

section Clean

variable {cs ds : List Char}

/-- A text without any character that can end a line. -/
def NoBreak (cs : List Char) : Prop := ∀ c ∈ cs, c ≠ '\n' ∧ c ≠ '\r'

theorem noBreak_nil : NoBreak [] := nofun

theorem NoBreak.append (h : NoBreak cs) (h' : NoBreak ds) : NoBreak (cs ++ ds) :=
  List.forall_mem_append.2 ⟨h, h'⟩

theorem NoBreak.cons {c : Char} (hc : c ≠ '\n' ∧ c ≠ '\r') (h : NoBreak cs) : NoBreak (c :: cs) :=
  List.forall_mem_cons.2 ⟨hc, h⟩

theorem NoBreak.concat {c : Char} (h : NoBreak cs) (hc : c ≠ '\n' ∧ c ≠ '\r') :
    NoBreak (cs ++ [c]) := h.append (.cons hc noBreak_nil)

theorem NoBreak.cleanLine (h : NoBreak cs) : CleanLine cs :=
  ⟨fun hmem => (h _ hmem).1 rfl, fun hlast => (h _ (List.mem_of_getLast? hlast)).2 rfl⟩

theorem noBreak_of_forall {p : Char → Bool} (h : ∀ c ∈ cs, p c = true) (hn : p '\n' = false)
    (hr : p '\r' = false) : NoBreak cs := by
  intro c hc
  refine ⟨?_, ?_⟩
  · rintro rfl
    rw [h _ hc] at hn
    cases hn
  · rintro rfl
    rw [h _ hc] at hr
    cases hr

end Clean

/-- A text in which a newline ends every line. -/
def unlines (ls : List (List Char)) : List Char := ls.flatMap (· ++ ['\n'])

@[simp] theorem unlines_nil : unlines [] = [] := rfl

@[simp] theorem unlines_cons (l : List Char) (ls : List (List Char)) :
    unlines (l :: ls) = l ++ '\n' :: unlines ls := by
  simp [unlines]

@[simp] theorem unlines_append (ls ms : List (List Char)) :
    unlines (ls ++ ms) = unlines ls ++ unlines ms := by
  simp [unlines]

theorem normalized_eq_unlines (cs : List Char) : normalized cs = unlines (lines cs) := rfl

/-- A character that ends no line stands at the front of the first line. -/
theorem lines_cons {c : Char} {cs : List Char} (hn : c ≠ '\n')
    (hr : c = '\r' → cs.head? ≠ some '\n') : lines (c :: cs) = pushFirst c (lines cs) := by
  rw [lines]
  · exact hn
  · rintro ds hc rfl
    exact hr hc rfl

theorem CleanLine.lines_append {l : List Char} (h : CleanLine l) (cs : List Char) :
    lines (l ++ '\n' :: cs) = l :: lines cs := by
  induction l with
  | nil => simp [lines]
  | cons c l ih =>
    obtain ⟨hfirst, hnewline⟩ := not_or.1 fun hmem => h.newline (List.mem_cons.2 hmem)
    have hn : c ≠ '\n' := fun hc => hfirst hc.symm
    cases l with
    | nil =>
      have hc : c ≠ '\r' := by simpa using h.carriageReturn
      rw [List.cons_append, lines_cons hn fun hr => absurd hr hc]
      simp [lines, pushFirst]
    | cons d l =>
      have hd : d ≠ '\n' := by
        rintro rfl
        exact hnewline List.mem_cons_self
      have hclean : CleanLine (d :: l) := ⟨hnewline, by simpa using h.carriageReturn⟩
      have hnext : c = '\r' → (d :: l ++ '\n' :: cs).head? ≠ some '\n' := by simp [hd]
      rw [List.cons_append, lines_cons hn hnext, ih hclean, pushFirst]

theorem lines_unlines {ls : List (List Char)} (h : ∀ l ∈ ls, CleanLine l) :
    lines (unlines ls) = ls := by
  induction ls with
  | nil => rfl
  | cons l ls ih =>
    rw [unlines_cons, (h l List.mem_cons_self).lines_append,
      ih fun m hm => h m (List.mem_cons_of_mem l hm)]

/-- A newline behind a text that ends within a line adds no line. -/
theorem lines_append_newline {cs : List Char} {c : Char} (hlast : cs.getLast? = some c)
    (hn : c ≠ '\n') (hr : c ≠ '\r') : lines (cs ++ ['\n']) = lines cs := by
  fun_induction lines cs with
  | case1 => cases hlast
  | case2 ds ih =>
    cases ds with
    | nil => exact absurd (by simpa using hlast.symm) hn
    | cons e es =>
      rw [List.getLast?_cons_cons] at hlast
      rw [List.cons_append, lines, ih hlast]
  | case3 ds ih =>
    cases ds with
    | nil => exact absurd (by simpa using hlast.symm) hn
    | cons e es =>
      rw [List.getLast?_cons_cons, List.getLast?_cons_cons] at hlast
      rw [List.cons_append, List.cons_append, lines, ih hlast]
  | case4 d ds hd hdr ih =>
    cases ds with
    | nil =>
      obtain rfl : d = c := by simpa using hlast
      rw [List.cons_append, lines_cons hn fun h => absurd h hr]
      rfl
    | cons e es =>
      rw [List.getLast?_cons_cons] at hlast
      have hnext : d = '\r' → (e :: es ++ ['\n']).head? ≠ some '\n' := by
        rintro hd he
        exact hdr es hd (by simpa using he)
      rw [List.cons_append, lines_cons hd hnext, ih hlast]

/-- A text that lacks nothing but its last newline is completed by it. -/
theorem normalized_of_append {cs : List Char} {ls : List (List Char)} {c : Char}
    (h : cs ++ ['\n'] = unlines ls) (hls : ∀ l ∈ ls, CleanLine l) (hlast : cs.getLast? = some c)
    (hn : c ≠ '\n') (hr : c ≠ '\r') : normalized cs = unlines ls := by
  rw [normalized_eq_unlines, ← lines_append_newline hlast hn hr, h, lines_unlines hls]

theorem normalized_newline (cs : List Char) : normalized ('\n' :: cs) = '\n' :: normalized cs := by
  simp [normalized, lines]

theorem normalized_cons {c : Char} {cs : List Char} (hn : c ≠ '\n')
    (hr : c = '\r' → cs.head? ≠ some '\n') (hcs : cs ≠ []) :
    normalized (c :: cs) = c :: normalized cs := by
  have hlines : lines cs ≠ [] := by
    fun_cases lines cs with
    | case1 => exact absurd rfl hcs
    | case2 | case3 => simp
    | case4 d ds => cases lines ds <;> simp [pushFirst]
  obtain ⟨l, ls, hl⟩ := List.exists_cons_of_ne_nil hlines
  rw [normalized_eq_unlines, normalized_eq_unlines, lines_cons hn hr, hl, pushFirst, unlines_cons,
    unlines_cons, List.cons_append]

/-- A text in front of a newline keeps its lines, but what ends the last of them may change. -/
theorem exists_normalized_append (cs : List Char) : ∃ a b, normalized cs = a ++ b ∧
    (∀ c ∈ b, c = '\r' ∨ c = '\n') ∧
    ∀ ds, normalized (cs ++ '\n' :: ds) = a ++ '\n' :: normalized ds := by
  fun_induction lines cs with
  | case1 => exact ⟨[], [], rfl, by simp, normalized_newline⟩
  | case2 cs ih =>
    obtain ⟨a, b, hcs, hb, happend⟩ := ih
    refine ⟨'\n' :: a, b, ?_, hb, fun ds => ?_⟩
    · rw [normalized_newline, hcs, List.cons_append]
    · rw [List.cons_append, normalized_newline, happend, List.cons_append]
  | case3 cs ih =>
    obtain ⟨a, b, hcs, hb, happend⟩ := ih
    have hbreak (ds : List Char) : normalized ('\r' :: '\n' :: ds) = '\n' :: normalized ds := by
      simp [normalized, lines]
    refine ⟨'\n' :: a, b, ?_, hb, fun ds => ?_⟩
    · rw [hbreak, hcs, List.cons_append]
    · rw [List.cons_append, List.cons_append, hbreak, happend, List.cons_append]
  | case4 c cs hn hr ih =>
    cases cs with
    | nil =>
      by_cases hc : c = '\r'
      · subst hc
        exact ⟨[], ['\r', '\n'], rfl, by simp, fun ds => by simp [normalized, lines]⟩
      · refine ⟨[c], ['\n'], ?_, by simp, fun ds => ?_⟩
        · simp [normalized, lines_cons hn fun h => absurd h hc, pushFirst]
        · rw [List.singleton_append, normalized_cons hn (fun h => absurd h hc) (by simp),
            normalized_newline, List.singleton_append]
    | cons d cs =>
      obtain ⟨a, b, hcs, hb, happend⟩ := ih
      have hnext : c = '\r' → d ≠ '\n' := by
        rintro hc rfl
        exact hr cs hc rfl
      refine ⟨c :: a, b, ?_, hb, fun ds => ?_⟩
      · rw [normalized_cons hn (by simpa using hnext) (by simp), hcs, List.cons_append]
      · rw [List.cons_append, normalized_cons hn (by simpa using hnext) (by simp), happend,
          List.cons_append]

end Lines

section Pieces

variable {separator : Char} {l : List Char}

theorem pieces_of_not_mem (h : separator ∉ l) : pieces separator l = [l] := by
  induction l with
  | nil => rfl
  | cons c l ih =>
    obtain ⟨hc, hl⟩ := not_or.1 fun hmem => h (List.mem_cons.2 hmem)
    rw [pieces, if_neg fun heq => hc heq.symm, ih hl, pushFirst]

theorem pieces_append (h : separator ∉ l) (cs : List Char) :
    pieces separator (l ++ separator :: cs) = l :: pieces separator cs := by
  induction l with
  | nil => exact pieces_separator separator cs
  | cons c l ih =>
    obtain ⟨hc, hl⟩ := not_or.1 fun hmem => h (List.mem_cons.2 hmem)
    rw [List.cons_append, pieces, if_neg fun heq => hc heq.symm, ih hl, pushFirst]

end Pieces

end GameSchema.Text
