import GameSchema.Proofs.Grammar.Cursor

/-!
# What a cursor reads

A cursor in a list of tokens stands for the tokens left before the first end of file. A rule on a
cursor reads when it comes to a result, with some last ones of these tokens left: it has looked at
no index outside the list and has gone neither back nor beyond the first end of file. Such rules
compose. The rules for single tokens, and those of the recovery from mistakes, read what their
counterparts on the tokens left read.
-/

namespace GameSchema.Cursor
open Grammar Token

/-- A list of tokens that starts with a stream: the tokens before an end of file, and that end. -/
structure Starts (s : TokenStream) (v : List Token) : Prop where
  tokens_append : ∃ more, v = s.tokens ++ s.eof :: more
  kind_ne_eof : ∀ t ∈ s.tokens, t.kind ≠ .eof
  kind_eof : s.eof.kind = .eof

/-- The index of the cursor when some last tokens of a stream are left. -/
def index (s : TokenStream) (ts : List Token) : Nat := s.tokens.length - ts.length

/-- A rule on a cursor that starts where `ts` are left ends where `us` are left. -/
def Reads (s : TokenStream) {α : Type} (r : Rule α) (d : Draft) (ts : List Token)
    (x : Except Diagnostic α) (d' : Draft) (us : List Token) : Prop :=
  ts <:+ s.tokens → us <:+ ts ∧ r (d, index s ts) = some (x, d', index s us)

section Rules

variable {s : TokenStream} {α β : Type} {r : Rule α} {d d' d₁ : Draft} {ts us vs : List Token}

theorem rule_bind (r : Rule α) (f : α → Rule β) (c : Draft × Nat) :
    (r >>= f) c = (r c).bind fun p =>
      match p with
      | (.ok a, c) => f a c
      | (.error x, c) => some (.error x, c) := by
  cases h : r c with
  | none => simp [Bind.bind, ExceptT.bind, ExceptT.mk, StateT.bind, h]
  | some p =>
    obtain ⟨x, c'⟩ := p
    cases x <;>
      simp [Bind.bind, ExceptT.bind, ExceptT.mk, StateT.bind, h, ExceptT.bindCont, pure,
        StateT.pure]

theorem Reads.bind {f : α → Rule β} {a : α} {x : Except Diagnostic β}
    (hr : Reads s r d ts (.ok a) d₁ us) (hf : Reads s (f a) d₁ us x d' vs) :
    Reads s (r >>= f) d ts x d' vs := by
  intro h
  obtain ⟨hus, hrun⟩ := hr h
  obtain ⟨hvs, hrun'⟩ := hf (hus.trans h)
  refine ⟨hvs.trans hus, ?_⟩
  rw [rule_bind, hrun]
  exact hrun'

theorem Reads.bind_error {f : α → Rule β} {x : Diagnostic}
    (hr : Reads s r d ts (.error x) d' us) : Reads s (r >>= f) d ts (.error x) d' us := by
  intro h
  obtain ⟨hus, hrun⟩ := hr h
  refine ⟨hus, ?_⟩
  rw [rule_bind, hrun]
  rfl

/-- A rule is read only where the tokens left are the last ones of the stream. -/
theorem Reads.of_suffix {x : Except Diagnostic α}
    (h : ts <:+ s.tokens → Reads s r d ts x d' us) : Reads s r d ts x d' us := fun hts => h hts hts

theorem reads_pure (a : α) : Reads s (pure a : Rule α) d ts (.ok a) d ts :=
  fun _ => ⟨List.suffix_rfl, rfl⟩

theorem reads_throw (x : Diagnostic) : Reads s (throw x : Rule α) d ts (.error x) d ts :=
  fun _ => ⟨List.suffix_rfl, rfl⟩

theorem reads_place : Reads s place d ts (.ok (index s ts)) d ts := fun _ => ⟨List.suffix_rfl, rfl⟩

theorem reads_edit (f : Draft → Draft) : Reads s (edit f) d ts (.ok ()) (f d) ts :=
  fun _ => ⟨List.suffix_rfl, rfl⟩

theorem reads_moveTo (h : us <:+ ts) : Reads s (moveTo (index s us)) d ts (.ok ()) d us :=
  fun _ => ⟨h, rfl⟩

theorem reads_tryEdit_ok {f : Draft → Except Diagnostic Draft} (h : f d = .ok d') :
    Reads s (tryEdit f) d ts (.ok ()) d' ts := by
  refine Reads.bind (a := (d, index s ts)) (fun _ => ⟨List.suffix_rfl, rfl⟩) ?_
  simp only [h]
  exact reads_edit _

theorem reads_tryEdit_error {f : Draft → Except Diagnostic Draft} {x : Diagnostic}
    (h : f d = .error x) : Reads s (tryEdit f) d ts (.error x) d ts := by
  refine Reads.bind (a := (d, index s ts)) (fun _ => ⟨List.suffix_rfl, rfl⟩) ?_
  simp only [h]
  exact reads_throw x

theorem Reads.attempt {x : Except Diagnostic α} (h : Reads s r d ts x d' us) :
    Reads s (attempt r) d ts (.ok x) d' us := by
  intro hts
  obtain ⟨hus, hrun⟩ := h hts
  refine ⟨hus, ?_⟩
  simp only [Cursor.attempt, ExceptT.run, StateT.run, hrun]
  rfl

end Rules

section Tokens

variable {s : TokenStream} {v : List Token} (hv : Starts s v) {d d' : Draft}
  {t : Token} {ts us : List Token}
include hv

theorem Starts.kind_ne {t : Token} (h : t :: us <:+ s.tokens) : t.kind ≠ .eof :=
  hv.kind_ne_eof t (h.subset List.mem_cons_self)

/-- The token at the cursor is the first one left, or the end of the file. -/
theorem Starts.getElem?_index (h : ts <:+ s.tokens) : v[index s ts]? = some (here s.eof ts) := by
  obtain ⟨more, hmore⟩ := hv.tokens_append
  obtain ⟨before, hbefore⟩ := h
  have hindex : index s ts = before.length := by
    rw [index, ← hbefore, List.length_append]
    omega
  rw [hmore, ← hbefore, hindex, List.append_assoc, List.getElem?_append_right (Nat.le_refl _),
    Nat.sub_self]
  cases ts <;> rfl

theorem Starts.index_lt (h : ts <:+ s.tokens) : index s ts < v.length :=
  (List.getElem?_eq_some_iff.1 (hv.getElem?_index h)).1

omit hv in
theorem index_cons (h : t :: us <:+ s.tokens) : index s us = index s (t :: us) + 1 := by
  have hle := h.length_le
  simp only [index, List.length_cons] at *
  omega

omit hv in
theorem length_eq_of_index (hts : ts <:+ s.tokens) (hus : us <:+ ts)
    (h : index s us = index s ts) : us.length = ts.length := by
  have := hts.length_le
  have := hus.length_le
  simp only [index] at h
  omega

omit hv in
theorem index_le (h : us <:+ ts) : index s ts ≤ index s us := by
  have := h.length_le
  simp only [index]
  omega

theorem reads_look (h : us <:+ s.tokens) :
    Reads s (look v (index s us)) d ts (.ok (here s.eof us)) d ts := by
  intro _
  refine ⟨List.suffix_rfl, ?_⟩
  rw [look, hv.getElem?_index h]
  rfl

theorem reads_peek : Reads s (peek v) d ts (.ok (here s.eof ts)) d ts := by
  refine .of_suffix fun h => ?_
  have hlt := hv.index_lt h
  have hmin : min (index s ts) (v.length - 1) = index s ts := by omega
  refine reads_place.bind ?_
  rw [hmin]
  exact reads_look hv h

theorem reads_advance : Reads s (advance v) d (t :: us) (.ok t) d us := by
  refine .of_suffix fun h => ?_
  have hindex := index_cons h
  refine reads_place.bind ((reads_peek hv).bind ?_)
  simp only [here_cons, hv.kind_ne h, ↓reduceIte, ← hindex]
  refine (reads_moveTo (List.suffix_cons t us)).bind ?_
  rw [hindex, Nat.add_sub_cancel]
  exact reads_look hv h

theorem reads_check {kind : TokenKind} (hk : kind ≠ .eof) :
    Reads s (check v kind) d ts (.ok (startsWith kind ts)) d ts := by
  refine (reads_peek hv).bind ?_
  cases ts with
  | nil =>
    have hne : (s.eof.kind == kind) = false := by simpa [hv.kind_eof] using hk.symm
    simp only [here_nil, hne]
    exact reads_pure false
  | cons t us => exact reads_pure _

theorem reads_atEnd : Reads s (check v .eof) d ts (.ok ts.isEmpty) d ts := by
  refine .of_suffix fun h => (reads_peek hv).bind ?_
  cases ts with
  | nil =>
    simp only [here_nil, hv.kind_eof]
    exact reads_pure true
  | cons t us =>
    have hne : (t.kind == .eof) = false := by simpa using hv.kind_ne h
    simp only [here_cons, hne]
    exact reads_pure false

variable {kind : TokenKind} {wanted : Expectation} {inBlock : Bool}

theorem reads_sees (kind : TokenKind) :
    Reads s (sees v kind) d ts (.ok (startsWith kind ts)) d ts := by
  rw [sees]
  refine Reads.bind ((reads_peek hv).bind (reads_pure _)) ((reads_atEnd hv).bind ?_)
  cases ts with
  | nil => simpa using reads_pure false
  | cons t us => simpa using reads_pure (t.kind == kind)

theorem reads_matchToken (ht : t.kind = kind) :
    Reads s (matchToken v kind) d (t :: us) (.ok true) d us := by
  refine (reads_sees hv kind).bind ?_
  rw [startsWith_cons, ht, beq_self_eq_true]
  exact (reads_advance hv).bind (reads_pure true)

theorem reads_matchToken_false (h : startsWith kind ts = false) :
    Reads s (matchToken v kind) d ts (.ok false) d ts := by
  refine (reads_sees hv kind).bind ?_
  rw [h]
  exact reads_pure false

theorem reads_consume (ht : t.kind = kind) :
    Reads s (consume v kind wanted inBlock) d (t :: us) (.ok t) d us := by
  refine (reads_sees hv kind).bind ?_
  rw [startsWith_cons, ht, beq_self_eq_true]
  exact reads_advance hv

theorem reads_consume_error (h : startsWith kind ts = false) :
    Reads s (consume v kind wanted inBlock) d ts (.error (.parse wanted (here s.eof ts) inBlock))
      d ts := by
  refine (reads_sees hv kind).bind ?_
  rw [h]
  exact (reads_peek hv).bind (reads_throw _)

theorem reads_comments (found : List String) :
    Reads s (comments v found) d ts (.ok (found ++ leadingComments ts)) d (afterComments ts) := by
  induction ts generalizing found with
  | nil =>
    rw [comments]
    refine (reads_check hv (by simp)).bind ?_
    simp only [startsWith_nil, Bool.false_eq_true, ↓reduceIte, leadingComments, List.takeWhile_nil,
      List.map_nil, List.append_nil]
    exact reads_pure found
  | cons t us ih =>
    rw [comments]
    refine (reads_check hv (by simp)).bind ?_
    cases hc : t.isComment with
    | true =>
      have hk : (t.kind == .comment) = true := hc
      simp only [startsWith_cons, hk, ↓reduceIte]
      refine (reads_advance hv).bind ?_
      simpa [leadingComments, afterComments, hc] using ih (found ++ [t.lexeme])
    | false =>
      have hk : (t.kind == .comment) = false := hc
      simp only [startsWith_cons, hk, Bool.false_eq_true, ↓reduceIte]
      simpa [leadingComments, afterComments, hc] using reads_pure found

theorem reads_pastComments (h : us <:+ s.tokens) :
    Reads s (pastComments v (index s us)) d ts (.ok (index s (afterComments us))) d ts := by
  induction us with
  | nil =>
    rw [pastComments]
    refine (reads_look hv h).bind ?_
    simp only [here_nil, hv.kind_eof, reduceCtorEq, ↓reduceIte]
    exact reads_pure _
  | cons t us ih =>
    rw [pastComments]
    refine (reads_look hv h).bind ?_
    rw [here_cons]
    split
    · next hc =>
      rw [← index_cons h]
      simpa [afterComments, isComment, hc] using ih ((List.suffix_cons t us).trans h)
    · next hc =>
      simpa [afterComments, isComment, hc] using reads_pure (index s (t :: us))

theorem reads_peekPastComments :
    Reads s (peekPastComments v) d ts (.ok (here s.eof (afterComments ts))) d ts := by
  refine .of_suffix fun h => reads_place.bind ((reads_pastComments hv h).bind ?_)
  exact reads_look hv ((afterComments_suffix ts).trans h)

/-- Comments before a closing brace or the end of the file are left behind. -/
theorem reads_skipDangling_moves (h : (here s.eof (afterComments ts)).kind = .closeCurly ∨
    (here s.eof (afterComments ts)).kind = .eof) :
    Reads s (skipDangling v) d ts (.ok ()) d (afterComments ts) := by
  refine .of_suffix fun hts => reads_place.bind ((reads_pastComments hv hts).bind
    ((reads_look hv ((afterComments_suffix ts).trans hts)).bind ?_))
  split
  · exact reads_moveTo (afterComments_suffix ts)
  · next hstays =>
    have hindex : index s (afterComments ts) = index s ts :=
      Classical.byContradiction fun hne => hstays ⟨hne, h⟩
    rw [(afterComments_suffix ts).eq_of_length
      (length_eq_of_index hts (afterComments_suffix ts) hindex)]
    exact reads_pure ()

/-- Comments before anything else stay. -/
theorem reads_skipDangling_stays (hc : (here s.eof (afterComments ts)).kind ≠ .closeCurly)
    (he : (here s.eof (afterComments ts)).kind ≠ .eof) :
    Reads s (skipDangling v) d ts (.ok ()) d ts := by
  refine .of_suffix fun hts => reads_place.bind ((reads_pastComments hv hts).bind
    ((reads_look hv ((afterComments_suffix ts).trans hts)).bind ?_))
  rw [if_neg (by simp [hc, he])]
  exact reads_pure ()

end Tokens

section Recovery
open Recovery

variable {s : TokenStream} {v : List Token} (hv : Starts s v) {d : Draft} {ts : List Token}
include hv

theorem reads_leaveBlocks (depth : Nat) :
    Reads s (leaveBlocks v (depth + 1)) d ts (.ok ()) d (skipBody depth ts) := by
  induction ts generalizing depth with
  | nil =>
    rw [leaveBlocks]
    refine (reads_peek hv).bind ?_
    simp only [here_nil, hv.kind_eof, ↓reduceIte, skipBody]
    exact reads_pure ()
  | cons t us ih =>
    refine .of_suffix fun h => ?_
    rw [leaveBlocks]
    refine (reads_peek hv).bind ?_
    simp only [here_cons, hv.kind_ne h, ↓reduceIte]
    refine (reads_advance hv).bind ?_
    simp only [skipBody]
    cases t.kind with
    | openCurly => exact ih (depth + 1)
    | closeCurly =>
      cases depth with
      | zero => exact reads_pure ()
      | succ depth => exact ih depth
    | _ => exact ih depth

/-- The tokens from the brace that opens a block, or from where `findBlock` gives it up. -/
def blockStart (s : TokenStream) (start : Nat) : List Token → List Token
  | [] => []
  | t :: us =>
    if t.kind = .openCurly then t :: us
    else if t.kind.startsDeclaration ∧ start < index s (t :: us) then t :: us
    else blockStart s start us

theorem reads_findBlock (start : Nat) :
    Reads s (findBlock v start) d ts (.ok (startsWith .openCurly (blockStart s start ts))) d
      (blockStart s start ts) := by
  induction ts with
  | nil =>
    rw [findBlock]
    refine (reads_peek hv).bind ?_
    simp only [here_nil, hv.kind_eof, ↓reduceIte, blockStart]
    exact reads_pure false
  | cons t us ih =>
    refine .of_suffix fun h => ?_
    rw [findBlock]
    refine (reads_peek hv).bind ?_
    rw [here_cons, if_neg (hv.kind_ne h), blockStart]
    by_cases ho : t.kind = .openCurly
    · simp only [ho, ↓reduceIte, startsWith_cons, beq_self_eq_true]
      exact reads_pure true
    · rw [if_neg ho, if_neg ho]
      refine reads_place.bind ?_
      by_cases hs : t.kind.startsDeclaration = true ∧ start < index s (t :: us)
      · have hk : (t.kind == .openCurly) = false := by simpa using ho
        rw [if_pos hs, if_pos hs, startsWith_cons, hk]
        exact reads_pure false
      · rw [if_neg hs, if_neg hs]
        exact (reads_advance hv).bind ih

/-- The tokens behind a block that is skipped: from inside it, or from before it. -/
def blockEnd (s : TokenStream) (inBlock : Bool) (start : Nat) (ts : List Token) : List Token :=
  if inBlock then skipBody 0 ts
  else if startsWith .openCurly (blockStart s start ts) then skipBody 0 (blockStart s start ts).tail
  else blockStart s start ts

theorem reads_skipBlock (inBlock : Bool) (start : Nat) :
    Reads s (skipBlock v inBlock start) d ts (.ok ()) d (blockEnd s inBlock start ts) := by
  rw [skipBlock, blockEnd]
  cases inBlock with
  | true => exact reads_leaveBlocks hv 0
  | false =>
    refine (reads_findBlock hv start).bind ?_
    cases ho : startsWith .openCurly (blockStart s start ts) with
    | false => exact reads_pure ()
    | true =>
      obtain ⟨t, us, hus, hk⟩ := startsWith_iff.1 ho
      refine .of_suffix fun h => ?_
      simp only [↓reduceIte, hus, List.tail_cons] at h ⊢
      rw [leaveBlocks]
      refine (reads_peek hv).bind ?_
      simp only [here_cons, hv.kind_ne h, ↓reduceIte]
      refine (reads_advance hv).bind ?_
      simp only [hk]
      exact reads_leaveBlocks hv 0

omit hv in
/-- A block is looked for as the rules on the tokens left do it when the cursor is behind the start,
or before a token that opens no declaration. -/
theorem blockEnd_eq_skipDeclaration {start : Nat} (hts : ts <:+ s.tokens)
    (hstart : start ≤ index s ts)
    (hkey : ∀ t us, ts = t :: us → t.kind.startsDeclaration = true → start < index s ts) :
    blockEnd s false start ts = skipDeclaration ts := by
  induction ts with
  | nil => simp [blockEnd, blockStart, skipDeclaration]
  | cons t us ih =>
    have hus := (List.suffix_cons t us).trans hts
    have hindex := index_cons hts
    have ih := ih hus (by omega) (fun _ _ _ _ => by omega)
    simp only [blockEnd, Bool.false_eq_true, ↓reduceIte] at ih ⊢
    cases hk : t.kind with
    | openCurly => simp [blockStart, skipDeclaration, hk]
    | declaration k =>
      have hlt := hkey t us rfl (by rw [hk]; rfl)
      simp [blockStart, skipDeclaration, hk, hlt, TokenKind.startsDeclaration,
        TokenKind.declaration?]
    | _ =>
      simpa [blockStart, skipDeclaration, hk, TokenKind.startsDeclaration,
        TokenKind.declaration?] using ih

theorem reads_skipItem (depth : Nat) :
    Reads s (Cursor.skipItem v depth) d ts (.ok ()) d (Recovery.skipItem depth ts) := by
  induction ts generalizing depth with
  | nil =>
    rw [Cursor.skipItem]
    refine (reads_peek hv).bind ?_
    simp only [here_nil, hv.kind_eof]
    cases depth <;> exact reads_pure ()
  | cons t us ih =>
    refine .of_suffix fun h => ?_
    have hne := hv.kind_ne h
    rw [Cursor.skipItem]
    refine (reads_peek hv).bind ?_
    rw [here_cons]
    have goOn (n : Nat) : Reads s (advance v >>= fun _ => Cursor.skipItem v n) d (t :: us) (.ok ())
        d (Recovery.skipItem n us) := (reads_advance hv).bind (ih n)
    have stop : Reads s (advance v >>= fun _ => pure ()) d (t :: us) (.ok ()) d us :=
      (reads_advance hv).bind (reads_pure ())
    cases hk : t.kind with
    | eof => exact absurd hk hne
    | declaration k =>
      cases depth with
      | zero =>
        cases hi : k.isType <;> simp only [Recovery.skipItem, hk, hi]
        · exact reads_pure ()
        · exact goOn 0
      | succ depth =>
        simp only [Recovery.skipItem, hk]
        exact goOn (depth + 1)
    | comma =>
      cases depth with
      | zero =>
        simp only [Recovery.skipItem, hk]
        exact stop
      | succ depth =>
        simp only [Recovery.skipItem, hk]
        exact goOn (depth + 1)
    | closeCurly =>
      cases depth with
      | zero =>
        simp only [Recovery.skipItem, hk]
        exact reads_pure ()
      | succ depth =>
        simp only [Recovery.skipItem, hk]
        exact goOn depth
    | _ =>
      cases depth <;> simp only [Recovery.skipItem, hk] <;> exact goOn _

end Recovery

end GameSchema.Cursor
