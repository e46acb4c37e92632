import GameSchema.Proofs.Grammar.Progress

/-!
# Where skipping stops

Comments are passed over only together with the token that they stand in front of, with one
exception: when a mistake is skipped up to the keyword of a declaration, the comments in front of
that keyword are skipped as well. So wherever reading has come to, either no comment has been passed
directly in front of the tokens that are left, or these start with a token that has lost its
comments in this way.
-/

namespace GameSchema

/-- Whether something that the grammar wants and does not find makes it skip an item or a
declaration. What is missing in the header, between two items or at the end of a block does not. -/
def Expectation.skips : Expectation → Bool
  | nameKeyword | gameName | versionKeyword | languageVersion | blockEnd | commaBetween
  | commaOrEnd => false
  | _ => true

namespace Grammar
open Token Recovery

/-- The tokens behind a mistake: behind its item when a block is open there, and otherwise behind
its declaration. -/
def skipMistake (inBlock : Bool) (ts : List Token) : List Token :=
  if inBlock then skipItem 0 ts else skipDeclaration ts

/-- Tokens that start with the one at which a mistake is reported are skipped up to `rest`. -/
inductive SkippedTo (rest : List Token) : Diagnostic → List Token → Prop
  | wanted {e t b ts} (he : e.skips = true) (h : skipMistake b (t :: ts) = rest) :
      SkippedTo rest (.parse e t b) (t :: ts)
  | duplicate {t b ts} (h : skipMistake b ts = rest) :
      SkippedTo rest (.semantic .duplicateIdentifier t) (t :: ts)
  | secondConfig {t ts} (h : skipDeclaration ts = rest) :
      SkippedTo rest (.semantic .multipleConfig t) (t :: ts)

/-- One of the mistakes stands in the tokens that have been passed, and it is skipped up to those
that are left. -/
def Overrun (xs : List Diagnostic) (passed rest : List Token) : Prop :=
  ∃ x ∈ xs, ∃ a b, passed = a ++ b ∧ b ≠ [] ∧ SkippedTo rest x (b ++ rest)

/-- Some tokens stand directly behind one that is no comment. -/
def Behind (source ts : List Token) : Prop := ∃ t, t :: ts <:+ source ∧ t.isComment = false

/-- Where reading has come to when `ts` are left: no comment has been passed directly in front of
them, or they start with a token that has lost its comments. -/
inductive Stands (source : List Token) (xs : List Diagnostic) : List Token → Prop
  | finished : Stands source xs []
  | behind {ts} (h : Behind source ts) : Stands source xs ts
  | lost {pre t ts} (h : source = pre ++ t :: ts) (ht : t.isComment = false)
      (hk : ∀ k, t.kind = .declaration k → k.isType = false →
        AllComments pre ∨ Overrun xs pre (t :: ts)) : Stands source xs (t :: ts)

/-- A mistake that has been found when `ts` are left: at the first of them or at the token in front
of them. -/
inductive Found (source : List Token) (inBlock : Bool) : Diagnostic → List Token → Prop
  | finished {x} : Found source inBlock x []
  | wanted {e t ts} (he : e.skips = true) : Found source inBlock (.parse e t inBlock) (t :: ts)
  | duplicate {t ts} (h : t :: ts <:+ source) :
      Found source inBlock (.semantic .duplicateIdentifier t) ts
  | secondConfig {t ts} (h : t :: ts <:+ source) (hb : inBlock = false) :
      Found source inBlock (.semantic .multipleConfig t) ts

/-- What can be left of some tokens when a mistake has been skipped: nothing, what is behind a token
that is no comment, or what starts with one. -/
inductive Left (ts : List Token) : List Token → Prop
  | finished : Left ts []
  | behind {rest} (h : Behind ts rest) : Left ts rest
  | before {t rest} (ht : t.isComment = false) : Left ts (t :: rest)

section Skipping

variable {t : Token} {k : TokenKind} {ts rest : List Token}

theorem isComment_eq_false (h : t.kind = k) (hk : k ≠ .comment) : t.isComment = false := by
  simp [isComment, h, hk]

theorem Behind.of_suffix {source : List Token} (h : Behind ts rest) (hts : ts <:+ source) :
    Behind source rest := by
  obtain ⟨t, hrest, ht⟩ := h
  exact ⟨t, hrest.trans hts, ht⟩

theorem Behind.cons (h : Behind ts rest) (t : Token) : Behind (t :: ts) rest :=
  h.of_suffix (List.suffix_cons t ts)

theorem behind_first (ht : t.isComment = false) : Behind (t :: ts) ts :=
  ⟨t, List.suffix_refl _, ht⟩

theorem Left.cons (h : Left ts rest) (t : Token) : Left (t :: ts) rest := by
  cases h with
  | finished => exact .finished
  | behind h => exact .behind (h.cons t)
  | before hu => exact .before hu

theorem skipBody_behind (depth : Nat) (ts : List Token) :
    skipBody depth ts = [] ∨ Behind ts (skipBody depth ts) := by
  induction ts generalizing depth with
  | nil => exact .inl rfl
  | cons t ts ih =>
    have step (n : Nat) : skipBody n ts = [] ∨ Behind (t :: ts) (skipBody n ts) :=
      (ih n).imp_right (·.cons t)
    simp only [skipBody]
    split
    · exact step _
    · next hclose =>
      cases depth with
      | zero => exact .inr (behind_first (isComment_eq_false hclose (by simp)))
      | succ depth => exact step depth
    · exact step depth

theorem left_skipBody (depth : Nat) (ts : List Token) : Left ts (skipBody depth ts) := by
  rcases skipBody_behind depth ts with hnil | hbehind
  · rw [hnil]
    exact .finished
  · exact .behind hbehind

theorem left_skipDeclaration (ts : List Token) : Left ts (skipDeclaration ts) := by
  induction ts with
  | nil => exact .finished
  | cons t ts ih =>
    simp only [skipDeclaration]
    split
    · exact (left_skipBody 0 ts).cons t
    · next hkeyword => exact .before (isComment_eq_false hkeyword (by simp))
    · exact ih.cons t

theorem left_skipItem (depth : Nat) (ts : List Token) : Left ts (skipItem depth ts) := by
  induction ts generalizing depth with
  | nil => cases depth <;> exact .finished
  | cons t ts ih =>
    cases depth with
    | zero =>
      simp only [skipItem]
      split
      · next hcomma => exact .behind (behind_first (isComment_eq_false hcomma (by simp)))
      · next hclose => exact .before (isComment_eq_false hclose (by simp))
      · next hkeyword =>
        split
        · exact (ih 0).cons t
        · exact .before (isComment_eq_false hkeyword (by simp))
      · exact (ih 1).cons t
      · exact (ih 0).cons t
    | succ depth =>
      simp only [skipItem]
      split <;> exact (ih _).cons t

theorem left_skipMistake (inBlock : Bool) (ts : List Token) :
    Left ts (skipMistake inBlock ts) := by
  cases inBlock with
  | true => exact left_skipItem 0 ts
  | false => exact left_skipDeclaration ts

theorem skipMistake_suffix (inBlock : Bool) (ts : List Token) : skipMistake inBlock ts <:+ ts := by
  cases inBlock with
  | true => exact skipItem_suffix 0 ts
  | false => exact skipDeclaration_suffix ts

end Skipping

section Places

variable {source ts us : List Token} {xs ys : List Diagnostic} {x : Diagnostic} {t : Token}
  {inBlock : Bool}

theorem Overrun.mono {passed rest : List Token} (h : Overrun xs passed rest) (hxs : xs ⊆ ys) :
    Overrun ys passed rest := by
  obtain ⟨x, hx, hskip⟩ := h
  exact ⟨x, hxs hx, hskip⟩

theorem Behind.suffix (h : Behind source ts) : ts <:+ source := by
  obtain ⟨t, hts, -⟩ := h
  exact (List.suffix_cons t ts).trans hts

theorem Behind.tail {k : TokenKind} (h : Behind source (t :: ts)) (ht : t.kind = k)
    (hk : k ≠ .comment) : Behind source ts :=
  (behind_first (isComment_eq_false ht hk)).of_suffix h.suffix

/-- The mistake that has been found stands in front of the tokens at which skipping stops. -/
theorem Found.overrun {pre b rest : List Token} (h : Found source inBlock x ts)
    (hx : x ∈ xs) (hpre : pre ++ ts = source) (hb : b ++ rest = ts) (hnil : b ≠ [])
    (hrest : skipMistake inBlock ts = rest) : Overrun xs (pre ++ b) rest := by
  -- A mistake at the token in front of `ts` has that token passed with it.
  have hpassed {u : Token} (hu : u :: ts <:+ source) : ∃ pre', pre = pre' ++ [u] := by
    obtain ⟨pre', hpre'⟩ := hu
    exact ⟨pre', List.append_cancel_right (by rw [hpre, ← hpre']; simp)⟩
  refine ⟨x, hx, ?_⟩
  cases h with
  | finished => exact absurd (List.append_eq_nil_iff.1 hb).1 hnil
  | wanted he => exact ⟨pre, b, rfl, hnil, by rw [hb]; exact .wanted he hrest⟩
  | @duplicate u _ hu =>
    obtain ⟨pre', rfl⟩ := hpassed hu
    refine ⟨pre', u :: b, by simp, by simp, ?_⟩
    rw [List.cons_append, hb]
    exact .duplicate hrest
  | @secondConfig u _ hu hfalse =>
    obtain ⟨pre', rfl⟩ := hpassed hu
    refine ⟨pre', u :: b, by simp, by simp, ?_⟩
    rw [List.cons_append, hb]
    rw [hfalse] at hrest
    exact .secondConfig hrest

namespace Stands

theorem mono (h : Stands source xs ts) (hxs : xs ⊆ ys) : Stands source ys ts := by
  cases h with
  | finished => exact .finished
  | behind h => exact .behind h
  | lost h ht hk => exact .lost h ht fun k hkind htype => (hk k hkind htype).imp_right (·.mono hxs)

theorem report (h : Stands source xs ts) (x : Diagnostic) : Stands source (xs ++ [x]) ts :=
  h.mono (List.subset_append_left _ _)

theorem suffix (h : Stands source xs ts) : ts <:+ source := by
  cases h with
  | finished => exact List.nil_suffix
  | behind h => exact h.suffix
  | lost h ht hk => exact ⟨_, h.symm⟩

theorem tail {k : TokenKind} (h : Stands source xs (t :: ts)) (ht : t.kind = k)
    (hk : k ≠ .comment) : Behind source ts :=
  (behind_first (isComment_eq_false ht hk)).of_suffix h.suffix

theorem first_suffix (h : Stands source xs ts) (hts : afterComments ts = t :: us) :
    t :: us <:+ source := by
  have hafter := afterComments_suffix ts
  rw [hts] at hafter
  exact hafter.trans h.suffix

theorem after_first (h : Stands source xs ts) (hts : afterComments ts = t :: us) :
    Behind source us :=
  ⟨t, h.first_suffix hts, isComment_eq_false rfl (kind_ne_comment_of_after hts)⟩

/-- A token that opens no declaration has no comments to lose. -/
theorem at_first (h : Stands source xs ts) (hts : afterComments ts = t :: us)
    (hd : t.kind.startsDeclaration = false) : Stands source xs (t :: us) := by
  obtain ⟨pre, hpre⟩ := h.first_suffix hts
  refine .lost hpre.symm (isComment_eq_false rfl (kind_ne_comment_of_after hts)) ?_
  intro k hk
  rw [hk] at hd
  cases hd

theorem skipBody (h : Stands source xs ts) (depth : Nat) :
    Stands source xs (Recovery.skipBody depth ts) := by
  rcases skipBody_behind depth ts with hnil | hbehind
  · rw [hnil]
    exact .finished
  · exact .behind (hbehind.of_suffix h.suffix)

/-- Skipping a mistake takes no comments from what is left but from the keyword at which it
stops. -/
theorem skip (h : Stands source xs ts) (hx : Found source inBlock x ts) :
    Stands source (xs ++ [x]) (skipMistake inBlock ts) := by
  obtain ⟨b, hb⟩ := skipMistake_suffix inBlock ts
  have hleft := left_skipMistake inBlock ts
  generalize hrest : skipMistake inBlock ts = rest at hb hleft ⊢
  by_cases hnil : b = []
  · obtain rfl : rest = ts := by rw [← hb, hnil, List.nil_append]
    exact h.report x
  cases hleft with
  | finished => exact .finished
  | behind hbehind => exact .behind (hbehind.of_suffix h.suffix)
  | @before t rest ht =>
    obtain ⟨pre, hpre⟩ := h.suffix
    have hsource : source = (pre ++ b) ++ t :: rest := by rw [← hpre, ← hb, List.append_assoc]
    have hmem : x ∈ xs ++ [x] := List.mem_append_right _ List.mem_cons_self
    exact .lost hsource ht fun k hk htype => .inr (hx.overrun hmem hpre hb hnil hrest)

theorem skip_wanted (h : Stands source xs (t :: ts)) {e : Expectation} (he : e.skips = true)
    (inBlock : Bool) :
    Stands source (xs ++ [.parse e t inBlock]) (skipMistake inBlock (t :: ts)) :=
  h.skip (.wanted he)

end Stands

end Places

section Runs

variable {source : List Token} {eof : Token}

theorem found_here {e : Expectation} (he : e.skips = true) (inBlock : Bool) (ts : List Token) :
    Found source inBlock (.parse e (here eof ts) inBlock) ts := by
  cases ts with
  | nil => exact .finished
  | cons t ts => exact .wanted he

theorem found_of_ok {α : Type} {inBlock : Bool} {ts : List Token} (a : α) :
    ∀ x, (Except.ok a : Except Diagnostic α) = .error x → Found source inBlock x ts := by
  rintro x ⟨⟩

theorem HeadingRun.stands {kind : DeclarationKind} {keyword : Token} {inBlock : Bool} {d d' : Draft}
    {ts us : List Token} {v : Except Diagnostic Token}
    (h : HeadingRun eof kind keyword inBlock d ts v d' us) (hts : keyword :: ts <:+ source)
    (hkeyword : keyword.kind = .declaration kind) (hconfig : kind = .config → inBlock = false) :
    Behind source us ∧ ∀ x, v = .error x → Found source inBlock x us := by
  have hbehind : Behind source ts := ⟨keyword, hts, isComment_eq_false hkeyword (by simp)⟩
  cases h with
  | config hk hs => exact ⟨hbehind, found_of_ok _⟩
  | secondConfig hk hs =>
    refine ⟨hbehind, ?_⟩
    rintro x ⟨⟩
    exact .secondConfig hts (hconfig hk)
  | unnamed hk hn =>
    refine ⟨hbehind, ?_⟩
    rintro x ⟨⟩
    exact found_here rfl inBlock ts
  | duplicate hk hn hd =>
    refine ⟨hbehind.tail hn (by simp), ?_⟩
    rintro x ⟨⟩
    exact .duplicate hbehind.suffix
  | named hk hn hd => exact ⟨hbehind.tail hn (by simp), found_of_ok _⟩

theorem OpeningRun.stands {kind : DeclarationKind} {keyword : Token} {inBlock : Bool} {d d' : Draft}
    {ts us : List Token} {v : Except Diagnostic Token}
    (h : OpeningRun eof kind keyword inBlock d ts v d' us) (hts : keyword :: ts <:+ source)
    (hkeyword : keyword.kind = .declaration kind) (hconfig : kind = .config → inBlock = false) :
    Behind source us ∧ ∀ x, v = .error x → Found source inBlock x us := by
  cases h with
  | badHeading hh => exact hh.stands hts hkeyword hconfig
  | noBlock hh ho =>
    refine ⟨(hh.stands hts hkeyword hconfig).1, ?_⟩
    rintro x ⟨⟩
    exact found_here rfl inBlock us
  | opened hh ho =>
    have hopen := (hh.stands hts hkeyword hconfig).1
    exact ⟨hopen.tail ho (by simp), found_of_ok _⟩

theorem Separation.stands {d d' : Draft} {ts us : List Token} (h : Separation eof d ts d' us)
    (hts : Stands source d.diagnostics ts) : Stands source d'.diagnostics us := by
  cases h with
  | comma hc => exact .behind (hts.tail hc (by simp))
  | missing hc hn => exact hts.report _
  | last hc hv => exact hts

theorem ne_config_of_isType {k : DeclarationKind} (hk : k.isType = true) : k ≠ .config := by
  rintro rfl
  cases hk

theorem skips_itemExpectation (kind : DeclarationKind) : (itemExpectation kind).skips = true := by
  cases kind <;> rfl

mutual

theorem TypeRun.stands {mark : Char} {cs : List String} {d d' : Draft} {ts us : List Token}
    {v : Except Diagnostic PropertyType} (h : TypeRun eof mark cs d ts v d' us)
    (hts : Behind source ts) :
    Stands source d'.diagnostics us ∧ ∀ x, v = .error x → Found source true x us := by
  match h with
  | .missing h =>
    refine ⟨.behind hts, ?_⟩
    rintro x ⟨⟩
    exact found_here rfl true ts
  | .scalar h | .reference h =>
    exact ⟨.behind (hts.tail h (by simp)), found_of_ok _⟩
  | .noLess h hl =>
    refine ⟨.behind (hts.tail h (by simp)), ?_⟩
    rintro x ⟨⟩
    exact found_here rfl true us
  | .badElement h hl he =>
    have hus := (hts.tail h (by simp)).tail hl (by simp)
    refine ⟨(he.stands hus).1, ?_⟩
    rintro x ⟨⟩
    exact (he.stands hus).2 _ rfl
  | .noGreater h hl he hg =>
    have hus := (hts.tail h (by simp)).tail hl (by simp)
    refine ⟨(he.stands hus).1, ?_⟩
    rintro x ⟨⟩
    exact found_here rfl true us
  | .generic h hl he hg =>
    have hus := (hts.tail h (by simp)).tail hl (by simp)
    exact ⟨.behind ((he.stands hus).1.tail hg (by simp)), found_of_ok _⟩
  | .badInline h hk ho =>
    obtain ⟨hbehind, hfound⟩ := ho.stands hts.suffix h (absurd · (ne_config_of_isType hk))
    refine ⟨.behind hbehind, ?_⟩
    rintro x ⟨⟩
    exact hfound _ rfl
  | .inline h hk ho hb =>
    obtain ⟨hbehind, -⟩ := ho.stands hts.suffix h (absurd · (ne_config_of_isType hk))
    exact ⟨hb.stands (.behind hbehind), found_of_ok _⟩
  | .brokenInline h hk ho hb =>
    obtain ⟨hbehind, -⟩ := ho.stands hts.suffix h (absurd · (ne_config_of_isType hk))
    exact ⟨((hb.stands (.behind hbehind)).report _).skipBody 0, found_of_ok _⟩

theorem ItemRun.stands {kind : DeclarationKind} {cs : List String} {name : Token} {d d' : Draft}
    {ts us : List Token} {v : Except Diagnostic Property}
    (h : ItemRun eof kind cs name d ts v d' us) (hts : Behind source ts) :
    Stands source d'.diagnostics us ∧ ∀ x, v = .error x → Found source true x us := by
  match h with
  | .value hk => exact ⟨.behind hts, found_of_ok _⟩
  | .noColon hk hc =>
    refine ⟨.behind hts, ?_⟩
    rintro x ⟨⟩
    exact found_here rfl true ts
  | .badField hk hc ht =>
    obtain ⟨hstands, hfound⟩ := ht.stands (hts.tail hc (by simp))
    refine ⟨hstands, ?_⟩
    rintro x ⟨⟩
    exact hfound _ rfl
  | .field hk hc ht =>
    exact ⟨(ht.stands (hts.tail hc (by simp))).1, found_of_ok _⟩

theorem ItemsRun.stands {kind : DeclarationKind} {d d' : Draft} {ts us : List Token} {b : Block}
    (h : ItemsRun eof kind d ts b d' us) (hts : Stands source d.diagnostics ts) :
    Stands source d'.diagnostics us := by
  match h with
  | .unterminated h => exact .finished
  | .close h ht => exact .behind (hts.after_first h)
  | .keyword h ht => exact hts.report _
  | .stray h hc hd hi hr =>
    have hskip := (hts.at_first h hd).skip_wanted (skips_itemExpectation kind) true
    rw [skipMistake, if_pos rfl, skipItem_eq_skipStray hc hd] at hskip
    exact hr.stands hskip
  | .badItem h ht hi hr =>
    obtain ⟨hstands, hfound⟩ := hi.stands (hts.after_first h)
    exact hr.stands (hstands.skip (hfound _ rfl))
  | .more h ht hi hs hr => exact hr.stands (hs.stands (hi.stands (hts.after_first h)).1)
  | .fault h ht hi hc hv hn => exact (hi.stands (hts.after_first h)).1

end

/-- At the top level a mistake is skipped with its declaration. -/
theorem recover_of_found {x : Diagnostic} {ts : List Token} (h : Found source false x ts) :
    recover x ts = skipMistake false ts := by
  cases h with
  | finished => simp [recover, skipMistake, Recovery.skipBody, skipDeclaration]
  | wanted he => rfl
  | duplicate h => rfl
  | secondConfig h hb => rfl

theorem RoundRun.stands {d d' : Draft} {ts us : List Token} (h : RoundRun eof d ts d' us)
    (hts : Stands source d.diagnostics ts) : Stands source d'.diagnostics us := by
  cases h with
  | foreign h ht =>
    have hskip := (hts.at_first h ht).skip_wanted (e := .declaration) rfl false
    rw [skipMistake, if_neg Bool.false_ne_true, skipDeclaration_eq_skipForeign ht] at hskip
    exact hskip
  | badOpening h ht ho =>
    obtain ⟨hbehind, hfound⟩ := ho.stands (hts.first_suffix h) ht fun _ => rfl
    rw [recover_of_found (hfound _ rfl)]
    exact Stands.skip (.behind hbehind) (hfound _ rfl)
  | declared h ht ho hb =>
    obtain ⟨hbehind, -⟩ := ho.stands (hts.first_suffix h) ht fun _ => rfl
    exact hb.stands (.behind hbehind)
  | broken h ht ho hb =>
    obtain ⟨hbehind, -⟩ := ho.stands (hts.first_suffix h) ht fun _ => rfl
    rw [recover, if_pos (Cursor.inBlock_of_fault hb rfl)]
    exact ((hb.stands (.behind hbehind)).report _).skipBody 0

theorem EntryRun.stands {keyword value : TokenKind} {keywordWanted valueWanted : Expectation}
    {v : Except Diagnostic Token} {ts us : List Token} {xs : List Diagnostic}
    (h : EntryRun eof keyword value keywordWanted valueWanted ts v us)
    (hkeyword : keyword ≠ .comment) (hvalue : value ≠ .comment) (hts : Stands source xs ts) :
    Stands source xs us := by
  cases h with
  | noKeyword hk => exact hts
  | noValue hk hv => exact .behind (hts.tail hk hkeyword)
  | found hk hv =>
    have hbehind := hts.tail hk hkeyword
    exact .behind (hbehind.tail hv hvalue)

/-- The header takes the comments at the front of the source. -/
theorem HeaderRun.stands {compiler : String} {m : Metadata} {d : Draft} {us : List Token}
    (h : HeaderRun eof compiler source m d us) : Stands source d.diagnostics us := by
  have hstart : Stands source d.diagnostics (afterComments source) := by
    cases hc : afterComments source with
    | nil => exact .finished
    | cons t ts =>
      obtain ⟨cs, hcs, hsource⟩ := exists_comments hc
      have ht := isComment_eq_false rfl (kind_ne_comment_of_after hc)
      exact .lost hsource ht fun _ _ _ => .inl hcs
  cases h with
  | mk hn hv =>
    exact hv.stands (by simp) (by simp) (hn.stands (by simp) (by simp) hstart)

end Runs

end Grammar

end GameSchema
