import GameSchema.Proofs.Grammar.Run

/-!
# Isolation of declarations

A declaration whose braces match ends at its own closing brace, however bad its name and its items
are. The rules for the inside of a block never read past the brace that closes the block, and every
way of skipping a mistake comes out at that brace or before it.
-/

namespace GameSchema.Grammar
open Token Recovery

/-- Tokens in which every brace is matched. -/
inductive Balanced : List Token → Prop
  | nil : Balanced []
  | token {t ts} (ho : t.kind ≠ .openCurly) (hc : t.kind ≠ .closeCurly) (h : Balanced ts) :
      Balanced (t :: ts)
  | block {o c bs ts} (ho : o.kind = .openCurly) (hc : c.kind = .closeCurly) (hb : Balanced bs)
      (h : Balanced ts) : Balanced (o :: (bs ++ c :: ts))

/-- Whether a type is expected right behind a token. -/
def isMark : TokenKind → Bool
  | .colon | .less => true
  | _ => false

/-- Every keyword opens a type and stands right behind a mark; `marked` tells whether the tokens
themselves stand behind one. -/
def Guarded : Bool → List Token → Prop
  | _, [] => True
  | marked, t :: ts =>
    (∀ k, t.kind = .declaration k → k.isType = true ∧ marked = true) ∧ Guarded (isMark t.kind) ts

theorem Guarded.weaken {marked : Bool} {ts : List Token} (h : Guarded marked ts) :
    Guarded true ts := by
  cases ts with
  | nil => trivial
  | cons t ts => exact ⟨fun k hk => ⟨(h.1 k hk).1, rfl⟩, h.2⟩

theorem Guarded.append_cons {marked : Bool} {bs ts : List Token} {c : Token}
    (h : Guarded marked (bs ++ c :: ts)) : Guarded marked bs ∧ Guarded (isMark c.kind) ts := by
  induction bs generalizing marked with
  | nil => exact ⟨trivial, h.2⟩
  | cons b bs ih =>
    obtain ⟨hb, hts⟩ := ih h.2
    exact ⟨⟨h.1, hb⟩, hts⟩

/-- The tokens left inside a block: the brace `close` ends the block and `rest` stands behind it. -/
def Inside (marked : Bool) (close : Token) (rest ts : List Token) : Prop :=
  ∃ bs, Balanced bs ∧ Guarded marked bs ∧ ts = bs ++ close :: rest

section Skipping

variable {t : Token} {bs : List Token}

theorem skipBody_token (ho : t.kind ≠ .openCurly) (hc : t.kind ≠ .closeCurly) (depth : Nat)
    (ts : List Token) : skipBody depth (t :: ts) = skipBody depth ts := by
  cases hk : t.kind <;> simp_all [skipBody]

theorem skipItem_token (ho : t.kind ≠ .openCurly) (hc : t.kind ≠ .closeCurly) (depth : Nat)
    (ts : List Token) : skipItem (depth + 1) (t :: ts) = skipItem (depth + 1) ts := by
  cases hk : t.kind <;> simp_all [skipItem]

theorem skipBody_balanced (h : Balanced bs) (depth : Nat) (ts : List Token) :
    skipBody depth (bs ++ ts) = skipBody depth ts := by
  induction h generalizing depth ts with
  | nil => rfl
  | token ho hc h ih => rw [List.cons_append, skipBody_token ho hc, ih]
  | @block o c bs us ho hc hb h ihb ih =>
    have hopen : skipBody depth (o :: (bs ++ c :: us) ++ ts) =
        skipBody (depth + 1) (bs ++ (c :: (us ++ ts))) := by simp [skipBody, ho]
    have hclose : skipBody (depth + 1) (c :: (us ++ ts)) = skipBody depth (us ++ ts) := by
      simp [skipBody, hc]
    rw [hopen, ihb, hclose, ih]

/-- Inside an open block, skipping an item passes over matched braces. -/
theorem skipItem_balanced (h : Balanced bs) (depth : Nat) (ts : List Token) :
    skipItem (depth + 1) (bs ++ ts) = skipItem (depth + 1) ts := by
  induction h generalizing depth ts with
  | nil => rfl
  | token ho hc h ih => rw [List.cons_append, skipItem_token ho hc, ih]
  | @block o c bs us ho hc hb h ihb ih =>
    have hopen : skipItem (depth + 1) (o :: (bs ++ c :: us) ++ ts) =
        skipItem (depth + 2) (bs ++ (c :: (us ++ ts))) := by simp [skipItem, ho]
    have hclose : skipItem (depth + 2) (c :: (us ++ ts)) = skipItem (depth + 1) (us ++ ts) := by
      simp [skipItem, hc]
    rw [hopen, ihb, hclose, ih]

/-- Skipping an item passes over the blocks in it. -/
theorem skipItem_block {o c : Token} (ho : o.kind = .openCurly) (hc : c.kind = .closeCurly)
    (hb : Balanced bs) (us ts : List Token) :
    skipItem 0 (o :: (bs ++ c :: us) ++ ts) = skipItem 0 (us ++ ts) := by
  rw [List.cons_append, List.append_assoc, List.cons_append]
  calc skipItem 0 (o :: (bs ++ c :: (us ++ ts)))
      = skipItem 1 (bs ++ c :: (us ++ ts)) := by simp [skipItem, ho]
    _ = skipItem 1 (c :: (us ++ ts)) := skipItem_balanced hb 0 _
    _ = skipItem 0 (us ++ ts) := by simp [skipItem, hc]

end Skipping

namespace Inside

variable {marked : Bool} {close : Token} {rest ts : List Token}

theorem weaken (h : Inside marked close rest ts) : Inside true close rest ts := by
  obtain ⟨bs, hb, hg, rfl⟩ := h
  exact ⟨bs, hb, hg.weaken, rfl⟩

/-- Past a token that is no brace. -/
theorem tail {t : Token} (h : Inside marked close rest (t :: ts))
    (hclose : close.kind = .closeCurly) (ho : t.kind ≠ .openCurly) (hc : t.kind ≠ .closeCurly) :
    Inside (isMark t.kind) close rest ts := by
  obtain ⟨bs, hb, hg, he⟩ := h
  cases hb with
  | nil => cases he; exact absurd hclose hc
  | token ho' hc' hb => cases he; exact ⟨_, hb, hg.2, rfl⟩
  | block ho' hc' hb hb' => cases he; exact absurd ho' ho

theorem past_name {t : Token} (h : Inside marked close rest (t :: ts))
    (hclose : close.kind = .closeCurly) (ht : t.kind = .identifier) :
    Inside false close rest ts := by
  have htail := h.tail hclose (by simp [ht]) (by simp [ht])
  rwa [ht] at htail

/-- Past the brace that opens a further block. -/
theorem enter {o : Token} (h : Inside marked close rest (o :: ts)) (ho : o.kind = .openCurly)
    (hclose : close.kind = .closeCurly) :
    ∃ c us, c.kind = .closeCurly ∧ Inside false c us ts ∧ Inside false close rest us := by
  obtain ⟨bs, hb, hg, he⟩ := h
  cases hb with
  | nil => cases he; rw [hclose] at ho; cases ho
  | token ho' hc' hb => cases he; exact absurd ho ho'
  | @block _ c bs us ho' hc' hb hb' =>
    cases he
    obtain ⟨hgb, hgu⟩ := hg.2.append_cons
    have hfalse : isMark o.kind = false := by rw [ho]; rfl
    have hfalse' : isMark c.kind = false := by rw [hc']; rfl
    rw [hfalse] at hgb
    rw [hfalse'] at hgu
    exact ⟨c, us ++ close :: rest, hc', ⟨bs, hb, hgb, by simp⟩, us, hb', hgu, rfl⟩

/-- At the brace that ends the block. -/
theorem eq_rest {t : Token} (h : Inside marked close rest (t :: ts)) (ht : t.kind = .closeCurly) :
    ts = rest := by
  obtain ⟨bs, hb, hg, he⟩ := h
  cases hb with
  | nil => cases he; rfl
  | token ho hc hb => cases he; exact absurd ht hc
  | block ho hc hb hb' => cases he; rw [ht] at ho; cases ho

/-- Only behind a mark can a keyword be next. -/
theorem not_keyword {t : Token} {k : DeclarationKind} (h : Inside false close rest (t :: ts))
    (hclose : close.kind = .closeCurly) : t.kind ≠ .declaration k := by
  intro ht
  obtain ⟨bs, hb, hg, he⟩ := h
  cases bs with
  | nil => cases he; rw [hclose] at ht; cases ht
  | cons b bs => cases he; exact absurd (hg.1 k ht).2 Bool.false_ne_true

theorem ne_nil (h : Inside marked close rest ts) : ts ≠ [] := by
  obtain ⟨bs, hb, hg, rfl⟩ := h
  simp

theorem afterComments (h : Inside false close rest ts) (hclose : close.kind = .closeCurly) :
    Inside false close rest (afterComments ts) := by
  induction ts with
  | nil => exact absurd rfl h.ne_nil
  | cons t ts ih =>
    by_cases ht : t.kind = .comment
    · have htail := h.tail hclose (by simp [ht]) (by simp [ht])
      rw [ht] at htail
      simpa [Token.afterComments, isComment, ht] using ih htail
    · simpa [Token.afterComments, isComment, ht] using h

theorem skipBody (h : Inside marked close rest ts) (hclose : close.kind = .closeCurly) :
    skipBody 0 ts = rest := by
  obtain ⟨bs, hb, hg, rfl⟩ := h
  rw [skipBody_balanced hb]
  simp [Recovery.skipBody, hclose]

theorem skipItem (h : Inside marked close rest ts) (hclose : close.kind = .closeCurly) :
    Inside false close rest (skipItem 0 ts) := by
  obtain ⟨bs, hb, hg, rfl⟩ := h
  induction hb generalizing marked with
  | nil =>
    have hstop : Recovery.skipItem 0 (close :: rest) = close :: rest := by
      simp [Recovery.skipItem, hclose]
    rw [List.nil_append, hstop]
    exact ⟨[], .nil, trivial, rfl⟩
  | @token t us ho hc hb ih =>
    cases ht : t.kind with
    | comma =>
      have hg' : Guarded false us := by simpa [ht, isMark] using hg.2
      simpa [Recovery.skipItem, ht] using ⟨us, hb, hg', rfl⟩
    | openCurly => exact absurd ht ho
    | closeCurly => exact absurd ht hc
    | declaration k => simpa [Recovery.skipItem, ht, (hg.1 k ht).1] using ih hg.2
    | _ => simpa [Recovery.skipItem, ht] using ih hg.2
  | @block o c bs us ho hc hb hb' ihb ih =>
    obtain ⟨-, hgu⟩ := hg.2.append_cons
    rw [skipItem_block ho hc hb]
    exact ih hgu

end Inside

variable {eof close : Token} {rest : List Token}

theorem HeadingRun.inside {kind : DeclarationKind} {keyword : Token} {inBlock : Bool}
    {d d' : Draft} {ts us : List Token} {v : Except Diagnostic Token}
    (h : HeadingRun eof kind keyword inBlock d ts v d' us) (hclose : close.kind = .closeCurly)
    (hi : Inside true close rest ts) : Inside true close rest us := by
  cases h with
  | duplicate hk hn hd => exact (hi.tail hclose (by simp [hn]) (by simp [hn])).weaken
  | named hk hn hd => exact (hi.tail hclose (by simp [hn]) (by simp [hn])).weaken
  | _ => exact hi

theorem OpeningRun.inside_of_error {kind : DeclarationKind} {keyword : Token} {inBlock : Bool}
    {d d' : Draft} {ts us : List Token} {x : Diagnostic}
    (h : OpeningRun eof kind keyword inBlock d ts (.error x) d' us)
    (hclose : close.kind = .closeCurly) (hi : Inside true close rest ts) :
    Inside true close rest us := by
  cases h with
  | badHeading hh => exact hh.inside hclose hi
  | noBlock hh ho => exact hh.inside hclose hi

theorem OpeningRun.inside_of_ok {kind : DeclarationKind} {keyword name : Token} {inBlock : Bool}
    {d d' : Draft} {ts us : List Token}
    (h : OpeningRun eof kind keyword inBlock d ts (.ok name) d' us)
    (hclose : close.kind = .closeCurly) (hi : Inside true close rest ts) :
    ∃ c vs, c.kind = .closeCurly ∧ Inside false c vs us ∧ Inside false close rest vs := by
  cases h with
  | opened hh ho => exact (hh.inside hclose hi).enter ho hclose

theorem Separation.inside {d d' : Draft} {vs us : List Token} (h : Separation eof d vs d' us)
    (hclose : close.kind = .closeCurly) (hi : Inside false close rest vs) :
    Inside false close rest us := by
  cases h with
  | comma hc => simpa [hc, isMark] using hi.tail hclose (by simp [hc]) (by simp [hc])
  | _ => exact hi

mutual

theorem TypeRun.inside {mark : Char} {cs : List String} {d d' : Draft} {ts us : List Token}
    {v : Except Diagnostic PropertyType} {close : Token} {rest : List Token}
    (h : TypeRun eof mark cs d ts v d' us)
    (hclose : close.kind = .closeCurly) (hi : Inside true close rest ts) :
    Inside v.isOk.not close rest us := by
  match h with
  | .missing h => exact hi
  | .scalar h =>
    have hus := hi.tail hclose (by simp [h]) (by simp [h])
    simpa [h, isMark, Except.isOk, Except.toBool] using hus
  | .reference h =>
    have hus := hi.tail hclose (by simp [h]) (by simp [h])
    simpa [h, isMark, Except.isOk, Except.toBool] using hus
  | .noLess h hl => exact (hi.tail hclose (by simp [h]) (by simp [h])).weaken
  | .badElement h hl he =>
    have hc := hi.tail hclose (by simp [h]) (by simp [h])
    exact he.inside hclose (hc.tail hclose (by simp [hl]) (by simp [hl])).weaken
  | .noGreater h hl he hg =>
    have hc := hi.tail hclose (by simp [h]) (by simp [h])
    exact (he.inside hclose (hc.tail hclose (by simp [hl]) (by simp [hl])).weaken).weaken
  | .generic h hl he hg =>
    have hc := hi.tail hclose (by simp [h]) (by simp [h])
    have hv := he.inside hclose (hc.tail hclose (by simp [hl]) (by simp [hl])).weaken
    have hus := hv.tail hclose (by simp [hg]) (by simp [hg])
    simpa [hg, isMark, Except.isOk, Except.toBool] using hus
  | .badInline h hk ho =>
    exact ho.inside_of_error hclose (hi.tail hclose (by simp [h]) (by simp [h])).weaken
  | .inline h hk ho hb =>
    obtain ⟨c, vs, hc, hin, hout⟩ :=
      ho.inside_of_ok hclose (hi.tail hclose (by simp [h]) (by simp [h])).weaken
    rw [(hb.inside hc hin).1 rfl]
    exact hout
  | .brokenInline h hk ho hb =>
    obtain ⟨c, vs, hc, hin, hout⟩ :=
      ho.inside_of_ok hclose (hi.tail hclose (by simp [h]) (by simp [h])).weaken
    rw [((hb.inside hc hin).2 _ rfl).1.skipBody hc]
    exact hout

theorem ItemRun.inside {kind : DeclarationKind} {cs : List String} {name : Token} {d d' : Draft}
    {ts us : List Token} {v : Except Diagnostic Property} {close : Token} {rest : List Token}
    (h : ItemRun eof kind cs name d ts v d' us)
    (hclose : close.kind = .closeCurly) (hi : Inside false close rest ts) :
    Inside v.isOk.not close rest us := by
  match h with
  | .value hk => exact hi
  | .noColon hk hc => exact hi.weaken
  | .badField hk hc ht =>
    exact ht.inside hclose (hi.tail hclose (by simp [hc]) (by simp [hc])).weaken
  | .field hk hc ht => exact ht.inside hclose (hi.tail hclose (by simp [hc]) (by simp [hc])).weaken

theorem ItemsRun.inside {kind : DeclarationKind} {d d' : Draft} {ts us : List Token} {b : Block}
    {close : Token} {rest : List Token}
    (h : ItemsRun eof kind d ts b d' us) (hclose : close.kind = .closeCurly)
    (hi : Inside false close rest ts) :
    (b.fault? = none → us = rest) ∧
      ∀ x, b.fault? = some x → Inside true close rest us ∧ x.inBlock = true := by
  have ha := hi.afterComments hclose
  match h with
  | .unterminated h => exact absurd h ha.ne_nil
  | .close h ht =>
    rw [h] at ha
    exact ⟨fun _ => ha.eq_rest ht, by simp⟩
  | .keyword h ht =>
    rw [h] at ha
    exact absurd ht (ha.not_keyword hclose)
  | .stray h hc hd hi hr =>
    rw [h] at ha
    have hs := ha.skipItem hclose
    rw [skipItem_eq_skipStray hc hd] at hs
    exact hr.inside hclose hs
  | .badItem h ht hi hr =>
    rw [h] at ha
    have hu := ha.past_name hclose ht
    exact hr.inside hclose ((hi.inside hclose hu).skipItem hclose)
  | .more h ht hi hs hr =>
    rw [h] at ha
    have hu := ha.past_name hclose ht
    exact hr.inside hclose (hs.inside hclose (hi.inside hclose hu))
  | .fault h ht hi hc hv hn =>
    rw [h] at ha
    have hu := ha.past_name hclose ht
    refine ⟨by simp, ?_⟩
    intro x hx
    cases hx
    exact ⟨(hi.inside hclose hu).weaken, rfl⟩

end

/-- Tokens that neither open nor close a block and start no declaration. -/
def Plain (ts : List Token) : Prop :=
  ∀ t ∈ ts, t.kind ≠ .openCurly ∧ t.kind ≠ .closeCurly ∧ t.kind.startsDeclaration = false

theorem Plain.tail {t : Token} {ts : List Token} (h : Plain (t :: ts)) : Plain ts :=
  fun u hu => h u (List.mem_cons_of_mem t hu)

theorem skipDeclaration_plain {g : List Token} (hg : Plain g) {o : Token}
    (ho : o.kind = .openCurly) (ts : List Token) :
    skipDeclaration (g ++ o :: ts) = skipBody 0 ts := by
  induction g with
  | nil => simp [skipDeclaration, ho]
  | cons t g ih =>
    have ht := hg t List.mem_cons_self
    have hskip : skipDeclaration (t :: (g ++ o :: ts)) = skipDeclaration (g ++ o :: ts) := by
      cases hk : t.kind <;>
        simp_all [skipDeclaration, TokenKind.startsDeclaration, TokenKind.declaration?]
    rw [List.cons_append, hskip, ih hg.tail]

section Declaration

variable {kind : DeclarationKind} {keyword o : Token} {d d' : Draft} {g ts us : List Token}

/-- The name of a declaration is read from the tokens in front of its block. -/
theorem HeadingRun.plain {v : Except Diagnostic Token} {inBlock : Bool}
    (h : HeadingRun eof kind keyword inBlock d (g ++ o :: ts) v d' us) (hg : Plain g)
    (ho : o.kind = .openCurly) : ∃ g', Plain g' ∧ us = g' ++ o :: ts := by
  have named {name : Token} {us : List Token} (hn : name.kind = .identifier)
      (he : name :: us = g ++ o :: ts) : ∃ g', Plain g' ∧ us = g' ++ o :: ts := by
    cases g with
    | nil => cases he; rw [hn] at ho; cases ho
    | cons t g => cases he; exact ⟨g, hg.tail, rfl⟩
  generalize he : g ++ o :: ts = ws at h
  cases h with
  | duplicate hk hn hd => exact named hn he.symm
  | named hk hn hd => exact named hn he.symm
  | _ => exact ⟨g, hg, he.symm⟩

theorem HeadingRun.not_inBlock {x : Diagnostic}
    (h : HeadingRun eof kind keyword false d ts (.error x) d' us) : x.inBlock = false := by
  cases h with
  | _ => rfl

theorem OpeningRun.plain_of_error {x : Diagnostic}
    (h : OpeningRun eof kind keyword false d (g ++ o :: ts) (.error x) d' us) (hg : Plain g)
    (ho : o.kind = .openCurly) : recover x us = skipBody 0 ts := by
  cases h with
  | badHeading hh =>
    obtain ⟨g', hg', rfl⟩ := hh.plain hg ho
    simp [recover, hh.not_inBlock, skipDeclaration_plain hg' ho]
  | noBlock hh hb =>
    obtain ⟨g', hg', rfl⟩ := hh.plain hg ho
    simp [recover, Diagnostic.inBlock, skipDeclaration_plain hg' ho]

theorem OpeningRun.plain_of_ok {name : Token} {inBlock : Bool}
    (h : OpeningRun eof kind keyword inBlock d (g ++ o :: ts) (.ok name) d' us) (hg : Plain g)
    (ho : o.kind = .openCurly) : us = ts := by
  cases h with
  | opened hh hb =>
    obtain ⟨g', hg', he⟩ := hh.plain hg ho
    cases g' with
    | nil => cases he; rfl
    | cons t g' => cases he; exact absurd hb (hg' _ List.mem_cons_self).1

end Declaration

theorem RoundRun.rest_of_balanced {d d' : Draft} {ts us g body : List Token} {keyword o c : Token}
    {k : DeclarationKind} (h : RoundRun eof d ts d' us)
    (ha : afterComments ts = keyword :: (g ++ o :: (body ++ c :: rest)))
    (hk : keyword.kind = .declaration k) (hg : Plain g) (ho : o.kind = .openCurly)
    (hb : Balanced body) (hm : Guarded false body) (hc : c.kind = .closeCurly) : us = rest := by
  have hin : Inside false c rest (body ++ c :: rest) := ⟨body, hb, hm, rfl⟩
  cases h with
  | foreign h ht =>
    rw [ha] at h
    cases h
    rw [hk] at ht
    cases ht
  | badOpening h ht hopen =>
    rw [ha] at h
    cases h
    rw [hopen.plain_of_error hg ho, hin.skipBody hc]
  | declared h ht hopen hitems =>
    rw [ha] at h
    cases h
    obtain rfl := hopen.plain_of_ok hg ho
    exact (hitems.inside hc hin).1 rfl
  | broken h ht hopen hitems =>
    rw [ha] at h
    cases h
    obtain rfl := hopen.plain_of_ok hg ho
    obtain ⟨hrest, hblock⟩ := (hitems.inside hc hin).2 _ rfl
    rw [recover, if_pos hblock, hrest.skipBody hc]

/-- A round that starts at a declaration with matched braces ends right behind its block, whatever
has been declared before and whatever is wrong with the name and the items. -/
theorem round_rest_of_balanced (eof : Token) (d : Draft) {cs g body : List Token}
    {keyword o c : Token} {k : DeclarationKind} (hcs : AllComments cs)
    (hk : keyword.kind = .declaration k) (hg : Plain g) (ho : o.kind = .openCurly)
    (hb : Balanced body) (hm : Guarded false body) (hc : c.kind = .closeCurly)
    (rest : List Token) :
    ∃ r, round eof d (cs ++ keyword :: (g ++ o :: (body ++ c :: rest))) = some r ∧
      r.rest = rest := by
  have ha := hcs.after_cons (t := keyword) (by simp [hk]) (g ++ o :: (body ++ c :: rest))
  have hr : round eof d _ = some _ := round_of_cons ha
  exact ⟨_, hr, (round_run hr).rest_of_balanced ha hk hg ho hb hm hc⟩

/-- The inside of a block whose only item has a type with no name and a comma for its items. -/
def brokenBody : List Token :=
  [⟨.identifier, "a", ⟨0, 9⟩⟩, ⟨.colon, ":", ⟨0, 10⟩⟩, ⟨.declaration .type, "type", ⟨0, 12⟩⟩,
    ⟨.openCurly, "\x7b", ⟨0, 17⟩⟩, ⟨.comma, ",", ⟨0, 18⟩⟩, ⟨.closeCurly, "\x7d", ⟨0, 19⟩⟩]

theorem round_rest_of_brokenBody : Balanced brokenBody ∧ Guarded false brokenBody ∧
    ∃ r, round (.endOfFile ⟨0, 27⟩) .empty ([] ++ ⟨.declaration .type, "type", ⟨0, 0⟩⟩ ::
      ([⟨.comma, ",", ⟨0, 5⟩⟩] ++ ⟨.openCurly, "\x7b", ⟨0, 7⟩⟩ ::
        (brokenBody ++ ⟨.closeCurly, "\x7d", ⟨0, 20⟩⟩ ::
          [⟨.declaration .enum, "enum", ⟨0, 22⟩⟩]))) = some r ∧
      r.rest = [⟨.declaration .enum, "enum", ⟨0, 22⟩⟩] := by
  have hb : Balanced brokenBody :=
    .token (by decide) (by decide) (.token (by decide) (by decide) (.token (by decide) (by decide)
      (.block rfl rfl (.token (by decide) (by decide) .nil) .nil)))
  have hm : Guarded false brokenBody := by
    simp [Guarded, brokenBody, isMark, DeclarationKind.isType, DeclarationKind.scope?]
  have hg : Plain [⟨.comma, ",", ⟨0, 5⟩⟩] := by
    simp [Plain, TokenKind.startsDeclaration, TokenKind.declaration?]
  exact ⟨hb, hm, round_rest_of_balanced _ _ (by simp [AllComments]) rfl hg rfl hb hm rfl _⟩

end GameSchema.Grammar
