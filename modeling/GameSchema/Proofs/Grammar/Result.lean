import GameSchema.Proofs.Grammar.Run

/-!
# Results of runs

A run determines what the rule comes to: the same value, draft and tokens as the run. Together with
the runs of the rules themselves, the runs are exactly the graph of the grammar, so a result can be
computed by building its run.
-/

namespace GameSchema.Grammar
open Token Recovery

variable {eof : Token} {d : Draft} {ts : List Token}

/-- What a reading comes to. -/
def Is {α : Type} {ts : List Token} (r : Reading α ts) (v : α) (d : Draft) (us : List Token) :
    Prop := r.value = v ∧ r.draft = d ∧ r.rest = us

theorem Is.weaken {α : Type} {ts us vs : List Token} {r : Reading α us} {v : α} {d : Draft}
    (hr : Is r v d vs) (h : us <:+ ts) : Is (r.weaken h) v d vs := hr

theorem Is.map {α β : Type} {ts us : List Token} {r : Reading α ts} {v : α} {d : Draft}
    (hr : Is r v d us) (f : α → β) : Is (r.map f) (f v) d us := by
  obtain ⟨hv, hd, hrest⟩ := hr
  exact ⟨congrArg f hv, hd, hrest⟩

section Results

variable {kind : DeclarationKind} {keyword : Token} {inBlock : Bool} {d' : Draft} {us : List Token}

theorem HeadingRun.is {v : Except Diagnostic Token}
    (h : HeadingRun eof kind keyword inBlock d ts v d' us) :
    Is (heading eof kind keyword inBlock d ts) v d' us := by
  cases h with
  | config hk hs =>
    simp [Is, heading, hk, Draft.declareConfig, Scope.declareConfig, hs, Except.map, addConfig]
  | secondConfig hk hs =>
    simp [Is, heading, hk, Draft.declareConfig, Scope.declareConfig, hs, Except.map, Reading.fail]
  | unnamed hk hn => simp [Is, heading, hk, hn, Reading.fail]
  | duplicate hk hn hd =>
    simp [Is, heading, DeclarationKind.ne_config_of_scope hk, hn, Draft.declare, Scope.declare, hk,
      Scope.isDeclared, hd, Except.map]
  | named hk hn hd =>
    simp [Is, heading, DeclarationKind.ne_config_of_scope hk, hn, Draft.declare, Scope.declare, hk,
      Scope.isDeclared, hd, Except.map, addName]

theorem OpeningRun.is {v : Except Diagnostic Token}
    (h : OpeningRun eof kind keyword inBlock d ts v d' us) :
    Is (opening eof kind keyword inBlock d ts) v d' us := by
  cases h with
  | badHeading hh =>
    obtain ⟨hv, hd, hr⟩ := hh.is
    simp only [opening, Reading.andThen_of_error hv]
    exact ⟨rfl, hd, hr⟩
  | noBlock hh ho =>
    obtain ⟨hv, hd, hr⟩ := hh.is
    simp only [opening, Reading.andThen_of_ok hv]
    simp [Is, hd, hr, ho, Reading.fail]
  | opened hh ho =>
    obtain ⟨hv, hd, hr⟩ := hh.is
    simp only [opening, Reading.andThen_of_ok hv]
    simp [Is, hd, hr, ho]

theorem closeElement_is_error {c : Token} {r : Reading (Except Diagnostic PropertyType) ts}
    {x : Diagnostic} (h : Is r (.error x) d us) : Is (closeElement eof c r) (.error x) d us := by
  obtain ⟨hv, hd, hr⟩ := h
  simp only [closeElement, Reading.andThen_of_error hv]
  exact ⟨rfl, hd, hr⟩

theorem closeElement_is_noGreater {c : Token} {r : Reading (Except Diagnostic PropertyType) ts}
    {e : PropertyType} (h : Is r (.ok e) d us) (hg : startsWith .greater us = false) :
    Is (closeElement eof c r) (.error (.parse .greater (here eof us) true)) d us := by
  obtain ⟨hv, hd, hr⟩ := h
  simp only [closeElement, Reading.andThen_of_ok hv]
  simp [Is, hd, hr, hg, Reading.fail]

theorem closeElement_is_ok {c g : Token} {r : Reading (Except Diagnostic PropertyType) ts}
    {e : PropertyType} (h : Is r (.ok e) d (g :: us)) (hg : g.kind = .greater) :
    Is (closeElement eof c r) (.ok (.generic c none e)) d us := by
  obtain ⟨hv, hd, hr⟩ := h
  simp only [closeElement, Reading.andThen_of_ok hv]
  simp [Is, hd, hr, hg]

theorem inlineDeclaration_is_error {cs : List String} {r : Reading (Except Diagnostic Token) ts}
    {x : Diagnostic} (h : Is r (.error x) d us) :
    Is (inlineDeclaration eof kind cs r) (.error x) d us := by
  obtain ⟨hv, hd, hr⟩ := h
  simp only [inlineDeclaration, Reading.andThen_of_error hv]
  exact ⟨rfl, hd, hr⟩

theorem inlineDeclaration_is_ok {cs : List String} {r : Reading (Except Diagnostic Token) ts}
    {name : Token} {ps : List Property} {vs : List Token} (h : Is r (.ok name) d us)
    (hb : Is (items eof kind d us) ⟨ps, none⟩ d' vs) :
    Is (inlineDeclaration eof kind cs r) (.ok (.plain name (some d'.declarations.length)))
      (d'.push ⟨kind, name.lexeme, some name, cs, ps⟩) vs := by
  obtain ⟨rv, rd, rr, hs⟩ := r
  obtain ⟨rfl, rfl, rfl⟩ := h
  simp only [inlineDeclaration, Reading.andThen]
  generalize items eof kind rd rr = b at hb ⊢
  obtain ⟨bv, bd, br, hbs⟩ := b
  obtain ⟨rfl, rfl, rfl⟩ := hb
  exact ⟨rfl, rfl, rfl⟩

theorem inlineDeclaration_is_broken {cs : List String} {r : Reading (Except Diagnostic Token) ts}
    {name : Token} {ps : List Property} {x : Diagnostic} {vs : List Token}
    (h : Is r (.ok name) d us) (hb : Is (items eof kind d us) ⟨ps, some x⟩ d' vs) :
    Is (inlineDeclaration eof kind cs r) (.ok (.plain name (some d'.declarations.length)))
      ((d'.report x).push ⟨kind, name.lexeme, some name, cs, ps⟩) (skipBody 0 vs) := by
  obtain ⟨rv, rd, rr, hs⟩ := r
  obtain ⟨rfl, rfl, rfl⟩ := h
  simp only [inlineDeclaration, Reading.andThen]
  generalize items eof kind rd rr = b at hb ⊢
  obtain ⟨bv, bd, br, hbs⟩ := b
  obtain ⟨rfl, rfl, rfl⟩ := hb
  exact ⟨rfl, rfl, rfl⟩

theorem itemsAfter_is_error {r : Reading (Except Diagnostic Property) ts} {x : Diagnostic}
    {b : Block} {vs : List Token} (h : Is r (.error x) d us)
    (hr : Is (items eof kind (d.report x) (skipItem 0 us)) b d' vs) :
    Is (itemsAfter eof kind r) b d' vs := by
  obtain ⟨rv, rd, rr, hs⟩ := r
  obtain ⟨rfl, rfl, rfl⟩ := h
  rw [itemsAfter]
  exact hr.weaken _

theorem itemsAfter_is_ok {r : Reading (Except Diagnostic Property) ts} {p : Property}
    {d₁ : Draft} {us₁ vs : List Token} {b : Block} (h : Is r (.ok p) d us)
    (hs : Separation eof d us d₁ us₁) (hr : Is (items eof kind d₁ us₁) b d' vs) :
    Is (itemsAfter eof kind r) (b.cons p) d' vs := by
  obtain ⟨rv, rd, rr, hsuf⟩ := r
  obtain ⟨rfl, rfl, rfl⟩ := h
  rw [itemsAfter]
  cases hs with
  | comma hc =>
    simp only [startsWith_cons, hc, BEq.rfl, ↓reduceIte]
    exact (hr.map (Block.cons p)).weaken _
  | missing hc hn =>
    simp only [hc, Bool.false_eq_true, ↓reduceIte, hn]
    exact (hr.map (Block.cons p)).weaken _
  | last hc hv =>
    simp only [hc, Bool.false_eq_true, ↓reduceIte]
    cases hk : (here eof (afterComments rr)).kind <;> rw [hk] at hv <;>
      first | (cases hv; done) | exact (hr.map (Block.cons p)).weaken _

theorem itemsAfter_is_fault {r : Reading (Except Diagnostic Property) ts} {p : Property}
    (h : Is r (.ok p) d us) (hc : startsWith .comma us = false)
    (hv : endsItem (here eof (afterComments us)).kind = false)
    (hn : (here eof (afterComments us)).kind ≠ .identifier) :
    Is (itemsAfter eof kind r) ⟨[p], some (.parse .commaOrEnd (here eof us) true)⟩ d us := by
  obtain ⟨rv, rd, rr, hsuf⟩ := r
  obtain ⟨rfl, rfl, rfl⟩ := h
  rw [itemsAfter]
  simp only [hc, Bool.false_eq_true, ↓reduceIte]
  cases hk : (here eof (afterComments rr)).kind <;> rw [hk] at hv hn <;>
    first | (cases hv; done) | exact absurd rfl hn | exact ⟨rfl, rfl, rfl⟩

mutual

theorem TypeRun.is {mark : Char} {cs : List String} {d d' : Draft} {ts us : List Token}
    {v : Except Diagnostic PropertyType} (h : TypeRun eof mark cs d ts v d' us) :
    Is (typeAt eof mark cs d ts) v d' us := by
  match h with
  | .missing h =>
    cases ts with
    | nil => rw [typeAt]; exact ⟨rfl, rfl, rfl⟩
    | cons t us =>
      have ht := h t us rfl
      cases hk : t.kind with
      | declaration k =>
        rw [hk] at ht
        cases k <;> first | (cases ht; done) | (simp only [typeAt, hk]; exact ⟨rfl, rfl, rfl⟩)
      | _ =>
        rw [hk] at ht
        first | (cases ht; done) | (simp only [typeAt, hk]; exact ⟨rfl, rfl, rfl⟩)
  | .scalar h => simp only [typeAt, h]; exact ⟨rfl, rfl, rfl⟩
  | .reference h => simp only [typeAt, h]; exact ⟨rfl, rfl, rfl⟩
  | .noLess h hl => simp [Is, typeAt, h, elementType, hl, Reading.fail]
  | .badElement h hl he =>
    simp only [typeAt, h, elementType, startsWith_cons, hl, BEq.rfl, ↓reduceIte, List.tail_cons]
    exact closeElement_is_error he.is
  | .noGreater h hl he hg =>
    simp only [typeAt, h, elementType, startsWith_cons, hl, BEq.rfl, ↓reduceIte, List.tail_cons]
    exact closeElement_is_noGreater he.is hg
  | .generic h hl he hg =>
    simp only [typeAt, h, elementType, startsWith_cons, hl, BEq.rfl, ↓reduceIte, List.tail_cons]
    exact closeElement_is_ok he.is hg
  | .badInline h hk ho =>
    rw [typeAt_of_isType h hk]
    exact (inlineDeclaration_is_error ho.is).weaken _
  | .inline h hk ho hb =>
    rw [typeAt_of_isType h hk]
    exact (inlineDeclaration_is_ok ho.is hb.is).weaken _
  | .brokenInline h hk ho hb =>
    rw [typeAt_of_isType h hk]
    exact (inlineDeclaration_is_broken ho.is hb.is).weaken _

theorem ItemRun.is {kind : DeclarationKind} {cs : List String} {name : Token} {d d' : Draft}
    {ts us : List Token} {v : Except Diagnostic Property}
    (h : ItemRun eof kind cs name d ts v d' us) : Is (item eof kind cs name d ts) v d' us := by
  match h with
  | .value hk => simp [Is, item, hk]
  | .noColon hk hc => simp [Is, item, hk, hc, Reading.fail]
  | .badField hk hc ht =>
    simp only [item, hk, startsWith_cons, hc, BEq.rfl, ↓reduceIte, List.tail_cons]
    exact (ht.is.map (·.map (typedItem name cs))).weaken _
  | .field hk hc ht =>
    simp only [item, hk, startsWith_cons, hc, BEq.rfl, ↓reduceIte, List.tail_cons]
    exact (ht.is.map (·.map (typedItem name cs))).weaken _

theorem ItemsRun.is {kind : DeclarationKind} {d d' : Draft} {ts us : List Token} {b : Block}
    (h : ItemsRun eof kind d ts b d' us) : Is (items eof kind d ts) b d' us := by
  match h with
  | .unterminated h => rw [items_of_nil h]; exact ⟨rfl, rfl, rfl⟩
  | .close h ht =>
    rw [items_of_cons h (suffix_of_afterComments h)]
    simp only [ht]
    exact ⟨rfl, rfl, rfl⟩
  | .keyword h ht =>
    rw [items_of_cons h (suffix_of_afterComments h)]
    simp only [ht]
    exact ⟨rfl, rfl, rfl⟩
  | .stray h hc hd hi hr =>
    rw [items_of_stray h (suffix_of_afterComments h) hc hd hi]
    exact hr.is.weaken _
  | .badItem h ht hi hr =>
    rw [items_of_cons h (suffix_of_afterComments h)]
    simp only [ht]
    exact itemsAfter_is_error hi.is hr.is
  | .more h ht hi hs hr =>
    rw [items_of_cons h (suffix_of_afterComments h)]
    simp only [ht]
    exact itemsAfter_is_ok hi.is hs hr.is
  | .fault h ht hi hc hv hn =>
    rw [items_of_cons h (suffix_of_afterComments h)]
    simp only [ht]
    exact itemsAfter_is_fault hi.is hc hv hn

end

theorem declaration_is_error {cs : List String} {x : Diagnostic}
    (ho : OpeningRun eof kind keyword false d ts (.error x) d' us) :
    Is (declaration eof kind keyword cs d ts) (.error x) d' us := by
  obtain ⟨hv, hd, hr⟩ := ho.is
  simp only [declaration, declarationBlock, Reading.andThen_of_error hv]
  exact ⟨rfl, hd, hr⟩

theorem declaration_is_block {cs : List String} {name : Token} {b : Block} {d₂ : Draft}
    {vs : List Token} (ho : OpeningRun eof kind keyword false d ts (.ok name) d' us)
    (hb : ItemsRun eof kind d' us b d₂ vs) :
    Is (declaration eof kind keyword cs d ts) (blockDeclaration kind name cs b) d₂ vs := by
  have hi := ho.is
  simp only [declaration]
  generalize opening eof kind keyword false d ts = r at hi ⊢
  obtain ⟨rv, rd, rr, hs⟩ := r
  obtain ⟨rfl, rfl, rfl⟩ := hi
  simp only [declarationBlock, Reading.andThen]
  exact (hb.is.map (blockDeclaration kind name cs)).weaken _

theorem settle_is_error {r : Reading (Except Diagnostic Declaration) ts} {x : Diagnostic}
    (h : Is r (.error x) d us) : Is (settle r) () (d.report x) (recover x us) := by
  obtain ⟨rv, rd, rr, hs⟩ := r
  obtain ⟨rfl, rfl, rfl⟩ := h
  exact ⟨rfl, rfl, rfl⟩

theorem settle_is_ok {r : Reading (Except Diagnostic Declaration) ts} {x : Declaration}
    (h : Is r (.ok x) d us) : Is (settle r) () (d.push x) us := by
  obtain ⟨rv, rd, rr, hs⟩ := r
  obtain ⟨rfl, rfl, rfl⟩ := h
  exact ⟨rfl, rfl, rfl⟩

theorem RoundRun.is (h : RoundRun eof d ts d' us) :
    ∃ r, round eof d ts = some r ∧ Is r () d' us := by
  cases h with
  | @foreign t us h ht =>
    refine ⟨_, round_of_cons h, Is.weaken ?_ _⟩
    cases hk : t.kind <;> rw [hk] at ht <;>
      first | (cases ht; done) | (simp only [topLevel, hk]; exact ⟨rfl, rfl, rfl⟩)
  | badOpening h ht ho =>
    refine ⟨_, round_of_cons h, Is.weaken ?_ _⟩
    simp only [topLevel, ht]
    exact settle_is_error (declaration_is_error ho)
  | declared h ht ho hb =>
    refine ⟨_, round_of_cons h, Is.weaken ?_ _⟩
    simp only [topLevel, ht]
    exact settle_is_ok (declaration_is_block ho hb)
  | broken h ht ho hb =>
    refine ⟨_, round_of_cons h, Is.weaken ?_ _⟩
    simp only [topLevel, ht]
    exact settle_is_error (declaration_is_block ho hb)

theorem EntryRun.is {keyword value : TokenKind} {keywordWanted valueWanted : Expectation}
    {v : Except Diagnostic Token} (h : EntryRun eof keyword value keywordWanted valueWanted ts v us)
    (d : Draft) : Is (entry eof keyword value keywordWanted valueWanted d ts) v d us := by
  cases h with
  | noKeyword hk => simp [Is, entry, hk, Reading.fail]
  | noValue hk hv => simp [Is, entry, hk, hv]
  | found hk hv => simp [Is, entry, hk, hv]

theorem HeaderRun.is {compiler : String} {m : Metadata} (h : HeaderRun eof compiler ts m d us) :
    Is (header eof compiler ts) m d us := by
  cases h with
  | mk hn hv =>
    obtain ⟨hname, hd, hrest⟩ := hn.is .empty
    subst hname hrest
    obtain ⟨hversion, hd₂, hrest₂⟩ := hv.is (Draft.empty.reportError (entry eof .name .identifier
      .nameKeyword .gameName .empty (afterComments ts)).value)
    subst hversion hrest₂
    simp only [Is, header, Reading.weaken, hd, hd₂, and_self]

theorem FileRun.declarations_eq (h : FileRun eof d ts d') : declarations eof d ts = d' := by
  induction h with
  | done h => exact declarations_of_none (round_of_nil h)
  | step hr h ih =>
    obtain ⟨r, hround, -, hd, hrest⟩ := hr.is
    rw [declarations_of_some hround, hd, hrest, ih]

end Results

end GameSchema.Grammar
