import GameSchema.Proofs.Grammar.Isolation
import GameSchema.Proofs.Grammar.Segments

/-!
# Mistakes in a block

A mistake in an item of a block is reported once and costs only that item. The inside of a block is
cut into segments by its commas. Reading a segment that is no item stops somewhere in it, or at the
token right behind it, and from wherever that is, skipping comes to the comma or the brace at which
the segment ends. So the items of a block are its good segments, and there is one diagnostic for
each bad segment and for each comma that is missing between two good ones.
-/

namespace GameSchema.Grammar
open Token Recovery

section Contents

/-- Tokens in which every brace is matched, and in which all commas and keywords are inside of
braces. -/
inductive Enclosed : List Token → Prop
  | nil : Enclosed []
  | token {t ts} (ho : t.kind ≠ .openCurly) (hc : t.kind ≠ .closeCurly) (hm : t.kind ≠ .comma)
      (hk : t.kind.startsDeclaration = false) (h : Enclosed ts) : Enclosed (t :: ts)
  | block {o c bs ts} (ho : o.kind = .openCurly) (hc : c.kind = .closeCurly) (hb : Balanced bs)
      (h : Enclosed ts) : Enclosed (o :: (bs ++ c :: ts))

/-- The tokens spell an item in which nothing is declared. -/
def IsPlainItem (kind : DeclarationKind) (i : ItemTree) (ts : List Token) : Prop :=
  SpellsItem kind i ts [] ∧ i.inlined = 0

/-- The tokens of a segment that is no item and does not start with one. -/
structure IsMistake (kind : DeclarationKind) (ts : List Token) : Prop where
  enclosed : Enclosed ts
  not_item : ∀ i us, us <+: ts → ¬ IsPlainItem kind i us

inductive Segment where
  | item (tree : ItemTree) (tokens : List Token)
  | mistake (tokens : List Token)

namespace Segment

def tokens : Segment → List Token
  | item _ ts => ts
  | mistake ts => ts

def Fits (kind : DeclarationKind) : Segment → Prop
  | item i ts => IsPlainItem kind i ts
  | mistake ts => IsMistake kind ts

/-- The property of a segment that is an item; its references are not bound yet. -/
def property? : Segment → Option Property
  | item i _ => some (i.property unbound 0)
  | mistake _ => none

end Segment

/-- What is wrong in a block: the tokens of a segment that is no item, with the token behind them,
or a comma that is missing before a token. -/
inductive Slip where
  | mistake (tokens : List Token) (next : Token)
  | comma (next : Token)

/-- What is wrong with a segment that stands before a token. -/
def Segment.slips (next : Token) : Segment → List Slip
  | item _ _ => []
  | mistake ts => [.mistake ts next]

/-- The diagnostic for what is wrong. That for a mistake points to one of its tokens or to the one
right behind it. -/
inductive Slip.Reported : Slip → Diagnostic → Prop
  | mistake {ts next t} (e : Expectation) (ht : t ∈ ts ∨ t = next) :
      Reported (.mistake ts next) (.parse e t true)
  | comma {next} : Reported (.comma next) (.parse .commaBetween next true)

/-- Comments, which belong to no item, and the brace that closes a block. -/
def Closing (ts us : List Token) : Prop :=
  ∃ cs c, AllComments cs ∧ c.kind = .closeCurly ∧ ts = cs ++ c :: us

/-- The tokens of the first list are segments with commas between them, up to the brace that closes
their block, and go on with the second list. The last comma may be there or not, and those between
two items may be missing. A mistake that neither a comma nor anything but comments tells from the
end of the block is none. -/
inductive Content (kind : DeclarationKind) :
    List Segment → List Slip → List Token → List Token → Prop
  | last {s n vs us} (hs : s.Fits kind) (hne : ∀ ts, s = .mistake ts → ¬ AllComments ts)
      (he : Closing (n :: vs) us) : Content kind [s] (s.slips n) (s.tokens ++ n :: vs) us
  | trailing {s c vs us} (hs : s.Fits kind) (hc : c.kind = .comma) (he : Closing vs us) :
      Content kind [s] (s.slips c) (s.tokens ++ c :: vs) us
  | comma {s c ss xs vs us} (hs : s.Fits kind) (hc : c.kind = .comma)
      (h : Content kind ss xs vs us) :
      Content kind (s :: ss) (s.slips c ++ xs) (s.tokens ++ c :: vs) us
  | missing {i ts j js ss xs n vs us} (hi : IsPlainItem kind i ts)
      (h : Content kind (.item j js :: ss) xs (n :: vs) us) :
      Content kind (.item i ts :: .item j js :: ss) (.comma n :: xs) (ts ++ n :: vs) us

/-- The keyword and the name of a declaration that is not there yet, with the brace that opens its
block. The keyword of a config stands for its name. -/
inductive Heading (d : Draft) : DeclarationKind → Token → List Token → Prop
  | config {w o} (hw : w.kind = .declaration .config) (hs : d.scope.configSeen = false)
      (ho : o.kind = .openCurly) : Heading d .config w [w, o]
  | named {w k n name o} (hw : w.kind = .declaration k) (hk : k.scope? = some n)
      (hn : name.kind = .identifier) (hd : (n, name.lexeme) ∉ d.scope.declared)
      (ho : o.kind = .openCurly) : Heading d k name [w, name, o]

end Contents

section Skipping

variable {bs vs ts us : List Token} {n t : Token}

/-- The kinds of token that stand right behind a segment. -/
def endsSegment : TokenKind → Bool
  | .comma | .closeCurly | .comment => true
  | _ => false

/-- Skipping passes over a segment. -/
theorem Enclosed.skipItem (h : Enclosed bs) (ts : List Token) :
    skipItem 0 (bs ++ ts) = skipItem 0 ts := by
  induction h with
  | nil => rfl
  | @token t bs ho hc hm hk h ih =>
    have hskip : Recovery.skipItem 0 (t :: (bs ++ ts)) = Recovery.skipItem 0 (bs ++ ts) := by
      cases ht : t.kind <;>
        simp_all [Recovery.skipItem, TokenKind.startsDeclaration, TokenKind.declaration?]
    rw [List.cons_append, hskip, ih]
  | @block o c bs us ho hc hb h ih => rw [skipItem_block ho hc hb, ih]

theorem Enclosed.tail (h : Enclosed (t :: bs)) (ho : t.kind ≠ .openCurly) : Enclosed bs := by
  cases h with
  | token _ hc hm hk h => exact h
  | block ho' hc hb h => exact absurd ho' ho

theorem Enclosed.not_keyword (h : Enclosed (t :: bs)) : t.kind.startsDeclaration = false := by
  cases h with
  | token ho hc hm hk h => exact hk
  | block ho hc hb h => rw [ho]; rfl

theorem Enclosed.not_close (h : Enclosed (t :: bs)) : t.kind ≠ .closeCurly := by
  cases h with
  | token ho hc hm hk h => exact hc
  | block ho hc hb h => simp [ho]

theorem Enclosed.after_comments {cs : List Token} (hcs : AllComments cs)
    (h : Enclosed (cs ++ bs)) : Enclosed bs := by
  induction cs with
  | nil => exact h
  | cons c cs ih =>
    have hc : c.kind = .comment := by simpa [isComment] using hcs c List.mem_cons_self
    exact ih (fun t ht => hcs t (List.mem_cons_of_mem c ht)) (h.tail (by simp [hc]))

theorem enclosed_of_allComments {cs : List Token} (hcs : AllComments cs) : Enclosed cs := by
  induction cs with
  | nil => exact .nil
  | cons c cs ih =>
    have hc : c.kind = .comment := by simpa [isComment] using hcs c List.mem_cons_self
    exact .token (by simp [hc]) (by simp [hc]) (by simp [hc]) (by rw [hc]; rfl)
      (ih fun t ht => hcs t (List.mem_cons_of_mem c ht))

/-- The tokens left of a segment `bs`, which `n` stands behind. -/
def Within (bs : List Token) (n : Token) (vs ts : List Token) : Prop :=
  ∃ cs, Enclosed cs ∧ cs <:+ bs ∧ ts = cs ++ n :: vs

namespace Within

theorem tail (h : Within bs n vs (t :: ts)) (hn : endsSegment n.kind = true)
    (ho : t.kind ≠ .openCurly) (ht : endsSegment t.kind = false) :
    t.kind.startsDeclaration = false ∧ Within bs n vs ts := by
  obtain ⟨cs, hcs, hsuffix, heq⟩ := h
  cases cs with
  | nil =>
    cases heq
    rw [hn] at ht
    cases ht
  | cons c cs =>
    cases heq
    exact ⟨hcs.not_keyword, cs, hcs.tail ho, (List.suffix_cons t cs).trans hsuffix, rfl⟩

/-- Reading looks at a token of the segment or at the one behind it. -/
theorem here_mem (h : Within bs n vs ts) (eof : Token) : here eof ts ∈ bs ∨ here eof ts = n := by
  obtain ⟨cs, hcs, hsuffix, rfl⟩ := h
  cases cs with
  | nil => exact .inr rfl
  | cons c cs => exact .inl (hsuffix.subset List.mem_cons_self)

theorem skipItem_eq (h : Within bs n vs ts) : skipItem 0 ts = skipItem 0 (n :: vs) := by
  obtain ⟨cs, hcs, -, rfl⟩ := h
  exact hcs.skipItem (n :: vs)

/-- What has been read of the segment is a front part of it. -/
theorem prefix_of_append {ws : List Token} (h : Within bs n vs us)
    (heq : bs ++ n :: vs = ws ++ us) : ws <+: bs := by
  obtain ⟨cs, -, -, rfl⟩ := h
  rw [← List.append_assoc] at heq
  exact ⟨cs, (List.append_cancel_right heq).symm⟩

end Within

end Skipping

section Reading

variable {eof n : Token} {bs vs ts us : List Token} {d d' : Draft}

/-- Nothing has been declared and nothing reported. -/
structure Quiet (d d' : Draft) : Prop where
  declarations : d'.declarations = d.declarations
  diagnostics : d'.diagnostics = d.diagnostics

theorem Quiet.refl (d : Draft) : Quiet d d := ⟨rfl, rfl⟩

/-- A rule has been applied inside of a segment and has come to `v`: it has found what it wants
there, or what is missing is reported where it has stopped. -/
structure StopsWithin {α : Type} (bs : List Token) (n : Token) (vs : List Token) (eof : Token)
    (found : Prop) (d : Draft) (v : Except Diagnostic α) (d' : Draft) (us : List Token) : Prop where
  within : Within bs n vs us
  quiet : Quiet d d'
  found : ∀ a, v = .ok a → found
  missing : ∀ x, v = .error x → ∃ e, x = .parse e (here eof us) true

/-- A type in a segment is read without leaving the segment, since a segment has no keyword. -/
theorem TypeRun.stopsWithin {mark : Char} {cs : List String} {d d' : Draft} {ts us : List Token}
    {v : Except Diagnostic PropertyType} (h : TypeRun eof mark cs d ts v d' us)
    (hn : endsSegment n.kind = true) (hi : Within bs n vs ts) :
    StopsWithin bs n vs eof (∃ t, SpellsType t ts us ∧ t.inlined = 0) d v d' us := by
  match h with
  | .missing h => exact ⟨hi, .refl d, by simp, by rintro x ⟨⟩; exact ⟨_, rfl⟩⟩
  | .scalar h =>
    obtain ⟨-, hus⟩ := hi.tail hn (by simp [h]) (by simp [h, endsSegment])
    exact ⟨hus, .refl d, fun _ _ => ⟨_, .scalar h, rfl⟩, by simp⟩
  | .reference h =>
    obtain ⟨-, hus⟩ := hi.tail hn (by simp [h]) (by simp [h, endsSegment])
    exact ⟨hus, ⟨rfl, rfl⟩, fun _ _ => ⟨_, .reference h, rfl⟩, by simp⟩
  | .noLess h hl =>
    obtain ⟨-, hus⟩ := hi.tail hn (by simp [h]) (by simp [h, endsSegment])
    exact ⟨hus, .refl d, by simp, by rintro x ⟨⟩; exact ⟨_, rfl⟩⟩
  | .badElement h hl he =>
    obtain ⟨-, hl'⟩ := hi.tail hn (by simp [h]) (by simp [h, endsSegment])
    obtain ⟨-, hus⟩ := hl'.tail hn (by simp [hl]) (by simp [hl, endsSegment])
    have hstops := he.stopsWithin hn hus
    exact ⟨hstops.within, hstops.quiet, by simp, by rintro x ⟨⟩; exact hstops.missing _ rfl⟩
  | .noGreater h hl he hg =>
    obtain ⟨-, hl'⟩ := hi.tail hn (by simp [h]) (by simp [h, endsSegment])
    obtain ⟨-, hus⟩ := hl'.tail hn (by simp [hl]) (by simp [hl, endsSegment])
    have hstops := he.stopsWithin hn hus
    exact ⟨hstops.within, hstops.quiet, by simp, by rintro x ⟨⟩; exact ⟨_, rfl⟩⟩
  | .generic h hl he hg =>
    obtain ⟨-, hl'⟩ := hi.tail hn (by simp [h]) (by simp [h, endsSegment])
    obtain ⟨-, hus⟩ := hl'.tail hn (by simp [hl]) (by simp [hl, endsSegment])
    have hstops := he.stopsWithin hn hus
    obtain ⟨t, ht, hinlined⟩ := hstops.found _ rfl
    obtain ⟨-, hrest⟩ := hstops.within.tail hn (by simp [hg]) (by simp [hg, endsSegment])
    exact ⟨hrest, hstops.quiet, fun _ _ => ⟨_, .generic h hl ht hg, hinlined⟩, by simp⟩
  | .badInline h hk ho | .inline h hk ho hb | .brokenInline h hk ho hb =>
    obtain ⟨hkeyword, -⟩ := hi.tail hn (by simp [h]) (by simp [h, endsSegment])
    rw [h] at hkeyword
    cases hkeyword

theorem ItemRun.stopsWithin {kind : DeclarationKind} {cs : List String} {name : Token}
    {ls : List Token} {v : Except Diagnostic Property} (h : ItemRun eof kind cs name d ts v d' us)
    (hls : AllComments ls) (hname : name.kind = .identifier) (hn : endsSegment n.kind = true)
    (hi : Within bs n vs ts) :
    StopsWithin bs n vs eof (∃ i, SpellsItem kind i (ls ++ name :: ts) us ∧ i.inlined = 0) d v d'
      us := by
  cases h with
  | value hk =>
    subst hk
    exact ⟨hi, .refl d, fun _ _ => ⟨_, .value hls hname, rfl⟩, by simp⟩
  | noColon hk hc => exact ⟨hi, .refl d, by simp, by rintro x ⟨⟩; exact ⟨_, rfl⟩⟩
  | badField hk hc ht =>
    obtain ⟨-, hts⟩ := hi.tail hn (by simp [hc]) (by simp [hc, endsSegment])
    have hstops := ht.stopsWithin hn hts
    exact ⟨hstops.within, hstops.quiet, by simp, by rintro x ⟨⟩; exact hstops.missing _ rfl⟩
  | field hk hc ht =>
    obtain ⟨-, hts⟩ := hi.tail hn (by simp [hc]) (by simp [hc, endsSegment])
    have hstops := ht.stopsWithin hn hts
    obtain ⟨t, ht, hinlined⟩ := hstops.found _ rfl
    exact ⟨hstops.within, hstops.quiet,
      fun _ _ => ⟨_, .field hk hls hname hc ht, hinlined⟩, by simp⟩

variable (eof)

/-- Reading an item at the name of a mistake fails, since otherwise the mistake would start with
the item. -/
theorem IsMistake.exists_item_error {kind : DeclarationKind} {ls : List Token} {t : Token}
    (h : IsMistake kind (ls ++ t :: bs)) (hls : AllComments ls) (ht : t.kind = .identifier)
    (hn : endsSegment n.kind = true) (vs : List Token) (cs : List String) (d : Draft) :
    ∃ e d₁ us, Within (ls ++ t :: bs) n vs us ∧ Quiet d d₁ ∧
      ItemRun eof kind cs t d (bs ++ n :: vs) (.error (.parse e (here eof us) true)) d₁ us := by
  have hi : Within (ls ++ t :: bs) n vs (bs ++ n :: vs) :=
    ⟨bs, (h.enclosed.after_comments hls).tail (by simp [ht]), ⟨ls ++ [t], by simp⟩, rfl⟩
  have hrun := item_run eof kind cs t d (bs ++ n :: vs)
  have hstops := hrun.stopsWithin hls ht hn hi
  cases hv : (item eof kind cs t d (bs ++ n :: vs)).value with
  | ok p =>
    obtain ⟨i, hitem, hinlined⟩ := hstops.found p hv
    obtain ⟨ws, hws, hspells⟩ := hitem.segment
    have hprefix := hstops.within.prefix_of_append (by simpa using hws)
    have hplain := hspells []
    rw [List.append_nil] at hplain
    exact absurd ⟨hplain, hinlined⟩ (h.not_item i ws hprefix)
  | error x =>
    rw [hv] at hrun
    obtain ⟨e, rfl⟩ := hstops.missing x hv
    exact ⟨e, _, _, hstops.within, hstops.quiet, hrun⟩

/-- A mistake is reported once, and reading goes on where it ends: behind the comma that ends it, or
at the brace of the block. -/
theorem IsMistake.items_run {kind : DeclarationKind} (h : IsMistake kind bs)
    (hn : endsSegment n.kind = true) (hne : n.kind ≠ .comma → ¬ AllComments bs)
    (vs : List Token) (d : Draft) :
    ∃ x d₁, Slip.Reported (.mistake bs n) x ∧ Quiet d d₁ ∧ ∀ b d₂ us,
      ItemsRun eof kind (d₁.report x) (skipItem 0 (n :: vs)) b d₂ us →
        ItemsRun eof kind d (bs ++ n :: vs) b d₂ us := by
  cases ha : afterComments bs with
  | nil =>
    have hcs := allComments_of_after ha
    have hcomma : n.kind = .comma := by
      by_contra hcomma
      exact hne hcomma hcs
    refine ⟨_, d, .mistake (itemExpectation kind) (.inr rfl), .refl d, ?_⟩
    intro b d₂ us hrest
    rw [skipItem_eq_skipStray (by simp [hcomma]) (by rw [hcomma]; rfl)] at hrest
    exact .stray (hcs.after_cons (by simp [hcomma]) vs) (by simp [hcomma]) (by rw [hcomma]; rfl)
      (by simp [hcomma]) hrest
  | cons t cs =>
    obtain ⟨ls, hls, rfl⟩ := exists_comments ha
    have hafter : afterComments (ls ++ t :: cs ++ n :: vs) = t :: (cs ++ n :: vs) := by
      rw [List.append_assoc]
      exact hls.after_cons (kind_ne_comment_of_after ha) _
    by_cases hname : t.kind = .identifier
    · obtain ⟨e, d₁, us₁, hwithin, hquiet, hrun⟩ := h.exists_item_error eof hls hname hn vs
        (leadingComments (ls ++ t :: cs ++ n :: vs)) d
      refine ⟨_, d₁, .mistake e (hwithin.here_mem eof), hquiet, ?_⟩
      intro b d₂ us hrest
      rw [← hwithin.skipItem_eq] at hrest
      exact .badItem hafter hname hrun hrest
    · have henclosed := h.enclosed.after_comments hls
      have hmem : t ∈ ls ++ t :: cs := by simp
      refine ⟨_, d, .mistake (itemExpectation kind) (.inl hmem), .refl d, ?_⟩
      intro b d₂ us hrest
      rw [← henclosed.skipItem, List.cons_append,
        skipItem_eq_skipStray henclosed.not_close henclosed.not_keyword] at hrest
      exact .stray hafter henclosed.not_close henclosed.not_keyword hname hrest

/-- A type in which nothing is declared adds nothing to the draft but references. -/
theorem SpellsType.quiet_run {t : TypeTree} {ts us : List Token} (h : SpellsType t ts us)
    (ht : t.inlined = 0) (mark : Char) (cs : List String) (d : Draft) :
    ∃ d', Quiet d d' ∧ TypeRun eof mark cs d ts (.ok (t.type unbound 0)) d' us := by
  match h with
  | .scalar hw => exact ⟨d, .refl d, .scalar hw⟩
  | .reference hw => exact ⟨d.refer _, ⟨rfl, rfl⟩, .reference hw⟩
  | .generic hw hl he hg =>
    obtain ⟨d', hquiet, hrun⟩ := he.quiet_run ht '<' [] d
    exact ⟨d', hquiet, .generic hw hl hrun hg⟩
  | .inline hw hk hn ho hb => simp [TypeTree.inlined] at ht

theorem SpellsItem.quiet_run {kind : DeclarationKind} {i : ItemTree} (h : SpellsItem kind i ts us)
    (hi : i.inlined = 0) (d : Draft) : ∃ name ws d', afterComments ts = name :: ws ∧
      name.kind = .identifier ∧ Quiet d d' ∧
        ItemRun eof kind (leadingComments ts) name d ws (.ok (i.property unbound 0)) d' us := by
  cases h with
  | @value cs name _ hcs hn =>
    refine ⟨name, us, d, hcs.after_cons (by simp [hn]) us, hn, .refl d, ?_⟩
    rw [hcs.leading_cons (by simp [hn])]
    exact .value rfl
  | @field _ cs name c t ts _ hk hcs hn hc ht =>
    obtain ⟨d', hquiet, hrun⟩ := ht.quiet_run eof hi ':' (texts cs) d
    refine ⟨name, c :: ts, d', hcs.after_cons (by simp [hn]) _, hn, hquiet, ?_⟩
    rw [hcs.leading_cons (by simp [hn])]
    exact .field hk hc hrun

end Reading

section Blocks

variable {eof n : Token} {kind : DeclarationKind} {ts us vs : List Token} {d d₁ d₂ : Draft}

/-- Nothing has been declared, and reported is what is wrong. -/
def Reports (xs : List Slip) (d d' : Draft) : Prop :=
  d'.declarations = d.declarations ∧
    ∃ ys, d'.diagnostics = d.diagnostics ++ ys ∧ List.Forall₂ Slip.Reported xs ys

theorem Quiet.reports (h : Quiet d d₁) : Reports [] d d₁ :=
  ⟨h.declarations, [], by rw [h.diagnostics, List.append_nil], .nil⟩

theorem Quiet.report {s : Slip} {x : Diagnostic} (h : Quiet d d₁) (hx : s.Reported x) :
    Reports [s] d (d₁.report x) :=
  ⟨h.declarations, [x], by rw [Draft.report, h.diagnostics], .cons hx .nil⟩

theorem Reports.trans {xs ys : List Slip} (h : Reports xs d d₁) (h' : Reports ys d₁ d₂) :
    Reports (xs ++ ys) d d₂ := by
  obtain ⟨hdecl, as, has, hxs⟩ := h
  obtain ⟨hdecl', bs, hbs, hys⟩ := h'
  refine ⟨hdecl'.trans hdecl, as ++ bs, ?_, List.rel_append hxs hys⟩
  rw [hbs, has, List.append_assoc]

variable (eof) in
theorem Closing.items_run (h : Closing ts us) (d : Draft) :
    ItemsRun eof kind d ts ⟨[], none⟩ d us := by
  obtain ⟨cs, c, hcs, hc, rfl⟩ := h
  exact .close (hcs.after_cons (by simp [hc]) us) hc

/-- The end of a block ends its last segment, and skipping does not go behind it. -/
theorem Closing.ends (h : Closing (n :: vs) us) :
    endsSegment n.kind = true ∧ Closing (skipItem 0 (n :: vs)) us := by
  obtain ⟨cs, c, hcs, hc, heq⟩ := h
  have hskip : Closing (skipItem 0 (n :: vs)) us := by
    have hstop : skipItem 0 (c :: us) = c :: us := by simp [skipItem, hc]
    rw [heq, (enclosed_of_allComments hcs).skipItem, hstop]
    exact ⟨[], c, fun _ h => absurd h List.not_mem_nil, hc, rfl⟩
  cases cs with
  | nil =>
    cases heq
    exact ⟨by rw [hc]; rfl, hskip⟩
  | cons b cs =>
    cases heq
    have hn : n.kind = .comment := by simpa [isComment] using hcs n List.mem_cons_self
    exact ⟨by rw [hn]; rfl, hskip⟩

theorem IsPlainItem.spells {i : ItemTree} (h : IsPlainItem kind i ts) (us : List Token) :
    SpellsItem kind i (ts ++ us) us := by
  obtain ⟨ws, hws, hspells⟩ := h.1.segment
  rw [List.append_nil] at hws
  rw [hws]
  exact hspells us

theorem startsWith_comma_of_after {name : Token} (h : afterComments ts = name :: us)
    (hn : name.kind = .identifier) : startsWith .comma ts = false := by
  rw [Bool.eq_false_iff]
  intro hcomma
  obtain ⟨c, vs, rfl, hc⟩ := startsWith_iff.1 hcomma
  have hafter : afterComments (c :: vs) = c :: vs :=
    List.dropWhile_cons_of_neg (by simp [isComment, hc])
  rw [hafter] at h
  cases h
  rw [hc] at hn
  cases hn

theorem Segment.filterMap_property_cons (s : Segment) (ss : List Segment) :
    (s :: ss).filterMap Segment.property? =
      s.property?.toList ++ ss.filterMap Segment.property? := by
  cases s <;> rfl

variable (eof)

/-- A segment before a comma is read, or reported and skipped, with its comma. -/
theorem Segment.Fits.items_run_comma {s : Segment} {c : Token} (hs : s.Fits kind)
    (hc : c.kind = .comma) (vs : List Token) (d : Draft) :
    ∃ d₁, Reports (s.slips c) d d₁ ∧ ∀ ps d₂ us, ItemsRun eof kind d₁ vs ⟨ps, none⟩ d₂ us →
      ItemsRun eof kind d (s.tokens ++ c :: vs) ⟨s.property?.toList ++ ps, none⟩ d₂ us := by
  cases s with
  | item i ts =>
    obtain ⟨name, ws, d₁, hafter, hname, hquiet, hrun⟩ :=
      (IsPlainItem.spells hs (c :: vs)).quiet_run eof hs.2 d
    exact ⟨d₁, hquiet.reports, fun ps d₂ us hrest => .more hafter hname hrun (.comma hc) hrest⟩
  | mistake ts =>
    obtain ⟨x, d₁, hx, hquiet, hrun⟩ :=
      IsMistake.items_run eof hs (by rw [hc]; rfl) (fun hne => absurd hc hne) vs d
    refine ⟨_, hquiet.report hx, fun ps d₂ us hrest => hrun _ d₂ us ?_⟩
    have hskip : skipItem 0 (c :: vs) = vs := by simp [skipItem, hc]
    rw [hskip]
    exact hrest

/-- The last segment of a block is read, or reported and skipped, with the end of the block. -/
theorem Segment.Fits.items_run_last {s : Segment} (hs : s.Fits kind)
    (hne : ∀ ts, s = .mistake ts → ¬ AllComments ts) (h : Closing (n :: vs) us) (d : Draft) :
    ∃ d₁, Reports (s.slips n) d d₁ ∧
      ItemsRun eof kind d (s.tokens ++ n :: vs) ⟨s.property?.toList, none⟩ d₁ us := by
  obtain ⟨hn, hskip⟩ := h.ends
  cases s with
  | item i ts =>
    obtain ⟨name, ws, d₁, hafter, hname, hquiet, hrun⟩ :=
      (IsPlainItem.spells hs (n :: vs)).quiet_run eof hs.2 d
    have hlast : Separation eof d₁ (n :: vs) d₁ (n :: vs) := by
      obtain ⟨cs, c, hcs, hc, heq⟩ := h
      rw [heq]
      refine .last (startsWith_comma_spelled hcs hc us) ?_
      rw [hcs.after_cons (by simp [hc]), here_cons, hc]
      rfl
    exact ⟨d₁, hquiet.reports, .more hafter hname hrun hlast (h.items_run eof d₁)⟩
  | mistake ts =>
    obtain ⟨x, d₁, hx, hquiet, hrun⟩ :=
      IsMistake.items_run eof hs hn (fun _ => hne ts rfl) vs d
    exact ⟨_, hquiet.report hx, hrun _ _ us (hskip.items_run eof _)⟩

/-- The first of the segments stands in front. -/
theorem Content.exists_item {i : ItemTree} {is : List Token} {ss : List Segment} {xs : List Slip}
    (h : Content kind (.item i is :: ss) xs ts us) :
    IsPlainItem kind i is ∧ ∃ vs, ts = is ++ vs := by
  cases h with
  | last hs hne he => exact ⟨hs, _, rfl⟩
  | trailing hs hc he => exact ⟨hs, _, rfl⟩
  | comma hs hc h => exact ⟨hs, _, rfl⟩
  | missing hi h => exact ⟨hi, _, rfl⟩

theorem Content.items_run {ss : List Segment} {xs : List Slip} (h : Content kind ss xs ts us)
    (d : Draft) : ∃ d₁, Reports xs d d₁ ∧
      ItemsRun eof kind d ts ⟨ss.filterMap Segment.property?, none⟩ d₁ us := by
  induction h generalizing d with
  | @last s n vs us hs hne he =>
    obtain ⟨d₁, hreports, hrun⟩ := hs.items_run_last eof hne he d
    rw [s.filterMap_property_cons, List.filterMap_nil, List.append_nil]
    exact ⟨d₁, hreports, hrun⟩
  | @trailing s c vs us hs hc he =>
    obtain ⟨d₁, hreports, hrun⟩ := hs.items_run_comma eof hc vs d
    rw [s.filterMap_property_cons]
    exact ⟨d₁, hreports, hrun _ _ us (he.items_run eof d₁)⟩
  | @comma s c ss xs vs us hs hc h ih =>
    obtain ⟨d₁, hfirst, hrun⟩ := hs.items_run_comma eof hc vs d
    obtain ⟨d₂, hrest, hruns⟩ := ih d₁
    rw [s.filterMap_property_cons]
    exact ⟨d₂, hfirst.trans hrest, hrun _ d₂ us hruns⟩
  | @missing i ts j js ss xs n vs us hi h ih =>
    obtain ⟨name, ws, d₁, hafter, hname, hquiet, hrun⟩ :=
      (hi.spells (n :: vs)).quiet_run eof hi.2 d
    obtain ⟨hj, rest, hjs⟩ := h.exists_item
    obtain ⟨second, zs, -, hsecond, hidentifier, -, -⟩ :=
      (hj.spells rest).quiet_run eof hj.2 d
    rw [← hjs] at hsecond
    have hseparation : Separation eof d₁ (n :: vs) (d₁.report (.parse .commaBetween n true))
        (n :: vs) :=
      .missing (startsWith_comma_of_after hsecond hidentifier) (by rwa [hsecond])
    obtain ⟨d₂, hrest, hruns⟩ := ih (d₁.report (.parse .commaBetween n true))
    exact ⟨d₂, (hquiet.report .comma).trans hrest, .more hafter hname hrun hseparation hruns⟩

/-- Without a name, a colon and the start of a type in front of it, a segment has no field in front
of it. -/
theorem isMistake_of_front (hk : kind ≠ .enum) (h : Enclosed ts)
    (hfront : ∀ name c t vs, afterComments ts = name :: c :: t :: vs → name.kind = .identifier →
      c.kind = .colon → startsType t.kind = false) : IsMistake kind ts := by
  refine ⟨h, ?_⟩
  rintro i us ⟨rest, rfl⟩ ⟨hi, -⟩
  cases hi with
  | value => exact absurd rfl hk
  | @field _ cs name c t ws _ _ hcs hn hc ht =>
    have hstart : ∃ w vs, ws = w :: vs ∧ startsType w.kind = true := by
      cases ht with
      | scalar hw => exact ⟨_, _, rfl, by rw [hw]; rfl⟩
      | reference hw => exact ⟨_, _, rfl, by rw [hw]; rfl⟩
      | generic hw hl he hg => exact ⟨_, _, rfl, by rw [hw]; rfl⟩
      | inline hw hk hn ho hb => exact ⟨_, _, rfl, by rw [hw]; exact hk⟩
    obtain ⟨w, vs, rfl, hw⟩ := hstart
    have hafter : afterComments (cs ++ name :: c :: w :: vs ++ rest) =
        name :: c :: w :: (vs ++ rest) := by
      rw [List.append_assoc]
      exact hcs.after_cons (by simp [hn]) _
    rw [hfront name c w (vs ++ rest) hafter hn hc] at hw
    cases hw

theorem Heading.opening_run {name : Token} {hs : List Token} (h : Heading d kind name hs)
    (ts : List Token) : ∃ w ws d₁, hs = w :: ws ∧ w.kind = .declaration kind ∧ Quiet d d₁ ∧
      OpeningRun eof kind w false d (ws ++ ts) (.ok name) d₁ ts := by
  cases h with
  | @config _ o hw hs ho =>
    exact ⟨name, [o], addConfig d, rfl, hw, ⟨rfl, rfl⟩, .opened (.config rfl hs) ho⟩
  | @named w k n name o hw hk hn hd ho =>
    exact ⟨w, [name, o], addName d n name.lexeme, rfl, hw, ⟨rfl, rfl⟩,
      .opened (.named hk hn hd) ho⟩

/-- A declaration with a correct heading is read up to the brace that closes its block, whatever
mistakes are in the block. Its properties are the items among the segments of the block, and exactly
one diagnostic is added for each mistake and each missing comma, in their order. -/
theorem round_of_content {name : Token} {cs hs : List Token} {ss : List Segment}
    {xs : List Slip} (hcs : AllComments cs) (hh : Heading d kind name hs)
    (h : Content kind ss xs ts us) :
    ∃ r ys, round eof d (cs ++ (hs ++ ts)) = some r ∧ r.rest = us ∧
      r.draft.declarations = d.declarations ++ [⟨kind, if kind = .config then "" else name.lexeme,
        some name, texts cs, ss.filterMap Segment.property?⟩] ∧
      r.draft.diagnostics = d.diagnostics ++ ys ∧ List.Forall₂ Slip.Reported xs ys := by
  obtain ⟨w, ws, d₁, rfl, hw, hquiet, hopening⟩ := hh.opening_run eof ts
  obtain ⟨d₂, hreports, hitems⟩ := h.items_run eof d₁
  obtain ⟨hdeclarations, ys, hdiagnostics, hreported⟩ := hquiet.reports.trans hreports
  have hround := RoundRun.declared (hcs.after_cons (by simp [hw]) (ws ++ ts)) hw hopening hitems
  rw [hcs.leading_cons (by simp [hw])] at hround
  obtain ⟨r, hr, -, hdraft, hrest⟩ := hround.is
  refine ⟨r, ys, hr, hrest, ?_, ?_, hreported⟩
  · rw [hdraft, Draft.push, hdeclarations]
    rfl
  · rw [hdraft, Draft.push, hdiagnostics]

/-- A segment without a colon. -/
def colonless : List Token :=
  [⟨.identifier, "a", ⟨1, 0⟩⟩, ⟨.scalar .int32, "int32", ⟨1, 2⟩⟩]

/-- A segment without a name, and with a comma that is none of its block. -/
def nameless : List Token :=
  [⟨.openCurly, "\x7b", ⟨2, 0⟩⟩, ⟨.identifier, "b", ⟨2, 1⟩⟩, ⟨.comma, ",", ⟨2, 2⟩⟩,
    ⟨.closeCurly, "\x7d", ⟨2, 3⟩⟩]

def scalarItem : List Token :=
  [⟨.identifier, "c", ⟨3, 0⟩⟩, ⟨.colon, ":", ⟨3, 1⟩⟩, ⟨.scalar .bool, "bool", ⟨3, 3⟩⟩]

def referenceItem : List Token :=
  [⟨.identifier, "d", ⟨4, 0⟩⟩, ⟨.colon, ":", ⟨4, 1⟩⟩, ⟨.identifier, "T", ⟨4, 3⟩⟩]

/-- A block with two mistakes in front of two items, between which a comma is missing. -/
def carelessBlock : List Token :=
  colonless ++ ⟨.comma, ",", ⟨1, 7⟩⟩ :: (nameless ++ ⟨.comma, ",", ⟨2, 4⟩⟩ ::
    (scalarItem ++ (referenceItem ++ ⟨.comma, ",", ⟨4, 4⟩⟩ :: [⟨.closeCurly, "\x7d", ⟨5, 0⟩⟩])))

def carelessSegments : List Segment :=
  [.mistake colonless, .mistake nameless,
    .item (.field [] ⟨.identifier, "c", ⟨3, 0⟩⟩ (.scalar ⟨.scalar .bool, "bool", ⟨3, 3⟩⟩))
      scalarItem,
    .item (.field [] ⟨.identifier, "d", ⟨4, 0⟩⟩ (.reference ⟨.identifier, "T", ⟨4, 3⟩⟩))
      referenceItem]

def carelessSlips : List Slip :=
  [.mistake colonless ⟨.comma, ",", ⟨1, 7⟩⟩, .mistake nameless ⟨.comma, ",", ⟨2, 4⟩⟩,
    .comma ⟨.identifier, "d", ⟨4, 0⟩⟩]

theorem content_carelessBlock : Content .event carelessSegments carelessSlips carelessBlock [] := by
  have hcolonless : IsMistake .event colonless := by
    refine isMistake_of_front (by simp)
      (.token (by simp) (by simp) (by simp) rfl (.token (by simp) (by simp) (by simp) rfl .nil)) ?_
    rintro name c t vs ⟨⟩
  have hnameless : IsMistake .event nameless := by
    refine isMistake_of_front (by simp)
      (.block rfl rfl (.token (by simp) (by simp) (.token (by simp) (by simp) .nil)) .nil) ?_
    rintro name c t vs ⟨⟩ ⟨⟩
  have hscalar : IsPlainItem .event (.field [] ⟨.identifier, "c", ⟨3, 0⟩⟩
      (.scalar ⟨.scalar .bool, "bool", ⟨3, 3⟩⟩)) scalarItem :=
    ⟨.field (by simp) nofun rfl rfl (.scalar rfl), rfl⟩
  have hreference : IsPlainItem .event (.field [] ⟨.identifier, "d", ⟨4, 0⟩⟩
      (.reference ⟨.identifier, "T", ⟨4, 3⟩⟩)) referenceItem :=
    ⟨.field (by simp) nofun rfl rfl (.reference rfl), rfl⟩
  have hclosing : Closing [⟨.closeCurly, "\x7d", ⟨5, 0⟩⟩] [] := ⟨[], _, nofun, rfl, rfl⟩
  have hitems := Content.missing hscalar
    (.trailing (s := .item _ referenceItem) (c := ⟨.comma, ",", ⟨4, 4⟩⟩) hreference rfl hclosing)
  exact .comma (s := .mistake colonless) hcolonless rfl
    (.comma (s := .mistake nameless) hnameless rfl hitems)

def carelessHeading : List Token :=
  [⟨.declaration .event, "event", ⟨0, 0⟩⟩, ⟨.identifier, "x", ⟨0, 6⟩⟩,
    ⟨.openCurly, "\x7b", ⟨0, 8⟩⟩]

theorem round_of_carelessBlock :
    AllComments [] ∧ Heading .empty .event ⟨.identifier, "x", ⟨0, 6⟩⟩ carelessHeading ∧
      Content .event carelessSegments carelessSlips carelessBlock [] ∧
      ∃ r ys, round (.endOfFile ⟨5, 1⟩) .empty ([] ++ (carelessHeading ++ carelessBlock)) =
          some r ∧ r.rest = [] ∧
        r.draft.declarations = [⟨.event, "x", some ⟨.identifier, "x", ⟨0, 6⟩⟩, [],
          carelessSegments.filterMap Segment.property?⟩] ∧
        r.draft.diagnostics = ys ∧ List.Forall₂ Slip.Reported carelessSlips ys := by
  have hcs : AllComments [] := nofun
  have hh : Heading .empty .event ⟨.identifier, "x", ⟨0, 6⟩⟩ carelessHeading :=
    .named (n := .events) rfl rfl rfl (by simp [Draft.empty, Scope.empty]) rfl
  exact ⟨hcs, hh, content_carelessBlock, round_of_content _ hcs hh content_carelessBlock⟩

end Blocks

end GameSchema.Grammar
