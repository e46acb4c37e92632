import GameSchema.Proofs.Grammar.Growth
import GameSchema.Proofs.Schema.Resolution

/-!
# Binding of types

Every type in a draft is either bound to the declaration that it names, or no identifier, or one of
the references that are bound when everything is read. A type is bound early only where a
declaration stands inside it, to the place where that declaration is about to be put.
-/

namespace GameSchema

/-- Every declaration of a draft has a name token, and its types are bound. -/
structure WellBound (d : Draft) : Prop where
  named : ∀ x ∈ d.declarations, x.nameToken ≠ none
  bound : ∀ x ∈ d.declarations, BoundProperties d.declarations d.scope.references x.properties

section Steps

variable {ds : List Declaration} {rs : List Token} {d : Draft}

theorem WellBound.report (h : WellBound d) (x : Diagnostic) : WellBound (d.report x) :=
  ⟨h.named, h.bound⟩

theorem WellBound.refer (h : WellBound d) (t : Token) : WellBound (d.refer t) := by
  refine ⟨h.named, ?_⟩
  intro x hx
  exact (h.bound x hx).mono List.prefix_rfl (List.prefix_append _ _)

theorem WellBound.push (h : WellBound d) {x : Declaration} (hx : x.nameToken ≠ none)
    (hp : BoundProperties d.declarations d.scope.references x.properties) :
    WellBound (d.push x) := by
  constructor
  · intro y hy
    rcases List.mem_append.1 hy with hy | hy
    · exact h.named y hy
    · rw [List.mem_singleton.1 hy]
      exact hx
  · intro y hy
    rcases List.mem_append.1 hy with hy | hy
    · exact (h.bound y hy).mono (List.prefix_append _ _) List.prefix_rfl
    · rw [List.mem_singleton.1 hy]
      exact hp.mono (List.prefix_append _ _) List.prefix_rfl

/-- A token that is no identifier needs no declaration. -/
theorem bound_plain {t : Token} (ht : t.kind ≠ .identifier) : Bound ds rs (.plain t none) := by
  constructor
  · intro i hi
    cases hi
  · intro _ hkind
    exact absurd hkind ht

theorem bound_generic {t : Token} {e : PropertyType} (ht : t.kind ≠ .identifier)
    (he : ∀ u ∈ e.chain, Bound ds rs u) :
    ∀ u ∈ (PropertyType.generic t none e).chain, Bound ds rs u := by
  intro u hu
  rcases List.mem_cons.1 hu with rfl | hu
  · constructor
    · intro i hi
      cases hi
    · intro _ hkind
      exact absurd hkind ht
  · exact he u hu

theorem bound_reference {t : Token} (ht : t ∈ rs) : Bound ds rs (.plain t none) := by
  constructor
  · intro i hi
    cases hi
  · intro _ _
    exact ht

/-- The place behind all declarations is that of the next one. -/
theorem bound_push {x : Declaration} {name : Token} (hkind : name.kind = .identifier)
    (hx : x.isType = true) (hname : x.name = name.lexeme) :
    Bound (d.push x).declarations rs (.plain name (some d.declarations.length)) := by
  constructor
  · rintro i ⟨⟩
    exact ⟨hkind, x, List.getElem?_concat_length, hx, hname⟩
  · intro hnone
    cases hnone

end Steps

namespace Grammar
open Token Recovery

variable {eof : Token}

theorem HeadingRun.wellBound {kind : DeclarationKind} {keyword : Token} {inBlock : Bool}
    {d d' : Draft} {ts us : List Token} {v : Except Diagnostic Token}
    (h : HeadingRun eof kind keyword inBlock d ts v d' us) (hd : WellBound d) : WellBound d' := by
  cases h with
  | config hk hs => exact ⟨hd.named, hd.bound⟩
  | secondConfig hk hs => exact hd
  | unnamed hk hn => exact hd
  | duplicate hk hn hdup => exact hd
  | named hk hn hnew => exact ⟨hd.named, hd.bound⟩

theorem OpeningRun.wellBound {kind : DeclarationKind} {keyword : Token} {inBlock : Bool}
    {d d' : Draft} {ts us : List Token} {v : Except Diagnostic Token}
    (h : OpeningRun eof kind keyword inBlock d ts v d' us) (hd : WellBound d) : WellBound d' := by
  cases h with
  | badHeading hh => exact hh.wellBound hd
  | noBlock hh ho => exact hh.wellBound hd
  | opened hh ho => exact hh.wellBound hd

/-- The name of a declaration that is no config is an identifier. -/
theorem OpeningRun.name_kind {kind : DeclarationKind} {keyword name : Token} {inBlock : Bool}
    {d d' : Draft} {ts us : List Token}
    (h : OpeningRun eof kind keyword inBlock d ts (.ok name) d' us) (hk : kind ≠ .config) :
    name.kind = .identifier := by
  cases h with
  | opened hh ho =>
    cases hh with
    | config hc hs => exact absurd hc hk
    | named hscope hn hnew => exact hn

theorem Separation.wellBound {d d' : Draft} {ts us : List Token} (h : Separation eof d ts d' us)
    (hd : WellBound d) : WellBound d' := by
  cases h with
  | comma hc => exact hd
  | missing hc hn => exact hd.report _
  | last hc hv => exact hd

mutual

theorem TypeRun.wellBound {mark : Char} {cs : List String} {d d' : Draft} {ts us : List Token}
    {v : Except Diagnostic PropertyType} (h : TypeRun eof mark cs d ts v d' us)
    (hd : WellBound d) :
    WellBound d' ∧
      ∀ p, v = .ok p → ∀ u ∈ p.chain, Bound d'.declarations d'.scope.references u := by
  match h with
  | .missing h | .noLess h hl => exact ⟨hd, by rintro p ⟨⟩⟩
  | .badElement h hl he | .noGreater h hl he hg => exact ⟨(he.wellBound hd).1, by rintro p ⟨⟩⟩
  | .badInline h hk ho => exact ⟨ho.wellBound hd, by rintro p ⟨⟩⟩
  | .scalar h =>
    refine ⟨hd, ?_⟩
    rintro p ⟨⟩ u hu
    rw [List.mem_singleton.1 hu]
    exact bound_plain (by simp [h])
  | .reference h =>
    refine ⟨hd.refer _, ?_⟩
    rintro p ⟨⟩ u hu
    rw [List.mem_singleton.1 hu]
    exact bound_reference (List.mem_append_right _ List.mem_cons_self)
  | .generic h hl he hg =>
    obtain ⟨hbound, helement⟩ := he.wellBound hd
    refine ⟨hbound, ?_⟩
    rintro p ⟨⟩
    exact bound_generic (by simp [h]) (helement _ rfl)
  | .inline h hk ho hb =>
    obtain ⟨hbound, hitems⟩ := hb.wellBound (ho.wellBound hd)
    refine ⟨hbound.push (by simp) hitems, ?_⟩
    rintro p ⟨⟩ u hu
    rw [List.mem_singleton.1 hu]
    exact bound_push (ho.name_kind (by rintro rfl; cases hk)) hk rfl
  | .brokenInline h hk ho hb =>
    obtain ⟨hbound, hitems⟩ := hb.wellBound (ho.wellBound hd)
    refine ⟨(hbound.report _).push (by simp) hitems, ?_⟩
    rintro p ⟨⟩ u hu
    rw [List.mem_singleton.1 hu]
    exact bound_push (ho.name_kind (by rintro rfl; cases hk)) hk rfl

theorem ItemRun.wellBound {kind : DeclarationKind} {cs : List String} {name : Token} {d d' : Draft}
    {ts us : List Token} {v : Except Diagnostic Property}
    (h : ItemRun eof kind cs name d ts v d' us) (hd : WellBound d) :
    WellBound d' ∧
      ∀ p, v = .ok p → BoundProperties d'.declarations d'.scope.references [p] := by
  match h with
  | .value hk =>
    refine ⟨hd, ?_⟩
    rintro p ⟨⟩ q hq t ht
    rw [List.mem_singleton.1 hq] at ht
    cases ht
  | .noColon hk hc => exact ⟨hd, by rintro p ⟨⟩⟩
  | .badField hk hc ht => exact ⟨(ht.wellBound hd).1, by rintro p ⟨⟩⟩
  | .field hk hc ht =>
    obtain ⟨hbound, htype⟩ := ht.wellBound hd
    refine ⟨hbound, ?_⟩
    rintro p ⟨⟩ q hq t ht
    rw [List.mem_singleton.1 hq] at ht
    cases ht
    exact htype _ rfl

theorem ItemsRun.wellBound {kind : DeclarationKind} {d d' : Draft} {ts us : List Token} {b : Block}
    (h : ItemsRun eof kind d ts b d' us) (hd : WellBound d) :
    WellBound d' ∧ BoundProperties d'.declarations d'.scope.references b.items := by
  have hnil (e : Draft) : BoundProperties e.declarations e.scope.references [] := by
    intro p hp
    cases hp
  match h with
  | .unterminated h | .close h ht => exact ⟨hd, hnil _⟩
  | .keyword h ht => exact ⟨hd.report _, hnil _⟩
  | .stray h hc hk hi hr => exact hr.wellBound (hd.report _)
  | .badItem h ht hi hr => exact hr.wellBound ((hi.wellBound hd).1.report _)
  | .more h ht hi hs hr =>
    obtain ⟨hbound, hitem⟩ := hi.wellBound hd
    obtain ⟨hall, hrest⟩ := hr.wellBound (hs.wellBound hbound)
    have hgrows := hs.grows.trans hr.grows
    refine ⟨hall, ?_⟩
    intro p hp
    rcases List.mem_cons.1 hp with rfl | hp
    · exact (hitem p rfl).mono hgrows.declarations hgrows.references p List.mem_cons_self
    · exact hrest p hp
  | .fault h ht hi hc hn hi' =>
    obtain ⟨hbound, hitem⟩ := hi.wellBound hd
    exact ⟨hbound, hitem _ rfl⟩

end

theorem RoundRun.wellBound {d d' : Draft} {ts us : List Token} (h : RoundRun eof d ts d' us)
    (hd : WellBound d) : WellBound d' := by
  cases h with
  | foreign h ht => exact hd.report _
  | badOpening h ht ho => exact (ho.wellBound hd).report _
  | declared h ht ho hb =>
    obtain ⟨hbound, hitems⟩ := hb.wellBound (ho.wellBound hd)
    exact hbound.push (by simp) hitems
  | broken h ht ho hb => exact (hb.wellBound (ho.wellBound hd)).1.report _

/-- The header declares nothing. -/
theorem HeaderRun.declarations_eq_nil {compiler : String} {m : Metadata} {d : Draft}
    {ts us : List Token} (h : HeaderRun eof compiler ts m d us) : d.declarations = [] := by
  cases h with
  | mk hn hv =>
    rename_i name us version
    have hname : (Draft.empty.reportError name).declarations = [] := by cases name <;> rfl
    cases version with
    | error x => exact hname
    | ok t =>
      simp only [checkVersion]
      split <;> exact hname

theorem HeaderRun.wellBound {compiler : String} {m : Metadata} {d : Draft} {ts us : List Token}
    (h : HeaderRun eof compiler ts m d us) : WellBound d := by
  have hempty := h.declarations_eq_nil
  constructor
  · intro x hx
    rw [hempty] at hx
    cases hx
  · intro x hx
    rw [hempty] at hx
    cases hx

theorem FileRun.wellBound {d d' : Draft} {ts : List Token} (h : FileRun eof d ts d')
    (hd : WellBound d) : WellBound d' := by
  induction h with
  | done h => exact hd
  | step hr h ih => exact ih (hr.wellBound hd)

theorem wellBound_finalDraft (compiler : String) (s : TokenStream) :
    WellBound (finalDraft compiler s) := by
  obtain ⟨d, ts, hheader, hfile⟩ := finalDraft_run compiler s
  exact hfile.wellBound hheader.wellBound

end Grammar

end GameSchema
