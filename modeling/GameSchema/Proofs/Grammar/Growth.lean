import GameSchema.Proofs.Grammar.Run

/-!
# Growth of drafts

Reading only adds to a draft: no rule takes back a declaration, a reference, a name or a diagnostic,
and no name is declared twice in its namespace.
-/

namespace GameSchema

/-- The scope after further names and references. -/
def Scope.gain (s : Scope) (names : List (Namespace × String)) (references : List Token) : Scope :=
  ⟨s.declared ++ names, s.references ++ references, s.configSeen⟩

@[simp] theorem Scope.gain_nil (s : Scope) : s.gain [] [] = s := by simp [gain]

@[simp] theorem Scope.gain_gain (s : Scope) (ns ms : List (Namespace × String))
    (rs qs : List Token) : (s.gain ns rs).gain ms qs = s.gain (ns ++ ms) (rs ++ qs) := by
  simp [gain]

@[simp] theorem Scope.gain_declared (s : Scope) (ns : List (Namespace × String))
    (rs : List Token) : (s.gain ns rs).declared = s.declared ++ ns := rfl

@[simp] theorem Scope.gain_references (s : Scope) (ns : List (Namespace × String))
    (rs : List Token) : (s.gain ns rs).references = s.references ++ rs := rfl

@[simp] theorem Scope.gain_configSeen (s : Scope) (ns : List (Namespace × String))
    (rs : List Token) : (s.gain ns rs).configSeen = s.configSeen := rfl

namespace Grammar
open Token Recovery

theorem refer_scope (d : Draft) (t : Token) : (d.refer t).scope = d.scope.gain [] [t] := by
  simp [Draft.refer, Scope.refer, Scope.gain]

theorem addName_scope (d : Draft) (n : Namespace) (name : String) :
    (addName d n name).scope = d.scope.gain [(n, name)] [] := by
  simp [addName, Scope.gain]

/-- What has been gathered stays, and names that are distinct stay distinct. -/
structure Grows (d d' : Draft) : Prop where
  declarations : d.declarations <+: d'.declarations
  references : d.scope.references <+: d'.scope.references
  diagnostics : d.diagnostics <+: d'.diagnostics
  nodup : d.scope.declared.Nodup → d'.scope.declared.Nodup

section Steps

variable {d d' d'' : Draft}

theorem Grows.refl (d : Draft) : Grows d d :=
  ⟨List.prefix_rfl, List.prefix_rfl, List.prefix_rfl, id⟩

theorem Grows.trans (h : Grows d d') (h' : Grows d' d'') : Grows d d'' := by
  constructor
  · exact h.declarations.trans h'.declarations
  · exact h.references.trans h'.references
  · exact h.diagnostics.trans h'.diagnostics
  · intro hd
    exact h'.nodup (h.nodup hd)

theorem Grows.report (d : Draft) (x : Diagnostic) : Grows d (d.report x) :=
  ⟨List.prefix_rfl, List.prefix_rfl, List.prefix_append _ _, id⟩

theorem Grows.refer (d : Draft) (t : Token) : Grows d (d.refer t) :=
  ⟨List.prefix_rfl, List.prefix_append _ _, List.prefix_rfl, id⟩

theorem Grows.push (d : Draft) (x : Declaration) : Grows d (d.push x) :=
  ⟨List.prefix_append _ _, List.prefix_rfl, List.prefix_rfl, id⟩

theorem Grows.addConfig (d : Draft) : Grows d (addConfig d) :=
  ⟨List.prefix_rfl, List.prefix_rfl, List.prefix_rfl, id⟩

theorem Grows.addName {n : Namespace} {name : String} (h : (n, name) ∉ d.scope.declared) :
    Grows d (addName d n name) := by
  refine ⟨List.prefix_rfl, List.prefix_rfl, List.prefix_rfl, ?_⟩
  intro hd
  apply List.nodup_append.2
  refine ⟨hd, by simp, ?_⟩
  intro a ha b hb
  rw [List.mem_singleton.1 hb]
  rintro rfl
  exact h ha

end Steps

section Runs

variable {eof keyword : Token} {kind : DeclarationKind} {inBlock : Bool} {d d' : Draft}
  {ts us : List Token}

theorem HeadingRun.grows {v : Except Diagnostic Token}
    (h : HeadingRun eof kind keyword inBlock d ts v d' us) : Grows d d' := by
  cases h with
  | config hk hs => exact .addConfig d
  | secondConfig hk hs => exact .refl d
  | unnamed hk hn => exact .refl d
  | duplicate hk hn hd => exact .refl d
  | named hk hn hd => exact .addName hd

theorem OpeningRun.grows {v : Except Diagnostic Token}
    (h : OpeningRun eof kind keyword inBlock d ts v d' us) : Grows d d' := by
  cases h with
  | badHeading hh => exact hh.grows
  | noBlock hh ho => exact hh.grows
  | opened hh ho => exact hh.grows

theorem Separation.grows (h : Separation eof d ts d' us) : Grows d d' := by
  cases h with
  | comma hc => exact .refl d
  | missing hc hn => exact .report d _
  | last hc hv => exact .refl d

mutual

theorem TypeRun.grows {mark : Char} {cs : List String} {d d' : Draft} {ts us : List Token}
    {v : Except Diagnostic PropertyType} (h : TypeRun eof mark cs d ts v d' us) : Grows d d' := by
  match h with
  | .missing h => exact .refl d
  | .scalar h => exact .refl d
  | .reference h => exact .refer d _
  | .noLess h hl => exact .refl d
  | .badElement h hl he => exact he.grows
  | .noGreater h hl he hg => exact he.grows
  | .generic h hl he hg => exact he.grows
  | .badInline h hk ho => exact ho.grows
  | .inline h hk ho hb => exact (ho.grows.trans hb.grows).trans (.push _ _)
  | .brokenInline h hk ho hb =>
    exact ((ho.grows.trans hb.grows).trans (.report _ _)).trans (.push _ _)

theorem ItemRun.grows {kind : DeclarationKind} {cs : List String} {name : Token} {d d' : Draft}
    {ts us : List Token} {v : Except Diagnostic Property}
    (h : ItemRun eof kind cs name d ts v d' us) : Grows d d' := by
  match h with
  | .value hk => exact .refl d
  | .noColon hk hc => exact .refl d
  | .badField hk hc ht => exact ht.grows
  | .field hk hc ht => exact ht.grows

theorem ItemsRun.grows {kind : DeclarationKind} {d d' : Draft} {ts us : List Token} {b : Block}
    (h : ItemsRun eof kind d ts b d' us) : Grows d d' := by
  match h with
  | .unterminated h => exact .refl d
  | .close h ht => exact .refl d
  | .keyword h ht => exact .report d _
  | .stray h hc hd hi hr => exact (Grows.report d _).trans hr.grows
  | .badItem h ht hi hr => exact (hi.grows.trans (.report _ _)).trans hr.grows
  | .more h ht hi hs hr => exact (hi.grows.trans hs.grows).trans hr.grows
  | .fault h ht hi hc hv hn => exact hi.grows

end

theorem RoundRun.grows (h : RoundRun eof d ts d' us) : Grows d d' := by
  cases h with
  | foreign h ht => exact .report d _
  | badOpening h ht ho => exact ho.grows.trans (.report _ _)
  | declared h ht ho hb => exact (ho.grows.trans hb.grows).trans (.push _ _)
  | broken h ht ho hb => exact (ho.grows.trans hb.grows).trans (.report _ _)

theorem FileRun.grows (h : FileRun eof d ts d') : Grows d d' := by
  induction h with
  | done h => exact .refl _
  | step hr h ih => exact hr.grows.trans ih

end Runs

end Grammar

end GameSchema
