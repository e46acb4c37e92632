import GameSchema.Proofs.Grammar.Completeness

/-!
# Soundness of the grammar

A source whose form is not rejected spells a file of the language. Each outcome of a rule that is
not in the language is an error, a fault or a diagnostic that rejects, and since reading takes no
diagnostic back, none of them can be part of a run that ends without one.
-/

namespace GameSchema.Grammar
open Token Recovery

/-- Nothing that has been read rejects the form of the source. -/
def Clean (d : Draft) : Prop := ∀ x ∈ d.diagnostics, x.rejects = false

section Clean

variable {d d' : Draft} {x : Diagnostic}

theorem Clean.of_grows (h : Clean d') (hg : Grows d d') : Clean d :=
  fun x hx => h x (hg.diagnostics.subset hx)

theorem not_clean_report (hx : x.rejects = true) : ¬ Clean (d.report x) := by
  intro h
  have hfalse := h x (List.mem_append_right _ List.mem_cons_self)
  rw [hx] at hfalse
  cases hfalse

/-- No run that goes on from a report of a rejection ends without one. -/
theorem not_clean_of_report (hg : Grows (d.report x) d') (hx : x.rejects = true) : ¬ Clean d' :=
  fun h => not_clean_report hx (h.of_grows hg)

end Clean

section Rejections

variable {eof keyword : Token} {kind : DeclarationKind} {inBlock : Bool} {d d' : Draft}
  {ts us : List Token} {x : Diagnostic}

theorem HeadingRun.rejects {v : Except Diagnostic Token}
    (h : HeadingRun eof kind keyword inBlock d ts v d' us) (hv : v = .error x) :
    x.rejects = true := by
  cases h <;> cases hv <;> rfl

theorem OpeningRun.rejects {v : Except Diagnostic Token}
    (h : OpeningRun eof kind keyword inBlock d ts v d' us) (hv : v = .error x) :
    x.rejects = true := by
  cases h with
  | badHeading hh => exact hh.rejects hv
  | noBlock hh ho => cases hv; rfl
  | opened hh ho => cases hv

theorem TypeRun.rejects {mark : Char} {cs : List String} {d d' : Draft} {ts us : List Token}
    {v : Except Diagnostic PropertyType} (h : TypeRun eof mark cs d ts v d' us)
    (hv : v = .error x) : x.rejects = true := by
  match h with
  | .missing h | .noLess h hl | .noGreater h hl he hg => cases hv; rfl
  | .badElement h hl he => cases hv; exact he.rejects rfl
  | .badInline h hk ho => cases hv; exact ho.rejects rfl
  | .scalar h | .reference h | .generic h hl he hg | .inline h hk ho hb
  | .brokenInline h hk ho hb => cases hv

theorem ItemRun.rejects {cs : List String} {name : Token} {v : Except Diagnostic Property}
    (h : ItemRun eof kind cs name d ts v d' us) (hv : v = .error x) : x.rejects = true := by
  cases h with
  | value hk => cases hv
  | noColon hk hc => cases hv; rfl
  | badField hk hc ht => cases hv; exact ht.rejects rfl
  | field hk hc ht => cases hv

theorem ItemsRun.rejects {kind : DeclarationKind} {d d' : Draft} {ts us : List Token} {b : Block}
    (h : ItemsRun eof kind d ts b d' us) (hv : b.fault? = some x) : x.rejects = true := by
  match h with
  | .unterminated h | .fault h ht hi hc hn hi' => cases hv; rfl
  | .close h ht | .keyword h ht => cases hv
  | .stray h hc hd hi hr => exact hr.rejects hv
  | .badItem h ht hi hr => exact hr.rejects hv
  | .more h ht hi hs hr => exact hr.rejects hv

end Rejections

section Derivations

variable {eof : Token}

/-- Where no item starts, a block has no items left. -/
theorem SpellsItems.eq_nil {k : DeclarationKind} {is : ItemsTree} {ts us : List Token}
    (h : SpellsItems k is ts us) (hts : endsItem (here eof (afterComments ts)).kind = true) :
    is = .nil ∧ ∃ cs c, AllComments cs ∧ c.kind = .closeCurly ∧ ts = cs ++ c :: us := by
  have item {i : ItemTree} {vs : List Token} (hi : SpellsItem k i ts vs) :
      endsItem (here eof (afterComments ts)).kind = false := by
    have spelled {cs vs : List Token} {name : Token} (hcs : AllComments cs)
        (hn : name.kind = .identifier) :
        endsItem (here eof (afterComments (cs ++ name :: vs))).kind = false := by
      rw [hcs.after_cons (by simp [hn]), here_cons, hn]
      rfl
    cases hi with
    | value hcs hn => exact spelled hcs hn
    | field hk hcs hn hc ht => exact spelled hcs hn
  cases h with
  | close hcs hc => exact ⟨rfl, _, _, hcs, hc, rfl⟩
  | last hi hcs hc => rw [item hi] at hts; cases hts
  | comma hi hc hr => rw [item hi] at hts; cases hts

mutual

theorem TypeRun.spells {mark : Char} {cs : List String} {d d' : Draft} {ts us : List Token}
    {v : Except Diagnostic PropertyType} {p : PropertyType}
    (h : TypeRun eof mark cs d ts v d' us) (hv : v = .ok p) (hclean : Clean d') :
    ∃ t, SpellsType t ts us ∧ d'.scope = d.scope.gain t.names t.references := by
  match h with
  | .missing h | .noLess h hl | .badElement h hl he | .noGreater h hl he hg | .badInline h hk ho =>
    cases hv
  | .scalar h => exact ⟨_, .scalar h, by simp [TypeTree.names, TypeTree.references]⟩
  | .reference h => exact ⟨_, .reference h, refer_scope d _⟩
  | .generic h hl he hg =>
    obtain ⟨t, ht, hscope⟩ := he.spells rfl hclean
    exact ⟨_, .generic h hl ht hg, hscope⟩
  | @TypeRun.inline _ _ _ _ _ _ k _ _ _ _ d₂ _ h hk ho hb =>
    obtain ⟨is, his, hscope⟩ := hb.spells rfl hclean
    cases ho with
    | opened hh ho =>
      cases hh with
      | config hconfig hs => rw [hconfig] at hk; cases hk
      | named hn hname hd =>
        obtain rfl : _ = Namespace.types := by simpa [DeclarationKind.isType, hn] using hk
        refine ⟨_, .inline h hk hname ho his, ?_⟩
        rw [addName_scope] at hscope
        simpa [Draft.push, TypeTree.names, TypeTree.references] using hscope
  | .brokenInline h hk ho hb =>
    exact absurd hclean (not_clean_report (hb.rejects rfl))

theorem ItemRun.spells {kind : DeclarationKind} {cs : List String} {name : Token} {d d' : Draft}
    {ts us : List Token} {v : Except Diagnostic Property} {p : Property}
    (h : ItemRun eof kind cs name d ts v d' us) (hv : v = .ok p) (hclean : Clean d')
    (hn : name.kind = .identifier) {ls : List Token} (hls : AllComments ls) :
    ∃ i, SpellsItem kind i (ls ++ name :: ts) us ∧
      d'.scope = d.scope.gain i.names i.references := by
  match h with
  | .value hk =>
    subst hk
    exact ⟨_, .value hls hn, by simp [ItemTree.names, ItemTree.references]⟩
  | .noColon hk hc | .badField hk hc ht => cases hv
  | .field hk hc ht =>
    obtain ⟨t, ht, hscope⟩ := ht.spells rfl hclean
    exact ⟨_, .field hk hls hn hc ht, hscope⟩

theorem ItemsRun.spells {kind : DeclarationKind} {d d' : Draft} {ts us : List Token} {b : Block}
    (h : ItemsRun eof kind d ts b d' us) (hb : b.fault? = none) (hclean : Clean d') :
    ∃ is, SpellsItems kind is ts us ∧ d'.scope = d.scope.gain is.names is.references := by
  match h with
  | .unterminated h | .fault h ht hi hc hn hi' => cases hb
  | .close h ht =>
    obtain ⟨cs, hcs, rfl⟩ := exists_comments h
    exact ⟨_, .close hcs ht, by simp [ItemsTree.names, ItemsTree.references]⟩
  | .keyword h ht => exact absurd hclean (not_clean_report rfl)
  | .stray h hc hd hi hr => exact absurd hclean (not_clean_of_report hr.grows rfl)
  | .badItem h ht hi hr => exact absurd hclean (not_clean_of_report hr.grows (hi.rejects rfl))
  | .more h ht hi hs hr =>
    obtain ⟨cs, hcs, hts⟩ := exists_comments h
    obtain ⟨is, his, hrest⟩ := hr.spells hb hclean
    obtain ⟨i, hitem, hscope⟩ :=
      hi.spells rfl ((hclean.of_grows hr.grows).of_grows hs.grows) ht hcs
    rw [hts]
    cases hs with
    | comma hc =>
      refine ⟨_, .comma hitem hc his, ?_⟩
      rw [hrest, hscope, Scope.gain_gain]
      rfl
    | missing hc hn => exact absurd hclean (not_clean_of_report hr.grows rfl)
    | last hc hv =>
      obtain ⟨rfl, cs, c, hcs, hclose, rfl⟩ := his.eq_nil hv
      refine ⟨_, .last hitem hcs hclose, ?_⟩
      rw [hrest, hscope, Scope.gain_gain]
      rfl

end

theorem RoundRun.spells {d d' : Draft} {ts us : List Token} (h : RoundRun eof d ts d' us)
    (hclean : Clean d') :
    ∃ t, SpellsDeclaration t ts us ∧ d'.scope.declared = d.scope.declared ++ t.names ∧
      d'.scope.configSeen.toNat =
        d.scope.configSeen.toNat + if t.kind = .config then 1 else 0 := by
  cases h with
  | foreign h ht => exact absurd hclean (not_clean_report rfl)
  | badOpening h ht ho => exact absurd hclean (not_clean_report (ho.rejects rfl))
  | broken h ht ho hb => exact absurd hclean (not_clean_report (hb.rejects rfl))
  | @declared t _ k name _ _ _ _ _ h ht ho hb =>
    obtain ⟨cs, hcs, rfl⟩ := exists_comments h
    obtain ⟨is, his, hscope⟩ := hb.spells rfl hclean
    cases ho with
    | opened hh ho =>
      cases hh with
      | config hk hs =>
        subst hk
        refine ⟨_, .config hcs ht ho his, ?_⟩
        simp [Draft.push, hscope, addConfig, hs, DeclarationTree.names, DeclarationKind.scope?]
      | named hn hname hd =>
        have hk := DeclarationKind.ne_config_of_scope hn
        refine ⟨_, .named hcs ht hk hname ho his, ?_⟩
        simp [Draft.push, hscope, addName_scope, hk, DeclarationTree.names, hn]

theorem FileRun.spells {d d' : Draft} {ts : List Token} (h : FileRun eof d ts d')
    (hclean : Clean d') :
    ∃ ds, SpellsDeclarations ds ts ∧
      d'.scope.declared = d.scope.declared ++ ds.flatMap (·.names) ∧
      d'.scope.configSeen.toNat =
        d.scope.configSeen.toNat + ds.countP fun t => t.kind == .config := by
  induction h with
  | done h => exact ⟨[], .done (allComments_of_after h), by simp, by simp⟩
  | step hr h ih =>
    obtain ⟨ds, hds, hnames, hseen⟩ := ih hclean
    obtain ⟨t, ht, hfirst, hconfig⟩ := hr.spells (hclean.of_grows h.grows)
    refine ⟨t :: ds, .cons ht hds, ?_, ?_⟩
    · rw [hnames, hfirst, List.flatMap_cons, List.append_assoc]
    · simp only [List.countP_cons, beq_iff_eq]
      omega

theorem EntryRun.found_of_ok {keyword value : TokenKind}
    {keywordWanted valueWanted : Expectation} {ts us : List Token} {v : Except Diagnostic Token}
    {t : Token} (h : EntryRun eof keyword value keywordWanted valueWanted ts v us)
    (hv : v = .ok t) : ∃ k, k.kind = keyword ∧ t.kind = value ∧ ts = k :: t :: us := by
  cases h with
  | noKeyword hk => cases hv
  | noValue hk hn => cases hv
  | found hk hn => cases hv; exact ⟨_, hk, hn, rfl⟩

theorem EntryRun.rejects {keyword value : TokenKind} {keywordWanted valueWanted : Expectation}
    {ts us : List Token} {v : Except Diagnostic Token} {x : Diagnostic}
    (h : EntryRun eof keyword value keywordWanted valueWanted ts v us) (hv : v = .error x) :
    x.rejects = true := by
  cases h <;> cases hv <;> rfl

theorem checkVersion_grows (compiler : String) (d : Draft) (v : Except Diagnostic Token) :
    Grows d (checkVersion compiler d v) := by
  cases v with
  | error x => exact .report d x
  | ok t =>
    simp only [checkVersion]
    split
    · exact .refl d
    · exact .report d _

theorem HeaderRun.spells {compiler : String} {m : Metadata} {d : Draft} {ts us : List Token}
    (h : HeaderRun eof compiler ts m d us) (hclean : Clean d) :
    ∃ cs n name v version, AllComments cs ∧ n.kind = .name ∧ name.kind = .identifier ∧
      v.kind = .version ∧ version.kind = .versionNumber ∧
      ts = cs ++ n :: name :: v :: version :: us ∧ d.scope = .empty := by
  cases h with
  | @mk name us version vs hn hv =>
    cases name with
    | error x =>
      exact absurd hclean (not_clean_of_report (checkVersion_grows _ _ _) (hn.rejects rfl))
    | ok name =>
      cases version with
      | error x => exact absurd hclean (not_clean_report (hv.rejects rfl))
      | ok version =>
        obtain ⟨n, hname, hidentifier, hts⟩ := hn.found_of_ok rfl
        obtain ⟨v, hkeyword, hnumber, rfl⟩ := hv.found_of_ok rfl
        obtain ⟨cs, hcs, rfl⟩ := exists_comments hts
        refine ⟨cs, n, name, v, version, hcs, hname, hidentifier, hkeyword, hnumber, rfl, ?_⟩
        simp only [checkVersion]
        split <;> rfl

end Derivations

/-- A stream whose form is not rejected spells a file. -/
theorem exists_spells {compiler : String} {s : TokenStream} (hend : s.eof.kind = .eof)
    (hclean : Clean (finalDraft compiler s)) :
    ∃ f, SpellsFile f s.toList ∧ f.names.Nodup ∧ f.configs ≤ 1 := by
  obtain ⟨d, us, hheader, hfile⟩ := finalDraft_run compiler s
  obtain ⟨cs, n, name, v, version, hcs, hn, hname, hv, hversion, hts, hscope⟩ :=
    hheader.spells (hclean.of_grows hfile.grows)
  obtain ⟨ds, hds, hnames, hseen⟩ := hfile.spells hclean
  have hnodup := hfile.grows.nodup (by rw [hscope]; simp [Scope.empty])
  simp only [hnames, hscope, Scope.empty, List.nil_append] at hnodup
  simp only [hscope, Scope.empty, Bool.toNat_false, Nat.zero_add] at hseen
  refine ⟨⟨cs, name, version, ds⟩, ?_, hnodup, ?_⟩
  · rw [TokenStream.toList, hts, List.append_assoc]
    exact .mk hcs hn hname hv hversion hds hend
  · have hle := Bool.toNat_le (finalDraft compiler s).scope.configSeen
    rw [hseen] at hle
    exact hle

/-- The lists of tokens whose form is not rejected are the files of the language, up to their first
end of file, in which each name is declared once in its namespace and the config at most once. -/
theorem accepted_iff_spells (compiler : String) (ts : List Token) :
    (∀ x ∈ (parse compiler ts).diagnostics, x.rejects = false) ↔
      ∃ f, SpellsFile f (TokenStream.ofList ts).toList ∧ f.names.Nodup ∧ f.configs ≤ 1 := by
  constructor
  · intro h
    have hclean : Clean (finalDraft compiler (.ofList ts)) :=
      fun x hx => h x (List.mem_append_left _ hx)
    exact exists_spells (TokenStream.eof_kind ts) hclean
  · rintro ⟨f, hf, hnames, hconfig⟩ x hx
    exact hf.accepted hnames hconfig compiler hx

end GameSchema.Grammar
