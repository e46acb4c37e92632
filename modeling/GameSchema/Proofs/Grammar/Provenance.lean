import GameSchema.Proofs.Grammar.Binding
import GameSchema.Proofs.Grammar.Result
import GameSchema.Proofs.Schema.Containment
import GameSchema.Proofs.Token.Geometry

/-!
# Where the tokens of a draft come from

Reading makes no tokens up. Those at which it finds something wrong, those that it takes for
references and those that name declarations are all tokens of the stream, its end included.
-/

namespace GameSchema

/-- A diagnostic that stands at one of some tokens. -/
def Diagnostic.At (source : List Token) (x : Diagnostic) : Prop := ∃ t ∈ source, x.token? = some t

/-- A declaration whose name is spelled by one of some tokens. The config has a token, but no
name. -/
def Declaration.NamedBy (source : List Token) (x : Declaration) : Prop :=
  ∃ t ∈ source, x.nameToken = some t ∧
    (x.kind ≠ .config → t.kind = .identifier ∧ t.lexeme = x.name)

/-- The tokens of a draft are among some given ones. -/
structure Draft.From (source : List Token) (d : Draft) : Prop where
  diagnostics : ∀ x ∈ d.diagnostics, x.At source
  references : d.scope.references ⊆ source
  named : ∀ x ∈ d.declarations, x.NamedBy source

namespace Draft.From

variable {source : List Token} {d : Draft}

theorem report (h : d.From source) {x : Diagnostic} (hx : x.At source) :
    (d.report x).From source := by
  refine ⟨?_, h.references, h.named⟩
  intro y hy
  rcases List.mem_append.1 hy with hy | hy
  · exact h.diagnostics y hy
  · rw [List.mem_singleton.1 hy]
    exact hx

theorem refer (h : d.From source) {t : Token} (ht : t ∈ source) : (d.refer t).From source := by
  refine ⟨h.diagnostics, ?_, h.named⟩
  exact List.append_subset.2 ⟨h.references, by simpa using ht⟩

theorem push (h : d.From source) {x : Declaration} (hx : x.NamedBy source) :
    (d.push x).From source := by
  refine ⟨h.diagnostics, h.references, ?_⟩
  intro y hy
  rcases List.mem_append.1 hy with hy | hy
  · exact h.named y hy
  · rw [List.mem_singleton.1 hy]
    exact hx

end Draft.From

namespace Grammar
open Token Recovery

theorem Is.suffix {α : Type} {ts us : List Token} {r : Reading α ts} {v : α} {d : Draft}
    (h : Is r v d us) : us <:+ ts := by
  obtain ⟨-, -, rfl⟩ := h
  exact r.suffix

section Places

theorem subset_of_suffix {source ts us : List Token} (h : us <:+ ts) (hts : ts ⊆ source) :
    us ⊆ source :=
  List.Subset.trans h.subset hts

variable {source ts us : List Token} {eof t : Token} {expected : Expectation} {inBlock : Bool}

theorem here_mem (heof : eof ∈ source) (hts : ts ⊆ source) : here eof ts ∈ source := by
  cases ts with
  | nil => exact heof
  | cons t ts => exact hts List.mem_cons_self

theorem at_of_mem (ht : t ∈ source) : (Diagnostic.parse expected t inBlock).At source :=
  ⟨t, ht, rfl⟩

theorem at_here (heof : eof ∈ source) (hts : ts ⊆ source) :
    (Diagnostic.parse expected (here eof ts) inBlock).At source :=
  at_of_mem (here_mem heof hts)

theorem at_of_ok {α : Type} (a : α) :
    ∀ x, (Except.ok a : Except Diagnostic α) = .error x → x.At source := by
  rintro x ⟨⟩

theorem mem_of_error (x : Diagnostic) :
    ∀ t, (Except.error x : Except Diagnostic Token) = .ok t → t ∈ source := by
  rintro t ⟨⟩

theorem at_of_none : ∀ x, (none : Option Diagnostic) = some x → x.At source := by
  rintro x ⟨⟩

theorem subset_of_afterComments (h : afterComments ts = t :: us) (hts : ts ⊆ source) :
    t ∈ source ∧ us ⊆ source := by
  have hcons : t :: us ⊆ source := by
    rw [← h]
    exact subset_of_suffix (afterComments_suffix ts) hts
  exact List.cons_subset.1 hcons

theorem OpeningRun.subset {kind : DeclarationKind} {keyword : Token} {d d' : Draft}
    {v : Except Diagnostic Token} (h : OpeningRun eof kind keyword inBlock d ts v d' us)
    (hts : ts ⊆ source) : us ⊆ source :=
  subset_of_suffix h.is.suffix hts

theorem TypeRun.subset {mark : Char} {cs : List String} {d d' : Draft}
    {v : Except Diagnostic PropertyType} (h : TypeRun eof mark cs d ts v d' us)
    (hts : ts ⊆ source) : us ⊆ source :=
  subset_of_suffix h.is.suffix hts

theorem ItemRun.subset {kind : DeclarationKind} {cs : List String} {d d' : Draft}
    {v : Except Diagnostic Property} (h : ItemRun eof kind cs t d ts v d' us)
    (hts : ts ⊆ source) : us ⊆ source :=
  subset_of_suffix h.is.suffix hts

end Places

section Runs

variable {source : List Token} {eof : Token} (heof : eof ∈ source)

include heof

theorem HeadingRun.from {kind : DeclarationKind} {keyword : Token} {inBlock : Bool} {d d' : Draft}
    {ts us : List Token} {v : Except Diagnostic Token}
    (h : HeadingRun eof kind keyword inBlock d ts v d' us) (hd : d.From source)
    (hkeyword : keyword ∈ source) (hts : ts ⊆ source) :
    d'.From source ∧ (∀ x, v = .error x → x.At source) ∧ ∀ t, v = .ok t → t ∈ source := by
  cases h with
  | config hk hs =>
    refine ⟨⟨hd.diagnostics, hd.references, hd.named⟩, at_of_ok _, ?_⟩
    rintro t ⟨⟩
    exact hkeyword
  | secondConfig hk hs =>
    refine ⟨hd, ?_, mem_of_error _⟩
    rintro x ⟨⟩
    exact ⟨keyword, hkeyword, rfl⟩
  | unnamed hk hn =>
    refine ⟨hd, ?_, mem_of_error _⟩
    rintro x ⟨⟩
    exact at_here heof hts
  | duplicate hk hn hdup =>
    refine ⟨hd, ?_, mem_of_error _⟩
    rintro x ⟨⟩
    exact ⟨_, hts List.mem_cons_self, rfl⟩
  | named hk hn hnew =>
    refine ⟨⟨hd.diagnostics, hd.references, hd.named⟩, at_of_ok _, ?_⟩
    rintro t ⟨⟩
    exact hts List.mem_cons_self

theorem OpeningRun.from {kind : DeclarationKind} {keyword : Token} {inBlock : Bool} {d d' : Draft}
    {ts us : List Token} {v : Except Diagnostic Token}
    (h : OpeningRun eof kind keyword inBlock d ts v d' us) (hd : d.From source)
    (hkeyword : keyword ∈ source) (hts : ts ⊆ source) :
    d'.From source ∧ (∀ x, v = .error x → x.At source) ∧ ∀ t, v = .ok t → t ∈ source := by
  cases h with
  | badHeading hh => exact hh.from heof hd hkeyword hts
  | noBlock hh ho =>
    refine ⟨(hh.from heof hd hkeyword hts).1, ?_, mem_of_error _⟩
    rintro x ⟨⟩
    exact at_here heof (subset_of_suffix hh.is.suffix hts)
  | opened hh ho => exact hh.from heof hd hkeyword hts

theorem Separation.from {d d' : Draft} {ts us : List Token} (h : Separation eof d ts d' us)
    (hd : d.From source) (hts : ts ⊆ source) : d'.From source ∧ us ⊆ source := by
  cases h with
  | comma hc => exact ⟨hd, (List.cons_subset.1 hts).2⟩
  | missing hc hn => exact ⟨hd.report (at_here heof hts), hts⟩
  | last hc hv => exact ⟨hd, hts⟩

omit heof in
/-- A declaration behind its opening has the name that stands there. -/
theorem OpeningRun.namedBy {kind : DeclarationKind} {keyword name : Token} {inBlock : Bool}
    {d d' : Draft} {ts us : List Token}
    (h : OpeningRun eof kind keyword inBlock d ts (.ok name) d' us) (hname : name ∈ source)
    (written : String) (hwritten : kind ≠ .config → written = name.lexeme)
    (comments : List String) (ps : List Property) :
    (⟨kind, written, some name, comments, ps⟩ : Declaration).NamedBy source := by
  refine ⟨name, hname, rfl, ?_⟩
  intro hk
  exact ⟨h.name_kind hk, (hwritten hk).symm⟩

mutual

theorem TypeRun.from {mark : Char} {cs : List String} {d d' : Draft} {ts us : List Token}
    {v : Except Diagnostic PropertyType} (h : TypeRun eof mark cs d ts v d' us)
    (hd : d.From source) (hts : ts ⊆ source) :
    d'.From source ∧ ∀ x, v = .error x → x.At source := by
  match h with
  | .missing h =>
    refine ⟨hd, ?_⟩
    rintro x ⟨⟩
    exact at_here heof hts
  | .scalar h => exact ⟨hd, at_of_ok _⟩
  | .reference h => exact ⟨hd.refer (hts List.mem_cons_self), at_of_ok _⟩
  | .noLess h hl =>
    refine ⟨hd, ?_⟩
    rintro x ⟨⟩
    exact at_here heof (List.cons_subset.1 hts).2
  | .badElement h hl he =>
    exact he.from hd (List.cons_subset.1 (List.cons_subset.1 hts).2).2
  | .noGreater h hl he hg =>
    have hus := (List.cons_subset.1 (List.cons_subset.1 hts).2).2
    refine ⟨(he.from hd hus).1, ?_⟩
    rintro x ⟨⟩
    exact at_here heof (he.subset hus)
  | .generic h hl he hg =>
    exact ⟨(he.from hd (List.cons_subset.1 (List.cons_subset.1 hts).2).2).1, at_of_ok _⟩
  | .badInline h hk ho =>
    obtain ⟨hkeyword, hus⟩ := List.cons_subset.1 hts
    obtain ⟨hd', hfault, -⟩ := ho.from heof hd hkeyword hus
    refine ⟨hd', ?_⟩
    rintro x ⟨⟩
    exact hfault _ rfl
  | .inline h hk ho hb =>
    obtain ⟨hkeyword, hus⟩ := List.cons_subset.1 hts
    obtain ⟨hd₁, -, hname⟩ := ho.from heof hd hkeyword hus
    obtain ⟨hd₂, -⟩ := hb.from hd₁ (ho.subset hus)
    exact ⟨hd₂.push (ho.namedBy (hname _ rfl) _ (fun _ => rfl) _ _), at_of_ok _⟩
  | .brokenInline h hk ho hb =>
    obtain ⟨hkeyword, hus⟩ := List.cons_subset.1 hts
    obtain ⟨hd₁, -, hname⟩ := ho.from heof hd hkeyword hus
    obtain ⟨hd₂, hfault⟩ := hb.from hd₁ (ho.subset hus)
    have hreport := hd₂.report (hfault _ rfl)
    exact ⟨hreport.push (ho.namedBy (hname _ rfl) _ (fun _ => rfl) _ _), at_of_ok _⟩

theorem ItemRun.from {kind : DeclarationKind} {cs : List String} {name : Token} {d d' : Draft}
    {ts us : List Token} {v : Except Diagnostic Property}
    (h : ItemRun eof kind cs name d ts v d' us) (hd : d.From source) (hts : ts ⊆ source) :
    d'.From source ∧ ∀ x, v = .error x → x.At source := by
  match h with
  | .value hk => exact ⟨hd, at_of_ok _⟩
  | .noColon hk hc =>
    refine ⟨hd, ?_⟩
    rintro x ⟨⟩
    exact at_here heof hts
  | .badField hk hc ht =>
    obtain ⟨hd', hfault⟩ := ht.from hd (List.cons_subset.1 hts).2
    refine ⟨hd', ?_⟩
    rintro x ⟨⟩
    exact hfault _ rfl
  | .field hk hc ht => exact ⟨(ht.from hd (List.cons_subset.1 hts).2).1, at_of_ok _⟩

theorem ItemsRun.from {kind : DeclarationKind} {d d' : Draft} {ts us : List Token} {b : Block}
    (h : ItemsRun eof kind d ts b d' us) (hd : d.From source) (hts : ts ⊆ source) :
    d'.From source ∧ ∀ x, b.fault? = some x → x.At source := by
  match h with
  | .unterminated h =>
    refine ⟨hd, ?_⟩
    rintro x ⟨⟩
    exact at_of_mem heof
  | .close h ht => exact ⟨hd, at_of_none⟩
  | .keyword h ht =>
    exact ⟨hd.report (at_of_mem (subset_of_afterComments h hts).1), at_of_none⟩
  | .stray h hc hk hi hr =>
    obtain ⟨ht, hus⟩ := subset_of_afterComments h hts
    exact hr.from (hd.report (at_of_mem ht)) (subset_of_suffix (skipStray_suffix _ _) hus)
  | .badItem h ht hi hr =>
    obtain ⟨-, hus⟩ := subset_of_afterComments h hts
    obtain ⟨hd₁, hfault⟩ := hi.from hd hus
    have hvs := hi.subset hus
    exact hr.from (hd₁.report (hfault _ rfl)) (subset_of_suffix (skipItem_suffix 0 _) hvs)
  | .more h ht hi hs hr =>
    obtain ⟨-, hus⟩ := subset_of_afterComments h hts
    obtain ⟨hd₂, hvs⟩ :=
      hs.from heof (hi.from hd hus).1 (hi.subset hus)
    exact hr.from hd₂ hvs
  | .fault h ht hi hc hv hn =>
    obtain ⟨-, hus⟩ := subset_of_afterComments h hts
    refine ⟨(hi.from hd hus).1, ?_⟩
    rintro x ⟨⟩
    exact at_here heof (hi.subset hus)

end

theorem RoundRun.from {d d' : Draft} {ts us : List Token} (h : RoundRun eof d ts d' us)
    (hd : d.From source) (hts : ts ⊆ source) : d'.From source := by
  cases h with
  | foreign h ht => exact hd.report (at_of_mem (subset_of_afterComments h hts).1)
  | badOpening h ht ho =>
    obtain ⟨hkeyword, hus⟩ := subset_of_afterComments h hts
    obtain ⟨hd', hfault, -⟩ := ho.from heof hd hkeyword hus
    exact hd'.report (hfault _ rfl)
  | declared h ht ho hb =>
    obtain ⟨hkeyword, hus⟩ := subset_of_afterComments h hts
    obtain ⟨hd₁, -, hname⟩ := ho.from heof hd hkeyword hus
    obtain ⟨hd₂, -⟩ := hb.from heof hd₁ (ho.subset hus)
    exact hd₂.push (ho.namedBy (hname _ rfl) _ (fun hk => if_neg hk) _ _)
  | broken h ht ho hb =>
    obtain ⟨hkeyword, hus⟩ := subset_of_afterComments h hts
    obtain ⟨hd₁, -, -⟩ := ho.from heof hd hkeyword hus
    obtain ⟨hd₂, hfault⟩ := hb.from heof hd₁ (ho.subset hus)
    exact hd₂.report (hfault _ rfl)

theorem EntryRun.from {keyword value : TokenKind} {keywordWanted valueWanted : Expectation}
    {v : Except Diagnostic Token} {ts us : List Token}
    (h : EntryRun eof keyword value keywordWanted valueWanted ts v us) (hts : ts ⊆ source) :
    us ⊆ source ∧ (∀ x, v = .error x → x.At source) ∧ ∀ t, v = .ok t → t ∈ source := by
  cases h with
  | noKeyword hk =>
    refine ⟨hts, ?_, mem_of_error _⟩
    rintro x ⟨⟩
    exact at_here heof hts
  | noValue hk hv =>
    have hus := (List.cons_subset.1 hts).2
    refine ⟨hus, ?_, mem_of_error _⟩
    rintro x ⟨⟩
    exact at_here heof hus
  | found hk hv =>
    obtain ⟨hv, hus⟩ := List.cons_subset.1 (List.cons_subset.1 hts).2
    refine ⟨hus, at_of_ok _, ?_⟩
    rintro t ⟨⟩
    exact hv

theorem HeaderRun.from {compiler : String} {m : Metadata} {d : Draft} {ts us : List Token}
    (h : HeaderRun eof compiler ts m d us) (hts : ts ⊆ source) :
    d.From source ∧ us ⊆ source := by
  have hempty : Draft.empty.From source :=
    ⟨by simp [Draft.empty], by simp [Draft.empty, Scope.empty], by simp [Draft.empty]⟩
  cases h with
  | @mk name us version vs hn hv =>
    obtain ⟨hus, hname, -⟩ := hn.from heof (subset_of_suffix (afterComments_suffix ts) hts)
    obtain ⟨hvs, hversion, hmem⟩ := hv.from heof hus
    have hd : (Draft.empty.reportError name).From source := by
      cases name with
      | ok t => exact hempty
      | error x => exact hempty.report (hname x rfl)
    refine ⟨?_, hvs⟩
    cases version with
    | error x => exact hd.report (hversion x rfl)
    | ok t =>
      simp only [checkVersion]
      split
      · exact hd
      · exact hd.report ⟨t, hmem t rfl, rfl⟩

theorem FileRun.from {d d' : Draft} {ts : List Token} (h : FileRun eof d ts d')
    (hd : d.From source) (hts : ts ⊆ source) : d'.From source := by
  induction h with
  | done h => exact hd
  | step hr h ih =>
    obtain ⟨r, -, his⟩ := hr.is
    exact ih (hr.from heof hd hts) (subset_of_suffix his.suffix hts)

end Runs

theorem finalDraft_from (compiler : String) (s : TokenStream) :
    (finalDraft compiler s).From s.toList := by
  have heof : s.eof ∈ s.toList := List.mem_append_right _ List.mem_cons_self
  obtain ⟨d, ts, hheader, hfile⟩ := finalDraft_run compiler s
  obtain ⟨hd, hts⟩ := hheader.from heof (List.subset_append_left s.tokens [s.eof])
  exact hfile.from heof hd hts

end Grammar

theorem Scope.firstByLexeme_subset (ts : List Token) : firstByLexeme ts ⊆ ts := by
  induction ts with
  | nil => exact List.Subset.refl _
  | cons t ts ih =>
    rw [firstByLexeme]
    refine List.cons_subset_cons t ?_
    exact List.Subset.trans (List.filter_subset_self _) ih

theorem Scope.at_of_mem_finish {s : Scope} {source : List Token} (h : s.references ⊆ source)
    {x : Diagnostic} (hx : x ∈ s.finish) : x.At source := by
  obtain ⟨t, ht, rfl⟩ := List.mem_map.1 hx
  exact ⟨t, h (List.filter_subset_self _ (firstByLexeme_subset _ ht)), rfl⟩

theorem Declaration.NamedBy.link {source : List Token} {x : Declaration} (h : x.NamedBy source)
    (find : String → Option Nat) : (x.link find).NamedBy source := h

/-- What is wrong with a list of tokens is wrong at one of them, or at its end. -/
theorem at_of_mem_parse {version : String} {tokens : List Token} {x : Diagnostic}
    (hx : x ∈ (parse version tokens).diagnostics) : x.At (TokenStream.ofList tokens).toList := by
  have hfrom := Grammar.finalDraft_from version (.ofList tokens)
  rw [parse, Grammar.parseStream_eq_finalDraft] at hx
  rcases List.mem_append.1 hx with hx | hx
  · exact hfrom.diagnostics x hx
  · exact Scope.at_of_mem_finish hfrom.references hx

/-- The declarations of a list of tokens are named by tokens of the list, but for a config that is
supplied. -/
theorem namedBy_of_mem_declarations {version : String} {tokens : List Token} {x : Declaration}
    (hx : x ∈ (parse version tokens).declarations) (hkind : x.kind ≠ .config) :
    x.NamedBy (TokenStream.ofList tokens).toList := by
  have hfrom := Grammar.finalDraft_from version (.ofList tokens)
  rcases mem_finishDeclarations hx with rfl | ⟨y, hy, rfl⟩
  · exact absurd rfl hkind
  · exact (hfrom.named y hy).link _

/-- The names of the declarations of a source are identifiers in it. -/
theorem exists_identifier_of_scan {version source : String} {tokens : List Token}
    (hscan : scan source = .ok tokens) {x : Declaration}
    (hx : x ∈ (parse version tokens).declarations) (hkind : x.kind ≠ .config) :
    ∃ t ∈ tokens, x.nameToken = some t ∧ t.kind = .identifier ∧ t.lexeme = x.name := by
  obtain ⟨t, ht, htoken, hspells⟩ := namedBy_of_mem_declarations hx hkind
  rw [toList_ofList_of_scan hscan] at ht
  exact ⟨t, ht, htoken, hspells hkind⟩

theorem namedBy_of_mem_parse {version : String} {tokens : List Token} {x : Declaration}
    (hx : x ∈ Containment.nodes (parse version tokens).declarations) :
    x.NamedBy (TokenStream.ofList tokens).toList := by
  obtain ⟨hmem, hkind⟩ := Containment.mem_nodes.1 hx
  exact namedBy_of_mem_declarations hmem (by simp [hkind])

end GameSchema
