import GameSchema.Proofs.Grammar.Binding
import GameSchema.Proofs.Schema.WellFormed

/-!
# Extension of drafts

The declarations that a rule adds to a draft have names that the rule itself has declared, each
once, also where a mistake has made it drop a declaration or an item. So no name of a source stands
twice among its declarations, and at most one config does.
-/

namespace GameSchema

/-- The draft `d'` has the declarations `added` behind those of `d`: well formed, with names that
are declared in `d'` and not yet in `d`, and with a config only where none was declared before. -/
structure Extends (d : Draft) (added : List Declaration) (d' : Draft) : Prop where
  declarations : d'.declarations = d.declarations ++ added
  declared : d.scope.declared ⊆ d'.scope.declared
  formed : ∀ x ∈ added, x.Formed
  nodup : (keys added).Nodup
  fresh : ∀ k ∈ keys added, k ∈ d'.scope.declared ∧ k ∉ d.scope.declared
  configs : (added.countP fun x => x.kind == .config) + d.scope.configSeen.toNat ≤
    d'.scope.configSeen.toNat

namespace Extends

variable {d d' d'' : Draft} {xs ys : List Declaration}

/-- A step that adds no declaration, no name and no config. -/
theorem of_scope (hd : d'.declarations = d.declarations) (hs : d.scope.declared ⊆ d'.scope.declared)
    (hc : d.scope.configSeen.toNat ≤ d'.scope.configSeen.toNat) : Extends d [] d' := by
  constructor
  · rw [hd, List.append_nil]
  · exact hs
  · simp
  · exact List.nodup_nil
  · simp [keys]
  · simpa using hc

theorem refl (d : Draft) : Extends d [] d := of_scope rfl (List.Subset.refl _) (Nat.le_refl _)

theorem report (d : Draft) (x : Diagnostic) : Extends d [] (d.report x) :=
  of_scope rfl (List.Subset.refl _) (Nat.le_refl _)

theorem refer (d : Draft) (t : Token) : Extends d [] (d.refer t) :=
  of_scope rfl (List.Subset.refl _) (Nat.le_refl _)

theorem trans (h : Extends d xs d') (h' : Extends d' ys d'') : Extends d (xs ++ ys) d'' := by
  constructor
  · rw [h'.declarations, h.declarations, List.append_assoc]
  · exact List.Subset.trans h.declared h'.declared
  · intro x hx
    rcases List.mem_append.1 hx with hx | hx
    · exact h.formed x hx
    · exact h'.formed x hx
  · rw [keys_append, List.nodup_append]
    refine ⟨h.nodup, h'.nodup, ?_⟩
    rintro k hk _ hk' rfl
    exact (h'.fresh k hk').2 (h.fresh k hk).1
  · intro k hk
    rw [keys_append] at hk
    rcases List.mem_append.1 hk with hk | hk
    · exact ⟨h'.declared (h.fresh k hk).1, (h.fresh k hk).2⟩
    · exact ⟨(h'.fresh k hk).1, fun hd => (h'.fresh k hk).2 (h.declared hd)⟩
  · have hfirst := h.configs
    have hsecond := h'.configs
    rw [List.countP_append]
    omega

theorem then_report (h : Extends d xs d') (x : Diagnostic) : Extends d xs (d'.report x) := by
  have hreport := h.trans (.report d' x)
  rwa [List.append_nil] at hreport

theorem after_report {x : Diagnostic} (h : Extends (d.report x) xs d') : Extends d xs d' :=
  (report d x).trans h

end Extends

namespace Grammar
open Token Recovery

theorem extends_addName (d : Draft) (n : Namespace) (name : String) :
    Extends d [] (addName d n name) :=
  .of_scope rfl (List.subset_append_left _ _) (Nat.le_refl _)

theorem extends_addConfig {d : Draft} (h : d.scope.configSeen = false) :
    Extends d [] (addConfig d) := by
  refine .of_scope rfl (List.Subset.refl _) ?_
  rw [h]
  exact Nat.zero_le _

/-- A declaration that joins the draft after those inside its block has a name that none of them
has, for it was declared before the block was read. -/
theorem Extends.push_named {d d' : Draft} {xs : List Declaration} {n : Namespace} {name : String}
    (hnew : (n, name) ∉ d.scope.declared) (h : Extends (addName d n name) xs d') {x : Declaration}
    (hx : x.Formed) (hk : x.kind.scope? = some n) (hname : x.name = name) :
    Extends d (xs ++ [x]) (d'.push x) := by
  have hkey : keys [x] = [(n, name)] := by simp [keys, Declaration.key?, hk, hname]
  have hall := (extends_addName d n name).trans h
  have hin : (n, name) ∈ (addName d n name).scope.declared :=
    List.mem_append_right _ List.mem_cons_self
  constructor
  · simp [Draft.push, hall.declarations]
  · exact hall.declared
  · intro y hy
    rcases List.mem_append.1 hy with hy | hy
    · exact h.formed y hy
    · rw [List.mem_singleton.1 hy]
      exact hx
  · rw [keys_append, hkey, List.nodup_append]
    refine ⟨h.nodup, by simp, ?_⟩
    intro k hk' _ hn
    rw [List.mem_singleton.1 hn]
    rintro rfl
    exact (h.fresh _ hk').2 hin
  · intro k hk'
    rw [keys_append, hkey] at hk'
    rcases List.mem_append.1 hk' with hk' | hk'
    · exact hall.fresh k (by simpa using hk')
    · rw [List.mem_singleton.1 hk']
      exact ⟨h.declared hin, hnew⟩
  · have hconfigs : (xs.countP fun x => x.kind == .config) + d.scope.configSeen.toNat ≤
        d'.scope.configSeen.toNat := h.configs
    have hother : (x.kind == .config) = false :=
      beq_false_of_ne (DeclarationKind.ne_config_of_scope hk)
    simpa [Draft.push, List.countP_append, List.countP_cons, hother] using hconfigs

/-- The config that joins the draft after the declarations inside its block is the only one. -/
theorem Extends.push_config {d d' : Draft} {xs : List Declaration}
    (hnew : d.scope.configSeen = false) (h : Extends (addConfig d) xs d') {x : Declaration}
    (hx : x.Formed) (hk : x.kind = .config) : Extends d (xs ++ [x]) (d'.push x) := by
  have hkey : keys [x] = [] := by simp [keys, Declaration.key?, hk, DeclarationKind.scope?]
  have hall := (extends_addConfig hnew).trans h
  constructor
  · simp [Draft.push, hall.declarations]
  · exact hall.declared
  · intro y hy
    rcases List.mem_append.1 hy with hy | hy
    · exact h.formed y hy
    · rw [List.mem_singleton.1 hy]
      exact hx
  · rw [keys_append, hkey, List.append_nil]
    exact h.nodup
  · intro k hk'
    rw [keys_append, hkey, List.append_nil] at hk'
    exact hall.fresh k (by simpa using hk')
  · have hconfigs : (xs.countP fun x => x.kind == .config) + 1 ≤ d'.scope.configSeen.toNat :=
      h.configs
    simp only [List.countP_append, List.countP_singleton, hk, BEq.rfl, if_true, hnew,
      Bool.toNat_false, Nat.add_zero]
    exact hconfigs

section Runs

variable {eof keyword : Token} {kind : DeclarationKind} {inBlock : Bool} {d d' : Draft}
  {ts us : List Token}

theorem HeadingRun.extends {v : Except Diagnostic Token}
    (h : HeadingRun eof kind keyword inBlock d ts v d' us) : Extends d [] d' := by
  cases h with
  | config hk hs => exact extends_addConfig hs
  | secondConfig hk hs => exact .refl d
  | unnamed hk hn => exact .refl d
  | duplicate hk hn hd => exact .refl d
  | named hk hn hd => exact extends_addName d _ _

theorem OpeningRun.extends {v : Except Diagnostic Token}
    (h : OpeningRun eof kind keyword inBlock d ts v d' us) : Extends d [] d' := by
  cases h with
  | badHeading hh => exact hh.extends
  | noBlock hh ho => exact hh.extends
  | opened hh ho => exact hh.extends

theorem OpeningRun.extends_push {name : Token} {d₂ : Draft} {xs : List Declaration}
    (h : OpeningRun eof kind keyword inBlock d ts (.ok name) d' us) (hb : Extends d' xs d₂)
    {x : Declaration} (hx : x.Formed) (hk : x.kind = kind)
    (hname : kind ≠ .config → x.name = name.lexeme) : Extends d (xs ++ [x]) (d₂.push x) := by
  cases h with
  | opened hh ho =>
    cases hh with
    | config hc hs => exact Extends.push_config hs hb hx (hk.trans hc)
    | named hscope hn hnew =>
      exact Extends.push_named hnew hb hx (by rw [hk, hscope])
        (hname (DeclarationKind.ne_config_of_scope hscope))

theorem Separation.extends (h : Separation eof d ts d' us) : Extends d [] d' := by
  cases h with
  | comma hc => exact .refl d
  | missing hc hn => exact .report d _
  | last hc hv => exact .refl d

mutual

theorem TypeRun.extends {mark : Char} {cs : List String} {d d' : Draft} {ts us : List Token}
    {v : Except Diagnostic PropertyType} (h : TypeRun eof mark cs d ts v d' us) :
    (∃ xs, Extends d xs d') ∧ ∀ t, v = .ok t → t.Formed := by
  match h with
  | .missing h | .noLess h hl => exact ⟨⟨_, .refl d⟩, by rintro t ⟨⟩⟩
  | .badElement h hl he | .noGreater h hl he hg => exact ⟨he.extends.1, by rintro t ⟨⟩⟩
  | .badInline h hk ho => exact ⟨⟨_, ho.extends⟩, by rintro t ⟨⟩⟩
  | .scalar h =>
    refine ⟨⟨_, .refl d⟩, ?_⟩
    rintro t ⟨⟩
    exact Or.inl (by rw [h]; rfl)
  | .reference h =>
    refine ⟨⟨_, .refer d _⟩, ?_⟩
    rintro t ⟨⟩
    exact Or.inr h
  | .generic h hl he hg =>
    obtain ⟨hadded, helement⟩ := he.extends
    refine ⟨hadded, ?_⟩
    rintro t ⟨⟩
    exact ⟨by rw [h]; rfl, helement _ rfl⟩
  | .inline h hk ho hb =>
    obtain ⟨⟨xs, hxs⟩, hitems⟩ := hb.extends
    refine ⟨⟨_, ho.extends_push hxs hitems rfl fun _ => rfl⟩, ?_⟩
    rintro t ⟨⟩
    exact Or.inr (ho.name_kind (by rintro rfl; cases hk))
  | .brokenInline h hk ho hb =>
    obtain ⟨⟨xs, hxs⟩, hitems⟩ := hb.extends
    refine ⟨⟨_, ho.extends_push (hxs.then_report _) hitems rfl fun _ => rfl⟩, ?_⟩
    rintro t ⟨⟩
    exact Or.inr (ho.name_kind (by rintro rfl; cases hk))

theorem ItemRun.extends {kind : DeclarationKind} {cs : List String} {name : Token} {d d' : Draft}
    {ts us : List Token} {v : Except Diagnostic Property}
    (h : ItemRun eof kind cs name d ts v d' us) :
    (∃ xs, Extends d xs d') ∧ ∀ p, v = .ok p → p.Formed kind := by
  match h with
  | .value hk =>
    refine ⟨⟨_, .refl d⟩, ?_⟩
    rintro p ⟨⟩
    exact ⟨by simp [untypedItem, hk], by rintro t ⟨⟩⟩
  | .noColon hk hc => exact ⟨⟨_, .refl d⟩, by rintro p ⟨⟩⟩
  | .badField hk hc ht => exact ⟨ht.extends.1, by rintro p ⟨⟩⟩
  | .field hk hc ht =>
    obtain ⟨hadded, htype⟩ := ht.extends
    refine ⟨hadded, ?_⟩
    rintro p ⟨⟩
    refine ⟨by simp [typedItem, hk], ?_⟩
    rintro t ⟨⟩
    exact htype _ rfl

theorem ItemsRun.extends {kind : DeclarationKind} {d d' : Draft} {ts us : List Token} {b : Block}
    (h : ItemsRun eof kind d ts b d' us) :
    (∃ xs, Extends d xs d') ∧ ∀ p ∈ b.items, p.Formed kind := by
  match h with
  | .unterminated h | .close h ht => exact ⟨⟨_, .refl d⟩, by simp⟩
  | .keyword h ht => exact ⟨⟨_, .report d _⟩, by simp⟩
  | .stray h hc hk hi hr =>
    obtain ⟨⟨xs, hxs⟩, hitems⟩ := hr.extends
    exact ⟨⟨xs, hxs.after_report⟩, hitems⟩
  | .badItem h ht hi hr =>
    obtain ⟨⟨xs, hxs⟩, -⟩ := hi.extends
    obtain ⟨⟨ys, hys⟩, hitems⟩ := hr.extends
    exact ⟨⟨_, (hxs.then_report _).trans hys⟩, hitems⟩
  | .more h ht hi hs hr =>
    obtain ⟨⟨xs, hxs⟩, hitem⟩ := hi.extends
    obtain ⟨⟨ys, hys⟩, hitems⟩ := hr.extends
    refine ⟨⟨_, (hxs.trans hs.extends).trans hys⟩, ?_⟩
    intro p hp
    rcases List.mem_cons.1 hp with rfl | hp
    · exact hitem p rfl
    · exact hitems p hp
  | .fault h ht hi hc hv hn =>
    obtain ⟨hadded, hitem⟩ := hi.extends
    refine ⟨hadded, ?_⟩
    intro p hp
    rw [List.mem_singleton.1 hp]
    exact hitem _ rfl

end

theorem RoundRun.extends (h : RoundRun eof d ts d' us) : ∃ xs, Extends d xs d' := by
  cases h with
  | foreign h ht => exact ⟨_, .report d _⟩
  | badOpening h ht ho => exact ⟨_, ho.extends.then_report _⟩
  | declared h ht ho hb =>
    obtain ⟨⟨xs, hxs⟩, hitems⟩ := hb.extends
    exact ⟨_, ho.extends_push hxs hitems rfl fun hk => if_neg hk⟩
  | broken h ht ho hb =>
    obtain ⟨⟨xs, hxs⟩, -⟩ := hb.extends
    exact ⟨_, (ho.extends.trans hxs).then_report _⟩

theorem FileRun.extends (h : FileRun eof d ts d') : ∃ xs, Extends d xs d' := by
  induction h with
  | done h => exact ⟨_, .refl _⟩
  | step hr h ih =>
    obtain ⟨xs, hxs⟩ := hr.extends
    obtain ⟨ys, hys⟩ := ih
    exact ⟨_, hxs.trans hys⟩

end Runs

theorem wellFormed_finalDraft (compiler : String) (s : TokenStream) :
    WellFormed (finishDeclarations (finalDraft compiler s).declarations) := by
  have hbound := wellBound_finalDraft compiler s
  obtain ⟨d, ts, hheader, hfile⟩ := finalDraft_run compiler s
  obtain ⟨xs, hxs⟩ := hfile.extends
  have hempty : d.declarations = [] := hheader.declarations_eq_nil
  have hall : (finalDraft compiler s).declarations = xs := by
    rw [hxs.declarations, hempty, List.nil_append]
  refine wellFormed_finishDeclarations hbound.bound ?_ ?_ ?_
  · rw [hall]
    exact hxs.formed
  · rw [hall]
    exact hxs.nodup
  · rw [hall]
    have hle := Bool.toNat_le (finalDraft compiler s).scope.configSeen
    have hconfigs := hxs.configs
    omega

/-- The declarations of every source, however broken, are well formed. -/
theorem wellFormed_parse (compiler : String) (tokens : List Token) :
    WellFormed (parse compiler tokens).declarations := by
  rw [parse, parseStream_eq_finalDraft]
  exact wellFormed_finalDraft compiler (.ofList tokens)

end Grammar

end GameSchema
