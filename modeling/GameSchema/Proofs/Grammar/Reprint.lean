import GameSchema.Proofs.Grammar.Completeness
import GameSchema.Proofs.Schema.WellFormed
import GameSchema.Proofs.Schema.Written
import Mathlib

/-!
# Syntax trees of printed schemas

A printed schema spells a syntax tree that shows the same schema. All declarations of that tree
stand at the top level, in the order of the list, so the types that were declared inside of others
are references now, and what they are bound to has to be found by name.
-/

namespace GameSchema

section BoundBy

variable (find : String → Option Nat)

/-- The identifiers of a type, and nothing else in it, are bound as their names demand. -/
def PropertyType.BoundBy (t : PropertyType) : Prop :=
  ∀ u ∈ t.chain, u.target = if u.token.kind = .identifier then find u.token.lexeme else none

def Property.BoundBy (p : Property) : Prop := ∀ t, p.type = some t → t.BoundBy find

def Declaration.BoundBy (x : Declaration) : Prop := ∀ p ∈ x.properties, p.BoundBy find

end BoundBy

namespace Grammar
open Token

theorem unplaced_eq_iff {t u : Token} : t.unplaced = u.unplaced ↔
    t.kind = u.kind ∧ t.lexeme = u.lexeme := by
  cases t
  cases u
  simp [unplaced]

/-- A reference of a type by its name. -/
def Names (t : PropertyType) (r : Token) : Prop :=
  ∃ u ∈ t.chain, u.isReference = true ∧ u.token.lexeme = r.lexeme

section Types

/-- A tree without declarations inside that describes a type, up to the places of tokens. -/
structure TypeTree.Shows (tree : TypeTree) (t : PropertyType) : Prop where
  inlined : tree.inlined = 0
  type : ∀ find n, t.BoundBy find → (tree.type find n).unplaced = t.unplaced
  references : ∀ r ∈ tree.references, Names t r

theorem shows_scalar {w t : Token} {i : Option Nat} (hw : w.unplaced = t.unplaced)
    (ht : t.kind ≠ .identifier) : (TypeTree.scalar w).Shows (.plain t i) := by
  refine ⟨rfl, ?_, nofun⟩
  intro find n hbound
  have htarget := hbound (.plain t i) List.mem_cons_self
  rw [show (PropertyType.plain t i).token.kind = t.kind from rfl, if_neg ht] at htarget
  obtain rfl : i = none := htarget
  simp [TypeTree.type, PropertyType.unplaced, hw]

theorem shows_reference {w t : Token} {i : Option Nat} (hw : w.unplaced = t.unplaced)
    (ht : t.kind = .identifier) : (TypeTree.reference w).Shows (.plain t i) := by
  have hlexeme := (unplaced_eq_iff.1 hw).2
  refine ⟨rfl, ?_, ?_⟩
  · intro find n hbound
    have htarget := hbound (.plain t i) List.mem_cons_self
    rw [show (PropertyType.plain t i).token.kind = t.kind from rfl, if_pos ht] at htarget
    obtain rfl : i = find t.lexeme := htarget
    simp [TypeTree.type, PropertyType.unplaced, hw, hlexeme]
  · intro r hr
    rw [List.mem_singleton.1 hr]
    exact ⟨_, List.mem_cons_self, by simp [PropertyType.isReference, PropertyType.token, ht],
      hlexeme.symm⟩

theorem TypeTree.Shows.generic {w t : Token} {i : Option Nat} {tree : TypeTree} {e : PropertyType}
    (h : tree.Shows e) (hw : w.unplaced = t.unplaced) (ht : t.kind ≠ .identifier) :
    (TypeTree.generic w tree).Shows (.generic t i e) := by
  refine ⟨h.inlined, ?_, ?_⟩
  · intro find n hbound
    have htarget := hbound (.generic t i e) List.mem_cons_self
    rw [show (PropertyType.generic t i e).token.kind = t.kind from rfl, if_neg ht] at htarget
    obtain rfl : i = none := htarget
    have helement := h.type find n fun u hu => hbound u (List.mem_cons_of_mem _ hu)
    simp [TypeTree.type, PropertyType.unplaced, hw, helement]
  · intro r hr
    obtain ⟨u, hu, href⟩ := h.references r hr
    exact ⟨u, List.mem_cons_of_mem _ hu, href⟩

theorem exists_spellsType {t : PropertyType} (h : t.Printable) {us vs : List Token}
    (hus : us.map Token.unplaced = t.spelling ++ vs) :
    ∃ tree ws, ws.map Token.unplaced = vs ∧ SpellsType tree us ws ∧ tree.Shows t := by
  induction t generalizing us vs with
  | plain t i =>
    obtain ⟨w, ws, rfl, hw, hws⟩ := List.map_eq_cons_iff.1 hus
    have hkind := (unplaced_eq_iff.1 hw).1
    by_cases ht : t.kind = .identifier
    · exact ⟨_, ws, hws, .reference (hkind.trans ht), shows_reference hw ht⟩
    · obtain ⟨s, hs⟩ : ∃ s, t.kind = .scalar s := by
        cases hk : t.kind <;> simp_all [PropertyType.Printable, TokenKind.isScalar]
      exact ⟨_, ws, hws, .scalar (hkind.trans hs), shows_scalar hw ht⟩
  | generic t i e ih =>
    rw [PropertyType.spelling, List.cons_append, List.cons_append, List.append_assoc] at hus
    obtain ⟨w, us, rfl, hw, hus⟩ := List.map_eq_cons_iff.1 hus
    obtain ⟨l, us, rfl, hl, hus⟩ := List.map_eq_cons_iff.1 hus
    obtain ⟨tree, ws, hws, hspells, hshows⟩ := ih h.2.2 hus
    obtain ⟨g, ws, rfl, hg, hws⟩ := List.map_eq_cons_iff.1 hws
    obtain ⟨c, hc⟩ : ∃ c, t.kind = .container c := by
      cases hk : t.kind <;> simp_all [PropertyType.Printable, TokenKind.isContainer]
    have hkind := (unplaced_eq_iff.1 hw).1.trans hc
    refine ⟨_, ws, hws, .generic hkind ?_ hspells ?_, hshows.generic hw (by simp [hc])⟩
    · exact congrArg Token.kind hl
    · exact congrArg Token.kind hg

end Types

section Items

variable {us vs : List Token}

/-- A tree without declarations inside that describes what the text of a property holds. -/
structure ItemTree.Shows (i : ItemTree) (p : Property) : Prop where
  inlined : i.inlined = 0
  property : ∀ find n, p.BoundBy find → (i.property find n).unplaced = p.printed
  references : ∀ r ∈ i.references, ∃ t, p.type = some t ∧ Names t r

/-- The same for the properties of a declaration. -/
structure ItemsTree.Shows (is : ItemsTree) (ps : List Property) : Prop where
  inlined : is.inlined = 0
  properties : ∀ find n, (∀ p ∈ ps, p.BoundBy find) →
    (is.properties find n).map (·.unplaced) = ps.map (·.printed)
  references : ∀ r ∈ is.references, ∃ p ∈ ps, ∃ t, p.type = some t ∧ Names t r

theorem exists_spellsItem {k : DeclarationKind} {p : Property} (h : p.Printable k)
    (hus : us.map Token.unplaced =
      ⟨.identifier, p.name, .origin⟩ :: (p.typeSpelling ++ vs)) :
    ∃ i ws, ws.map Token.unplaced = vs ∧ SpellsItem k i us ws ∧ i.Shows p := by
  obtain ⟨name, us, rfl, hname, hus⟩ := List.map_eq_cons_iff.1 hus
  have hkind : name.kind = .identifier := congrArg Token.kind hname
  have hlexeme : name.lexeme = p.name := congrArg Token.lexeme hname
  have hcs : AllComments [] := nofun
  cases ht : p.type with
  | none =>
    obtain rfl := h.typed.1 ht
    rw [Property.typeSpelling, ht] at hus
    refine ⟨_, us, hus, .value hcs hkind, rfl, ?_, ?_⟩
    · intro find n _
      simp [ItemTree.property, Property.unplaced, Property.printed, texts, hlexeme, ht, hname,
        h.nameToken]
    · intro r hr
      cases hr
  | some t =>
    have hk : k ≠ .enum := fun hk => by simp [h.typed.2 hk] at ht
    rw [Property.typeSpelling, ht] at hus
    obtain ⟨c, us, rfl, hc, hus⟩ := List.map_eq_cons_iff.1 hus
    obtain ⟨tree, ws, hws, hspells, hshows⟩ := exists_spellsType (h.type t ht) hus
    have hcolon : c.kind = .colon := congrArg Token.kind hc
    refine ⟨_, ws, hws, .field hk hcs hkind hcolon hspells, hshows.inlined, ?_, ?_⟩
    · intro find n hbound
      simp [ItemTree.property, Property.unplaced, Property.printed, texts, hlexeme, ht, hname,
        h.nameToken, hshows.type find n (hbound t ht)]
    · intro r hr
      exact ⟨t, ht, hshows.references r hr⟩

theorem exists_spellsItems {k : DeclarationKind} {ps : List Property}
    (h : ∀ p ∈ ps, p.Printable k)
    (hus : us.map Token.unplaced = ps.flatMap (·.spelling) ++ .symbol .closeCurly :: vs) :
    ∃ is ws, ws.map Token.unplaced = vs ∧ SpellsItems k is us ws ∧ is.Shows ps := by
  induction ps generalizing us with
  | nil =>
    obtain ⟨c, ws, rfl, hc, hws⟩ := List.map_eq_cons_iff.1 hus
    have hcs : AllComments [] := nofun
    exact ⟨_, ws, hws, .close hcs (congrArg Token.kind hc), rfl, fun _ _ _ => rfl, nofun⟩
  | cons p ps ih =>
    rw [List.flatMap_cons, Property.spelling, List.cons_append, List.append_assoc,
      List.cons_append, List.append_assoc] at hus
    obtain ⟨i, us, hmore, hitem, hshows⟩ := exists_spellsItem (h p List.mem_cons_self) hus
    obtain ⟨c, us, rfl, hc, hrest⟩ := List.map_eq_cons_iff.1 hmore
    obtain ⟨is, ws, hws, hitems, hall⟩ := ih (fun q hq => h q (List.mem_cons_of_mem p hq)) hrest
    refine ⟨_, ws, hws, .comma hitem (congrArg Token.kind hc) hitems, ?_, ?_, ?_⟩
    · rw [ItemsTree.inlined, hshows.inlined, hall.inlined]
    · intro find n hbound
      rw [ItemsTree.properties, List.map_cons, List.map_cons,
        hshows.property find n (hbound p List.mem_cons_self),
        hall.properties find _ fun q hq => hbound q (List.mem_cons_of_mem p hq)]
    · intro r hr
      rcases List.mem_append.1 hr with hr | hr
      · exact ⟨p, List.mem_cons_self, hshows.references r hr⟩
      · obtain ⟨q, hq, hnames⟩ := hall.references r hr
        exact ⟨q, List.mem_cons_of_mem p hq, hnames⟩

end Items

section Declarations

variable {us vs : List Token}

/-- The tree of a declaration without others inside, which describes what its text holds. -/
structure DeclarationTree.Shows (t : DeclarationTree) (x : Declaration) : Prop where
  inlined : t.items.inlined = 0
  kind : t.kind = x.kind
  name : (if t.kind = .config then "" else t.name.lexeme) = x.name
  flatten : ∀ find n, x.BoundBy find → (t.flatten find n).map (·.unplaced) = [x.printed]
  references : ∀ r ∈ t.items.references, ∃ p ∈ x.properties, ∃ s, p.type = some s ∧ Names s r

theorem allComments_of_unplaced {cs : List Token} {texts : List String}
    (h : cs.map Token.unplaced = texts.map commentToken) :
    AllComments cs ∧ Grammar.texts cs = texts := by
  induction cs generalizing texts with
  | nil =>
    obtain rfl : texts = [] := by simpa using h.symm
    exact ⟨nofun, rfl⟩
  | cons c cs ih =>
    obtain ⟨s, texts, rfl, hs, htexts⟩ := List.map_eq_cons_iff.1 h.symm
    obtain ⟨hall, hmap⟩ := ih htexts.symm
    have hkind : c.kind = .comment := (congrArg Token.kind hs).symm
    have hlexeme : c.lexeme = s := (congrArg Token.lexeme hs).symm
    refine ⟨List.forall_mem_cons.2 ⟨by simp [isComment, hkind], hall⟩, ?_⟩
    rw [← hmap, ← hlexeme]
    rfl

theorem hoisted_of_inlined {is : ItemsTree} (h : is.inlined = 0) (find : String → Option Nat)
    (n : Nat) : is.hoisted find n = [] := by
  rw [← List.length_eq_zero_iff, length_hoistedItems, h]

/-- A tree shows a declaration if its parts do. -/
theorem shows_declaration {x : Declaration} {cs : List Token} {w : Token} {is : ItemsTree}
    (hcs : Grammar.texts cs = x.comments) (his : is.Shows x.properties)
    (hw : w.unplaced = (x.nameToken.getD (.symbol (.declaration .config))).unplaced)
    (hname : (if x.kind = .config then "" else w.lexeme) = x.name) :
    (DeclarationTree.mk cs x.kind w is).Shows x := by
  refine ⟨his.inlined, rfl, hname, ?_, his.references⟩
  intro find n hbound
  simp [DeclarationTree.flatten, hoisted_of_inlined his.inlined, Declaration.unplaced,
    Declaration.printed, hcs, hname, hw, his.properties find n hbound]

theorem exists_spellsDeclaration {x : Declaration} (h : x.Printable)
    (hus : us.map Token.unplaced = x.spelling ++ vs) :
    ∃ t ws, ws.map Token.unplaced = vs ∧ SpellsDeclaration t us ws ∧ t.Shows x := by
  rw [Declaration.spelling, List.append_assoc] at hus
  obtain ⟨cs, us, rfl, hcs, hus⟩ := List.map_eq_append_iff.1 hus
  obtain ⟨hall, htexts⟩ := allComments_of_unplaced hcs
  rw [Declaration.heading, List.cons_append, List.cons_append] at hus
  obtain ⟨w, us, rfl, hw, hus⟩ := List.map_eq_cons_iff.1 hus
  have hkeyword : w.kind = .declaration x.kind := congrArg Token.kind hw
  by_cases hk : x.kind = .config
  · simp only [hk, ↓reduceIte, List.nil_append, List.cons_append, List.append_assoc] at hus
    obtain ⟨o, us, rfl, ho, hus⟩ := List.map_eq_cons_iff.1 hus
    obtain ⟨is, ws, hws, hspells, hshows⟩ := exists_spellsItems h.properties hus
    obtain ⟨hempty, htoken⟩ := h.config hk
    have hkept : w.unplaced = (x.nameToken.getD (.symbol (.declaration .config))).unplaced := by
      rw [hw, hk]
      cases ht : x.nameToken with
      | none => rfl
      | some t => exact (htoken t ht).symm
    have hshow := shows_declaration htexts hshows hkept (by rw [if_pos hk, hempty])
    rw [hk] at hkeyword hspells hshow
    exact ⟨_, ws, hws, .config hall hkeyword (congrArg Token.kind ho) hspells, hshow⟩
  · obtain ⟨hidentifier, t, ht, hname⟩ := h.named hk
    simp only [hk, ↓reduceIte, List.nil_append, List.cons_append, List.append_assoc] at hus
    obtain ⟨name, us, rfl, hn, hus⟩ := List.map_eq_cons_iff.1 hus
    obtain ⟨o, us, rfl, ho, hus⟩ := List.map_eq_cons_iff.1 hus
    obtain ⟨is, ws, hws, hspells, hshows⟩ := exists_spellsItems h.properties hus
    refine ⟨_, ws, hws, .named hall hkeyword hk (congrArg Token.kind hn) (congrArg Token.kind ho)
      hspells, shows_declaration htexts hshows ?_ ?_⟩
    · rw [ht, hn, Option.getD_some, hname]
    · rw [if_neg hk]
      exact congrArg Token.lexeme hn

theorem exists_spellsDeclarations {ds : List Declaration} (h : ∀ x ∈ ds, x.Printable)
    (hus : us.map Token.unplaced = ds.flatMap (·.spelling)) :
    ∃ ts, SpellsDeclarations ts us ∧ List.Forall₂ DeclarationTree.Shows ts ds := by
  induction ds generalizing us with
  | nil =>
    obtain rfl : us = [] := by simpa using hus
    exact ⟨[], .done nofun, .nil⟩
  | cons x ds ih =>
    rw [List.flatMap_cons] at hus
    obtain ⟨t, ws, hws, hspells, hshows⟩ := exists_spellsDeclaration (h x List.mem_cons_self) hus
    obtain ⟨ts, hts, hall⟩ := ih (fun y hy => h y (List.mem_cons_of_mem x hy)) hws
    exact ⟨t :: ts, .cons hspells hts, .cons hshows hall⟩

end Declarations

section Files

variable {ts : List DeclarationTree} {ds : List Declaration}

/-- What a declaration can be found by. -/
def entries (ds : List Declaration) : List (DeclarationKind × String) :=
  ds.map fun x => (x.kind, x.name)

theorem entries_append (ds es : List Declaration) : entries (ds ++ es) = entries ds ++ entries es :=
  List.map_append

theorem keys_eq_of_entries {es : List Declaration} (h : entries es = entries ds) :
    keys es = keys ds := by
  have hkeys (fs : List Declaration) :
      keys fs = (entries fs).filterMap fun y => y.1.scope?.map (·, y.2) := by
    rw [entries, List.filterMap_map]
    rfl
  rw [hkeys, hkeys, h]

theorem typeIndex_eq_of_entries {es : List Declaration} (h : entries es = entries ds) :
    typeIndex? es = typeIndex? ds := by
  have hindex (fs : List Declaration) (name : String) :
      typeIndex? fs name = (entries fs).findIdx? fun y => y.1.isType && y.2 == name := by
    rw [entries, List.findIdx?_map]
    rfl
  funext name
  rw [hindex, hindex, h]

theorem entries_flattenAll (h : List.Forall₂ DeclarationTree.Shows ts ds)
    (find : String → Option Nat) (n : Nat) : entries (flattenAll find n ts) = entries ds := by
  induction h generalizing n with
  | nil => rfl
  | @cons t x ts ds hx _ ih =>
    have hflatten : entries (t.flatten find n) = [(x.kind, x.name)] := by
      simp [entries, DeclarationTree.flatten, hoisted_of_inlined hx.inlined, hx.kind.symm, hx.name]
    rw [flattenAll, entries_append, hflatten, ih]
    rfl

theorem flattenAll_unplaced (h : List.Forall₂ DeclarationTree.Shows ts ds)
    {find : String → Option Nat} (hbound : ∀ x ∈ ds, x.BoundBy find) (n : Nat) :
    (flattenAll find n ts).map (·.unplaced) = ds.map (·.printed) := by
  induction h generalizing n with
  | nil => rfl
  | cons hx _ ih =>
    rw [flattenAll, List.map_append, hx.flatten find n (hbound _ List.mem_cons_self),
      ih fun y hy => hbound y (List.mem_cons_of_mem _ hy)]
    rfl

theorem countP_config (h : List.Forall₂ DeclarationTree.Shows ts ds) :
    (ts.countP fun t => t.kind == .config) = ds.countP fun x => x.kind == .config := by
  induction h with
  | nil => rfl
  | cons hx _ ih => simp [List.countP_cons, ih, hx.kind]

theorem exists_names_of_mem_references (h : List.Forall₂ DeclarationTree.Shows ts ds) {r : Token}
    (hr : r ∈ ts.flatMap (·.items.references)) :
    ∃ x ∈ ds, ∃ p ∈ x.properties, ∃ s, p.type = some s ∧ Names s r := by
  induction h with
  | nil => cases hr
  | cons hx _ ih =>
    rw [List.flatMap_cons] at hr
    rcases List.mem_append.1 hr with hr | hr
    · exact ⟨_, List.mem_cons_self, hx.references r hr⟩
    · obtain ⟨y, hy, hnames⟩ := ih hr
      exact ⟨y, List.mem_cons_of_mem _ hy, hnames⟩

/-- The tokens of a printed schema spell a tree that shows its header and its declarations. -/
theorem exists_spellsFile {c : Compilation} (h : c.Printable) {us : List Token}
    (hus : us.map Token.unplaced = c.spelling) {e : Token} (he : e.kind = .eof) :
    ∃ f, SpellsFile f (us ++ [e]) ∧ f.metadata = c.metadata ∧
      List.Forall₂ DeclarationTree.Shows f.declarations c.declarations := by
  obtain ⟨cs, us, rfl, hcs, hus⟩ := List.map_eq_append_iff.1 hus
  obtain ⟨hall, htexts⟩ := allComments_of_unplaced hcs
  obtain ⟨n, us, rfl, hn, hus⟩ := List.map_eq_cons_iff.1 hus
  obtain ⟨name, us, rfl, hname, hus⟩ := List.map_eq_cons_iff.1 hus
  obtain ⟨w, us, rfl, hw, hus⟩ := List.map_eq_cons_iff.1 hus
  obtain ⟨version, us, rfl, hversion, hus⟩ := List.map_eq_cons_iff.1 hus
  obtain ⟨ts, hts, hshows⟩ := exists_spellsDeclarations h.declarations hus
  refine ⟨⟨cs, name, version, ts⟩, ?_, ?_, hshows⟩
  · rw [List.append_assoc]
    exact .mk hall (congrArg Token.kind hn) (congrArg Token.kind hname) (congrArg Token.kind hw)
      (congrArg Token.kind hversion) hts he
  · have hgame : name.lexeme = c.metadata.name := congrArg Token.lexeme hname
    have hnumber : version.lexeme = c.metadata.version := congrArg Token.lexeme hversion
    rw [FileTree.metadata, hgame, htexts, hnumber]

end Files

section Rereading

variable {f : FileTree} {ds : List Declaration}

/-- Types that are well formed and resolved are bound as the names of their list demand. -/
theorem boundBy_typeIndex (hw : WellFormed ds) (hr : Resolved ds) :
    ∀ x ∈ ds, x.BoundBy (typeIndex? ds) := by
  intro x hx p hp t ht u hu
  split
  · next hkind =>
    have href : u.isReference = true := by simp [PropertyType.isReference, hkind]
    obtain ⟨i, htarget, hnamed⟩ := hr x hx p hp t ht u hu href
    rw [htarget, typeIndex_of_namedAt hw.names hnamed]
  · next hkind =>
    rw [Option.eq_none_iff_forall_not_mem]
    intro i hi
    exact hkind (hw.bound x hx p hp t ht u hu i hi).1

theorem names_perm_keys {ts : List Token} (hf : SpellsFile f ts)
    (h : List.Forall₂ DeclarationTree.Shows f.declarations ds) : (keys ds).Perm f.names := by
  obtain ⟨us, hds⟩ := hf.declarations
  rw [← keys_eq_of_entries (entries_flattenAll h unbound 0)]
  exact hds.keys_perm unbound 0

/-- When all references of a schema are resolved, none of a file that shows it is undefined. -/
theorem undefined_eq_nil {ts : List Token} (hf : SpellsFile f ts)
    (h : List.Forall₂ DeclarationTree.Shows f.declarations ds) (hr : Resolved ds) :
    f.undefined = [] := by
  have hdeclared : f.references.filter (fun t => !f.names.contains (.types, t.lexeme)) = [] := by
    rw [List.filter_eq_nil_iff]
    intro r href
    obtain ⟨x, hx, p, hp, s, hs, u, hu, hreference, hlexeme⟩ :=
      exists_names_of_mem_references h href
    obtain ⟨i, -, hnamed⟩ := hr x hx p hp s hs u hu hreference
    have hname := (names_perm_keys hf h).subset hnamed.mem_keys
    rw [hlexeme] at hname
    simpa using hname
  rw [FileTree.undefined, hdeclared]
  rfl

theorem configs_eq_one (h : List.Forall₂ DeclarationTree.Shows f.declarations ds)
    (hw : WellFormed ds) : f.configs = 1 := by
  rw [FileTree.configs, countP_config h, hw.oneConfig]

/-- A file that shows a schema describes the declarations of that schema. -/
theorem objects_unplaced (h : List.Forall₂ DeclarationTree.Shows f.declarations ds)
    (hw : WellFormed ds) (hr : Resolved ds) :
    f.objects.map (·.unplaced) = ds.map (·.printed) := by
  have hplace : f.place? = typeIndex? ds :=
    typeIndex_eq_of_entries (entries_flattenAll h unbound 0)
  have hconfigs : f.configs ≠ 0 := by
    rw [configs_eq_one h hw]
    decide
  simp only [FileTree.objects, hplace, if_neg hconfigs]
  exact flattenAll_unplaced h (boundBy_typeIndex hw hr) 0

/-- The tokens of a printed schema are read as that schema again. -/
theorem parse_of_spelling {c : Compilation} (hp : c.Printable) (hw : WellFormed c.declarations)
    (hr : Resolved c.declarations) {us : List Token} (hus : us.map Token.unplaced = c.spelling)
    {e : Token} (he : e.kind = .eof) (compiler : String) :
    (parse compiler (us ++ [e])).metadata = c.metadata ∧
      (parse compiler (us ++ [e])).declarations.map (·.unplaced) =
        c.declarations.map (·.printed) ∧
      ∀ x ∈ (parse compiler (us ++ [e])).diagnostics, x.isError = false := by
  obtain ⟨f, hf, hmetadata, hshows⟩ := exists_spellsFile hp hus he
  have hnames : f.names.Nodup := (names_perm_keys hf hshows).nodup_iff.1 hw.names
  have hconfigs : f.configs ≤ 1 := Nat.le_of_eq (configs_eq_one hshows hw)
  have hstream : SpellsFile f (TokenStream.ofList (us ++ [e])).toList := by
    have hend := hf.ofList_append []
    rw [List.append_nil] at hend
    rwa [hend]
  rw [parse, hstream.parseStream_eq hnames hconfigs]
  refine ⟨hmetadata, objects_unplaced hshows hw hr, ?_⟩
  rw [undefined_eq_nil hf hshows hr]
  intro x hx
  rw [List.map_nil, List.append_nil, versionWarnings] at hx
  split at hx
  · cases hx
  · rw [List.mem_singleton.1 hx]
    rfl

end Rereading

end Grammar

end GameSchema
