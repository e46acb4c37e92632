import GameSchema.Scope

/-!
# Resolution of names

When everything is read, the references that are left are bound to the first type or enum of their
name. If every one of them names a type or enum of the list, no reference stays without a
declaration.
-/

namespace GameSchema

/-- The declaration at a place is the type or enum that a token names. -/
def NamedAt (ds : List Declaration) (i : Nat) (t : Token) : Prop :=
  ∃ x, ds[i]? = some x ∧ x.isType = true ∧ x.name = t.lexeme

/-- Every reference, at any depth of a type, is bound to the type or enum that it names. -/
def Resolved (ds : List Declaration) : Prop :=
  ∀ x ∈ ds, ∀ p ∈ x.properties, ∀ t, p.type = some t →
    ∀ u ∈ t.chain, u.isReference = true → ∃ i, u.target = some i ∧ NamedAt ds i u.token

/-- Only identifiers are bound, to what they name, and one that is not bound is a reference. -/
structure Bound (ds : List Declaration) (references : List Token) (u : PropertyType) : Prop where
  target : ∀ i, u.target = some i → u.token.kind = .identifier ∧ NamedAt ds i u.token
  reference : u.target = none → u.token.kind = .identifier → u.token ∈ references

/-- The types of properties are bound at every depth. -/
def BoundProperties (ds : List Declaration) (references : List Token) (ps : List Property) : Prop :=
  ∀ p ∈ ps, ∀ t, p.type = some t → ∀ u ∈ t.chain, Bound ds references u

/-- The name of a declaration with its namespace. The config has none. -/
def Declaration.key? (x : Declaration) : Option (Namespace × String) :=
  x.kind.scope?.map (·, x.name)

/-- The names of declarations with their namespaces. -/
def keys (ds : List Declaration) : List (Namespace × String) := ds.filterMap (·.key?)

variable {ds es : List Declaration} {rs qs : List Token} {t : Token} {i : Nat}

theorem keys_append (ds es : List Declaration) : keys (ds ++ es) = keys ds ++ keys es :=
  List.filterMap_append

theorem NamedAt.mono (h : NamedAt ds i t) (hd : ds <+: es) : NamedAt es i t := by
  obtain ⟨x, hx, htype, hname⟩ := h
  obtain ⟨fs, rfl⟩ := hd
  obtain ⟨hi, -⟩ := List.getElem?_eq_some_iff.1 hx
  exact ⟨x, by rw [List.getElem?_append_left hi, hx], htype, hname⟩

theorem Bound.mono {u : PropertyType} (h : Bound ds rs u) (hd : ds <+: es) (hr : rs <+: qs) :
    Bound es qs u := by
  constructor
  · intro i hi
    exact ⟨(h.target i hi).1, (h.target i hi).2.mono hd⟩
  · intro hnone hkind
    exact hr.subset (h.reference hnone hkind)

theorem BoundProperties.mono {ps : List Property} (h : BoundProperties ds rs ps) (hd : ds <+: es)
    (hr : rs <+: qs) : BoundProperties es qs ps := by
  intro p hp t ht u hu
  exact (h p hp t ht u hu).mono hd hr

section Finish

theorem chain_link (find : String → Option Nat) (t : PropertyType) :
    (t.link find).chain = t.chain.map (·.link find) := by
  induction t with
  | plain t i => rfl
  | generic t i e ih => simp [PropertyType.link, PropertyType.chain, ih]

theorem link_target (find : String → Option Nat) (t : PropertyType) :
    (t.link find).target = t.token.bind find t.target := by
  cases t <;> rfl

theorem prefix_withConfig (ds : List Declaration) : ds <+: withConfig ds := by
  rw [withConfig]
  split
  · exact List.prefix_rfl
  · exact List.prefix_append _ _

theorem mem_withConfig {x : Declaration} (hx : x ∈ withConfig ds) : x ∈ ds ∨ x = .emptyConfig := by
  rw [withConfig] at hx
  split at hx
  · exact Or.inl hx
  · exact (List.mem_append.1 hx).imp_right List.mem_singleton.1

/-- A config that is supplied has no name. -/
theorem keys_withConfig (ds : List Declaration) : keys (withConfig ds) = keys ds := by
  rw [withConfig]
  split
  · rfl
  · rw [keys_append]
    exact List.append_nil _

theorem typeIndex_withConfig (ds : List Declaration) :
    typeIndex? (withConfig ds) = typeIndex? ds := by
  funext name
  have hno : ([Declaration.emptyConfig].findIdx? fun d => d.isType && d.name == name) = none := rfl
  rw [withConfig]
  split
  · rfl
  · rw [typeIndex?, List.findIdx?_append, hno, Option.map_none, Option.or_none]
    rfl

theorem withConfig_map {g : Declaration → Declaration} (hkind : ∀ x, (g x).kind = x.kind)
    (hempty : g .emptyConfig = .emptyConfig) (ds : List Declaration) :
    (withConfig ds).map g = withConfig (ds.map g) := by
  have hany : ((ds.map g).any fun x => x.kind == .config) = ds.any fun x => x.kind == .config := by
    simp [List.any_map, Function.comp_def, hkind]
  rw [withConfig, withConfig, hany]
  split
  · rfl
  · rw [List.map_append, List.map_singleton, hempty]

theorem keys_finishDeclarations (ds : List Declaration) :
    keys (finishDeclarations ds) = keys ds := by
  rw [finishDeclarations, keys_withConfig, keys, linkAll, List.filterMap_map]
  rfl

theorem prefix_finishDeclarations (ds : List Declaration) :
    linkAll ds <+: finishDeclarations ds := prefix_withConfig _

theorem mem_finishDeclarations {x : Declaration} (hx : x ∈ finishDeclarations ds) :
    x = .emptyConfig ∨ ∃ y ∈ ds, y.link (typeIndex? ds) = x := by
  rcases mem_withConfig hx with hx | hx
  · exact Or.inr (List.mem_map.1 hx)
  · exact Or.inl hx

/-- Binding references moves and renames nothing. -/
theorem NamedAt.finish (h : NamedAt ds i t) : NamedAt (finishDeclarations ds) i t := by
  obtain ⟨x, hx, htype, hname⟩ := h
  have hlink : NamedAt (linkAll ds) i t :=
    ⟨x.link (typeIndex? ds), by rw [linkAll, List.getElem?_map, hx]; rfl, htype, hname⟩
  exact hlink.mono (prefix_finishDeclarations ds)

theorem namedAt_of_typeIndex (h : typeIndex? ds t.lexeme = some i) : NamedAt ds i t := by
  obtain ⟨hi, hfirst, -⟩ := List.findIdx?_eq_some_iff_getElem.1 h
  rw [Bool.and_eq_true, beq_iff_eq] at hfirst
  exact ⟨ds[i], List.getElem?_eq_getElem hi, hfirst.1, hfirst.2⟩

theorem exists_typeIndex {name : String} (h : (Namespace.types, name) ∈ keys ds) :
    ∃ i, typeIndex? ds name = some i := by
  obtain ⟨x, hx, hkey⟩ := List.mem_filterMap.1 h
  obtain ⟨n, hscope, hname⟩ := Option.map_eq_some_iff.1 hkey
  cases hname
  have htype : x.isType = true := by simp [Declaration.isType, DeclarationKind.isType, hscope]
  refine Option.isSome_iff_exists.1 ?_
  rw [typeIndex?, List.findIdx?_isSome, List.any_eq_true]
  exact ⟨x, hx, by simp [htype]⟩

theorem NamedAt.key (h : NamedAt ds i t) :
    ∃ x, ds[i]? = some x ∧ x.key? = some (.types, t.lexeme) := by
  obtain ⟨x, hx, htype, hname⟩ := h
  have hscope : x.kind.scope? = some .types := by
    simpa [Declaration.isType, DeclarationKind.isType] using htype
  exact ⟨x, hx, by rw [Declaration.key?, hscope, hname]; rfl⟩

theorem NamedAt.mem_keys (h : NamedAt ds i t) : (Namespace.types, t.lexeme) ∈ keys ds := by
  obtain ⟨x, hx, hkey⟩ := h.key
  exact List.mem_filterMap.2 ⟨x, List.mem_of_getElem? hx, hkey⟩

/-- A name that stands once has one place. -/
theorem NamedAt.not_lt (hkeys : (keys ds).Nodup) {j : Nat} (hi : NamedAt ds i t)
    (hj : NamedAt ds j t) : ¬ i < j := by
  intro hlt
  obtain ⟨x, hx, hxkey⟩ := hi.key
  obtain ⟨y, hy, hykey⟩ := hj.key
  have hpairwise := List.pairwise_filterMap.1 hkeys
  obtain ⟨hil, rfl⟩ := List.getElem?_eq_some_iff.1 hx
  obtain ⟨hjl, rfl⟩ := List.getElem?_eq_some_iff.1 hy
  exact List.pairwise_iff_getElem.1 hpairwise i j hil hjl hlt _ hxkey _ hykey rfl

/-- Types and enums share a namespace, so where a name stands once they have different names. -/
theorem typeNames_nodup (hkeys : (keys ds).Nodup) :
    ((ds.filter (·.isType)).map (·.name)).Nodup := by
  rw [List.nodup_iff_pairwise_ne, List.pairwise_map]
  have hsublist : (ds.filter (·.isType)).Sublist ds := List.filter_sublist
  refine ((List.pairwise_filterMap.1 hkeys).sublist hsublist).imp_of_mem ?_
  intro x y hx hy hne hname
  have hkey {z : Declaration} (hz : z ∈ ds.filter (·.isType)) :
      z.key? = some (.types, z.name) := by
    have hscope : z.kind.scope? = some .types := by
      simpa [Declaration.isType, DeclarationKind.isType] using (List.mem_filter.1 hz).2
    rw [Declaration.key?, hscope, Option.map_some]
  refine hne _ (hkey hx) _ (hkey hy) ?_
  rw [hname]

/-- Where a name stands once, what it names is found by it. -/
theorem typeIndex_of_namedAt (hkeys : (keys ds).Nodup) (h : NamedAt ds i t) :
    typeIndex? ds t.lexeme = some i := by
  obtain ⟨j, hj⟩ := exists_typeIndex h.mem_keys
  have hfound : NamedAt ds j t := namedAt_of_typeIndex hj
  have hij := h.not_lt hkeys hfound
  have hji := hfound.not_lt hkeys h
  obtain rfl : i = j := by omega
  exact hj

/-- A list of declarations is resolved if all its references name types or enums of the list. -/
theorem resolved_finishDeclarations
    (h : ∀ x ∈ ds, BoundProperties ds rs x.properties)
    (hr : ∀ t ∈ rs, (Namespace.types, t.lexeme) ∈ keys ds) :
    Resolved (finishDeclarations ds) := by
  intro x hx p hp t ht u hu href
  rcases mem_finishDeclarations hx with rfl | ⟨y, hy, rfl⟩
  · cases hp
  obtain ⟨q, hq, rfl⟩ := List.mem_map.1 hp
  obtain ⟨s, hs, rfl⟩ := Option.map_eq_some_iff.1 ht
  rw [chain_link] at hu
  obtain ⟨v, hv, rfl⟩ := List.mem_map.1 hu
  have hbound := h y hy q hq s hs v hv
  have hkind : v.token.kind = .identifier := by simpa [PropertyType.isReference] using href
  rw [link_target, PropertyType.link_token]
  cases htarget : v.target with
  | some i => exact ⟨i, by simp [Token.bind], (hbound.target i htarget).2.finish⟩
  | none =>
    obtain ⟨i, hi⟩ := exists_typeIndex (hr _ (hbound.reference htarget hkind))
    exact ⟨i, by simp [Token.bind, hkind, hi], (namedAt_of_typeIndex hi).finish⟩

end Finish

end GameSchema
