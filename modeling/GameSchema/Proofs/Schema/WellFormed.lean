import GameSchema.Proofs.Schema.Resolution

/-!
# Well-formed lists of declarations

What holds of the declarations of every source, however broken the source is: there is one config, a
name stands once in its namespace, the values of enums and only those have no type, types are built
from containers around scalars and identifiers, and the identifiers that are bound are those of the
types and enums in the list.
-/

namespace GameSchema

/-- A type whose containers, and only those, have an element type, down to a scalar or an
identifier. -/
def PropertyType.Formed : PropertyType → Prop
  | plain t _ => t.kind.isScalar = true ∨ t.kind = .identifier
  | generic t _ e => t.kind.isContainer = true ∧ e.Formed

/-- The item of a declaration of a given kind: without a type in an enum, with one elsewhere. -/
def Property.Formed (kind : DeclarationKind) (p : Property) : Prop :=
  (p.type = none ↔ kind = .enum) ∧ ∀ t, p.type = some t → t.Formed

def Declaration.Formed (x : Declaration) : Prop := ∀ p ∈ x.properties, p.Formed x.kind

/-- What the declarations of a source always are. -/
structure WellFormed (ds : List Declaration) : Prop where
  oneConfig : (ds.countP fun x => x.kind == .config) = 1
  /-- No two declarations of one namespace have the same name. -/
  names : (keys ds).Nodup
  /-- The items of enums have no type, and all others have one. -/
  typed : ∀ x ∈ ds, ∀ p ∈ x.properties, p.type = none ↔ x.kind = .enum
  /-- The lists and maps of a type, and only those, have an element type. -/
  containers : ∀ x ∈ ds, ∀ p ∈ x.properties, ∀ t, p.type = some t →
    ∀ u ∈ t.chain, u.element?.isSome = u.token.kind.isContainer
  innermost : ∀ x ∈ ds, ∀ p ∈ x.properties, ∀ t, p.type = some t →
    t.innermost.token.kind.isScalar = true ∨ t.innermost.token.kind = .identifier
  /-- Only identifiers are bound, each to a type or enum of its name. -/
  bound : ∀ x ∈ ds, ∀ p ∈ x.properties, ∀ t, p.type = some t →
    ∀ u ∈ t.chain, ∀ i, u.target = some i → u.token.kind = .identifier ∧ NamedAt ds i u.token
  /-- An identifier that is not bound names no type and no enum of the list. -/
  unbound : ∀ x ∈ ds, ∀ p ∈ x.properties, ∀ t, p.type = some t →
    ∀ u ∈ t.chain, u.token.kind = .identifier → u.target = none →
      ∀ y ∈ ds, y.isType = true → y.name ≠ u.token.lexeme

section Formed

variable {t : PropertyType}

theorem PropertyType.Formed.element_isSome (h : t.Formed) :
    ∀ u ∈ t.chain, u.element?.isSome = u.token.kind.isContainer := by
  induction t with
  | plain t i =>
    intro u hu
    rw [List.mem_singleton.1 hu]
    rcases h with h | h
    · cases hk : t.kind <;> simp_all [element?, token, TokenKind.isScalar, TokenKind.isContainer]
    · simp [element?, token, h, TokenKind.isContainer]
  | generic t i e ih =>
    intro u hu
    rcases List.mem_cons.1 hu with rfl | hu
    · exact h.1.symm
    · exact ih h.2 u hu

theorem PropertyType.Formed.innermost_kind (h : t.Formed) :
    t.innermost.token.kind.isScalar = true ∨ t.innermost.token.kind = .identifier := by
  induction t with
  | plain t i => exact h
  | generic t i e ih => exact ih h.2

theorem PropertyType.Formed.link (h : t.Formed) (find : String → Option Nat) :
    (t.link find).Formed := by
  induction t with
  | plain t i => exact h
  | generic t i e ih => exact ⟨h.1, ih h.2⟩

theorem Property.Formed.link {kind : DeclarationKind} {p : Property} (h : p.Formed kind)
    (find : String → Option Nat) : (p.link find).Formed kind := by
  refine ⟨?_, ?_⟩
  · simpa [Property.link] using h.1
  · intro t ht
    obtain ⟨s, hs, rfl⟩ := Option.map_eq_some_iff.1 ht
    exact (h.2 s hs).link find

theorem Declaration.Formed.link {x : Declaration} (h : x.Formed) (find : String → Option Nat) :
    (x.link find).Formed := by
  intro p hp
  obtain ⟨q, hq, rfl⟩ := List.mem_map.1 hp
  exact (h q hq).link find

end Formed

section Finish

variable {ds : List Declaration} {rs : List Token}

theorem formed_of_mem_finishDeclarations (h : ∀ x ∈ ds, x.Formed) {x : Declaration}
    (hx : x ∈ finishDeclarations ds) : x.Formed := by
  rcases mem_finishDeclarations hx with rfl | ⟨y, hy, rfl⟩
  · intro p hp
    cases hp
  · exact (h y hy).link _

/-- A config is supplied exactly where there is none. -/
theorem countP_config_finishDeclarations (h : (ds.countP fun x => x.kind == .config) ≤ 1) :
    ((finishDeclarations ds).countP fun x => x.kind == .config) = 1 := by
  have hlink : ((linkAll ds).countP fun x => x.kind == .config) =
      ds.countP fun x => x.kind == .config := by
    rw [linkAll, List.countP_map]
    rfl
  rw [finishDeclarations, withConfig]
  split
  · next hany =>
    have hpos := List.countP_pos_iff.2 (List.any_eq_true.1 hany)
    omega
  · next hany =>
    have hzero : ((linkAll ds).countP fun x => x.kind == .config) = 0 := by
      rw [List.countP_eq_zero]
      intro x hx hk
      exact hany (List.any_eq_true.2 ⟨x, hx, hk⟩)
    rw [List.countP_append, hzero]
    rfl

theorem name_ne_of_typeIndex {name : String} (h : typeIndex? ds name = none) {x : Declaration}
    (hx : x ∈ finishDeclarations ds) (htype : x.isType = true) : x.name ≠ name := by
  rintro rfl
  rcases mem_finishDeclarations hx with rfl | ⟨y, hy, rfl⟩
  · cases htype
  · have hno := List.findIdx?_eq_none_iff.1 h y hy
    have hy : y.isType = true := htype
    simp [hy] at hno

/-- The types of a list are bound as its names demand when everything is read. -/
theorem bound_finishDeclarations (h : ∀ x ∈ ds, BoundProperties ds rs x.properties)
    {x : Declaration} (hx : x ∈ finishDeclarations ds) {p : Property} (hp : p ∈ x.properties)
    {t : PropertyType} (ht : p.type = some t) {u : PropertyType} (hu : u ∈ t.chain) :
    (∀ i, u.target = some i →
      u.token.kind = .identifier ∧ NamedAt (finishDeclarations ds) i u.token) ∧
    (u.token.kind = .identifier → u.target = none → typeIndex? ds u.token.lexeme = none) := by
  rcases mem_finishDeclarations hx with rfl | ⟨y, hy, rfl⟩
  · cases hp
  obtain ⟨q, hq, rfl⟩ := List.mem_map.1 hp
  obtain ⟨s, hs, rfl⟩ := Option.map_eq_some_iff.1 ht
  rw [chain_link] at hu
  obtain ⟨v, hv, rfl⟩ := List.mem_map.1 hu
  have hbound := h y hy q hq s hs v hv
  rw [link_target, PropertyType.link_token]
  cases htarget : v.target with
  | some i =>
    have hsome : v.token.bind (typeIndex? ds) (some i) = some i := by simp [Token.bind]
    rw [hsome]
    refine ⟨?_, ?_⟩
    · rintro j ⟨⟩
      exact ⟨(hbound.target i htarget).1, (hbound.target i htarget).2.finish⟩
    · intro _ hnone
      cases hnone
  | none =>
    simp only [Token.bind, and_true]
    split
    · next hkind => exact ⟨fun i hi => ⟨hkind, (namedAt_of_typeIndex hi).finish⟩, fun _ hi => hi⟩
    · next hkind =>
      refine ⟨?_, fun hk => absurd hk hkind⟩
      intro i hi
      cases hi

/-- A list is well formed when everything is read if its types, names and configs are in order. -/
theorem wellFormed_finishDeclarations (hbound : ∀ x ∈ ds, BoundProperties ds rs x.properties)
    (hformed : ∀ x ∈ ds, x.Formed) (hkeys : (keys ds).Nodup)
    (hconfig : (ds.countP fun x => x.kind == .config) ≤ 1) :
    WellFormed (finishDeclarations ds) := by
  have formed {x : Declaration} (hx : x ∈ finishDeclarations ds) {p : Property}
      (hp : p ∈ x.properties) : p.Formed x.kind := formed_of_mem_finishDeclarations hformed hx p hp
  constructor
  · exact countP_config_finishDeclarations hconfig
  · rw [keys_finishDeclarations]
    exact hkeys
  · intro x hx p hp
    exact (formed hx hp).1
  · intro x hx p hp t ht
    exact ((formed hx hp).2 t ht).element_isSome
  · intro x hx p hp t ht
    exact ((formed hx hp).2 t ht).innermost_kind
  · intro x hx p hp t ht u hu
    exact (bound_finishDeclarations hbound hx hp ht hu).1
  · intro x hx p hp t ht u hu hkind hnone y hy htype
    exact name_ne_of_typeIndex ((bound_finishDeclarations hbound hx hp ht hu).2 hkind hnone)
      hy htype

end Finish

end GameSchema
