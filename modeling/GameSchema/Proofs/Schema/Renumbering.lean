import GameSchema.Proofs.Diagnostic.CycleReports
import GameSchema.Proofs.Grammar.Reprint

/-!
# Renumbering of declarations

A list of declarations can be put in another order if the numbers that its types are bound to change
with the places. Names lead to the new places then, as long as none is declared twice, and the types
contain each other as they did, so no cycle arises.
-/

namespace GameSchema

section Renumber

variable (f : Nat → Nat)

/-- A type of which every bound declaration has moved from its place `i` to `f i`. -/
def PropertyType.renumber : PropertyType → PropertyType
  | plain t i => plain t (i.map f)
  | generic t i e => generic t (i.map f) (e.renumber)

def Property.renumber (p : Property) : Property := { p with type := p.type.map (·.renumber f) }

def Declaration.renumber (x : Declaration) : Declaration :=
  { x with properties := x.properties.map (·.renumber f) }

theorem PropertyType.renumber_id (t : PropertyType) : t.renumber id = t := by
  induction t with
  | plain t i => simp [renumber]
  | generic t i e ih => simp [renumber, ih]

theorem Property.renumber_id (p : Property) : p.renumber id = p := by
  have htype : PropertyType.renumber id = id := funext PropertyType.renumber_id
  simp [renumber, htype]

theorem Declaration.renumber_id (x : Declaration) : x.renumber id = x := by
  have hproperty : Property.renumber id = id := funext Property.renumber_id
  simp [renumber, hproperty]

end Renumber

section Outright

variable {a b : Declaration} {f : Nat → Nat}

/-- The declaration has a property that names a declaration outright. -/
def Declaration.Outright (x : Declaration) (name : String) : Prop :=
  ∃ p ∈ x.properties, ∃ t, p.type = some t ∧ t.isReference = true ∧ t.token.lexeme = name

theorem PropertyType.unplaced_token (t : PropertyType) : t.unplaced.token = t.token.unplaced := by
  cases t <;> rfl

theorem PropertyType.renumber_token (t : PropertyType) : (t.renumber f).token = t.token := by
  cases t <;> rfl

theorem Declaration.kind_eq_of_unplaced (h : a.unplaced = (b.renumber f).unplaced) :
    a.kind = b.kind := by
  have hkinds := congrArg Declaration.kind h
  exact hkinds

theorem Declaration.name_eq_of_unplaced (h : a.unplaced = (b.renumber f).unplaced) :
    a.name = b.name := by
  have hnames := congrArg Declaration.name h
  exact hnames

/-- What a declaration names does not depend on places and numbers. -/
theorem Declaration.Outright.of_unplaced {name : String} (h : a.Outright name)
    (hsame : a.unplaced = (b.renumber f).unplaced) : b.Outright name := by
  obtain ⟨p, hp, t, ht, href, hname⟩ := h
  have hmem : p.unplaced ∈ (b.renumber f).unplaced.properties := by
    rw [← hsame]
    exact List.mem_map_of_mem hp
  simp only [Declaration.unplaced, Declaration.renumber, List.map_map, List.mem_map,
    Function.comp_apply] at hmem
  obtain ⟨q, hq, hpq⟩ := hmem
  have htypes := congrArg Property.type hpq
  simp only [Property.unplaced, Property.renumber, ht, Option.map_map, Option.map_some,
    Option.map_eq_some_iff, Function.comp_apply] at htypes
  obtain ⟨s, hs, hst⟩ := htypes
  have htoken := congrArg PropertyType.token hst
  rw [PropertyType.unplaced_token, PropertyType.renumber_token, PropertyType.unplaced_token]
    at htoken
  obtain ⟨hkind, hlexeme⟩ := Grammar.unplaced_eq_iff.1 htoken
  refine ⟨q, hq, s, hs, ?_, ?_⟩
  · rw [PropertyType.isReference, hkind]
    exact href
  · rw [hlexeme]
    exact hname

end Outright

section Cycles
open Containment

variable {ds es : List Declaration} {f : Nat → Nat}

/-- No cycle comes up among types that have moved. -/
theorem Cycle.diagnostics_eq_nil_of_moved (hds : (keys ds).Nodup) (hes : (keys es).Nodup)
    (hdsNamed : ∀ a ∈ nodes ds, a.nameToken ≠ none) (hesNamed : ∀ a ∈ nodes es, a.nameToken ≠ none)
    (h : ∀ a ∈ nodes es, ∃ b ∈ ds, a.unplaced = (b.renumber f).unplaced)
    (hnil : Cycle.diagnostics ds = []) : Cycle.diagnostics es = [] := by
  have hpick : ∀ a, ∃ b, a ∈ nodes es → b ∈ ds ∧ a.unplaced = (b.renumber f).unplaced := by
    intro a
    by_cases ha : a ∈ nodes es
    · obtain ⟨b, hb⟩ := h a ha
      exact ⟨b, fun _ => hb⟩
    · exact ⟨a, fun ha' => absurd ha' ha⟩
  choose g hg using hpick
  have hnode : ∀ a ∈ nodes es, g a ∈ nodes ds := by
    intro a ha
    have hkind := Declaration.kind_eq_of_unplaced (hg a ha).2
    exact mem_nodes.2 ⟨(hg a ha).1, hkind.symm.trans (mem_nodes.1 ha).2⟩
  rw [Cycle.diagnostics_eq_nil_iff (names_nodup hes) hesNamed]
  rw [Cycle.diagnostics_eq_nil_iff (names_nodup hds) hdsNamed] at hnil
  intro a hcycle
  refine hnil (g a) (hcycle.lift g ?_)
  rintro a b ⟨ha, hb, hnames⟩
  refine ⟨hnode a ha, hnode b hb, ?_⟩
  rw [← Declaration.name_eq_of_unplaced (hg b hb).2]
  exact Declaration.Outright.of_unplaced hnames (hg a ha).2

end Cycles

section Entries
open Grammar

/-- Neither places nor numbers nor bindings matter for what a declaration is found by. -/
theorem entries_map {g : Declaration → Declaration} (hkind : ∀ x, (g x).kind = x.kind)
    (hname : ∀ x, (g x).name = x.name) (ds : List Declaration) :
    entries (ds.map g) = entries ds := by
  simp [entries, hkind, hname]

end Entries

section Places

variable {ds es : List Declaration} {f : Nat → Nat}

/-- Where declarations have moved, names lead to the new places. -/
theorem typeIndex_of_moved (hkeys : (keys es).Nodup) (hsubset : keys es ⊆ keys ds)
    (h : ∀ i x, ds[i]? = some x → es[f i]? = some x) (name : String) :
    typeIndex? es name = (typeIndex? ds name).map f := by
  have hname : name = (Token.mk .identifier name .origin).lexeme := rfl
  cases hds : typeIndex? ds name with
  | some i =>
    rw [hname] at hds
    obtain ⟨x, hx, htype, hx'⟩ := namedAt_of_typeIndex hds
    rw [hname]
    exact typeIndex_of_namedAt hkeys ⟨x, h i x hx, htype, hx'⟩
  | none =>
    cases hes : typeIndex? es name with
    | none => rfl
    | some j =>
      rw [hname] at hes
      obtain ⟨i, hi⟩ := exists_typeIndex (hsubset (namedAt_of_typeIndex hes).mem_keys)
      rw [← hname, hds] at hi
      cases hi

end Places

end GameSchema
