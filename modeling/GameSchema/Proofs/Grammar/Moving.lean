import GameSchema.Proofs.Grammar.Segments
import GameSchema.Proofs.Schema.Renumbering

/-!
# Trees that move

A tree that is spelled elsewhere, behind other declarations than before, describes the same
declarations, with the new places of tokens and the new numbers of what they are bound to. A file
can be read without an error whatever the order of its trees is, since its names, its configs and
its references are the same in every order.
-/

namespace GameSchema.Grammar
open Token

section Trees

variable {find find' : String → Option Nat} {f : Nat → Nat}

@[simp] theorem texts_unplaced (cs : List Token) : texts (cs.map (·.unplaced)) = texts cs := by
  simp [texts]

mutual

@[simp] theorem TypeTree.inlined_unplaced (t : TypeTree) : t.unplaced.inlined = t.inlined := by
  match t with
  | .scalar _ => rfl
  | .reference _ => rfl
  | .generic _ e => exact e.inlined_unplaced
  | .inline _ _ is => simp [TypeTree.unplaced, TypeTree.inlined, is.inlined_unplaced]

@[simp] theorem ItemTree.inlined_unplaced (i : ItemTree) : i.unplaced.inlined = i.inlined := by
  match i with
  | .value _ _ => rfl
  | .field _ _ t => exact t.inlined_unplaced

@[simp] theorem ItemsTree.inlined_unplaced (is : ItemsTree) : is.unplaced.inlined = is.inlined := by
  match is with
  | .nil => rfl
  | .cons i is =>
    simp [ItemsTree.unplaced, ItemsTree.inlined, i.inlined_unplaced, is.inlined_unplaced]

end

mutual

theorem TypeTree.names_unplaced (t : TypeTree) : t.unplaced.names = t.names := by
  match t with
  | .scalar _ => rfl
  | .reference _ => rfl
  | .generic _ e => exact e.names_unplaced
  | .inline _ _ is => simp [TypeTree.unplaced, TypeTree.names, is.names_unplaced]

theorem ItemTree.names_unplaced (i : ItemTree) : i.unplaced.names = i.names := by
  match i with
  | .value _ _ => rfl
  | .field _ _ t => exact t.names_unplaced

theorem ItemsTree.names_unplaced (is : ItemsTree) : is.unplaced.names = is.names := by
  match is with
  | .nil => rfl
  | .cons i is => simp [ItemsTree.unplaced, ItemsTree.names, i.names_unplaced, is.names_unplaced]

end

theorem DeclarationTree.names_unplaced (t : DeclarationTree) : t.unplaced.names = t.names := by
  simp [DeclarationTree.unplaced, DeclarationTree.names, ItemsTree.names_unplaced]

mutual

theorem TypeTree.references_unplaced (t : TypeTree) :
    t.unplaced.references = t.references.map (·.unplaced) := by
  match t with
  | .scalar _ => rfl
  | .reference _ => rfl
  | .generic _ e => exact e.references_unplaced
  | .inline _ _ is => exact is.references_unplaced

theorem ItemTree.references_unplaced (i : ItemTree) :
    i.unplaced.references = i.references.map (·.unplaced) := by
  match i with
  | .value _ _ => rfl
  | .field _ _ t => exact t.references_unplaced

theorem ItemsTree.references_unplaced (is : ItemsTree) :
    is.unplaced.references = is.references.map (·.unplaced) := by
  match is with
  | .nil => rfl
  | .cons i is =>
    simp [ItemsTree.unplaced, ItemsTree.references, i.references_unplaced,
      is.references_unplaced]

end

mutual

/-- What a tree describes moves with the tree. -/
theorem TypeTree.moved (hfind : ∀ name, find' name = (find name).map f) (t : TypeTree) {n m : Nat}
    (h : ∀ j < t.inlined, f (n + j) = m + j) :
    t.unplaced.type find' m = ((t.type find n).renumber f).unplaced ∧
      ∀ cs : List Token, t.unplaced.hoisted find' m (cs.map (·.unplaced)) =
        (t.hoisted find n cs).map fun x => (x.renumber f).unplaced := by
  match t with
  | .scalar _ => exact ⟨rfl, fun _ => rfl⟩
  | .reference name =>
    refine ⟨?_, fun _ => rfl⟩
    simp [TypeTree.unplaced, TypeTree.type, PropertyType.renumber, PropertyType.unplaced, hfind]
  | .generic _ e =>
    obtain ⟨htype, hhoisted⟩ := e.moved hfind h
    refine ⟨?_, fun _ => hhoisted []⟩
    simp [TypeTree.unplaced, TypeTree.type, PropertyType.renumber, PropertyType.unplaced, htype]
  | .inline _ name is =>
    rw [TypeTree.inlined] at h
    obtain ⟨hproperties, hhoisted⟩ := is.moved hfind fun j hj => h j (Nat.lt_succ_of_lt hj)
    have hplace := h is.inlined (Nat.lt_succ_self _)
    constructor
    · simp [TypeTree.unplaced, TypeTree.type, PropertyType.renumber, PropertyType.unplaced, hplace]
    · intro cs
      simp [TypeTree.unplaced, TypeTree.hoisted, hhoisted, hproperties, Declaration.renumber,
        Declaration.unplaced]

theorem ItemTree.moved (hfind : ∀ name, find' name = (find name).map f) (i : ItemTree) {n m : Nat}
    (h : ∀ j < i.inlined, f (n + j) = m + j) :
    i.unplaced.property find' m = ((i.property find n).renumber f).unplaced ∧
      i.unplaced.hoisted find' m =
        (i.hoisted find n).map fun x => (x.renumber f).unplaced := by
  match i with
  | .value _ _ =>
    refine ⟨?_, rfl⟩
    simp [ItemTree.unplaced, ItemTree.property, Property.renumber, Property.unplaced]
  | .field cs _ t =>
    obtain ⟨htype, hhoisted⟩ := t.moved hfind h
    refine ⟨?_, hhoisted cs⟩
    simp [ItemTree.unplaced, ItemTree.property, Property.renumber, Property.unplaced, htype]

theorem ItemsTree.moved (hfind : ∀ name, find' name = (find name).map f) (is : ItemsTree)
    {n m : Nat} (h : ∀ j < is.inlined, f (n + j) = m + j) :
    is.unplaced.properties find' m =
        (is.properties find n).map (fun p => (p.renumber f).unplaced) ∧
      is.unplaced.hoisted find' m =
        (is.hoisted find n).map fun x => (x.renumber f).unplaced := by
  match is with
  | .nil => exact ⟨rfl, rfl⟩
  | .cons i is =>
    rw [ItemsTree.inlined] at h
    obtain ⟨hproperty, hfirst⟩ := i.moved hfind fun j hj => h j (by omega)
    have hshift : ∀ j < is.inlined, f (n + i.inlined + j) = m + i.inlined + j := by
      intro j hj
      rw [Nat.add_assoc, Nat.add_assoc]
      exact h (i.inlined + j) (by omega)
    obtain ⟨hproperties, hrest⟩ := is.moved hfind hshift
    simp [ItemsTree.unplaced, ItemsTree.properties, ItemsTree.hoisted, hproperty, hfirst,
      hproperties, hrest]

end

theorem DeclarationTree.moved (hfind : ∀ name, find' name = (find name).map f)
    (t : DeclarationTree) {n m : Nat} (h : ∀ j < t.items.inlined + 1, f (n + j) = m + j) :
    t.unplaced.flatten find' m = (t.flatten find n).map fun x => (x.renumber f).unplaced := by
  obtain ⟨hproperties, hhoisted⟩ := t.items.moved hfind fun j hj => h j (Nat.lt_succ_of_lt hj)
  by_cases hk : t.kind = .config <;>
    simp [DeclarationTree.unplaced, DeclarationTree.flatten, hk, hproperties, hhoisted,
      Declaration.renumber, Declaration.unplaced]

/-- Trees that differ in places only describe declarations that differ in places only. -/
theorem DeclarationTree.moved_of_unplaced (hfind : ∀ name, find' name = (find name).map f)
    {s t : DeclarationTree} (hs : s.unplaced = t.unplaced) {n m : Nat}
    (h : ∀ j < t.items.inlined + 1, f (n + j) = m + j) :
    (s.flatten find' m).map (·.unplaced) =
      (t.flatten find n).map fun x => (x.renumber f).unplaced := by
  have hstays : s.unplaced.flatten find' m =
      (s.flatten find' m).map fun x => (x.renumber id).unplaced :=
    s.moved (fun name => by simp) fun j _ => rfl
  simp only [Declaration.renumber_id] at hstays
  rw [← hstays, hs, t.moved hfind h]

end Trees

section Files

variable {f g : FileTree}

/-- Every reference of a file is to a name that the file declares. -/
theorem FileTree.undefined_eq_nil_iff :
    f.undefined = [] ↔ ∀ r ∈ f.references, (Namespace.types, r.lexeme) ∈ f.names := by
  have hfirst (ts : List Token) : Scope.firstByLexeme ts = [] ↔ ts = [] := by
    cases ts <;> simp [Scope.firstByLexeme]
  rw [FileTree.undefined, hfirst, List.filter_eq_nil_iff]
  simp

/-- A stream that is read without an error, with the file that it spells. -/
structure Readable (s : TokenStream) (f : FileTree) : Prop where
  spells : SpellsFile f s.toList
  names : f.names.Nodup
  configs : f.configs ≤ 1
  references : ∀ r ∈ f.references, (Namespace.types, r.lexeme) ∈ f.names

theorem isError_of_mem_versionWarnings {compiler : String} {version : Token} {x : Diagnostic}
    (hx : x ∈ versionWarnings compiler version) : x.isError = false := by
  rw [versionWarnings] at hx
  split at hx
  · cases hx
  · rw [List.mem_singleton.1 hx]
    rfl

theorem Readable.parse {s : TokenStream} (h : Readable s f) (compiler : String) :
    (∀ x ∈ (parseStream compiler s).diagnostics, x.isError = false) ∧
      (parseStream compiler s).declarations =
        withConfig (flattenAll f.place? 0 f.declarations) := by
  have hparse := h.spells.parseStream_eq h.names h.configs compiler
  rw [FileTree.undefined_eq_nil_iff.2 h.references, List.map_nil, List.append_nil] at hparse
  obtain ⟨us, hds⟩ := h.spells.declarations
  constructor
  · rw [hparse]
    exact fun x hx => isError_of_mem_versionWarnings hx
  · rw [hparse, ← h.spells.finishDeclarations_eq, finishDeclarations, linkAll, hds.link]
    rfl

theorem Readable.of_parse {compiler : String} {s : TokenStream} (hspells : SpellsFile f s.toList)
    (hnames : f.names.Nodup) (hconfigs : f.configs ≤ 1)
    (h : ∀ x ∈ (parseStream compiler s).diagnostics, x.isError = false) : Readable s f := by
  refine ⟨hspells, hnames, hconfigs, FileTree.undefined_eq_nil_iff.1 ?_⟩
  rw [hspells.parseStream_eq hnames hconfigs] at h
  rw [← List.map_eq_nil_iff (f := Diagnostic.semantic .undefinedType),
    List.eq_nil_iff_forall_not_mem]
  intro x hx
  have herror := h x (List.mem_append_right _ hx)
  obtain ⟨t, -, rfl⟩ := List.mem_map.1 hx
  cases herror

/-- The declarations of a file may be spelled in another order, and elsewhere. -/
theorem Readable.reorder {s s' : TokenStream} (h : Readable s f) (hspells : SpellsFile g s'.toList)
    (hperm : (g.declarations.map (·.unplaced)).Perm (f.declarations.map (·.unplaced))) :
    Readable s' g := by
  have names (f : FileTree) :
      f.names = (f.declarations.map (·.unplaced)).flatMap DeclarationTree.names := by
    simp [FileTree.names, List.flatMap_map, DeclarationTree.names_unplaced]
  have configs (f : FileTree) : f.configs =
      (f.declarations.map (·.unplaced)).countP fun t => t.kind == .config := by
    simp [FileTree.configs, List.countP_map, Function.comp_def, DeclarationTree.unplaced]
  have references (f : FileTree) : f.references.map (·.unplaced) =
      (f.declarations.map (·.unplaced)).flatMap (·.items.references) := by
    simp [FileTree.references, List.flatMap_map, List.map_flatMap, DeclarationTree.unplaced,
      ItemsTree.references_unplaced]
  have hnames : g.names.Perm f.names := by
    rw [names g, names f]
    exact hperm.flatMap_right _
  refine ⟨hspells, hnames.nodup_iff.2 h.names, ?_, ?_⟩
  · rw [configs g, hperm.countP_eq, ← configs f]
    exact h.configs
  · intro r hr
    have hmem : r.unplaced ∈ g.references.map (·.unplaced) := List.mem_map_of_mem hr
    rw [references g, (hperm.flatMap_right _).mem_iff, ← references f] at hmem
    obtain ⟨q, hq, hqr⟩ := List.mem_map.1 hmem
    rw [hnames.mem_iff, ← (unplaced_eq_iff.1 hqr).2]
    exact h.references q hq

end Files

end GameSchema.Grammar
