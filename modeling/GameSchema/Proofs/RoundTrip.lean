import GameSchema.Proofs.Compilation
import GameSchema.Proofs.Grammar.Extension
import GameSchema.Proofs.Grammar.Printability
import GameSchema.Proofs.Grammar.Reprint

/-!
# Printing and compiling

A source that compiles without an error is printed as a source that compiles to the same schema. It
can be printed since its tokens have the texts of their kinds, and the printed text is scanned and
read as what it was printed from. The types that were declared inside of others are found by their
names then, and no cycle arises, since the graph of the types stays the same.
-/

namespace GameSchema

namespace Containment

variable {ds es : List Declaration}

theorem contained_unplaced (ns : List Declaration) (p : Property) :
    contained? ns p.unplaced = contained? ns p := by
  cases ht : p.type with
  | none => simp [contained?, Property.unplaced, ht]
  | some t =>
    have hreference : t.unplaced.isReference = t.isReference := by cases t <;> rfl
    have hlexeme : t.unplaced.token.lexeme = t.token.lexeme := by cases t <;> rfl
    simp [contained?, Property.unplaced, ht, hreference, hlexeme]

/-- A change that keeps kinds, names and what properties hold keeps the graph. -/
theorem graph_map {g : Declaration → Declaration} (hkind : ∀ x, (g x).kind = x.kind)
    (hname : ∀ x, (g x).name = x.name)
    (hproperties : ∀ ns x, (g x).properties.filterMap (contained? ns) =
      x.properties.filterMap (contained? ns)) (ds : List Declaration) :
    graph (ds.map g) = graph ds := by
  have hnodes : nodes (ds.map g) = (nodes ds).map g := by
    simp [nodes, List.filter_map, Function.comp_def, hkind]
  have hindex : nodeIndex? ((nodes ds).map g) = nodeIndex? (nodes ds) := by
    funext name
    simp [nodeIndex?, List.findIdx?_map, Function.comp_def, hname]
  have hcontained : contained? ((nodes ds).map g) = contained? (nodes ds) := by
    funext p
    simp only [contained?, hindex]
  rw [graph, hnodes, hcontained, List.map_map, graph]
  exact List.map_congr_left fun x _ => hproperties _ x

theorem graph_unplaced (ds : List Declaration) : graph (ds.map (·.unplaced)) = graph ds := by
  refine graph_map (g := Declaration.unplaced) (fun x => rfl) (fun x => rfl) ?_ ds
  intro ns x
  simp [Declaration.unplaced, List.filterMap_map, contained_unplaced]

theorem graph_printed (ds : List Declaration) : graph (ds.map (·.printed)) = graph ds := by
  refine graph_map (g := Declaration.printed) (fun x => rfl) (fun x => rfl) ?_ ds
  intro ns x
  have hprinted (p : Property) : contained? ns p.printed = contained? ns p :=
    contained_unplaced ns p
  simp [Declaration.printed, List.filterMap_map, hprinted]

/-- No cycle is in a printed schema that is not in the schema. -/
theorem diagnostics_eq_nil (h : es.map (·.unplaced) = ds.map (·.printed))
    (hnamed : ∀ x ∈ nodes ds, x.nameToken ≠ none) (hds : Cycle.diagnostics ds = []) :
    Cycle.diagnostics es = [] := by
  have hgraph : graph es = graph ds := by
    rw [← graph_unplaced, h, graph_printed]
  rw [Cycle.diagnostics, hgraph, Cycle.found_eq_nil hnamed hds]
  rfl

end Containment

section Compile

variable {version source : String} {tokens : List Token}

theorem compile_of_scan (version : String) (h : scan source = .ok tokens) :
    compile version source = ⟨(parse version tokens).metadata, (parse version tokens).declarations,
      (parse version tokens).diagnostics ++ Cycle.diagnostics (parse version tokens).declarations,
      sourceLines source⟩ := by
  simp only [compile, h]

theorem exists_scan (h : (compile version source).hasErrors = false) :
    ∃ tokens, scan source = .ok tokens := by
  cases hscan : scan source with
  | error e =>
    simp only [compile, hscan] at h
    cases h
  | ok tokens => exact ⟨tokens, rfl⟩

/-- A source has no errors if reading it gives none and finds no cycle. -/
theorem hasErrors_eq_false_iff (h : scan source = .ok tokens) :
    (compile version source).hasErrors = false ↔
      (∀ x ∈ (parse version tokens).diagnostics, x.isError = false) ∧
        Cycle.diagnostics (parse version tokens).declarations = [] := by
  rw [compile_of_scan version h, Cycle.diagnostics_eq_nil_iff_isError]
  simp [Compilation.hasErrors]

theorem allLexical_ofList (h : ∀ t ∈ tokens, t.Lexical) :
    Grammar.AllLexical (TokenStream.ofList tokens).toList := by
  refine List.forall_mem_append.2 ⟨?_, ?_⟩
  · intro t ht
    exact h t ((List.takeWhile_sublist _).subset ht)
  · rw [List.forall_mem_singleton]
    exact lexical_eof (TokenStream.eof_kind tokens)

/-- What is read without an error can be printed. -/
theorem printable_of_parse (hlexical : ∀ t ∈ tokens, t.Lexical)
    (h : ∀ x ∈ (parse version tokens).diagnostics, x.isError = false) {c : Compilation}
    (hmetadata : c.metadata = (parse version tokens).metadata)
    (hdeclarations : c.declarations = (parse version tokens).declarations) : c.Printable := by
  have hclean : Grammar.Clean (Grammar.finalDraft version (.ofList tokens)) := by
    intro x hx
    exact Diagnostic.rejects_eq_false (h x (List.mem_append_left _ hx))
  obtain ⟨f, hf, hnames, hconfig⟩ := Grammar.exists_spells (TokenStream.eof_kind tokens) hclean
  have hparse := hf.parseStream_eq hnames hconfig version
  refine hf.printable (allLexical_ofList hlexical) ?_ ?_
  · rw [hmetadata, parse, hparse]
  · rw [hdeclarations, parse, hparse]

end Compile

/-- What makes a schema one that its text describes: all of it can be written, every reference leads
to what it names, and no type holds itself. -/
structure Compilation.Reprintable (c : Compilation) : Prop where
  printable : c.Printable
  wellFormed : WellFormed c.declarations
  resolved : Resolved c.declarations
  acyclic : Cycle.diagnostics c.declarations = []

theorem reprintable_of_not_hasErrors {version source : String}
    (h : (compile version source).hasErrors = false) : (compile version source).Reprintable := by
  obtain ⟨tokens, hscan⟩ := exists_scan h
  obtain ⟨hparse, hcycles⟩ := (hasErrors_eq_false_iff hscan).1 h
  have hcompile := compile_of_scan version hscan
  have hdeclarations : (compile version source).declarations =
      (parse version tokens).declarations := by rw [hcompile]
  have hmetadata : (compile version source).metadata = (parse version tokens).metadata := by
    rw [hcompile]
  constructor
  · exact printable_of_parse (lexical_of_mem_scan hscan) hparse hmetadata hdeclarations
  · rw [hdeclarations, parse, Grammar.parseStream_eq_finalDraft]
    exact Grammar.wellFormed_finalDraft version (.ofList tokens)
  · rw [hdeclarations]
    exact (closed_of_parse hparse).1
  · rw [hdeclarations]
    exact hcycles

namespace Compilation.Reprintable

variable {c : Compilation}

/-- There is always a declaration, if only the empty config. -/
theorem declarations_ne_nil (h : c.Reprintable) : c.declarations ≠ [] := by
  intro hnil
  have hconfig := h.wellFormed.oneConfig
  rw [hnil] at hconfig
  cases hconfig

theorem nameToken_ne_none (h : c.Reprintable) :
    ∀ x ∈ Containment.nodes c.declarations, x.nameToken ≠ none := by
  intro x hx
  obtain ⟨hmem, hkind⟩ := Containment.mem_nodes.1 hx
  obtain ⟨-, t, ht, -⟩ := (h.printable.declarations x hmem).named (by simp [hkind])
  simp [ht]

/-- The text of such a schema compiles to it. -/
theorem compile_eq (h : c.Reprintable) (version : String) :
    (compile version c.render).hasErrors = false ∧
      (compile version c.render).metadata = c.metadata ∧
      (compile version c.render).declarations.map (·.unplaced) =
        c.declarations.map (·.printed) := by
  obtain ⟨us, e, hscan, hus, he⟩ := h.printable.scan_render h.declarations_ne_nil
  obtain ⟨hmetadata, hdeclarations, hclean⟩ :=
    Grammar.parse_of_spelling h.printable h.wellFormed h.resolved hus he version
  have hcycles := Containment.diagnostics_eq_nil hdeclarations h.nameToken_ne_none h.acyclic
  refine ⟨(hasErrors_eq_false_iff hscan).2 ⟨hclean, hcycles⟩, ?_, ?_⟩
  · rw [compile_of_scan version hscan]
    exact hmetadata
  · rw [compile_of_scan version hscan]
    exact hdeclarations

end Compilation.Reprintable

/-- A source that compiles without an error is printed as a text that does so too. The text compiles
to the same header and the same declarations, up to the places of tokens, the comments of properties
and the keyword of a config that the source does not have, and it is printed as itself. -/
theorem compile_render {version source : String}
    (h : (compile version source).hasErrors = false) :
    (compile version (compile version source).render).hasErrors = false ∧
      (compile version (compile version source).render).metadata =
        (compile version source).metadata ∧
      (compile version (compile version source).render).declarations.map (·.unplaced) =
        (compile version source).declarations.map (·.printed) ∧
      (compile version (compile version source).render).render =
        (compile version source).render := by
  obtain ⟨hagain, hmetadata, hdeclarations⟩ := (reprintable_of_not_hasErrors h).compile_eq version
  exact ⟨hagain, hmetadata, hdeclarations, Compilation.render_congr hmetadata hdeclarations⟩

/-- A comment of two lines, a type inside of another one, a comment of a property, and no config. -/
def annotatedSource : String :=
  "/* a\n * b */ name g version 1.0.0 type A { b: map<type B { /* c */ a: list<A> }>, d: int }"

theorem compile_render_annotated : (compile "1.0.0" annotatedSource).hasErrors = false ∧
    (compile "1.0.0" (compile "1.0.0" annotatedSource).render).hasErrors = false ∧
    (compile "1.0.0" (compile "1.0.0" annotatedSource).render).metadata =
      (compile "1.0.0" annotatedSource).metadata ∧
    (compile "1.0.0" (compile "1.0.0" annotatedSource).render).declarations.map (·.unplaced) =
      (compile "1.0.0" annotatedSource).declarations.map (·.printed) ∧
    (compile "1.0.0" (compile "1.0.0" annotatedSource).render).render =
      (compile "1.0.0" annotatedSource).render := by
  have h : (compile "1.0.0" annotatedSource).hasErrors = false := by cbv
  exact ⟨h, compile_render h⟩

/-- What a source is printed as. -/
example : (compile "1.0.0" "name g version 1.0.0 event e { a: type A { x: int } }").render =
    String.intercalate "\n" ["name g", "version 1.0.0", "type A \x7b", "\tx: int,", "\x7d",
      "event e \x7b", "\ta: A,", "\x7d", "config \x7b", "\x7d"] := by
  cbv

end GameSchema
