import GameSchema.Compilation
import GameSchema.Proofs.Grammar.Binding
import GameSchema.Proofs.Grammar.Soundness
import GameSchema.Proofs.Schema.Containment
import Mathlib

/-!
# Sources without errors

A source that compiles without an error is a schema whose references all lead somewhere and whose
types can be built. The names that are declared are then those of the declarations, since a name
without a declaration belongs to a declaration that was rejected.
-/

namespace GameSchema

theorem Diagnostic.rejects_eq_false {x : Diagnostic} (h : x.isError = false) :
    x.rejects = false := by
  cases x with
  | version => rfl
  | _ => cases h

section Scope

theorem Scope.eq_nil_of_firstByLexeme {ts : List Token} (h : firstByLexeme ts = []) : ts = [] := by
  cases ts with
  | nil => rfl
  | cons t ts => cases h

/-- When no type is found undefined, every reference is declared. -/
theorem Scope.declared_of_finish {s : Scope} (h : ∀ x ∈ s.finish, x.isError = false) :
    ∀ t ∈ s.references, (Namespace.types, t.lexeme) ∈ s.declared := by
  have hundefined : s.undefined = [] := by
    apply List.eq_nil_iff_forall_not_mem.2
    intro t ht
    have herror := h _ (List.mem_map_of_mem ht)
    cases herror
  have hfilter := eq_nil_of_firstByLexeme hundefined
  intro t ht
  have hdeclared := List.filter_eq_nil_iff.1 hfilter t ht
  simpa [isDeclared] using hdeclared

end Scope

namespace Grammar

variable {compiler : String} {s : TokenStream}

/-- When the form of a stream is not rejected, its declarations have the names that it declares. -/
theorem keys_finalDraft (hend : s.eof.kind = .eof) (hclean : Clean (finalDraft compiler s)) :
    (keys (finalDraft compiler s).declarations).Perm (finalDraft compiler s).scope.declared ∧
      (finalDraft compiler s).scope.declared.Nodup := by
  obtain ⟨f, hf, hnames, hconfig⟩ := exists_spells hend hclean
  obtain ⟨-, seen, hdraft⟩ := hf.finalDraft_eq hnames hconfig compiler
  obtain ⟨ts, hds⟩ := hf.declarations
  rw [hdraft]
  exact ⟨hds.keys_perm unbound 0, hnames⟩

theorem resolved_finalDraft (hend : s.eof.kind = .eof) (hclean : Clean (finalDraft compiler s))
    (hfinish : ∀ x ∈ (finalDraft compiler s).scope.finish, x.isError = false) :
    Resolved (finishDeclarations (finalDraft compiler s).declarations) := by
  apply resolved_finishDeclarations (wellBound_finalDraft compiler s).bound
  intro t ht
  have hdeclared := Scope.declared_of_finish hfinish t ht
  exact (keys_finalDraft hend hclean).1.symm.subset hdeclared

theorem named_of_mem_nodes {x : Declaration}
    (hx : x ∈ Containment.nodes (finishDeclarations (finalDraft compiler s).declarations)) :
    x.nameToken ≠ none := by
  obtain ⟨hmem, hkind⟩ := Containment.mem_nodes.1 hx
  rcases mem_finishDeclarations hmem with rfl | ⟨y, hy, rfl⟩
  · cases hkind
  · exact (wellBound_finalDraft compiler s).named y hy

end Grammar

theorem closed_of_parse {version : String} {tokens : List Token}
    (h : ∀ x ∈ (parse version tokens).diagnostics, x.isError = false) :
    Resolved (parse version tokens).declarations ∧
      (keys (parse version tokens).declarations).Nodup ∧
      ∀ x ∈ Containment.nodes (parse version tokens).declarations, x.nameToken ≠ none := by
  have hend := TokenStream.eof_kind tokens
  rw [parse, Grammar.parseStream_eq_finalDraft] at h ⊢
  have hclean : Grammar.Clean (Grammar.finalDraft version (.ofList tokens)) := by
    intro x hx
    exact Diagnostic.rejects_eq_false (h x (List.mem_append_left _ hx))
  obtain ⟨hperm, hnodup⟩ := Grammar.keys_finalDraft hend hclean
  refine ⟨?_, ?_, ?_⟩
  · exact Grammar.resolved_finalDraft hend hclean fun x hx => h x (List.mem_append_right _ hx)
  · rw [keys_finishDeclarations]
    exact hperm.nodup_iff.2 hnodup
  · intro x hx
    exact Grammar.named_of_mem_nodes hx

/-- A source that compiles without an error is a schema in which every reference is bound to the
type or enum that it names, and no type holds itself, so that its types can be built one after the
other. -/
theorem constructible_of_not_hasErrors {version source : String}
    (h : (compile version source).hasErrors = false) :
    Resolved (compile version source).declarations ∧
      (∀ a, ¬ Relation.TransGen (Holds (compile version source).declarations) a a) ∧
      WellFounded fun b a => Holds (compile version source).declarations a b := by
  have herrors : ∀ x ∈ (compile version source).diagnostics, x.isError = false := by
    simpa [Compilation.hasErrors] using h
  cases hscan : scan source with
  | error e =>
    have hscanned := herrors (.scan e) (by simp [compile, hscan])
    cases hscanned
  | ok tokens =>
    have hcompile : compile version source = ⟨(parse version tokens).metadata,
        (parse version tokens).declarations, (parse version tokens).diagnostics ++
          Cycle.diagnostics (parse version tokens).declarations, sourceLines source⟩ := by
      simp only [compile, hscan]
    rw [hcompile] at herrors ⊢
    obtain ⟨hresolved, hkeys, hnamed⟩ :=
      closed_of_parse fun x hx => herrors x (List.mem_append_left _ hx)
    have hcycle : Cycle.diagnostics (parse version tokens).declarations = [] := by
      apply List.eq_nil_iff_forall_not_mem.2
      intro x hx
      have herror := Cycle.isError_of_mem_diagnostics hx
      rw [herrors x (List.mem_append_right _ hx)] at herror
      cases herror
    have hacyclic := not_transGen_holds hresolved hkeys hnamed hcycle
    exact ⟨hresolved, hacyclic, wellFounded_holds hacyclic⟩

/-- Two types that name each other, one of them in a list. -/
def mutualTypes : String := "name g version 1.0.0 type A { b: type B { a: list<A> } }"

theorem constructible_mutualTypes : (compile "1.0.0" mutualTypes).hasErrors = false ∧
    Resolved (compile "1.0.0" mutualTypes).declarations ∧
    (∀ a, ¬ Relation.TransGen (Holds (compile "1.0.0" mutualTypes).declarations) a a) ∧
    WellFounded fun b a => Holds (compile "1.0.0" mutualTypes).declarations a b := by
  have h : (compile "1.0.0" mutualTypes).hasErrors = false := by cbv
  exact ⟨h, constructible_of_not_hasErrors h⟩

end GameSchema
