import GameSchema.Proofs.Schema.CycleSearch
import GameSchema.Proofs.Schema.Resolution
import Mathlib.Data.Fintype.Card
import Mathlib.Data.Fintype.EquivFin
import Mathlib.Data.List.Pairwise
import Mathlib.Order.WellFounded

/-!
# Containment of declarations

A type contains another one if a property of it names the other one outright, and holds it if the
property is bound to it. The graph of a list of declarations shows which types contain which, as long
as no name is declared twice. Where every reference is resolved, a type contains what it holds, so a
search that reports no cycle shows that values can be built.
-/

namespace GameSchema

/-- The outermost type of a property of one type is a reference that is bound to another type. -/
def Holds (ds : List Declaration) (a b : Fin ds.length) : Prop :=
  ds[a].kind = .type ∧ ds[b].kind = .type ∧
    ∃ p ∈ ds[a].properties, ∃ t, p.type = some t ∧ t.isReference = true ∧ t.target = some b.val

/-- The outermost type of a property of one type is a reference by the name of another type. -/
def Contains (ds : List Declaration) (a b : Declaration) : Prop :=
  a ∈ Containment.nodes ds ∧ b ∈ Containment.nodes ds ∧
    ∃ p ∈ a.properties, ∃ t, p.type = some t ∧ t.isReference = true ∧ t.token.lexeme = b.name

namespace Containment

variable {ds : List Declaration}

theorem mem_nodes {x : Declaration} : x ∈ nodes ds ↔ x ∈ ds ∧ x.kind = .type := by
  simp [nodes]

theorem names_nodup (hkeys : (keys ds).Nodup) : ((nodes ds).map (·.name)).Nodup := by
  have htypes : (nodes ds).Sublist (ds.filter (·.isType)) := by
    apply List.monotone_filter_right
    intro x hx
    rw [Declaration.isType, beq_iff_eq.1 hx]
    rfl
  exact (typeNames_nodup hkeys).sublist (htypes.map _)

/-- A type is the only one of its name. -/
theorem eq_of_name_eq (hnames : ((nodes ds).map (·.name)).Nodup) {x y : Declaration}
    (hx : x ∈ nodes ds) (hy : y ∈ nodes ds) (hname : x.name = y.name) : x = y :=
  List.inj_on_of_nodup_map hnames hx hy hname

theorem nodeIndex_name (hnames : ((nodes ds).map (·.name)).Nodup) {x : Declaration}
    (hx : x ∈ nodes ds) : nodeIndex? (nodes ds) x.name = some ((nodes ds).idxOf x) := by
  have hlt := List.idxOf_lt_length_iff.2 hx
  refine List.findIdx?_eq_some_iff_getElem.2 ⟨hlt, ?_, ?_⟩
  · rw [List.getElem_idxOf hlt]
    exact beq_self_eq_true _
  · intro j hj hname
    have hmem : (nodes ds)[j] ∈ nodes ds := List.getElem_mem _
    have heq := eq_of_name_eq hnames hmem hx (beq_iff_eq.1 hname)
    have hne := List.not_of_lt_findIdx hj
    rw [heq, beq_self_eq_true] at hne
    cases hne

theorem targets_idxOf {x : Declaration} (hx : x ∈ nodes ds) :
    (graph ds).targets ((nodes ds).idxOf x) = x.properties.filterMap (contained? (nodes ds)) := by
  have hlt := List.idxOf_lt_length_iff.2 hx
  simp [Graph.targets, graph, List.getElem?_eq_getElem hlt]

theorem contained_eq_some_iff (hnames : ((nodes ds).map (·.name)).Nodup) {b : Declaration}
    (hb : b ∈ nodes ds) (p : Property) : contained? (nodes ds) p = some ((nodes ds).idxOf b) ↔
      ∃ t, p.type = some t ∧ t.isReference = true ∧ t.token.lexeme = b.name := by
  constructor
  · intro h
    simp only [contained?] at h
    split at h
    · next t ht =>
      split at h
      · next href =>
        obtain ⟨hlt, hname, -⟩ := List.findIdx?_eq_some_iff_getElem.1 h
        rw [List.getElem_idxOf hlt] at hname
        exact ⟨t, ht, href, (beq_iff_eq.1 hname).symm⟩
      · cases h
    · cases h
  · rintro ⟨t, ht, href, hname⟩
    simp only [contained?, ht, href, if_true]
    rw [hname]
    exact nodeIndex_name hnames hb

/-- The edges between the nodes of two types tell whether the one contains the other. -/
theorem edge_iff_contains (hnames : ((nodes ds).map (·.name)).Nodup) {a b : Declaration}
    (ha : a ∈ nodes ds) (hb : b ∈ nodes ds) :
    (graph ds).Edge ((nodes ds).idxOf a) ((nodes ds).idxOf b) ↔ Contains ds a b := by
  have hlt : (nodes ds).idxOf b < (graph ds).length := by
    rw [graph_length]
    exact List.idxOf_lt_length_iff.2 hb
  rw [Graph.Edge, targets_idxOf ha, List.mem_filterMap]
  simp only [contained_eq_some_iff hnames hb]
  constructor
  · rintro ⟨hproperty, -⟩
    exact ⟨ha, hb, hproperty⟩
  · rintro ⟨-, -, hproperty⟩
    exact ⟨hproperty, hlt⟩

/-- A type contains what it holds. -/
theorem contains_of_holds (hresolved : Resolved ds) {a b : Fin ds.length} (h : Holds ds a b) :
    Contains ds ds[a] ds[b] := by
  obtain ⟨ha, hb, p, hp, t, ht, href, htarget⟩ := h
  obtain ⟨i, hi, x, hx, -, hname⟩ :=
    hresolved ds[a] (List.getElem_mem _) p hp t ht t t.mem_chain_self href
  obtain rfl : b.val = i := Option.some.inj (htarget.symm.trans hi)
  obtain rfl : ds[b] = x := Option.some.inj ((List.getElem?_eq_getElem b.isLt).symm.trans hx)
  exact ⟨mem_nodes.2 ⟨List.getElem_mem _, ha⟩, mem_nodes.2 ⟨List.getElem_mem _, hb⟩, p, hp, t, ht,
    href, hname.symm⟩

/-- What a type holds is among the targets of its node. -/
theorem edge_of_holds (hresolved : Resolved ds) (hkeys : (keys ds).Nodup) {a b : Fin ds.length}
    (h : Holds ds a b) :
    (graph ds).Edge ((nodes ds).idxOf ds[a]) ((nodes ds).idxOf ds[b]) := by
  have hcontains := contains_of_holds hresolved h
  exact (edge_iff_contains (names_nodup hkeys) hcontains.1 hcontains.2.1).2 hcontains

end Containment

section Acyclic

variable {ds : List Declaration}

/-- When no cycle is reported, no type holds itself through other types. -/
theorem not_transGen_holds (hresolved : Resolved ds) (hkeys : (keys ds).Nodup)
    (hnamed : ∀ x ∈ Containment.nodes ds, x.nameToken ≠ none) (h : Cycle.diagnostics ds = [])
    (a : Fin ds.length) : ¬ Relation.TransGen (Holds ds) a a := by
  intro hcycle
  have hwalk := hcycle.lift (fun a : Fin ds.length => (Containment.nodes ds).idxOf ds[a])
    fun a b hab => Containment.edge_of_holds hresolved hkeys hab
  exact Cycle.not_transGen_of_diagnostics hnamed h _ hwalk

/-- Without cycles, what a type holds can be built before it. -/
theorem wellFounded_holds (h : ∀ a, ¬ Relation.TransGen (Holds ds) a a) :
    WellFounded fun b a => Holds ds a b := by
  have hirrefl : Std.Irrefl (Relation.TransGen fun b a => Holds ds a b) :=
    ⟨fun a ha => h a (Relation.transGen_swap.1 ha)⟩
  have hwell := Finite.wellFounded_of_trans_of_irrefl (Relation.TransGen fun b a => Holds ds a b)
  exact hwell.mono fun b a hab => .single hab

end Acyclic

end GameSchema
