import GameSchema.Compilation
import GameSchema.Proofs.Grammar.Extension
import GameSchema.Proofs.Grammar.Provenance
import GameSchema.Proofs.Schema.ElementaryCycle
import GameSchema.Proofs.Token.Geometry
import Mathlib

/-!
# What the reports of declaration cycles say

The searches find every elementary cycle of the containment graph, one rotation for each of its
nodes. What is selected for a report has no two cycles that start at one node or are rotations of
each other, and a cycle is left out only if its first node or one of its rotations is selected.
-/

namespace GameSchema

namespace Cycle

section Canonical

variable {c d : List Nat}

theorem isRotated_canonical (c : List Nat) : c.IsRotated (canonical c) := by
  cases hmin : c.min? with
  | none =>
    rw [List.min?_eq_none_iff.1 hmin]
    exact .refl _
  | some m =>
    have hle : c.idxOf m ≤ c.length := List.idxOf_le_length
    refine ⟨c.idxOf m, ?_⟩
    rw [List.rotate_eq_drop_append_take hle]
    simp only [canonical, hmin]

theorem head_canonical (c : List Nat) : (canonical c).head? = c.min? := by
  cases hmin : c.min? with
  | none => simp only [canonical, hmin, List.head?_nil]
  | some m =>
    have hlt := List.idxOf_lt_length_iff.2 (List.min?_mem hmin)
    simp only [canonical, hmin]
    rw [List.drop_eq_getElem_cons hlt, List.getElem_idxOf hlt]
    rfl

theorem min_eq_of_isRotated (h : c.IsRotated d) : c.min? = d.min? := by
  cases hmin : d.min? with
  | none =>
    rw [List.min?_eq_none_iff] at hmin ⊢
    rw [hmin] at h
    exact List.isRotated_nil_iff.1 h
  | some m =>
    rw [List.min?_eq_some_iff] at hmin ⊢
    refine ⟨h.mem_iff.2 hmin.1, ?_⟩
    intro n hn
    exact hmin.2 n (h.mem_iff.1 hn)

/-- The canonical form tells cycles without repeated nodes apart, up to rotation. -/
theorem canonical_eq_iff (hc : c.Nodup) : canonical c = canonical d ↔ c.IsRotated d := by
  constructor
  · intro h
    exact (isRotated_canonical c).trans (h ▸ (isRotated_canonical d).symm)
  · intro h
    have hrotated := ((isRotated_canonical c).symm.trans h).trans (isRotated_canonical d)
    have hhead : (canonical c).head? = (canonical d).head? := by
      rw [head_canonical, head_canonical, min_eq_of_isRotated h]
    have hnodup := (isRotated_canonical c).nodup_iff.1 hc
    cases hcanonical : canonical c with
    | nil =>
      rw [hcanonical] at hhead
      exact (List.head?_eq_none_iff.1 hhead.symm).symm
    | cons m l =>
      rw [hcanonical] at hhead hrotated hnodup
      obtain ⟨k, hk⟩ := List.head?_eq_some_iff.1 hhead.symm
      rw [hk] at hrotated ⊢
      exact eq_of_isRotated hnodup hrotated

end Canonical

section Select

variable {cs : List (List Nat)} {c : List Nat}

theorem select_sublist (reported : List Nat) (known cs : List (List Nat)) :
    (select reported known cs).Sublist cs := by
  fun_induction select reported known cs with
  | case1 => exact .refl _
  | case2 reported known cs ih => exact ih.cons _
  | case3 reported known cs v l hskip ih =>
    rw [if_pos hskip]
    exact ih.cons _
  | case4 reported known cs v l hnew ih =>
    rw [if_neg hnew]
    exact ih.cons_cons _

/-- A selected cycle starts at a node without a report, and no report is about it. -/
theorem fresh_of_mem_select {reported : List Nat} {known : List (List Nat)}
    (h : c ∈ select reported known cs) :
    (∀ v ∈ c.head?, v ∉ reported) ∧ canonical c ∉ known := by
  fun_induction select reported known cs with
  | case1 => cases h
  | case2 reported known cs ih => exact ih h
  | case3 reported known cs v l hskip ih =>
    rw [if_pos hskip] at h
    exact ih h
  | case4 reported known cs v l hnew ih =>
    rw [if_neg hnew] at h
    obtain ⟨hv, hl⟩ := not_or.1 hnew
    rcases List.mem_cons.1 h with rfl | h
    · refine ⟨?_, hl⟩
      rintro u ⟨⟩
      exact hv
    · obtain ⟨hhead, hcanonical⟩ := ih h
      refine ⟨?_, fun hmem => hcanonical (List.mem_cons_of_mem _ hmem)⟩
      intro u hu hmem
      exact hhead u hu (List.mem_cons_of_mem _ hmem)

/-- No two selected cycles start at one node or have the same canonical form. -/
theorem pairwise_select (reported : List Nat) (known : List (List Nat)) (hne : ∀ c ∈ cs, c ≠ []) :
    (select reported known cs).Pairwise fun c d =>
      c.head? ≠ d.head? ∧ canonical c ≠ canonical d := by
  fun_induction select reported known cs with
  | case1 => exact .nil
  | case2 reported known cs ih => exact absurd rfl (hne [] List.mem_cons_self)
  | case3 reported known cs v l hskip ih =>
    rw [if_pos hskip]
    exact ih fun c hc => hne c (List.mem_cons_of_mem _ hc)
  | case4 reported known cs v l hnew ih =>
    rw [if_neg hnew]
    refine List.pairwise_cons.2 ⟨?_, ih fun c hc => hne c (List.mem_cons_of_mem _ hc)⟩
    intro d hd
    obtain ⟨hhead, hcanonical⟩ := fresh_of_mem_select hd
    constructor
    · intro heq
      exact hhead v heq.symm List.mem_cons_self
    · intro heq
      rw [← heq] at hcanonical
      exact hcanonical List.mem_cons_self

/-- A cycle is left out only for its first node or for a rotation of it. -/
theorem covered_of_mem (reported : List Nat) (known : List (List Nat)) {v : Nat} {l : List Nat}
    (h : v :: l ∈ cs) :
    v ∈ reported ∨ canonical (v :: l) ∈ known ∨ ∃ d ∈ select reported known cs,
      d.head? = some v ∨ canonical d = canonical (v :: l) := by
  fun_induction select reported known cs with
  | case1 => cases h
  | case2 reported known cs ih =>
    rcases List.mem_cons.1 h with h | h
    · cases h
    · exact ih h
  | case3 reported known cs u m hskip ih =>
    rw [if_pos hskip]
    rcases List.mem_cons.1 h with h | h
    · cases h
      rcases hskip with hu | hm
      · exact .inl hu
      · exact .inr (.inl hm)
    · exact ih h
  | case4 reported known cs u m hnew ih =>
    rw [if_neg hnew]
    rcases List.mem_cons.1 h with h | h
    · cases h
      exact .inr (.inr ⟨_, List.mem_cons_self, .inl rfl⟩)
    · rcases ih h with hv | hl | ⟨d, hd, hcover⟩
      · rcases List.mem_cons.1 hv with rfl | hv
        · exact .inr (.inr ⟨_, List.mem_cons_self, .inl rfl⟩)
        · exact .inl hv
      · rcases List.mem_cons.1 hl with hl | hl
        · exact .inr (.inr ⟨_, List.mem_cons_self, .inr hl.symm⟩)
        · exact .inr (.inl hl)
      · exact .inr (.inr ⟨d, List.mem_cons_of_mem _ hd, hcover⟩)

end Select

/-- The searches from all nodes in turn find the elementary cycles, and nothing else. -/
theorem mem_found_iff {g : Graph} {c : List Nat} : c ∈ found g ↔ Elementary g.Edge c := by
  constructor
  · intro h
    obtain ⟨root, hroot, hc⟩ := List.mem_flatMap.1 h
    exact Search.elementary_of_mem_closings (Search.consistent_start (List.mem_range.1 hroot)) hc
  · intro h
    obtain ⟨v, l, rfl⟩ := List.exists_cons_of_ne_nil h.ne_nil
    obtain ⟨u, hedge⟩ := h.exists_step List.mem_cons_self
    exact List.mem_flatMap.2
      ⟨v, List.mem_range.2 hedge.2, Search.mem_closings_of_elementary h⟩

theorem elementary_of_mem_select {g : Graph} {c : List Nat}
    (h : c ∈ select [] [] (found g)) : Elementary g.Edge c :=
  mem_found_iff.1 ((select_sublist [] [] _).subset h)

end Cycle

namespace Containment

variable {ds : List Declaration} {e : List Declaration}

/-- The types at some numbers. -/
def typesAt (ds : List Declaration) (c : List Nat) : List Declaration :=
  c.filterMap fun i => (nodes ds)[i]?

theorem typesAt_map_idxOf (he : ∀ a ∈ e, a ∈ nodes ds) :
    typesAt ds (e.map (nodes ds).idxOf) = e := by
  have hget : ∀ a ∈ e, ((fun i => (nodes ds)[i]?) ∘ (nodes ds).idxOf) a = some a := by
    intro a ha
    exact List.getElem?_idxOf (he a ha)
  rw [typesAt, List.filterMap_map, List.filterMap_congr hget, List.filterMap_some]

theorem map_idxOf_typesAt (hnodup : (nodes ds).Nodup) {c : List Nat}
    (hc : ∀ i ∈ c, i < (nodes ds).length) : (typesAt ds c).map (nodes ds).idxOf = c := by
  have hindex : ∀ i ∈ c, ((nodes ds)[i]?).map (nodes ds).idxOf = some i := by
    intro i hi
    rw [List.getElem?_eq_getElem (hc i hi), Option.map_some, hnodup.idxOf_getElem]
  rw [typesAt, List.map_filterMap, List.filterMap_congr hindex, List.filterMap_some]

theorem mem_nodes_of_mem_typesAt {c : List Nat} {a : Declaration} (h : a ∈ typesAt ds c) :
    a ∈ nodes ds := by
  obtain ⟨i, -, hi⟩ := List.mem_filterMap.1 h
  exact List.mem_of_getElem? hi

theorem mem_nodes_of_elementary (h : Elementary (Contains ds) e) : ∀ a ∈ e, a ∈ nodes ds := by
  intro a ha
  obtain ⟨b, hb⟩ := h.exists_step ha
  exact hb.2.1

theorem elementary_map_idxOf_iff (hnames : ((nodes ds).map (·.name)).Nodup)
    (he : ∀ a ∈ e, a ∈ nodes ds) :
    Elementary (graph ds).Edge (e.map (nodes ds).idxOf) ↔ Elementary (Contains ds) e := by
  apply Elementary.map_iff
  · intro a ha b hb h
    exact (List.idxOf_inj (he a ha)).1 h
  · intro a ha b hb
    exact edge_iff_contains hnames (he a ha) (he b hb)

end Containment

namespace Cycle
open Containment

variable {ds : List Declaration}

/-- The cycles behind the reports, as types. -/
def reported (ds : List Declaration) : List (List Declaration) :=
  (select [] [] (found (graph ds))).map (typesAt ds)

/-- A cycle that is selected is that of some types. -/
theorem exists_types_of_mem_select (hnames : ((nodes ds).map (·.name)).Nodup) {c : List Nat}
    (h : c ∈ select [] [] (found (graph ds))) :
    Elementary (Contains ds) (typesAt ds c) ∧ (typesAt ds c).map (nodes ds).idxOf = c := by
  have helementary := elementary_of_mem_select h
  have hbounded : ∀ i ∈ c, i < (nodes ds).length := by
    intro i hi
    obtain ⟨u, hedge⟩ := helementary.exists_step hi
    rw [← graph_length ds]
    exact hedge.2
  have hmap := map_idxOf_typesAt (hnames.of_map _) hbounded
  rw [← hmap] at helementary
  exact ⟨(elementary_map_idxOf_iff hnames fun a => mem_nodes_of_mem_typesAt).1 helementary, hmap⟩

theorem elementary_of_mem_reported (hnames : ((nodes ds).map (·.name)).Nodup)
    {e : List Declaration} (h : e ∈ reported ds) : Elementary (Contains ds) e := by
  obtain ⟨c, hc, rfl⟩ := List.mem_map.1 h
  exact (exists_types_of_mem_select hnames hc).1

/-- No two reports are at one type or about rotations of one cycle. -/
theorem pairwise_reported (hnames : ((nodes ds).map (·.name)).Nodup) :
    (select [] [] (found (graph ds))).Pairwise fun c d =>
      (typesAt ds c).head? ≠ (typesAt ds d).head? ∧
        ¬ (typesAt ds c).IsRotated (typesAt ds d) := by
  have hne : ∀ c ∈ found (graph ds), c ≠ [] := fun c hc => (mem_found_iff.1 hc).ne_nil
  refine (pairwise_select [] [] hne).imp_of_mem ?_
  rintro c d hc hd ⟨hhead, hcanonical⟩
  rw [Ne, canonical_eq_iff (elementary_of_mem_select hc).nodup] at hcanonical
  obtain ⟨-, hcmap⟩ := exists_types_of_mem_select hnames hc
  obtain ⟨-, hdmap⟩ := exists_types_of_mem_select hnames hd
  rw [← hcmap, ← hdmap] at hhead hcanonical
  constructor
  · intro heq
    rw [List.head?_map, List.head?_map, heq] at hhead
    exact hhead rfl
  · intro hrotated
    exact hcanonical (hrotated.map _)

/-- A cycle has a report at its first type unless one of its rotations has a report. -/
theorem reported_covers (hnames : ((nodes ds).map (·.name)).Nodup) {a : Declaration}
    {l : List Declaration} (h : Elementary (Contains ds) (a :: l)) :
    ∃ e ∈ reported ds, e.head? = some a ∨ e.IsRotated (a :: l) := by
  have hmem := mem_nodes_of_elementary h
  have hfound := mem_found_iff.2 ((elementary_map_idxOf_iff hnames hmem).2 h)
  rcases covered_of_mem [] [] hfound with hno | hno | ⟨d, hd, hcover⟩
  · cases hno
  · cases hno
  · obtain ⟨helementary, hmap⟩ := exists_types_of_mem_select hnames hd
    refine ⟨typesAt ds d, List.mem_map_of_mem hd, ?_⟩
    rcases hcover with hhead | hcanonical
    · left
      rw [← hmap, List.head?_map] at hhead
      obtain ⟨b, hb, hindex⟩ := Option.map_eq_some_iff.1 hhead
      have hbmem := mem_nodes_of_elementary helementary b (List.mem_of_head? hb)
      rw [hb, (List.idxOf_inj hbmem).1 hindex]
    · right
      have hrotated := (canonical_eq_iff (elementary_of_mem_select hd).nodup).1 hcanonical
      obtain ⟨xs, ys, hxs, hys⟩ := exists_append_of_isRotated hrotated
      have ha : a :: l = typesAt ds (ys ++ xs) := by
        rw [← hys]
        exact (typesAt_map_idxOf hmem).symm
      rw [ha, hxs, typesAt, typesAt, List.filterMap_append, List.filterMap_append]
      exact List.isRotated_append

end Cycle

section Paths

/-- The names along a cycle, from its first type around and back to it. -/
def cyclePath (e : List Declaration) : List String := (e ++ e.head?.toList).map (·.name)

/-- The message of a diagnostic shows a cycle. -/
def Renders (x : Diagnostic) (e : List Declaration) : Prop :=
  x.message = "Declaration cycle detected: " ++ String.intercalate "->" (cyclePath e)

theorem IsWord.not_mem_of_not_part {w : String} (h : IsWord w) {c : Char}
    (hc : Scan.isWordPart c = false) : c ∉ w.toList := by
  obtain ⟨d, ds, hw, -, hparts⟩ := h
  intro hmem
  rw [hw] at hmem
  rw [hparts c hmem] at hc
  cases hc

/-- Words that are joined by arrows are found again between the dashes. -/
theorem pieces_intercalate {w : String} {ws : List String} (h : ∀ v ∈ w :: ws, IsWord v) :
    Text.pieces '-' (String.intercalate "->" (w :: ws)).toList =
      w.toList :: ws.map fun v => '>' :: v.toList := by
  have hdash : '-' ∉ w.toList := (h w List.mem_cons_self).not_mem_of_not_part rfl
  induction ws generalizing w with
  | nil => simpa using Text.pieces_of_not_mem hdash
  | cons v ws ih =>
    have hrest := List.forall_mem_cons.1 h
    have hjoin : (String.intercalate "->" (w :: v :: ws)).toList =
        w.toList ++ '-' :: '>' :: (String.intercalate "->" (v :: ws)).toList := by
      simp
    have hpieces := ih hrest.2 ((hrest.2 v List.mem_cons_self).not_mem_of_not_part rfl)
    rw [hjoin, Text.pieces_append hdash, Text.pieces, if_neg (by decide), hpieces]
    rfl

theorem intercalate_injective {vs ws : List String} (hvs : ∀ v ∈ vs, IsWord v)
    (hws : ∀ w ∈ ws, IsWord w) (hv : vs ≠ []) (hw : ws ≠ [])
    (h : String.intercalate "->" vs = String.intercalate "->" ws) : vs = ws := by
  obtain ⟨v, vs, rfl⟩ := List.exists_cons_of_ne_nil hv
  obtain ⟨w, ws, rfl⟩ := List.exists_cons_of_ne_nil hw
  have hpieces := congrArg (fun s => Text.pieces '-' s.toList) h
  simp only [pieces_intercalate hvs, pieces_intercalate hws] at hpieces
  obtain ⟨hfirst, hmore⟩ := List.cons.inj hpieces
  have hinj : Function.Injective fun v : String => '>' :: v.toList := by
    intro u v huv
    exact String.toList_injective (List.cons.inj huv).2
  rw [String.toList_injective hfirst, hinj.list_map hmore]

end Paths

/-- The types of a schema can be told apart by their names, which are words, and by the tokens of
these names. -/
structure TypesNamed (ds : List Declaration) : Prop where
  names : ((Containment.nodes ds).map (·.name)).Nodup
  words : ∀ a ∈ Containment.nodes ds, IsWord a.name
  named : ∀ a ∈ Containment.nodes ds, a.nameToken ≠ none
  tokens : ((Containment.nodes ds).map (·.nameToken)).Nodup

section Reports
open Containment

variable {ds : List Declaration} {e : List Declaration} {x : Diagnostic}

theorem Containment.filterMap_nodeIndex (hnames : ((nodes ds).map (·.name)).Nodup)
    (he : ∀ a ∈ e, a ∈ nodes ds) :
    (e.map (·.name)).filterMap (nodeIndex? (nodes ds)) = e.map (nodes ds).idxOf := by
  have hindex : ∀ a ∈ e, (nodeIndex? (nodes ds) ∘ (·.name)) a = (some ∘ (nodes ds).idxOf) a := by
    intro a ha
    exact nodeIndex_name hnames (he a ha)
  rw [List.filterMap_map, List.filterMap_congr hindex, List.filterMap_eq_map]

/-- Cycles of types with the same path are equal. -/
theorem eq_of_cyclePath_eq (hnames : ((nodes ds).map (·.name)).Nodup) {d : List Declaration}
    (hd : Elementary (Contains ds) d) (he : Elementary (Contains ds) e)
    (h : cyclePath d = cyclePath e) : d = e := by
  have hmemd := mem_nodes_of_elementary hd
  have hmeme := mem_nodes_of_elementary he
  obtain ⟨a, l, rfl⟩ := List.exists_cons_of_ne_nil hd.ne_nil
  obtain ⟨b, m, rfl⟩ := List.exists_cons_of_ne_nil he.ne_nil
  simp only [cyclePath, List.head?_cons, Option.toList_some, List.map_append] at h
  obtain ⟨hmap, -⟩ := List.append_inj' h rfl
  rw [← typesAt_map_idxOf hmemd, ← filterMap_nodeIndex hnames hmemd, hmap,
    filterMap_nodeIndex hnames hmeme, typesAt_map_idxOf hmeme]

/-- A message shows one cycle at most. -/
theorem TypesNamed.eq_of_renders (h : TypesNamed ds) {d : List Declaration}
    (hd : Elementary (Contains ds) d) (he : Elementary (Contains ds) e) (hxd : Renders x d)
    (hxe : Renders x e) : d = e := by
  have hwords {c : List Declaration} (hc : Elementary (Contains ds) c) :
      ∀ w ∈ cyclePath c, IsWord w := by
    intro w hw
    obtain ⟨a, ha, rfl⟩ := List.mem_map.1 hw
    refine h.words a (mem_nodes_of_elementary hc a ?_)
    rcases List.mem_append.1 ha with ha | ha
    · exact ha
    · exact List.mem_of_head? (Option.mem_toList.1 ha)
  have hne {c : List Declaration} (hc : Elementary (Contains ds) c) : cyclePath c ≠ [] := by
    simp [cyclePath, hc.ne_nil]
  apply eq_of_cyclePath_eq h.names hd he
  apply intercalate_injective (hwords hd) (hwords he) (hne hd) (hne he)
  have hmessage := congrArg String.toList (hxd.symm.trans hxe)
  rw [String.toList_append, String.toList_append] at hmessage
  exact String.toList_injective (List.append_cancel_left hmessage)

namespace Cycle

/-- The report of a cycle shows it and stands at its first type. -/
theorem report_eq_some_iff {c : List Nat} {a : Declaration} {l : List Declaration}
    (hc : typesAt ds c = a :: l) : report? (nodes ds) c = some x ↔
      ∃ t, a.nameToken = some t ∧ x = .semantic (.declarationCycle (cyclePath (a :: l))) t := by
  have hreport : report? (nodes ds) c =
      a.nameToken.map (.semantic (.declarationCycle (cyclePath (a :: l)))) := by
    rw [typesAt] at hc
    simp only [report?, hc]
    rfl
  rw [hreport, Option.map_eq_some_iff]
  constructor
  · rintro ⟨t, ht, rfl⟩
    exact ⟨t, ht, rfl⟩
  · rintro ⟨t, ht, rfl⟩
    exact ⟨t, ht, rfl⟩

theorem renders_of_report (hnames : ((nodes ds).map (·.name)).Nodup) {c : List Nat}
    (hc : c ∈ select [] [] (found (graph ds))) (h : report? (nodes ds) c = some x) :
    ∃ a l, typesAt ds c = a :: l ∧ Elementary (Contains ds) (a :: l) ∧ Renders x (a :: l) ∧
      x.token? = a.nameToken := by
  obtain ⟨helementary, -⟩ := exists_types_of_mem_select hnames hc
  obtain ⟨a, l, htypes⟩ := List.exists_cons_of_ne_nil helementary.ne_nil
  rw [htypes] at helementary
  obtain ⟨t, ht, rfl⟩ := (report_eq_some_iff htypes).1 h
  exact ⟨a, l, htypes, helementary, rfl, ht.symm⟩

theorem exists_report (hnamed : ∀ a ∈ nodes ds, a.nameToken ≠ none) {a : Declaration}
    {l : List Declaration} (h : a :: l ∈ reported ds) :
    ∃ x ∈ diagnostics ds, Renders x (a :: l) ∧ x.token? = a.nameToken := by
  obtain ⟨c, hc, htypes⟩ := List.mem_map.1 h
  have hmem : a ∈ nodes ds := by
    apply mem_nodes_of_mem_typesAt (c := c)
    rw [htypes]
    exact List.mem_cons_self
  obtain ⟨t, ht⟩ := Option.ne_none_iff_exists'.1 (hnamed a hmem)
  have hreport := (report_eq_some_iff htypes).2 ⟨t, ht, rfl⟩
  exact ⟨_, List.mem_filterMap.2 ⟨c, hc, hreport⟩, rfl, ht.symm⟩

/-- There is no report where no type contains itself, and only there. -/
theorem diagnostics_eq_nil_iff (hnames : ((nodes ds).map (·.name)).Nodup)
    (hnamed : ∀ a ∈ nodes ds, a.nameToken ≠ none) :
    diagnostics ds = [] ↔ ∀ a, ¬ Relation.TransGen (Contains ds) a a := by
  constructor
  · intro h a hcycle
    have hwalk := hcycle.lift (nodes ds).idxOf
      fun a b hab => (edge_iff_contains hnames hab.1 hab.2.1).2 hab
    exact not_transGen_of_diagnostics hnamed h _ hwalk
  · intro h
    apply List.eq_nil_iff_forall_not_mem.2
    intro x hx
    obtain ⟨c, hc, hreport⟩ := List.mem_filterMap.1 hx
    obtain ⟨a, l, -, helementary, -⟩ := renders_of_report hnames hc hreport
    exact h a helementary.transGen

/-- The reports stand for the elementary cycles of the containment graph. Each shows one, from and
to the type at whose name it stands. No two stand at one type or show rotations of one cycle. A
cycle of which no rotation is shown has a report at each of its types. So there is no report exactly
when no type contains itself. -/
theorem diagnostics_represent_cycles (h : TypesNamed ds) :
    (∀ x ∈ diagnostics ds, ∃ a l, Elementary (Contains ds) (a :: l) ∧ Renders x (a :: l) ∧
      x.token? = a.nameToken) ∧
    ((diagnostics ds).Pairwise fun x y => x.token? ≠ y.token? ∧
      ∀ d e, Elementary (Contains ds) d → Elementary (Contains ds) e → Renders x d →
        Renders y e → ¬ d.IsRotated e) ∧
    (∀ e, Elementary (Contains ds) e →
      (∃ x ∈ diagnostics ds, ∃ d, Renders x d ∧ d.IsRotated e) ∨
        ∀ a ∈ e, ∃ x ∈ diagnostics ds, x.token? = a.nameToken) ∧
    (diagnostics ds = [] ↔ ∀ a, ¬ Relation.TransGen (Contains ds) a a) := by
  refine ⟨?_, ?_, ?_, diagnostics_eq_nil_iff h.names h.named⟩
  · intro x hx
    obtain ⟨c, hc, hreport⟩ := List.mem_filterMap.1 hx
    obtain ⟨a, l, -, hx⟩ := renders_of_report h.names hc hreport
    exact ⟨a, l, hx⟩
  · rw [diagnostics, List.pairwise_filterMap]
    refine (pairwise_reported h.names).imp_of_mem ?_
    rintro c d hc hd ⟨hhead, hrotated⟩ x hx y hy
    obtain ⟨a, l, hcl, hal, hxl, hxa⟩ := renders_of_report h.names hc hx
    obtain ⟨b, m, hdm, hbm, hym, hyb⟩ := renders_of_report h.names hd hy
    rw [hcl, hdm] at hhead hrotated
    constructor
    · intro htoken
      rw [hxa, hyb] at htoken
      have ha := mem_nodes_of_elementary hal a List.mem_cons_self
      have hb := mem_nodes_of_elementary hbm b List.mem_cons_self
      exact hhead (congrArg some (List.inj_on_of_nodup_map h.tokens ha hb htoken))
    · intro p q hp hq hxp hyq hpq
      rw [h.eq_of_renders hp hal hxp hxl, h.eq_of_renders hq hbm hyq hym] at hpq
      exact hrotated hpq
  · intro e he
    by_cases hshown : ∃ x ∈ diagnostics ds, ∃ d, Renders x d ∧ d.IsRotated e
    · exact .inl hshown
    · right
      intro a ha
      -- The search from this type finds the rotation that starts here.
      obtain ⟨l, hrotated⟩ := exists_isRotated_cons ha
      obtain ⟨d, hd, hcover⟩ := reported_covers h.names (he.of_isRotated hrotated)
      obtain ⟨b, m, rfl⟩ :=
        List.exists_cons_of_ne_nil (elementary_of_mem_reported h.names hd).ne_nil
      obtain ⟨x, hx, hrenders, htoken⟩ := exists_report h.named hd
      rcases hcover with hhead | hcover
      · cases hhead
        exact ⟨x, hx, htoken⟩
      · exact absurd ⟨x, hx, _, hrenders, hcover.trans hrotated.symm⟩ hshown

/-- Two types that name each other. -/
def mutualPair : List Declaration :=
  [⟨.type, "A", some ⟨.identifier, "A", ⟨1, 5⟩⟩, [],
    [⟨"b", ⟨.identifier, "b", ⟨1, 9⟩⟩, [], some (.plain ⟨.identifier, "B", ⟨1, 12⟩⟩ (some 1))⟩]⟩,
   ⟨.type, "B", some ⟨.identifier, "B", ⟨2, 5⟩⟩, [],
    [⟨"a", ⟨.identifier, "a", ⟨2, 9⟩⟩, [], some (.plain ⟨.identifier, "A", ⟨2, 12⟩⟩ (some 0))⟩]⟩]

theorem diagnostics_represent_mutualPair : TypesNamed mutualPair ∧
    (∀ x ∈ diagnostics mutualPair, ∃ a l, Elementary (Contains mutualPair) (a :: l) ∧
      Renders x (a :: l) ∧ x.token? = a.nameToken) ∧
    ((diagnostics mutualPair).Pairwise fun x y => x.token? ≠ y.token? ∧
      ∀ d e, Elementary (Contains mutualPair) d → Elementary (Contains mutualPair) e →
        Renders x d → Renders y e → ¬ d.IsRotated e) ∧
    (∀ e, Elementary (Contains mutualPair) e →
      (∃ x ∈ diagnostics mutualPair, ∃ d, Renders x d ∧ d.IsRotated e) ∨
        ∀ a ∈ e, ∃ x ∈ diagnostics mutualPair, x.token? = a.nameToken) ∧
    (diagnostics mutualPair = [] ↔ ∀ a, ¬ Relation.TransGen (Contains mutualPair) a a) := by
  have hnodes : nodes mutualPair = mutualPair := rfl
  have hnamed : TypesNamed mutualPair := by
    constructor
    · rw [hnodes]
      decide
    · rw [hnodes]
      refine List.forall_mem_cons.2 ⟨?_, List.forall_mem_singleton.2 ?_⟩
      · exact isWord_of_all rfl (by decide) (by decide)
      · exact isWord_of_all rfl (by decide) (by decide)
    · rw [hnodes]
      decide
    · rw [hnodes]
      decide
  exact ⟨hnamed, diagnostics_represent_cycles hnamed⟩

end Cycle

/-- The types of every source can be told apart, also where it has errors. -/
theorem typesNamed_compile (version source : String) :
    TypesNamed (compile version source).declarations := by
  simp only [compile]
  split
  · constructor <;> simp [nodes]
  · next tokens hscan =>
    have hwell : WellFormed (parse version tokens).declarations :=
      Grammar.wellFormed_finalDraft version (.ofList tokens)
    have hnames := names_nodup hwell.names
    have hspelled : ∀ a ∈ nodes (parse version tokens).declarations,
        ∃ t ∈ tokens, a.nameToken = some t ∧ t.kind = .identifier ∧ t.lexeme = a.name := by
      intro a ha
      obtain ⟨hmem, hkind⟩ := mem_nodes.1 ha
      exact exists_identifier_of_scan hscan hmem (by simp [hkind])
    refine ⟨hnames, ?_, ?_, ?_⟩
    · intro a ha
      obtain ⟨t, ht, -, hkind, hname⟩ := hspelled a ha
      rw [← hname]
      exact ((lexical_of_mem_scan hscan t ht).word (by rw [hkind]; rfl)).1
    · intro a ha
      obtain ⟨t, -, htoken, -⟩ := hspelled a ha
      simp [htoken]
    · -- Types with the same token have the same name.
      refine (hnames.of_map _).map_on ?_
      intro a ha b hb hab
      obtain ⟨t, -, hta, -, hname⟩ := hspelled a ha
      obtain ⟨u, -, hub, -, hname'⟩ := hspelled b hb
      rw [hta, hub] at hab
      cases hab
      exact eq_of_name_eq hnames ha hb (hname.symm.trans hname')

end Reports

end GameSchema
