import GameSchema.Schema.CycleSearch
import Mathlib.Logic.Relation

/-!
# Completeness of the search for cycles

A search comes back to every frame of its stack with the path as it was, so each edge of a node on
the path is followed from that path in turn. A search therefore goes along every walk from its root
until the walk closes a cycle, and when it closes none, no walk returns to the root.
-/

namespace GameSchema

/-- Whether an edge leads from one node to another. -/
def Graph.Edge (g : Graph) (u w : Nat) : Prop := w ∈ g.targets u ∧ w < g.length

namespace Search

variable {g : Graph}

theorem closings_of_step {s t : Search} {c : Option (List Nat)} (h : step g s = some (c, t)) :
    closings g s = c.toList ++ closings g t := by
  rw [closings]
  split
  · next heq => rw [h] at heq; cases heq
  · next heq => rw [h] at heq; cases heq; rfl

/-- A search comes from one state to another in some steps, which close the given cycles. -/
inductive Run (g : Graph) : Search → List (List Nat) → Search → Prop
  | refl {s} : Run g s [] s
  | step {s t u c cycles} (h : step g s = some (c, t)) (hrun : Run g t cycles u) :
      Run g s (c.toList ++ cycles) u

namespace Run

variable {s t u : Search} {cycles more : List (List Nat)}

theorem single {c : Option (List Nat)} (h : Search.step g s = some (c, t)) :
    Run g s c.toList t := by
  simpa using Run.step h .refl

theorem trans (h : Run g s cycles t) (h' : Run g t more u) : Run g s (cycles ++ more) u := by
  induction h with
  | refl => exact h'
  | step hstep hrun ih =>
    rw [List.append_assoc]
    exact .step hstep (ih h')

theorem closings_eq (h : Run g s cycles t) : closings g s = cycles ++ closings g t := by
  induction h with
  | refl => rfl
  | step hstep hrun ih => rw [closings_of_step hstep, ih, List.append_assoc]

theorem closings_subset (h : Run g s cycles t) : closings g t ⊆ closings g s := by
  rw [h.closings_eq]
  exact List.subset_append_right _ _

end Run

section Frames

variable {v w : Nat} {pending : List Nat} {frames : List Frame} {path : List Nat} {on : List Bool}

theorem step_nil : step g ⟨⟨v, []⟩ :: frames, path, on⟩ =
    some (none, ⟨frames, path.tail, on.set v false⟩) := rfl

theorem step_free (h : on[w]? = some false) : step g ⟨⟨v, w :: pending⟩ :: frames, path, on⟩ =
    some (none, ⟨⟨w, g.targets w⟩ :: ⟨v, pending⟩ :: frames, w :: path, on.set w true⟩) := by
  simp [step, h]

theorem step_onPath (h : on[w]? = some true) : step g ⟨⟨v, w :: pending⟩ :: frames, path, on⟩ =
    some (some (closing path w), ⟨⟨v, pending⟩ :: frames, path, on⟩) := by
  simp [step, h]

theorem step_foreign (h : on[w]? = none) : step g ⟨⟨v, w :: pending⟩ :: frames, path, on⟩ =
    some (none, ⟨⟨v, pending⟩ :: frames, path, on⟩) := by
  simp [step, h]

theorem potential_pending_lt : potential g ⟨⟨v, pending⟩ :: frames, path, on⟩ <
    potential g ⟨⟨v, w :: pending⟩ :: frames, path, on⟩ := by
  have hmul := Nat.add_one_mul pending.length (1 + budget (degree g) (on.count false))
  simp only [potential, weight, List.length_cons]
  omega

theorem set_true_set_false (h : on[w]? = some false) : (on.set w true).set w false = on := by
  rw [List.set_set]
  obtain ⟨hw, hon⟩ := List.getElem?_eq_some_iff.1 h
  rw [← hon, List.set_getElem_self]

/-- An edge is done with once the search has come back from its target. -/
theorem exists_run_of_target (h : on[w]? = some false →
      ∃ cycles, Run g ⟨⟨w, g.targets w⟩ :: ⟨v, pending⟩ :: frames, w :: path, on.set w true⟩ cycles
        ⟨⟨v, pending⟩ :: frames, path, (on.set w true).set w false⟩) :
    ∃ cycles, Run g ⟨⟨v, w :: pending⟩ :: frames, path, on⟩ cycles
      ⟨⟨v, pending⟩ :: frames, path, on⟩ := by
  cases hw : on[w]? with
  | none => exact ⟨_, .single (step_foreign hw)⟩
  | some b =>
    cases b with
    | false =>
      obtain ⟨cycles, hback⟩ := h hw
      rw [set_true_set_false hw] at hback
      exact ⟨_, .step (step_free hw) hback⟩
    | true => exact ⟨_, .single (step_onPath hw)⟩

end Frames

/-- The search comes back from every frame. -/
theorem exists_run_back (g : Graph) (v : Nat) (pending : List Nat) (frames : List Frame)
    (path : List Nat) (on : List Bool) :
    ∃ cycles, Run g ⟨⟨v, pending⟩ :: frames, path, on⟩ cycles
      ⟨frames, path.tail, on.set v false⟩ := by
  match pending with
  | [] => exact ⟨_, .single step_nil⟩
  | w :: pending =>
    have hedge : ∃ cycles, Run g ⟨⟨v, w :: pending⟩ :: frames, path, on⟩ cycles
        ⟨⟨v, pending⟩ :: frames, path, on⟩ := exists_run_of_target fun hw =>
      exists_run_back g w (g.targets w) (⟨v, pending⟩ :: frames) (w :: path) (on.set w true)
    obtain ⟨cycles, hedge⟩ := hedge
    obtain ⟨more, hrest⟩ := exists_run_back g v pending frames path on
    exact ⟨cycles ++ more, hedge.trans hrest⟩
termination_by potential g ⟨⟨v, pending⟩ :: frames, path, on⟩
decreasing_by
  · exact potential_step_lt (step_free hw)
  · exact potential_pending_lt

/-- The edges of the innermost frame are followed one after the other, from the same path. -/
theorem exists_run_pending (g : Graph) (v : Nat) (followed pending : List Nat)
    (frames : List Frame) (path : List Nat) (on : List Bool) :
    ∃ cycles, Run g ⟨⟨v, followed ++ pending⟩ :: frames, path, on⟩ cycles
      ⟨⟨v, pending⟩ :: frames, path, on⟩ := by
  induction followed with
  | nil => exact ⟨[], .refl⟩
  | cons u followed ih =>
    have hedge : ∃ cycles, Run g ⟨⟨v, u :: (followed ++ pending)⟩ :: frames, path, on⟩ cycles
        ⟨⟨v, followed ++ pending⟩ :: frames, path, on⟩ := exists_run_of_target fun _ =>
      exists_run_back g u (g.targets u) _ (u :: path) (on.set u true)
    obtain ⟨cycles, hedge⟩ := hedge
    obtain ⟨more, hrest⟩ := ih
    exact ⟨cycles ++ more, hedge.trans hrest⟩

section Edges

variable {w : Nat} {pending : List Nat} {on : List Bool} (v : Nat) (frames : List Frame)
  (path : List Nat)

theorem closing_mem_closings (hw : w ∈ pending) (hon : on[w]? = some true) :
    closing path w ∈ closings g ⟨⟨v, pending⟩ :: frames, path, on⟩ := by
  obtain ⟨followed, rest, rfl⟩ := List.append_of_mem hw
  obtain ⟨cycles, hrun⟩ := exists_run_pending g v followed (w :: rest) frames path on
  apply hrun.closings_subset
  rw [closings_of_step (step_onPath hon)]
  exact List.mem_cons_self

theorem exists_descent (hw : w ∈ pending) (hon : on[w]? = some false) :
    ∃ rest, closings g ⟨⟨w, g.targets w⟩ :: ⟨v, rest⟩ :: frames, w :: path, on.set w true⟩ ⊆
      closings g ⟨⟨v, pending⟩ :: frames, path, on⟩ := by
  obtain ⟨followed, rest, rfl⟩ := List.append_of_mem hw
  obtain ⟨cycles, hrun⟩ := exists_run_pending g v followed (w :: rest) frames path on
  exact ⟨rest, (hrun.trans (.single (step_free hon))).closings_subset⟩

end Edges

/-- The marks of the nodes below `n` tell which of them are on the path. -/
def Marks (n : Nat) (path : List Nat) (on : List Bool) : Prop :=
  ∀ w, on[w]? = if w < n then some (decide (w ∈ path)) else none

theorem marks_start {n root : Nat} (hr : root < n) :
    Marks n [root] ((List.replicate n false).set root true) := by
  intro w
  rw [List.getElem?_set, List.getElem?_replicate, List.length_replicate]
  by_cases hw : root = w
  · subst hw
    simp [hr]
  · have hne : w ≠ root := fun h => hw h.symm
    simp [hw, hne]

theorem Marks.cons {n w : Nat} {path : List Nat} {on : List Bool} (h : Marks n path on)
    (hw : w < n) : Marks n (w :: path) (on.set w true) := by
  have hlen : w < on.length := by
    have hon := h w
    rw [if_pos hw] at hon
    exact (List.getElem?_eq_some_iff.1 hon).1
  intro u
  rw [List.getElem?_set]
  by_cases hu : w = u
  · subst hu
    simp [hlen, hw]
  · have hne : u ≠ w := fun h => hu h.symm
    rw [if_neg hu, h u]
    simp [hne]

/-- A search that closes no cycle goes along every walk from its root. -/
theorem exists_search_of_walk {root v : Nat} (hr : root < g.length)
    (h : closings g (start g root) = []) (hwalk : Relation.ReflTransGen g.Edge root v) :
    ∃ frames path on, root ∈ path ∧ Marks g.length path on ∧
      closings g ⟨⟨v, g.targets v⟩ :: frames, path, on⟩ = [] := by
  induction hwalk with
  | refl => exact ⟨[], [root], _, List.mem_cons_self, marks_start hr, h⟩
  | @tail v w hwalk hedge ih =>
    obtain ⟨frames, path, on, hroot, hmarks, hclosings⟩ := ih
    have hon := hmarks w
    rw [if_pos hedge.2] at hon
    by_cases hw : w ∈ path
    · simp only [hw, decide_true] at hon
      have hmem := closing_mem_closings (g := g) v frames path hedge.1 hon
      rw [hclosings] at hmem
      cases hmem
    · simp only [hw, decide_false] at hon
      obtain ⟨rest, hrest⟩ := exists_descent (g := g) v frames path hedge.1 hon
      rw [hclosings] at hrest
      exact ⟨_, _, _, List.mem_cons_of_mem w hroot, hmarks.cons hedge.2,
        List.subset_nil.1 hrest⟩

/-- When the search from a node closes no cycle, no walk returns to that node. -/
theorem not_transGen_of_closings {root : Nat} (hr : root < g.length)
    (h : closings g (start g root) = []) : ¬ Relation.TransGen g.Edge root root := by
  intro hcycle
  obtain ⟨v, hwalk, hedge⟩ := Relation.TransGen.tail'_iff.1 hcycle
  obtain ⟨frames, path, on, hroot, hmarks, hclosings⟩ := exists_search_of_walk hr h hwalk
  have hon := hmarks root
  rw [if_pos hr, decide_eq_true hroot] at hon
  have hmem := closing_mem_closings (g := g) v frames path hedge.1 hon
  rw [hclosings] at hmem
  cases hmem

/-- A step keeps the number of marks, and a cycle that it closes starts at a marked node. -/
theorem marks_of_step {s t : Search} {c : Option (List Nat)} (h : step g s = some (c, t)) :
    t.onPath.length = s.onPath.length ∧
      ∀ cycle ∈ c, ∃ w rest, cycle = w :: rest ∧ w < s.onPath.length := by
  simp only [step] at h
  split at h
  · cases h
  · cases h
    simp
  · next v w pending frames hf =>
    split at h
    · cases h
      simp
    · next hon =>
      cases h
      refine ⟨rfl, ?_⟩
      rintro cycle ⟨⟩
      exact ⟨w, _, rfl, (List.getElem?_eq_some_iff.1 hon).1⟩
    · cases h
      simp

theorem exists_cons_of_mem_closings {s : Search} {cycle : List Nat} (h : cycle ∈ closings g s) :
    ∃ w rest, cycle = w :: rest ∧ w < s.onPath.length := by
  fun_induction closings g s with
  | case1 s hs => cases h
  | case2 s c t hs ih =>
    obtain ⟨hlen, hfirst⟩ := marks_of_step hs
    rcases List.mem_append.1 h with h | h
    · exact hfirst cycle (Option.mem_toList.1 h)
    · rw [← hlen]
      exact ih h

end Search

namespace Cycle

theorem exists_cons_of_mem_found {g : Graph} {cycle : List Nat} (h : cycle ∈ found g) :
    ∃ w rest, cycle = w :: rest ∧ w < g.length := by
  obtain ⟨root, -, hcycle⟩ := List.mem_flatMap.1 h
  have hfirst := Search.exists_cons_of_mem_closings hcycle
  simpa [Search.start] using hfirst

/-- The first cycle that is found is reported. -/
theorem found_eq_nil {ds : List Declaration}
    (hnamed : ∀ x ∈ Containment.nodes ds, x.nameToken ≠ none) (h : diagnostics ds = []) :
    found (Containment.graph ds) = [] := by
  cases hfound : found (Containment.graph ds) with
  | nil => rfl
  | cons cycle cycles =>
    have hmem : cycle ∈ found (Containment.graph ds) := by
      rw [hfound]
      exact List.mem_cons_self
    obtain ⟨w, rest, rfl, hw⟩ := exists_cons_of_mem_found hmem
    rw [Containment.graph_length] at hw
    have hnode : (Containment.nodes ds)[w]? = some (Containment.nodes ds)[w] :=
      List.getElem?_eq_getElem hw
    obtain ⟨t, ht⟩ := Option.ne_none_iff_exists'.1 (hnamed _ (List.getElem_mem hw))
    simp [diagnostics, hfound, select, report?, hnode, ht] at h

theorem isError_of_mem_diagnostics {ds : List Declaration} {x : Diagnostic}
    (hx : x ∈ diagnostics ds) : x.isError = true := by
  obtain ⟨cycle, -, hreport⟩ := List.mem_filterMap.1 hx
  simp only [report?] at hreport
  split at hreport
  · cases hreport
  · obtain ⟨t, -, rfl⟩ := Option.map_eq_some_iff.1 hreport
    rfl

theorem diagnostics_eq_nil_iff_isError {ds : List Declaration} :
    diagnostics ds = [] ↔ ∀ x ∈ diagnostics ds, x.isError = false := by
  refine ⟨fun hnil => by simp [hnil], ?_⟩
  intro hno
  apply List.eq_nil_iff_forall_not_mem.2
  intro x hx
  have herror := isError_of_mem_diagnostics hx
  rw [hno x hx] at herror
  cases herror

/-- A report stands at the name of a type. -/
theorem exists_node_of_mem_diagnostics {ds : List Declaration} {x : Diagnostic}
    (hx : x ∈ diagnostics ds) :
    ∃ a ∈ Containment.nodes ds, ∃ t, a.nameToken = some t ∧ x.token? = some t := by
  obtain ⟨cycle, -, hreport⟩ := List.mem_filterMap.1 hx
  simp only [report?] at hreport
  split at hreport
  · cases hreport
  · next first more hcycle =>
    obtain ⟨t, ht, rfl⟩ := Option.map_eq_some_iff.1 hreport
    have hfirst : first ∈ cycle.filterMap fun i => (Containment.nodes ds)[i]? := by
      rw [hcycle]
      exact List.mem_cons_self
    obtain ⟨i, -, hi⟩ := List.mem_filterMap.1 hfirst
    exact ⟨first, List.mem_of_getElem? hi, t, ht, rfl⟩

/-- When no cycle is reported, no node contains itself. -/
theorem not_transGen_of_diagnostics {ds : List Declaration}
    (hnamed : ∀ x ∈ Containment.nodes ds, x.nameToken ≠ none) (h : diagnostics ds = [])
    (w : Nat) : ¬ Relation.TransGen (Containment.graph ds).Edge w w := by
  intro hcycle
  obtain ⟨v, -, hedge⟩ := Relation.TransGen.tail'_iff.1 hcycle
  refine Search.not_transGen_of_closings hedge.2 ?_ hcycle
  have hfound := found_eq_nil hnamed h
  exact List.flatMap_eq_nil_iff.1 hfound w (List.mem_range.2 hedge.2)

end Cycle

end GameSchema
