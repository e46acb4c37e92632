import GameSchema.Proofs.Schema.ElementaryCycle

/-!
# Runs of the search for cycles

A search from a node comes to an end, although it may go back to nodes that it has left. Until then
its stack, its path and its marks agree, so the target of an edge that closes a cycle is always
found on the path. Every simple path from the root is explored, whichever of the parallel edges it
takes.
-/

namespace GameSchema

/-- Whether every edge of a graph ends at one of its nodes. -/
def Graph.Closed (g : Graph) : Prop := ∀ v, ∀ w ∈ g.targets v, w < g.length

namespace Containment

theorem contained_lt {ns : List Declaration} {p : Property} {w : Nat}
    (h : contained? ns p = some w) : w < ns.length := by
  simp only [contained?] at h
  split at h
  · split at h
    · exact (List.findIdx?_eq_some_iff_getElem.1 h).1
    · cases h
  · cases h

theorem closed_graph (ds : List Declaration) : (graph ds).Closed := by
  intro v w hw
  rw [Graph.targets, graph, List.getD_eq_getElem?_getD, List.getElem?_map] at hw
  rw [graph_length]
  cases hv : (nodes ds)[v]? with
  | none =>
    rw [hv] at hw
    cases hw
  | some x =>
    rw [hv] at hw
    obtain ⟨p, -, hp⟩ := List.mem_filterMap.1 hw
    exact contained_lt hp

end Containment

namespace Search

variable {g : Graph} {root : Nat}

section Ending

variable {s : Search}

theorem frames_eq_nil_of_step (h : step g s = none) : s.frames = [] := by
  simp only [step] at h
  split at h
  · next hframes => exact hframes
  · cases h
  · split at h <;> cases h

/-- Every search has a run to an empty stack, and closes its cycles on the way. -/
theorem exists_run_closings (g : Graph) (s : Search) :
    ∃ t, Run g s (closings g s) t ∧ t.frames = [] := by
  fun_induction closings g s with
  | case1 s hs => exact ⟨s, .refl, frames_eq_nil_of_step hs⟩
  | case2 s c t hs ih =>
    obtain ⟨u, hrun, hframes⟩ := ih
    exact ⟨u, .step hs hrun, hframes⟩

/-- The state of a search that is finished: nothing is left on the stack and on the path, and no
node has a mark. -/
def finished (g : Graph) : Search := ⟨[], [], List.replicate g.length false⟩

theorem Consistent.eq_finished (hs : Consistent g root s) (h : s.frames = []) : s = finished g := by
  obtain ⟨frames, path, on⟩ := s
  obtain rfl : frames = [] := h
  obtain rfl : path = [] := hs.nodes.symm
  have hon : on = List.replicate g.length false := by
    apply List.ext_getElem?
    intro w
    rw [hs.marks w, List.getElem?_replicate]
    simp
  rw [hon, finished]

theorem Consistent.run_finished (hs : Consistent g root s) :
    Run g s (closings g s) (finished g) := by
  obtain ⟨t, hrun, hframes⟩ := exists_run_closings g s
  rwa [(hs.run hrun).eq_finished hframes] at hrun

end Ending

section Lookup

variable {s : Search} {v w : Nat} {pending path : List Nat} {frames : List Frame}

/-- A node of a simple path is found where it stands, and the cycle that an edge to it closes is the
path from there on. -/
theorem closing_eq_drop (hnodup : path.Nodup) (hw : w ∈ path) :
    ∃ i, path.reverse.findIdx? (· == w) = some i ∧ closing path w = path.reverse.drop i := by
  obtain ⟨pre, post, rfl⟩ := List.append_of_mem hw
  obtain ⟨-, hpost, hapart⟩ := List.nodup_append.1 hnodup
  have hpre : w ∉ pre := fun hmem => hapart w hmem w List.mem_cons_self rfl
  have hsplit : (pre ++ w :: post).reverse = post.reverse ++ (pre ++ [w]).reverse := by simp
  refine ⟨post.reverse.length, ?_, ?_⟩
  · have hnone : post.reverse.findIdx? (· == w) = none := by
      rw [List.findIdx?_eq_none_iff]
      intro u hu
      have hne : u ≠ w := by
        rintro rfl
        exact (List.nodup_cons.1 hpost).1 (List.mem_reverse.1 hu)
      simpa using hne
    rw [hsplit, List.findIdx?_append, hnone]
    simp [List.findIdx?_cons]
  · rw [closing_append hpre, hsplit, List.drop_left]

/-- The target of the edge that comes next has a mark exactly if it is on the path. -/
theorem Consistent.mark_next (hg : g.Closed) (hs : Consistent g root s)
    (hframes : s.frames = ⟨v, w :: pending⟩ :: frames) :
    s.onPath[w]? = some (decide (w ∈ s.path)) := by
  have hsuffix := hs.pending ⟨v, w :: pending⟩ (by rw [hframes]; exact List.mem_cons_self)
  have hmark := hs.marks w
  rwa [if_pos (hg v w (hsuffix.subset List.mem_cons_self))] at hmark

end Lookup

/-- What holds of the search from a node. -/
structure Explores (g : Graph) (root : Nat) : Prop where
  /-- From every state that it reaches, the search goes on until it is finished. -/
  ends : ∀ cycles s, Run g (start g root) cycles s → Run g s (closings g s) (finished g)
  /-- The stack, the path and the marks agree, and the path is a simple path from the root. -/
  consistent : ∀ cycles s, Run g (start g root) cycles s → Consistent g root s
  /-- The target of the edge that comes next has a mark exactly if it is on the path, and then it is
  found there. -/
  lookup : ∀ cycles s v w pending frames, Run g (start g root) cycles s →
    s.frames = ⟨v, w :: pending⟩ :: frames →
      s.onPath[w]? = some (decide (w ∈ s.path)) ∧ (w ∈ s.path →
        ∃ i, s.path.reverse.findIdx? (· == w) = some i ∧ closing s.path w = s.path.reverse.drop i)
  /-- Every simple path from the root is explored, whichever edges it takes. -/
  complete : ∀ edges path, Route g root edges path → path.Nodup →
    ∃ cycles on, Run g (start g root) cycles ⟨stack g edges path, path, on⟩

/-- The search from a node of the containment graph comes to an end, its stack, its path and its
marks agree all the time, and it explores every simple path from the node. -/
theorem explores_graph (ds : List Declaration) {root : Nat}
    (hroot : root < (Containment.nodes ds).length) : Explores (Containment.graph ds) root := by
  have hr : root < (Containment.graph ds).length := by rwa [Containment.graph_length]
  have hconsistent {cycles : List (List Nat)} {s : Search}
      (hrun : Run (Containment.graph ds) (start (Containment.graph ds) root) cycles s) :
      Consistent (Containment.graph ds) root s := (consistent_start hr).run hrun
  constructor
  · intro cycles s hrun
    exact (hconsistent hrun).run_finished
  · intro cycles s hrun
    exact hconsistent hrun
  · intro cycles s v w pending frames hrun hframes
    exact ⟨(hconsistent hrun).mark_next (Containment.closed_graph ds) hframes,
      closing_eq_drop (hconsistent hrun).nodup⟩
  · intro edges path hroute hnodup
    exact exists_run_of_route hr hroute hnodup

/-- A type with a property for each of the given names. -/
def typeOf (name : String) (names : List String) : Declaration :=
  ⟨.type, name, none, [], names.map fun n =>
    ⟨n, ⟨.identifier, n, .origin⟩, [], some (.plain ⟨.identifier, n, .origin⟩ none)⟩⟩

/-- A type that names itself, another one twice and something that is not declared, and two types of
one name. -/
def tangledTypes : List Declaration :=
  [typeOf "A" ["A", "B", "B", "C"], typeOf "B" ["A"], typeOf "B" ["B"]]

theorem explores_tangledTypes : 0 < (Containment.nodes tangledTypes).length ∧
    Explores (Containment.graph tangledTypes) 0 := by
  have hroot : 0 < (Containment.nodes tangledTypes).length := by decide
  exact ⟨hroot, explores_graph tangledTypes hroot⟩

-- The cycle through the parallel edges is closed along each of them.
example : closings (Containment.graph tangledTypes) (start (Containment.graph tangledTypes) 0) =
    [[0], [0, 1], [0, 1]] := by cbv

end Search

end GameSchema
