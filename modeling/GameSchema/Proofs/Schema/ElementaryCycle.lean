import GameSchema.Proofs.Schema.CycleSearch
import Mathlib.Data.List.Chain
import Mathlib.Data.List.Rotate

/-!
# Elementary cycles

The cycles that a search closes are the elementary cycles through its root, and some that its paths
lead to. The nodes of the stack are those of the path, the path follows edges and repeats no node,
and the marks tell what stands on it, so that an edge to a marked node closes a cycle without
repeated nodes. The other way round, the search goes along every simple path from its root, and so
along every elementary cycle that starts there.
-/

namespace GameSchema

section Rotations

variable {α : Type} {a : α} {c l : List α}

theorem exists_append_of_isRotated {d : List α} (h : c.IsRotated d) :
    ∃ xs ys, c = xs ++ ys ∧ d = ys ++ xs := by
  obtain ⟨n, hn, rfl⟩ := List.isRotated_iff_mod.1 h
  refine ⟨c.take n, c.drop n, (List.take_append_drop n c).symm, ?_⟩
  exact List.rotate_eq_drop_append_take hn

/-- A list without repetition has one rotation for each of its members. -/
theorem eq_of_isRotated {m : List α} (hnodup : (a :: l).Nodup)
    (h : (a :: l).IsRotated (a :: m)) : a :: l = a :: m := by
  obtain ⟨xs, ys, hc, hd⟩ := exists_append_of_isRotated h
  cases xs with
  | nil => rw [hc, hd, List.nil_append, List.append_nil]
  | cons x xs =>
    cases ys with
    | nil => rw [hc, hd, List.nil_append, List.append_nil]
    | cons y ys =>
      -- The first member would stand at two places.
      cases hc
      cases hd
      simp at hnodup

theorem exists_isRotated_cons (ha : a ∈ c) : ∃ l, c.IsRotated (a :: l) := by
  obtain ⟨xs, ys, rfl⟩ := List.append_of_mem ha
  exact ⟨ys ++ xs, List.isRotated_append⟩

end Rotations

/-- A cycle of a relation that repeats no node, given by its nodes in order, each once. The last one
is related to the first one. -/
structure Elementary {α : Type} (r : α → α → Prop) (c : List α) : Prop where
  ne_nil : c ≠ []
  nodup : c.Nodup
  chain : (c ++ c.head?.toList).IsChain r

namespace Elementary

variable {α β : Type} {r : α → α → Prop} {c : List α} {a : α} {l : List α}

theorem chain_cons (h : Elementary r (a :: l)) : (a :: l ++ [a]).IsChain r := h.chain

/-- A cycle can be entered at every one of its nodes. -/
theorem of_isRotated {d : List α} (h : Elementary r c) (hrotated : c.IsRotated d) :
    Elementary r d := by
  refine ⟨?_, hrotated.nodup_iff.1 h.nodup, ?_⟩
  · rintro rfl
    exact h.ne_nil (List.isRotated_nil_iff.1 hrotated)
  · obtain ⟨xs, ys, rfl, rfl⟩ := exists_append_of_isRotated hrotated
    have hchain := h.chain
    cases xs with
    | nil => simpa using hchain
    | cons x xs =>
      cases ys with
      | nil => simpa using hchain
      | cons y ys =>
        have hsplit : (x :: xs ++ y :: ys) ++ (x :: xs ++ y :: ys).head?.toList =
            x :: xs ++ y :: (ys ++ [x]) := by simp
        rw [hsplit] at hchain
        obtain ⟨hx, hy⟩ := List.isChain_split.1 hchain
        have hjoin : (y :: ys ++ x :: xs) ++ (y :: ys ++ x :: xs).head?.toList =
            y :: ys ++ x :: (xs ++ [y]) := by simp
        rw [hjoin]
        exact List.isChain_split.2 ⟨hy, hx⟩

/-- Every node of a cycle is the end of a step. -/
theorem exists_step (h : Elementary r c) {b : α} (hb : b ∈ c) : ∃ a, r a b := by
  obtain ⟨l, hrotated⟩ := exists_isRotated_cons hb
  have hchain := (h.of_isRotated hrotated).chain_cons
  have hlast := (List.isChain_append.1 hchain).2.2
  refine ⟨(b :: l).getLast (List.cons_ne_nil b l), hlast _ ?_ b rfl⟩
  exact List.getLast?_eq_getLast_of_ne_nil (List.cons_ne_nil b l)

/-- Renaming the nodes apart carries cycles over in both directions. -/
theorem map_iff {f : α → β} {s : β → β → Prop} (hinj : ∀ a ∈ c, ∀ b ∈ c, f a = f b → a = b)
    (hrelated : ∀ a ∈ c, ∀ b ∈ c, s (f a) (f b) ↔ r a b) :
    Elementary s (c.map f) ↔ Elementary r c := by
  have hclosed : c.map f ++ (c.map f).head?.toList = (c ++ c.head?.toList).map f := by
    cases c <;> simp
  have hmem : ∀ a ∈ c ++ c.head?.toList, a ∈ c := by
    intro a ha
    rcases List.mem_append.1 ha with ha | ha
    · exact ha
    · exact List.mem_of_head? (Option.mem_toList.1 ha)
  have hchain : (c.map f ++ (c.map f).head?.toList).IsChain s ↔
      (c ++ c.head?.toList).IsChain r := by
    rw [hclosed, List.isChain_map]
    refine List.IsChain.iff_of_mem_imp ?_
    intro a b ha hb
    exact hrelated a (hmem a ha) b (hmem b hb)
  constructor
  · intro h
    exact ⟨by simpa using h.ne_nil, h.nodup.of_map f, hchain.1 h.chain⟩
  · intro h
    exact ⟨by simpa using h.ne_nil, h.nodup.map_on hinj, hchain.2 h.chain⟩

/-- A cycle leads from its first node back to it. -/
theorem transGen (h : Elementary r (a :: l)) : Relation.TransGen r a a := by
  have hchain := h.chain_cons
  obtain ⟨b, m, hm⟩ : ∃ b m, l ++ [a] = b :: m := List.exists_cons_of_ne_nil (by simp)
  have hlast : (b :: m).getLast (List.cons_ne_nil b m) = a := by simp [← hm]
  rw [List.cons_append, hm] at hchain
  obtain ⟨hab, hrest⟩ := List.isChain_cons_cons.1 hchain
  exact .head' hab (List.relationReflTransGen_of_exists_isChain_cons m hrest hlast)

end Elementary

namespace Search

variable {g : Graph}

/-- The stack, the path and the marks of a search agree. The path stands with its innermost node
first; it starts at the root, follows edges and repeats no node. -/
structure Consistent (g : Graph) (root : Nat) (s : Search) : Prop where
  nodes : s.frames.map (·.node) = s.path
  pending : ∀ f ∈ s.frames, f.pending <:+ g.targets f.node
  start : ∀ v ∈ s.path.getLast?, v = root
  chain : s.path.IsChain fun w v => g.Edge v w
  nodup : s.path.Nodup
  bounded : ∀ v ∈ s.path, v < g.length
  marks : Marks g.length s.path s.onPath

theorem consistent_start {root : Nat} (hr : root < g.length) :
    Consistent g root (Search.start g root) where
  nodes := rfl
  pending := by simp [Search.start]
  start := by simp [Search.start]
  chain := by simp [Search.start]
  nodup := by simp [Search.start]
  bounded := by simpa [Search.start] using hr
  marks := marks_start hr

theorem Marks.tail {n v : Nat} {path : List Nat} {on : List Bool} (h : Marks n (v :: path) on)
    (hv : v ∉ path) : Marks n path (on.set v false) := by
  intro w
  rw [List.getElem?_set]
  by_cases hw : v = w
  · subst hw
    have hon := h v
    by_cases hlt : v < n
    · rw [if_pos hlt] at hon
      have hlen := (List.getElem?_eq_some_iff.1 hon).1
      simp [hlen, hlt, hv]
    · rw [if_neg hlt] at hon
      have hlen := List.getElem?_eq_none_iff.1 hon
      simp [hlt, Nat.not_lt.2 hlen]
  · have hne : w ≠ v := fun h => hw h.symm
    rw [if_neg hw, h w]
    simp [hne]

theorem closing_append {pre post : List Nat} {w : Nat} (hw : w ∉ pre) :
    closing (pre ++ w :: post) w = (pre ++ [w]).reverse := by
  have hpre : ∀ v ∈ pre, decide (v ≠ w) = true := by
    intro v hv
    exact decide_eq_true fun h => hw (h ▸ hv)
  rw [closing, List.takeWhile_append_of_pos hpre]
  simp

/-- The cycle that an edge to a node of a simple path closes repeats no node. -/
theorem elementary_closing {r : Nat → Nat → Prop} {v w : Nat} {path : List Nat}
    (hchain : (v :: path).IsChain fun w v => r v w) (hnodup : (v :: path).Nodup)
    (hw : w ∈ v :: path) (hedge : r v w) : Elementary r (closing (v :: path) w) := by
  obtain ⟨pre, post, hsplit⟩ := List.append_of_mem hw
  rw [hsplit] at hchain hnodup ⊢
  have hpre : w ∉ pre := by
    intro hmem
    exact (List.nodup_append.1 hnodup).2.2 w hmem w List.mem_cons_self rfl
  have hprefix : pre ++ [w] <+: pre ++ w :: post := ⟨post, by simp⟩
  have hfirst : (pre ++ [w]).head? = some v := by
    cases pre with
    | nil => exact congrArg List.head? hsplit.symm
    | cons u pre => exact congrArg List.head? hsplit.symm
  rw [closing_append hpre]
  constructor
  · simp
  · exact List.nodup_reverse.2 (hnodup.sublist hprefix.sublist)
  · have hback : (pre ++ [w]).reverse ++ (pre ++ [w]).reverse.head?.toList =
        (w :: (pre ++ [w])).reverse := by simp
    rw [hback, List.isChain_reverse, List.isChain_cons]
    refine ⟨?_, hchain.prefix hprefix⟩
    intro u hu
    rw [hfirst] at hu
    cases hu
    exact hedge

/-- A step keeps the stack, the path and the marks in agreement, and a cycle that it closes repeats
no node. -/
theorem Consistent.step {root : Nat} {s t : Search} {c : Option (List Nat)}
    (hs : Consistent g root s) (h : Search.step g s = some (c, t)) :
    Consistent g root t ∧ ∀ cycle ∈ c, Elementary g.Edge cycle := by
  obtain ⟨frames, path, on⟩ := s
  obtain ⟨hnodes, hpending, hstart, hchain, hnodup, hbounded, hmarks⟩ := hs
  simp only at hnodes hpending hstart hchain hnodup hbounded hmarks
  match frames with
  | [] => cases h
  | ⟨v, []⟩ :: frames =>
    rw [step_nil] at h
    cases h
    obtain rfl : path = v :: frames.map (·.node) := hnodes.symm
    refine ⟨⟨rfl, ?_, ?_, hchain.tail, hnodup.tail, ?_, hmarks.tail (List.nodup_cons.1 hnodup).1⟩,
      nofun⟩
    · intro f hf
      exact hpending f (List.mem_cons_of_mem _ hf)
    · intro u hu
      refine hstart u ?_
      simp only [List.tail_cons] at hu
      rw [List.getLast?_cons, Option.mem_def.1 hu]
      rfl
    · intro u hu
      exact hbounded u (List.mem_cons_of_mem v hu)
  | ⟨v, w :: pending⟩ :: frames =>
    obtain rfl : path = v :: frames.map (·.node) := hnodes.symm
    have hsuffix : w :: pending <:+ g.targets v := hpending _ List.mem_cons_self
    have hleft : pending <:+ g.targets v := (List.suffix_cons w pending).trans hsuffix
    have hframes : ∀ f ∈ (⟨v, pending⟩ :: frames : List Frame), f.pending <:+ g.targets f.node := by
      refine List.forall_mem_cons.2 ⟨hleft, ?_⟩
      intro f hf
      exact hpending f (List.mem_cons_of_mem _ hf)
    have hon := hmarks w
    by_cases hw : w < g.length
    · rw [if_pos hw] at hon
      have hedge : g.Edge v w := ⟨hsuffix.subset List.mem_cons_self, hw⟩
      by_cases hpath : w ∈ v :: frames.map (·.node)
      · rw [decide_eq_true hpath] at hon
        rw [step_onPath hon] at h
        cases h
        refine ⟨⟨rfl, hframes, hstart, hchain, hnodup, hbounded, hmarks⟩, ?_⟩
        rintro cycle ⟨⟩
        exact elementary_closing hchain hnodup hpath hedge
      · rw [decide_eq_false hpath] at hon
        rw [step_free hon] at h
        cases h
        refine ⟨⟨rfl, ?_, ?_, ?_, List.nodup_cons.2 ⟨hpath, hnodup⟩, ?_, hmarks.cons hw⟩, nofun⟩
        · exact List.forall_mem_cons.2 ⟨List.suffix_refl _, hframes⟩
        · intro u hu
          exact hstart u (by simpa using hu)
        · exact List.isChain_cons_cons.2 ⟨hedge, hchain⟩
        · exact List.forall_mem_cons.2 ⟨hw, hbounded⟩
    · rw [if_neg hw] at hon
      rw [step_foreign hon] at h
      cases h
      exact ⟨⟨rfl, hframes, hstart, hchain, hnodup, hbounded, hmarks⟩, nofun⟩

/-- Every cycle that a search closes repeats no node. -/
theorem elementary_of_mem_closings {root : Nat} {s : Search} (hs : Consistent g root s)
    {cycle : List Nat} (h : cycle ∈ closings g s) : Elementary g.Edge cycle := by
  fun_induction closings g s with
  | case1 s hstep => cases h
  | case2 s c t hstep ih =>
    obtain ⟨ht, hclosed⟩ := hs.step hstep
    rcases List.mem_append.1 h with h | h
    · exact hclosed cycle (Option.mem_toList.1 h)
    · exact ih ht h

theorem Consistent.run {root : Nat} {s t : Search} {cycles : List (List Nat)}
    (hs : Consistent g root s) (h : Run g s cycles t) : Consistent g root t := by
  induction h with
  | refl => exact hs
  | step hstep hrun ih => exact ih (hs.step hstep).1

section Routes

variable {root : Nat} {path : List Nat}

/-- The second list is a walk from the root, its last node first. The first list tells for each edge
of the walk, the last one first too, which one it is among the edges of the node that it leaves. -/
inductive Route (g : Graph) (root : Nat) : List Nat → List Nat → Prop
  | start : Route g root [] [root]
  | edge {edges path v w k} (h : Route g root edges (v :: path)) (hk : (g.targets v)[k]? = some w)
      (hw : w < g.length) : Route g root (k :: edges) (w :: v :: path)

/-- Every walk takes some edges. -/
theorem exists_route {v : Nat} (hchain : (v :: path).IsChain fun w v => g.Edge v w)
    (hstart : (v :: path).getLast? = some root) : ∃ edges, Route g root edges (v :: path) := by
  induction path generalizing v with
  | nil =>
    obtain rfl : v = root := by simpa using hstart
    exact ⟨[], .start⟩
  | cons u path ih =>
    obtain ⟨⟨hmem, hlt⟩, hchain⟩ := List.isChain_cons_cons.1 hchain
    obtain ⟨edges, hroute⟩ := ih hchain (by simpa using hstart)
    obtain ⟨k, hk⟩ := List.mem_iff_getElem?.1 hmem
    exact ⟨k :: edges, .edge hroute hk hlt⟩

/-- The stack of a search that has come along a route: no edge of the last node has been followed,
and from every other node the edge of the route was the latest. -/
def stack (g : Graph) (edges : List Nat) : List Nat → List Frame
  | [] => []
  | v :: path => ⟨v, g.targets v⟩ ::
      List.zipWith (fun k u => ⟨u, (g.targets u).drop (k + 1)⟩) edges path

/-- A search comes along every simple path from its root, whichever edges the path takes. -/
theorem exists_run_of_route (hr : root < g.length) {edges : List Nat}
    (h : Route g root edges path) (hnodup : path.Nodup) :
    ∃ cycles on, Run g (start g root) cycles ⟨stack g edges path, path, on⟩ := by
  induction h with
  | start => exact ⟨[], _, .refl⟩
  | @edge edges path v w k h hk hw ih =>
    obtain ⟨hfree, hnodup⟩ := List.nodup_cons.1 hnodup
    obtain ⟨cycles, on, hrun⟩ := ih hnodup
    obtain ⟨hlt, hget⟩ := List.getElem?_eq_some_iff.1 hk
    have hsplit : g.targets v = (g.targets v).take k ++ w :: (g.targets v).drop (k + 1) := by
      rw [← hget, List.getElem_cons_drop, List.take_append_drop]
    have hon := ((consistent_start hr).run hrun).marks w
    rw [if_pos hw, decide_eq_false hfree] at hon
    -- The search comes back from the edges in front of the one that the path takes.
    obtain ⟨more, hpending⟩ := exists_run_pending g v ((g.targets v).take k)
      (w :: (g.targets v).drop (k + 1))
      (List.zipWith (fun k u => ⟨u, (g.targets u).drop (k + 1)⟩) edges path) (v :: path) on
    rw [← hsplit] at hpending
    exact ⟨_, _, hrun.trans (hpending.trans (.single (step_free hon)))⟩

/-- A search goes along every simple path from its root. -/
theorem exists_search_of_path (hr : root < g.length) {v : Nat}
    (hchain : (v :: path).IsChain fun w v => g.Edge v w) (hnodup : (v :: path).Nodup)
    (hstart : (v :: path).getLast? = some root) :
    ∃ frames on, Marks g.length (v :: path) on ∧
      closings g ⟨⟨v, g.targets v⟩ :: frames, v :: path, on⟩ ⊆ closings g (start g root) := by
  obtain ⟨edges, hroute⟩ := exists_route hchain hstart
  obtain ⟨cycles, on, hrun⟩ := exists_run_of_route hr hroute hnodup
  exact ⟨_, on, ((consistent_start hr).run hrun).marks, hrun.closings_subset⟩

end Routes

/-- A search closes every elementary cycle that starts at its root. -/
theorem mem_closings_of_elementary {root : Nat} {l : List Nat}
    (h : Elementary g.Edge (root :: l)) : root :: l ∈ closings g (start g root) := by
  obtain ⟨u, -, hr⟩ := h.exists_step List.mem_cons_self
  have hclosed : (root :: (root :: l).reverse).IsChain fun w v => g.Edge v w := by
    rw [← List.reverse_concat', List.isChain_reverse]
    exact h.chain_cons
  have hnodup := List.nodup_reverse.2 h.nodup
  have hlast : (root :: l).reverse.getLast? = some root := by simp
  have hsplit : (root :: l).reverse = l.reverse ++ root :: [] := List.reverse_cons
  have hroot : root ∉ l.reverse := by
    rw [List.mem_reverse]
    exact (List.nodup_cons.1 h.nodup).1
  have hclosing : closing (root :: l).reverse root = root :: l := by
    rw [hsplit, closing_append hroot]
    simp
  rw [← hclosing]
  -- The path is the cycle backwards, and its innermost node has an edge to the root.
  obtain ⟨v, path, hpath⟩ : ∃ v path, (root :: l).reverse = v :: path :=
    List.exists_cons_of_ne_nil (by simp)
  rw [hpath] at hclosed hnodup hlast ⊢
  obtain ⟨hedge, hchain⟩ := List.isChain_cons_cons.1 hclosed
  obtain ⟨frames, on, hmarks, hsubset⟩ := exists_search_of_path hr hchain hnodup hlast
  have hon := hmarks root
  rw [if_pos hr, decide_eq_true (List.mem_of_getLast? hlast)] at hon
  exact hsubset (closing_mem_closings v frames (v :: path) hedge.1 hon)

end Search

end GameSchema
