import GameSchema.Diagnostic.Basic

/-!
# Declaration cycles

A value of a type holds a value of every type that one of its properties names outright. Lists and
maps may be empty, so what they hold does not count, and neither do enums. The graph of this
relation has the type declarations as its nodes, numbered in their order.

A depth-first search from one node along simple paths finds its cycles, with an explicit stack. The
stack holds the nodes of the path with the edges that are still to be followed from each. An edge to
a node on the path closes a cycle; every other edge is followed, also to a node that an earlier path
has visited. The search ends because the edges left over, weighed by the nodes still free for a path
through them, become fewer with every step.

A type that contains itself through plain properties can never be built. The searches from all nodes
in turn find the cycles; one is reported at the type where it closes, unless that type has a report
already or a rotation of the cycle has been reported.
-/

namespace GameSchema

/-- A directed graph: the targets of the edges of each node, in order and with repetition. -/
abbrev Graph := List (List Nat)

def Graph.targets (g : Graph) (node : Nat) : List Nat := g.getD node []

namespace Containment

/-- The declarations that are nodes: types, but not enums. -/
def nodes (ds : List Declaration) : List Declaration := ds.filter fun d => d.kind == .type

def nodeIndex? (ns : List Declaration) (name : String) : Option Nat :=
  ns.findIdx? fun n => n.name == name

def contained? (ns : List Declaration) (p : Property) : Option Nat :=
  match p.type with
  | some t => if t.isReference then nodeIndex? ns t.token.lexeme else none
  | none => none

def graph (ds : List Declaration) : Graph :=
  (nodes ds).map fun n => n.properties.filterMap (contained? (nodes ds))

@[simp] theorem graph_length (ds : List Declaration) : (graph ds).length = (nodes ds).length := by
  simp [graph]

end Containment

/-- A node of the path with the targets of its edges that are still to be followed. -/
structure Frame where
  node : Nat
  pending : List Nat
deriving DecidableEq

/-- The state of a search, its stack and its path with the innermost node first; `onPath` tells for
every node whether it is on the path. -/
structure Search where
  frames : List Frame
  path : List Nat
  onPath : List Bool
deriving DecidableEq

namespace Search

def start (g : Graph) (root : Nat) : Search :=
  ⟨[⟨root, g.targets root⟩], [root], (List.replicate g.length false).set root true⟩

/-- The cycle that an edge to `target` closes: the path from `target` on, outermost node first. -/
def closing (path : List Nat) (target : Nat) : List Nat :=
  target :: (path.takeWhile (· ≠ target)).reverse

/-- One step: the cycle that it closes, if it closes one, and the search after it. `none` when the
stack is empty. -/
def step (g : Graph) (s : Search) : Option (Option (List Nat) × Search) :=
  match s.frames with
  | [] => none
  | ⟨node, []⟩ :: frames => some (none, ⟨frames, s.path.tail, s.onPath.set node false⟩)
  | ⟨node, target :: pending⟩ :: frames =>
    match s.onPath[target]? with
    | some false =>
      some (none, ⟨⟨target, g.targets target⟩ :: ⟨node, pending⟩ :: frames, target :: s.path,
        s.onPath.set target true⟩)
    | some true =>
      some (some (closing s.path target), ⟨⟨node, pending⟩ :: frames, s.path, s.onPath⟩)
    | none => some (none, ⟨⟨node, pending⟩ :: frames, s.path, s.onPath⟩)

def degree (g : Graph) : Nat := g.foldr (fun targets n => targets.length + n) 0

/-- A bound on the steps below an edge to a node when `free` nodes are free, that node included. -/
def budget (degree : Nat) : Nat → Nat
  | 0 => 0
  | free + 1 => 1 + degree * (1 + budget degree free)

/-- A bound on the steps of a stack when `free` nodes are free. -/
def weight (degree : Nat) : Nat → List Frame → Nat
  | _, [] => 0
  | free, f :: frames =>
    1 + f.pending.length * (1 + budget degree free) + weight degree (free + 1) frames

def potential (g : Graph) (s : Search) : Nat := weight (degree g) (s.onPath.count false) s.frames

theorem length_targets_le_degree (g : Graph) (node : Nat) :
    (g.targets node).length ≤ degree g := by
  induction g generalizing node with
  | nil => simp [Graph.targets]
  | cons ts g ih =>
    cases node with
    | zero => simp [Graph.targets, degree]
    | succ node =>
      have := ih node
      simp only [Graph.targets, degree, List.getD_cons_succ, List.foldr_cons] at *
      omega

theorem budget_mono (degree : Nat) {m n : Nat} (h : m ≤ n) : budget degree m ≤ budget degree n := by
  induction m generalizing n with
  | zero => simp [budget]
  | succ m ih =>
    obtain ⟨n, rfl⟩ : ∃ k, n = k + 1 := ⟨n - 1, by omega⟩
    have := Nat.mul_le_mul_left degree (Nat.add_le_add_left (ih (Nat.le_of_succ_le_succ h)) 1)
    simp only [budget]
    omega

theorem weight_mono (degree : Nat) (frames : List Frame) {m n : Nat} (h : m ≤ n) :
    weight degree m frames ≤ weight degree n frames := by
  induction frames generalizing m n with
  | nil => simp [weight]
  | cons f frames ih =>
    have hb := Nat.mul_le_mul_left f.pending.length (Nat.add_le_add_left (budget_mono degree h) 1)
    have hw := ih (Nat.add_le_add_right h 1)
    simp only [weight]
    omega

theorem count_set_false_le (bs : List Bool) (i : Nat) :
    (bs.set i false).count false ≤ bs.count false + 1 := by
  induction bs generalizing i with
  | nil => simp
  | cons b bs ih =>
    cases i with
    | zero => cases b <;> simp
    | succ i => have := ih i; cases b <;> simp <;> omega

theorem count_set_true {bs : List Bool} {i : Nat} (h : bs[i]? = some false) :
    (bs.set i true).count false + 1 = bs.count false := by
  induction bs generalizing i with
  | nil => simp at h
  | cons b bs ih =>
    cases i with
    | zero => simp_all
    | succ i => have := ih (by simpa using h); cases b <;> simp <;> omega

theorem potential_step_lt {g : Graph} {s t : Search} {c : Option (List Nat)}
    (h : step g s = some (c, t)) : potential g t < potential g s := by
  simp only [step] at h
  split at h
  · simp at h
  · next node frames hf =>
    cases h
    have hw := weight_mono (degree g) frames (count_set_false_le s.onPath node)
    simp only [potential, hf, weight]
    omega
  · next node target pending frames hf =>
    have hm := Nat.add_one_mul pending.length (1 + budget (degree g) (s.onPath.count false))
    split at h
    · next hfree =>
      cases h
      have hc := count_set_true hfree
      have hb := Nat.mul_le_mul_right
        (1 + budget (degree g) ((s.onPath.set target true).count false))
        (length_targets_le_degree g target)
      simp only [potential, hf, weight, List.length_cons, ← hc, budget] at hm ⊢
      omega
    · cases h
      simp only [potential, hf, weight, List.length_cons] at hm ⊢
      omega
    · cases h
      simp only [potential, hf, weight, List.length_cons] at hm ⊢
      omega

/-- The cycles that a search closes from here on, in the order of its steps. -/
def closings (g : Graph) (s : Search) : List (List Nat) :=
  match _h : step g s with
  | none => []
  | some (c, t) => c.toList ++ closings g t
termination_by potential g s
decreasing_by exact potential_step_lt _h

end Search

namespace Cycle

/-- The rotation of a cycle that starts at its smallest node, the same for all rotations. -/
def canonical (cycle : List Nat) : List Nat :=
  match cycle.min? with
  | none => []
  | some m => cycle.drop (cycle.idxOf m) ++ cycle.take (cycle.idxOf m)

/-- The cycles to report, given the nodes that have a report and the cycles behind those reports. -/
def select (reported : List Nat) (known : List (List Nat)) : List (List Nat) → List (List Nat)
  | [] => []
  | c :: cs =>
    match c with
    | [] => select reported known cs
    | target :: _ =>
      if target ∈ reported ∨ canonical c ∈ known then select reported known cs
      else c :: select (target :: reported) (canonical c :: known) cs

/-- All cycles that the searches from each node in turn close. -/
def found (g : Graph) : List (List Nat) :=
  (List.range g.length).flatMap fun root => Search.closings g (Search.start g root)

/-- The report of a cycle, at the name of its first node. A node without a name token gets none. -/
def report? (ns : List Declaration) (cycle : List Nat) : Option Diagnostic :=
  match cycle.filterMap fun i => ns[i]? with
  | [] => none
  | first :: more =>
    first.nameToken.map fun t =>
      .semantic (.declarationCycle ((first :: more ++ [first]).map (·.name))) t

def diagnostics (ds : List Declaration) : List Diagnostic :=
  (select [] [] (found (Containment.graph ds))).filterMap (report? (Containment.nodes ds))

end Cycle

end GameSchema
