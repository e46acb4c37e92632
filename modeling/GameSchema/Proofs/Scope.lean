import GameSchema.Scope
import Mathlib.Data.List.Induction

/-!
# Histories of a scope

What a scope knows after any calls, told from the calls alone. A name is declared when some call
declares it, and it can be declared no second time in its namespace. References are judged by all
the calls, those after them too, so what is reported in the end depends on the order of the
references among themselves and on nothing else in the order of the calls.
-/

namespace GameSchema.Scope

/-- A call that can alter a scope. -/
inductive Call where
  | declare (kind : DeclarationKind) (name : Token)
  | declareConfig (keyword : Token)
  | refer (t : Token)

def Call.reference? : Call → Option Token
  | refer t => some t
  | _ => none

/-- The scope that a call makes, or the diagnostic with which it fails. -/
def call (s : Scope) : Call → Except Diagnostic Scope
  | .declare kind name => s.declare kind name
  | .declareConfig keyword => s.declareConfig keyword
  | .refer t => .ok (s.refer t)

/-- The scope after a call. A call that fails makes no scope, and there is still the one before. -/
def perform (s : Scope) (c : Call) : Scope :=
  match s.call c with
  | .ok t => t
  | .error _ => s

/-- The scope after calls that start with the empty one. -/
def run (calls : List Call) : Scope := calls.foldl perform empty

/-- The references of some calls, in their order. -/
def referred (calls : List Call) : List Token := calls.filterMap Call.reference?

/-- One of some calls declares a name in a namespace. -/
def Declares (calls : List Call) (n : Namespace) (name : String) : Prop :=
  ∃ kind t, .declare kind t ∈ calls ∧ kind.scope? = some n ∧ t.lexeme = name

/-- Of some calls, the one with the index `i` is the first reference to a name that is wanted. -/
structure FirstUse (wanted : String → Prop) (calls : List Call) (i : Nat) (t : Token) : Prop where
  refers : calls[i]? = some (.refer t)
  wanted : wanted t.lexeme
  first : ∀ j < i, ∀ u, calls[j]? = some (.refer u) → u.lexeme ≠ t.lexeme

/-- What some calls have to do with the scope that they lead to. -/
structure Reflects (calls : List Call) (s : Scope) : Prop where
  declared : ∀ n name, s.isDeclared n name = true ↔ Declares calls n name
  /-- A name is refused when a call before has declared it in the same namespace. -/
  declare_fails : ∀ kind n t, kind.scope? = some n →
    (s.declare kind t = .error (.semantic .duplicateIdentifier t) ↔ Declares calls n t.lexeme)
  /-- That is the only way to fail. -/
  declare_error : ∀ kind t x, s.declare kind t = .error x → x = .semantic .duplicateIdentifier t
  /-- A config is refused when a call before has declared one. -/
  declareConfig_fails : ∀ t, s.declareConfig t = .error (.semantic .multipleConfig t) ↔
    ∃ u, .declareConfig u ∈ calls
  declareConfig_error : ∀ t x, s.declareConfig t = .error x → x = .semantic .multipleConfig t
  refused : ∀ c x, s.call c = .error x → s.perform c = s
  /-- Reported are the first references to the types that no call declares, in their order. -/
  finished : ∃ uses : List (Nat × Token),
    s.finish = uses.map (fun u => .semantic .undefinedType u.2) ∧
      uses.Pairwise (fun u v => u.1 < v.1) ∧
        ∀ i t, (i, t) ∈ uses ↔ FirstUse (fun name => ¬ Declares calls .types name) calls i t
  /-- Other calls with the same references and the same declared types end in the same reports. -/
  interleaved : ∀ others, referred others = referred calls →
    (∀ name, Declares others .types name ↔ Declares calls .types name) →
      (run others).finish = s.finish

section Calls

variable (s : Scope) (c : Call) (calls : List Call) (n : Namespace) (name : String)

@[simp] theorem run_nil : run [] = empty := rfl

@[simp] theorem run_concat : run (calls ++ [c]) = (run calls).perform c := by
  simp [run]

theorem isDeclared_iff : s.isDeclared n name = true ↔ (n, name) ∈ s.declared := by
  simp [isDeclared]

theorem perform_of_error {x : Diagnostic} (h : s.call c = .error x) : s.perform c = s := by
  simp only [perform, h]

/-- A name in a namespace is refused exactly when it is declared there. -/
theorem declare_eq_error_iff {kind : DeclarationKind} (hk : kind.scope? = some n) (t : Token) :
    s.declare kind t = .error (.semantic .duplicateIdentifier t) ↔ (n, t.lexeme) ∈ s.declared := by
  rw [← isDeclared_iff]
  cases hd : s.isDeclared n t.lexeme <;> simp [declare, hk, hd]

theorem eq_duplicate_of_declare {kind : DeclarationKind} {t : Token} {x : Diagnostic}
    (h : s.declare kind t = .error x) : x = .semantic .duplicateIdentifier t := by
  simp only [declare] at h
  split at h
  · cases h
  · split at h
    · cases h
      rfl
    · cases h

theorem declareConfig_eq_error_iff (t : Token) :
    s.declareConfig t = .error (.semantic .multipleConfig t) ↔ s.configSeen = true := by
  cases hs : s.configSeen <;> simp [declareConfig, hs]

theorem eq_multipleConfig_of_declareConfig {t : Token} {x : Diagnostic}
    (h : s.declareConfig t = .error x) : x = .semantic .multipleConfig t := by
  simp only [declareConfig] at h
  split at h
  · cases h
    rfl
  · cases h

/-- What a declaration of a name does: it adds the name where that is new. -/
theorem perform_declare (kind : DeclarationKind) (t : Token) :
    (s.perform (.declare kind t) = s ∧ ∀ n, kind.scope? = some n → (n, t.lexeme) ∈ s.declared) ∨
      ∃ n, kind.scope? = some n ∧
        s.perform (.declare kind t) = { s with declared := s.declared ++ [(n, t.lexeme)] } := by
  cases hk : kind.scope? with
  | none =>
    left
    exact ⟨by simp [perform, call, declare, hk], by simp⟩
  | some n =>
    cases hd : s.isDeclared n t.lexeme with
    | true =>
      left
      refine ⟨by simp [perform, call, declare, hk, hd], ?_⟩
      rintro m ⟨⟩
      exact (s.isDeclared_iff n t.lexeme).1 hd
    | false =>
      right
      exact ⟨n, rfl, by simp [perform, call, declare, hk, hd]⟩

theorem perform_declareConfig (t : Token) :
    s.perform (.declareConfig t) = { s with configSeen := true } := by
  cases s with
  | mk declared references seen =>
    cases seen <;> rfl

theorem perform_refer (t : Token) : s.perform (.refer t) = s.refer t := rfl

theorem references_perform :
    (s.perform c).references = s.references ++ c.reference?.toList := by
  cases c with
  | declare kind t =>
    rcases s.perform_declare kind t with ⟨hp, -⟩ | ⟨n, -, hp⟩
    · rw [hp]
      simp [Call.reference?]
    · rw [hp]
      simp [Call.reference?]
  | declareConfig t =>
    rw [perform_declareConfig]
    simp [Call.reference?]
  | refer t => rfl

theorem configSeen_perform :
    (s.perform c).configSeen = true ↔ s.configSeen = true ∨ ∃ t, c = .declareConfig t := by
  cases c with
  | declare kind t =>
    rcases s.perform_declare kind t with ⟨hp, -⟩ | ⟨n, -, hp⟩
    · rw [hp]
      simp
    · rw [hp]
      simp
  | declareConfig t =>
    rw [perform_declareConfig]
    simp
  | refer t => simp [perform_refer, refer]

theorem mem_declared_perform : (n, name) ∈ (s.perform c).declared ↔
    (n, name) ∈ s.declared ∨ Declares [c] n name := by
  cases c with
  | declare kind t =>
    rcases s.perform_declare kind t with ⟨hp, hold⟩ | ⟨m, hk, hp⟩
    · rw [hp]
      refine ⟨.inl, ?_⟩
      rintro (h | ⟨k, u, hmem, hk, rfl⟩)
      · exact h
      · cases List.mem_singleton.1 hmem
        exact hold n hk
    · rw [hp]
      simp [Declares, hk, eq_comm]
  | declareConfig t =>
    rw [perform_declareConfig]
    simp [Declares]
  | refer t => simp [perform_refer, refer, Declares]

theorem declares_append (others : List Call) : Declares (calls ++ others) n name ↔
    Declares calls n name ∨ Declares others n name := by
  simp only [Declares, List.mem_append, or_and_right, exists_or]

theorem mem_declared_run : (n, name) ∈ (run calls).declared ↔ Declares calls n name := by
  induction calls using List.reverseRecOn with
  | nil => simp [empty, Declares]
  | append_singleton calls c ih => rw [run_concat, mem_declared_perform, ih, declares_append]

theorem references_run : (run calls).references = referred calls := by
  induction calls using List.reverseRecOn with
  | nil => rfl
  | append_singleton calls c ih =>
    rw [run_concat, references_perform, ih, referred, referred, List.filterMap_append]
    cases c <;> rfl

theorem configSeen_run : (run calls).configSeen = true ↔ ∃ t, .declareConfig t ∈ calls := by
  induction calls using List.reverseRecOn with
  | nil => simp [empty]
  | append_singleton calls c ih =>
    rw [run_concat, configSeen_perform, ih]
    simp only [List.mem_append, List.mem_singleton, exists_or, eq_comm]

end Calls

section Reports

variable {wanted : String → Prop} {calls : List Call} {c : Call} {i : Nat} {t u : Token}

theorem firstUse_zero :
    FirstUse wanted (c :: calls) 0 t ↔ c = .refer t ∧ wanted t.lexeme := by
  constructor
  · rintro ⟨hrefers, hwanted, -⟩
    exact ⟨by simpa using hrefers, hwanted⟩
  · rintro ⟨rfl, hwanted⟩
    exact ⟨rfl, hwanted, fun j hj => absurd hj (Nat.not_lt_zero j)⟩

/-- A use is still the first one behind another call, unless that call refers to the same name. -/
theorem firstUse_succ : FirstUse wanted (c :: calls) (i + 1) t ↔
    FirstUse wanted calls i t ∧ ∀ u, c = .refer u → u.lexeme ≠ t.lexeme := by
  constructor
  · rintro ⟨hrefers, hwanted, hfirst⟩
    refine ⟨⟨hrefers, hwanted, ?_⟩, ?_⟩
    · intro j hj u hu
      exact hfirst (j + 1) (Nat.succ_lt_succ hj) u hu
    · rintro u rfl
      exact hfirst 0 (Nat.succ_pos i) u rfl
  · rintro ⟨⟨hrefers, hwanted, hfirst⟩, hc⟩
    refine ⟨hrefers, hwanted, ?_⟩
    intro j hj u hu
    cases j with
    | zero => exact hc u (by simpa using hu)
    | succ j => exact hfirst j (Nat.lt_of_succ_lt_succ hj) u hu

/-- Uses counted from one call earlier on. -/
def later (uses : List (Nat × Token)) : List (Nat × Token) := uses.map fun u => (u.1 + 1, u.2)

theorem map_later (uses : List (Nat × Token)) : (later uses).map (·.2) = uses.map (·.2) := by
  simp [later]

theorem pairwise_later {uses : List (Nat × Token)} (h : uses.Pairwise fun u v => u.1 < v.1) :
    (later uses).Pairwise fun u v => u.1 < v.1 := by
  rw [later, List.pairwise_map]
  exact h.imp Nat.succ_lt_succ

theorem succ_mem_later {uses : List (Nat × Token)} : (i + 1, t) ∈ later uses ↔ (i, t) ∈ uses := by
  simp [later]

theorem not_zero_mem_later {uses : List (Nat × Token)} : (0, t) ∉ later uses := by
  simp [later]

/-- All the first uses of wanted names, in their order, each with the index of its call. -/
structure FirstUses (wanted : String → Prop) (calls : List Call) (uses : List (Nat × Token)) :
    Prop where
  ordered : uses.Pairwise fun u v => u.1 < v.1
  mem_iff : ∀ i t, (i, t) ∈ uses ↔ FirstUse wanted calls i t

namespace FirstUses

variable {uses : List (Nat × Token)}

theorem nil : FirstUses wanted [] [] where
  ordered := .nil
  mem_iff := by
    intro i t
    refine ⟨by simp, ?_⟩
    rintro ⟨hrefers, -, -⟩
    cases hrefers

/-- A wanted reference in front is the first use of its name. -/
theorem refer (h : FirstUses wanted calls uses) (ht : wanted t.lexeme) :
    FirstUses wanted (.refer t :: calls)
      ((0, t) :: (later uses).filter fun u => u.2.lexeme != t.lexeme) where
  ordered := by
    rw [List.pairwise_cons]
    refine ⟨?_, (pairwise_later h.ordered).filter _⟩
    rintro ⟨i, u⟩ hu
    cases i with
    | zero => exact absurd (List.mem_filter.1 hu).1 not_zero_mem_later
    | succ i => exact Nat.succ_pos i
  mem_iff := by
    intro i u
    cases i with
    | zero =>
      rw [firstUse_zero, List.mem_cons, List.mem_filter]
      constructor
      · rintro (heq | ⟨hmem, -⟩)
        · cases heq
          exact ⟨rfl, ht⟩
        · exact absurd hmem not_zero_mem_later
      · rintro ⟨heq, -⟩
        cases heq
        exact .inl rfl
    | succ i =>
      rw [firstUse_succ, ← h.mem_iff, List.mem_cons, List.mem_filter, succ_mem_later]
      constructor
      · rintro (heq | ⟨hmem, hne⟩)
        · cases heq
        · refine ⟨hmem, ?_⟩
          rintro v ⟨⟩ heq
          simp [heq] at hne
      · rintro ⟨hmem, hne⟩
        exact .inr ⟨hmem, by simpa using Ne.symm (hne t rfl)⟩

/-- Any other call in front leaves the first uses what they are. -/
theorem cons (h : FirstUses wanted calls uses) (hc : ∀ t, c = .refer t → ¬ wanted t.lexeme) :
    FirstUses wanted (c :: calls) (later uses) where
  ordered := pairwise_later h.ordered
  mem_iff := by
    intro i u
    cases i with
    | zero =>
      rw [firstUse_zero]
      refine ⟨fun hmem => absurd hmem not_zero_mem_later, ?_⟩
      rintro ⟨heq, hu⟩
      exact absurd hu (hc u heq)
    | succ i =>
      rw [firstUse_succ, ← h.mem_iff, succ_mem_later]
      refine ⟨?_, And.left⟩
      intro hu
      refine ⟨hu, ?_⟩
      rintro t ht heq
      apply hc t ht
      rw [heq]
      exact ((h.mem_iff i u).1 hu).wanted

end FirstUses

/-- The tokens that are kept from the wanted references are those of the first uses. -/
theorem exists_firstUses (wanted : String → Bool) (calls : List Call) :
    ∃ uses : List (Nat × Token),
      firstByLexeme ((referred calls).filter fun t => wanted t.lexeme) = uses.map (·.2) ∧
        FirstUses (wanted · = true) calls uses := by
  induction calls with
  | nil => exact ⟨[], rfl, .nil⟩
  | cons c calls ih =>
    obtain ⟨uses, hkept, huses⟩ := ih
    by_cases hc : ∃ t, c = .refer t ∧ wanted t.lexeme = true
    · obtain ⟨t, rfl, ht⟩ := hc
      refine ⟨_, ?_, huses.refer ht⟩
      have hfirst : (referred (.refer t :: calls)).filter (fun u => wanted u.lexeme) =
          t :: (referred calls).filter fun u => wanted u.lexeme :=
        List.filter_cons_of_pos ht
      rw [hfirst, firstByLexeme, hkept, ← map_later uses, List.filter_map]
      rfl
    · have hother (t : Token) (h : c = .refer t) : ¬ wanted t.lexeme = true :=
        fun ht => hc ⟨t, h, ht⟩
      refine ⟨_, ?_, huses.cons hother⟩
      have hfirst : (referred (c :: calls)).filter (fun u => wanted u.lexeme) =
          (referred calls).filter fun u => wanted u.lexeme := by
        cases c with
        | refer t => exact List.filter_cons_of_neg (hother t rfl)
        | _ => rfl
      rw [hfirst, hkept, map_later]

end Reports

section Results

theorem finish_run (calls : List Call) : (run calls).finish =
    (firstByLexeme ((referred calls).filter fun t => !(run calls).isDeclared .types t.lexeme)).map
      (.semantic .undefinedType) := by
  rw [finish, undefined, references_run]

theorem isDeclared_run (calls : List Call) (n : Namespace) (name : String) :
    (run calls).isDeclared n name = true ↔ Declares calls n name := by
  rw [isDeclared_iff, mem_declared_run]

/-- The scope that any calls lead to is told by the calls. -/
theorem reflects_run (calls : List Call) : Reflects calls (run calls) where
  declared := isDeclared_run calls
  declare_fails := by
    intro kind n t hk
    rw [declare_eq_error_iff _ _ hk, mem_declared_run]
  declare_error := fun kind t x h => eq_duplicate_of_declare _ h
  declareConfig_fails := by
    intro t
    rw [declareConfig_eq_error_iff, configSeen_run]
  declareConfig_error := fun t x h => eq_multipleConfig_of_declareConfig _ h
  refused := fun c x h => perform_of_error _ c h
  finished := by
    obtain ⟨uses, hkept, huses⟩ :=
      exists_firstUses (fun name => !(run calls).isDeclared .types name) calls
    refine ⟨uses, ?_, huses.ordered, ?_⟩
    · rw [finish_run, hkept, List.map_map]
      rfl
    · intro i t
      rw [huses.mem_iff]
      simp only [Bool.not_eq_true', ← Bool.not_eq_true, isDeclared_run]
  interleaved := by
    intro others hreferred hdeclares
    have hsame : ∀ name, (run others).isDeclared .types name =
        (run calls).isDeclared .types name := by
      intro name
      rw [Bool.eq_iff_iff, isDeclared_run, isDeclared_run, hdeclares]
    simp only [finish_run, hreferred, hsame]

/-- A type can be declared behind its use, and one that is declared nowhere is reported once. -/
example : (run [.refer ⟨.identifier, "A", ⟨0, 0⟩⟩, .refer ⟨.identifier, "B", ⟨1, 0⟩⟩,
    .declare .enum ⟨.identifier, "A", ⟨2, 5⟩⟩, .refer ⟨.identifier, "B", ⟨3, 0⟩⟩]).finish =
      [.semantic .undefinedType ⟨.identifier, "B", ⟨1, 0⟩⟩] := by
  decide

end Results

end GameSchema.Scope
