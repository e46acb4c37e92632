import GameSchema.Grammar.Stream
import GameSchema.Scope

/-!
# Drafts and partial readings

A draft holds what has been gathered from the tokens read so far. Each rule of the grammar reads
from the front of the tokens that are left and answers with a reading: what it found, the draft
after it, and the tokens still left, with the proof that they are a suffix of the tokens given. No
rule can therefore go back, and the rules that follow a token end because fewer tokens are left for
them.
-/

namespace GameSchema

/-- What has been gathered so far: names in scope, finished declarations and diagnostics. -/
structure Draft where
  scope : Scope
  declarations : List Declaration
  diagnostics : List Diagnostic
deriving DecidableEq

namespace Draft

def empty : Draft := ⟨.empty, [], []⟩

def report (d : Draft) (x : Diagnostic) : Draft := { d with diagnostics := d.diagnostics ++ [x] }

/-- Adds the diagnostic of a result that is an error. -/
def reportError {α : Type} (d : Draft) : Except Diagnostic α → Draft
  | .ok _ => d
  | .error x => d.report x

def push (d : Draft) (x : Declaration) : Draft := { d with declarations := d.declarations ++ [x] }

def refer (d : Draft) (t : Token) : Draft := { d with scope := d.scope.refer t }

/-- Declares a name, unless its namespace has it already. -/
def declare (d : Draft) (kind : DeclarationKind) (name : Token) : Except Diagnostic Draft :=
  (d.scope.declare kind name).map fun s => { d with scope := s }

/-- Declares the config, unless there is one already. -/
def declareConfig (d : Draft) (keyword : Token) : Except Diagnostic Draft :=
  (d.scope.declareConfig keyword).map fun s => { d with scope := s }

end Draft

/-- What a rule makes of the tokens `ts`. -/
structure Reading (α : Type) (ts : List Token) where
  value : α
  draft : Draft
  rest : List Token
  suffix : rest <:+ ts

namespace Reading

variable {α β : Type}

def weaken {ts us : List Token} (r : Reading α us) (h : us <:+ ts) : Reading α ts :=
  ⟨r.value, r.draft, r.rest, r.suffix.trans h⟩

def map {ts : List Token} (f : α → β) (r : Reading α ts) : Reading β ts :=
  ⟨f r.value, r.draft, r.rest, r.suffix⟩

/-- The failure of a rule, which leaves all the tokens. -/
def fail (x : Diagnostic) (d : Draft) (ts : List Token) : Reading (Except Diagnostic α) ts :=
  ⟨.error x, d, ts, List.suffix_refl ts⟩

/-- Goes on from where a rule has ended with what it found; a failure stays one. -/
def andThen {ts : List Token} (r : Reading (Except Diagnostic α) ts)
    (f : α → Reading (Except Diagnostic β) r.rest) : Reading (Except Diagnostic β) ts :=
  match r.value with
  | .error x => ⟨.error x, r.draft, r.rest, r.suffix⟩
  | .ok a => (f a).weaken r.suffix

@[simp] theorem weaken_value {ts us : List Token} (r : Reading α us) (h : us <:+ ts) :
    (r.weaken h).value = r.value := rfl

@[simp] theorem weaken_draft {ts us : List Token} (r : Reading α us) (h : us <:+ ts) :
    (r.weaken h).draft = r.draft := rfl

@[simp] theorem weaken_rest {ts us : List Token} (r : Reading α us) (h : us <:+ ts) :
    (r.weaken h).rest = r.rest := rfl

@[simp] theorem map_value {ts : List Token} (f : α → β) (r : Reading α ts) :
    (r.map f).value = f r.value := rfl

@[simp] theorem map_draft {ts : List Token} (f : α → β) (r : Reading α ts) :
    (r.map f).draft = r.draft := rfl

@[simp] theorem map_rest {ts : List Token} (f : α → β) (r : Reading α ts) :
    (r.map f).rest = r.rest := rfl

theorem andThen_of_error {ts : List Token} {r : Reading (Except Diagnostic α) ts} {x : Diagnostic}
    {f : α → Reading (Except Diagnostic β) r.rest} (h : r.value = .error x) :
    r.andThen f = ⟨.error x, r.draft, r.rest, r.suffix⟩ := by
  simp only [andThen, h]

theorem andThen_of_ok {ts : List Token} {r : Reading (Except Diagnostic α) ts} {a : α}
    {f : α → Reading (Except Diagnostic β) r.rest} (h : r.value = .ok a) :
    r.andThen f = (f a).weaken r.suffix := by
  simp only [andThen, h]

theorem rest_length_le {ts : List Token} (r : Reading α ts) : r.rest.length ≤ ts.length :=
  r.suffix.length_le

end Reading

end GameSchema
