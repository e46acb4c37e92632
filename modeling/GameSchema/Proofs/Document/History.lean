import GameSchema.Document.Store
import Mathlib

/-!
# Histories of a document store

What a store holds after any calls, told from the calls alone. A document is open from its last
opening on until it is closed. Its text comes from the text of that opening by the changes that
succeeded since, and what is offered for completion comes from the last of these texts that compiled
without errors. Changes that fail leave no trace, and neither do calls for other documents.
-/

namespace GameSchema

/-- A call that can alter a store. -/
inductive Call where
  | openText (uri text : String)
  | change (uri : String) (edits : List Edit)
  | close (uri : String)

/-- The document that a call is for. -/
def Call.uri : Call → String
  | openText uri _ => uri
  | change uri _ => uri
  | close uri => uri

/-- Some calls open a document for the last time with a text, and go on with the later ones. -/
def LastOpen (uri : String) (calls : List Call) (text : String) (later : List Call) : Prop :=
  (∃ before, calls = before ++ .openText uri text :: later) ∧ ∀ t, .openText uri t ∉ later

/-- The changes of an open document that succeed, given its text before the calls: the edits of each
and the text that they leave. -/
def successes (uri : String) : String → List Call → List (List Edit × String)
  | _, [] => []
  | text, .change other edits :: calls =>
    if other = uri then
      match Edit.performAll? edits text with
      | some next => (edits, next) :: successes uri next calls
      | none => successes uri text calls
    else successes uri text calls
  | text, _ :: calls => successes uri text calls

/-- The declarations of the last of some texts that compiles without errors. -/
def latestGood (version : String) (texts : List String) : List Declaration :=
  match texts.reverse.find? fun t => !(compile version t).hasErrors with
  | some t => (compile version t).declarations
  | none => []

theorem latestGood_append (version : String) (texts : List String) (t : String) :
    latestGood version (texts ++ [t]) =
      if (compile version t).hasErrors then latestGood version texts
      else (compile version t).declarations := by
  cases h : (compile version t).hasErrors <;> simp [latestGood, h]

theorem Edit.performAll?_append (es fs : List Edit) (s : String) :
    performAll? (es ++ fs) s = (performAll? es s).bind (performAll? fs) := by
  simp only [performAll?, List.foldlM_append]
  rfl

/-- Edits fail together exactly where one of them fails on the text that those before it leave. -/
theorem Edit.performAll?_eq_none_iff {es : List Edit} {s : String} :
    performAll? es s = none ↔ ∃ before e after t, es = before ++ e :: after ∧
      performAll? before s = some t ∧ e.perform? t = none := by
  constructor
  · intro h
    induction es generalizing s with
    | nil => cases h
    | cons e es ih =>
      cases he : e.perform? s with
      | none => exact ⟨[], e, es, s, rfl, rfl, he⟩
      | some t =>
        rw [performAll?_cons, he] at h
        obtain ⟨before, f, after, u, rfl, hbefore, hf⟩ := ih h
        refine ⟨e :: before, f, after, u, rfl, ?_, hf⟩
        rw [performAll?_cons, he]
        exact hbefore
  · rintro ⟨before, e, after, t, rfl, hbefore, he⟩
    rw [performAll?_append, hbefore, Option.bind_some, performAll?_cons, he]
    rfl

/-- A document that has gone through the given texts, the last of which is its own. -/
structure Document.Reflects (version : String) (texts : List String) (d : Document) : Prop where
  last : texts.getLast? = some d.text
  compiled : d.compilation = compile version d.text
  lastGood_eq : d.lastGood = latestGood version texts

theorem Document.reflects_ofText {version : String} {texts : List String}
    {previous : List Declaration} (h : previous = latestGood version texts) (t : String) :
    Reflects version (texts ++ [t]) (.ofText version previous t) := by
  refine ⟨List.getLast?_concat, rfl, ?_⟩
  rw [latestGood_append, ← h]
  rfl

namespace DocumentStore

/-- The store after a call. A change that fails gives an error in place of a store, and the store
stays what it was. -/
def perform (s : DocumentStore) : Call → DocumentStore
  | .openText uri text => s.openText uri text
  | .change uri edits =>
    match s.change uri edits with
    | .ok t => t
    | .error _ => s
  | .close uri => (s.close uri).2

/-- The store after calls that start with no open document. -/
def run (version : String) (calls : List Call) : DocumentStore :=
  calls.foldl perform (empty version)

section Calls

variable {s t : DocumentStore} {uri other : String} {d : Document} {edits : List Edit} {c : Call}
  {calls : List Call}

theorem change_of_closed (h : s.get? uri = none) : s.change uri edits = .error (.notOpen uri) := by
  simp [change, h]

theorem change_of_failure (h : s.get? uri = some d) (he : Edit.performAll? edits d.text = none) :
    s.change uri edits = .error .invalidRange := by
  simp [change, h, he]

theorem change_of_success {text : String} (h : s.get? uri = some d)
    (he : Edit.performAll? edits d.text = some text) :
    s.change uri edits = .ok (s.insert uri (.ofText s.version d.lastGood text)) := by
  simp [change, h, he]

theorem version_perform (s : DocumentStore) (c : Call) : (s.perform c).version = s.version := by
  cases c with
  | openText uri text => rfl
  | close uri => rfl
  | change uri edits =>
    cases h : s.get? uri with
    | none => simp [perform, change_of_closed h]
    | some d =>
      cases he : Edit.performAll? edits d.text with
      | none => simp [perform, change_of_failure h he]
      | some text => simp [perform, change_of_success h he, insert, erase]

theorem version_run (version : String) (calls : List Call) :
    (run version calls).version = version := by
  have hfold (s : DocumentStore) : (calls.foldl perform s).version = s.version := by
    induction calls generalizing s with
    | nil => rfl
    | cons c calls ih => rw [List.foldl_cons, ih, version_perform]
  exact hfold _

/-- A call leaves every document but its own as it is. -/
theorem get?_perform_of_ne (h : c.uri ≠ uri) : (s.perform c).get? uri = s.get? uri := by
  have hne : uri ≠ c.uri := h.symm
  cases c with
  | openText other text =>
    simp only [Call.uri] at hne
    simp [perform, openText, hne]
  | close other =>
    simp only [Call.uri] at hne
    simp [perform, close, hne]
  | change other edits =>
    simp only [Call.uri] at hne
    cases hd : s.get? other with
    | none => simp [perform, change_of_closed hd]
    | some d =>
      cases he : Edit.performAll? edits d.text with
      | none => simp [perform, change_of_failure hd he]
      | some text => simp [perform, change_of_success hd he, hne]

theorem perform_change_of_closed (h : s.get? uri = none) :
    s.perform (.change uri edits) = s := by
  simp [perform, change_of_closed h]

theorem perform_change_of_failure (h : s.get? uri = some d)
    (he : Edit.performAll? edits d.text = none) : s.perform (.change uri edits) = s := by
  simp [perform, change_of_failure h he]

theorem get?_perform_change_of_success {text : String} (h : s.get? uri = some d)
    (he : Edit.performAll? edits d.text = some text) :
    (s.perform (.change uri edits)).get? uri = some (.ofText s.version d.lastGood text) := by
  simp [perform, change_of_success h he]

/-- A closed document stays closed until it is opened. -/
theorem get?_foldl_of_closed (h : s.get? uri = none) (hopen : ∀ t, .openText uri t ∉ calls) :
    (calls.foldl perform s).get? uri = none := by
  induction calls generalizing s with
  | nil => exact h
  | cons c calls ih =>
    refine ih ?_ fun t ht => hopen t (List.mem_cons_of_mem c ht)
    by_cases hc : c.uri = uri
    · cases c with
      | openText other text =>
        obtain rfl : other = uri := hc
        exact absurd List.mem_cons_self (hopen text)
      | close other =>
        obtain rfl : other = uri := hc
        simp [perform, close]
      | change other edits =>
        obtain rfl : other = uri := hc
        rw [perform_change_of_closed h]
        exact h
    · rw [get?_perform_of_ne hc]
      exact h

/-- While a document is open, it goes through the texts of the changes that succeed. -/
theorem get?_foldl_of_open {texts : List String} (h : s.get? uri = some d)
    (hd : d.Reflects s.version texts) (hopen : ∀ t, .openText uri t ∉ calls)
    (hclose : .close uri ∉ calls) :
    ∃ d', (calls.foldl perform s).get? uri = some d' ∧
      d'.Reflects s.version (texts ++ (successes uri d.text calls).map (·.2)) ∧
      Edit.performAll? ((successes uri d.text calls).flatMap (·.1)) d.text = some d'.text := by
  induction calls generalizing s d texts with
  | nil => exact ⟨d, h, by simpa [successes] using hd, rfl⟩
  | cons c calls ih =>
    have hopen' : ∀ t, .openText uri t ∉ calls := fun t ht => hopen t (List.mem_cons_of_mem c ht)
    have hclose' : .close uri ∉ calls := fun ht => hclose (List.mem_cons_of_mem c ht)
    rw [← version_perform s c] at hd ⊢
    by_cases hc : c.uri = uri
    · cases c with
      | openText other text =>
        obtain rfl : other = uri := hc
        exact absurd List.mem_cons_self (hopen text)
      | close other =>
        obtain rfl : other = uri := hc
        exact absurd List.mem_cons_self hclose
      | change other edits =>
        obtain rfl : other = uri := hc
        simp only [successes, if_true]
        cases he : Edit.performAll? edits d.text with
        | none =>
          have hsame : (s.perform (.change other edits)).get? other = some d := by
            rw [perform_change_of_failure h he]
            exact h
          exact ih hsame hd hopen' hclose'
        | some text =>
          have hnext := get?_perform_change_of_success h he
          rw [← version_perform s (.change other edits)] at hnext
          obtain ⟨d', hget, hreflects, hedits⟩ :=
            ih hnext (Document.reflects_ofText hd.lastGood_eq text) hopen' hclose'
          refine ⟨d', hget, ?_, ?_⟩
          · simpa [Document.ofText] using hreflects
          · simp only [List.flatMap_cons, Edit.performAll?_append, he, Option.bind_some]
            exact hedits
    · have hskip : successes uri d.text (c :: calls) = successes uri d.text calls := by
        cases c with
        | change other edits => exact if_neg hc
        | _ => rfl
      rw [hskip]
      exact ih (by rw [get?_perform_of_ne hc]; exact h) hd hopen' hclose'

/-- Calls open a document somewhere for the last time, or nowhere. -/
theorem exists_lastOpen (uri : String) (calls : List Call) :
    (∀ t, .openText uri t ∉ calls) ∨ ∃ text later, LastOpen uri calls text later := by
  induction calls with
  | nil => exact Or.inl fun t ht => by cases ht
  | cons c calls ih =>
    rcases ih with hno | ⟨text, later, ⟨before, rfl⟩, hlater⟩
    · by_cases hc : ∃ t, c = .openText uri t
      · obtain ⟨text, rfl⟩ := hc
        exact Or.inr ⟨text, calls, ⟨[], rfl⟩, hno⟩
      · refine Or.inl fun t ht => ?_
        rcases List.mem_cons.1 ht with h | h
        · exact hc ⟨t, h.symm⟩
        · exact hno t h
    · exact Or.inr ⟨text, later, ⟨c :: before, rfl⟩, hlater⟩

end Calls

section Runs

variable (version : String) {uri text : String} {calls later : List Call}

theorem get?_run_of_lastOpen (h : LastOpen uri calls text later) (hclose : .close uri ∉ later) :
    ∃ d, (run version calls).get? uri = some d ∧
      d.Reflects version (text :: (successes uri text later).map (·.2)) ∧
      Edit.performAll? ((successes uri text later).flatMap (·.1)) text = some d.text := by
  obtain ⟨⟨before, rfl⟩, hopen⟩ := h
  have hget : ((run version before).openText uri text).get? uri =
      some (.ofText (run version before).version [] text) := by simp [openText]
  have hnone : [] = latestGood (run version before).version [] := rfl
  have hversion : ((run version before).openText uri text).version = version :=
    version_run version before
  have hopened := get?_foldl_of_open hget (Document.reflects_ofText hnone text) hopen hclose
  rw [hversion] at hopened
  rw [run, List.foldl_append, List.foldl_cons]
  exact hopened

theorem get?_run_of_close (h : LastOpen uri calls text later) (hclose : .close uri ∈ later) :
    (run version calls).get? uri = none := by
  obtain ⟨⟨before, rfl⟩, hopen⟩ := h
  obtain ⟨first, last, rfl⟩ := List.append_of_mem hclose
  have hclosed (s : DocumentStore) : (s.perform (.close uri)).get? uri = none := by
    simp [perform, close]
  rw [run, List.foldl_append, List.foldl_cons, List.foldl_append, List.foldl_cons]
  refine get?_foldl_of_closed (hclosed _) fun t ht => hopen t ?_
  exact List.mem_append_right _ (List.mem_cons_of_mem _ ht)

theorem isOpen_run_iff : (run version calls).isOpen uri = true ↔
    ∃ text later, LastOpen uri calls text later ∧ .close uri ∉ later := by
  constructor
  · intro h
    rcases exists_lastOpen uri calls with hno | ⟨text, later, hlast⟩
    · have hnone : (run version calls).get? uri = none := get?_foldl_of_closed rfl hno
      rw [isOpen, hnone] at h
      cases h
    · refine ⟨text, later, hlast, ?_⟩
      intro hclose
      rw [isOpen, get?_run_of_close version hlast hclose] at h
      cases h
  · rintro ⟨text, later, hlast, hclose⟩
    obtain ⟨d, hget, -, -⟩ := get?_run_of_lastOpen version hlast hclose
    rw [isOpen, hget]
    rfl

end Runs

section Failures

variable {s : DocumentStore} {uri : String} {edits : List Edit}

theorem change_eq_notOpen_iff : s.change uri edits = .error (.notOpen uri) ↔
    s.isOpen uri = false := by
  cases h : s.get? uri with
  | none => simp [isOpen, h, change_of_closed h]
  | some d =>
    cases he : Edit.performAll? edits d.text with
    | none => simp [isOpen, h, change_of_failure h he]
    | some text => simp [isOpen, h, change_of_success h he]

theorem change_eq_invalidRange_iff : s.change uri edits = .error .invalidRange ↔
    ∃ d before e after t, s.get? uri = some d ∧ edits = before ++ e :: after ∧
      Edit.performAll? before d.text = some t ∧ e.perform? t = none := by
  cases h : s.get? uri with
  | none => simp [change_of_closed h]
  | some d =>
    have hiff : s.change uri edits = .error .invalidRange ↔
        Edit.performAll? edits d.text = none := by
      cases he : Edit.performAll? edits d.text with
      | none => simp [change_of_failure h he]
      | some text => simp [change_of_success h he]
    rw [hiff, Edit.performAll?_eq_none_iff]
    simp

theorem perform_change_of_error {x : DocumentError} (h : s.change uri edits = .error x) :
    s.perform (.change uri edits) = s := by
  simp only [perform, h]

end Failures

/-- After any calls, a document is open exactly if its last opening is not followed by a closing. It
then has the text of that opening with the edits of all changes since that succeeded, what this text
compiles to, and the declarations of the last of its texts since then that compiled without errors.
A change fails exactly if its document is not open or one of its edits fails on the text that those
before it leave; it then alters nothing. No call alters a document other than its own. -/
theorem run_follows_history (version uri : String) (calls : List Call) :
    ((run version calls).isOpen uri = true ↔
      ∃ text later, LastOpen uri calls text later ∧ .close uri ∉ later) ∧
    (∀ text later, LastOpen uri calls text later → .close uri ∉ later →
      ∃ d, (run version calls).get? uri = some d ∧
        Edit.performAll? ((successes uri text later).flatMap (·.1)) text = some d.text ∧
        d.compilation = compile version d.text ∧
        d.lastGood = latestGood version (text :: (successes uri text later).map (·.2))) ∧
    (∀ edits, ((run version calls).change uri edits = .error (.notOpen uri) ↔
        (run version calls).isOpen uri = false) ∧
      ((run version calls).change uri edits = .error .invalidRange ↔
        ∃ d before e after t, (run version calls).get? uri = some d ∧
          edits = before ++ e :: after ∧ Edit.performAll? before d.text = some t ∧
          e.perform? t = none) ∧
      ∀ x, (run version calls).change uri edits = .error x →
        (run version calls).perform (.change uri edits) = run version calls) ∧
    ∀ c : Call, c.uri ≠ uri →
      ((run version calls).perform c).get? uri = (run version calls).get? uri := by
  refine ⟨isOpen_run_iff version, ?_, ?_, ?_⟩
  · intro text later hlast hclose
    obtain ⟨d, hget, hreflects, hedits⟩ := get?_run_of_lastOpen version hlast hclose
    exact ⟨d, hget, hedits, hreflects.compiled, hreflects.lastGood_eq⟩
  · intro edits
    exact ⟨change_eq_notOpen_iff, change_eq_invalidRange_iff, fun x => perform_change_of_error⟩
  · intro c hc
    exact get?_perform_of_ne hc

/-- A document that is opened with a good text, loses it to a broken one, and is then left alone by
a change that fails at its second edit and by a call for another document. -/
def brokenHistory : List Call :=
  [.openText "a" "name g version 0.4 enum E \x7b x \x7d", .change "a" [⟨none, "name g"⟩],
    .change "a" [⟨none, "ab"⟩, ⟨some ⟨⟨0, 1⟩, ⟨0, 0⟩⟩, "name"⟩], .close "b"]

theorem run_follows_history_broken : ∃ d, (run "0.4" brokenHistory).get? "a" = some d ∧
    d.text = "name g" ∧ d.compilation = compile "0.4" "name g" ∧
    d.lastGood.map (·.name) = ["E", ""] := by
  have hlast : LastOpen "a" brokenHistory "name g version 0.4 enum E \x7b x \x7d"
      (brokenHistory.drop 1) := ⟨⟨[], rfl⟩, by simp [brokenHistory]⟩
  have hclose : Call.close "a" ∉ brokenHistory.drop 1 := by simp [brokenHistory]
  have hsuccesses : successes "a" "name g version 0.4 enum E \x7b x \x7d" (brokenHistory.drop 1) =
      [([⟨none, "name g"⟩], "name g")] := by cbv
  obtain ⟨-, hget, -⟩ := run_follows_history "0.4" "a" brokenHistory
  obtain ⟨d, hd, hedits, hcompiled, hgood⟩ := hget _ _ hlast hclose
  rw [hsuccesses] at hedits hgood
  have htext : d.text = "name g" := (Option.some.inj hedits).symm
  refine ⟨d, hd, htext, by rw [hcompiled, htext], ?_⟩
  rw [hgood]
  cbv

end DocumentStore

end GameSchema
