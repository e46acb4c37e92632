import GameSchema.Proofs.Token.Geometry
import GameSchema.Proofs.Token.Rescan

/-!
# The scanner on a cursor

The scanner as loops over a cursor, a line and a column in the lines of a source. No text of the
whole source is at hand: a newline is seen behind the last character of every line, and the
character after that one is looked up in the next line. Every other look-up is by index, and nothing
bounds the loops: `none` stands for a text outside of its line, for a depth below zero and for a
loop without end. What the cursor has not passed is what is left of the text of the lines, so it
reads what a walk along that text reads, and none of this happens.
-/

namespace GameSchema

/-- The lines that a cursor moves in. -/
abbrev LineCursor := List (List Char)

namespace LineCursor

/-- A rule that reads from a place. It fails with a scan error, and it can come to no result at
all. -/
abbrev Rule (α : Type) := ExceptT ScanError Option α

section Cursor

variable (ls : LineCursor)

/-- The character at a place, or the newline behind its line. -/
def current (p : Position) : Option Char := do
  let l ← ls[p.line]?
  return l[p.column]?.getD '\n'

/-- The character behind the one at a place, which may be the first one of the next line. -/
def peek (p : Position) : Option Char := do
  let l ← ls[p.line]?
  if p.column + 1 < l.length then l[p.column + 1]?
  else if p.column + 1 = l.length then return '\n'
  else (ls[p.line + 1]?).map fun m => m.head?.getD '\n'

def advance (p : Position) : Position :=
  match current ls p with
  | none => p
  | some c => if c = '\n' then ⟨p.line + 1, 0⟩ else ⟨p.line, p.column + 1⟩

/-- The characters of a line from one column up to another. -/
def text (line start stop : Nat) : Rule (List Char) := ExceptT.lift do
  let l ← ls[line]?
  if start ≤ stop ∧ stop ≤ l.length then some ((l.take stop).drop start) else none

/-- Moves on as long as the character at the cursor has a property. -/
def skipWhile (ls : LineCursor) (q : Char → Bool) (p : Position) : Rule Position := do
  if (current ls p).any q then ls |>.skipWhile q (advance ls p) else return p
partial_fixpoint

end Cursor

section Elements

variable (ls : LineCursor)

def word (p : Position) : Rule (List Token × Position) := do
  let stop ← skipWhile ls Scan.isWordPart p
  let w := String.ofList (← text ls p.line p.column stop.column)
  return ([⟨wordKind w, w, p⟩], stop)

/-- Moves over at most `n` further parts of a version number. -/
def versionParts : Nat → Position → Rule Position
  | 0, p => return p
  | n + 1, p => do
    if current ls p = some '.' then
      let q := advance ls p
      if (current ls q).any Char.isDigit then versionParts n (← skipWhile ls Char.isDigit q)
      else throw ⟨.missingDigit, q⟩
    else return p

def versionNumber (p : Position) : Rule (List Token × Position) := do
  let stop ← versionParts ls 2 (← skipWhile ls Char.isDigit p)
  let w ← text ls p.line p.column stop.column
  return ([⟨.versionNumber, String.ofList w, p⟩], stop)

def lineComment (p : Position) : Rule (List Token × Position) := do
  let start := advance ls (advance ls p)
  let stop ← skipWhile ls (· ≠ '\n') start
  let raw ← text ls p.line start.column stop.column
  let shown := String.ofList (Text.trim raw)
  return ([⟨.comment, shown, ⟨p.line, start.column + Text.indent raw⟩⟩], stop)

/-- What has been collected of a line of a block comment, and where collecting started. -/
structure Segment where
  start : Position
  collected : List Char

/-- The token of a segment, if it says anything. -/
def Segment.token? (s : Segment) : Option Token :=
  let (passed, rest) := match Text.trimStart s.collected with
    | '*' :: cs => (Text.indent s.collected + 1 + Text.indent cs, cs)
    | cs => (Text.indent s.collected, cs)
  if Text.trim rest = [] then none
  else some ⟨.comment, String.ofList (Text.trim rest), s.start.shift passed⟩

/-- Collects a character in the last segment. -/
def collect (c : Char) : List Segment → List Segment
  | [] => []
  | [s] => [{ s with collected := s.collected ++ [c] }]
  | s :: ss => s :: collect c ss

/-- Reads on inside of `depth` comments, the outermost of which starts at `opening`. -/
def segments (ls : LineCursor) (opening p : Position) (depth : Nat) (ss : List Segment) :
    Rule (List Segment × Position) := do
  match current ls p with
  | none => throw ⟨.unterminatedComment, opening⟩
  | some c =>
    if c = '/' ∧ peek ls p = some '*' then
      ls |>.segments opening (advance ls (advance ls p)) (depth + 1) ss
    else if c = '*' ∧ peek ls p = some '/' then
      match depth with
      | 0 => ExceptT.lift none
      | 1 => return (ss, advance ls (advance ls p))
      | depth + 2 => ls |>.segments opening (advance ls (advance ls p)) (depth + 1) ss
    else if c = '\n' then
      ls |>.segments opening (advance ls p) depth (ss ++ [⟨advance ls p, []⟩])
    else ls |>.segments opening (advance ls p) depth (collect c ss)
partial_fixpoint

def blockComment (p : Position) : Rule (List Token × Position) := do
  let start := advance ls (advance ls p)
  let (ss, stop) ← segments ls p start 1 [⟨start, []⟩]
  return (ss.filterMap Segment.token?, stop)

/-- Reads the element that starts with the character `c` at the cursor. -/
def element (p : Position) (c : Char) : Rule (List Token × Position) := do
  if Scan.isLayout c then return ([], advance ls p)
  else match Scan.punctuation? c with
    | some k => return ([⟨k, c.toString, p⟩], advance ls p)
    | none =>
      if c = '/' then
        match peek ls p with
        | some '/' => lineComment ls p
        | some '*' => blockComment ls p
        | _ => throw ⟨.unexpected c, p⟩
      else if c.isDigit then versionNumber ls p
      else if Scan.isWordStart c then word ls p
      else throw ⟨.unexpected c, p⟩

def tokens (ls : LineCursor) (p : Position) (ts : List Token) : Rule (List Token) := do
  match current ls p with
  | none => return ts
  | some c =>
    let (us, q) ← element ls p c
    ls |>.tokens q (ts ++ us)
partial_fixpoint

end Elements

/-- The tokens of a source, the last one being the end of file. -/
def scan (source : String) : Rule (List Token) := do
  let ts ← tokens (Text.lines source.toList) .origin []
  return ts ++ [Token.endOfFile (sourceEnd source.toList)]

/-- What is left of the text of the lines at a place. -/
inductive Left (ls : LineCursor) : Position → List Char → Prop
  | line {p before after} (hline : ls[p.line]? = some (before ++ after))
      (hcolumn : before.length = p.column) :
      Left ls p (after ++ '\n' :: Text.unlines (ls.drop (p.line + 1)))
  | stop {p} (hline : ls.length ≤ p.line) : Left ls p []

section Moving

variable {ls : LineCursor} {p : Position} {c : Char} {cs w : List Char} {q : Char → Bool}

theorem left_front (ls : LineCursor) (n : Nat) : Left ls ⟨n, 0⟩ (Text.unlines (ls.drop n)) := by
  cases hl : ls[n]? with
  | none =>
    have hlength := List.getElem?_eq_none_iff.1 hl
    rw [List.drop_eq_nil_of_le hlength]
    exact .stop hlength
  | some l =>
    obtain ⟨hn, rfl⟩ := List.getElem?_eq_some_iff.1 hl
    rw [List.drop_eq_getElem_cons hn, Text.unlines_cons]
    have hfront : ls[n]? = some ([] ++ ls[n]) := hl
    exact .line hfront rfl

theorem Left.current (h : Left ls p cs) : current ls p = cs.head? := by
  cases h with
  | stop hline => simp [LineCursor.current, List.getElem?_eq_none hline]
  | @line before after hline hcolumn =>
    cases after <;> simp [LineCursor.current, hline, ← hcolumn]

/-- The character after the next one is looked up where it is, also behind the end of a line. -/
theorem Left.peek (h : Left ls p (c :: cs)) : peek ls p = cs.head? := by
  generalize hcs : c :: cs = ds at h
  cases h with
  | stop hline => cases hcs
  | @line before after hline hcolumn =>
    rw [LineCursor.peek, hline]
    simp only [Option.bind_eq_bind, Option.bind_some, List.length_append, ← hcolumn]
    cases after with
    | nil =>
      obtain ⟨-, rfl⟩ := List.cons.inj hcs
      cases hnext : ls[p.line + 1]? with
      | none => simp [List.drop_eq_nil_of_le (List.getElem?_eq_none_iff.1 hnext)]
      | some m =>
        obtain ⟨hm, rfl⟩ := List.getElem?_eq_some_iff.1 hnext
        rw [List.drop_eq_getElem_cons hm]
        cases ls[p.line + 1] <;> simp
    | cons d after =>
      obtain ⟨-, rfl⟩ := List.cons.inj hcs
      cases after <;> simp

/-- A line does not end without its newline. -/
theorem Left.ne_nil (h : Left ls p (c :: cs)) (hc : c ≠ '\n') : cs ≠ [] := by
  generalize hcs : c :: cs = ds at h
  cases h with
  | stop hline => cases hcs
  | @line before after hline hcolumn =>
    cases after with
    | nil => exact absurd (List.cons.inj hcs).1 hc
    | cons d after =>
      rw [(List.cons.inj hcs).2]
      simp

/-- Moving on reads the next character. -/
theorem Left.advance (hls : ∀ l ∈ ls, '\n' ∉ l) (h : Left ls p (c :: cs)) :
    advance ls p = p.next c ∧ Left ls (p.next c) cs := by
  have hcurrent := h.current
  refine ⟨?_, ?_⟩
  · rw [LineCursor.advance, hcurrent]
    rfl
  · generalize hcs : c :: cs = ds at h
    cases h with
    | stop hline => cases hcs
    | @line before after hline hcolumn =>
      cases after with
      | nil =>
        obtain ⟨rfl, rfl⟩ := List.cons.inj hcs
        exact left_front ls (p.line + 1)
      | cons d after =>
        obtain ⟨rfl, rfl⟩ := List.cons.inj hcs
        have hc : c ≠ '\n' := by
          rintro rfl
          exact hls _ (List.mem_of_getElem? hline) (by simp)
        rw [Position.next_of_ne p hc]
        rw [List.append_cons] at hline
        exact .line (p := p.shift 1) hline (by simp [Position.shift, hcolumn])

theorem Left.after (hls : ∀ l ∈ ls, '\n' ∉ l) (h : Left ls p (w ++ cs)) :
    Left ls (p.after w) cs := by
  induction w generalizing p with
  | nil => exact h
  | cons c w ih => exact ih (h.advance hls).2

theorem Left.skipWhile (hls : ∀ l ∈ ls, '\n' ∉ l) (h : Left ls p cs) :
    skipWhile ls q p = pure (p.after (cs.takeWhile q)) := by
  induction cs generalizing p with
  | nil =>
    rw [LineCursor.skipWhile, h.current]
    rfl
  | cons c cs ih =>
    obtain ⟨hadvance, hnext⟩ := h.advance hls
    rw [LineCursor.skipWhile, h.current, hadvance, List.head?_cons, Option.any_some]
    cases hc : q c with
    | true =>
      rw [if_pos rfl, ih hnext, List.takeWhile_cons_of_pos hc]
      rfl
    | false =>
      rw [if_neg (by simp), List.takeWhile_cons_of_neg (by simp [hc])]
      rfl

/-- What has been read without a newline is a text of its line. -/
theorem Left.text (h : Left ls p (w ++ cs)) (hw : '\n' ∉ w) (hne : w ++ cs ≠ []) :
    text ls p.line p.column (p.after w).column = pure w := by
  generalize hcs : w ++ cs = ds at h
  cases h with
  | stop hline => exact absurd hcs hne
  | @line before after hline hcolumn =>
    obtain ⟨b, rfl, -⟩ := Text.exists_append_of_newline hw hcs
    have htake : ((before ++ (w ++ b)).take (before.length + w.length)).drop before.length = w := by
      rw [← List.append_assoc, ← List.length_append, List.take_left, List.drop_left]
    rw [Position.after_eq_shift p hw, Position.shift, ← hcolumn, LineCursor.text, hline]
    simp only [Option.bind_eq_bind, Option.bind_some, htake, List.length_append]
    rw [if_pos (by omega)]
    rfl

end Moving

section Words

variable {ls : LineCursor} {p : Position} {c : Char} {cs : List Char}

/-- What a walk along the text gives for an element, as a rule on the cursor gives it. -/
def result (p : Position) (x : Except ScanError Scan.Element) : Rule (List Token × Position) :=
  .mk (some (x.map fun e => (e.tokens, p.after e.taken)))

theorem result_ok (p : Position) (e : Scan.Element) :
    result p (.ok e) = pure (e.tokens, p.after e.taken) := rfl

theorem Left.word (hls : ∀ l ∈ ls, '\n' ∉ l) (h : Left ls p (c :: cs)) :
    word ls p = result p (.ok (Scan.word p (c :: cs))) := by
  have htext : Left ls p
      ((c :: cs).takeWhile Scan.isWordPart ++ (c :: cs).dropWhile Scan.isWordPart) := by
    rwa [List.takeWhile_append_dropWhile]
  have hne : (c :: cs).takeWhile Scan.isWordPart ++ (c :: cs).dropWhile Scan.isWordPart ≠ [] := by
    rw [List.takeWhile_append_dropWhile]
    nofun
  rw [LineCursor.word, h.skipWhile hls, pure_bind,
    htext.text (Scan.not_mem_takeWhile rfl _) hne, pure_bind]
  rfl

theorem any_isDigit (cs : List Char) :
    cs.head?.any Char.isDigit = !(cs.takeWhile Char.isDigit).isEmpty := by
  cases cs with
  | nil => rfl
  | cons c cs => cases hc : c.isDigit <;> simp [hc]

theorem Left.takeWhile (hls : ∀ l ∈ ls, '\n' ∉ l) (h : Left ls p cs) (q : Char → Bool) :
    Left ls (p.after (cs.takeWhile q)) (cs.dropWhile q) := by
  have hsplit : Left ls p (cs.takeWhile q ++ cs.dropWhile q) := by
    rwa [List.takeWhile_append_dropWhile]
  exact hsplit.after hls

/-- The parts of a version number are read as a walk along the text reads them. -/
theorem Left.versionParts (hls : ∀ l ∈ ls, '\n' ∉ l) {n : Nat} (h : Left ls p cs) :
    versionParts ls n p = match Scan.versionParts n cs with
      | .ok r => pure (p.after r.1)
      | .error more => throw ⟨.missingDigit, p.after more⟩ := by
  fun_induction Scan.versionParts n cs generalizing p with
  | case1 n cs hd =>
    obtain ⟨hadvance, hnext⟩ := h.advance hls
    simp only [LineCursor.versionParts, h.current, List.head?_cons, ↓reduceIte, hadvance,
      hnext.current, any_isDigit, hd, List.isEmpty_nil, Bool.not_true, Bool.false_eq_true]
    rfl
  | case2 n cs d ds hd more rest hr ih | case3 n cs d ds hd more hr ih =>
    obtain ⟨hadvance, hnext⟩ := h.advance hls
    have hrest := ih (hnext.takeWhile hls Char.isDigit)
    rw [hr, hd] at hrest
    simp only [LineCursor.versionParts, h.current, List.head?_cons, ↓reduceIte, hadvance,
      hnext.current, any_isDigit, hd, List.isEmpty_cons, Bool.not_false, hnext.skipWhile hls,
      pure_bind, hrest]
    simp
  | case4 n cs hne =>
    cases n with
    | zero => rfl
    | succ n =>
      have hdot : cs.head? ≠ some '.' := by
        intro hhead
        obtain ⟨ds, rfl⟩ := List.head?_eq_some_iff.1 hhead
        exact hne n ds rfl rfl
      rw [LineCursor.versionParts, h.current, if_neg hdot]
      rfl

theorem Left.versionNumber (hls : ∀ l ∈ ls, '\n' ∉ l) (h : Left ls p (c :: cs)) :
    versionNumber ls p = result p (Scan.versionNumber p (c :: cs)) := by
  have hparts := (h.takeWhile hls Char.isDigit).versionParts hls (n := 2)
  rw [LineCursor.versionNumber, h.skipWhile hls, pure_bind, hparts, Scan.versionNumber]
  cases hread : Scan.versionParts 2 ((c :: cs).dropWhile Char.isDigit) with
  | error more =>
    simp only [← Position.after_append]
    rfl
  | ok r =>
    obtain ⟨more, rest⟩ := r
    have hsplit : (c :: cs).takeWhile Char.isDigit ++ more ++ rest = c :: cs := by
      rw [List.append_assoc, Scan.versionParts_append hread, List.takeWhile_append_dropWhile]
    have hline : '\n' ∉ (c :: cs).takeWhile Char.isDigit ++ more := by
      rw [List.mem_append, not_or]
      exact ⟨Scan.not_mem_takeWhile rfl _, Scan.newline_not_mem_versionParts hread⟩
    have htext := Left.text (hsplit ▸ h) hline (by simp [hsplit])
    simp only [pure_bind, ← Position.after_append, htext]
    rfl

theorem Left.lineComment (hls : ∀ l ∈ ls, '\n' ∉ l) (h : Left ls p ('/' :: '/' :: cs)) :
    lineComment ls p = result p (.ok (Scan.lineComment p cs)) := by
  obtain ⟨hfirst, hslash⟩ := h.advance hls
  obtain ⟨hsecond, hstart⟩ := hslash.advance hls
  have hsplit : Left ls ((p.next '/').next '/')
      (cs.takeWhile (· ≠ '\n') ++ cs.dropWhile (· ≠ '\n')) := by
    rwa [List.takeWhile_append_dropWhile]
  have hne : cs.takeWhile (· ≠ '\n') ++ cs.dropWhile (· ≠ '\n') ≠ [] := by
    rw [List.takeWhile_append_dropWhile]
    exact hslash.ne_nil (by decide)
  have htext := hsplit.text (Scan.not_mem_takeWhile (by simp) cs) hne
  have hline : ((p.next '/').next '/').line = p.line := rfl
  rw [hline] at htext
  simp only [LineCursor.lineComment, hfirst, hsecond, hstart.skipWhile hls, pure_bind, htext]
  rfl

end Words

section Comments

variable {ls : LineCursor} {p : Position} {c : Char} {cs : List Char} {ss : List Segment}

/-- The segments once a text from a line on has been collected, too. -/
def collectAll (line : Nat) (ss : List Segment) : List Char → List Segment
  | [] => ss
  | c :: cs =>
    if c = '\n' then collectAll (line + 1) (ss ++ [⟨⟨line + 1, 0⟩, []⟩]) cs
    else collectAll line (collect c ss) cs

/-- What is collected inside of a comment is its text without the markers in it. -/
theorem Left.segments (hls : ∀ l ∈ ls, '\n' ∉ l) (opening : Position) {depth : Nat}
    (h : Left ls p cs) : segments ls opening p (depth + 1) ss =
      match Comment.extent depth cs with
      | some r => pure (collectAll p.line ss (Comment.unmarked r.1), p.after r.1)
      | none => throw ⟨.unterminatedComment, opening⟩ := by
  fun_induction Comment.extent depth cs generalizing p ss with
  | case1 =>
    rw [LineCursor.segments.eq_def, h.current]
    rfl
  | case2 depth cs ih =>
    obtain ⟨hfirst, hstar⟩ := h.advance hls
    obtain ⟨hsecond, hnext⟩ := hstar.advance hls
    rw [LineCursor.segments.eq_def, h.current, h.peek, hfirst, hsecond]
    simp only [List.head?_cons, and_self, ↓reduceIte, ih hnext]
    cases Comment.extent (depth + 1) cs <;> rfl
  | case3 cs =>
    obtain ⟨hfirst, hslash⟩ := h.advance hls
    obtain ⟨hsecond, hnext⟩ := hslash.advance hls
    rw [LineCursor.segments.eq_def, h.current, h.peek, hfirst, hsecond]
    rfl
  | case4 depth cs ih =>
    obtain ⟨hfirst, hslash⟩ := h.advance hls
    obtain ⟨hsecond, hnext⟩ := hslash.advance hls
    rw [LineCursor.segments.eq_def, h.current, h.peek, hfirst, hsecond]
    simp only [List.head?_cons, Option.some.injEq, Char.reduceEq, and_self, ↓reduceIte,
      ih hnext]
    cases Comment.extent depth cs <;> rfl
  | case5 depth c cs hopen hlast hclose ih =>
    obtain ⟨hadvance, hnext⟩ := h.advance hls
    have hopening : ¬ (c = '/' ∧ cs.head? = some '*') := by
      rintro ⟨rfl, hstar⟩
      obtain ⟨ds, rfl⟩ := List.head?_eq_some_iff.1 hstar
      exact hopen ds rfl rfl
    have hclosing : ¬ (c = '*' ∧ cs.head? = some '/') := by
      rintro ⟨rfl, hslash⟩
      obtain ⟨ds, rfl⟩ := List.head?_eq_some_iff.1 hslash
      cases depth with
      | zero => exact hlast ds rfl rfl rfl
      | succ depth => exact hclose depth ds rfl rfl rfl
    rw [LineCursor.segments.eq_def, h.current, h.peek, hadvance, List.head?_cons]
    simp only [if_neg hopening, if_neg hclosing]
    rw [ih hnext, ih hnext]
    cases hread : Comment.extent depth cs with
    | none => split <;> rfl
    | some r =>
      have hplain : Comment.unmarked (c :: r.1) = c :: Comment.unmarked r.1 := by
        have hcs := Comment.extent_append hread
        rw [Comment.unmarked]
        · rintro ds rfl hds
          exact hopening ⟨rfl, by rw [← hcs, hds]; rfl⟩
        · rintro ds rfl hds
          exact hclosing ⟨rfl, by rw [← hcs, hds]; rfl⟩
      simp only [Option.map_some, hplain, collectAll]
      by_cases hc : c = '\n'
      · rw [if_pos hc, if_pos hc, hc]
        rfl
      · rw [if_neg hc, if_neg hc, Position.after_cons, Position.next_of_ne p hc]
        rfl

theorem collect_append (c : Char) (ss : List Segment) (start : Position) (xs : List Char) :
    collect c (ss ++ [⟨start, xs⟩]) = ss ++ [⟨start, xs ++ [c]⟩] := by
  induction ss with
  | nil => rfl
  | cons s ss ih =>
    obtain ⟨u, us, hsplit⟩ := List.exists_cons_of_ne_nil (l := ss ++ [⟨start, xs⟩]) (by simp)
    rw [List.cons_append, hsplit, collect, ← hsplit, ih]
    · rfl
    · nofun

/-- Each piece of a text is collected at its own line, the first one behind what is there. -/
theorem collectAll_append {text first : List Char} {more : List (List Char)}
    (h : Text.pieces '\n' text = first :: more) (line : Nat) (ss : List Segment)
    (start : Position) (xs : List Char) :
    collectAll line (ss ++ [⟨start, xs⟩]) text =
      ss ++ ⟨start, xs ++ first⟩ :: more.mapIdx fun i raw => ⟨⟨line + 1 + i, 0⟩, raw⟩ := by
  induction text generalizing line ss start xs first more with
  | nil =>
    obtain ⟨rfl, rfl⟩ := List.cons.inj h
    simp [collectAll]
  | cons c cs ih =>
    obtain ⟨l, ls, hpieces⟩ := List.exists_cons_of_ne_nil (Text.pieces_ne_nil '\n' cs)
    rw [Text.pieces, hpieces] at h
    by_cases hc : c = '\n'
    · rw [if_pos hc] at h
      obtain ⟨rfl, rfl⟩ := List.cons.inj h
      rw [collectAll, if_pos hc, ih hpieces]
      simp [List.mapIdx_cons, Nat.add_comm, Nat.add_left_comm]
    · rw [if_neg hc] at h
      obtain ⟨rfl, rfl⟩ := List.cons.inj h
      rw [collectAll, if_neg hc, collect_append, ih hpieces, List.append_assoc]
      rfl

theorem token?_mk (start : Position) (raw : List Char) :
    Segment.token? ⟨start, raw⟩ = Comment.lineToken? start raw := by
  have htrim : Text.trim (Text.trimStart raw) = Text.trim raw := by
    rw [Text.trim, Text.trim, Text.trimStart, Text.trimStart, List.dropWhile_idempotent]
  rw [Segment.token?, Comment.lineToken?]
  dsimp only
  generalize Text.trimStart raw = cs at *
  split <;>
    simp [Comment.token, Position.shift, String.ofList_eq_empty_iff, Nat.add_assoc, htrim]

/-- The tokens of what is collected in the lines of a text are those of the text. -/
theorem filterMap_collectAll (p : Position) (text : List Char) :
    (collectAll p.line [⟨p, []⟩] text).filterMap Segment.token? = Comment.blockTokens p text := by
  obtain ⟨first, more, hpieces⟩ := List.exists_cons_of_ne_nil (Text.pieces_ne_nil '\n' text)
  have hcollected := collectAll_append hpieces p.line [] p []
  rw [List.nil_append, List.nil_append, List.nil_append] at hcollected
  rw [hcollected, Comment.blockTokens, hpieces]
  simp only [List.filterMap_cons, token?_mk, List.mapIdx_eq_zipIdx_map, List.filterMap_map,
    Function.comp_def]

theorem Left.blockComment (hls : ∀ l ∈ ls, '\n' ∉ l) (h : Left ls p ('/' :: '*' :: cs)) :
    blockComment ls p = result p (Scan.blockComment p cs) := by
  obtain ⟨hfirst, hstar⟩ := h.advance hls
  obtain ⟨hsecond, hstart⟩ := hstar.advance hls
  simp only [LineCursor.blockComment, hfirst, hsecond, hstart.segments hls p, Scan.blockComment]
  cases Comment.extent 0 cs with
  | none => rfl
  | some r =>
    simp only [pure_bind, filterMap_collectAll]
    rfl

end Comments

section Tokens

variable {ls : LineCursor} {p : Position} {c : Char} {cs : List Char}

/-- Which comment a slash opens, if any, is told by the character after it. -/
theorem Left.slash (hls : ∀ l ∈ ls, '\n' ∉ l) (h : Left ls p ('/' :: cs)) :
    element ls p '/' = result p (Scan.element p '/' cs) := by
  rw [LineCursor.element, h.peek]
  cases cs with
  | nil => rfl
  | cons d cs =>
    by_cases hline : d = '/'
    · subst hline
      exact h.lineComment hls
    by_cases hblock : d = '*'
    · subst hblock
      exact h.blockComment hls
    · have hfault : Scan.element p '/' (d :: cs) = .error ⟨.unexpected '/', p⟩ := by
        rw [Scan.element]
        · rfl
        · exact fun _ _ hcons => hline (List.cons.inj hcons).1
        · exact fun _ _ hcons => hblock (List.cons.inj hcons).1
      have hpeek : (match some d with
          | some '/' => LineCursor.lineComment ls p
          | some '*' => LineCursor.blockComment ls p
          | _ => throw ⟨.unexpected '/', p⟩) = (throw ⟨.unexpected '/', p⟩ : Rule _) := by
        split
        · next heq => exact absurd (Option.some.inj heq) hline
        · next heq => exact absurd (Option.some.inj heq) hblock
        · rfl
      rw [hfault]
      exact hpeek

theorem Left.element (hls : ∀ l ∈ ls, '\n' ∉ l) (h : Left ls p (c :: cs)) :
    element ls p c = result p (Scan.element p c cs) := by
  obtain ⟨hadvance, -⟩ := h.advance hls
  by_cases hslash : c = '/'
  · subst hslash
    exact h.slash hls
  rw [LineCursor.element, hadvance, Scan.element]
  · split
    · rfl
    cases Scan.punctuation? c with
    | some k => rfl
    | none =>
      dsimp only
      split
      · exact h.versionNumber hls
      split
      · exact h.word hls
      · rfl
  · exact fun _ hc => absurd hc hslash
  · exact fun _ hc => absurd hc hslash

/-- Behind an element the cursor reads what is left of the text. -/
theorem Left.rest (hls : ∀ l ∈ ls, '\n' ∉ l) (h : Left ls p (c :: cs)) {e : Scan.Element}
    (he : Scan.element p c cs = .ok e) : Left ls (p.after e.taken) e.rest := by
  rw [← Scan.element_append he] at h
  exact h.after hls

theorem Left.tokens (hls : ∀ l ∈ ls, '\n' ∉ l) (h : Left ls p cs) (ts : List Token) :
    tokens ls p ts = .mk (some ((scanFrom p cs).map (ts ++ ·))) := by
  fun_induction scanFrom p cs generalizing ts with
  | case1 p =>
    rw [LineCursor.tokens, h.current]
    simp [Except.map]
    rfl
  | case2 p c cs x hx =>
    rw [LineCursor.tokens, h.current]
    simp only [List.head?_cons, h.element hls, hx]
    rfl
  | case3 p c cs e he x hx ih =>
    have hrest := ih (h.rest hls he) (ts ++ e.tokens)
    rw [LineCursor.tokens, h.current]
    simp only [List.head?_cons, h.element hls, he, result_ok, pure_bind, hrest, hx]
    rfl
  | case4 p c cs e he us hus ih =>
    have hrest := ih (h.rest hls he) (ts ++ e.tokens)
    rw [LineCursor.tokens, h.current]
    simp only [List.head?_cons, h.element hls, he, result_ok, pure_bind, hrest, hus]
    simp [Except.map]

end Tokens

/-- The loops of the scanner come to an end and read what the walk along the text of the lines
reads. -/
theorem run_scan (source : String) : (scan source).run = some (GameSchema.scan source) := by
  have htokens := (left_front (Text.lines source.toList) 0).tokens
    (fun _ => Text.newline_not_mem_of_mem_lines) []
  rw [List.drop_zero, ← Text.normalized_eq_unlines] at htokens
  have horigin : Position.origin = ⟨0, 0⟩ := rfl
  rw [LineCursor.scan, horigin, htokens, GameSchema.scan, horigin]
  cases scanFrom ⟨0, 0⟩ (Text.normalized source.toList) <;> rfl

end LineCursor

end GameSchema
