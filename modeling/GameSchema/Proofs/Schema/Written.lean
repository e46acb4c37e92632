import GameSchema.Proofs.Schema.Printed

/-!
# Scanning printed schemas

The lines of a printed schema are scanned as the tokens that spell it. Each line is clean and is
scanned on its own, up to its newline, so the lines compose.
-/

namespace GameSchema
open Scan Text

/-- Clean lines that are scanned as tokens, whatever text follows them. -/
structure Written (ls : List (List Char)) (ts : List Token) : Prop where
  clean : ∀ l ∈ ls, CleanLine l
  scans : ∀ rest, ScansTo (unlines ls ++ rest) ts rest

namespace Written

variable {ls ms : List (List Char)} {ts us : List Token}

theorem nil : Written [] [] := ⟨nofun, ScansTo.refl⟩

theorem append (h : Written ls ts) (h' : Written ms us) : Written (ls ++ ms) (ts ++ us) := by
  refine ⟨List.forall_mem_append.2 ⟨h.clean, h'.clean⟩, ?_⟩
  intro rest
  rw [unlines_append, List.append_assoc]
  exact (h.scans _).trans (h'.scans rest)

/-- A line is scanned up to its newline, which is layout. -/
theorem line {l : List Char} (hl : CleanLine l)
    (h : ∀ rest, ScansTo (l ++ '\n' :: rest) ts ('\n' :: rest)) : Written [l] ts := by
  refine ⟨by simpa using hl, ?_⟩
  intro rest
  have hlayout : ScansTo ('\n' :: rest) [] rest := .layout rfl
  simpa using (h rest).trans hlayout

theorem flatMap {α : Type} {xs : List α} {f : α → List (List Char)} {g : α → List Token}
    (h : ∀ x ∈ xs, Written (f x) (g x)) : Written (xs.flatMap f) (xs.flatMap g) := by
  induction xs with
  | nil => exact nil
  | cons x xs ih =>
    simp only [List.flatMap_cons]
    exact (h x List.mem_cons_self).append (ih fun y hy => h y (List.mem_cons_of_mem x hy))

/-- Lines that are scanned one by one. -/
theorem map {α : Type} {xs : List α} {f : α → List Char} {g : α → List Token}
    (h : ∀ x ∈ xs, Written [f x] (g x)) : Written (xs.map f) (xs.flatMap g) := by
  have hlines : xs.map f = xs.flatMap fun x => [f x] := List.map_eq_flatMap
  rw [hlines]
  exact flatMap h

end Written

section Scans

variable {rest : List Char}

theorem TokenKind.scansTo {k : TokenKind} (hk : wordKind k.text = k) (hw : IsWord k.text)
    (hrest : ∀ c ∈ rest.head?, isWordPart c = false) :
    ScansTo (k.text.toList ++ rest) [.symbol k] rest := by
  have hword := ScansTo.word hw hrest
  rwa [hk] at hword

theorem IsIdentifier.scansTo {s : String} (h : IsIdentifier s)
    (hrest : ∀ c ∈ rest.head?, isWordPart c = false) :
    ScansTo (s.toList ++ rest) [⟨.identifier, s, .origin⟩] rest := by
  have hword := ScansTo.word h.1 hrest
  rwa [h.2] at hword

theorem TokenKind.isWord_of_isScalar {k : TokenKind} (h : k.isScalar = true ∨ k = .identifier) :
    k.isWord = true := by
  rcases h with h | rfl
  · cases k <;> first | rfl | cases h
  · rfl

theorem TokenKind.isWord_of_isContainer {k : TokenKind} (h : k.isContainer = true) :
    k.isWord = true := by
  cases k <;> first | rfl | cases h

theorem PropertyType.Printable.scansTo {t : PropertyType} (h : t.Printable)
    (hrest : ∀ c ∈ rest.head?, isWordPart c = false) :
    ScansTo (t.render.toList ++ rest) t.spelling rest := by
  induction t generalizing rest with
  | plain t i =>
    exact h.2.scansTo (TokenKind.isWord_of_isScalar h.1) hrest
  | generic t i e ih =>
    have hk := TokenKind.isWord_of_isContainer h.1
    have hrender : (generic t i e).render.toList ++ rest =
        t.lexeme.toList ++ '<' :: (e.render.toList ++ '>' :: rest) := by simp [render]
    have hless : ScansTo ('<' :: (e.render.toList ++ '>' :: rest)) [.symbol .less] _ := .symbol rfl
    have hgreater : ScansTo ('>' :: rest) [.symbol .greater] rest := .symbol rfl
    rw [hrender]
    exact (h.2.1.scansTo hk (by rintro c ⟨⟩; decide)).trans
      (hless.trans ((ih h.2.2 (by rintro c ⟨⟩; decide)).trans hgreater))

end Scans

section Lines

theorem PropertyType.Printable.noBreak {t : PropertyType} (h : t.Printable) :
    NoBreak t.render.toList := by
  induction t with
  | plain t i => exact (h.2.word (TokenKind.isWord_of_isScalar h.1)).1.noBreak
  | generic t i e ih =>
    have hrender : (generic t i e).render.toList =
        t.lexeme.toList ++ '<' :: (e.render.toList ++ ['>']) := by simp [render]
    rw [hrender]
    exact (h.2.1.word (TokenKind.isWord_of_isContainer h.1)).1.noBreak.append
      (.cons (by decide) ((ih h.2.2).concat (by decide)))

/-- What is written behind the name of a property. -/
theorem Property.Printable.scansTo_type {kind : DeclarationKind} {p : Property}
    (h : p.Printable kind) :
    ∃ cs, p.render.toList = p.name.toList ++ cs ∧ NoBreak cs ∧
      (∀ rest, ∀ c ∈ (cs ++ ',' :: rest).head?, isWordPart c = false) ∧
      ∀ rest, ScansTo (cs ++ ',' :: rest) p.typeSpelling (',' :: rest) := by
  cases ht : p.type with
  | none =>
    refine ⟨[], by simp [render, ht], noBreak_nil, ?_, ?_⟩
    · rintro rest c ⟨⟩
      decide
    · intro rest
      simp only [typeSpelling, ht]
      exact .refl _
  | some t =>
    refine ⟨':' :: ' ' :: t.render.toList, by simp [render, ht], ?_, ?_, ?_⟩
    · exact .cons (by decide) (.cons (by decide) (h.type t ht).noBreak)
    · rintro rest c ⟨⟩
      decide
    · intro rest
      simp only [typeSpelling, ht]
      have hcolon : ScansTo (':' :: ' ' :: (t.render.toList ++ ',' :: rest)) [.symbol .colon] _ :=
        .symbol rfl
      have hblank : ScansTo (' ' :: (t.render.toList ++ ',' :: rest)) [] _ := .layout rfl
      exact hcolon.trans (hblank.trans ((h.type t ht).scansTo (by rintro c ⟨⟩; decide)))

theorem Property.Printable.written {kind : DeclarationKind} {p : Property} (h : p.Printable kind) :
    Written ['\t' :: p.render.toList ++ [',']] p.spelling := by
  obtain ⟨cs, hrender, hcs, hhead, hscans⟩ := h.scansTo_type
  rw [hrender]
  refine .line ?_ fun rest => ?_
  · exact ((h.name.1.noBreak.append hcs).cons (by decide)).concat (by decide) |>.cleanLine
  · have htab : ScansTo ('\t' :: (p.name.toList ++ (cs ++ ',' :: '\n' :: rest))) [] _ := .layout rfl
    have hcomma : ScansTo (',' :: '\n' :: rest) [.symbol .comma] _ := .symbol rfl
    simpa [spelling] using
      htab.trans ((h.name.scansTo (hhead _)).trans ((hscans _).trans hcomma))

theorem IsCommentText.written {c : String} (h : IsCommentText c) :
    Written [commentLine c] [commentToken c] :=
  .line (h.cleanLine noBreak_nil) fun _ => .comment h

theorem DeclarationKind.isWord_word (k : DeclarationKind) : IsWord k.word := by
  cases k <;> exact isWord_of_all rfl (by decide) (by decide)

theorem DeclarationKind.scansTo {rest : List Char} (k : DeclarationKind)
    (hrest : ∀ c ∈ rest.head?, isWordPart c = false) :
    ScansTo (k.word.toList ++ rest) [.symbol (.declaration k)] rest :=
  TokenKind.scansTo (by cases k <;> rfl) k.isWord_word hrest

theorem Declaration.Printable.written_title {x : Declaration} (h : x.Printable) :
    Written [x.title.toList ++ [' ', '{']] (x.heading ++ [.symbol .openCurly]) := by
  have hopen (rest : List Char) : ScansTo (' ' :: '{' :: '\n' :: rest) [.symbol .openCurly]
      ('\n' :: rest) := ScansTo.trans (.layout rfl) (.symbol rfl)
  have hbrace : NoBreak [' ', '{'] := .cons (by decide) (.cons (by decide) noBreak_nil)
  by_cases hk : x.kind = .config
  · have htitle : x.title = x.kind.word := by rw [title, if_pos (h.config hk).1]
    have hheading : x.heading = [.symbol (.declaration x.kind)] := by simp [heading, hk]
    rw [htitle, hheading]
    refine .line ?_ fun rest => ?_
    · exact (x.kind.isWord_word.noBreak.append hbrace).cleanLine
    · simpa using (x.kind.scansTo (by rintro c ⟨⟩; decide)).trans (hopen rest)
  · obtain ⟨hname, -⟩ := h.named hk
    have hne : x.name ≠ "" := by
      obtain ⟨⟨c, cs, hc, -⟩, -⟩ := hname
      rintro he
      rw [he] at hc
      cases hc
    have htitle : x.title = x.kind.word ++ " " ++ x.name := by rw [title, if_neg hne]
    have hheading : x.heading =
        [.symbol (.declaration x.kind), ⟨.identifier, x.name, .origin⟩] := by simp [heading, hk]
    have hrender : (x.kind.word ++ " " ++ x.name).toList ++ [' ', '{'] =
        x.kind.word.toList ++ ' ' :: (x.name.toList ++ [' ', '{']) := by simp
    rw [htitle, hheading, hrender]
    refine .line ?_ fun rest => ?_
    · exact (x.kind.isWord_word.noBreak.append
        (.cons (by decide) (hname.1.noBreak.append hbrace))).cleanLine
    · have hblank : ScansTo (' ' :: (x.name.toList ++ ' ' :: '{' :: '\n' :: rest)) [] _ :=
        .layout rfl
      simpa using (x.kind.scansTo (by rintro c ⟨⟩; decide)).trans
        (hblank.trans ((hname.scansTo (by rintro c ⟨⟩; decide)).trans (hopen rest)))

theorem Declaration.Printable.written {x : Declaration} (h : x.Printable) :
    Written x.textLines x.spelling := by
  have hcomments := Written.map fun c hc => (h.comments c hc).written
  have hproperties := Written.map fun p hp => (h.properties p hp).written
  have hclose : Written [['}']] [.symbol .closeCurly] :=
    .line (NoBreak.cleanLine (.cons (by decide) noBreak_nil)) fun rest => .symbol rfl
  have hall := hcomments.append (h.written_title.append (hproperties.append hclose))
  simpa [textLines, spelling, List.map_eq_flatMap] using hall

end Lines

/-- An entry of the header: a keyword and the text behind it. -/
theorem written_entry {k : TokenKind} {s : String} {t : Token} (hk : wordKind k.text = k)
    (hw : IsWord k.text) (hs : NoBreak s.toList)
    (hscans : ∀ rest, ScansTo (s.toList ++ '\n' :: rest) [t] ('\n' :: rest)) :
    Written [k.text.toList ++ ' ' :: s.toList] [.symbol k, t] := by
  refine .line (hw.noBreak.append (.cons (by decide) hs)).cleanLine fun rest => ?_
  have hblank : ScansTo (' ' :: (s.toList ++ '\n' :: rest)) [] _ := .layout rfl
  simpa using (TokenKind.scansTo hk hw (by rintro c ⟨⟩; decide)).trans (hblank.trans (hscans rest))

theorem written_header {name version : String} (hname : IsIdentifier name)
    (hversion : IsVersionNumber version) :
    Written [TokenKind.name.text.toList ++ ' ' :: name.toList,
      TokenKind.version.text.toList ++ ' ' :: version.toList]
      [.symbol .name, ⟨.identifier, name, .origin⟩, .symbol .version,
        ⟨.versionNumber, version, .origin⟩] := by
  have hfirst : Written [TokenKind.name.text.toList ++ ' ' :: name.toList]
      [.symbol .name, ⟨.identifier, name, .origin⟩] :=
    written_entry rfl (isWord_of_all rfl (by decide) (by decide)) hname.1.noBreak
      fun rest => hname.scansTo (by rintro c ⟨⟩; decide)
  have hsecond : Written [TokenKind.version.text.toList ++ ' ' :: version.toList]
      [.symbol .version, ⟨.versionNumber, version, .origin⟩] :=
    written_entry rfl (isWord_of_all rfl (by decide) (by decide)) hversion.noBreak
      fun rest => .versionNumber hversion (by simp) (by rintro c ⟨⟩; decide)
  exact hfirst.append hsecond

theorem Compilation.Printable.written {c : Compilation} (h : c.Printable) :
    Written c.textLines c.spelling := by
  have hcomments := Written.map fun t ht => (h.comments t ht).written
  have hdeclarations := Written.flatMap fun x hx => (h.declarations x hx).written
  have hall := hcomments.append ((written_header h.name h.version).append hdeclarations)
  simpa [textLines, spelling, List.map_eq_flatMap, TokenKind.text] using hall

theorem Declaration.getLast_textLines (x : Declaration) : x.textLines.getLast? = some ['}'] := by
  simp [textLines, List.getLast?_cons, List.getLast?_append]

/-- A printed schema ends with the brace that closes its last declaration. -/
theorem Compilation.getLast_render {c : Compilation} (h : c.declarations ≠ []) :
    c.render.toList.getLast? = some '}' := by
  obtain ⟨ds, x, hds⟩ : ∃ ds x, c.declarations = ds ++ [x] :=
    ⟨_, _, (List.dropLast_concat_getLast h).symm⟩
  have hlast : c.textLines.getLast? = some ['}'] := by
    simp [textLines, hds, List.getLast?_cons, List.getLast?_append, x.getLast_textLines]
  obtain ⟨ls, hls⟩ := List.getLast?_eq_some_iff.1 hlast
  have hrender := c.unlines_textLines
  rw [hls] at hrender
  have hbrace : unlines ls ++ ['}'] ++ ['\n'] = c.render.toList ++ ['\n'] := by simpa using hrender
  rw [← List.append_cancel_right hbrace]
  simp

/-- A text that lacks nothing but the newline of its last line is scanned as its lines are. -/
theorem Written.exists_scan {ls : List (List Char)} {ts : List Token} {source : String} {c : Char}
    (h : Written ls ts) (hsource : source.toList ++ ['\n'] = unlines ls)
    (hlast : source.toList.getLast? = some c) (hn : c ≠ '\n') (hr : c ≠ '\r') :
    ∃ us e, scan source = .ok (us ++ [e]) ∧ us.map Token.unplaced = ts ∧ e.kind = .eof := by
  have hnormalized : normalized source.toList = unlines ls :=
    normalized_of_append hsource h.clean hlast hn hr
  obtain ⟨us, hus, hscan⟩ := (h.scans []).scanFrom_eq .origin
  rw [List.append_nil] at hscan
  refine ⟨us, .endOfFile (sourceEnd source.toList), ?_, hus, rfl⟩
  simp only [scan, hnormalized, hscan]

/-- A printed schema is scanned as the tokens that spell it. -/
theorem Compilation.Printable.scan_render {c : Compilation} (h : c.Printable)
    (hc : c.declarations ≠ []) :
    ∃ us e, scan c.render = .ok (us ++ [e]) ∧ us.map Token.unplaced = c.spelling ∧
      e.kind = .eof :=
  h.written.exists_scan c.unlines_textLines.symm (c.getLast_render hc) (by decide) (by decide)

end GameSchema
