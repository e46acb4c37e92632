import GameSchema.Proofs.Grammar.Reads
import GameSchema.Proofs.Grammar.Run

/-!
# Progress of the cursor

The rules on a cursor come to a result from every place up to the first end of file: they look at
no index outside the list, each turn of their loops moves the cursor on, and they stop at the first
end of file at the latest. What they read there is what the rules on the tokens left read, so the
tokens behind the first end of file do not count. Every run of the grammar on the tokens left is a
run on the cursor, by induction on that run, and the grammar has a run from everywhere.
-/

namespace GameSchema.Cursor
open Grammar Token

section Blocks
open Recovery

variable {s : TokenStream} {v : List Token} (hv : Starts s v)
include hv

section Steps

variable {kind : DeclarationKind} {keyword t : Token} {inBlock : Bool} {d d' d₁ : Draft}
  {ts us vs : List Token} {p : Property}

theorem reads_heading {x : Except Diagnostic Token}
    (h : HeadingRun s.eof kind keyword inBlock d ts x d' us) :
    Reads s (heading v kind keyword inBlock) d ts x d' us := by
  have hscope {n : Namespace} (hk : kind.scope? = some n) : kind ≠ .config := by
    rintro rfl
    cases hk
  rw [heading]
  cases h with
  | config hk hs =>
    rw [if_pos hk]
    refine (reads_tryEdit_ok ?_).bind (reads_pure keyword)
    simp [Draft.declareConfig, Scope.declareConfig, hs, Except.map, addConfig]
  | secondConfig hk hs =>
    rw [if_pos hk]
    refine (reads_tryEdit_error ?_).bind_error
    simp [Draft.declareConfig, Scope.declareConfig, hs, Except.map]
  | unnamed hk hn =>
    rw [if_neg hk]
    exact (reads_consume_error hv hn).bind_error
  | duplicate hk hn hd =>
    rw [if_neg (hscope hk)]
    refine (reads_consume hv hn).bind (reads_tryEdit_error ?_).bind_error
    simp [Draft.declare, Scope.declare, hk, Scope.isDeclared, hd, Except.map]
  | named hk hn hd =>
    rw [if_neg (hscope hk)]
    refine (reads_consume hv hn).bind ((reads_tryEdit_ok ?_).bind (reads_pure _))
    simp [Draft.declare, Scope.declare, hk, Scope.isDeclared, hd, Except.map, addName]

theorem reads_opening {x : Except Diagnostic Token}
    (h : OpeningRun s.eof kind keyword inBlock d ts x d' us) :
    Reads s (opening v kind keyword inBlock) d ts x d' us := by
  cases h with
  | badHeading hh => exact (reads_heading hv hh).bind_error
  | noBlock hh ho =>
    exact (reads_heading hv hh).bind (reads_consume_error hv ho).bind_error
  | opened hh ho =>
    exact (reads_heading hv hh).bind ((reads_consume hv ho).bind (reads_pure _))

/-- Behind an item that no comma follows, what comes after the comments decides. -/
theorem reads_separation_last (hc : startsWith .comma vs = false)
    (hl : endsItem (here s.eof (afterComments vs)).kind = true) :
    Reads s (separation v p) d vs (.ok (.goOn (some p))) d vs := by
  refine (reads_matchToken_false hv hc).bind ((reads_check hv (by simp)).bind ?_)
  split
  · exact reads_pure _
  refine (reads_atEnd hv).bind ?_
  split
  · exact reads_pure _
  refine (reads_peekPastComments hv).bind ?_
  split
  · next hk => simp [hk, endsItem] at hl
  · exact reads_pure _
  · exact reads_pure _
  · exact reads_pure _
  · next hi hcl he hd =>
    cases hk : (here s.eof (afterComments vs)).kind <;> simp_all [endsItem]

/-- A token that ends no item comes neither before the end of a block nor before that of the
file. -/
theorem going_of_not_endsItem (h : endsItem (here s.eof (afterComments vs)).kind = false) :
    startsWith .closeCurly vs = false ∧ vs.isEmpty = false := by
  cases vs with
  | nil =>
    rw [show afterComments [] = [] from rfl, here_nil, hv.kind_eof] at h
    cases h
  | cons t us =>
    refine ⟨?_, rfl⟩
    rw [startsWith_cons, beq_eq_false_iff_ne]
    intro ht
    have hafter : afterComments (t :: us) = t :: us := by simp [afterComments, isComment, ht]
    rw [hafter, here_cons, ht] at h
    cases h

theorem reads_separation_missing (hc : startsWith .comma vs = false)
    (hn : (here s.eof (afterComments vs)).kind = .identifier) :
    Reads s (separation v p) d vs (.ok (.goOn (some p)))
      (d.report (.parse .commaBetween (here s.eof vs) true)) vs := by
  have hl : endsItem (here s.eof (afterComments vs)).kind = false := by rw [hn]; rfl
  obtain ⟨hclose, hend⟩ := going_of_not_endsItem hv hl
  refine (reads_matchToken_false hv hc).bind ((reads_check hv (by simp)).bind ?_)
  simp only [hclose, Bool.false_eq_true, ↓reduceIte]
  refine (reads_atEnd hv).bind ?_
  simp only [hend, Bool.false_eq_true, ↓reduceIte]
  refine (reads_peekPastComments hv).bind ?_
  simp only [hn]
  exact (reads_peek hv).bind ((reads_edit _).bind (reads_pure _))

theorem reads_separation_fault (hc : startsWith .comma vs = false)
    (hl : endsItem (here s.eof (afterComments vs)).kind = false)
    (hn : (here s.eof (afterComments vs)).kind ≠ .identifier) :
    Reads s (separation v p) d vs
      (.ok ⟨some p, some (some (.parse .commaOrEnd (here s.eof vs) true))⟩) d vs := by
  obtain ⟨hclose, hend⟩ := going_of_not_endsItem hv hl
  refine (reads_matchToken_false hv hc).bind ((reads_check hv (by simp)).bind ?_)
  simp only [hclose, Bool.false_eq_true, ↓reduceIte]
  refine (reads_atEnd hv).bind ?_
  simp only [hend, Bool.false_eq_true, ↓reduceIte]
  refine (reads_peekPastComments hv).bind ?_
  split
  · next hk => exact absurd hk hn
  · next hk => simp [hk, endsItem] at hl
  · next hk => simp [hk, endsItem] at hl
  · next hk => simp [hk, endsItem] at hl
  · exact (reads_peek hv).bind (reads_pure _)

theorem reads_separation (h : Separation s.eof d vs d' us) :
    Reads s (separation v p) d vs (.ok (.goOn (some p))) d' us := by
  cases h with
  | comma hc => exact (reads_matchToken hv hc).bind (reads_pure _)
  | missing hc hn => exact reads_separation_missing hv hc hn
  | last hc hl => exact reads_separation_last hv hc hl

omit hv in
theorem separation_suffix {eof : Token} (h : Separation eof d vs d' us) : us <:+ vs := by
  cases h with
  | comma hc => exact List.suffix_cons _ _
  | missing hc hn => exact List.suffix_rfl
  | last hc hl => exact List.suffix_rfl

theorem reads_leaveFaulty {x : Diagnostic} (hx : x.inBlock = true) :
    Reads s (leaveFaulty v (some x)) d ts (.ok ()) (d.report x) (skipBody 0 ts) := by
  refine (reads_edit _).bind (reads_place.bind ?_)
  simpa [hx, blockEnd] using reads_skipBlock hv x.inBlock (index s ts) (d := d.report x)

omit hv in
theorem reads_hoist (x : Declaration) :
    Reads s (Cursor.hoist x) d ts (.ok d.declarations.length) (d.push x) ts := by
  refine Reads.bind (a := (d, index s ts)) (fun _ => ⟨List.suffix_rfl, rfl⟩) ?_
  exact (reads_edit _).bind (reads_pure _)

omit hv in
theorem Reads.tryItem {x : Except Diagnostic Property} (h : Reads s (item v kind) d ts x d' us) :
    Reads s (tryItem v kind) d ts (.ok x) d' us := by
  intro hts
  obtain ⟨hus, hrun⟩ := h hts
  refine ⟨hus, ?_⟩
  rw [Cursor.tryItem]
  simp only [ExceptT.run, StateT.run, hrun]
  rfl

end Steps

section Turns

variable {kind : DeclarationKind} {t : Token} {d d' d₁ d₂ : Draft} {ts us vs ws : List Token}

theorem reads_turn_unterminated (h : afterComments ts = []) :
    Reads s (turn v kind) d ts (.ok ⟨none, some (some (.parse .blockEnd s.eof true))⟩) d [] := by
  have hhere : here s.eof (afterComments ts) = s.eof := by rw [h, here_nil]
  rw [turn]
  refine (reads_skipDangling_moves hv (.inr (by rw [hhere, hv.kind_eof]))).bind ?_
  rw [h]
  refine (reads_matchToken_false hv (startsWith_nil _)).bind ?_
  exact (reads_atEnd hv).bind ((reads_peek hv).bind (reads_pure _))

theorem reads_turn_close (h : afterComments ts = t :: us) (ht : t.kind = .closeCurly) :
    Reads s (turn v kind) d ts (.ok ⟨none, some none⟩) d us := by
  have hhere : here s.eof (afterComments ts) = t := by rw [h, here_cons]
  rw [turn]
  refine (reads_skipDangling_moves hv (.inl (by rw [hhere, ht]))).bind ?_
  rw [h]
  exact (reads_matchToken hv ht).bind (reads_pure _)

omit hv in
theorem startsWith_closeCurly_eq_false (h : afterComments ts = t :: us)
    (hc : t.kind ≠ .closeCurly) : startsWith .closeCurly ts = false := by
  obtain ⟨cs, hcs, rfl⟩ := exists_comments h
  cases cs with
  | nil => simpa using hc
  | cons c cs =>
    have hcomment : c.isComment = true := hcs c List.mem_cons_self
    rw [isComment, beq_iff_eq] at hcomment
    simp [hcomment]

/-- Before anything but a closing brace or the end of the file a turn looks past the comments. -/
theorem reads_turn {x : Except Diagnostic Turn} (h : afterComments ts = t :: us)
    (hc : t.kind ≠ .closeCurly)
    (hrest : Reads s (itemTurn v kind t) d ts x d' vs) : Reads s (turn v kind) d ts x d' vs := by
  have hhere : here s.eof (afterComments ts) = t := by rw [h, here_cons]
  have hempty : ts.isEmpty = false := by
    cases ts with
    | nil => cases h
    | cons t us => rfl
  refine .of_suffix fun hts => ?_
  have ht : t :: us <:+ s.tokens := h ▸ (afterComments_suffix ts).trans hts
  rw [turn]
  refine (reads_skipDangling_stays hv (by rwa [hhere]) (by rw [hhere]; exact hv.kind_ne ht)).bind ?_
  refine (reads_matchToken_false hv (startsWith_closeCurly_eq_false h hc)).bind ?_
  refine (reads_atEnd hv).bind ?_
  simp only [hempty, Bool.false_eq_true, ↓reduceIte]
  refine (reads_peekPastComments hv).bind ?_
  rw [hhere]
  exact hrest

theorem reads_turn_keyword {k : DeclarationKind} (h : afterComments ts = t :: us)
    (ht : t.kind = .declaration k) :
    Reads s (turn v kind) d ts (.ok ⟨none, some none⟩) (d.report (.parse .blockEnd t true)) ts := by
  refine reads_turn hv h (by simp [ht]) ?_
  rw [itemTurn, if_pos (by rw [ht]; rfl)]
  exact (reads_edit _).bind (reads_pure _)

/-- A turn that reads no item reports why and skips it. -/
theorem reads_turn_error {x : Diagnostic} (h : afterComments ts = t :: us)
    (hc : t.kind ≠ .closeCurly) (hd : t.kind.startsDeclaration = false)
    (hi : Reads s (item v kind) d ts (.error x) d' vs) :
    Reads s (turn v kind) d ts (.ok (.goOn none)) (d'.report x) (Recovery.skipItem 0 vs) := by
  refine reads_turn hv h hc ?_
  rw [itemTurn, hd]
  exact hi.tryItem.bind ((reads_edit _).bind ((reads_skipItem hv 0).bind (reads_pure _)))

/-- A turn that reads an item ends with what separates it from the next one. -/
theorem reads_turn_ok {p : Property} {x : Turn} (h : afterComments ts = t :: us)
    (ht : t.kind = .identifier) (hi : Reads s (item v kind) d ts (.ok p) d₁ vs)
    (hs : Reads s (separation v p) d₁ vs (.ok x) d₂ ws) :
    Reads s (turn v kind) d ts (.ok x) d₂ ws := by
  refine reads_turn hv h (by simp [ht]) ?_
  rw [itemTurn, if_neg (by simp [ht, TokenKind.startsDeclaration, TokenKind.declaration?])]
  exact hi.tryItem.bind hs

omit hv in
theorem reads_items_goOn {p? : Option Property} {found : List Property}
    {x : Except Diagnostic Block} (ht : Reads s (turn v kind) d ts (.ok (.goOn p?)) d₁ us)
    (hr : Reads s (items v kind (found ++ p?.toList)) d₁ us x d' vs) :
    Reads s (items v kind found) d ts x d' vs := by
  rw [items]
  exact ht.bind hr

omit hv in
theorem reads_items_end {p? : Option Property} {fault? : Option Diagnostic}
    {found : List Property} (ht : Reads s (turn v kind) d ts (.ok ⟨p?, some fault?⟩) d' us) :
    Reads s (items v kind found) d ts (.ok ⟨found ++ p?.toList, fault?⟩) d' us := by
  rw [items]
  exact ht.bind (reads_pure _)

/-- Where no item starts, none is read and the cursor stays behind the comments. -/
theorem reads_item_stray (h : afterComments ts = t :: us) (ht : t.kind ≠ .identifier) :
    Reads s (item v kind) d ts (.error (.parse (itemExpectation kind) t true)) d (t :: us) := by
  rw [item]
  refine (reads_comments hv []).bind ?_
  rw [h]
  exact (reads_consume_error hv (by simpa using ht)).bind_error

/-- Behind its comments and its name, an item goes on with its body. -/
theorem reads_item {x : Except Diagnostic Property} (h : afterComments ts = t :: us)
    (ht : t.kind = .identifier)
    (hb : Reads s (itemBody v kind (leadingComments ts) t) d us x d' vs) :
    Reads s (item v kind) d ts x d' vs := by
  rw [item]
  refine (reads_comments hv []).bind ?_
  rw [h, List.nil_append]
  exact (reads_consume hv ht).bind hb

theorem reads_turn_stray (h : afterComments ts = t :: us) (hc : t.kind ≠ .closeCurly)
    (hd : t.kind.startsDeclaration = false) (hi : t.kind ≠ .identifier) :
    Reads s (turn v kind) d ts (.ok (.goOn none)) (d.report (.parse (itemExpectation kind) t true))
      (skipStray t us) := by
  rw [← skipItem_eq_skipStray hc hd]
  exact reads_turn_error hv h hc hd (reads_item_stray hv h hi)

end Turns

section Types

variable {kind : DeclarationKind} {mark : Char} {cs : List String} {keyword : Token}
  {d d' d₁ : Draft} {ts us : List Token}

theorem reads_inlineDeclaration_error {x : Diagnostic}
    (ho : OpeningRun s.eof kind keyword true d ts (.error x) d' us) :
    Reads s (inlineDeclaration v kind keyword cs) d ts (.error x) d' us := by
  rw [inlineDeclaration]
  exact (reads_opening hv ho).bind_error

theorem reads_inlineDeclaration {name : Token} {b : Block} {d₂ d₃ : Draft} {vs ws : List Token}
    (ho : OpeningRun s.eof kind keyword true d ts (.ok name) d₁ us)
    (hb : Reads s (items v kind []) d₁ us (.ok b) d₂ vs)
    (hf : Reads s (leaveFaulty v b.fault?) d₂ vs (.ok ()) d₃ ws) :
    Reads s (inlineDeclaration v kind keyword cs) d ts
      (.ok (.plain name (some d₃.declarations.length)))
      (d₃.push ⟨kind, name.lexeme, some name, cs, b.items⟩) ws := by
  rw [inlineDeclaration]
  exact (reads_opening hv ho).bind (hb.bind (hf.bind ((reads_hoist _).bind (reads_pure _))))

theorem reads_type_missing
    (h : ∀ t us, ts = t :: us → startsType t.kind = false) :
    Reads s (type v mark cs) d ts (.error (.parse (.typeAfter mark) (here s.eof ts) true)) d
      ts := by
  have hhere : startsType (here s.eof ts).kind = false := by
    cases ts with
    | nil => rw [here_nil, hv.kind_eof]; rfl
    | cons t us => exact h t us rfl
  rw [type]
  refine (reads_peek hv).bind ?_
  split <;> first
    | exact reads_throw _
    | next hk => rw [hk] at hhere; cases hhere

/-- Behind the word of a container, a type goes on with the type of its elements. -/
theorem reads_type_container {t : Token} {c : Container} {x : Except Diagnostic PropertyType}
    (h : t.kind = .container c)
    (he : Reads s (do
      let _ ← consume v .less (.less t.lexeme) true
      let e ← type v '<' []
      let _ ← consume v .greater .greater true
      return .generic t none e) d ts x d' us) :
    Reads s (type v mark cs) d (t :: ts) x d' us := by
  rw [type]
  refine (reads_peek hv).bind ?_
  simp only [here_cons, h]
  exact (reads_advance hv).bind he

theorem reads_type_inline {t : Token} {x : Except Diagnostic PropertyType}
    (h : t.kind = .declaration kind) (hk : kind.isType = true)
    (hi : Reads s (inlineDeclaration v kind t cs) d ts x d' us) :
    Reads s (type v mark cs) d (t :: ts) x d' us := by
  rw [type]
  refine (reads_peek hv).bind ?_
  cases kind with
  | type =>
    simp only [here_cons, h]
    exact (reads_advance hv).bind hi
  | enum =>
    simp only [here_cons, h]
    exact (reads_advance hv).bind hi
  | _ => cases hk

end Types

omit hv in
/-- What is wrong with the end of a block shows inside it. -/
theorem inBlock_of_fault {eof : Token} {kind : DeclarationKind} {d d' : Draft}
    {ts us : List Token} {b : Block} {x : Diagnostic} (h : ItemsRun eof kind d ts b d' us)
    (hx : b.fault? = some x) : x.inBlock = true := by
  match h with
  | .unterminated h => cases hx; rfl
  | .close h ht => cases hx
  | .keyword h ht => cases hx
  | .stray h hc hd hi hr => exact inBlock_of_fault hr hx
  | .badItem h ht hi hr => exact inBlock_of_fault hr hx
  | .more h ht hi hs hr => exact inBlock_of_fault hr hx
  | .fault h ht hi hc hl hn => cases hx; rfl

mutual

theorem reads_type {mark : Char} {cs : List String} {d d' : Draft} {ts us : List Token}
    {x : Except Diagnostic PropertyType} (h : TypeRun s.eof mark cs d ts x d' us) :
    Reads s (type v mark cs) d ts x d' us := by
  match h with
  | .missing h => exact reads_type_missing hv h
  | .scalar h =>
    rw [type]
    refine (reads_peek hv).bind ?_
    simp only [here_cons, h]
    exact (reads_advance hv).bind (reads_pure _)
  | .reference h =>
    rw [type]
    refine (reads_peek hv).bind ?_
    simp only [here_cons, h]
    exact (reads_advance hv).bind ((reads_edit _).bind (reads_pure _))
  | .noLess h hl => exact reads_type_container hv h (reads_consume_error hv hl).bind_error
  | .badElement h hl he =>
    exact reads_type_container hv h ((reads_consume hv hl).bind (reads_type he).bind_error)
  | .noGreater h hl he hg =>
    refine reads_type_container hv h ((reads_consume hv hl).bind ((reads_type he).bind ?_))
    exact (reads_consume_error hv hg).bind_error
  | .generic h hl he hg =>
    refine reads_type_container hv h ((reads_consume hv hl).bind ((reads_type he).bind ?_))
    exact (reads_consume hv hg).bind (reads_pure _)
  | .badInline h hk ho =>
    exact reads_type_inline hv h hk (reads_inlineDeclaration_error hv ho)
  | .inline h hk ho hb =>
    exact reads_type_inline hv h hk
      (reads_inlineDeclaration hv ho (reads_items hb []) (reads_pure ()))
  | .brokenInline h hk ho hb =>
    exact reads_type_inline hv h hk (reads_inlineDeclaration hv ho (reads_items hb [])
      (reads_leaveFaulty hv (inBlock_of_fault hb rfl)))

theorem reads_itemBody {kind : DeclarationKind} {cs : List String} {name : Token} {d d' : Draft}
    {ts us : List Token} {x : Except Diagnostic Property}
    (h : ItemRun s.eof kind cs name d ts x d' us) :
    Reads s (itemBody v kind cs name) d ts x d' us := by
  rw [itemBody]
  match h with
  | .value hk =>
    rw [if_pos hk]
    exact reads_pure _
  | .noColon hk hc =>
    rw [if_neg hk]
    exact (reads_consume_error hv hc).bind_error
  | .badField hk hc ht =>
    rw [if_neg hk]
    exact (reads_consume hv hc).bind (reads_type ht).bind_error
  | .field hk hc ht =>
    rw [if_neg hk]
    exact (reads_consume hv hc).bind ((reads_type ht).bind (reads_pure _))

theorem reads_items {kind : DeclarationKind} {d d' : Draft} {ts us : List Token} {b : Block}
    (h : ItemsRun s.eof kind d ts b d' us) (found : List Property) :
    Reads s (items v kind found) d ts (.ok ⟨found ++ b.items, b.fault?⟩) d' us := by
  match h with
  | .unterminated h => exact reads_items_end (reads_turn_unterminated hv h)
  | .close h ht => exact reads_items_end (reads_turn_close hv h ht)
  | .keyword h ht => exact reads_items_end (reads_turn_keyword hv h ht)
  | .stray h hc hd hi hr =>
    refine reads_items_goOn (reads_turn_stray hv h hc hd hi) ?_
    simpa using reads_items hr found
  | .badItem h ht hi hr =>
    refine reads_items_goOn (reads_turn_error hv h (by simp [ht])
      (by simp [ht, TokenKind.startsDeclaration, TokenKind.declaration?])
      (reads_item hv h ht (reads_itemBody hi))) ?_
    simpa using reads_items hr found
  | .more (p := p) h ht hi hs hr =>
    refine reads_items_goOn (reads_turn_ok hv h ht (reads_item hv h ht (reads_itemBody hi))
      (reads_separation hv hs)) ?_
    simpa [Block.cons] using reads_items hr (found ++ [p])
  | .fault h ht hi hc hl hn =>
    exact reads_items_end (reads_turn_ok hv h ht (reads_item hv h ht (reads_itemBody hi))
      (reads_separation_fault hv hc hl hn))

end

end Blocks

section Files
open Recovery

variable {s : TokenStream} {v : List Token} (hv : Starts s v)
  {d d' d₁ : Draft} {t : Token} {ts us vs ws : List Token}
include hv

theorem reads_entry {keyword value : TokenKind} {keywordWanted valueWanted : Expectation}
    {x : Except Diagnostic Token}
    (h : EntryRun s.eof keyword value keywordWanted valueWanted ts x us) :
    Reads s (entry v keyword value keywordWanted valueWanted) d ts x d us := by
  rw [entry]
  cases h with
  | noKeyword h => exact (reads_consume_error hv h).bind_error
  | noValue h h' => exact (reads_consume hv h).bind (reads_consume_error hv h')
  | found h h' => exact (reads_consume hv h).bind (reads_consume hv h')

theorem reads_header {compiler : String} {name version : Except Diagnostic Token}
    (hn : EntryRun s.eof .name .identifier .nameKeyword .gameName (afterComments ts) name us)
    (hw : EntryRun s.eof .version .versionNumber .versionKeyword .languageVersion us version vs) :
    Reads s (header v compiler) d ts
      (.ok ⟨entryText name, leadingComments ts, entryText version⟩)
      (checkVersion compiler (d.reportError name) version) vs := by
  rw [header]
  refine (reads_comments hv []).bind ?_
  refine (reads_entry hv hn).attempt.bind ((reads_edit _).bind ?_)
  refine (reads_entry hv hw).attempt.bind ((reads_edit _).bind ?_)
  exact reads_pure _

theorem reads_declaration_foreign
    (ht : (here s.eof (afterComments ts)).kind.startsDeclaration = false) :
    Reads s (declaration v) d ts
      (.error (.parse .declaration (here s.eof (afterComments ts)) false)) d
      (afterComments ts) := by
  rw [declaration]
  refine (reads_comments hv []).bind ((reads_peek hv).bind ?_)
  split
  · next k hk => simp [hk, TokenKind.startsDeclaration, TokenKind.declaration?] at ht
  · exact reads_throw _

/-- Behind its comments and its keyword, a declaration goes on with its heading. -/
theorem reads_declaration_error {k : DeclarationKind} {x : Diagnostic}
    (h : afterComments ts = t :: us) (ht : t.kind = .declaration k)
    (ho : OpeningRun s.eof k t false d us (.error x) d' vs) :
    Reads s (declaration v) d ts (.error x) d' vs := by
  rw [declaration]
  refine (reads_comments hv []).bind ((reads_peek hv).bind ?_)
  simp only [h, here_cons, ht]
  exact (reads_advance hv).bind (reads_opening hv ho).bind_error

theorem reads_declaration {k : DeclarationKind} {name : Token} {b : Block} {d₂ : Draft}
    (h : afterComments ts = t :: us) (ht : t.kind = .declaration k)
    (ho : OpeningRun s.eof k t false d us (.ok name) d₁ vs)
    (hb : ItemsRun s.eof k d₁ vs b d₂ ws) :
    Reads s (declaration v) d ts (blockDeclaration k name (leadingComments ts) b) d₂ ws := by
  rw [declaration]
  refine (reads_comments hv []).bind ((reads_peek hv).bind ?_)
  simp only [h, here_cons, ht]
  refine (reads_advance hv).bind ((reads_opening hv ho).bind ((reads_items hv hb []).bind ?_))
  simp only [List.nil_append]
  split
  · next hx => rw [hx]; exact reads_pure _
  · next hx => rw [hx]; exact reads_throw _

omit hv in
theorem reads_settle_ok {start : Nat} (x : Declaration) :
    Reads s (settle v start (.ok x)) d ts (.ok ()) (d.push x) ts := by
  rw [settle]
  exact reads_edit _

/-- A declaration that failed is reported and skipped, which moves the cursor from the start of the
turn. -/
theorem reads_settle_error {start : Nat} {x : Diagnostic}
    (hws : blockEnd s x.inBlock start vs = ws) (hlt : start < index s ws) :
    Reads s (settle v start (.error x)) d vs (.ok ()) (d.report x) ws := by
  rw [settle]
  refine (reads_edit _).bind ((reads_skipBlock hv x.inBlock start).bind (reads_place.bind ?_))
  rw [hws, if_neg (by omega)]
  exact reads_pure ()

omit hv in
theorem blockEnd_eq_recover {start : Nat} {x : Diagnostic} (hvs : vs <:+ s.tokens)
    (hlt : start < index s vs) : blockEnd s x.inBlock start vs = recover x vs := by
  rw [recover]
  cases x.inBlock with
  | true => rfl
  | false => exact blockEnd_eq_skipDeclaration hvs (Nat.le_of_lt hlt) fun _ _ _ _ => hlt

/-- At the top level, comments before a stray closing brace are left behind; other comments stay
for the declaration. -/
theorem reads_skipDangling_front (h : afterComments ts = t :: us) :
    ∃ fs, afterComments fs = t :: us ∧ (t.kind ≠ .closeCurly → fs = ts) ∧
      Reads s (skipDangling v) d ts (.ok ()) d fs := by
  have hhere : here s.eof (afterComments ts) = t := by rw [h, here_cons]
  by_cases hc : t.kind = .closeCurly
  · have hafter : afterComments (t :: us) = t :: us := by simp [afterComments, isComment, hc]
    refine ⟨t :: us, hafter, fun hne => absurd hc hne, ?_⟩
    rw [← h]
    exact reads_skipDangling_moves hv (.inl (by rw [hhere, hc]))
  · refine ⟨ts, h, fun _ => rfl, .of_suffix fun hts => ?_⟩
    have ht : t :: us <:+ s.tokens := h ▸ (afterComments_suffix ts).trans hts
    exact reads_skipDangling_stays hv (by rwa [hhere]) (by rw [hhere]; exact hv.kind_ne ht)

/-- A round that does not end the loop settles what the declaration comes to. -/
theorem reads_round_of_declaration {fs : List Token} {x : Except Diagnostic Declaration}
    (hf : Reads s (skipDangling v) d ts (.ok ()) d fs) (hne : fs ≠ [])
    (hx : Reads s (declaration v) d fs x d₁ vs)
    (hs : Reads s (settle v (index s fs) x) d₁ vs (.ok ()) d' ws) :
    Reads s (round v) d ts (.ok true) d' ws := by
  rw [round]
  refine hf.bind ((reads_atEnd hv).bind ?_)
  rw [if_neg (by simpa using hne)]
  exact reads_place.bind (hx.attempt.bind (hs.bind (reads_pure true)))

theorem reads_round_foreign (h : afterComments ts = t :: us)
    (ht : t.kind.startsDeclaration = false) :
    Reads s (round v) d ts (.ok true) (d.report (.parse .declaration t false))
      (skipForeign t us) := by
  refine .of_suffix fun hts => ?_
  obtain ⟨fs, hfs, -, hf⟩ := reads_skipDangling_front hv (d := d) h
  have hsuffix : t :: us <:+ s.tokens := h ▸ (afterComments_suffix ts).trans hts
  have hle : index s fs ≤ index s (t :: us) := index_le (hfs ▸ afterComments_suffix fs)
  have hindex := index_cons hsuffix
  have hlt : index s us ≤ index s (skipForeign t us) := index_le (skipForeign_suffix t us)
  have hx := reads_declaration_foreign hv (d := d) (by rwa [hfs, here_cons])
  rw [hfs, here_cons] at hx
  refine reads_round_of_declaration hv hf (by rintro rfl; cases hfs) hx
    (reads_settle_error hv ?_ (by omega))
  rw [← skipDeclaration_eq_skipForeign ht]
  refine blockEnd_eq_skipDeclaration hsuffix hle ?_
  rintro _ _ ⟨rfl, rfl⟩ hk
  rw [ht] at hk
  cases hk

/-- A declaration that fails behind its keyword. -/
theorem reads_round_error {x : Diagnostic} {k : DeclarationKind} (h : afterComments ts = t :: us)
    (ht : t.kind = .declaration k) (hx : Reads s (declaration v) d ts (.error x) d' vs)
    (hvs : us <:+ s.tokens → vs <:+ us) :
    Reads s (round v) d ts (.ok true) (d'.report x) (recover x vs) := by
  refine .of_suffix fun hts => ?_
  obtain ⟨fs, -, hfs, hf⟩ := reads_skipDangling_front hv (d := d) h
  obtain rfl := hfs (by simp [ht])
  have hsuffix : t :: us <:+ s.tokens := h ▸ (afterComments_suffix fs).trans hts
  have hus := (List.suffix_cons t us).trans hsuffix
  have hle : index s fs ≤ index s (t :: us) := index_le (h ▸ afterComments_suffix fs)
  have hindex := index_cons hsuffix
  have hlt : index s us ≤ index s vs := index_le (hvs hus)
  have hend : index s vs ≤ index s (recover x vs) := index_le (recover_suffix x vs)
  exact reads_round_of_declaration hv hf (by rintro rfl; cases h) hx
    (reads_settle_error hv (blockEnd_eq_recover ((hvs hus).trans hus) (by omega)) (by omega))

theorem reads_round (h : RoundRun s.eof d ts d' us) : Reads s (round v) d ts (.ok true) d' us := by
  cases h with
  | foreign h ht => exact reads_round_foreign hv h ht
  | badOpening h ht ho =>
    exact reads_round_error hv h ht (reads_declaration_error hv h ht ho)
      fun hus => (reads_opening hv ho hus).1
  | declared h ht ho hb =>
    obtain ⟨fs, -, hfs, hf⟩ := reads_skipDangling_front hv (d := d) h
    obtain rfl := hfs (by simp [ht])
    exact reads_round_of_declaration hv hf (by rintro rfl; cases h)
      (reads_declaration hv h ht ho hb) (reads_settle_ok _)
  | broken h ht ho hb =>
    refine reads_round_error hv h ht (reads_declaration hv h ht ho hb) fun hus => ?_
    have hvs := (reads_opening hv ho hus).1
    exact (reads_items hv hb [] (hvs.trans hus)).1.trans hvs

theorem reads_round_end (h : afterComments ts = []) :
    Reads s (round v) d ts (.ok false) d [] := by
  have hhere : here s.eof (afterComments ts) = s.eof := by rw [h, here_nil]
  rw [round]
  refine (reads_skipDangling_moves hv (.inr (by rw [hhere, hv.kind_eof]))).bind ?_
  rw [h]
  exact (reads_atEnd hv).bind (reads_pure false)

theorem reads_declarations (h : FileRun s.eof d ts d') :
    Reads s (declarations v) d ts (.ok ()) d' [] := by
  induction h with
  | done h =>
    rw [declarations]
    exact (reads_round_end hv h).bind (reads_pure ())
  | step hr _ ih =>
    rw [declarations]
    exact (reads_round hv hr).bind ih

theorem reads_file {compiler : String} {m : Metadata} (hm : HeaderRun s.eof compiler ts m d us)
    (h : FileRun s.eof d us d') : Reads s (file v compiler) .empty ts (.ok m) d' [] := by
  rw [file]
  cases hm with
  | mk hn hw => exact (reads_header hv hn hw).bind ((reads_declarations hv h).bind (reads_pure _))

end Files

section Results

variable {s : TokenStream} {v : List Token}

/-- From every place up to the index `e` a rule comes to a result, at a place from there on up to
`e`. -/
def Stays (e : Nat) {α : Type} (r : Rule α) : Prop :=
  ∀ d i, i ≤ e → ∃ x d' j, r (d, i) = some (x, d', j) ∧ i ≤ j ∧ j ≤ e

/-- The rules of the grammar and of its recovery end, and move the cursor only on and not beyond the
index `e`. A turn of the loop over the items of a block moves it on unless it ends the block, and
so does a round at the top level unless it ends the loop, at `e`. -/
structure Progresses (compiler : String) (v : List Token) (e : Nat) : Prop where
  peek : Stays e (peek v)
  advance : Stays e (advance v)
  matchToken : ∀ kind, Stays e (matchToken v kind)
  consume : ∀ kind wanted inBlock, Stays e (consume v kind wanted inBlock)
  comments : Stays e (comments v [])
  peekPastComments : Stays e (peekPastComments v)
  skipDangling : Stays e (skipDangling v)
  skipBlock : ∀ inBlock start, Stays e (skipBlock v inBlock start)
  skipItem : Stays e (skipItem v 0)
  header : Stays e (header v compiler)
  declaration : Stays e (declaration v)
  items : ∀ kind, Stays e (items v kind [])
  item : ∀ kind, Stays e (item v kind)
  type : ∀ mark cs, Stays e (type v mark cs)
  inlineDeclaration : ∀ kind keyword cs, Stays e (inlineDeclaration v kind keyword cs)
  turn : ∀ kind d i, i ≤ e → ∃ t d' j, turn v kind (d, i) = some (.ok t, d', j) ∧
    i ≤ j ∧ j ≤ e ∧ (t.ending? = none → i < j)
  round : ∀ d i, i ≤ e → ∃ goesOn d' j, round v (d, i) = some (.ok goesOn, d', j) ∧
    j ≤ e ∧ if goesOn then i < j else j = e

theorem index_drop {i : Nat} (h : i ≤ s.tokens.length) : index s (s.tokens.drop i) = i := by
  rw [index, List.length_drop]
  omega

theorem Stays.of_reads {α : Type} {r : Rule α} (h : ∀ d ts, ∃ x d' us, Reads s r d ts x d' us) :
    Stays s.tokens.length r := by
  intro d i hi
  obtain ⟨x, d', us, hr⟩ := h d (s.tokens.drop i)
  obtain ⟨hus, hrun⟩ := hr (List.drop_suffix i _)
  have hle := index_le (s := s) hus
  rw [index_drop hi] at hrun hle
  exact ⟨x, d', index s us, hrun, hle, Nat.sub_le _ _⟩

variable (hv : Starts s v)
include hv

theorem exists_turn (kind : DeclarationKind) (d : Draft) (ts : List Token) :
    ∃ x d' us, Reads s (turn v kind) d ts (.ok x) d' us ∧
      (ts <:+ s.tokens → x.ending? = none → us.length < ts.length) := by
  obtain ⟨b, d', us, h⟩ : ∃ b d' us, ItemsRun s.eof kind d ts b d' us :=
    ⟨_, _, _, items_run s.eof kind d ts⟩
  have hnot (t : Token) (ht : t.kind = .identifier) :
      t.kind ≠ .closeCurly ∧ t.kind.startsDeclaration = false := by
    simp [ht, TokenKind.startsDeclaration, TokenKind.declaration?]
  have hrest {t : Token} {us : List Token} (h : afterComments ts = t :: us)
      (hts : ts <:+ s.tokens) : us <:+ s.tokens := (suffix_of_afterComments h).trans hts
  cases h with
  | unterminated h => exact ⟨_, _, _, reads_turn_unterminated hv h, by simp⟩
  | close h ht => exact ⟨_, _, _, reads_turn_close hv h ht, by simp⟩
  | keyword h ht => exact ⟨_, _, _, reads_turn_keyword hv h ht, by simp⟩
  | stray h hc hd hi hr =>
    refine ⟨_, _, _, reads_turn_stray hv h hc hd hi, fun _ _ => ?_⟩
    exact Nat.lt_of_le_of_lt (Recovery.skipStray_suffix _ _).length_le
      (length_lt_of_afterComments h)
  | badItem h ht hi hr =>
    have hbody := reads_itemBody hv hi
    refine ⟨_, _, _, reads_turn_error hv h (hnot _ ht).1 (hnot _ ht).2 (reads_item hv h ht hbody),
      fun hts _ => ?_⟩
    have hsuffix := (Recovery.skipItem_suffix 0 _).trans (hbody (hrest h hts)).1
    exact Nat.lt_of_le_of_lt hsuffix.length_le (length_lt_of_afterComments h)
  | more h ht hi hs hr =>
    have hbody := reads_itemBody hv hi
    refine ⟨_, _, _, reads_turn_ok hv h ht (reads_item hv h ht hbody) (reads_separation hv hs),
      fun hts _ => ?_⟩
    exact Nat.lt_of_le_of_lt ((separation_suffix hs).trans (hbody (hrest h hts)).1).length_le
      (length_lt_of_afterComments h)
  | fault h ht hi hc hl hn =>
    exact ⟨_, _, _, reads_turn_ok hv h ht (reads_item hv h ht (reads_itemBody hv hi))
      (reads_separation_fault hv hc hl hn), by simp⟩

theorem exists_round (d : Draft) (ts : List Token) :
    ∃ goesOn d' us, Reads s (round v) d ts (.ok goesOn) d' us ∧
      if goesOn = true then us.length < ts.length else us = [] := by
  cases h : Grammar.round s.eof d ts with
  | none =>
    cases hc : afterComments ts with
    | nil => exact ⟨false, _, _, reads_round_end hv hc, rfl⟩
    | cons t us => rw [round_of_cons hc] at h; cases h
  | some r => exact ⟨true, _, _, reads_round hv (round_run h), length_lt_of_round h⟩

theorem exists_item (kind : DeclarationKind) (d : Draft) (ts : List Token) :
    ∃ x d' us, Reads s (item v kind) d ts x d' us := by
  by_cases hi : (here s.eof (afterComments ts)).kind = .identifier
  · cases h : afterComments ts with
    | nil =>
      rw [h, here_nil, hv.kind_eof] at hi
      cases hi
    | cons t us =>
      rw [h, here_cons] at hi
      exact ⟨_, _, _, reads_item hv h hi
        (reads_itemBody hv (item_run s.eof kind (leadingComments ts) t d us))⟩
  · rw [item]
    refine ⟨_, _, _, (reads_comments hv []).bind (reads_consume_error hv ?_).bind_error⟩
    cases h : afterComments ts with
    | nil => rfl
    | cons t us =>
      rw [h, here_cons] at hi
      simpa using hi

theorem exists_inlineDeclaration (kind : DeclarationKind) (keyword : Token) (cs : List String)
    (d : Draft) (ts : List Token) :
    ∃ x d' us, Reads s (inlineDeclaration v kind keyword cs) d ts x d' us := by
  obtain ⟨x, d₁, us, ho⟩ : ∃ x d₁ us, OpeningRun s.eof kind keyword true d ts x d₁ us :=
    ⟨_, _, _, opening_run s.eof kind keyword true d ts⟩
  cases x with
  | error x => exact ⟨_, _, _, reads_inlineDeclaration_error hv ho⟩
  | ok name =>
    obtain ⟨⟨ps, fault?⟩, d₂, vs, hb⟩ : ∃ b d₂ vs, ItemsRun s.eof kind d₁ us b d₂ vs :=
      ⟨_, _, _, items_run s.eof kind d₁ us⟩
    cases fault? with
    | none =>
      exact ⟨_, _, _, reads_inlineDeclaration hv ho (reads_items hv hb []) (reads_pure ())⟩
    | some x =>
      exact ⟨_, _, _, reads_inlineDeclaration hv ho (reads_items hv hb [])
        (reads_leaveFaulty hv (inBlock_of_fault hb rfl))⟩

theorem exists_declaration (d : Draft) (ts : List Token) :
    ∃ x d' us, Reads s (declaration v) d ts x d' us := by
  cases hs : (here s.eof (afterComments ts)).kind.startsDeclaration with
  | false => exact ⟨_, _, _, reads_declaration_foreign hv hs⟩
  | true =>
    cases h : afterComments ts with
    | nil =>
      rw [h, here_nil, hv.kind_eof] at hs
      cases hs
    | cons t us =>
      rw [h, here_cons] at hs
      obtain ⟨k, ht⟩ : ∃ k, t.kind = .declaration k := by
        cases hk : t.kind <;> simp_all [TokenKind.startsDeclaration, TokenKind.declaration?]
      obtain ⟨x, d₁, vs, ho⟩ : ∃ x d₁ vs, OpeningRun s.eof k t false d us x d₁ vs :=
        ⟨_, _, _, opening_run s.eof k t false d us⟩
      cases x with
      | error x => exact ⟨_, _, _, reads_declaration_error hv h ht ho⟩
      | ok name => exact ⟨_, _, _, reads_declaration hv h ht ho (items_run s.eof k d₁ vs)⟩

/-- At the end of the file the cursor stays, and there is a token before it or at it. -/
theorem exists_advance (d : Draft) (ts : List Token) :
    ∃ x d' us, Reads s (advance v) d ts x d' us := by
  cases ts with
  | nil =>
    have hnil := List.nil_suffix (l := s.tokens)
    have hlt := hv.index_lt hnil
    obtain ⟨t, ht⟩ : ∃ t, v[index s [] - 1]? = some t := ⟨_, List.getElem?_eq_getElem (by omega)⟩
    refine ⟨.ok t, d, [], ?_⟩
    refine reads_place.bind ((reads_peek hv).bind ?_)
    simp only [here_nil, hv.kind_eof, ↓reduceIte]
    refine (reads_moveTo List.suffix_rfl).bind fun _ => ⟨List.suffix_rfl, ?_⟩
    rw [look, ht]
    rfl
  | cons t us => exact ⟨_, _, _, reads_advance hv⟩

theorem exists_matchToken (kind : TokenKind) (d : Draft) (ts : List Token) :
    ∃ x d' us, Reads s (matchToken v kind) d ts x d' us := by
  cases h : startsWith kind ts with
  | false => exact ⟨_, _, _, reads_matchToken_false hv h⟩
  | true =>
    obtain ⟨t, us, rfl, ht⟩ := startsWith_iff.1 h
    exact ⟨_, _, _, reads_matchToken hv ht⟩

theorem exists_consume (kind : TokenKind) (wanted : Expectation) (inBlock : Bool) (d : Draft)
    (ts : List Token) : ∃ x d' us, Reads s (consume v kind wanted inBlock) d ts x d' us := by
  cases h : startsWith kind ts with
  | false => exact ⟨_, _, _, reads_consume_error hv h⟩
  | true =>
    obtain ⟨t, us, rfl, ht⟩ := startsWith_iff.1 h
    exact ⟨_, _, _, reads_consume hv ht⟩

theorem exists_skipDangling (d : Draft) (ts : List Token) :
    ∃ x d' us, Reads s (skipDangling v) d ts x d' us := by
  by_cases hc : (here s.eof (afterComments ts)).kind = .closeCurly
  · exact ⟨_, _, _, reads_skipDangling_moves hv (.inl hc)⟩
  · by_cases he : (here s.eof (afterComments ts)).kind = .eof
    · exact ⟨_, _, _, reads_skipDangling_moves hv (.inr he)⟩
    · exact ⟨_, _, _, reads_skipDangling_stays hv hc he⟩

theorem progresses (compiler : String) : Progresses compiler v s.tokens.length where
  peek := .of_reads fun d ts => ⟨_, _, _, reads_peek hv⟩
  advance := .of_reads (exists_advance hv)
  matchToken kind := .of_reads (exists_matchToken hv kind)
  consume kind wanted inBlock := .of_reads (exists_consume hv kind wanted inBlock)
  comments := .of_reads fun d ts => ⟨_, _, _, reads_comments hv []⟩
  peekPastComments := .of_reads fun d ts => ⟨_, _, _, reads_peekPastComments hv⟩
  skipDangling := .of_reads (exists_skipDangling hv)
  skipBlock inBlock start := .of_reads fun d ts => ⟨_, _, _, reads_skipBlock hv inBlock start⟩
  skipItem := .of_reads fun d ts => ⟨_, _, _, reads_skipItem hv 0⟩
  header := .of_reads fun d ts =>
    ⟨_, _, _, reads_header hv (entry_run _ _ _ _ _ d _).2 (entry_run _ _ _ _ _ d _).2⟩
  declaration := .of_reads (exists_declaration hv)
  items kind := .of_reads fun d ts => ⟨_, _, _, reads_items hv (items_run s.eof kind d ts) []⟩
  item kind := .of_reads (exists_item hv kind)
  type mark cs := .of_reads fun d ts => ⟨_, _, _, reads_type hv (typeAt_run s.eof mark cs d ts)⟩
  inlineDeclaration kind keyword cs := .of_reads (exists_inlineDeclaration hv kind keyword cs)
  turn kind d i hi := by
    obtain ⟨x, d', us, hr, hlt⟩ := exists_turn hv kind d (s.tokens.drop i)
    obtain ⟨hus, hrun⟩ := hr (List.drop_suffix i _)
    have hle := index_le (s := s) hus
    rw [index_drop hi] at hrun hle
    refine ⟨x, d', index s us, hrun, hle, Nat.sub_le _ _, fun hx => ?_⟩
    have hlength := hlt (List.drop_suffix i _) hx
    rw [List.length_drop] at hlength
    simp only [index]
    omega
  round d i hi := by
    obtain ⟨goesOn, d', us, hr, hlt⟩ := exists_round hv d (s.tokens.drop i)
    obtain ⟨hus, hrun⟩ := hr (List.drop_suffix i _)
    rw [index_drop hi] at hrun
    refine ⟨goesOn, d', index s us, hrun, Nat.sub_le _ _, ?_⟩
    cases goesOn with
    | false =>
      obtain rfl : us = [] := hlt
      simp [index]
    | true =>
      have hlength : us.length < (s.tokens.drop i).length := hlt
      rw [List.length_drop] at hlength
      simp only [index, ↓reduceIte]
      omega

end Results

/-- The index of the first end of file. -/
def firstEnd (v : List Token) : Nat := v.findIdx (·.kind == .eof)

/-- The completed tokens of a list start with its stream. -/
theorem starts_complete (tokens : List Token) : Starts (.ofList tokens) (complete tokens) := by
  refine ⟨?_, fun t => TokenStream.kind_ne_eof_of_mem, TokenStream.eof_kind tokens⟩
  cases h : tokens.find? (·.kind == .eof) with
  | none =>
    have hne : ∀ t ∈ tokens, t.kind ≠ .eof := by simpa using h
    have hlast : (tokens.getLast?.any fun t => t.kind == .eof) = false := by
      cases hl : tokens.getLast? with
      | none => rfl
      | some t => simpa using hne t (List.mem_of_getLast? hl)
    have hstream : TokenStream.ofList tokens = ⟨tokens, TokenStream.missingEnd tokens⟩ := by
      have htake : (tokens ++ []).takeWhile (·.kind != TokenKind.eof) = tokens ++ [] :=
        List.takeWhile_append_of_pos fun t ht => by simpa using hne t ht
      rw [List.append_nil] at htake
      rw [TokenStream.ofList, h, htake]
      rfl
    refine ⟨[], ?_⟩
    simp [complete, hlast, hstream]
  | some e =>
    obtain ⟨he, before, after, rfl, hbefore⟩ := List.find?_eq_some_iff_append.1 h
    have hne : ∀ t ∈ before, t.kind ≠ .eof := by simpa using hbefore
    rw [TokenStream.ofList_append hne (by simpa using he), complete]
    split
    · exact ⟨after, rfl⟩
    · exact ⟨after ++ [TokenStream.missingEnd (before ++ e :: after)], by simp⟩

theorem Starts.firstEnd_eq {s : TokenStream} {v : List Token} (hv : Starts s v) :
    firstEnd v = s.tokens.length := by
  obtain ⟨more, rfl⟩ := hv.tokens_append
  have hnone : s.tokens.findIdx (·.kind == .eof) = s.tokens.length :=
    List.findIdx_eq_length.2 fun t ht => by simpa using hv.kind_ne_eof t ht
  simp [firstEnd, List.findIdx_append, List.findIdx_cons, hnone, hv.kind_eof]

/-- Reading a list of tokens ends at its first end of file. On the way there, no rule of the grammar
or of its recovery looks outside the list, goes back or passes the first end of file, and the loops
move on with each turn. What is read is what the rules on the tokens left read, so the tokens behind
the first end of file do not count. -/
theorem parse_ends_at_firstEnd (compiler : String) (tokens : List Token) :
    firstEnd (complete tokens) < (complete tokens).length ∧
      Progresses compiler (complete tokens) (firstEnd (complete tokens)) ∧
      parse compiler tokens =
        some (GameSchema.parse compiler tokens, firstEnd (complete tokens)) ∧
      ∀ ts eof rest, (∀ t ∈ ts, t.kind ≠ .eof) → eof.kind = .eof →
        GameSchema.parse compiler (ts ++ eof :: rest) =
          GameSchema.parse compiler (ts ++ [eof]) := by
  have hv := starts_complete tokens
  rw [hv.firstEnd_eq]
  refine ⟨?_, progresses hv compiler, ?_, ?_⟩
  · simpa [index] using hv.index_lt List.nil_suffix
  · have hfile := reads_file hv (header_run _ compiler (TokenStream.ofList tokens).tokens)
      (declarations_run _ _ _)
    have hrun := (hfile List.suffix_rfl).2
    simp only [index, Nat.sub_self, List.length_nil, Nat.sub_zero] at hrun
    rw [parse]
    simp only [ExceptT.run, StateT.run, hrun]
    rfl
  · intro ts eof rest hts heof
    rw [GameSchema.parse, GameSchema.parse, TokenStream.ofList_append hts heof,
      TokenStream.ofList_append hts heof]

/-- A keyword, an end of file, and a name behind it. -/
def earlyEnd : List Token :=
  [⟨.name, "name", .origin⟩, .endOfFile ⟨0, 4⟩, ⟨.identifier, "g", ⟨0, 5⟩⟩]

theorem parse_ends_at_firstEnd_early :
    firstEnd (complete earlyEnd) < (complete earlyEnd).length ∧
      parse "1.0.0" earlyEnd = some (GameSchema.parse "1.0.0" earlyEnd, 1) ∧
      (∀ t ∈ earlyEnd.take 1, t.kind ≠ .eof) ∧
      GameSchema.parse "1.0.0" earlyEnd = GameSchema.parse "1.0.0" (earlyEnd.take 2) := by
  obtain ⟨hlt, -, hparse, hrest⟩ := parse_ends_at_firstEnd "1.0.0" earlyEnd
  have hts : ∀ t ∈ earlyEnd.take 1, t.kind ≠ .eof := by decide
  exact ⟨hlt, hparse, hts, hrest (earlyEnd.take 1) (.endOfFile ⟨0, 4⟩) _ hts rfl⟩

end GameSchema.Cursor
