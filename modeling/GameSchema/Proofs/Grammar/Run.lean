import GameSchema.Grammar.File

/-!
# Runs of the grammar

What each rule for the inside of a declaration can do with a draft and the tokens in front of it,
one constructor for each outcome, the recovery from mistakes included. The rules themselves have
such runs, so an invariant of a source that is read is an induction over its runs.
-/

namespace GameSchema

/-- Whether a diagnostic rejects the form of a source: its syntax, a name that is declared twice or
a second config. -/
def Diagnostic.rejects : Diagnostic → Bool
  | .parse _ _ _ | .semantic .duplicateIdentifier _ | .semantic .multipleConfig _ => true
  | _ => false

namespace Grammar
open Token Recovery

/-- A draft in which a name has been declared. -/
def addName (d : Draft) (n : Namespace) (name : String) : Draft :=
  { d with scope := { d.scope with declared := d.scope.declared ++ [(n, name)] } }

/-- A draft in which the config has been declared. -/
def addConfig (d : Draft) : Draft := { d with scope := { d.scope with configSeen := true } }

@[simp] theorem addConfig_declarations (d : Draft) :
    (addConfig d).declarations = d.declarations := rfl

@[simp] theorem addConfig_diagnostics (d : Draft) : (addConfig d).diagnostics = d.diagnostics := rfl

@[simp] theorem addConfig_declared (d : Draft) :
    (addConfig d).scope.declared = d.scope.declared := rfl

@[simp] theorem addConfig_references (d : Draft) :
    (addConfig d).scope.references = d.scope.references := rfl

/-- The outcomes of reading the name of a declaration. -/
inductive HeadingRun (eof : Token) (kind : DeclarationKind) (keyword : Token) (inBlock : Bool)
    (d : Draft) : List Token → Except Diagnostic Token → Draft → List Token → Prop
  | config {ts} (hk : kind = .config) (hs : d.scope.configSeen = false) :
      HeadingRun eof kind keyword inBlock d ts (.ok keyword) (addConfig d) ts
  | secondConfig {ts} (hk : kind = .config) (hs : d.scope.configSeen = true) :
      HeadingRun eof kind keyword inBlock d ts (.error (.semantic .multipleConfig keyword)) d ts
  | unnamed {ts} (hk : kind ≠ .config) (hn : startsWith .identifier ts = false) :
      HeadingRun eof kind keyword inBlock d ts
        (.error (.parse (.identifierAfter kind) (here eof ts) inBlock)) d ts
  | duplicate {n name us} (hk : kind.scope? = some n) (hn : name.kind = .identifier)
      (hd : (n, name.lexeme) ∈ d.scope.declared) :
      HeadingRun eof kind keyword inBlock d (name :: us)
        (.error (.semantic .duplicateIdentifier name)) d us
  | named {n name us} (hk : kind.scope? = some n) (hn : name.kind = .identifier)
      (hd : (n, name.lexeme) ∉ d.scope.declared) :
      HeadingRun eof kind keyword inBlock d (name :: us) (.ok name) (addName d n name.lexeme) us

/-- The outcomes of reading the name of a declaration and the brace behind it. -/
inductive OpeningRun (eof : Token) (kind : DeclarationKind) (keyword : Token) (inBlock : Bool)
    (d : Draft) : List Token → Except Diagnostic Token → Draft → List Token → Prop
  | badHeading {ts x d' us} (hh : HeadingRun eof kind keyword inBlock d ts (.error x) d' us) :
      OpeningRun eof kind keyword inBlock d ts (.error x) d' us
  | noBlock {ts name d' us} (hh : HeadingRun eof kind keyword inBlock d ts (.ok name) d' us)
      (ho : startsWith .openCurly us = false) :
      OpeningRun eof kind keyword inBlock d ts
        (.error (.parse (.blockAfter kind) (here eof us) inBlock)) d' us
  | opened {ts name d' o us} (hh : HeadingRun eof kind keyword inBlock d ts (.ok name) d' (o :: us))
      (ho : o.kind = .openCurly) :
      OpeningRun eof kind keyword inBlock d ts (.ok name) d' us

/-- The tokens before which an item needs no comma. -/
def endsItem : TokenKind → Bool
  | .closeCurly | .eof | .declaration _ => true
  | _ => false

/-- What can stand between an item and the rest of its block. -/
inductive Separation (eof : Token) (d : Draft) : List Token → Draft → List Token → Prop
  | comma {c vs} (hc : c.kind = .comma) : Separation eof d (c :: vs) d vs
  | missing {vs} (hc : startsWith .comma vs = false)
      (hn : (here eof (afterComments vs)).kind = .identifier) :
      Separation eof d vs (d.report (.parse .commaBetween (here eof vs) true)) vs
  | last {vs} (hc : startsWith .comma vs = false)
      (hv : endsItem (here eof (afterComments vs)).kind = true) : Separation eof d vs d vs

/-- The tokens that can start a type. -/
def startsType : TokenKind → Bool
  | .scalar _ | .identifier | .container _ => true
  | .declaration k => k.isType
  | _ => false

mutual

/-- The outcomes of reading a type. -/
inductive TypeRun (eof : Token) : Char → List String → Draft → List Token →
    Except Diagnostic PropertyType → Draft → List Token → Prop
  | missing {mark cs d ts} (h : ∀ t us, ts = t :: us → startsType t.kind = false) :
      TypeRun eof mark cs d ts (.error (.parse (.typeAfter mark) (here eof ts) true)) d ts
  | scalar {mark cs d t us s} (h : t.kind = .scalar s) :
      TypeRun eof mark cs d (t :: us) (.ok (.plain t none)) d us
  | reference {mark cs d t us} (h : t.kind = .identifier) :
      TypeRun eof mark cs d (t :: us) (.ok (.plain t none)) (d.refer t) us
  | noLess {mark cs d t us c} (h : t.kind = .container c) (hl : startsWith .less us = false) :
      TypeRun eof mark cs d (t :: us) (.error (.parse (.less t.lexeme) (here eof us) true)) d us
  | badElement {mark cs d t l us c x d' vs} (h : t.kind = .container c) (hl : l.kind = .less)
      (he : TypeRun eof '<' [] d us (.error x) d' vs) :
      TypeRun eof mark cs d (t :: l :: us) (.error x) d' vs
  | noGreater {mark cs d t l us c e d' vs} (h : t.kind = .container c) (hl : l.kind = .less)
      (he : TypeRun eof '<' [] d us (.ok e) d' vs) (hg : startsWith .greater vs = false) :
      TypeRun eof mark cs d (t :: l :: us) (.error (.parse .greater (here eof vs) true)) d' vs
  | generic {mark cs d t l us c e d' g vs} (h : t.kind = .container c) (hl : l.kind = .less)
      (he : TypeRun eof '<' [] d us (.ok e) d' (g :: vs)) (hg : g.kind = .greater) :
      TypeRun eof mark cs d (t :: l :: us) (.ok (.generic t none e)) d' vs
  | badInline {mark cs d t us k x d' vs} (h : t.kind = .declaration k) (hk : k.isType = true)
      (ho : OpeningRun eof k t true d us (.error x) d' vs) :
      TypeRun eof mark cs d (t :: us) (.error x) d' vs
  | inline {mark cs d t us k name d₁ vs ps d₂ ws} (h : t.kind = .declaration k)
      (hk : k.isType = true) (ho : OpeningRun eof k t true d us (.ok name) d₁ vs)
      (hb : ItemsRun eof k d₁ vs ⟨ps, none⟩ d₂ ws) :
      TypeRun eof mark cs d (t :: us) (.ok (.plain name (some d₂.declarations.length)))
        (d₂.push ⟨k, name.lexeme, some name, cs, ps⟩) ws
  | brokenInline {mark cs d t us k name d₁ vs ps x d₂ ws} (h : t.kind = .declaration k)
      (hk : k.isType = true) (ho : OpeningRun eof k t true d us (.ok name) d₁ vs)
      (hb : ItemsRun eof k d₁ vs ⟨ps, some x⟩ d₂ ws) :
      TypeRun eof mark cs d (t :: us) (.ok (.plain name (some d₂.declarations.length)))
        ((d₂.report x).push ⟨k, name.lexeme, some name, cs, ps⟩) (skipBody 0 ws)

/-- The outcomes of reading an item from after its name. -/
inductive ItemRun (eof : Token) : DeclarationKind → List String → Token → Draft → List Token →
    Except Diagnostic Property → Draft → List Token → Prop
  | value {kind cs name d ts} (hk : kind = .enum) :
      ItemRun eof kind cs name d ts (.ok (untypedItem name cs)) d ts
  | noColon {kind cs name d ts} (hk : kind ≠ .enum) (hc : startsWith .colon ts = false) :
      ItemRun eof kind cs name d ts (.error (.parse .colon (here eof ts) true)) d ts
  | badField {kind cs name d c ts x d' us} (hk : kind ≠ .enum) (hc : c.kind = .colon)
      (ht : TypeRun eof ':' cs d ts (.error x) d' us) :
      ItemRun eof kind cs name d (c :: ts) (.error x) d' us
  | field {kind cs name d c ts t d' us} (hk : kind ≠ .enum) (hc : c.kind = .colon)
      (ht : TypeRun eof ':' cs d ts (.ok t) d' us) :
      ItemRun eof kind cs name d (c :: ts) (.ok (typedItem name cs t)) d' us

/-- The outcomes of reading the items of a block and the brace that closes it. -/
inductive ItemsRun (eof : Token) : DeclarationKind → Draft → List Token →
    Block → Draft → List Token → Prop
  | unterminated {kind d ts} (h : afterComments ts = []) :
      ItemsRun eof kind d ts ⟨[], some (.parse .blockEnd eof true)⟩ d []
  | close {kind d ts t us} (h : afterComments ts = t :: us) (ht : t.kind = .closeCurly) :
      ItemsRun eof kind d ts ⟨[], none⟩ d us
  | keyword {kind d ts t us k} (h : afterComments ts = t :: us) (ht : t.kind = .declaration k) :
      ItemsRun eof kind d ts ⟨[], none⟩ (d.report (.parse .blockEnd t true)) ts
  | stray {kind d ts t us b d' vs} (h : afterComments ts = t :: us)
      (hc : t.kind ≠ .closeCurly) (hd : t.kind.startsDeclaration = false)
      (hi : t.kind ≠ .identifier)
      (hr : ItemsRun eof kind (d.report (.parse (itemExpectation kind) t true)) (skipStray t us)
        b d' vs) :
      ItemsRun eof kind d ts b d' vs
  | badItem {kind d ts t us x d₁ vs b d₂ ws} (h : afterComments ts = t :: us)
      (ht : t.kind = .identifier)
      (hi : ItemRun eof kind (leadingComments ts) t d us (.error x) d₁ vs)
      (hr : ItemsRun eof kind (d₁.report x) (skipItem 0 vs) b d₂ ws) :
      ItemsRun eof kind d ts b d₂ ws
  | more {kind d ts t us p d₁ vs d₂ vs₂ b d₃ ws} (h : afterComments ts = t :: us)
      (ht : t.kind = .identifier)
      (hi : ItemRun eof kind (leadingComments ts) t d us (.ok p) d₁ vs)
      (hs : Separation eof d₁ vs d₂ vs₂) (hr : ItemsRun eof kind d₂ vs₂ b d₃ ws) :
      ItemsRun eof kind d ts (b.cons p) d₃ ws
  | fault {kind d ts t us p d₁ vs} (h : afterComments ts = t :: us) (ht : t.kind = .identifier)
      (hi : ItemRun eof kind (leadingComments ts) t d us (.ok p) d₁ vs)
      (hc : startsWith .comma vs = false) (hv : endsItem (here eof (afterComments vs)).kind = false)
      (hn : (here eof (afterComments vs)).kind ≠ .identifier) :
      ItemsRun eof kind d ts ⟨[p], some (.parse .commaOrEnd (here eof vs) true)⟩ d₁ vs

end

/-- The outcomes of a round at the top level. -/
inductive RoundRun (eof : Token) (d : Draft) (ts : List Token) : Draft → List Token → Prop
  | foreign {t us} (h : afterComments ts = t :: us) (ht : t.kind.startsDeclaration = false) :
      RoundRun eof d ts (d.report (.parse .declaration t false)) (skipForeign t us)
  | badOpening {t us k x d' vs} (h : afterComments ts = t :: us) (ht : t.kind = .declaration k)
      (ho : OpeningRun eof k t false d us (.error x) d' vs) :
      RoundRun eof d ts (d'.report x) (recover x vs)
  | declared {t us k name d₁ vs ps d₂ ws} (h : afterComments ts = t :: us)
      (ht : t.kind = .declaration k) (ho : OpeningRun eof k t false d us (.ok name) d₁ vs)
      (hb : ItemsRun eof k d₁ vs ⟨ps, none⟩ d₂ ws) :
      RoundRun eof d ts (d₂.push ⟨k, if k = .config then "" else name.lexeme, some name,
        leadingComments ts, ps⟩) ws
  | broken {t us k name d₁ vs ps x d₂ ws} (h : afterComments ts = t :: us)
      (ht : t.kind = .declaration k) (ho : OpeningRun eof k t false d us (.ok name) d₁ vs)
      (hb : ItemsRun eof k d₁ vs ⟨ps, some x⟩ d₂ ws) :
      RoundRun eof d ts (d₂.report x) (recover x ws)

/-- The outcomes of reading an entry of the header. -/
inductive EntryRun (eof : Token) (keyword value : TokenKind)
    (keywordWanted valueWanted : Expectation) :
    List Token → Except Diagnostic Token → List Token → Prop
  | noKeyword {ts} (hk : startsWith keyword ts = false) :
      EntryRun eof keyword value keywordWanted valueWanted ts
        (.error (.parse keywordWanted (here eof ts) false)) ts
  | noValue {k us} (hk : k.kind = keyword) (hv : startsWith value us = false) :
      EntryRun eof keyword value keywordWanted valueWanted (k :: us)
        (.error (.parse valueWanted (here eof us) false)) us
  | found {k v us} (hk : k.kind = keyword) (hv : v.kind = value) :
      EntryRun eof keyword value keywordWanted valueWanted (k :: v :: us) (.ok v) us

/-- The outcomes of reading the header. -/
inductive HeaderRun (eof : Token) (compiler : String) (ts : List Token) :
    Metadata → Draft → List Token → Prop
  | mk {name us version vs}
      (hn : EntryRun eof .name .identifier .nameKeyword .gameName (afterComments ts) name us)
      (hv : EntryRun eof .version .versionNumber .versionKeyword .languageVersion us version vs) :
      HeaderRun eof compiler ts ⟨entryText name, leadingComments ts, entryText version⟩
        (checkVersion compiler (Draft.empty.reportError name) version) vs

/-- The rounds up to the end of the file. -/
inductive FileRun (eof : Token) : Draft → List Token → Draft → Prop
  | done {d ts} (h : afterComments ts = []) : FileRun eof d ts d
  | step {d ts d₁ us d₂} (hr : RoundRun eof d ts d₁ us) (h : FileRun eof d₁ us d₂) :
      FileRun eof d ts d₂

variable (eof : Token)

theorem heading_run (kind : DeclarationKind) (keyword : Token) (inBlock : Bool) (d : Draft)
    (ts : List Token) :
    HeadingRun eof kind keyword inBlock d ts (heading eof kind keyword inBlock d ts).value
      (heading eof kind keyword inBlock d ts).draft
      (heading eof kind keyword inBlock d ts).rest := by
  by_cases hk : kind = .config
  · cases hs : d.scope.configSeen with
    | true =>
      simp only [heading, hk, Draft.declareConfig, Scope.declareConfig, hs]
      exact .secondConfig rfl hs
    | false =>
      simp only [heading, hk, Draft.declareConfig, Scope.declareConfig, hs]
      exact .config rfl hs
  · cases hn : startsWith .identifier ts with
    | false =>
      simp only [heading, hk, hn]
      exact .unnamed hk hn
    | true =>
      obtain ⟨name, us, rfl, hname⟩ := startsWith_iff.1 hn
      obtain ⟨n, hscope⟩ := DeclarationKind.exists_scope hk
      cases hd : d.scope.isDeclared n name.lexeme with
      | true =>
        have hmem : (n, name.lexeme) ∈ d.scope.declared := by simpa [Scope.isDeclared] using hd
        simp only [heading, hk, hn, Draft.declare, Scope.declare, hscope, here_cons, hd]
        exact .duplicate hscope hname hmem
      | false =>
        have hmem : (n, name.lexeme) ∉ d.scope.declared := by simpa [Scope.isDeclared] using hd
        simp only [heading, hk, hn, Draft.declare, Scope.declare, hscope, here_cons, hd]
        exact .named hscope hname hmem

theorem opening_run (kind : DeclarationKind) (keyword : Token) (inBlock : Bool) (d : Draft)
    (ts : List Token) :
    OpeningRun eof kind keyword inBlock d ts (opening eof kind keyword inBlock d ts).value
      (opening eof kind keyword inBlock d ts).draft
      (opening eof kind keyword inBlock d ts).rest := by
  have hh := heading_run eof kind keyword inBlock d ts
  cases hv : (heading eof kind keyword inBlock d ts).value with
  | error x =>
    rw [hv] at hh
    simp only [opening, Reading.andThen_of_error hv]
    exact .badHeading hh
  | ok name =>
    rw [hv] at hh
    simp only [opening, Reading.andThen_of_ok hv]
    cases ho : startsWith .openCurly (heading eof kind keyword inBlock d ts).rest with
    | false => exact .noBlock hh ho
    | true =>
      obtain ⟨o, us, hr, hk⟩ := startsWith_iff.1 ho
      rw [hr] at hh
      simp only [↓reduceIte, Reading.weaken, hr, List.tail_cons]
      exact .opened hh hk

theorem closeElement_run (mark : Char) (cs : List String) (d : Draft) {t l : Token}
    {us : List Token} {c : Container} (h : t.kind = .container c) (hl : l.kind = .less)
    {r : Reading (Except Diagnostic PropertyType) us}
    (he : TypeRun eof '<' [] d us r.value r.draft r.rest) :
    TypeRun eof mark cs d (t :: l :: us) (closeElement eof t r).value (closeElement eof t r).draft
      (closeElement eof t r).rest := by
  cases hv : r.value with
  | error x =>
    rw [hv] at he
    simp only [closeElement, Reading.andThen_of_error hv]
    exact .badElement h hl he
  | ok e =>
    rw [hv] at he
    simp only [closeElement, Reading.andThen_of_ok hv, Reading.weaken_value, Reading.weaken_draft,
      Reading.weaken_rest]
    cases hg : startsWith .greater r.rest with
    | false => exact .noGreater h hl he hg
    | true =>
      obtain ⟨g, vs, hr, hk⟩ := startsWith_iff.1 hg
      rw [hr] at he
      simp only [↓reduceIte, hr, List.tail_cons]
      exact .generic h hl he hk

mutual

theorem typeAt_run (mark : Char) (cs : List String) (d : Draft) (ts : List Token) :
    TypeRun eof mark cs d ts (typeAt eof mark cs d ts).value (typeAt eof mark cs d ts).draft
      (typeAt eof mark cs d ts).rest := by
  match ts with
  | [] =>
    rw [typeAt]
    exact .missing (by simp)
  | t :: us =>
    have missing (h : startsType t.kind = false) (he : typeAt eof mark cs d (t :: us) =
        .fail (.parse (.typeAfter mark) t true) d (t :: us)) : TypeRun eof mark cs d (t :: us)
        (typeAt eof mark cs d (t :: us)).value (typeAt eof mark cs d (t :: us)).draft
        (typeAt eof mark cs d (t :: us)).rest := by
      rw [he]
      exact .missing (by rintro _ _ ⟨⟩; exact h)
    cases hk : t.kind with
    | scalar s => simp only [typeAt, hk]; exact .scalar hk
    | identifier => simp only [typeAt, hk]; exact .reference hk
    | container c => simp only [typeAt, hk]; exact elementType_run mark cs t d us hk
    | declaration k =>
      cases k with
      | type => simp only [typeAt, hk]; exact inlineDeclaration_run mark cs d t us hk rfl
      | enum => simp only [typeAt, hk]; exact inlineDeclaration_run mark cs d t us hk rfl
      | _ => exact missing (by rw [hk]; rfl) (by simp only [typeAt, hk])
    | _ => exact missing (by rw [hk]; rfl) (by simp only [typeAt, hk])
termination_by (ts.length, 0)

theorem elementType_run (mark : Char) (cs : List String) (t : Token) (d : Draft) (us : List Token)
    {c : Container} (h : t.kind = .container c) :
    TypeRun eof mark cs d (t :: us) (elementType eof t d us).value (elementType eof t d us).draft
      (elementType eof t d us).rest := by
  cases hl : startsWith .less us with
  | false =>
    simp only [elementType, hl]
    exact .noLess h hl
  | true =>
    obtain ⟨l, vs, rfl, hless⟩ := startsWith_iff.1 hl
    simp only [elementType, hl, ↓reduceIte, List.tail_cons]
    exact closeElement_run eof mark cs d h hless (typeAt_run '<' [] d vs)
termination_by (us.length, 1)

theorem inlineDeclaration_run (mark : Char) (cs : List String) (d : Draft) (t : Token)
    (us : List Token) {k : DeclarationKind} (h : t.kind = .declaration k) (hk : k.isType = true) :
    TypeRun eof mark cs d (t :: us)
      (inlineDeclaration eof k cs (opening eof k t true d us)).value
      (inlineDeclaration eof k cs (opening eof k t true d us)).draft
      (inlineDeclaration eof k cs (opening eof k t true d us)).rest := by
  have ho := opening_run eof k t true d us
  have hlen := (opening eof k t true d us).rest_length_le
  rw [inlineDeclaration]
  generalize opening eof k t true d us = r at ho hlen ⊢
  cases hv : r.value with
  | error x =>
    rw [hv] at ho
    simp only [Reading.andThen_of_error hv]
    exact .badInline h hk ho
  | ok name =>
    rw [hv] at ho
    simp only [Reading.andThen_of_ok hv]
    have hb := items_run k r.draft r.rest
    cases hf : (items eof k r.draft r.rest).value with
    | mk ps fault? =>
      rw [hf] at hb
      cases fault? with
      | none => simpa [hoist, hf, Reading.weaken, Reading.map] using .inline h hk ho hb
      | some x => simpa [hoist, hf, Reading.weaken, Reading.map] using .brokenInline h hk ho hb
termination_by (us.length, 1)
decreasing_by exact lex_of_le hlen Nat.zero_lt_one

theorem item_run (kind : DeclarationKind) (cs : List String) (name : Token) (d : Draft)
    (ts : List Token) :
    ItemRun eof kind cs name d ts (item eof kind cs name d ts).value
      (item eof kind cs name d ts).draft (item eof kind cs name d ts).rest := by
  by_cases hk : kind = .enum
  · simp only [item, hk, ↓reduceIte]
    exact .value rfl
  · cases hc : startsWith .colon ts with
    | false =>
      simp only [item, hk, hc]
      exact .noColon hk hc
    | true =>
      obtain ⟨c, us, rfl, hcolon⟩ := startsWith_iff.1 hc
      have ht := typeAt_run ':' cs d us
      simp only [item, hk, hc, ↓reduceIte, List.tail_cons, Reading.weaken, Reading.map]
      cases hv : (typeAt eof ':' cs d us).value with
      | error x => rw [hv] at ht; exact .badField hk hcolon ht
      | ok t => rw [hv] at ht; exact .field hk hcolon ht
termination_by (ts.length, 1)

theorem items_run (kind : DeclarationKind) (d : Draft) (ts : List Token) :
    ItemsRun eof kind d ts (items eof kind d ts).value (items eof kind d ts).draft
      (items eof kind d ts).rest := by
  cases h : afterComments ts with
  | nil =>
    rw [items_of_nil h]
    exact .unterminated h
  | cons t us =>
    have hu := suffix_of_afterComments h
    have hlt := length_lt_of_afterComments h
    have hs := Nat.lt_of_le_of_lt (skipStray_suffix t us).length_le hlt
    rw [items_of_cons h hu]
    cases ht : t.kind with
    | closeCurly => exact .close h ht
    | declaration k => exact .keyword h ht
    | identifier => exact itemsAfter_run kind d ts h ht (item_run kind (leadingComments ts) t d us)
    | _ =>
      exact .stray h (by simp [ht]) (by simp [ht, TokenKind.startsDeclaration,
        TokenKind.declaration?]) (by simp [ht]) (items_run kind _ (skipStray t us))
termination_by (ts.length, 0)

theorem itemsAfter_run (kind : DeclarationKind) (d : Draft) (ts : List Token) {t : Token}
    {us : List Token} (h : afterComments ts = t :: us) (ht : t.kind = .identifier)
    {r : Reading (Except Diagnostic Property) us}
    (hi : ItemRun eof kind (leadingComments ts) t d us r.value r.draft r.rest) :
    ItemsRun eof kind d ts (itemsAfter eof kind r).value (itemsAfter eof kind r).draft
      (itemsAfter eof kind r).rest := by
  have hr := r.rest_length_le
  have hskip := (skipItem_suffix 0 r.rest).length_le
  have htail := (List.tail_suffix r.rest).length_le
  rw [itemsAfter]
  cases hv : r.value with
  | error x =>
    rw [hv] at hi
    exact .badItem h ht hi (items_run kind (r.draft.report x) (skipItem 0 r.rest))
  | ok p =>
    rw [hv] at hi
    by_cases hc : startsWith .comma r.rest = true
    · obtain ⟨c, vs, hcons, hcomma⟩ := startsWith_iff.1 hc
      have hs : Separation eof r.draft r.rest r.draft r.rest.tail := by
        rw [hcons]; exact .comma hcomma
      simp only [hc, ↓reduceIte]
      exact .more h ht hi hs (items_run kind r.draft r.rest.tail)
    · simp only [hc, Bool.false_eq_true, ↓reduceIte]
      simp only [Bool.not_eq_true] at hc
      cases hn : (here eof (afterComments r.rest)).kind with
      | closeCurly =>
        exact .more h ht hi (.last hc (by rw [hn]; rfl)) (items_run kind r.draft r.rest)
      | eof => exact .more h ht hi (.last hc (by rw [hn]; rfl)) (items_run kind r.draft r.rest)
      | declaration k =>
        exact .more h ht hi (.last hc (by rw [hn]; rfl)) (items_run kind r.draft r.rest)
      | identifier => exact .more h ht hi (.missing hc hn) (items_run kind _ r.rest)
      | _ => exact .fault h ht hi hc (by rw [hn]; rfl) (by simp [hn])
termination_by (us.length, 1)
decreasing_by
  · exact lex_of_le (Nat.le_trans hskip hr) Nat.zero_lt_one
  · exact lex_of_le (Nat.le_trans htail hr) Nat.zero_lt_one
  all_goals exact lex_of_le hr Nat.zero_lt_one

end

variable {eof} {d : Draft} {ts : List Token}

theorem round_run {r : Reading Unit ts} (h : round eof d ts = some r) :
    RoundRun eof d ts r.draft r.rest := by
  cases hc : afterComments ts with
  | nil => rw [round_of_nil hc] at h; cases h
  | cons t us =>
    rw [round_of_cons hc] at h
    cases h
    simp only [Reading.weaken_draft, Reading.weaken_rest]
    cases ht : t.kind with
    | declaration k =>
      have ho := opening_run eof k t false d us
      simp only [topLevel, ht, declaration]
      generalize opening eof k t false d us = r at ho ⊢
      cases hv : r.value with
      | error x =>
        rw [hv] at ho
        simp only [declarationBlock, Reading.andThen_of_error hv, settle]
        exact .badOpening hc ht ho
      | ok name =>
        rw [hv] at ho
        have hb := items_run eof k r.draft r.rest
        simp only [declarationBlock, Reading.andThen_of_ok hv]
        generalize items eof k r.draft r.rest = b at hb ⊢
        obtain ⟨⟨ps, fault?⟩, d₂, ws, hws⟩ := b
        cases fault? with
        | none => exact .declared hc ht ho hb
        | some x => exact .broken hc ht ho hb
    | _ =>
      simp only [topLevel, ht]
      exact .foreign hc (by rw [ht]; rfl)

theorem entry_run (eof : Token) (keyword value : TokenKind)
    (keywordWanted valueWanted : Expectation) (d : Draft) (ts : List Token) :
    (entry eof keyword value keywordWanted valueWanted d ts).draft = d ∧
      EntryRun eof keyword value keywordWanted valueWanted ts
        (entry eof keyword value keywordWanted valueWanted d ts).value
        (entry eof keyword value keywordWanted valueWanted d ts).rest := by
  cases hk : startsWith keyword ts with
  | false =>
    simp only [entry, hk]
    exact ⟨rfl, .noKeyword hk⟩
  | true =>
    obtain ⟨k, us, rfl, hkey⟩ := startsWith_iff.1 hk
    cases hv : startsWith value us with
    | false =>
      simp only [entry, hk, ↓reduceIte, List.tail_cons, hv]
      exact ⟨rfl, .noValue hkey hv⟩
    | true =>
      obtain ⟨v, vs, rfl, hval⟩ := startsWith_iff.1 hv
      simp only [entry, hk, ↓reduceIte, List.tail_cons, hv]
      exact ⟨trivial, .found hkey hval⟩

theorem header_run (eof : Token) (compiler : String) (ts : List Token) :
    HeaderRun eof compiler ts (header eof compiler ts).value (header eof compiler ts).draft
      (header eof compiler ts).rest := by
  obtain ⟨hd, hname⟩ := entry_run eof .name .identifier .nameKeyword .gameName .empty
    (afterComments ts)
  obtain ⟨hd₂, hversion⟩ := entry_run eof .version .versionNumber .versionKeyword .languageVersion
    (Draft.empty.reportError (entry eof .name .identifier .nameKeyword .gameName .empty
      (afterComments ts)).value)
    (entry eof .name .identifier .nameKeyword .gameName .empty (afterComments ts)).rest
  simp only [header, Reading.weaken, hd, hd₂]
  exact .mk hname hversion

theorem declarations_run (eof : Token) (d : Draft) (ts : List Token) :
    FileRun eof d ts (declarations eof d ts) := by
  cases h : round eof d ts with
  | none =>
    rw [declarations_of_none h]
    cases hc : afterComments ts with
    | nil => exact .done hc
    | cons t us => rw [round_of_cons hc] at h; cases h
  | some r =>
    have hlt := length_lt_of_round h
    rw [declarations_of_some h]
    exact .step (round_run h) (declarations_run eof r.draft r.rest)
termination_by ts.length

/-- The draft of a stream when everything is read. -/
def finalDraft (compiler : String) (s : TokenStream) : Draft :=
  declarations s.eof (header s.eof compiler s.tokens).draft (header s.eof compiler s.tokens).rest

theorem finalDraft_run (compiler : String) (s : TokenStream) :
    ∃ d ts, HeaderRun s.eof compiler s.tokens (header s.eof compiler s.tokens).value d ts ∧
      FileRun s.eof d ts (finalDraft compiler s) :=
  ⟨_, _, header_run s.eof compiler s.tokens, declarations_run s.eof _ _⟩

theorem parseStream_eq_finalDraft (compiler : String) (s : TokenStream) :
    parseStream compiler s = ⟨(header s.eof compiler s.tokens).value,
      finishDeclarations (finalDraft compiler s).declarations,
      (finalDraft compiler s).diagnostics ++ (finalDraft compiler s).scope.finish⟩ := rfl

end Grammar

end GameSchema
