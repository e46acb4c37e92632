import GameSchema.Proofs.Grammar.Reordering

/-!
# Comments and layout

Comments document what they stand in front of, and the places of tokens tell where it stands. They
mean nothing else: when the comments of a source without errors are taken out and its other tokens
are put elsewhere, the tokens still spell its tree, without the comments and with the new places.
What the tree describes changes in the same way, and there are no errors then either.
-/

namespace GameSchema

section Described

def Metadata.uncommented (m : Metadata) : Metadata := { m with comments := [] }

def Property.uncommented (p : Property) : Property := { p with comments := [] }

/-- A declaration without comments, neither its own nor those of its items. -/
def Declaration.uncommented (x : Declaration) : Declaration :=
  { x with comments := [], properties := x.properties.map (·.uncommented) }

end Described

section Tokens
open Token

variable {t : Token} {cs ts us : List Token}

/-- The tokens that are no comments. -/
def Token.withoutComments (ts : List Token) : List Token := ts.filter fun t => !t.isComment

theorem Token.withoutComments_cons (ht : t.kind ≠ .comment) (ts : List Token) :
    withoutComments (t :: ts) = t :: withoutComments ts := by
  rw [withoutComments, List.filter_cons_of_pos]
  · rfl
  · simpa [isComment] using ht

theorem Token.withoutComments_append (ts us : List Token) :
    withoutComments (ts ++ us) = withoutComments ts ++ withoutComments us :=
  List.filter_append ts us

theorem Token.AllComments.withoutComments_eq_nil (hcs : AllComments cs) :
    withoutComments cs = [] := by
  rw [withoutComments, List.filter_eq_nil_iff]
  intro t ht
  simp [hcs t ht]

theorem Token.AllComments.withoutComments_append (hcs : AllComments cs) (ts : List Token) :
    withoutComments (cs ++ ts) = withoutComments ts := by
  rw [Token.withoutComments_append, hcs.withoutComments_eq_nil, List.nil_append]

def TokenStream.uncommented (s : TokenStream) : TokenStream :=
  { s with tokens := withoutComments s.tokens }

/-- Taking comments out does not change where the tokens end. -/
theorem Token.takeWhile_withoutComments (ts : List Token) :
    (withoutComments ts).takeWhile (·.kind != .eof) =
      withoutComments (ts.takeWhile (·.kind != .eof)) := by
  induction ts with
  | nil => rfl
  | cons t ts ih =>
    by_cases hcomment : t.isComment = true
    · have hkind : t.kind = .comment := by simpa [isComment] using hcomment
      simpa [withoutComments, hcomment, hkind] using ih
    · by_cases heof : t.kind = .eof
      · simp [withoutComments, hcomment, heof]
      · simpa [withoutComments, hcomment, heof] using ih

theorem TokenStream.tokens_of_withoutComments
    (h : us.map Token.unplaced = (withoutComments ts).map Token.unplaced) :
    (ofList us).tokens.map Token.unplaced =
      (ofList ts).uncommented.tokens.map Token.unplaced := by
  have htake (vs : List Token) : (vs.takeWhile (·.kind != .eof)).map Token.unplaced =
      (vs.map Token.unplaced).takeWhile (·.kind != .eof) := by
    rw [List.takeWhile_map]
    rfl
  simp only [ofList, uncommented]
  rw [htake, h, ← htake, takeWhile_withoutComments]

end Tokens

namespace Grammar
open Token

section Trees

mutual

/-- A tree without its comments. -/
def TypeTree.uncommented : TypeTree → TypeTree
  | .scalar w => .scalar w
  | .reference name => .reference name
  | .generic c e => .generic c e.uncommented
  | .inline k name is => .inline k name is.uncommented

def ItemTree.uncommented : ItemTree → ItemTree
  | .value _ name => .value [] name
  | .field _ name t => .field [] name t.uncommented

def ItemsTree.uncommented : ItemsTree → ItemsTree
  | .nil => .nil
  | .cons i is => .cons i.uncommented is.uncommented

end

def DeclarationTree.uncommented (t : DeclarationTree) : DeclarationTree :=
  ⟨[], t.kind, t.name, t.items.uncommented⟩

def FileTree.uncommented (f : FileTree) : FileTree :=
  ⟨[], f.name, f.version, f.declarations.map (·.uncommented)⟩

/-- A file without the places of its tokens. -/
def FileTree.unplaced (f : FileTree) : FileTree :=
  ⟨f.comments.map (·.unplaced), f.name.unplaced, f.version.unplaced,
    f.declarations.map (·.unplaced)⟩

end Trees

section Spelling

mutual

/-- The tokens of a type that are no comments spell the type without its comments. -/
theorem SpellsType.uncommented {t : TypeTree} {ts us : List Token} (h : SpellsType t ts us) :
    SpellsType t.uncommented (withoutComments ts) (withoutComments us) := by
  match h with
  | .scalar hw =>
    rw [withoutComments_cons (by simp [hw])]
    exact .scalar hw
  | .reference hw =>
    rw [withoutComments_cons (by simp [hw])]
    exact .reference hw
  | .generic hw hl he hg =>
    have helement := he.uncommented
    rw [withoutComments_cons (by simp [hg])] at helement
    rw [withoutComments_cons (by simp [hw]), withoutComments_cons (by simp [hl])]
    exact .generic hw hl helement hg
  | .inline hw hk hn ho hb =>
    rw [withoutComments_cons (by simp [hw]), withoutComments_cons (by simp [hn]),
      withoutComments_cons (by simp [ho])]
    exact .inline hw hk hn ho hb.uncommented

theorem SpellsItem.uncommented {k : DeclarationKind} {i : ItemTree} {ts us : List Token}
    (h : SpellsItem k i ts us) :
    SpellsItem k i.uncommented (withoutComments ts) (withoutComments us) := by
  match h with
  | .value hcs hn =>
    rw [hcs.withoutComments_append, withoutComments_cons (by simp [hn])]
    exact .value allComments_nil hn
  | .field hk hcs hn hc ht =>
    rw [hcs.withoutComments_append, withoutComments_cons (by simp [hn]),
      withoutComments_cons (by simp [hc])]
    exact .field hk allComments_nil hn hc ht.uncommented

theorem SpellsItems.uncommented {k : DeclarationKind} {is : ItemsTree} {ts us : List Token}
    (h : SpellsItems k is ts us) :
    SpellsItems k is.uncommented (withoutComments ts) (withoutComments us) := by
  match h with
  | .close hcs hc =>
    rw [hcs.withoutComments_append, withoutComments_cons (by simp [hc])]
    exact .close allComments_nil hc
  | .last hi hcs hc =>
    have hitem := hi.uncommented
    rw [hcs.withoutComments_append, withoutComments_cons (by simp [hc])] at hitem
    exact .last hitem allComments_nil hc
  | .comma hi hc hr =>
    have hitem := hi.uncommented
    rw [withoutComments_cons (by simp [hc])] at hitem
    exact .comma hitem hc hr.uncommented

end

theorem SpellsDeclaration.uncommented {t : DeclarationTree} {ts us : List Token}
    (h : SpellsDeclaration t ts us) :
    SpellsDeclaration t.uncommented (withoutComments ts) (withoutComments us) := by
  cases h with
  | config hcs hw ho hb =>
    rw [hcs.withoutComments_append, withoutComments_cons (by simp [hw]),
      withoutComments_cons (by simp [ho])]
    exact .config allComments_nil hw ho hb.uncommented
  | named hcs hw hk hn ho hb =>
    rw [hcs.withoutComments_append, withoutComments_cons (by simp [hw]),
      withoutComments_cons (by simp [hn]), withoutComments_cons (by simp [ho])]
    exact .named allComments_nil hw hk hn ho hb.uncommented

theorem SpellsDeclarations.uncommented {ds : List DeclarationTree} {ts : List Token}
    (h : SpellsDeclarations ds ts) :
    SpellsDeclarations (ds.map (·.uncommented)) (withoutComments ts) := by
  induction h with
  | done hcs =>
    rw [hcs.withoutComments_eq_nil]
    exact .done allComments_nil
  | cons ht h ih => exact .cons ht.uncommented ih

theorem SpellsFile.uncommented {f : FileTree} {ts : List Token} (h : SpellsFile f ts) :
    SpellsFile f.uncommented (withoutComments ts) := by
  cases h with
  | mk hcs hn hname hv hversion hds he =>
    rw [hcs.withoutComments_append, withoutComments_cons (by simp [hn]),
      withoutComments_cons (by simp [hname]), withoutComments_cons (by simp [hv]),
      withoutComments_cons (by simp [hversion]), withoutComments_append,
      withoutComments_cons (by simp [he])]
    exact .mk allComments_nil hn hname hv hversion hds.uncommented he

/-- Tokens like those of a file, wherever they stand, spell a file like it. -/
theorem SpellsFile.respell {f : FileTree} {s s' : TokenStream} (h : SpellsFile f s.toList)
    (hend : s'.eof.kind = .eof)
    (hsame : s'.tokens.map Token.unplaced = s.tokens.map Token.unplaced) :
    ∃ g, SpellsFile g s'.toList ∧ g.unplaced = f.unplaced := by
  generalize hs : s.toList = vs at h
  cases h with
  | @mk cs n name v version ds ts e hcs hn hname hv hversion hds he =>
    have hsplit : s.tokens ++ [s.eof] = (cs ++ n :: name :: v :: version :: ts) ++ [e] := by
      simpa [TokenStream.toList] using hs
    rw [(List.append_inj' hsplit rfl).1] at hsame
    obtain ⟨bs, ws, htokens, hcomments, hall, hws⟩ := exists_comments_of_unplaced hcs hsame
    obtain ⟨n, ws, rfl, -, hkeyword, hws⟩ := exists_cons_of_unplaced hws
    obtain ⟨name, ws, rfl, hgame, hidentifier, hws⟩ := exists_cons_of_unplaced hws
    obtain ⟨v, ws, rfl, -, hword, hws⟩ := exists_cons_of_unplaced hws
    obtain ⟨version, ws, rfl, hlike, hnumber, hws⟩ := exists_cons_of_unplaced hws
    obtain ⟨es, hes, htrees⟩ := hds.respell hws
    refine ⟨⟨bs, name, version, es⟩, ?_, ?_⟩
    · rw [TokenStream.toList, htokens, List.append_assoc]
      exact .mk hcomments (hkeyword.trans hn) (hidentifier.trans hname) (hword.trans hv)
        (hnumber.trans hversion) hes hend
    · simp [FileTree.unplaced, hall, hgame, hlike, htrees]

end Spelling

section Names

mutual

@[simp] theorem TypeTree.inlined_uncommented (t : TypeTree) :
    t.uncommented.inlined = t.inlined := by
  match t with
  | .scalar _ => rfl
  | .reference _ => rfl
  | .generic _ e => exact e.inlined_uncommented
  | .inline _ _ is => simp [TypeTree.uncommented, TypeTree.inlined, is.inlined_uncommented]

@[simp] theorem ItemTree.inlined_uncommented (i : ItemTree) :
    i.uncommented.inlined = i.inlined := by
  match i with
  | .value _ _ => rfl
  | .field _ _ t => exact t.inlined_uncommented

@[simp] theorem ItemsTree.inlined_uncommented (is : ItemsTree) :
    is.uncommented.inlined = is.inlined := by
  match is with
  | .nil => rfl
  | .cons i is =>
    simp [ItemsTree.uncommented, ItemsTree.inlined, i.inlined_uncommented, is.inlined_uncommented]

end

mutual

/-- Comments declare nothing and refer to nothing. -/
theorem TypeTree.names_uncommented (t : TypeTree) :
    t.uncommented.names = t.names ∧ t.uncommented.references = t.references := by
  match t with
  | .scalar _ => exact ⟨rfl, rfl⟩
  | .reference _ => exact ⟨rfl, rfl⟩
  | .generic _ e => exact e.names_uncommented
  | .inline _ _ is =>
    obtain ⟨hnames, hreferences⟩ := is.names_uncommented
    simp [TypeTree.uncommented, TypeTree.names, TypeTree.references, hnames, hreferences]

theorem ItemTree.names_uncommented (i : ItemTree) :
    i.uncommented.names = i.names ∧ i.uncommented.references = i.references := by
  match i with
  | .value _ _ => exact ⟨rfl, rfl⟩
  | .field _ _ t => exact t.names_uncommented

theorem ItemsTree.names_uncommented (is : ItemsTree) :
    is.uncommented.names = is.names ∧ is.uncommented.references = is.references := by
  match is with
  | .nil => exact ⟨rfl, rfl⟩
  | .cons i is =>
    obtain ⟨hnames, hreferences⟩ := i.names_uncommented
    obtain ⟨hmore, hothers⟩ := is.names_uncommented
    simp [ItemsTree.uncommented, ItemsTree.names, ItemsTree.references, hnames, hreferences,
      hmore, hothers]

end

variable {f : FileTree}

theorem FileTree.names_uncommented (f : FileTree) : f.uncommented.names = f.names := by
  simp [FileTree.names, FileTree.uncommented, DeclarationTree.names, DeclarationTree.uncommented,
    List.flatMap_map, ItemsTree.names_uncommented]

theorem FileTree.references_uncommented (f : FileTree) :
    f.uncommented.references = f.references := by
  simp [FileTree.references, FileTree.uncommented, DeclarationTree.uncommented, List.flatMap_map,
    ItemsTree.names_uncommented]

theorem FileTree.configs_uncommented (f : FileTree) : f.uncommented.configs = f.configs := by
  simp [FileTree.configs, FileTree.uncommented, DeclarationTree.uncommented, List.countP_map,
    Function.comp_def]

end Names

section Schema

mutual

/-- A tree without its comments describes the same without the comments. -/
theorem TypeTree.described_uncommented (find : String → Option Nat) (n : Nat) (t : TypeTree) :
    t.uncommented.type find n = t.type find n ∧ ∀ cs : List Token,
      t.uncommented.hoisted find n [] = (t.hoisted find n cs).map (·.uncommented) := by
  match t with
  | .scalar _ => exact ⟨rfl, fun _ => rfl⟩
  | .reference _ => exact ⟨rfl, fun _ => rfl⟩
  | .generic _ e =>
    obtain ⟨htype, hhoisted⟩ := e.described_uncommented find n
    refine ⟨?_, fun _ => hhoisted []⟩
    simp [TypeTree.uncommented, TypeTree.type, htype]
  | .inline _ _ is =>
    obtain ⟨hproperties, hhoisted⟩ := is.described_uncommented find n
    refine ⟨?_, fun _ => ?_⟩
    · simp [TypeTree.uncommented, TypeTree.type]
    · simp [TypeTree.uncommented, TypeTree.hoisted, hproperties, hhoisted, texts,
        Declaration.uncommented]

theorem ItemTree.described_uncommented (find : String → Option Nat) (n : Nat) (i : ItemTree) :
    i.uncommented.property find n = (i.property find n).uncommented ∧
      i.uncommented.hoisted find n = (i.hoisted find n).map (·.uncommented) := by
  match i with
  | .value _ _ => exact ⟨rfl, rfl⟩
  | .field cs _ t =>
    obtain ⟨htype, hhoisted⟩ := t.described_uncommented find n
    refine ⟨?_, hhoisted cs⟩
    simp [ItemTree.uncommented, ItemTree.property, htype, texts, Property.uncommented]

theorem ItemsTree.described_uncommented (find : String → Option Nat) (n : Nat) (is : ItemsTree) :
    is.uncommented.properties find n = (is.properties find n).map (·.uncommented) ∧
      is.uncommented.hoisted find n = (is.hoisted find n).map (·.uncommented) := by
  match is with
  | .nil => exact ⟨rfl, rfl⟩
  | .cons i is =>
    obtain ⟨hproperty, hfirst⟩ := i.described_uncommented find n
    obtain ⟨hproperties, hrest⟩ := is.described_uncommented find (n + i.inlined)
    simp [ItemsTree.uncommented, ItemsTree.properties, ItemsTree.hoisted, hproperty, hfirst,
      hproperties, hrest]

end

/-- A change of trees that changes what they describe one by one, and neither how many declarations
there are nor what they are found by. -/
structure Recasts (φ : DeclarationTree → DeclarationTree) (ψ : Declaration → Declaration) :
    Prop where
  config : ∀ t, (φ t).kind = t.kind
  inlined : ∀ t, (φ t).items.inlined = t.items.inlined
  flatten : ∀ find n t, (φ t).flatten find n = (t.flatten find n).map ψ
  kind : ∀ x, (ψ x).kind = x.kind
  name : ∀ x, (ψ x).name = x.name
  emptyConfig : ψ .emptyConfig = .emptyConfig

theorem recasts_unplaced : Recasts DeclarationTree.unplaced Declaration.unplaced where
  config := fun t => rfl
  inlined := fun t => t.items.inlined_unplaced
  flatten := by
    intro find n t
    have hmoved : t.unplaced.flatten find n =
        (t.flatten find n).map fun x => (x.renumber id).unplaced :=
      t.moved (fun name => by simp) fun j _ => rfl
    simpa [Declaration.renumber_id] using hmoved
  kind := fun x => rfl
  name := fun x => rfl
  emptyConfig := rfl

theorem recasts_uncommented : Recasts DeclarationTree.uncommented Declaration.uncommented where
  config := fun t => rfl
  inlined := fun t => t.items.inlined_uncommented
  flatten := by
    intro find n t
    obtain ⟨hproperties, hhoisted⟩ := t.items.described_uncommented find n
    by_cases hk : t.kind = .config <;>
      simp [DeclarationTree.uncommented, DeclarationTree.flatten, hk, hproperties, hhoisted, texts,
        Declaration.uncommented]
  kind := fun x => rfl
  name := fun x => rfl
  emptyConfig := rfl

variable {φ : DeclarationTree → DeclarationTree} {ψ : Declaration → Declaration}

theorem Recasts.flattenAll_map (h : Recasts φ ψ) (find : String → Option Nat) (n : Nat)
    (ds : List DeclarationTree) :
    flattenAll find n (ds.map φ) = (flattenAll find n ds).map ψ := by
  induction ds generalizing n with
  | nil => rfl
  | cons t ds ih =>
    rw [List.map_cons, flattenAll, flattenAll, List.map_append, h.flatten, h.inlined, ih]

/-- The objects of a file change as its trees do. -/
theorem Recasts.objects_eq (h : Recasts φ ψ) {f g : FileTree}
    (hg : g.declarations = f.declarations.map φ) : g.objects = f.objects.map ψ := by
  have hplace : g.place? = f.place? := by
    apply typeIndex_eq_of_entries
    rw [hg, h.flattenAll_map]
    exact entries_map h.kind h.name _
  have hconfigs : g.configs = f.configs := by
    simp [FileTree.configs, hg, List.countP_map, Function.comp_def, h.config]
  simp only [FileTree.objects, hplace, hconfigs, hg, h.flattenAll_map]
  split
  · rw [List.map_append, List.map_singleton, h.emptyConfig]
  · rfl

end Schema

section Reading

variable {compiler : String} {f g : FileTree} {s s' : TokenStream}

/-- What is read of a stream without errors. -/
theorem Readable.parseStream_eq (h : Readable s f) (compiler : String) :
    parseStream compiler s = ⟨f.metadata, f.objects, versionWarnings compiler f.version⟩ := by
  rw [h.spells.parseStream_eq h.names h.configs, FileTree.undefined_eq_nil_iff.2 h.references,
    List.map_nil, List.append_nil]

theorem Readable.uncommented (h : Readable s f) (hend : s.eof.kind = .eof) :
    Readable s.uncommented f.uncommented := by
  have hstream : withoutComments s.toList = s.uncommented.toList := by
    rw [TokenStream.toList, withoutComments_append, withoutComments_cons (by simp [hend])]
    rfl
  refine ⟨?_, ?_, ?_, ?_⟩
  · rw [← hstream]
    exact h.spells.uncommented
  · rw [f.names_uncommented]
    exact h.names
  · rw [f.configs_uncommented]
    exact h.configs
  · rw [f.references_uncommented, f.names_uncommented]
    exact h.references

theorem Readable.respell (h : Readable s f) (hend : s'.eof.kind = .eof)
    (hsame : s'.tokens.map Token.unplaced = s.tokens.map Token.unplaced) :
    ∃ g, Readable s' g ∧ g.unplaced = f.unplaced := by
  obtain ⟨g, hg, hlike⟩ := h.spells.respell hend hsame
  have htrees : g.declarations.map (·.unplaced) = f.declarations.map (·.unplaced) :=
    congrArg FileTree.declarations hlike
  exact ⟨g, h.reorder hg (by rw [htrees]), hlike⟩

/-- The tree that is spelled when the comments of a file are taken out and its other tokens are put
elsewhere describes the same header. -/
theorem FileTree.metadata_uncommented (h : g.unplaced = f.uncommented.unplaced) :
    g.metadata = f.metadata.uncommented := by
  have hname : g.name.lexeme = f.name.lexeme := congrArg (·.name.lexeme) h
  have hversion : g.version.lexeme = f.version.lexeme := congrArg (·.version.lexeme) h
  have hcomments : g.comments.map Token.unplaced = [] := congrArg FileTree.comments h
  rw [List.map_eq_nil_iff] at hcomments
  simp [FileTree.metadata, Metadata.uncommented, hname, hversion, hcomments, texts]

/-- And it describes the same declarations, without their comments and up to places. -/
theorem FileTree.objects_uncommented (h : g.unplaced = f.uncommented.unplaced) :
    g.objects.map (·.unplaced) = f.objects.map fun x => x.uncommented.unplaced := by
  calc g.objects.map (·.unplaced)
      = g.unplaced.objects := (recasts_unplaced.objects_eq rfl).symm
    _ = f.uncommented.unplaced.objects := by rw [h]
    _ = f.uncommented.objects.map (·.unplaced) := recasts_unplaced.objects_eq rfl
    _ = (f.objects.map (·.uncommented)).map (·.unplaced) := by
      rw [recasts_uncommented.objects_eq (f := f) rfl]
    _ = f.objects.map fun x => x.uncommented.unplaced := List.map_map

/-- A warning depends on what a version says, not on where it stands. -/
theorem exists_warning_iff {version version' : Token} (h : version'.lexeme = version.lexeme) :
    (∃ c t, Diagnostic.version c t ∈ versionWarnings compiler version') ↔
      ∃ c t, Diagnostic.version c t ∈ versionWarnings compiler version := by
  simp only [versionWarnings, h]
  split <;> simp

/-- Tokens that are read without an error are read without one when their comments are taken out
and the others are put elsewhere. There is a warning about the version if there has been one, the
header and the declarations are the same up to the places of tokens, and have no comments. -/
theorem parse_uncommented {ts us : List Token}
    (h : ∀ x ∈ (parse compiler ts).diagnostics, x.isError = false)
    (hus : us.map Token.unplaced = (withoutComments ts).map Token.unplaced) :
    (∀ x ∈ (parse compiler us).diagnostics, x.isError = false) ∧
      ((∃ c t, Diagnostic.version c t ∈ (parse compiler us).diagnostics) ↔
        ∃ c t, Diagnostic.version c t ∈ (parse compiler ts).diagnostics) ∧
      (parse compiler us).metadata = (parse compiler ts).metadata.uncommented ∧
      (parse compiler us).declarations.map (·.unplaced) =
        (parse compiler ts).declarations.map fun x => x.uncommented.unplaced := by
  obtain ⟨f, hreadable⟩ := exists_readable h
  obtain ⟨g, hagain, hlike⟩ := (hreadable.uncommented (TokenStream.eof_kind ts)).respell
    (TokenStream.eof_kind us) (TokenStream.tokens_of_withoutComments hus)
  have hversion : g.version.lexeme = f.version.lexeme := congrArg (·.version.lexeme) hlike
  rw [parse, parse, hagain.parseStream_eq, hreadable.parseStream_eq]
  exact ⟨fun x hx => isError_of_mem_versionWarnings hx, exists_warning_iff hversion,
    FileTree.metadata_uncommented hlike, FileTree.objects_uncommented hlike⟩

/-- The tokens of `nestedTokens` that are no comments, each on a line of its own. -/
def bareNestedTokens : List Token :=
  (withoutComments nestedTokens).map fun t => { t with start := ⟨t.start.column, 0⟩ }

theorem parse_uncommented_nested :
    (∀ x ∈ (parse "2.0.0" nestedTokens).diagnostics, x.isError = false) ∧
    bareNestedTokens.map Token.unplaced = (withoutComments nestedTokens).map Token.unplaced ∧
    (∀ x ∈ (parse "2.0.0" bareNestedTokens).diagnostics, x.isError = false) ∧
    ((∃ c t, Diagnostic.version c t ∈ (parse "2.0.0" bareNestedTokens).diagnostics) ↔
      ∃ c t, Diagnostic.version c t ∈ (parse "2.0.0" nestedTokens).diagnostics) ∧
    (parse "2.0.0" bareNestedTokens).metadata =
      (parse "2.0.0" nestedTokens).metadata.uncommented ∧
    (parse "2.0.0" bareNestedTokens).declarations.map (·.unplaced) =
      (parse "2.0.0" nestedTokens).declarations.map fun x => x.uncommented.unplaced := by
  have hdiagnostics : (parse "2.0.0" nestedTokens).diagnostics =
      [.version "2.0.0" (word .versionNumber "1.0.0" 4)] := by cbv
  have h : ∀ x ∈ (parse "2.0.0" nestedTokens).diagnostics, x.isError = false := by
    rw [hdiagnostics]
    simp [Diagnostic.isError, Diagnostic.severity]
  have hus : bareNestedTokens.map Token.unplaced =
      (withoutComments nestedTokens).map Token.unplaced := rfl
  exact ⟨h, hus, parse_uncommented h hus⟩

end Reading

end Grammar

end GameSchema
