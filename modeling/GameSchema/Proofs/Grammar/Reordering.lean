import GameSchema.Proofs.Compilation
import GameSchema.Proofs.Grammar.Moving
import GameSchema.Proofs.Grammar.Unambiguous

/-!
# The order of declarations

The declarations at the top level of a source may stand in any order. A source without errors has
none in another order either, and the declarations that are read from one of its parts, those inside
of it and then itself, move with the part. What changes besides are the numbers of the declarations
that types are bound to, and these change as the declarations move.
-/

namespace GameSchema.Grammar
open Token

/-- A declaration at the top level of a source: the tokens that spell it, with the comments in front
of it, and the place where the declarations that are read from it start. -/
structure Part where
  tokens : List Token
  tree : DeclarationTree
  spells : SpellsDeclaration tree tokens []
  first : Nat

namespace Part

/-- How many declarations are read from a part. -/
def size (p : Part) : Nat := p.tree.items.inlined + 1

/-- The places of the declarations that are read from a part. -/
def places (p : Part) : List Nat := List.range' p.first p.size

/-- The declarations that are read from a part: those inside of it, and then itself. -/
def group (find : String → Option Nat) (p : Part) : List Declaration := p.tree.flatten find p.first

@[simp] theorem length_places (p : Part) : p.places.length = p.size := List.length_range'

@[simp] theorem length_group (find : String → Option Nat) (p : Part) :
    (p.group find).length = p.size := length_flatten find p.first p.tree

end Part

/-- The parts follow each other, and so do the declarations that are read from them, which take the
places from `n` on. -/
def Consecutive (n : Nat) : List Part → Prop
  | [] => True
  | p :: ps => p.first = n ∧ Consecutive (n + p.size) ps

/-- The place to which a declaration comes when its part is moved among the given ones. -/
def newPlace (parts : List Part) (i : Nat) : Nat := (parts.flatMap (·.places)).idxOf i

section Parts

variable {ps qs : List Part} {find : String → Option Nat} {n : Nat}

theorem Consecutive.places (h : Consecutive n ps) :
    ps.flatMap (·.places) = List.range' n (ps.map (·.size)).sum := by
  induction ps generalizing n with
  | nil => rfl
  | cons p ps ih =>
    obtain ⟨rfl, h⟩ := h
    rw [List.flatMap_cons, ih h, Part.places, List.map_cons, List.sum_cons]
    exact List.range'_append_1

theorem Consecutive.flattenAll_eq (h : Consecutive n ps) (find : String → Option Nat) :
    flattenAll find n (ps.map (·.tree)) = ps.flatMap (·.group find) := by
  induction ps generalizing n with
  | nil => rfl
  | cons p ps ih =>
    obtain ⟨rfl, h⟩ := h
    rw [List.map_cons, flattenAll, List.flatMap_cons, ← ih h]
    rfl

theorem length_flatMap_places (find : String → Option Nat) (ps : List Part) :
    (ps.flatMap (·.places)).length = (ps.flatMap (·.group find)).length := by
  simp [List.length_flatMap]

/-- Every declaration with its place. -/
theorem zip_flatMap (find : String → Option Nat) (ps : List Part) :
    (ps.flatMap (·.places)).zip (ps.flatMap (·.group find)) =
      ps.flatMap fun p => p.places.zip (p.group find) := by
  induction ps with
  | nil => rfl
  | cons p ps ih => simp [List.zip_append, ih]

theorem nodup_places (h : Consecutive 0 ps) (hperm : ps.Perm qs) :
    (qs.flatMap (·.places)).Nodup := by
  have hplaces : (ps.flatMap (·.places)).Perm (qs.flatMap (·.places)) := hperm.flatMap_right _
  rw [← hplaces.nodup_iff, h.places]
  exact List.nodup_range'

theorem newPlace_of_getElem (h : Consecutive 0 ps) (hperm : ps.Perm qs) {k i : Nat}
    (hk : (qs.flatMap (·.places))[k]? = some i) : newPlace qs i = k := by
  obtain ⟨hlt, rfl⟩ := List.getElem?_eq_some_iff.1 hk
  exact (nodup_places h hperm).idxOf_getElem k hlt

/-- A declaration moves with its part. -/
theorem getElem_newPlace (h : Consecutive 0 ps) (hperm : ps.Perm qs) {i : Nat} {x : Declaration}
    (hx : (ps.flatMap (·.group find))[i]? = some x) :
    (qs.flatMap (·.group find))[newPlace qs i]? = some x := by
  have hi : (ps.flatMap (·.places))[i]? = some i := by
    obtain ⟨hlt, -⟩ := List.getElem?_eq_some_iff.1 hx
    rw [← length_flatMap_places] at hlt
    rw [List.getElem?_eq_getElem hlt]
    simp [h.places]
  have hmem : (i, x) ∈ (ps.flatMap (·.places)).zip (ps.flatMap (·.group find)) :=
    List.mem_of_getElem? (List.getElem?_zip_eq_some.2 ⟨hi, hx⟩)
  rw [zip_flatMap, (hperm.flatMap_right _).mem_iff, ← zip_flatMap] at hmem
  obtain ⟨k, hk⟩ := List.mem_iff_getElem?.1 hmem
  obtain ⟨hplace, hgroup⟩ := List.getElem?_zip_eq_some.1 hk
  rw [newPlace_of_getElem h hperm hplace]
  exact hgroup

/-- Trees like those of the parts describe the declarations of the parts, moved to where the trees
stand. -/
theorem flattenAll_moved {find' : String → Option Nat} {f : Nat → Nat}
    (hfind : ∀ name, find' name = (find name).map f) {ts : List DeclarationTree}
    (hts : ts.map (·.unplaced) = ps.map (·.tree.unplaced)) {n : Nat}
    (hplaces : ∀ k i, (ps.flatMap (·.places))[k]? = some i → f i = n + k) :
    (flattenAll find' n ts).map (·.unplaced) =
      ps.flatMap fun p => (p.group find).map fun x => (x.renumber f).unplaced := by
  induction ps generalizing ts n with
  | nil =>
    obtain rfl : ts = [] := by simpa using hts
    rfl
  | cons p ps ih =>
    obtain ⟨t, ts, rfl, ht, hts⟩ := List.map_eq_cons_iff.1 hts
    have hsize : t.items.inlined + 1 = p.size := by
      have hitems := congrArg (·.items.inlined) ht
      simpa [DeclarationTree.unplaced, Part.size] using hitems
    have hfirst : ∀ j < p.size, f (p.first + j) = n + j := by
      intro j hj
      apply hplaces
      rw [List.flatMap_cons, List.getElem?_append_left (by simpa using hj), Part.places,
        List.getElem?_range' hj, Nat.one_mul]
    have hrest : ∀ k i, (ps.flatMap (·.places))[k]? = some i → f i = n + p.size + k := by
      intro k i hk
      rw [Nat.add_assoc]
      apply hplaces
      rw [List.flatMap_cons, List.getElem?_append_right (by simp)]
      simpa using hk
    rw [flattenAll, List.map_append, DeclarationTree.moved_of_unplaced hfind ht hfirst, hsize,
      ih hts hrest]
    rfl

theorem spells_parts {tail : List Token} (htail : AllComments tail) (ps : List Part) :
    SpellsDeclarations (ps.map (·.tree)) (ps.flatMap (·.tokens) ++ tail) := by
  induction ps with
  | nil => exact .done htail
  | cons p ps ih =>
    rw [List.flatMap_cons, List.append_assoc]
    exact .cons (p.spells.append _) ih

theorem exists_parts {ds : List DeclarationTree} {ts : List Token} (h : SpellsDeclarations ds ts)
    (n : Nat) : ∃ ps tail, ts = ps.flatMap (·.tokens) ++ tail ∧ AllComments tail ∧
      ps.map (·.tree) = ds ∧ Consecutive n ps := by
  induction h generalizing n with
  | done hcs => exact ⟨[], _, rfl, hcs, rfl, trivial⟩
  | @cons t ts us ds ht h ih =>
    obtain ⟨ws, rfl, hws⟩ := ht.segment
    have hspells := hws []
    rw [List.append_nil] at hspells
    obtain ⟨ps, tail, rfl, htail, rfl, hps⟩ := ih (n + (t.items.inlined + 1))
    exact ⟨⟨ws, t, hspells, n⟩ :: ps, tail, by simp, htail, rfl, rfl, hps⟩

/-- Where a part stands does not matter for what its declarations are found by. -/
theorem entries_group (find : String → Option Nat) (ps : List Part) :
    entries (ps.flatMap (·.group find)) = entries (ps.flatMap (·.group unbound)) := by
  have hlink (p : Part) : entries (p.group find) = entries (p.group unbound) := by
    rw [Part.group, ← p.spells.link find p.first]
    exact entries_map (g := Declaration.link find) (fun x => rfl) (fun x => rfl) _
  simp only [entries, List.map_flatMap] at hlink ⊢
  simp only [hlink]

theorem flattenAll_newPlace (h : Consecutive 0 ps) (hperm : ps.Perm qs)
    {find' : String → Option Nat} (hfind : ∀ name, find' name = (find name).map (newPlace qs))
    {ts : List DeclarationTree} (hts : ts.map (·.unplaced) = qs.map (·.tree.unplaced)) :
    (flattenAll find' 0 ts).map (·.unplaced) =
      qs.flatMap fun p => (p.group find).map fun x => (x.renumber (newPlace qs)).unplaced := by
  refine flattenAll_moved hfind hts ?_
  intro k i hk
  rw [newPlace_of_getElem h hperm hk, Nat.zero_add]

/-- Names lead to the new places of the parts. -/
theorem typeIndex_newPlace (h : Consecutive 0 ps) (hperm : ps.Perm qs)
    (hkeys : (keys (ps.flatMap (·.group find))).Nodup) {ts : List DeclarationTree}
    (hts : ts.map (·.unplaced) = qs.map (·.tree.unplaced)) (name : String) :
    typeIndex? (flattenAll unbound 0 ts) name =
      (typeIndex? (ps.flatMap (·.group find)) name).map (newPlace qs) := by
  have hunbound : ∀ name, unbound name = (unbound name).map (newPlace qs) := fun name => rfl
  have hmoved := congrArg entries (flattenAll_newPlace h hperm hunbound hts)
  rw [entries_map (g := Declaration.unplaced) (fun x => rfl) (fun x => rfl), ← List.map_flatMap,
    entries_map (g := fun x => (x.renumber (newPlace qs)).unplaced) (fun x => rfl)
      (fun x => rfl)] at hmoved
  have hentries : entries (flattenAll unbound 0 ts) = entries (qs.flatMap (·.group find)) :=
    hmoved.trans (entries_group find qs).symm
  have hperm' : (keys (ps.flatMap (·.group find))).Perm (keys (qs.flatMap (·.group find))) :=
    (hperm.flatMap_right _).filterMap _
  rw [typeIndex_eq_of_entries hentries]
  exact typeIndex_of_moved (hperm'.nodup_iff.1 hkeys) hperm'.symm.subset
    (fun i x hx => getElem_newPlace h hperm hx) name

end Parts

section Headers

/-- The header of a source, with the comments above it. -/
inductive SpellsHeader : List Token → Prop
  | mk {cs n name v version} (hcs : AllComments cs) (hn : n.kind = .name)
      (hname : name.kind = .identifier) (hv : v.kind = .version)
      (hversion : version.kind = .versionNumber) : SpellsHeader (cs ++ [n, name, v, version])

theorem SpellsHeader.file {head ts : List Token} (h : SpellsHeader head)
    {ds : List DeclarationTree} (hds : SpellsDeclarations ds ts) {e : Token} (he : e.kind = .eof) :
    ∃ f, f.declarations = ds ∧ SpellsFile f (head ++ ts ++ [e]) := by
  cases h with
  | @mk cs n name v version hcs hn hname hv hversion =>
    have hfile := SpellsFile.mk hcs hn hname hv hversion hds he
    exact ⟨_, rfl, by simpa using hfile⟩

theorem SpellsHeader.respell {head hs : List Token} (h : SpellsHeader head)
    (hhs : hs.map Token.unplaced = head.map Token.unplaced) : SpellsHeader hs := by
  cases h with
  | mk hcs hn hname hv hversion =>
    obtain ⟨cs, ws, rfl, hcomments, -, hws⟩ := exists_comments_of_unplaced hcs hhs
    obtain ⟨n, ws, rfl, -, hkeyword, hws⟩ := exists_cons_of_unplaced hws
    obtain ⟨name, ws, rfl, -, hidentifier, hws⟩ := exists_cons_of_unplaced hws
    obtain ⟨v, ws, rfl, -, hword, hws⟩ := exists_cons_of_unplaced hws
    obtain ⟨version, ws, rfl, -, hnumber, hws⟩ := exists_cons_of_unplaced hws
    obtain rfl : ws = [] := by simpa using hws
    exact .mk hcomments (hkeyword.trans hn) (hidentifier.trans hname) (hword.trans hv)
      (hnumber.trans hversion)

end Headers

/-- Tokens that are a header, parts with one declaration at the top level each, and the comments
behind them. -/
structure Divides (ts head : List Token) (parts : List Part) (dangling : List Token) : Prop where
  header : SpellsHeader head
  comments : AllComments dangling
  tokens : ts = head ++ parts.flatMap (·.tokens) ++ dangling
  consecutive : Consecutive 0 parts

/-- Neither reading the tokens nor the search for cycles gives an error. -/
structure Accepted (compiler : String) (ts : List Token) : Prop where
  reading : ∀ x ∈ (parse compiler ts).diagnostics, x.isError = false
  cycles : ∀ x ∈ Cycle.diagnostics (parse compiler ts).declarations, x.isError = false

section Divisions

variable {compiler : String} {ts us head dangling : List Token} {parts : List Part}

theorem exists_readable (h : ∀ x ∈ (parse compiler ts).diagnostics, x.isError = false) :
    ∃ f, Readable (.ofList ts) f := by
  have hclean : Clean (finalDraft compiler (.ofList ts)) := by
    intro x hx
    exact Diagnostic.rejects_eq_false (h x (List.mem_append_left _ hx))
  obtain ⟨f, hf, hnames, hconfigs⟩ := exists_spells (TokenStream.eof_kind ts) hclean
  exact ⟨f, .of_parse hf hnames hconfigs h⟩

/-- The tokens of a file can be divided. -/
theorem Readable.exists_divides {f : FileTree} (h : Readable (.ofList ts) f) :
    ∃ head parts dangling, Divides (TokenStream.ofList ts).tokens head parts dangling := by
  have hspells := h.spells
  generalize hs : (TokenStream.ofList ts).toList = vs at hspells
  cases hspells with
  | @mk cs n name v version ds vs e hcs hn hname hv hversion hds he =>
    obtain ⟨parts, dangling, rfl, hdangling, -, hconsecutive⟩ := exists_parts hds 0
    refine ⟨_, parts, dangling, .mk hcs hn hname hv hversion, hdangling, ?_, hconsecutive⟩
    have hsplit : (TokenStream.ofList ts).tokens ++ [(TokenStream.ofList ts).eof] =
        cs ++ [n, name, v, version] ++ parts.flatMap (·.tokens) ++ dangling ++ [e] := by
      simpa [TokenStream.toList] using hs
    exact (List.append_inj' hsplit rfl).1

/-- However the tokens of a file are divided, its declarations are those of the parts. -/
theorem Divides.trees (hd : Divides (TokenStream.ofList ts).tokens head parts dangling)
    {f : FileTree} (h : Readable (.ofList ts) f) : f.declarations = parts.map (·.tree) := by
  obtain ⟨g, hg, hfile⟩ :=
    hd.header.file (spells_parts hd.comments parts) (TokenStream.eof_kind ts)
  rw [← List.append_assoc, ← hd.tokens] at hfile
  rw [h.spells.unique hfile rfl, hg]

theorem Divides.declarations (hd : Divides (TokenStream.ofList ts).tokens head parts dangling)
    {f : FileTree} (h : Readable (.ofList ts) f) (compiler : String) :
    (parse compiler ts).declarations =
      withConfig (parts.flatMap (·.group (typeIndex? (parse compiler ts).declarations))) := by
  have hfind : typeIndex? (parse compiler ts).declarations = f.place? := by
    rw [parse, h.spells.parseStream_eq h.names h.configs, ← h.spells.finishDeclarations_eq,
      finishDeclarations, typeIndex_withConfig]
    exact typeIndex_eq_of_entries
      (entries_map (g := Declaration.link _) (fun x => rfl) (fun x => rfl) _)
  rw [hfind, ← hd.consecutive.flattenAll_eq, ← hd.trees h]
  exact (h.parse compiler).2

/-- The tokens of parts in another order spell the trees of these parts. -/
theorem exists_respelled (hhead : SpellsHeader head) (hdangling : AllComments dangling)
    (hus : (TokenStream.ofList us).tokens.map Token.unplaced =
      (head ++ parts.flatMap (·.tokens) ++ dangling).map Token.unplaced) :
    ∃ g, SpellsFile g (TokenStream.ofList us).toList ∧
      g.declarations.map (·.unplaced) = parts.map (·.tree.unplaced) := by
  rw [List.append_assoc, List.map_append] at hus
  obtain ⟨hs, ws, hsplit, hhs, hws⟩ := List.map_eq_append_iff.1 hus
  obtain ⟨trees, htrees, hsame⟩ := (spells_parts hdangling parts).respell hws
  obtain ⟨g, hg, hfile⟩ := (hhead.respell hhs).file htrees (TokenStream.eof_kind us)
  rw [← hsplit] at hfile
  refine ⟨g, hfile, ?_⟩
  rw [hg, hsame, List.map_map]
  rfl

end Divisions

section Reorder

variable {compiler : String} {ts us head dangling : List Token} {parts parts' : List Part}

/-- Tokens that are divided into the parts in another order are read without an error, as the
declarations of the parts in that order. -/
theorem Divides.declarations_reordered
    (hd : Divides (TokenStream.ofList ts).tokens head parts dangling)
    (h : ∀ x ∈ (parse compiler ts).diagnostics, x.isError = false) (hperm : parts.Perm parts')
    (hus : (TokenStream.ofList us).tokens.map Token.unplaced =
      (head ++ parts'.flatMap (·.tokens) ++ dangling).map Token.unplaced) :
    (∀ x ∈ (parse compiler us).diagnostics, x.isError = false) ∧
      (parse compiler us).declarations.map (·.unplaced) =
        withConfig (parts'.flatMap fun p =>
          (p.group (typeIndex? (parse compiler ts).declarations)).map fun x =>
            (x.renumber (newPlace parts')).unplaced) := by
  obtain ⟨f, hreadable⟩ := exists_readable h
  obtain ⟨g, hg, hsame⟩ := exists_respelled hd.header hd.comments hus
  have htrees : (g.declarations.map (·.unplaced)).Perm (f.declarations.map (·.unplaced)) := by
    rw [hsame, hd.trees hreadable, List.map_map]
    exact hperm.symm.map _
  have hagain := hreadable.reorder hg htrees
  refine ⟨(hagain.parse compiler).1, ?_⟩
  have hdeclarations := hd.declarations hreadable compiler
  have hkeys := (closed_of_parse h).2.1
  rw [hdeclarations, keys_withConfig] at hkeys
  have hplace : ∀ name, g.place? name =
      (typeIndex? (parse compiler ts).declarations name).map (newPlace parts') := by
    intro name
    conv_rhs => rw [hdeclarations, typeIndex_withConfig]
    exact typeIndex_newPlace hd.consecutive hperm hkeys hsame name
  rw [parse, (hagain.parse compiler).2,
    withConfig_map (g := Declaration.unplaced) (fun x => rfl) rfl,
    flattenAll_newPlace hd.consecutive hperm hplace hsame]

/-- A type of the reordered source has been one of the source. -/
theorem exists_of_mem_reordered {ds es : List Declaration} {find : String → Option Nat}
    {f : Nat → Nat} (hds : ds = withConfig (parts.flatMap (·.group find)))
    (hperm : parts.Perm parts')
    (hes : es.map (·.unplaced) = withConfig (parts'.flatMap fun p =>
      (p.group find).map fun x => (x.renumber f).unplaced))
    {a : Declaration} (ha : a ∈ Containment.nodes es) :
    ∃ b ∈ ds, a.unplaced = (b.renumber f).unplaced := by
  obtain ⟨hmem, hkind⟩ := Containment.mem_nodes.1 ha
  have hmoved : a.unplaced ∈ es.map (·.unplaced) := List.mem_map_of_mem hmem
  rw [hes] at hmoved
  rcases mem_withConfig hmoved with hmoved | hempty
  · obtain ⟨p, hp, hgroup⟩ := List.mem_flatMap.1 hmoved
    obtain ⟨b, hb, hsame⟩ := List.mem_map.1 hgroup
    refine ⟨b, ?_, hsame.symm⟩
    rw [hds]
    apply (prefix_withConfig _).subset
    exact List.mem_flatMap.2 ⟨p, hperm.mem_iff.2 hp, hb⟩
  · have hkinds := congrArg Declaration.kind hempty
    cases hkind.symm.trans hkinds

/-- The declarations of a source without errors may be put in any order. Its tokens can be divided
into a header, parts with one declaration at the top level each, and the comments behind them, and
its declarations are those of the parts, with a config behind them if there is none. Tokens like
those of the header, of the same parts in another order and of the comments, wherever they stand,
have no errors either, and declare the same with the parts in that order, up to the places of
tokens and with every number of a declaration replaced by its new one. -/
theorem parse_reordered (h : Accepted compiler ts) :
    (∃ head parts dangling, Divides (TokenStream.ofList ts).tokens head parts dangling) ∧
    ∀ head parts dangling, Divides (TokenStream.ofList ts).tokens head parts dangling →
      (parse compiler ts).declarations =
        withConfig (parts.flatMap (·.group (typeIndex? (parse compiler ts).declarations))) ∧
      ∀ parts', parts.Perm parts' → ∀ us : List Token,
        (TokenStream.ofList us).tokens.map Token.unplaced =
          (head ++ parts'.flatMap (·.tokens) ++ dangling).map Token.unplaced →
        Accepted compiler us ∧ (parse compiler us).declarations.map (·.unplaced) =
          withConfig (parts'.flatMap fun p =>
            (p.group (typeIndex? (parse compiler ts).declarations)).map fun x =>
              (x.renumber (newPlace parts')).unplaced) := by
  obtain ⟨f, hreadable⟩ := exists_readable h.reading
  refine ⟨hreadable.exists_divides, ?_⟩
  intro head parts dangling hd
  have hparts := hd.declarations hreadable compiler
  refine ⟨hparts, ?_⟩
  intro parts' hperm us hus
  obtain ⟨hreading, hdeclarations⟩ := hd.declarations_reordered h.reading hperm hus
  refine ⟨⟨hreading, ?_⟩, hdeclarations⟩
  rw [← Cycle.diagnostics_eq_nil_iff_isError]
  obtain ⟨-, hkeys, hnamed⟩ := closed_of_parse h.reading
  obtain ⟨-, hkeys', hnamed'⟩ := closed_of_parse hreading
  refine Cycle.diagnostics_eq_nil_of_moved (f := newPlace parts') hkeys hkeys' hnamed hnamed' ?_
    (Cycle.diagnostics_eq_nil_iff_isError.2 h.cycles)
  intro a ha
  exact exists_of_mem_reordered hparts hperm hdeclarations ha

end Reorder

section Forward

/-- What the sources below start with. -/
def gameHeader : List Token :=
  [word .name "name" 0, word .identifier "g" 1, word .version "version" 2,
    word .versionNumber "1.0.0" 3]

/-- An event with a property of the type `A`, from a column on. -/
def eventTokens (n : Nat) : List Token :=
  [word (.declaration .event) "event" n, word .identifier "e" (n + 1),
    word .openCurly "\x7b" (n + 2), word .identifier "a" (n + 3), word .colon ":" (n + 4),
    word .identifier "A" (n + 5), word .closeCurly "\x7d" (n + 6)]

/-- The type `A` with a comment in front of it and an enum inside, from a column on. -/
def typeTokens (n : Nat) : List Token :=
  [word .comment "all" n, word (.declaration .type) "type" (n + 1), word .identifier "A" (n + 2),
    word .openCurly "\x7b" (n + 3), word .identifier "b" (n + 4), word .colon ":" (n + 5),
    word (.declaration .enum) "enum" (n + 6), word .identifier "B" (n + 7),
    word .openCurly "\x7b" (n + 8), word .identifier "x" (n + 9),
    word .closeCurly "\x7d" (n + 10), word .closeCurly "\x7d" (n + 11)]

def overComment : Token := word .comment "over" 23

/-- An event in front of the type that it names. -/
def forwardTokens : List Token := gameHeader ++ (eventTokens 4 ++ typeTokens 11) ++ [overComment]

/-- The event behind the type. -/
def backwardTokens : List Token := gameHeader ++ (typeTokens 4 ++ eventTokens 16) ++ [overComment]

def eventPart : Part where
  tokens := eventTokens 4
  tree := ⟨[], .event, word .identifier "e" 5,
    .cons (.field [] (word .identifier "a" 7) (.reference (word .identifier "A" 9))) .nil⟩
  spells := .named allComments_nil rfl (by decide) rfl rfl
    (.last (.field (by decide) allComments_nil rfl rfl (.reference rfl)) allComments_nil rfl)
  first := 0

def typePart : Part where
  tokens := typeTokens 11
  tree := ⟨[word .comment "all" 11], .type, word .identifier "A" 13,
    .cons (.field [] (word .identifier "b" 15) (.inline .enum (word .identifier "B" 18)
      (.cons (.value [] (word .identifier "x" 20)) .nil))) .nil⟩
  spells := by
    have hall : AllComments [word .comment "all" 11] := by simp [AllComments, word, isComment]
    have hnil := allComments_nil
    exact .named hall rfl (by decide) rfl rfl
      (.last (.field (by decide) hnil rfl rfl (.inline rfl rfl rfl rfl
        (.last (.value hnil rfl) hnil rfl))) hnil rfl)
  first := 1

theorem parse_reordered_forward : Accepted "1.0.0" forwardTokens ∧
    Divides (TokenStream.ofList forwardTokens).tokens gameHeader [eventPart, typePart]
      [overComment] ∧
    [eventPart, typePart].Perm [typePart, eventPart] ∧
    (TokenStream.ofList backwardTokens).tokens.map Token.unplaced =
      (gameHeader ++ [typePart, eventPart].flatMap (·.tokens) ++ [overComment]).map
        Token.unplaced ∧
    Accepted "1.0.0" backwardTokens ∧
    (parse "1.0.0" backwardTokens).declarations.map (·.unplaced) =
      withConfig ([typePart, eventPart].flatMap fun p =>
        (p.group (typeIndex? (parse "1.0.0" forwardTokens).declarations)).map fun x =>
          (x.renumber (newPlace [typePart, eventPart])).unplaced) := by
  have haccepted : Accepted "1.0.0" forwardTokens := by
    have hreading : (parse "1.0.0" forwardTokens).diagnostics = [] := by cbv
    have hcycles : Cycle.diagnostics (parse "1.0.0" forwardTokens).declarations = [] := by cbv
    constructor
    · simp [hreading]
    · simp [hcycles]
  have hdivides : Divides (TokenStream.ofList forwardTokens).tokens gameHeader
      [eventPart, typePart] [overComment] := by
    constructor
    · exact .mk allComments_nil rfl rfl rfl rfl
    · simp [AllComments, overComment, word, isComment]
    · rfl
    · exact ⟨rfl, rfl, trivial⟩
  have hperm : [eventPart, typePart].Perm [typePart, eventPart] := .swap _ _ _
  have hus : (TokenStream.ofList backwardTokens).tokens.map Token.unplaced =
      (gameHeader ++ [typePart, eventPart].flatMap (·.tokens) ++ [overComment]).map
        Token.unplaced := rfl
  obtain ⟨-, hreordered⟩ := ((parse_reordered haccepted).2 _ _ _ hdivides)
  exact ⟨haccepted, hdivides, hperm, hus, hreordered _ hperm _ hus⟩

/-- The event moves from the first place to the last one. -/
example : [0, 1, 2].map (newPlace [typePart, eventPart]) = [2, 0, 1] := by decide

end Forward

end GameSchema.Grammar
