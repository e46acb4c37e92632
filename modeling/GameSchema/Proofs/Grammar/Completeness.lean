import GameSchema.Proofs.Grammar.Flattening
import GameSchema.Proofs.Grammar.Growth
import GameSchema.Proofs.Grammar.Result

/-!
# Completeness of the grammar

Every file of the language is read as the schema of its syntax tree. A spelling of a tree has a run
without a diagnostic, which adds the names, the references and the declarations of the tree to the
draft; binding the references then turns the declarations into those that the tree describes.
-/

namespace GameSchema.Grammar
open Token

/-- A draft after a tree without mistakes has been read. -/
def gain (d : Draft) (names : List (Namespace × String)) (references : List Token)
    (ds : List Declaration) : Draft :=
  ⟨d.scope.gain names references, d.declarations ++ ds, d.diagnostics⟩

@[simp] theorem gain_nil (d : Draft) : gain d [] [] [] = d := by simp [gain]

@[simp] theorem gain_gain (d : Draft) (ns ms : List (Namespace × String)) (rs qs : List Token)
    (ds es : List Declaration) :
    gain (gain d ns rs ds) ms qs es = gain d (ns ++ ms) (rs ++ qs) (ds ++ es) := by
  simp [gain]

@[simp] theorem gain_scope (d : Draft) (ns : List (Namespace × String)) (rs : List Token)
    (ds : List Declaration) : (gain d ns rs ds).scope = d.scope.gain ns rs := rfl

@[simp] theorem gain_declarations (d : Draft) (ns : List (Namespace × String)) (rs : List Token)
    (ds : List Declaration) : (gain d ns rs ds).declarations = d.declarations ++ ds := rfl

theorem refer_eq_gain (d : Draft) (t : Token) : d.refer t = gain d [] [t] [] := by
  simp [gain, ← refer_scope, Draft.refer]

theorem addName_eq_gain (d : Draft) (n : Namespace) (name : String) :
    addName d n name = gain d [(n, name)] [] [] := by
  simp [gain, ← addName_scope, addName]

theorem push_eq_gain (d : Draft) (x : Declaration) : d.push x = gain d [] [] [x] := by
  simp [gain, Draft.push]

/-- A draft in which a declaration of a given kind has started. -/
def started (k : DeclarationKind) (d : Draft) : Draft := if k = .config then addConfig d else d

section Started

variable (k : DeclarationKind) (d : Draft)

@[simp] theorem started_declared : (started k d).scope.declared = d.scope.declared := by
  simp only [started]; split <;> rfl

@[simp] theorem started_references : (started k d).scope.references = d.scope.references := by
  simp only [started]; split <;> rfl

@[simp] theorem started_declarations : (started k d).declarations = d.declarations := by
  simp only [started]; split <;> rfl

@[simp] theorem started_diagnostics : (started k d).diagnostics = d.diagnostics := by
  simp only [started]; split <;> rfl

theorem started_configSeen (h : k = .config → d.scope.configSeen = false) :
    (started k d).scope.configSeen.toNat =
      d.scope.configSeen.toNat + if k = .config then 1 else 0 := by
  by_cases hk : k = .config
  · simp [started, hk, addConfig, h hk]
  · simp [started, hk]

end Started

theorem startsWith_comma_spelled {cs : List Token} (hcs : AllComments cs) {c : Token}
    (hc : c.kind = .closeCurly) (us : List Token) : startsWith .comma (cs ++ c :: us) = false := by
  cases cs with
  | nil => simp [hc]
  | cons t cs =>
    have ht := hcs t List.mem_cons_self
    simp only [isComment, beq_iff_eq] at ht
    simp [ht]

/-- A name is new if it comes without repetition behind the names that are declared. -/
theorem not_mem_of_nodup {α : Type} {a : α} {xs ys : List α} (h : (xs ++ [a] ++ ys).Nodup) :
    a ∉ xs := by
  have hleft := (List.nodup_append.1 h).1
  intro hmem
  exact (List.nodup_append.1 hleft).2.2 a hmem a List.mem_cons_self rfl

variable (eof : Token)

mutual

theorem SpellsType.run {t : TypeTree} {ts us : List Token} (h : SpellsType t ts us) (mark : Char)
    (cs : List Token) (d : Draft) (hd : (d.scope.declared ++ t.names).Nodup) :
    TypeRun eof mark (texts cs) d ts (.ok (t.type unbound d.declarations.length))
      (gain d t.names t.references (t.hoisted unbound d.declarations.length cs)) us := by
  match h with
  | .scalar hw =>
    simp only [TypeTree.names, TypeTree.references, TypeTree.hoisted, gain_nil]
    exact .scalar hw
  | .reference hw =>
    simp only [TypeTree.names, TypeTree.references, TypeTree.hoisted, ← refer_eq_gain]
    exact .reference hw
  | .generic hw hl he hg => exact .generic hw hl (he.run '<' [] d hd) hg
  | @SpellsType.inline w k name o is ts us hw hk hn ho hb =>
    have hscope : k.scope? = some .types := by simpa [DeclarationKind.isType] using hk
    have hitems : (d.scope.declared ++ [(Namespace.types, name.lexeme)] ++ is.names).Nodup := by
      simpa [TypeTree.names] using hd
    have hrun := hb.run (addName d .types name.lexeme) hitems
    have hinline := @TypeRun.inline eof mark (texts cs) _ _ _ _ _ _ _ _ _ _ hw hk
      (.opened (.named hscope hn (not_mem_of_nodup hitems)) ho) hrun
    simpa [addName_eq_gain, push_eq_gain, TypeTree.type, TypeTree.names, TypeTree.references,
      TypeTree.hoisted, length_hoistedItems, gain_declarations] using hinline

theorem SpellsItem.run {k : DeclarationKind} {i : ItemTree} {ts us : List Token}
    (h : SpellsItem k i ts us) (d : Draft) (hd : (d.scope.declared ++ i.names).Nodup) :
    ∃ name vs, afterComments ts = name :: vs ∧ name.kind = .identifier ∧
      ItemRun eof k (leadingComments ts) name d vs
        (.ok (i.property unbound d.declarations.length))
        (gain d i.names i.references (i.hoisted unbound d.declarations.length)) us := by
  match h with
  | .value hcs hn =>
    refine ⟨_, _, hcs.after_cons (by simp [hn]) us, hn, ?_⟩
    rw [hcs.leading_cons (by simp [hn])]
    simp only [ItemTree.names, ItemTree.references, ItemTree.hoisted, gain_nil]
    exact .value rfl
  | .field hk hcs hn hc ht =>
    refine ⟨_, _, hcs.after_cons (by simp [hn]) _, hn, ?_⟩
    rw [hcs.leading_cons (by simp [hn])]
    exact .field hk hc (ht.run ':' _ d hd)

theorem SpellsItems.run {k : DeclarationKind} {is : ItemsTree} {ts us : List Token}
    (h : SpellsItems k is ts us) (d : Draft) (hd : (d.scope.declared ++ is.names).Nodup) :
    ItemsRun eof k d ts ⟨is.properties unbound d.declarations.length, none⟩
      (gain d is.names is.references (is.hoisted unbound d.declarations.length)) us := by
  match h with
  | .close hcs hc =>
    simp only [ItemsTree.names, ItemsTree.references, ItemsTree.hoisted, gain_nil]
    exact .close (hcs.after_cons (by simp [hc]) us) hc
  | @SpellsItems.last _ i _ cs c _ hi hcs hc =>
    obtain ⟨name, vs, ha, hn, hrun⟩ := hi.run d (by simpa [ItemsTree.names] using hd)
    have hnext := hcs.after_cons (t := c) (by simp [hc]) us
    have hends : endsItem (here eof (afterComments (cs ++ c :: us))).kind = true := by
      rw [hnext, here_cons, hc]
      rfl
    have hmore := ItemsRun.more ha hn hrun
      (.last (startsWith_comma_spelled hcs hc us) hends) (.close hnext hc)
    simpa [ItemsTree.names, ItemsTree.references, ItemsTree.hoisted, ItemsTree.properties,
      Block.cons] using hmore
  | @SpellsItems.comma _ i is _ c _ _ hi hc hr =>
    have hnames : (d.scope.declared ++ i.names ++ is.names).Nodup := by
      simpa [ItemsTree.names] using hd
    obtain ⟨name, vs, ha, hn, hrun⟩ := hi.run d (List.nodup_append.1 hnames).1
    have hrest := hr.run (gain d i.names i.references (i.hoisted unbound d.declarations.length))
      hnames
    have hmore := ItemsRun.more ha hn hrun (.comma hc) hrest
    simpa [ItemsTree.names, ItemsTree.references, ItemsTree.hoisted, ItemsTree.properties,
      Block.cons, length_hoistedItem] using hmore

end

theorem SpellsDeclaration.run {t : DeclarationTree} {ts us : List Token}
    (h : SpellsDeclaration t ts us) (d : Draft) (hd : (d.scope.declared ++ t.names).Nodup)
    (hconfig : t.kind = .config → d.scope.configSeen = false) :
    RoundRun eof d ts (gain (started t.kind d) t.names
      t.items.references (t.flatten unbound d.declarations.length)) us := by
  cases h with
  | @config cs w o is ts us hcs hw ho hb =>
    have hrun := hb.run eof (addConfig d) hd
    have hround := RoundRun.declared (hcs.after_cons (by simp [hw]) _) hw
      (.opened (.config rfl (hconfig rfl)) ho) hrun
    simpa [started, push_eq_gain, DeclarationTree.names, DeclarationTree.flatten,
      DeclarationKind.scope?,
      hcs.leading_cons (t := w) (by simp [hw]), texts] using hround
  | @named cs w k name o is ts us hcs hw hk hn ho hb =>
    obtain ⟨n, hscope⟩ := DeclarationKind.exists_scope hk
    have hitems : (d.scope.declared ++ [(n, name.lexeme)] ++ is.names).Nodup := by
      simpa [DeclarationTree.names, hscope] using hd
    have hrun := hb.run eof (addName d n name.lexeme) hitems
    have hround := RoundRun.declared (hcs.after_cons (by simp [hw]) _) hw
      (.opened (.named hscope hn (not_mem_of_nodup hitems)) ho) hrun
    simpa [started, addName_eq_gain, push_eq_gain, DeclarationTree.names, DeclarationTree.flatten,
      hscope, hk, hcs.leading_cons (t := w) (by simp [hw]), texts] using hround

theorem SpellsDeclarations.run {ds : List DeclarationTree} {ts : List Token}
    (h : SpellsDeclarations ds ts) (d : Draft)
    (hd : (d.scope.declared ++ ds.flatMap (·.names)).Nodup)
    (hconfig : (ds.countP fun t => t.kind == .config) + d.scope.configSeen.toNat ≤ 1) :
    ∃ d', FileRun eof d ts d' ∧ d'.scope.declared = d.scope.declared ++ ds.flatMap (·.names) ∧
      d'.scope.references = d.scope.references ++ ds.flatMap (·.items.references) ∧
      d'.declarations = d.declarations ++ flattenAll unbound d.declarations.length ds ∧
      d'.diagnostics = d.diagnostics := by
  induction h generalizing d with
  | done hcs =>
    exact ⟨d, .done hcs.after_eq_nil, by simp, by simp, by simp [flattenAll], rfl⟩
  | @cons t ts us ds ht h ih =>
    have hnames : (d.scope.declared ++ t.names ++ ds.flatMap (·.names)).Nodup := by simpa using hd
    have hfirst : t.kind = .config → d.scope.configSeen = false := by
      intro hk
      cases hs : d.scope.configSeen with
      | false => rfl
      | true => simp [hk, hs] at hconfig
    have hround := ht.run eof d (List.nodup_append.1 hnames).1 hfirst
    have hleft : (ds.countP fun t => t.kind == .config) +
        (started t.kind d).scope.configSeen.toNat ≤ 1 := by
      rw [started_configSeen t.kind d hfirst]
      simp only [List.countP_cons, beq_iff_eq] at hconfig
      omega
    obtain ⟨d', hrun, hdecl, href, hds, hdiag⟩ := ih
      (gain (started t.kind d) t.names t.items.references (t.flatten unbound d.declarations.length))
      (by simpa using hnames) hleft
    refine ⟨d', .step hround hrun, ?_, ?_, ?_, ?_⟩
    · simp [hdecl]
    · simp [href, gain]
    · simp [hds, flattenAll, length_flatten]
    · simp [hdiag, gain]

/-- The warning about the version of a file. -/
def versionWarnings (compiler : String) (version : Token) : List Diagnostic :=
  if Version.compatible version.lexeme compiler then [] else [.version compiler version]

theorem header_of_spelled {cs : List Token} {n name v version : Token} (hcs : AllComments cs)
    (hn : n.kind = .name) (hname : name.kind = .identifier) (hv : v.kind = .version)
    (hversion : version.kind = .versionNumber) (compiler : String) (ts : List Token) :
    HeaderRun eof compiler (cs ++ n :: name :: v :: version :: ts)
      ⟨name.lexeme, texts cs, version.lexeme⟩
      ⟨.empty, [], versionWarnings compiler version⟩ ts := by
  have hafter := hcs.after_cons (t := n) (by simp [hn]) (name :: v :: version :: ts)
  have hleading := hcs.leading_cons (t := n) (by simp [hn]) (name :: v :: version :: ts)
  have hrun : HeaderRun eof compiler (cs ++ n :: name :: v :: version :: ts) _ _ ts :=
    .mk (by rw [hafter]; exact .found hn hname) (.found hv hversion)
  rw [hleading] at hrun
  have hdraft : checkVersion compiler Draft.empty (.ok version) =
      ⟨.empty, [], versionWarnings compiler version⟩ := by
    simp only [checkVersion, versionWarnings]
    split <;> rfl
  rw [← hdraft]
  exact hrun

/-- The references to types that no declaration of the file names, each at its first place. -/
def FileTree.undefined (f : FileTree) : List Token :=
  Scope.firstByLexeme (f.references.filter fun t => !f.names.contains (.types, t.lexeme))

/-- What has been gathered when a spelling of a file is read. -/
theorem SpellsFile.finalDraft_eq {f : FileTree} {s : TokenStream} (h : SpellsFile f s.toList)
    (hnames : f.names.Nodup) (hconfig : f.configs ≤ 1) (compiler : String) :
    (header s.eof compiler s.tokens).value = f.metadata ∧
      ∃ seen, finalDraft compiler s = ⟨⟨f.names, f.references, seen⟩,
        flattenAll unbound 0 f.declarations, versionWarnings compiler f.version⟩ := by
  obtain ⟨tokens, eof⟩ := s
  generalize hs : TokenStream.toList ⟨tokens, eof⟩ = ts at h
  cases h with
  | @mk cs n name v version ds ts e hcs hn hname hv hversion hds he =>
    have hsplit : tokens ++ [eof] = (cs ++ n :: name :: v :: version :: ts) ++ [e] := by
      simpa [TokenStream.toList] using hs
    obtain ⟨rfl, -⟩ := List.append_inj' hsplit rfl
    rw [FileTree.names] at hnames
    rw [FileTree.configs] at hconfig
    obtain ⟨hvalue, hdraft, hrest⟩ :=
      (header_of_spelled eof hcs hn hname hv hversion compiler ts).is
    obtain ⟨d, hrun, hdeclared, hreferences, hdeclarations, hdiagnostics⟩ :=
      hds.run eof ⟨.empty, [], versionWarnings compiler version⟩
        hnames (by simpa [Scope.empty] using hconfig)
    refine ⟨hvalue, d.scope.configSeen, ?_⟩
    rw [finalDraft, hdraft, hrest, hrun.declarations_eq]
    obtain ⟨⟨declared, references, seen⟩, declarations, diagnostics⟩ := d
    simp only at hdeclared hreferences hdeclarations hdiagnostics
    rw [hdeclared, hreferences, hdeclarations, hdiagnostics]
    rfl

/-- A spelling of a file is read as what its tree describes. -/
theorem SpellsFile.parseStream_eq {f : FileTree} {s : TokenStream} (h : SpellsFile f s.toList)
    (hnames : f.names.Nodup) (hconfig : f.configs ≤ 1) (compiler : String) :
    parseStream compiler s = ⟨f.metadata, f.objects,
      versionWarnings compiler f.version ++ f.undefined.map (.semantic .undefinedType)⟩ := by
  obtain ⟨hvalue, seen, hdraft⟩ := h.finalDraft_eq hnames hconfig compiler
  rw [parseStream_eq_finalDraft, hvalue, hdraft, h.finishDeclarations_eq]
  rfl

theorem SpellsFile.accepted {f : FileTree} {s : TokenStream} (h : SpellsFile f s.toList)
    (hnames : f.names.Nodup) (hconfig : f.configs ≤ 1) (compiler : String) {x : Diagnostic}
    (hx : x ∈ (parseStream compiler s).diagnostics) : x.rejects = false := by
  rw [h.parseStream_eq hnames hconfig compiler] at hx
  rcases List.mem_append.1 hx with hx | hx
  · simp only [versionWarnings] at hx
    split at hx
    · cases hx
    · rw [List.mem_singleton.1 hx]
      rfl
  · obtain ⟨t, -, rfl⟩ := List.mem_map.1 hx
    rfl

/-- Every spelling of a tree whose names are distinct and whose configs are at most one is accepted,
and is read as the header and the declarations that the tree describes. -/
theorem parse_of_spelled {f : FileTree} {ts : List Token} (h : SpellsFile f ts)
    (hnames : f.names.Nodup) (hconfig : f.configs ≤ 1) (compiler : String) (us : List Token) :
    (parse compiler (ts ++ us)).metadata = f.metadata ∧
      (parse compiler (ts ++ us)).declarations = f.objects ∧
      ∀ x ∈ (parse compiler (ts ++ us)).diagnostics, x.rejects = false := by
  have hstream : SpellsFile f (TokenStream.ofList (ts ++ us)).toList := by
    rw [h.ofList_append us]
    exact h
  have heq := hstream.parseStream_eq hnames hconfig compiler
  refine ⟨?_, ?_, ?_⟩
  · rw [parse, heq]
  · rw [parse, heq]
  · intro x hx
    exact hstream.accepted hnames hconfig compiler hx

/-- A token of the first line. -/
def word (kind : TokenKind) (lexeme : String) (column : Nat) : Token := ⟨kind, lexeme, ⟨0, column⟩⟩

/-- An event whose first property is a list of an enum that is declared there. -/
def nestedFile : FileTree :=
  ⟨[word .comment "nested" 0], word .identifier "chess" 2, word .versionNumber "1.0.0" 4,
    [⟨[], .event, word .identifier "moved" 6,
      .cons (.field [word .comment "all" 8] (word .identifier "captured" 9)
        (.generic (word (.container .list) "list" 11)
          (.inline .enum (word .identifier "Piece" 14)
            (.cons (.value [] (word .identifier "king" 16)) .nil))))
      (.cons (.field [] (word .identifier "piece" 21) (.reference (word .identifier "Piece" 23)))
        .nil)⟩]⟩

/-- A spelling of that file with a comma before a closing brace and comments that belong to
nothing. -/
def nestedTokens : List Token :=
  [word .comment "nested" 0] ++ word .name "name" 1 :: word .identifier "chess" 2 ::
    word .version "version" 3 :: word .versionNumber "1.0.0" 4 ::
    (word (.declaration .event) "event" 5 :: word .identifier "moved" 6 ::
      word .openCurly "\x7b" 7 :: word .comment "all" 8 :: word .identifier "captured" 9 ::
      word .colon ":" 10 :: word (.container .list) "list" 11 :: word .less "<" 12 ::
      word (.declaration .enum) "enum" 13 :: word .identifier "Piece" 14 ::
      word .openCurly "\x7b" 15 :: word .identifier "king" 16 :: word .comma "," 17 ::
      word .closeCurly "\x7d" 18 :: word .greater ">" 19 :: word .comma "," 20 ::
      word .identifier "piece" 21 :: word .colon ":" 22 :: word .identifier "Piece" 23 ::
      word .comment "dangling" 24 :: word .closeCurly "\x7d" 25 ::
      [word .comment "over" 26] ++ [word .eof "" 27])

theorem spells_nested : SpellsFile nestedFile nestedTokens := by
  have none : AllComments [] := by simp [AllComments]
  have one (s : String) (n : Nat) : AllComments [word .comment s n] := by
    simp [AllComments, word, isComment]
  have henum (us : List Token) : SpellsItems .enum
      (.cons (.value [] (word .identifier "king" 16)) .nil)
      (word .identifier "king" 16 :: word .comma "," 17 :: word .closeCurly "\x7d" 18 :: us) us :=
    .comma (.value none rfl) rfl (@SpellsItems.close _ [] _ us none rfl)
  have hlast (us : List Token) : SpellsItems .event
      (.cons (.field [] (word .identifier "piece" 21) (.reference (word .identifier "Piece" 23)))
        .nil)
      (word .identifier "piece" 21 :: word .colon ":" 22 :: word .identifier "Piece" 23 ::
        word .comment "dangling" 24 :: word .closeCurly "\x7d" 25 :: us) us :=
    .last (.field (by decide) none rfl rfl (.reference rfl)) (one "dangling" 24) rfl
  exact .mk (one _ _) rfl rfl rfl rfl (.cons (.named none rfl (by decide) rfl rfl
    (.comma (.field (by decide) (one _ _) rfl rfl (.generic rfl rfl
      (.inline rfl rfl rfl rfl (henum _)) rfl)) rfl (hlast _))) (.done (one "over" 26))) rfl

theorem parse_of_spelled_nested : SpellsFile nestedFile nestedTokens ∧ nestedFile.names.Nodup ∧
    nestedFile.configs ≤ 1 ∧
    (parse "1.0.0" (nestedTokens ++ [])).metadata = nestedFile.metadata ∧
    (parse "1.0.0" (nestedTokens ++ [])).declarations = nestedFile.objects ∧
    ∀ x ∈ (parse "1.0.0" (nestedTokens ++ [])).diagnostics, x.rejects = false := by
  have hnames : nestedFile.names.Nodup := by decide
  have hconfig : nestedFile.configs ≤ 1 := by decide
  exact ⟨spells_nested, hnames, hconfig, parse_of_spelled spells_nested hnames hconfig "1.0.0" []⟩

end GameSchema.Grammar
