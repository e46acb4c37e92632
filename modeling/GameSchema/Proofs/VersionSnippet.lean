import GameSchema.Completion
import GameSchema.Proofs.RoundTrip
import GameSchema.Proofs.Version

/-!
# The version snippet

A source may consist of its header alone. What the version snippet inserts, with every place to fill
in left as proposed, is the version entry of such a source, and the version fits the compiler that
the snippet was made for.
-/

namespace GameSchema

section Header
open Grammar

variable {name version : String}

/-- The tokens of a header are read as a file in which nothing can be wrong but its version. -/
theorem parse_of_header {ts : List Token} {e : Token}
    (hts : ts.map Token.unplaced = [.symbol .name, ⟨.identifier, name, .origin⟩, .symbol .version,
      ⟨.versionNumber, version, .origin⟩]) (he : e.kind = .eof) (compiler : String) :
    ∃ t : Token, t.lexeme = version ∧
      (parse compiler (ts ++ [e])).diagnostics = versionWarnings compiler t ∧
      (parse compiler (ts ++ [e])).declarations = [.emptyConfig] := by
  obtain ⟨n, ts, rfl, hn, hts⟩ := List.map_eq_cons_iff.1 hts
  obtain ⟨a, ts, rfl, ha, hts⟩ := List.map_eq_cons_iff.1 hts
  obtain ⟨v, ts, rfl, hv, hts⟩ := List.map_eq_cons_iff.1 hts
  obtain ⟨t, ts, rfl, ht, hts⟩ := List.map_eq_cons_iff.1 hts
  obtain rfl : ts = [] := List.map_eq_nil_iff.1 hts
  have hspells : SpellsFile ⟨[], a, t, []⟩ ([n, a, v, t] ++ [e]) :=
    @SpellsFile.mk [] n a v t [] [] e nofun (congrArg Token.kind hn) (congrArg Token.kind ha)
      (congrArg Token.kind hv) (congrArg Token.kind ht) (.done nofun) he
  have hstream : SpellsFile ⟨[], a, t, []⟩ (TokenStream.ofList ([n, a, v, t] ++ [e])).toList := by
    have hlist := hspells.ofList_append []
    rw [List.append_nil] at hlist
    rwa [hlist]
  have hparse := hstream.parseStream_eq List.nodup_nil (Nat.zero_le 1) compiler
  refine ⟨t, congrArg Token.lexeme ht, ?_, ?_⟩
  · rw [parse, hparse]
    exact List.append_nil _
  · rw [parse, hparse]
    rfl

theorem scan_header (hname : IsIdentifier name) (hversion : IsVersionNumber version) :
    ∃ ts e, scan ("name " ++ name ++ "\nversion " ++ version) = .ok (ts ++ [e]) ∧
      ts.map Token.unplaced = [.symbol .name, ⟨.identifier, name, .origin⟩, .symbol .version,
        ⟨.versionNumber, version, .origin⟩] ∧ e.kind = .eof := by
  have hne : version.toList ≠ [] := by
    obtain ⟨d, ds, more, hlist, -⟩ := hversion
    simp [hlist]
  have hlast : version.toList.getLast? = some (version.toList.getLast hne) :=
    List.getLast?_eq_getLast_of_ne_nil hne
  obtain ⟨hn, hr⟩ := hversion.noBreak _ (List.getLast_mem hne)
  refine (written_header hname hversion).exists_scan ?_ ?_ hn hr
  · simp [TokenKind.text]
  · rw [String.toList_append, List.getLast?_append_of_ne_nil _ hne, hlast]

/-- A source that is no more than a header has no diagnostic if its version fits the compiler. -/
theorem diagnostics_compile_header (hname : IsIdentifier name) (hversion : IsVersionNumber version)
    {compiler : String} (hfits : Version.compatible version compiler = true) :
    (compile compiler ("name " ++ name ++ "\nversion " ++ version)).diagnostics = [] := by
  obtain ⟨ts, e, hscan, hts, he⟩ := scan_header hname hversion
  obtain ⟨t, ht, hdiagnostics, hdeclarations⟩ := parse_of_header hts he compiler
  rw [compile_of_scan compiler hscan, hdiagnostics, hdeclarations, versionWarnings, ht,
    if_pos hfits]
  rfl

end Header

namespace Completion

section Places

/-- The default of a place to fill in and the text behind the place, if the text is that of a place
behind its opening: the number of the place, a colon, the default and a closing brace. -/
def place? (cs : List Char) : Option (List Char × List Char) :=
  if cs.takeWhile Char.isDigit = [] then none
  else match cs.dropWhile Char.isDigit with
    | ':' :: ds =>
      match ds.dropWhile (· ≠ '}') with
      | '}' :: rest => some (ds.takeWhile (· ≠ '}'), rest)
      | _ => none
    | _ => none

theorem length_lt_of_place {cs default rest : List Char} (h : place? cs = some (default, rest)) :
    rest.length < cs.length := by
  simp only [place?] at h
  split at h
  · cases h
  split at h
  · next ds hds =>
    split at h
    · next more hmore =>
      cases h
      have hcs := (List.dropWhile_suffix Char.isDigit (l := cs)).length_le
      have hbrace := (List.dropWhile_suffix (· ≠ '}') (l := ds)).length_le
      rw [hds] at hcs
      rw [hmore] at hbrace
      simp only [List.length_cons] at hcs hbrace
      omega
    · cases h
  · cases h

/-- A text in which every place to fill in has given way to its default. -/
def filled (cs : List Char) : List Char :=
  match cs with
  | [] => []
  | '$' :: '{' :: cs =>
    match _h : place? cs with
    | some (default, rest) => default ++ filled rest
    | none => '$' :: filled ('{' :: cs)
  | c :: cs => c :: filled cs
termination_by cs.length
decreasing_by
  · have := length_lt_of_place _h
    simp only [List.length_cons]
    omega
  · simp
  · simp

variable {c : Char} {cs number default rest : List Char}

theorem place_eq (hnumber : LexicalGrammar.IsNumber number) (hdefault : '}' ∉ default) :
    place? (number ++ ':' :: (default ++ '}' :: rest)) = some (default, rest) := by
  have hbefore : ∀ d ∈ default, decide (d ≠ '}') = true := by
    intro d hd
    exact decide_eq_true fun h => hdefault (h ▸ hd)
  have hcolon : ∀ c ∈ (':' :: (default ++ '}' :: rest)).head?, c.isDigit = false := by
    rintro c ⟨⟩
    rfl
  have hclose : ∀ c ∈ ('}' :: rest).head?, decide (c ≠ '}') = false := by
    rintro c ⟨⟩
    rfl
  obtain ⟨htake, hdrop⟩ := Scan.takeWhile_append_stop hnumber.2 hcolon
  obtain ⟨htext, hbrace⟩ := Scan.takeWhile_append_stop hbefore hclose
  simp only [place?, htake, hdrop, htext, hbrace, hnumber.1, if_false]

theorem filled_cons (hc : c ≠ '$') : filled (c :: cs) = c :: filled cs := by
  rw [filled]
  rintro ds hd
  exact absurd hd hc

/-- A text in front of the first dollar sign stays as it is. -/
theorem filled_append (hcs : '$' ∉ cs) : filled (cs ++ rest) = cs ++ filled rest := by
  induction cs with
  | nil => rfl
  | cons c cs ih =>
    obtain ⟨hc, hcs⟩ := not_or.1 fun hmem => hcs (List.mem_cons.2 hmem)
    rw [List.cons_append, filled_cons fun h => hc h.symm, ih hcs, List.cons_append]

theorem filled_place (hnumber : LexicalGrammar.IsNumber number) (hdefault : '}' ∉ default) :
    filled ('$' :: '{' :: (number ++ ':' :: (default ++ '}' :: rest))) =
      default ++ filled rest := by
  rw [filled]
  split
  · next h =>
    rw [place_eq hnumber hdefault] at h
    cases h
    rfl
  · next h =>
    rw [place_eq hnumber hdefault] at h
    cases h

/-- What a snippet inserts when every place keeps its default. -/
def fillIn (insertText : String) : String := String.ofList (filled insertText.toList)

end Places

section Snippet

variable {version : String} {ds : List Declaration} {word : List Char}

/-- Whether an item is the snippet of a version entry. -/
def Item.isVersionSnippet (i : Item) : Bool := i.kind = .snippet ∧ i.label = "version"

theorem exists_all_eq (version : String) (ds : List Declaration) :
    ∃ others, all version ds = others ++ [versionSnippet version] ∧
      ∀ i ∈ others, i.isVersionSnippet = false := by
  refine ⟨_, (List.append_assoc _ ((snippets version).take 6) [versionSnippet version]).symm, ?_⟩
  intro i hi
  rcases List.mem_append.1 hi with hi | hi
  · have hkind : i.kind ≠ .snippet := by
      rcases List.mem_append.1 hi with hi | hi
      · rcases List.mem_append.1 hi with hi | hi
        · obtain ⟨w, -, rfl⟩ := List.mem_map.1 hi
          nofun
        · obtain ⟨w, -, rfl⟩ := List.mem_map.1 hi
          nofun
      · obtain ⟨x, -, rfl⟩ := List.mem_map.1 hi
        nofun
    exact decide_eq_false fun h => hkind h.1
  · have hlabels : ∀ l ∈ ((snippets version).take 6).map (·.label), l ≠ "version" := by
      have htake : ((snippets version).take 6).map (·.label) =
          ["config", "event", "command", "type", "enum", "name"] := rfl
      rw [htake]
      decide
    exact decide_eq_false fun h => hlabels _ (List.mem_map_of_mem hi) h.2

/-- The snippet of a version entry is offered once behind every beginning of its keyword. -/
theorem filter_isVersionSnippet (version : String) (ds : List Declaration)
    (hword : word <+: "version".toList) :
    (items version ds word).filter (·.isVersionSnippet) = [versionSnippet version] := by
  obtain ⟨others, hall, hothers⟩ := exists_all_eq version ds
  have hnil :
      others.filter (fun i => i.isVersionSnippet && word.isPrefixOf i.label.toList) = [] := by
    rw [List.filter_eq_nil_iff]
    intro i hi
    simp [hothers i hi]
  have hsnippet : ((versionSnippet version).isVersionSnippet &&
      word.isPrefixOf (versionSnippet version).label.toList) = true := by
    rw [Bool.and_eq_true]
    exact ⟨rfl, List.isPrefixOf_iff_prefix.2 hword⟩
  rw [items, List.filter_filter, hall, List.filter_append, hnil, List.nil_append,
    List.filter_singleton, hsnippet]
  rfl

/-- The parts that the snippet proposes are those of a version number that fits the compiler. -/
theorem exists_proposed
    (h : version = Version.development ∨ ∃ v : Version.Number, version = v.text) :
    ∃ v : Version.Number, (if version = Version.development then (['0'], ['0'])
      else Version.parts version) = (v.major, v.minor) ∧
      Version.compatible v.withoutThird.text version = true := by
  rcases h with rfl | ⟨v, rfl⟩
  · exact ⟨.zero, if_pos rfl, Version.compatible_development _⟩
  · refine ⟨v, ?_, ?_⟩
    · rw [if_neg v.text_ne_development, v.parts_text]
    · exact (v.withoutThird.compatible_iff v).2 ⟨rfl, fun _ => rfl, Nat.le_refl _⟩

/-- With its defaults, the snippet is the version entry of the parts that it proposes. -/
theorem exists_insertText {major minor : List Char} (hmajor : LexicalGrammar.IsNumber major)
    (hminor : LexicalGrammar.IsNumber minor)
    (hparts : (if version = Version.development then (['0'], ['0']) else Version.parts version) =
      (major, minor)) :
    ∃ text, (versionSnippet version).insertText = some text ∧
      fillIn text = "version " ++ (String.ofList major ++ "." ++ String.ofList minor) := by
  rw [versionSnippet, hparts]
  refine ⟨_, rfl, ?_⟩
  have hbrace : '}'.isDigit = false := rfl
  have htext : ("version $\x7b1:" ++ String.ofList major ++ "\x7d.$\x7b2:" ++ String.ofList minor ++
      "\x7d").toList = "version ".toList ++ '$' :: '{' :: (['1'] ++ ':' :: (major ++ '}' ::
        (['.'] ++ '$' :: '{' :: (['2'] ++ ':' :: (minor ++ '}' :: []))))) := by simp
  rw [fillIn, htext, filled_append (by decide),
    filled_place (by decide) (Version.not_mem_of_isNumber hmajor hbrace),
    filled_append (by decide),
    filled_place (by decide) (Version.not_mem_of_isNumber hminor hbrace), filled]
  apply String.toList_injective
  simp

/-- For a compiler of any version, the version snippet is offered, and with its defaults it makes a
source without any diagnostic behind a name. -/
theorem compile_versionSnippet
    (h : version = Version.development ∨ ∃ v : Version.Number, version = v.text)
    (ds : List Declaration) (hword : word <+: "version".toList) :
    ∃ i text, (items version ds word).filter (·.isVersionSnippet) = [i] ∧
      i.insertText = some text ∧
      (compile version ("name a\n" ++ fillIn text)).diagnostics = [] := by
  obtain ⟨v, hparts, hfits⟩ := exists_proposed h
  obtain ⟨text, htext, hfilled⟩ := exists_insertText v.isNumber_major v.isNumber_minor hparts
  refine ⟨versionSnippet version, text, filter_isVersionSnippet version ds hword, htext, ?_⟩
  have hname : IsIdentifier "a" := ⟨isWord_of_all rfl (by decide) (by decide), rfl⟩
  have hheader := diagnostics_compile_header hname v.withoutThird.isVersionNumber_text hfits
  rw [hfilled, ← v.withoutThird_text]
  have hsource : "name a\n" ++ ("version " ++ v.withoutThird.text) =
      "name " ++ "a" ++ "\nversion " ++ v.withoutThird.text := by
    apply String.toList_injective
    simp
  rwa [hsource]

theorem compile_versionSnippet_padded :
    ("01.04.7" = Version.development ∨ ∃ v : Version.Number, "01.04.7" = v.text) ∧
    ['v', 'e', 'r'] <+: "version".toList ∧
    ∃ i text, (items "01.04.7" [] ['v', 'e', 'r']).filter (·.isVersionSnippet) = [i] ∧
      i.insertText = some text ∧
      (compile "01.04.7" ("name a\n" ++ fillIn text)).diagnostics = [] := by
  have h : "01.04.7" = Version.development ∨ ∃ v : Version.Number, "01.04.7" = v.text :=
    .inr ⟨⟨['0', '1'], [['0', '4'], ['7']], by decide, by decide, by decide, by decide⟩, by decide⟩
  have hword : ['v', 'e', 'r'] <+: "version".toList := by decide
  exact ⟨h, hword, compile_versionSnippet h [] hword⟩

-- What has no number or is not closed is no place to fill in.
example : fillIn "a $\x7b1:b\x7d$\x7b:c\x7d$\x7b2:d" = "a b$\x7b:c\x7d$\x7b2:d" := by cbv

end Snippet

end Completion

end GameSchema
