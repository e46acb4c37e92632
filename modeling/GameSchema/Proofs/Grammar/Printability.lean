import GameSchema.Proofs.Grammar.Flattening
import GameSchema.Proofs.Schema.Printed

/-!
# Declarations that can be printed

The tokens of a source have the texts of their kinds. So whatever is read of a file can be written
again: its names are identifiers, its types are words, and each of its comments fits on a line.
-/

namespace GameSchema

section Tokens

variable {t : Token}

theorem Token.Lexical.identifier (h : t.Lexical) (hk : t.kind = .identifier) :
    IsIdentifier t.lexeme := by
  obtain ⟨hword, hkind⟩ := h.word (by rw [hk]; rfl)
  exact ⟨hword, hkind.trans hk⟩

theorem Token.unplaced_identifier (hk : t.kind = .identifier) :
    t.unplaced = ⟨.identifier, t.lexeme, .origin⟩ := by
  rw [← hk]
  rfl

/-- The keyword of a config is always the same word. -/
theorem Token.Lexical.config (h : t.Lexical) (hk : t.kind = .declaration .config) :
    t.unplaced = .symbol (.declaration .config) := by
  have hkeywords : ∀ e ∈ keywords, e.2 = .declaration .config → e.1 = "config" := by decide
  obtain ⟨-, hkind⟩ := h.word (by rw [hk]; rfl)
  rw [hk, wordKind, keyword?] at hkind
  cases hlookup : keywords.lookup t.lexeme with
  | none =>
    rw [hlookup] at hkind
    cases hkind
  | some k =>
    obtain rfl : k = .declaration .config := by simpa [hlookup] using hkind
    obtain ⟨before, after, hsplit, -⟩ := List.lookup_eq_some_iff.1 hlookup
    have hlexeme : t.lexeme = "config" :=
      hkeywords (t.lexeme, .declaration .config) (by rw [hsplit]; simp) rfl
    cases t
    cases hk
    cases hlexeme
    rfl

end Tokens

namespace Grammar
open Token

/-- The texts of tokens are those of their kinds. -/
def AllLexical (ts : List Token) : Prop := ∀ t ∈ ts, t.Lexical

section Lexical

variable {t : Token} {ts us : List Token}

theorem AllLexical.head (h : AllLexical (t :: ts)) : t.Lexical := h t List.mem_cons_self

theorem AllLexical.tail (h : AllLexical (t :: ts)) : AllLexical ts :=
  fun u hu => h u (List.mem_cons_of_mem t hu)

theorem AllLexical.left (h : AllLexical (ts ++ us)) : AllLexical ts :=
  fun u hu => h u (List.mem_append_left us hu)

theorem AllLexical.right (h : AllLexical (ts ++ us)) : AllLexical us :=
  fun u hu => h u (List.mem_append_right ts hu)

theorem AllLexical.texts (h : AllLexical ts) (hts : AllComments ts) :
    ∀ s ∈ Grammar.texts ts, IsCommentText s := by
  intro s hs
  obtain ⟨t, ht, rfl⟩ := List.mem_map.1 hs
  exact (h t ht).comment (beq_iff_eq.1 (hts t ht))

end Lexical

theorem printable_emptyConfig : Declaration.emptyConfig.Printable where
  comments := nofun
  properties := nofun
  config _ := ⟨rfl, nofun⟩
  named h := absurd rfl h

theorem printable_named {k : DeclarationKind} {name : Token} {cs : List String}
    {ps : List Property} (hk : k ≠ .config) (hn : name.kind = .identifier) (hname : name.Lexical)
    (hcs : ∀ s ∈ cs, IsCommentText s) (hps : ∀ p ∈ ps, p.Printable k) :
    (Declaration.mk k name.lexeme (some name) cs ps).Printable where
  comments := hcs
  properties := hps
  config h := absurd h hk
  named _ := ⟨hname.identifier hn, name, rfl, unplaced_identifier hn⟩

variable (find : String → Option Nat)

mutual

/-- What is read of a type can be printed, and so can the declarations inside of it. -/
theorem SpellsType.printable {t : TypeTree} {ts us : List Token} (h : SpellsType t ts us)
    (hts : AllLexical ts) (n : Nat) {cs : List Token} (hcs : ∀ s ∈ texts cs, IsCommentText s) :
    AllLexical us ∧ (t.type find n).Printable ∧ ∀ x ∈ t.hoisted find n cs, x.Printable := by
  match h with
  | .scalar hw => exact ⟨hts.tail, ⟨.inl (by rw [hw]; rfl), hts.head⟩, List.forall_mem_nil _⟩
  | .reference hw => exact ⟨hts.tail, ⟨.inr hw, hts.head⟩, List.forall_mem_nil _⟩
  | .generic hw hl he hg =>
    have hnone : ∀ s ∈ texts [], IsCommentText s := List.forall_mem_nil _
    obtain ⟨hus, htype, hhoisted⟩ := he.printable hts.tail.tail n hnone
    exact ⟨hus.tail, ⟨by rw [hw]; rfl, hts.head, htype⟩, hhoisted⟩
  | .inline hw hk hn ho hb =>
    obtain ⟨hus, hproperties, hhoisted⟩ := hb.printable hts.tail.tail.tail n
    refine ⟨hus, ⟨.inr hn, hts.tail.head⟩, List.forall_mem_append.2 ⟨hhoisted, ?_⟩⟩
    rw [List.forall_mem_singleton]
    exact printable_named (by rintro rfl; cases hk) hn hts.tail.head hcs hproperties

theorem SpellsItem.printable {k : DeclarationKind} {i : ItemTree} {ts us : List Token}
    (h : SpellsItem k i ts us) (hts : AllLexical ts) (n : Nat) :
    AllLexical us ∧ (i.property find n).Printable k ∧ ∀ x ∈ i.hoisted find n, x.Printable := by
  match h with
  | .value hcs hn =>
    have hname := hts.right.head
    exact ⟨hts.right.tail,
      ⟨hname.identifier hn, unplaced_identifier hn, ⟨fun _ => rfl, fun _ => rfl⟩, nofun⟩,
      List.forall_mem_nil _⟩
  | .field hk hcs hn hc ht =>
    have hname := hts.right.head
    obtain ⟨hus, htype, hhoisted⟩ :=
      ht.printable hts.right.tail.tail n (hts.left.texts hcs)
    refine ⟨hus, ⟨hname.identifier hn, unplaced_identifier hn, ?_, ?_⟩, hhoisted⟩
    · exact ⟨nofun, fun he => absurd he hk⟩
    · rintro t ⟨⟩
      exact htype

theorem SpellsItems.printable {k : DeclarationKind} {is : ItemsTree} {ts us : List Token}
    (h : SpellsItems k is ts us) (hts : AllLexical ts) (n : Nat) :
    AllLexical us ∧ (∀ p ∈ is.properties find n, p.Printable k) ∧
      ∀ x ∈ is.hoisted find n, x.Printable := by
  match h with
  | .close hcs hc => exact ⟨hts.right.tail, List.forall_mem_nil _, List.forall_mem_nil _⟩
  | .last hi hcs hc =>
    obtain ⟨hmore, hproperty, hhoisted⟩ := hi.printable hts n
    refine ⟨hmore.right.tail, List.forall_mem_cons.2 ⟨hproperty, List.forall_mem_nil _⟩, ?_⟩
    exact List.forall_mem_append.2 ⟨hhoisted, List.forall_mem_nil _⟩
  | .comma hi hc hr =>
    obtain ⟨hmore, hproperty, hhoisted⟩ := hi.printable hts n
    obtain ⟨hus, hproperties, hrest⟩ := hr.printable hmore.tail _
    exact ⟨hus, List.forall_mem_cons.2 ⟨hproperty, hproperties⟩,
      List.forall_mem_append.2 ⟨hhoisted, hrest⟩⟩

end

theorem SpellsDeclaration.printable {t : DeclarationTree} {ts us : List Token}
    (h : SpellsDeclaration t ts us) (hts : AllLexical ts) (n : Nat) :
    AllLexical us ∧ ∀ x ∈ t.flatten find n, x.Printable := by
  cases h with
  | config hcs hw ho hb =>
    obtain ⟨hus, hproperties, hhoisted⟩ := hb.printable find hts.right.tail.tail n
    refine ⟨hus, List.forall_mem_append.2 ⟨hhoisted, ?_⟩⟩
    rw [List.forall_mem_singleton]
    refine ⟨hts.left.texts hcs, hproperties, fun _ => ⟨rfl, ?_⟩, fun hne => absurd rfl hne⟩
    rintro t ⟨⟩
    exact hts.right.head.config hw
  | named hcs hw hk hn ho hb =>
    obtain ⟨hus, hproperties, hhoisted⟩ := hb.printable find hts.right.tail.tail.tail n
    refine ⟨hus, List.forall_mem_append.2 ⟨hhoisted, ?_⟩⟩
    rw [List.forall_mem_singleton, if_neg hk]
    exact printable_named hk hn hts.right.tail.head (hts.left.texts hcs) hproperties

theorem SpellsDeclarations.printable {ds : List DeclarationTree} {ts : List Token}
    (h : SpellsDeclarations ds ts) (hts : AllLexical ts) (n : Nat) :
    ∀ x ∈ flattenAll find n ds, x.Printable := by
  induction h generalizing n with
  | done hcs => exact List.forall_mem_nil _
  | cons ht h ih =>
    obtain ⟨hus, hflatten⟩ := ht.printable find hts n
    exact List.forall_mem_append.2 ⟨hflatten, ih hus _⟩

/-- What is read of a file can be printed. -/
theorem SpellsFile.printable {f : FileTree} {ts : List Token} (h : SpellsFile f ts)
    (hts : AllLexical ts) {c : Compilation} (hmetadata : c.metadata = f.metadata)
    (hdeclarations : c.declarations = f.objects) : c.Printable := by
  cases h with
  | mk hcs hn hname hv hversion hds he =>
    have hrest := hts.right.tail
    have hobjects (find : String → Option Nat) := hds.printable find hrest.tail.tail.tail.left 0
    constructor
    · rw [hmetadata]
      exact hts.left.texts hcs
    · rw [hmetadata]
      exact hrest.head.identifier hname
    · rw [hmetadata]
      exact hrest.tail.tail.head.versionNumber hversion
    · rw [hdeclarations]
      simp only [FileTree.objects]
      split
      · exact List.forall_mem_append.2
          ⟨hobjects _, List.forall_mem_singleton.2 printable_emptyConfig⟩
      · exact hobjects _

end Grammar

end GameSchema
