import GameSchema.Proofs.Grammar.Tree
import GameSchema.Proofs.Schema.Resolution

/-!
# The declarations of a tree

Facts about the declarations that a tree describes: how many there are, which kinds and names they
have, and what becomes of them when references are bound.
-/

namespace GameSchema.Grammar
open Token

/-- Nothing is bound yet. -/
abbrev unbound : String → Option Nat := fun _ => none

section Counting

variable (find : String → Option Nat)

mutual

theorem length_hoistedType (n : Nat) (cs : List Token) (t : TypeTree) :
    (t.hoisted find n cs).length = t.inlined := by
  match t with
  | .scalar _ => rfl
  | .reference _ => rfl
  | .generic _ e => exact length_hoistedType n [] e
  | .inline _ _ is => simp [TypeTree.hoisted, TypeTree.inlined, length_hoistedItems n is]

theorem length_hoistedItem (n : Nat) (i : ItemTree) : (i.hoisted find n).length = i.inlined := by
  match i with
  | .value _ _ => rfl
  | .field cs _ t => exact length_hoistedType n cs t

theorem length_hoistedItems (n : Nat) (is : ItemsTree) :
    (is.hoisted find n).length = is.inlined := by
  match is with
  | .nil => rfl
  | .cons i is =>
    simp [ItemsTree.hoisted, ItemsTree.inlined, length_hoistedItem n i,
      length_hoistedItems (n + i.inlined) is]

end

end Counting

theorem length_flatten (find : String → Option Nat) (n : Nat) (t : DeclarationTree) :
    (t.flatten find n).length = t.items.inlined + 1 := by
  simp [DeclarationTree.flatten, length_hoistedItems]

section Linking

variable (find : String → Option Nat)

mutual

/-- Binding references turns what a tree describes without bindings into what it describes. -/
theorem SpellsType.link {t : TypeTree} {ts us : List Token} (h : SpellsType t ts us) (n : Nat)
    (cs : List Token) : (t.type unbound n).link find = t.type find n ∧
      (t.hoisted unbound n cs).map (·.link find) = t.hoisted find n cs := by
  match h with
  | .scalar hw => simp [TypeTree.type, TypeTree.hoisted, PropertyType.link, Token.bind, hw]
  | .reference hw => simp [TypeTree.type, TypeTree.hoisted, PropertyType.link, Token.bind, hw]
  | .generic hw hl he hg =>
    obtain ⟨htype, hhoisted⟩ := he.link n []
    simp [TypeTree.type, TypeTree.hoisted, PropertyType.link, Token.bind, hw, htype, hhoisted]
  | .inline hw hk hn ho hb =>
    obtain ⟨hproperties, hhoisted⟩ := hb.link n
    simp [TypeTree.type, TypeTree.hoisted, PropertyType.link, Token.bind, hproperties, hhoisted]

theorem SpellsItem.link {k : DeclarationKind} {i : ItemTree} {ts us : List Token}
    (h : SpellsItem k i ts us) (n : Nat) :
    (i.property unbound n).link find = i.property find n ∧
      (i.hoisted unbound n).map (·.link find) = i.hoisted find n := by
  match h with
  | .value hcs hn => exact ⟨rfl, rfl⟩
  | @SpellsItem.field _ cs _ _ _ _ _ hk hcs hn hc ht =>
    obtain ⟨htype, hhoisted⟩ := ht.link n cs
    simp [ItemTree.property, ItemTree.hoisted, Property.link, htype, hhoisted]

theorem SpellsItems.link {k : DeclarationKind} {is : ItemsTree} {ts us : List Token}
    (h : SpellsItems k is ts us) (n : Nat) :
    (is.properties unbound n).map (·.link find) = is.properties find n ∧
      (is.hoisted unbound n).map (·.link find) = is.hoisted find n := by
  match h with
  | .close hcs hc => exact ⟨rfl, rfl⟩
  | .last hi hcs hc =>
    obtain ⟨hproperty, hhoisted⟩ := hi.link n
    simp [ItemsTree.properties, ItemsTree.hoisted, hproperty, hhoisted]
  | @SpellsItems.comma _ i _ _ _ _ _ hi hc hr =>
    obtain ⟨hproperty, hhoisted⟩ := hi.link n
    obtain ⟨hproperties, hrest⟩ := hr.link (n + i.inlined)
    simp [ItemsTree.properties, ItemsTree.hoisted, hproperty, hhoisted, hproperties, hrest]

end

mutual

theorem SpellsType.isType_of_mem {t : TypeTree} {ts us : List Token} (h : SpellsType t ts us)
    {n : Nat} {cs : List Token} {x : Declaration} (hx : x ∈ t.hoisted find n cs) :
    x.isType = true := by
  match h with
  | .scalar hw => cases hx
  | .reference hw => cases hx
  | .generic hw hl he hg => exact he.isType_of_mem hx
  | .inline hw hk hn ho hb =>
    rcases List.mem_append.1 hx with hx | hx
    · exact hb.isType_of_mem hx
    · rw [List.mem_singleton] at hx
      rw [hx]
      exact hk

theorem SpellsItem.isType_of_mem {k : DeclarationKind} {i : ItemTree} {ts us : List Token}
    (h : SpellsItem k i ts us) {n : Nat} {x : Declaration} (hx : x ∈ i.hoisted find n) :
    x.isType = true := by
  match h with
  | .value hcs hn => cases hx
  | .field hk hcs hn hc ht => exact ht.isType_of_mem hx

theorem SpellsItems.isType_of_mem {k : DeclarationKind} {is : ItemsTree} {ts us : List Token}
    (h : SpellsItems k is ts us) {n : Nat} {x : Declaration} (hx : x ∈ is.hoisted find n) :
    x.isType = true := by
  match h with
  | .close hcs hc => cases hx
  | .last hi hcs hc =>
    rcases List.mem_append.1 hx with hx | hx
    · exact hi.isType_of_mem hx
    · cases hx
  | .comma hi hc hr =>
    rcases List.mem_append.1 hx with hx | hx
    · exact hi.isType_of_mem hx
    · exact hr.isType_of_mem hx

end

theorem SpellsDeclaration.link {t : DeclarationTree} {ts us : List Token}
    (h : SpellsDeclaration t ts us) (n : Nat) :
    (t.flatten unbound n).map (·.link find) = t.flatten find n := by
  cases h with
  | config hcs hw ho hb =>
    obtain ⟨hproperties, hhoisted⟩ := hb.link find n
    simp [DeclarationTree.flatten, hproperties, hhoisted]
  | named hcs hw hk hn ho hb =>
    obtain ⟨hproperties, hhoisted⟩ := hb.link find n
    simp [DeclarationTree.flatten, hproperties, hhoisted]

theorem SpellsDeclarations.link {ds : List DeclarationTree} {ts : List Token}
    (h : SpellsDeclarations ds ts) (n : Nat) :
    (flattenAll unbound n ds).map (·.link find) = flattenAll find n ds := by
  induction h generalizing n with
  | done hcs => rfl
  | cons ht h ih => simp [flattenAll, ht.link, ih]

/-- Only a declaration at the top level can be a config. -/
theorem SpellsDeclaration.any_config {t : DeclarationTree} {ts us : List Token}
    (h : SpellsDeclaration t ts us) (n : Nat) :
    ((t.flatten find n).any fun x => x.kind == .config) = (t.kind == .config) := by
  have inner {k : DeclarationKind} {is : ItemsTree} {ts us : List Token}
      (hb : SpellsItems k is ts us) :
      ((is.hoisted find n).any fun x => x.kind == .config) = false := by
    rw [List.any_eq_false]
    intro x hx hk
    have htype := hb.isType_of_mem find hx
    rw [Declaration.isType, beq_iff_eq.1 hk] at htype
    cases htype
  cases h with
  | config hcs hw ho hb => simp [DeclarationTree.flatten, inner hb]
  | named hcs hw hk hn ho hb => simp [DeclarationTree.flatten, inner hb]

theorem SpellsDeclarations.any_config {ds : List DeclarationTree} {ts : List Token}
    (h : SpellsDeclarations ds ts) (n : Nat) :
    ((flattenAll find n ds).any fun x => x.kind == .config) =
      ds.any fun t => t.kind == .config := by
  induction h generalizing n with
  | done hcs => rfl
  | cons ht h ih => simp [flattenAll, ht.any_config, ih]

end Linking

section Keys

variable (find : String → Option Nat)

theorem keys_append_singleton {ds : List Declaration} {names : List (Namespace × String)}
    (h : (keys ds).Perm names) {x : Declaration} {n : Namespace} (hx : x.kind.scope? = some n) :
    (keys (ds ++ [x])).Perm ((n, x.name) :: names) := by
  have hkey : keys [x] = [(n, x.name)] := by simp [keys, Declaration.key?, hx]
  rw [keys_append, hkey]
  exact (List.perm_append_singleton _ _).trans (h.cons _)

mutual

/-- The declarations inside a tree have the names that the tree declares. -/
theorem SpellsType.keys_perm {t : TypeTree} {ts us : List Token} (h : SpellsType t ts us)
    (n : Nat) (cs : List Token) : (keys (t.hoisted find n cs)).Perm t.names := by
  match h with
  | .scalar hw => exact .nil
  | .reference hw => exact .nil
  | .generic hw hl he hg => exact he.keys_perm n []
  | .inline hw hk hn ho hb =>
    exact keys_append_singleton (hb.keys_perm n)
      (by simpa [DeclarationKind.isType] using hk)

theorem SpellsItem.keys_perm {k : DeclarationKind} {i : ItemTree} {ts us : List Token}
    (h : SpellsItem k i ts us) (n : Nat) : (keys (i.hoisted find n)).Perm i.names := by
  match h with
  | .value hcs hn => exact .nil
  | .field hk hcs hn hc ht => exact ht.keys_perm n _

theorem SpellsItems.keys_perm {k : DeclarationKind} {is : ItemsTree} {ts us : List Token}
    (h : SpellsItems k is ts us) (n : Nat) : (keys (is.hoisted find n)).Perm is.names := by
  match h with
  | .close hcs hc => exact .nil
  | .last hi hcs hc =>
    simp only [ItemsTree.hoisted, ItemsTree.names, List.append_nil]
    exact hi.keys_perm n
  | .comma hi hc hr =>
    simp only [ItemsTree.hoisted, ItemsTree.names, keys_append]
    exact (hi.keys_perm n).append (hr.keys_perm _)

end

theorem SpellsDeclaration.keys_perm {t : DeclarationTree} {ts us : List Token}
    (h : SpellsDeclaration t ts us) (n : Nat) : (keys (t.flatten find n)).Perm t.names := by
  cases h with
  | config hcs hw ho hb =>
    have hperm := hb.keys_perm find n
    simpa [DeclarationTree.flatten, DeclarationTree.names, keys, Declaration.key?,
      DeclarationKind.scope?] using hperm
  | @named cs w k name o is ts us hcs hw hk hn ho hb =>
    obtain ⟨m, hscope⟩ := DeclarationKind.exists_scope hk
    have hperm := keys_append_singleton (hb.keys_perm find n)
      (x := ⟨k, name.lexeme, some name, texts cs, is.properties find n⟩) hscope
    simpa [DeclarationTree.flatten, DeclarationTree.names, hk, hscope] using hperm

theorem SpellsDeclarations.keys_perm {ds : List DeclarationTree} {ts : List Token}
    (h : SpellsDeclarations ds ts) (n : Nat) :
    (keys (flattenAll find n ds)).Perm (ds.flatMap (·.names)) := by
  induction h generalizing n with
  | done hcs => exact .nil
  | cons ht h ih =>
    simp only [flattenAll, List.flatMap_cons, keys_append]
    exact (ht.keys_perm find n).append (ih _)

end Keys

/-- Binding the references of a file turns its declarations into the objects that it describes. -/
theorem SpellsFile.finishDeclarations_eq {f : FileTree} {ts : List Token} (h : SpellsFile f ts) :
    finishDeclarations (flattenAll unbound 0 f.declarations) = f.objects := by
  obtain ⟨us, hds⟩ := h.declarations
  have hplace : typeIndex? (flattenAll unbound 0 f.declarations) = f.place? := by
    funext name
    rfl
  have hlink : linkAll (flattenAll unbound 0 f.declarations) =
      flattenAll f.place? 0 f.declarations := by
    rw [linkAll, hplace, hds.link]
  have hany : (f.declarations.any fun t => t.kind == .config) = true ↔ f.configs ≠ 0 := by
    simp [FileTree.configs, List.countP_eq_zero]
  rw [finishDeclarations, hlink, withConfig, hds.any_config, FileTree.objects]
  by_cases hc : f.configs = 0
  · rw [if_neg (by rw [hany]; exact not_not_intro hc), if_pos hc]
  · rw [if_pos (hany.2 hc), if_neg hc]

end GameSchema.Grammar
