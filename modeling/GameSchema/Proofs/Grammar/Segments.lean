import GameSchema.Proofs.Grammar.Flattening
import GameSchema.Proofs.Grammar.Reprint

/-!
# Segments of a source

A tree is spelled by a segment of the tokens. The segment spells the tree whatever comes behind it,
so declarations can be cut out of one source and put together to another one. Where its tokens stand
does not matter either: tokens of the same kinds and lexemes spell a tree that is the same up to the
places of its tokens, and describes the same declarations up to them.
-/

namespace GameSchema.Grammar
open Token

section Segments

mutual

/-- The tokens in front of the rest spell a type before any other rest, too. -/
theorem SpellsType.segment {t : TypeTree} {ts us : List Token} (h : SpellsType t ts us) :
    ∃ ws, ts = ws ++ us ∧ ∀ vs, SpellsType t (ws ++ vs) vs := by
  match h with
  | @SpellsType.scalar w _ _ hw => exact ⟨[w], rfl, fun vs => .scalar hw⟩
  | @SpellsType.reference w _ hw => exact ⟨[w], rfl, fun vs => .reference hw⟩
  | @SpellsType.generic w _ l _ _ g _ hw hl he hg =>
    obtain ⟨ws, rfl, hws⟩ := he.segment
    refine ⟨w :: l :: (ws ++ [g]), by simp, ?_⟩
    intro vs
    have hgeneric := SpellsType.generic hw hl (hws (g :: vs)) hg
    simpa using hgeneric
  | @SpellsType.inline w _ name o _ _ _ hw hk hn ho hb =>
    obtain ⟨ws, rfl, hws⟩ := hb.segment
    exact ⟨w :: name :: o :: ws, rfl, fun vs => .inline hw hk hn ho (hws vs)⟩

theorem SpellsItem.segment {k : DeclarationKind} {i : ItemTree} {ts us : List Token}
    (h : SpellsItem k i ts us) : ∃ ws, ts = ws ++ us ∧ ∀ vs, SpellsItem k i (ws ++ vs) vs := by
  match h with
  | @SpellsItem.value cs name _ hcs hn =>
    refine ⟨cs ++ [name], by simp, ?_⟩
    intro vs
    have hvalue := @SpellsItem.value cs name vs hcs hn
    simpa using hvalue
  | @SpellsItem.field _ cs name c _ _ _ hk hcs hn hc ht =>
    obtain ⟨ws, rfl, hws⟩ := ht.segment
    refine ⟨cs ++ name :: c :: ws, by simp, ?_⟩
    intro vs
    have hfield := SpellsItem.field hk hcs hn hc (hws vs)
    simpa using hfield

theorem SpellsItems.segment {k : DeclarationKind} {is : ItemsTree} {ts us : List Token}
    (h : SpellsItems k is ts us) : ∃ ws, ts = ws ++ us ∧ ∀ vs, SpellsItems k is (ws ++ vs) vs := by
  match h with
  | @SpellsItems.close _ cs c _ hcs hc =>
    refine ⟨cs ++ [c], by simp, ?_⟩
    intro vs
    have hclose := @SpellsItems.close k cs c vs hcs hc
    simpa using hclose
  | @SpellsItems.last _ _ _ cs c _ hi hcs hc =>
    obtain ⟨ws, rfl, hws⟩ := hi.segment
    refine ⟨ws ++ (cs ++ [c]), by simp, ?_⟩
    intro vs
    have hlast := SpellsItems.last (hws (cs ++ c :: vs)) hcs hc
    simpa using hlast
  | @SpellsItems.comma _ _ _ _ c _ _ hi hc hr =>
    obtain ⟨ws, rfl, hws⟩ := hi.segment
    obtain ⟨zs, rfl, hzs⟩ := hr.segment
    refine ⟨ws ++ c :: zs, by simp, ?_⟩
    intro vs
    have hcomma := SpellsItems.comma (hws (c :: (zs ++ vs))) hc (hzs vs)
    simpa using hcomma

end

theorem SpellsDeclaration.segment {t : DeclarationTree} {ts us : List Token}
    (h : SpellsDeclaration t ts us) :
    ∃ ws, ts = ws ++ us ∧ ∀ vs, SpellsDeclaration t (ws ++ vs) vs := by
  cases h with
  | @config cs w o _ _ _ hcs hw ho hb =>
    obtain ⟨ws, rfl, hws⟩ := hb.segment
    refine ⟨cs ++ w :: o :: ws, by simp, ?_⟩
    intro vs
    have hconfig := SpellsDeclaration.config hcs hw ho (hws vs)
    simpa using hconfig
  | @named cs w _ name o _ _ _ hcs hw hk hn ho hb =>
    obtain ⟨ws, rfl, hws⟩ := hb.segment
    refine ⟨cs ++ w :: name :: o :: ws, by simp, ?_⟩
    intro vs
    have hnamed := SpellsDeclaration.named hcs hw hk hn ho (hws vs)
    simpa using hnamed

/-- A declaration may stand before others. -/
theorem SpellsDeclaration.append {t : DeclarationTree} {ts : List Token}
    (h : SpellsDeclaration t ts []) (us : List Token) : SpellsDeclaration t (ts ++ us) us := by
  obtain ⟨ws, hts, hws⟩ := h.segment
  rw [List.append_nil] at hts
  rw [hts]
  exact hws us

end Segments

section Unplaced

mutual

/-- A tree without the places of its tokens. -/
def TypeTree.unplaced : TypeTree → TypeTree
  | .scalar w => .scalar w.unplaced
  | .reference name => .reference name.unplaced
  | .generic c e => .generic c.unplaced e.unplaced
  | .inline k name is => .inline k name.unplaced is.unplaced

def ItemTree.unplaced : ItemTree → ItemTree
  | .value cs name => .value (cs.map (·.unplaced)) name.unplaced
  | .field cs name t => .field (cs.map (·.unplaced)) name.unplaced t.unplaced

def ItemsTree.unplaced : ItemsTree → ItemsTree
  | .nil => .nil
  | .cons i is => .cons i.unplaced is.unplaced

end

def DeclarationTree.unplaced (t : DeclarationTree) : DeclarationTree :=
  ⟨t.comments.map (·.unplaced), t.kind, t.name.unplaced, t.items.unplaced⟩

end Unplaced

section Respelling

variable {ts us vs : List Token}

theorem exists_cons_of_unplaced {t : Token}
    (h : vs.map Token.unplaced = (t :: ts).map Token.unplaced) :
    ∃ v ws, vs = v :: ws ∧ v.unplaced = t.unplaced ∧ v.kind = t.kind ∧
      ws.map Token.unplaced = ts.map Token.unplaced := by
  obtain ⟨v, ws, rfl, hv, hws⟩ := List.map_eq_cons_iff.1 h
  exact ⟨v, ws, rfl, hv, (unplaced_eq_iff.1 hv).1, hws⟩

theorem allComments_of_same {cs : List Token} (hcs : AllComments cs)
    (h : us.map Token.unplaced = cs.map Token.unplaced) : AllComments us := by
  intro u hu
  obtain ⟨c, hc, hcu⟩ := List.mem_map.1 (h ▸ List.mem_map_of_mem hu)
  have hcomment := hcs c hc
  rw [isComment, (unplaced_eq_iff.1 hcu).1] at hcomment
  exact hcomment

theorem exists_comments_of_unplaced {cs : List Token} (hcs : AllComments cs)
    (h : vs.map Token.unplaced = (cs ++ ts).map Token.unplaced) :
    ∃ bs ws, vs = bs ++ ws ∧ AllComments bs ∧ bs.map Token.unplaced = cs.map Token.unplaced ∧
      ws.map Token.unplaced = ts.map Token.unplaced := by
  rw [List.map_append] at h
  obtain ⟨bs, ws, rfl, hbs, hws⟩ := List.map_eq_append_iff.1 h
  exact ⟨bs, ws, rfl, allComments_of_same hcs hbs, hbs, hws⟩

mutual

/-- Tokens like those of a type spell a type like it. -/
theorem SpellsType.respell {t : TypeTree} {ts us vs : List Token} (h : SpellsType t ts us)
    (hvs : vs.map Token.unplaced = ts.map Token.unplaced) :
    ∃ s ws, SpellsType s vs ws ∧ s.unplaced = t.unplaced ∧
      ws.map Token.unplaced = us.map Token.unplaced := by
  match h with
  | .scalar hw =>
    obtain ⟨w, ws, rfl, hsame, hkind, hws⟩ := exists_cons_of_unplaced hvs
    exact ⟨_, ws, .scalar (hkind.trans hw), by simp [TypeTree.unplaced, hsame], hws⟩
  | .reference hw =>
    obtain ⟨w, ws, rfl, hsame, hkind, hws⟩ := exists_cons_of_unplaced hvs
    exact ⟨_, ws, .reference (hkind.trans hw), by simp [TypeTree.unplaced, hsame], hws⟩
  | .generic hw hl he hg =>
    obtain ⟨w, ws, rfl, hsame, hkind, hws⟩ := exists_cons_of_unplaced hvs
    obtain ⟨l, ws, rfl, -, hless, hws⟩ := exists_cons_of_unplaced hws
    obtain ⟨e, ws, helement, hlike, hws⟩ := he.respell hws
    obtain ⟨g, ws, rfl, -, hgreater, hws⟩ := exists_cons_of_unplaced hws
    exact ⟨_, ws, .generic (hkind.trans hw) (hless.trans hl) helement (hgreater.trans hg),
      by simp [TypeTree.unplaced, hsame, hlike], hws⟩
  | .inline hw hk hn ho hb =>
    obtain ⟨w, ws, rfl, -, hkind, hws⟩ := exists_cons_of_unplaced hvs
    obtain ⟨name, ws, rfl, hsame, hname, hws⟩ := exists_cons_of_unplaced hws
    obtain ⟨o, ws, rfl, -, hopen, hws⟩ := exists_cons_of_unplaced hws
    obtain ⟨is, ws, hitems, hlike, hws⟩ := hb.respell hws
    exact ⟨_, ws, .inline (hkind.trans hw) hk (hname.trans hn) (hopen.trans ho) hitems,
      by simp [TypeTree.unplaced, hsame, hlike], hws⟩

theorem SpellsItem.respell {k : DeclarationKind} {i : ItemTree} {ts us vs : List Token}
    (h : SpellsItem k i ts us) (hvs : vs.map Token.unplaced = ts.map Token.unplaced) :
    ∃ j ws, SpellsItem k j vs ws ∧ j.unplaced = i.unplaced ∧
      ws.map Token.unplaced = us.map Token.unplaced := by
  match h with
  | .value hcs hn =>
    obtain ⟨cs, ws, rfl, hcomments, hall, hws⟩ := exists_comments_of_unplaced hcs hvs
    obtain ⟨name, ws, rfl, hsame, hname, hws⟩ := exists_cons_of_unplaced hws
    exact ⟨_, ws, .value hcomments (hname.trans hn),
      by simp [ItemTree.unplaced, hall, hsame], hws⟩
  | .field hk hcs hn hc ht =>
    obtain ⟨cs, ws, rfl, hcomments, hall, hws⟩ := exists_comments_of_unplaced hcs hvs
    obtain ⟨name, ws, rfl, hsame, hname, hws⟩ := exists_cons_of_unplaced hws
    obtain ⟨c, ws, rfl, -, hcolon, hws⟩ := exists_cons_of_unplaced hws
    obtain ⟨t, ws, htype, hlike, hws⟩ := ht.respell hws
    exact ⟨_, ws, .field hk hcomments (hname.trans hn) (hcolon.trans hc) htype,
      by simp [ItemTree.unplaced, hall, hsame, hlike], hws⟩

theorem SpellsItems.respell {k : DeclarationKind} {is : ItemsTree} {ts us vs : List Token}
    (h : SpellsItems k is ts us) (hvs : vs.map Token.unplaced = ts.map Token.unplaced) :
    ∃ js ws, SpellsItems k js vs ws ∧ js.unplaced = is.unplaced ∧
      ws.map Token.unplaced = us.map Token.unplaced := by
  match h with
  | .close hcs hc =>
    obtain ⟨cs, ws, rfl, hcomments, -, hws⟩ := exists_comments_of_unplaced hcs hvs
    obtain ⟨c, ws, rfl, -, hclose, hws⟩ := exists_cons_of_unplaced hws
    exact ⟨_, ws, .close hcomments (hclose.trans hc), rfl, hws⟩
  | .last hi hcs hc =>
    obtain ⟨i, ws, hitem, hlike, hws⟩ := hi.respell hvs
    obtain ⟨cs, ws, rfl, hcomments, -, hws⟩ := exists_comments_of_unplaced hcs hws
    obtain ⟨c, ws, rfl, -, hclose, hws⟩ := exists_cons_of_unplaced hws
    exact ⟨_, ws, .last hitem hcomments (hclose.trans hc),
      by simp [ItemsTree.unplaced, hlike], hws⟩
  | .comma hi hc hr =>
    obtain ⟨i, ws, hitem, hlike, hws⟩ := hi.respell hvs
    obtain ⟨c, ws, rfl, -, hcomma, hws⟩ := exists_cons_of_unplaced hws
    obtain ⟨is, ws, hitems, hrest, hws⟩ := hr.respell hws
    exact ⟨_, ws, .comma hitem (hcomma.trans hc) hitems,
      by simp [ItemsTree.unplaced, hlike, hrest], hws⟩

end

theorem SpellsDeclaration.respell {t : DeclarationTree} (h : SpellsDeclaration t ts us)
    (hvs : vs.map Token.unplaced = ts.map Token.unplaced) :
    ∃ s ws, SpellsDeclaration s vs ws ∧ s.unplaced = t.unplaced ∧
      ws.map Token.unplaced = us.map Token.unplaced := by
  cases h with
  | config hcs hw ho hb =>
    obtain ⟨cs, ws, rfl, hcomments, hall, hws⟩ := exists_comments_of_unplaced hcs hvs
    obtain ⟨w, ws, rfl, hsame, hkind, hws⟩ := exists_cons_of_unplaced hws
    obtain ⟨o, ws, rfl, -, hopen, hws⟩ := exists_cons_of_unplaced hws
    obtain ⟨is, ws, hitems, hlike, hws⟩ := hb.respell hws
    exact ⟨_, ws, .config hcomments (hkind.trans hw) (hopen.trans ho) hitems,
      by simp [DeclarationTree.unplaced, hall, hsame, hlike], hws⟩
  | named hcs hw hk hn ho hb =>
    obtain ⟨cs, ws, rfl, hcomments, hall, hws⟩ := exists_comments_of_unplaced hcs hvs
    obtain ⟨w, ws, rfl, -, hkind, hws⟩ := exists_cons_of_unplaced hws
    obtain ⟨name, ws, rfl, hsame, hname, hws⟩ := exists_cons_of_unplaced hws
    obtain ⟨o, ws, rfl, -, hopen, hws⟩ := exists_cons_of_unplaced hws
    obtain ⟨is, ws, hitems, hlike, hws⟩ := hb.respell hws
    exact ⟨_, ws, .named hcomments (hkind.trans hw) hk (hname.trans hn) (hopen.trans ho) hitems,
      by simp [DeclarationTree.unplaced, hall, hsame, hlike], hws⟩

theorem SpellsDeclarations.respell {ds : List DeclarationTree} (h : SpellsDeclarations ds ts)
    (hvs : vs.map Token.unplaced = ts.map Token.unplaced) :
    ∃ es, SpellsDeclarations es vs ∧ es.map (·.unplaced) = ds.map (·.unplaced) := by
  induction h generalizing vs with
  | done hcs => exact ⟨[], .done (allComments_of_same hcs hvs), rfl⟩
  | cons ht h ih =>
    obtain ⟨s, ws, hs, hsame, hws⟩ := ht.respell hvs
    obtain ⟨es, hes, hall⟩ := ih hws
    exact ⟨s :: es, .cons hs hes, by simp [hsame, hall]⟩

end Respelling

end GameSchema.Grammar
