import GameSchema.Proofs.Grammar.Soundness

/-!
# Unambiguity of the grammar

Tokens spell one tree at most. What a rule reads starts with the comments in front of it and a token
whose kind decides between the rules, so two derivations of the same tokens go the same way. The
tokens that are left behind a type, an item or a block are the same for both.
-/

namespace GameSchema.Grammar
open Token

section Comments

variable {bs cs ts us : List Token} {t u : Token}

theorem allComments_nil : AllComments [] := nofun

/-- The comments in front of a token end where the token is. -/
theorem comments_inj (hbs : AllComments bs) (hcs : AllComments cs) (ht : t.kind ≠ .comment)
    (hu : u.kind ≠ .comment) (h : bs ++ t :: ts = cs ++ u :: us) : bs = cs ∧ t = u ∧ ts = us := by
  have hafter := congrArg afterComments h
  rw [hbs.after_cons ht, hcs.after_cons hu] at hafter
  rw [hafter, List.append_left_inj] at h
  exact ⟨h, List.cons.inj hafter⟩

end Comments

theorem declarationKind_inj {t : Token} {k l : DeclarationKind} (hk : t.kind = .declaration k)
    (hl : t.kind = .declaration l) : k = l := by
  rw [hk] at hl
  cases hl
  rfl

section Derivations

variable {ts us ws vs : List Token}

/-- An item starts with its comments and its name. -/
theorem SpellsItem.exists_name {k : DeclarationKind} {i : ItemTree} (h : SpellsItem k i ts us) :
    ∃ cs name vs, AllComments cs ∧ name.kind = .identifier ∧ ts = cs ++ name :: vs := by
  cases h with
  | value hcs hn => exact ⟨_, _, _, hcs, hn, rfl⟩
  | field hk hcs hn hc ht => exact ⟨_, _, _, hcs, hn, rfl⟩

/-- Where a block is closed, no item starts. -/
theorem SpellsItem.ne_close {k : DeclarationKind} {i : ItemTree} (h : SpellsItem k i ts us)
    {cs : List Token} {c : Token} (hcs : AllComments cs) (hc : c.kind = .closeCurly) :
    ts ≠ cs ++ c :: vs := by
  intro hts
  obtain ⟨bs, name, ws, hbs, hn, rfl⟩ := h.exists_name
  obtain ⟨-, rfl, -⟩ := comments_inj hbs hcs (by simp [hn]) (by simp [hc]) hts
  rw [hn] at hc
  cases hc

/-- Where a comma goes on with a block, the block is not closed. -/
theorem cons_ne_close {cs us : List Token} {m c : Token} (hm : m.kind = .comma)
    (hcs : AllComments cs) (hc : c.kind = .closeCurly) : m :: us ≠ cs ++ c :: vs := by
  intro h
  obtain ⟨-, rfl, -⟩ := comments_inj allComments_nil hcs (by simp [hm]) (by simp [hc]) h
  rw [hm] at hc
  cases hc

mutual

theorem SpellsType.unique {s t : TypeTree} {ts us vs : List Token} (h : SpellsType t ts us)
    (h' : SpellsType s ts vs) : t = s ∧ us = vs := by
  match h with
  | .scalar hw =>
    cases h' with
    | scalar hw' => exact ⟨rfl, rfl⟩
    | reference hw' => rw [hw] at hw'; cases hw'
    | generic hw' hl' he' hg' => rw [hw] at hw'; cases hw'
    | inline hw' hk' hn' ho' hb' => rw [hw] at hw'; cases hw'
  | .reference hw =>
    cases h' with
    | scalar hw' => rw [hw] at hw'; cases hw'
    | reference hw' => exact ⟨rfl, rfl⟩
    | generic hw' hl' he' hg' => rw [hw] at hw'; cases hw'
    | inline hw' hk' hn' ho' hb' => rw [hw] at hw'; cases hw'
  | .generic hw hl he hg =>
    cases h' with
    | scalar hw' => rw [hw] at hw'; cases hw'
    | reference hw' => rw [hw] at hw'; cases hw'
    | generic hw' hl' he' hg' =>
      obtain ⟨rfl, hrest⟩ := he.unique he'
      cases hrest
      exact ⟨rfl, rfl⟩
    | inline hw' hk' hn' ho' hb' => rw [hw] at hw'; cases hw'
  | .inline hw hk hn ho hb =>
    cases h' with
    | scalar hw' => rw [hw] at hw'; cases hw'
    | reference hw' => rw [hw] at hw'; cases hw'
    | generic hw' hl' he' hg' => rw [hw] at hw'; cases hw'
    | inline hw' hk' hn' ho' hb' =>
      obtain rfl := declarationKind_inj hw hw'
      obtain ⟨rfl, rfl⟩ := hb.unique hb' rfl
      exact ⟨rfl, rfl⟩

theorem SpellsItem.unique {k : DeclarationKind} {i j : ItemTree} {ts us ws vs : List Token}
    (h : SpellsItem k i ts us) (h' : SpellsItem k j ws vs) (hts : ts = ws) :
    i = j ∧ us = vs := by
  match h with
  | .value hcs hn =>
    cases h' with
    | value hcs' hn' =>
      obtain ⟨rfl, rfl, rfl⟩ := comments_inj hcs hcs' (by simp [hn]) (by simp [hn']) hts
      exact ⟨rfl, rfl⟩
    | field hk' hcs' hn' hc' ht' => exact absurd rfl hk'
  | .field hk hcs hn hc ht =>
    cases h' with
    | value hcs' hn' => exact absurd rfl hk
    | field hk' hcs' hn' hc' ht' =>
      obtain ⟨rfl, rfl, hrest⟩ := comments_inj hcs hcs' (by simp [hn]) (by simp [hn']) hts
      obtain ⟨rfl, rfl⟩ := List.cons.inj hrest
      obtain ⟨rfl, rfl⟩ := ht.unique ht'
      exact ⟨rfl, rfl⟩

theorem SpellsItems.unique {k : DeclarationKind} {is js : ItemsTree} {ts us ws vs : List Token}
    (h : SpellsItems k is ts us) (h' : SpellsItems k js ws vs) (hts : ts = ws) :
    is = js ∧ us = vs := by
  match h with
  | .close hcs hc =>
    cases h' with
    | close hcs' hc' =>
      obtain ⟨-, -, rfl⟩ := comments_inj hcs hcs' (by simp [hc]) (by simp [hc']) hts
      exact ⟨rfl, rfl⟩
    | last hi' hcs' hc' => exact absurd hts.symm (hi'.ne_close hcs hc)
    | comma hi' hc' hr' => exact absurd hts.symm (hi'.ne_close hcs hc)
  | .last hi hcs hc =>
    cases h' with
    | close hcs' hc' => exact absurd hts (hi.ne_close hcs' hc')
    | last hi' hcs' hc' =>
      obtain ⟨rfl, hrest⟩ := hi.unique hi' hts
      obtain ⟨-, -, rfl⟩ := comments_inj hcs hcs' (by simp [hc]) (by simp [hc']) hrest
      exact ⟨rfl, rfl⟩
    | comma hi' hc' hr' =>
      obtain ⟨-, hrest⟩ := hi.unique hi' hts
      exact absurd hrest.symm (cons_ne_close hc' hcs hc)
  | .comma hi hc hr =>
    cases h' with
    | close hcs' hc' => exact absurd hts (hi.ne_close hcs' hc')
    | last hi' hcs' hc' =>
      obtain ⟨-, hrest⟩ := hi.unique hi' hts
      exact absurd hrest (cons_ne_close hc hcs' hc')
    | comma hi' hc' hr' =>
      obtain ⟨rfl, hrest⟩ := hi.unique hi' hts
      obtain ⟨rfl, rfl⟩ := List.cons.inj hrest
      obtain ⟨rfl, rfl⟩ := hr.unique hr' rfl
      exact ⟨rfl, rfl⟩

end

theorem SpellsDeclaration.unique {s t : DeclarationTree} (h : SpellsDeclaration t ts us)
    (h' : SpellsDeclaration s ws vs) (hts : ts = ws) : t = s ∧ us = vs := by
  cases h with
  | config hcs hw ho hb =>
    cases h' with
    | config hcs' hw' ho' hb' =>
      obtain ⟨rfl, rfl, hrest⟩ := comments_inj hcs hcs' (by simp [hw]) (by simp [hw']) hts
      obtain ⟨rfl, rfl⟩ := hb.unique hb' (List.cons.inj hrest).2
      exact ⟨rfl, rfl⟩
    | named hcs' hw' hk' hn' ho' hb' =>
      obtain ⟨-, rfl, -⟩ := comments_inj hcs hcs' (by simp [hw]) (by simp [hw']) hts
      exact absurd (declarationKind_inj hw' hw) hk'
  | named hcs hw hk hn ho hb =>
    cases h' with
    | config hcs' hw' ho' hb' =>
      obtain ⟨-, rfl, -⟩ := comments_inj hcs hcs' (by simp [hw]) (by simp [hw']) hts
      exact absurd (declarationKind_inj hw hw') hk
    | named hcs' hw' hk' hn' ho' hb' =>
      obtain ⟨rfl, rfl, hrest⟩ := comments_inj hcs hcs' (by simp [hw]) (by simp [hw']) hts
      obtain rfl := declarationKind_inj hw hw'
      simp only [List.cons.injEq] at hrest
      obtain ⟨rfl, -, hrest⟩ := hrest
      obtain ⟨rfl, rfl⟩ := hb.unique hb' hrest
      exact ⟨rfl, rfl⟩

theorem SpellsDeclaration.not_allComments {t : DeclarationTree} (h : SpellsDeclaration t ts us) :
    ¬ AllComments ts := by
  intro hall
  have keyword {cs vs : List Token} {w : Token} {k : DeclarationKind}
      (hw : w.kind = .declaration k) : ¬ AllComments (cs ++ w :: vs) := by
    intro hall
    have hcomment := hall w (List.mem_append_right _ List.mem_cons_self)
    simp [isComment, hw] at hcomment
  cases h with
  | config hcs hw ho hb => exact keyword hw hall
  | named hcs hw hk hn ho hb => exact keyword hw hall

theorem SpellsDeclarations.unique {ds es : List DeclarationTree} (h : SpellsDeclarations ds ts)
    (h' : SpellsDeclarations es ts) : ds = es := by
  induction h generalizing es with
  | done hcs =>
    cases h' with
    | done hcs' => rfl
    | cons ht' h' => exact absurd hcs ht'.not_allComments
  | cons ht h ih =>
    cases h' with
    | done hcs' => exact absurd hcs' ht.not_allComments
    | cons ht' h' =>
      obtain ⟨rfl, rfl⟩ := ht.unique ht' rfl
      rw [ih h']

/-- The grammar is unambiguous. -/
theorem SpellsFile.unique {f g : FileTree} (h : SpellsFile f ts) (h' : SpellsFile g ws)
    (hts : ts = ws) : f = g := by
  cases h with
  | mk hcs hn hname hv hversion hds he =>
    cases h' with
    | mk hcs' hn' hname' hv' hversion' hds' he' =>
      obtain ⟨rfl, rfl, hrest⟩ := comments_inj hcs hcs' (by simp [hn]) (by simp [hn']) hts
      simp only [List.cons.injEq] at hrest
      obtain ⟨rfl, rfl, rfl, hrest⟩ := hrest
      obtain ⟨rfl, -⟩ := List.append_inj' hrest rfl
      rw [hds.unique hds']

end Derivations

end GameSchema.Grammar
