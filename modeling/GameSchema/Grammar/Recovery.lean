import GameSchema.Grammar.Stream

/-!
# Recovery

Where reading goes on after a mistake. A bad item ends at the next comma of its own block or before
the brace that closes it; a bad declaration ends with its block. Every function answers with the
tokens that are left, which are a suffix of the tokens given.
-/

namespace GameSchema.Recovery

/-- The tokens after the block that is open, inside which `depth` further blocks are open. -/
def skipBody : Nat → List Token → List Token
  | _, [] => []
  | depth, t :: ts =>
    match t.kind with
    | .openCurly => skipBody (depth + 1) ts
    | .closeCurly =>
      match depth with
      | 0 => ts
      | depth + 1 => skipBody depth ts
    | _ => skipBody depth ts

/-- The tokens after a declaration whose block is not open yet. A keyword before the block belongs
to the next declaration. -/
def skipDeclaration : List Token → List Token
  | [] => []
  | t :: ts =>
    match t.kind with
    | .openCurly => skipBody 0 ts
    | .declaration _ => t :: ts
    | _ => skipDeclaration ts

/-- The tokens after an item, `depth` blocks inside of which are open. In the item's own block it
ends with a comma, or before a closing brace or a keyword that opens no type. -/
def skipItem : Nat → List Token → List Token
  | _, [] => []
  | 0, t :: ts =>
    match t.kind with
    | .comma => ts
    | .closeCurly => t :: ts
    | .declaration k => if k.isType then skipItem 0 ts else t :: ts
    | .openCurly => skipItem 1 ts
    | _ => skipItem 0 ts
  | depth + 1, t :: ts =>
    match t.kind with
    | .closeCurly => skipItem depth ts
    | .openCurly => skipItem (depth + 2) ts
    | _ => skipItem (depth + 1) ts

/-- The tokens after an item that starts with `t`, where no item can start, and goes on with
`ts`. -/
def skipStray (t : Token) (ts : List Token) : List Token :=
  match t.kind with
  | .comma => ts
  | .openCurly => skipItem 1 ts
  | _ => skipItem 0 ts

theorem skipBody_suffix (depth : Nat) (ts : List Token) : skipBody depth ts <:+ ts := by
  induction ts generalizing depth with
  | nil => exact List.suffix_refl _
  | cons t ts ih =>
    simp only [skipBody]
    split
    · exact (ih _).trans (List.suffix_cons t ts)
    · cases depth with
      | zero => exact List.suffix_cons t ts
      | succ depth => exact (ih _).trans (List.suffix_cons t ts)
    · exact (ih _).trans (List.suffix_cons t ts)

theorem skipDeclaration_suffix (ts : List Token) : skipDeclaration ts <:+ ts := by
  induction ts with
  | nil => exact List.suffix_refl _
  | cons t ts ih =>
    simp only [skipDeclaration]
    split
    · exact (skipBody_suffix 0 ts).trans (List.suffix_cons t ts)
    · exact List.suffix_refl _
    · exact ih.trans (List.suffix_cons t ts)

theorem skipItem_suffix (depth : Nat) (ts : List Token) : skipItem depth ts <:+ ts := by
  induction ts generalizing depth with
  | nil => cases depth <;> exact List.suffix_refl _
  | cons t ts ih =>
    have step (n : Nat) : skipItem n ts <:+ t :: ts := (ih n).trans (List.suffix_cons t ts)
    cases depth with
    | zero =>
      simp only [skipItem]
      split
      · exact List.suffix_cons t ts
      · exact List.suffix_refl _
      · split
        · exact step 0
        · exact List.suffix_refl _
      · exact step 1
      · exact step 0
    | succ depth =>
      simp only [skipItem]
      split <;> exact step _

theorem skipStray_suffix (t : Token) (ts : List Token) : skipStray t ts <:+ ts := by
  simp only [skipStray]
  split
  · exact List.suffix_refl _
  · exact skipItem_suffix 1 ts
  · exact skipItem_suffix 0 ts

/-- At a token that ends no item, skipping the item starts with that token. -/
theorem skipItem_eq_skipStray {t : Token} {ts : List Token} (hc : t.kind ≠ .closeCurly)
    (hd : t.kind.startsDeclaration = false) : skipItem 0 (t :: ts) = skipStray t ts := by
  cases hk : t.kind <;>
    simp_all [skipItem, skipStray, TokenKind.startsDeclaration, TokenKind.declaration?]

end GameSchema.Recovery
