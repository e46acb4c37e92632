import GameSchema.Token.Basic

/-!
# Token streams

The grammar reads the tokens before the first end of file; what follows it does not count. Tokens
that do not end in an end of file get one right after the last token.
-/

namespace GameSchema

/-- The tokens before the end of file, and the end of file itself. -/
structure TokenStream where
  tokens : List Token
  eof : Token

namespace TokenStream

/-- The end of file for tokens that have none. -/
def missingEnd (ts : List Token) : Token :=
  .endOfFile (match ts.getLast? with
    | none => .origin
    | some t => t.stop)

def ofList (ts : List Token) : TokenStream :=
  ⟨ts.takeWhile (·.kind != .eof), ((ts.find? (·.kind == .eof)).getD (missingEnd ts))⟩

/-- The tokens of a stream, its end included. -/
def toList (s : TokenStream) : List Token := s.tokens ++ [s.eof]

theorem kind_ne_eof_of_mem {ts : List Token} {t : Token} (h : t ∈ (ofList ts).tokens) :
    t.kind ≠ .eof := by
  have := List.all_eq_true.1 List.all_takeWhile t h
  simpa using this

/-- The stream of a list is what comes before its first end of file. -/
theorem ofList_append {ts : List Token} (h : ∀ t ∈ ts, t.kind ≠ .eof) {e : Token}
    (he : e.kind = .eof) (us : List Token) : ofList (ts ++ e :: us) = ⟨ts, e⟩ := by
  have hts : ∀ t ∈ ts, (t.kind != .eof) = true := by simpa using h
  have hfind : ts.find? (·.kind == .eof) = none := by simpa using h
  rw [ofList, List.takeWhile_append_of_pos hts, List.find?_append, hfind]
  simp [he]

theorem eof_kind (ts : List Token) : (ofList ts).eof.kind = .eof := by
  cases h : ts.find? (·.kind == .eof) with
  | none => simp [ofList, h, missingEnd, Token.endOfFile]
  | some t => simpa [ofList, h] using List.find?_some h

end TokenStream

namespace Token

def isComment (t : Token) : Bool := t.kind == .comment

/-- The texts of the comments at the front of a list of tokens. -/
def leadingComments (ts : List Token) : List String := (ts.takeWhile isComment).map (·.lexeme)

/-- The tokens after the comments at the front. -/
def afterComments (ts : List Token) : List Token := ts.dropWhile isComment

def startsWith (k : TokenKind) (ts : List Token) : Bool := ts.head?.any fun t => t.kind == k

/-- The token that a rule is looking at: the first one left, or the end of file. -/
def here (eof : Token) (ts : List Token) : Token := ts.head?.getD eof

theorem afterComments_suffix (ts : List Token) : afterComments ts <:+ ts :=
  List.dropWhile_suffix _

theorem suffix_of_afterComments {ts us : List Token} {t : Token}
    (h : afterComments ts = t :: us) : us <:+ ts := by
  have hsuffix := afterComments_suffix ts
  rw [h] at hsuffix
  exact (List.suffix_cons t us).trans hsuffix

theorem length_lt_of_afterComments {ts us : List Token} {t : Token}
    (h : afterComments ts = t :: us) : us.length < ts.length := by
  have hle := (afterComments_suffix ts).length_le
  rw [h, List.length_cons] at hle
  omega

def AllComments (ts : List Token) : Prop := ∀ t ∈ ts, t.isComment = true

section Comments

variable {cs ts us : List Token} {t : Token}

theorem AllComments.after_append (hcs : AllComments cs) (ts : List Token) :
    afterComments (cs ++ ts) = afterComments ts :=
  List.dropWhile_append_of_pos hcs

theorem AllComments.after_cons (hcs : AllComments cs) (ht : t.kind ≠ .comment) (us : List Token) :
    afterComments (cs ++ t :: us) = t :: us := by
  rw [hcs.after_append, afterComments, List.dropWhile_cons_of_neg]
  simpa [isComment] using ht

theorem AllComments.leading_cons (hcs : AllComments cs) (ht : t.kind ≠ .comment)
    (us : List Token) : leadingComments (cs ++ t :: us) = cs.map (·.lexeme) := by
  rw [leadingComments, List.takeWhile_append_of_pos hcs, List.takeWhile_cons_of_neg]
  · rw [List.append_nil]
  · simpa [isComment] using ht

theorem AllComments.after_eq_nil (hcs : AllComments cs) : afterComments cs = [] := by
  have happend := hcs.after_append []
  rw [List.append_nil] at happend
  exact happend

theorem exists_comments (h : afterComments ts = t :: us) :
    ∃ cs, AllComments cs ∧ ts = cs ++ t :: us := by
  refine ⟨ts.takeWhile isComment, ?_, ?_⟩
  · exact List.all_eq_true.1 List.all_takeWhile
  · rw [← h]
    exact List.takeWhile_append_dropWhile.symm

theorem kind_ne_comment_of_after (h : afterComments ts = t :: us) : t.kind ≠ .comment := by
  have hfirst := List.head?_dropWhile_not isComment ts
  rw [← afterComments, h] at hfirst
  simpa [isComment] using hfirst

theorem allComments_of_after (h : afterComments ts = []) : AllComments ts := by
  have happend : ts.takeWhile isComment ++ afterComments ts = ts :=
    List.takeWhile_append_dropWhile
  rw [h, List.append_nil] at happend
  rw [← happend]
  exact List.all_eq_true.1 List.all_takeWhile

end Comments

@[simp] theorem startsWith_nil (k : TokenKind) : startsWith k [] = false := rfl

@[simp] theorem startsWith_cons (k : TokenKind) (t : Token) (ts : List Token) :
    startsWith k (t :: ts) = (t.kind == k) := rfl

@[simp] theorem here_nil (eof : Token) : here eof [] = eof := rfl

@[simp] theorem here_cons (eof t : Token) (ts : List Token) : here eof (t :: ts) = t := rfl

theorem startsWith_iff {k : TokenKind} {ts : List Token} :
    startsWith k ts = true ↔ ∃ t us, ts = t :: us ∧ t.kind = k := by
  cases ts <;> simp

end Token

end GameSchema
