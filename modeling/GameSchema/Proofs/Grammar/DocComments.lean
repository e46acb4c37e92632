import GameSchema.Compilation
import GameSchema.Proofs.Grammar.Binding
import GameSchema.Proofs.Grammar.Growth
import GameSchema.Proofs.Grammar.Skipping
import GameSchema.Proofs.Grammar.Tree
import GameSchema.Proofs.Schema.Resolution
import GameSchema.Proofs.Token.Geometry

/-!
# The comments of declarations

A declaration has the comments that stand directly in front of its keyword, all of them and in their
order, unless they have been passed before the keyword was reached. Then it has none: the comments
at the front of a source belong to its header, and the skipping of a mistake can stop at a keyword
behind the comments of that keyword.
-/

namespace GameSchema

namespace Grammar
open Token Recovery

/-- A declaration that is written in some tokens, with which `xs` is wrong: behind `before` and the
comments `doc` it starts with the keyword and goes on with `after`. -/
structure Documented (source : List Token) (xs : List Diagnostic) (x : Declaration)
    (before doc : List Token) (keyword : Token) (after : List Token) : Prop where
  source_eq : source = before ++ (doc ++ keyword :: after)
  keyword_kind : keyword.kind = .declaration x.kind
  nameToken : x.nameToken = if x.kind = .config then some keyword else after.head?
  all_comments : AllComments doc
  maximal : ∀ t ∈ before.getLast?, t.isComment = false
  front : before = [] → x.comments = []
  comments : x.comments = texts doc ∨
    x.comments = [] ∧ (before = [] ∨ Overrun xs (before ++ doc) (keyword :: after))

/-- The declarations that a rule adds are all types. -/
def HoistsTypes (d d' : Draft) : Prop :=
  ∀ x ∈ d'.declarations, x ∈ d.declarations ∨ x.kind.isType = true

section Hoisting

variable {d d' d'' : Draft}

theorem HoistsTypes.of_eq (h : d'.declarations = d.declarations) : HoistsTypes d d' := by
  intro x hx
  rw [h] at hx
  exact .inl hx

theorem HoistsTypes.trans (h : HoistsTypes d d') (h' : HoistsTypes d' d'') : HoistsTypes d d'' := by
  intro x hx
  rcases h' x hx with hx | htype
  · exact h x hx
  · exact .inr htype

theorem HoistsTypes.push (h : HoistsTypes d d') {x : Declaration} (hx : x.kind.isType = true) :
    HoistsTypes d (d'.push x) := by
  intro y hy
  rcases List.mem_append.1 hy with hy | hy
  · exact h y hy
  · rw [List.mem_singleton.1 hy]
    exact .inr hx

theorem OpeningRun.hoists {eof keyword : Token} {kind : DeclarationKind} {inBlock : Bool}
    {ts us : List Token} {v : Except Diagnostic Token}
    (h : OpeningRun eof kind keyword inBlock d ts v d' us) : HoistsTypes d d' := by
  have heading {ts us : List Token} {v : Except Diagnostic Token}
      (h : HeadingRun eof kind keyword inBlock d ts v d' us) : HoistsTypes d d' := by
    cases h <;> exact .of_eq rfl
  cases h with
  | badHeading hh => exact heading hh
  | noBlock hh ho => exact heading hh
  | opened hh ho => exact heading hh

theorem Separation.hoists {eof : Token} {ts us : List Token} (h : Separation eof d ts d' us) :
    HoistsTypes d d' := by
  cases h <;> exact .of_eq rfl

variable {eof : Token}

mutual

theorem TypeRun.hoists {mark : Char} {cs : List String} {d d' : Draft} {ts us : List Token}
    {v : Except Diagnostic PropertyType} (h : TypeRun eof mark cs d ts v d' us) :
    HoistsTypes d d' := by
  match h with
  | .missing h => exact .of_eq rfl
  | .scalar h => exact .of_eq rfl
  | .reference h => exact .of_eq rfl
  | .noLess h hl => exact .of_eq rfl
  | .badElement h hl he => exact he.hoists
  | .noGreater h hl he hg => exact he.hoists
  | .generic h hl he hg => exact he.hoists
  | .badInline h hk ho => exact ho.hoists
  | .inline h hk ho hb => exact (ho.hoists.trans hb.hoists).push hk
  | .brokenInline h hk ho hb => exact ((ho.hoists.trans hb.hoists).trans (.of_eq rfl)).push hk

theorem ItemRun.hoists {kind : DeclarationKind} {cs : List String} {name : Token} {d d' : Draft}
    {ts us : List Token} {v : Except Diagnostic Property}
    (h : ItemRun eof kind cs name d ts v d' us) : HoistsTypes d d' := by
  match h with
  | .value hk => exact .of_eq rfl
  | .noColon hk hc => exact .of_eq rfl
  | .badField hk hc ht => exact ht.hoists
  | .field hk hc ht => exact ht.hoists

theorem ItemsRun.hoists {kind : DeclarationKind} {d d' : Draft} {ts us : List Token} {b : Block}
    (h : ItemsRun eof kind d ts b d' us) : HoistsTypes d d' := by
  match h with
  | .unterminated h => exact .of_eq rfl
  | .close h ht => exact .of_eq rfl
  | .keyword h ht => exact .of_eq rfl
  | .stray h hc hd hi hr => exact hr.hoists
  | .badItem h ht hi hr => exact hi.hoists.trans hr.hoists
  | .more h ht hi hs hr => exact (hi.hoists.trans hs.hoists).trans hr.hoists
  | .fault h ht hi hc hv hn => exact hi.hoists

end

end Hoisting

section Documents

variable {source : List Token} {xs ys : List Diagnostic} {x : Declaration}
  {before doc after : List Token} {keyword : Token}

theorem Documented.mono (h : Documented source xs x before doc keyword after) (hxs : xs ⊆ ys) :
    Documented source ys x before doc keyword after := by
  refine { h with comments := h.comments.imp_right ?_ }
  rintro ⟨hnone, hlost⟩
  exact ⟨hnone, hlost.imp_right (·.mono hxs)⟩

/-- Some tokens end with comments that no comment stands in front of. -/
theorem exists_trailing (ts : List Token) : ∃ before doc, ts = before ++ doc ∧ AllComments doc ∧
    ∀ t ∈ before.getLast?, t.isComment = false := by
  refine ⟨(ts.reverse.dropWhile isComment).reverse, (ts.reverse.takeWhile isComment).reverse,
    ?_, ?_, ?_⟩
  · rw [← List.reverse_append, List.takeWhile_append_dropWhile, List.reverse_reverse]
  · intro t ht
    exact List.all_eq_true.1 List.all_takeWhile t (List.mem_reverse.1 ht)
  · intro t ht
    rw [List.getLast?_reverse] at ht
    have hfirst := List.head?_dropWhile_not isComment ts.reverse
    rw [Option.mem_def.1 ht] at hfirst
    exact hfirst

/-- A declaration is read together with its comments, unless they are lost already. -/
theorem Stands.documented {ts us : List Token} {t name : Token} {k : DeclarationKind}
    (hts : Stands source xs ts) (h : afterComments ts = t :: us) (ht : t.kind = .declaration k)
    (hk : k.isType = false) (hname : some name = if k = .config then some t else us.head?)
    (written : String) (ps : List Property) : ∃ before doc,
      Documented source xs ⟨k, written, some name, leadingComments ts, ps⟩ before doc t us := by
  have hcomment := kind_ne_comment_of_after h
  cases hts with
  | finished => cases h
  | behind hbehind =>
    obtain ⟨u, ⟨pre, hpre⟩, hu⟩ := hbehind
    obtain ⟨cs, hcs, rfl⟩ := exists_comments h
    have hlast : ∀ v ∈ (pre ++ [u]).getLast?, v.isComment = false := by
      intro v hv
      rw [List.getLast?_concat] at hv
      cases hv
      exact hu
    refine ⟨pre ++ [u], cs, ?_, ht, hname, hcs, hlast, ?_, .inl (hcs.leading_cons hcomment us)⟩
    · rw [← hpre, List.append_assoc]
      rfl
    · intro hnil
      simp at hnil
  | @lost pre u vs hpre hu hlost =>
    have hfirst : afterComments (u :: vs) = u :: vs := List.dropWhile_cons_of_neg (by simp [hu])
    rw [hfirst] at h
    cases h
    have hnone : leadingComments (t :: us) = [] := by simp [leadingComments, hu]
    obtain ⟨before, doc, rfl, hdoc, hlast⟩ := exists_trailing pre
    refine ⟨before, doc, ?_, ht, hname, hdoc, hlast, fun _ => hnone, .inr ⟨hnone, ?_⟩⟩
    · rw [hpre, List.append_assoc]
    · refine (hlost k ht hk).imp_left ?_
      intro hall
      refine List.getLast?_eq_none_iff.1 (Option.eq_none_iff_forall_not_mem.2 ?_)
      intro v hv
      have hmem := hall v (List.mem_append_left _ (List.mem_of_getLast? hv))
      rw [hlast v hv] at hmem
      cases hmem

theorem OpeningRun.name_eq {eof name : Token} {kind : DeclarationKind} {inBlock : Bool}
    {d d' : Draft} {ts us : List Token}
    (h : OpeningRun eof kind keyword inBlock d ts (.ok name) d' us) :
    some name = if kind = .config then some keyword else ts.head? := by
  cases h with
  | opened hh ho =>
    cases hh with
    | config hk hs => rw [if_pos hk]
    | named hk hn hd => exact (if_neg (DeclarationKind.ne_config_of_scope hk)).symm

end Documents

/-- The declarations of a draft other than types have the comments that belong to them. -/
def Documents (source : List Token) (d : Draft) : Prop :=
  ∀ x ∈ d.declarations, x.kind.isType = false →
    ∃ before doc keyword after, Documented source d.diagnostics x before doc keyword after

section Files

variable {source : List Token} {eof : Token} {d d' : Draft} {ts us : List Token}

theorem Documents.grow (h : Documents source d) (hgrows : Grows d d')
    (hhoists : HoistsTypes d d') : Documents source d' := by
  intro x hx htype
  rcases hhoists x hx with hx | hx
  · obtain ⟨before, doc, keyword, after, hdoc⟩ := h x hx htype
    exact ⟨before, doc, keyword, after, hdoc.mono hgrows.diagnostics.subset⟩
  · rw [htype] at hx
    cases hx

theorem RoundRun.documents (h : RoundRun eof d ts d' us) (hts : Stands source d.diagnostics ts)
    (hd : Documents source d) : Documents source d' := by
  have hgrows := h.grows
  cases h with
  | foreign h ht => exact hd.grow hgrows (.of_eq rfl)
  | badOpening h ht ho => exact hd.grow hgrows (ho.hoists.trans (.of_eq rfl))
  | broken h ht ho hb => exact hd.grow hgrows ((ho.hoists.trans hb.hoists).trans (.of_eq rfl))
  | declared h ht ho hb =>
    have hblock := ho.grows.trans hb.grows
    intro x hx htype
    rcases List.mem_append.1 hx with hx | hx
    · exact hd.grow hblock (ho.hoists.trans hb.hoists) x hx htype
    · obtain rfl := List.mem_singleton.1 hx
      obtain ⟨before, doc, hdoc⟩ := hts.documented h ht htype ho.name_eq _ _
      exact ⟨before, doc, _, _, hdoc.mono hblock.diagnostics.subset⟩

theorem FileRun.documents (h : FileRun eof d ts d') (hts : Stands source d.diagnostics ts)
    (hd : Documents source d) : Documents source d' := by
  induction h with
  | done h => exact hd
  | step hr h ih => exact ih (hr.stands hts) (hr.documents hts hd)

end Files

end Grammar

section Sources

variable {version source : String} {tokens : List Token} {x : Declaration}

end Sources

end GameSchema
