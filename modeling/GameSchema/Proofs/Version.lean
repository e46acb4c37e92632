import GameSchema.Proofs.Token.LexicalGrammar
import GameSchema.Version

/-!
# Compatible versions

Version numbers by their parts, and which of them fit a compiler. Only the major and the minor parts
count: a file fits if the majors are spelled alike and its minor is not the larger one, and for major
zero only if the minors are spelled alike too. So compatibility is a preorder, which is symmetric for
major zero and follows the order of the minors for every other major.
-/

namespace GameSchema.Version
open LexicalGrammar Text

section Digits

variable {ds : List Char}

instance (ds : List Char) : Decidable (IsNumber ds) :=
  decidable_of_iff (ds ≠ [] ∧ ds.all Char.isDigit = true) (by rw [IsNumber, List.all_eq_true])

theorem not_mem_of_isNumber (h : IsNumber ds) {c : Char} (hc : c.isDigit = false) : c ∉ ds := by
  intro hmem
  rw [h.2 c hmem] at hc
  cases hc

theorem readNat_of_isNumber (h : IsNumber ds) (hlt : digitsValue ds < wordLimit) :
    readNat? ds = some (digitsValue ds) := by
  have hunsigned : unsigned ds = ds := by
    rw [unsigned]
    rintro cs rfl
    exact not_mem_of_isNumber h (by decide) List.mem_cons_self
  rw [readNat?, hunsigned]
  exact if_pos ⟨h.1, List.all_eq_true.2 h.2, hlt⟩

/-- The pieces between the dots of a version number are its parts. -/
theorem pieces_dotted {parts : List (List Char)} (h : IsNumber ds)
    (hparts : ∀ part ∈ parts, IsNumber part) : pieces '.' (ds ++ dotted parts) = ds :: parts := by
  have hdot : '.' ∉ ds := not_mem_of_isNumber h (by decide)
  induction parts generalizing ds with
  | nil =>
    rw [dotted, List.flatMap_nil, List.append_nil]
    exact pieces_of_not_mem hdot
  | cons part parts ih =>
    obtain ⟨hpart, hrest⟩ := List.forall_mem_cons.1 hparts
    have hpieces := ih hpart hrest (not_mem_of_isNumber hpart (by decide))
    rw [dotted, List.flatMap_cons, List.cons_append, pieces_append hdot]
    exact congrArg (ds :: ·) hpieces

end Digits

/-- A version number by its parts, each of them digits: a major part and at most two parts behind it,
of which the first one is the minor part. The minor part writes a number below 2⁶⁴. -/
structure Number where
  major : List Char
  more : List (List Char)
  isNumber_major : IsNumber major
  isNumber_more : ∀ part ∈ more, IsNumber part
  length_more : more.length ≤ 2
  minor_lt : digitsValue (more.headD ['0']) < wordLimit

namespace Number

/-- The version number `0`. -/
def zero : Number := ⟨['0'], [], by decide, by decide, by decide, by decide⟩

variable (u v : Number)

/-- The minor part, or zero if it is missing. -/
def minor : List Char := v.more.headD ['0']

def text : String := String.ofList (v.major ++ dotted v.more)

theorem parts_text : parts v.text = (v.major, v.minor) := by
  rw [parts, text, String.toList_ofList, pieces_dotted v.isNumber_major v.isNumber_more, minor]
  cases v.more <;> rfl

theorem text_ne_development : v.text ≠ development := by
  intro h
  obtain ⟨d, ds, hmajor⟩ := List.exists_cons_of_ne_nil v.isNumber_major.1
  have hfirst : some d = some 'd' := by
    have hhead := congrArg (fun s => s.toList.head?) h
    simpa [text, hmajor, development] using hhead
  have hdigit : d.isDigit = true := v.isNumber_major.2 d (by rw [hmajor]; exact List.mem_cons_self)
  rw [Option.some.inj hfirst] at hdigit
  cases hdigit

theorem isNumber_minor : IsNumber v.minor := by
  rw [minor]
  cases hmore : v.more with
  | nil => exact (by decide : IsNumber ['0'])
  | cons part parts => exact v.isNumber_more part (by rw [hmore]; exact List.mem_cons_self)

/-- A version number is read as one. -/
theorem isVersionNumber_text : IsVersionNumber v.text := by
  obtain ⟨d, ds, hmajor⟩ := List.exists_cons_of_ne_nil v.isNumber_major.1
  have hdigits := v.isNumber_major.2
  have hread : Scan.versionParts 2 (dotted v.more ++ []) = .ok (dotted v.more, []) :=
    versionParts_dotted v.isNumber_more v.length_more (by simp) (by simp)
  rw [List.append_nil] at hread
  rw [hmajor] at hdigits
  exact ⟨d, ds, dotted v.more, by rw [text, String.toList_ofList, hmajor], hdigits, hread⟩

theorem readNat_minor : readNat? v.minor = some (digitsValue v.minor) :=
  readNat_of_isNumber v.isNumber_minor v.minor_lt

/-- When a file of one version fits a compiler of another one. -/
theorem compatible_iff : compatible u.text v.text = true ↔ u.major = v.major ∧
    (v.major = ['0'] → u.minor = v.minor) ∧ digitsValue u.minor ≤ digitsValue v.minor := by
  simp only [compatible, v.text_ne_development, parts_text, readNat_minor, if_false]
  by_cases hmajor : u.major = v.major
  · by_cases hminor : v.major = ['0'] ∧ u.minor ≠ v.minor
    · simp [hmajor, hminor]
    · have hsame : v.major = ['0'] → u.minor = v.minor := by simpa using hminor
      simpa [hmajor, hminor] using fun _ => hsame
  · simp [hmajor]

/-- The version number with the same major and minor parts and no third part. -/
def withoutThird : Number where
  major := v.major
  more := [v.minor]
  isNumber_major := v.isNumber_major
  isNumber_more := by simpa using v.isNumber_minor
  length_more := by simp
  minor_lt := v.minor_lt

theorem withoutThird_text :
    v.withoutThird.text = String.ofList v.major ++ "." ++ String.ofList v.minor := by
  apply String.toList_injective
  simp [text, withoutThird, dotted]

end Number

/-- The laws of compatibility between the version of a file and that of a compiler. -/
structure Preorders (fits : String → String → Bool) : Prop where
  refl : ∀ v : Number, fits v.text v.text = true
  trans : ∀ u v w : Number, fits u.text v.text = true → fits v.text w.text = true →
    fits u.text w.text = true
  /-- Versions with the same first two parts fit the same versions, and are fitted by the same. -/
  third : ∀ u u' v v' : Number, u.major = u'.major → u.more.head? = u'.more.head? →
    v.major = v'.major → v.more.head? = v'.more.head? → fits u.text v.text = fits u'.text v'.text
  symm : ∀ u v : Number, v.major = ['0'] → fits u.text v.text = true → fits v.text u.text = true
  /-- What fits a compiler of another major than zero fits the later ones of that major. -/
  later : ∀ u v w : Number, v.major ≠ ['0'] → fits u.text v.text = true → w.major = v.major →
    digitsValue v.minor ≤ digitsValue w.minor → fits u.text w.text = true

theorem minor_eq_of_head {u v : Number} (h : u.more.head? = v.more.head?) : u.minor = v.minor := by
  rw [Number.minor, Number.minor, List.headD_eq_head?_getD, List.headD_eq_head?_getD, h]

theorem preorders_compatible : Preorders compatible where
  refl v := (v.compatible_iff v).2 ⟨rfl, fun _ => rfl, Nat.le_refl _⟩
  trans u v w huv hvw := by
    obtain ⟨huv, huvZero, huvMinor⟩ := (u.compatible_iff v).1 huv
    obtain ⟨hvw, hvwZero, hvwMinor⟩ := (v.compatible_iff w).1 hvw
    refine (u.compatible_iff w).2 ⟨huv.trans hvw, ?_, Nat.le_trans huvMinor hvwMinor⟩
    intro hw
    exact (huvZero (hvw.trans hw)).trans (hvwZero hw)
  third u u' v v' hu huMore hv hvMore := by
    rw [Bool.eq_iff_iff, u.compatible_iff v, u'.compatible_iff v', hu, hv, minor_eq_of_head huMore,
      minor_eq_of_head hvMore]
  symm u v hzero huv := by
    obtain ⟨hmajor, hminor, -⟩ := (u.compatible_iff v).1 huv
    have hsame := hminor hzero
    exact (v.compatible_iff u).2 ⟨hmajor.symm, fun _ => hsame.symm, by rw [hsame]⟩
  later u v w hzero huv hmajor hle := by
    obtain ⟨huv, -, hminor⟩ := (u.compatible_iff v).1 huv
    refine (u.compatible_iff w).2 ⟨huv.trans hmajor.symm, ?_, Nat.le_trans hminor hle⟩
    intro hw
    exact absurd (hmajor.symm.trans hw) hzero

-- Minors are compared as numbers, majors and the minors of major zero as they are spelled.
example : compatible "1.04.7" "1.4" = true ∧ compatible "01.4" "1.4" = false ∧
    compatible "0.04" "0.4" = false := by cbv

end GameSchema.Version
