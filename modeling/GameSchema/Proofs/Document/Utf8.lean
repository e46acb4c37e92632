import GameSchema.Proofs.Text.Offsets

/-!
# Edits and completion on bytes

A text is stored as UTF-8, and an editor that edits it in place counts bytes: it looks for newlines
and separators by the byte at which they start, and cuts the text at such bytes. The definitions
here do so on the bytes of a string. A cut inside of a character or outside of the text has no
result, and nothing keeps the bytes that are computed apart from those. That no cut ever fails, and
that what comes out is what the functions on characters give, has to be proved.
-/

namespace GameSchema.Utf8

section Bytes

/-- Characters with the byte at which each of them starts, the first one at `start`. -/
def indexed (start : Nat) : List Char → List (Nat × Char)
  | [] => []
  | c :: cs => (start, c) :: indexed (start + c.utf8Size) cs

def charIndices (s : String) : List (Nat × Char) := indexed 0 s.toList

/-- The byte at which the first character with a property starts. -/
def find? (p : Char → Bool) (s : String) : Option Nat :=
  ((charIndices s).find? fun x => p x.2).map (·.1)

/-- The byte at which the last character with a property starts. -/
def findLast? (p : Char → Bool) (s : String) : Option Nat :=
  ((charIndices s).reverse.find? fun x => p x.2).map (·.1)

/-- The bytes of a text from `start` up to `stop`; `none` unless a character starts, or the text
ends, at both of them. -/
def slice? (s : String) (start stop : Nat) : Option String :=
  if h : start ≤ stop ∧ String.Pos.Raw.IsValid s ⟨start⟩ ∧ String.Pos.Raw.IsValid s ⟨stop⟩ then
    some (String.extract (s.pos ⟨start⟩ h.2.1) (s.pos ⟨stop⟩ h.2.2))
  else none

/-- The byte of the column `column` of the line that is `line` lines below the one that starts at
the byte `start`. -/
def offsetFrom? (s : String) (start : Nat) : Nat → Nat → Option Nat
  | 0, column => do
    let stop := match find? (· == '\n') (← slice? s start s.utf8ByteSize) with
      | some i => start + i
      | none => s.utf8ByteSize
    match (charIndices (← slice? s start stop))[column]? with
    | some (i, _) => return start + i
    | none => return stop
  | line + 1, column => do
    match find? (· == '\n') (← slice? s start s.utf8ByteSize) with
    | some i => offsetFrom? s (start + i + 1) line column
    | none => return s.utf8ByteSize

/-- The byte of a place in a text. -/
def offset? (s : String) (p : Position) : Option Nat := offsetFrom? s 0 p.line p.column

/-- The text after an edit, or why there is none. -/
def perform? (e : Edit) (source : String) : Option (Except DocumentError String) :=
  match e.range with
  | none => return .ok e.text
  | some r => do
    let start ← offset? source r.start
    let stop ← offset? source r.stop
    if stop < start then return .error .invalidRange
    return .ok ((← slice? source 0 start) ++ e.text ++ (← slice? source stop source.utf8ByteSize))

/-- The word before a column of a line. -/
def wordBefore? (line : String) (column : Nat) : Option String := do
  let stop := match (charIndices line)[column]? with
    | some (i, _) => i
    | none => line.utf8ByteSize
  let head ← slice? line 0 stop
  match findLast? Completion.isSeparator head with
  | some i => slice? head (i + 1) head.utf8ByteSize
  | none => return head

end Bytes

section Sizes

/-- The number of bytes that characters take. -/
def size (cs : List Char) : Nat := (String.ofList cs).utf8ByteSize

@[simp] theorem size_nil : size [] = 0 := rfl

@[simp] theorem size_append (cs ds : List Char) : size (cs ++ ds) = size cs + size ds := by
  rw [size, String.ofList_append, String.utf8ByteSize_append, size, size]

theorem size_singleton (c : Char) : size [c] = c.utf8Size := by
  rw [size, ← String.singleton_eq_ofList, String.utf8ByteSize_singleton]

@[simp] theorem size_cons (c : Char) (cs : List Char) : size (c :: cs) = c.utf8Size + size cs := by
  rw [← List.singleton_append, size_append, size_singleton]

theorem size_toList (s : String) : size s.toList = s.utf8ByteSize := by
  rw [size, String.ofList_toList]

theorem size_pos {cs : List Char} (h : cs ≠ []) : 0 < size cs := by
  obtain ⟨c, ds, rfl⟩ := List.exists_cons_of_ne_nil h
  rw [size_cons]
  exact Nat.add_pos_left c.utf8Size_pos _

/-- Of two beginnings of a text the longer one has more bytes. -/
theorem size_take_lt_iff {cs : List Char} {m n : Nat} (hm : m ≤ cs.length) (hn : n ≤ cs.length) :
    size (cs.take m) < size (cs.take n) ↔ m < n := by
  have hlonger {i j : Nat} (hij : i < j) (hj : j ≤ cs.length) :
      size (cs.take i) < size (cs.take j) := by
    have hne : (cs.take j).drop i ≠ [] := by
      rw [Ne, List.drop_eq_nil_iff, List.length_take_of_le hj]
      omega
    rw [← Text.take_append_drop_take (Nat.le_of_lt hij) cs, size_append]
    exact Nat.lt_add_of_pos_right (size_pos hne)
  constructor
  · intro hlt
    by_contra hnot
    rcases Nat.lt_or_eq_of_le (Nat.le_of_not_lt hnot) with hnm | rfl
    · exact absurd (hlonger hnm hm) (Nat.lt_asymm hlt)
    · exact Nat.lt_irrefl _ hlt
  · exact fun hmn => hlonger hmn hn

end Sizes

section Slices

variable {s : String} {i j : Nat}

theorem slice?_append (a b c : String) :
    slice? (a ++ b ++ c) a.utf8ByteSize (a.utf8ByteSize + b.utf8ByteSize) = some b := by
  have hstart : String.Pos.Raw.IsValid (a ++ b ++ c) ⟨a.utf8ByteSize⟩ :=
    String.Pos.Raw.isValid_iff_exists_append.2 ⟨a, b ++ c, String.append_assoc, rfl⟩
  have hstop : String.Pos.Raw.IsValid (a ++ b ++ c) ⟨a.utf8ByteSize + b.utf8ByteSize⟩ :=
    String.Pos.Raw.isValid_iff_exists_append.2 ⟨a ++ b, c, rfl, by
      simp [String.Pos.Raw.ext_iff]⟩
  rw [slice?, dif_pos ⟨Nat.le_add_right _ _, hstart, hstop⟩, Option.some_inj,
    ← String.toByteArray_inj, String.toByteArray_extract]
  simp only [String.offset_pos, String.append_assoc, String.toByteArray_append]
  have hbehind : (a.toByteArray ++ (b.toByteArray ++ c.toByteArray)).extract
      (a.utf8ByteSize + 0) (a.utf8ByteSize + b.utf8ByteSize) =
        (b.toByteArray ++ c.toByteArray).extract 0 b.utf8ByteSize :=
    ByteArray.extract_append_size_add' String.size_toByteArray.symm
  rw [Nat.add_zero] at hbehind
  rw [hbehind, ByteArray.extract_append_eq_left String.size_toByteArray.symm]

-- A text cannot be cut inside of a character.
example : slice? "éa" 1 3 = none := by decide

theorem slice?_head (a b : String) : slice? (a ++ b) 0 a.utf8ByteSize = some a := by
  have hslice := slice?_append "" a b
  rwa [String.empty_append, String.utf8ByteSize_empty, Nat.zero_add] at hslice

theorem slice?_tail (a b : String) :
    slice? (a ++ b) a.utf8ByteSize (a ++ b).utf8ByteSize = some b := by
  have hslice := slice?_append a b ""
  rwa [String.append_empty, ← String.utf8ByteSize_append] at hslice

/-- Where a text can be cut, there are parts that it is put together from. -/
theorem exists_append_of_isValid (hle : i ≤ j) (hi : String.Pos.Raw.IsValid s ⟨i⟩)
    (hj : String.Pos.Raw.IsValid s ⟨j⟩) : ∃ a b c, s = a ++ b ++ c ∧ i = a.utf8ByteSize ∧
      j = a.utf8ByteSize + b.utf8ByteSize := by
  obtain ⟨u, c, rfl, hu⟩ := String.Pos.Raw.isValid_iff_exists_append.1 hj
  obtain rfl : j = u.utf8ByteSize := congrArg String.Pos.Raw.byteIdx hu
  have hiu : String.Pos.Raw.IsValid u ⟨i⟩ := by
    rcases String.Pos.Raw.isValid_append.1 hi with hi | ⟨hge, -⟩
    · exact hi
    · exact String.Pos.Raw.isValid_of_eq_rawEndPos (String.Pos.Raw.ext (Nat.le_antisymm hle hge))
  obtain ⟨a, b, rfl, ha⟩ := String.Pos.Raw.isValid_iff_exists_append.1 hiu
  obtain rfl : i = a.utf8ByteSize := congrArg String.Pos.Raw.byteIdx ha
  exact ⟨a, b, c, rfl, rfl, String.utf8ByteSize_append⟩

theorem slice?_take (cs : List Char) (n : Nat) :
    slice? (String.ofList cs) 0 (size (cs.take n)) = some (String.ofList (cs.take n)) := by
  have hslice := slice?_head (String.ofList (cs.take n)) (String.ofList (cs.drop n))
  rwa [← String.ofList_append, List.take_append_drop] at hslice

theorem slice?_rest (cs ds : List Char) :
    slice? (String.ofList (cs ++ ds)) (size cs) (String.ofList (cs ++ ds)).utf8ByteSize =
      some (String.ofList ds) := by
  rw [String.ofList_append]
  exact slice?_tail _ _

end Slices

section Indices

variable {p : Char → Bool} {cs ds : List Char} {c : Char} {start n : Nat}

theorem getElem?_indexed :
    (indexed start cs)[n]? = cs[n]?.map fun c => (start + size (cs.take n), c) := by
  induction cs generalizing start n with
  | nil => rfl
  | cons c cs ih =>
    cases n with
    | zero => rfl
    | succ n => simp [indexed, ih, Nat.add_assoc]

theorem getElem?_charIndices : (charIndices (String.ofList cs))[n]? =
    cs[n]?.map fun c => (size (cs.take n), c) := by
  rw [charIndices, String.toList_ofList, getElem?_indexed]
  simp

theorem indexed_append (start : Nat) (cs ds : List Char) :
    indexed start (cs ++ ds) = indexed start cs ++ indexed (start + size cs) ds := by
  induction cs generalizing start with
  | nil => rfl
  | cons c cs ih => simp [indexed, ih, Nat.add_assoc]

theorem mem_of_mem_indexed {x : Nat × Char} (h : x ∈ indexed start cs) : x.2 ∈ cs := by
  induction cs generalizing start with
  | nil => cases h
  | cons c cs ih =>
    rcases List.mem_cons.1 h with rfl | h
    · exact List.mem_cons_self
    · exact List.mem_cons_of_mem c (ih h)

theorem find?_indexed_eq_none (h : ∀ d ∈ cs, p d = false) :
    (indexed start cs).find? (fun x => p x.2) = none := by
  rw [List.find?_eq_none]
  intro x hx
  rw [h _ (mem_of_mem_indexed hx)]
  nofun

theorem find?_eq_none (h : ∀ d ∈ cs, p d = false) : find? p (String.ofList cs) = none := by
  rw [find?, charIndices, String.toList_ofList, find?_indexed_eq_none h]
  rfl

theorem find?_append (hcs : ∀ d ∈ cs, p d = false) (hc : p c = true) (ds : List Char) :
    find? p (String.ofList (cs ++ c :: ds)) = some (size cs) := by
  rw [find?, charIndices, String.toList_ofList, indexed_append, List.find?_append,
    find?_indexed_eq_none hcs, indexed, Option.none_or]
  simp [hc]

theorem findLast?_eq_none (h : ∀ d ∈ cs, p d = false) :
    findLast? p (String.ofList cs) = none := by
  rw [findLast?, Option.map_eq_none_iff, List.find?_eq_none, charIndices, String.toList_ofList]
  intro x hx
  rw [h _ (mem_of_mem_indexed (List.mem_reverse.1 hx))]
  nofun

theorem findLast?_append (cs : List Char) (hc : p c = true) (hds : ∀ d ∈ ds, p d = false) :
    findLast? p (String.ofList (cs ++ c :: ds)) = some (size cs) := by
  have hnone : ((indexed (size cs + c.utf8Size) ds).reverse.find? fun x => p x.2) = none := by
    rw [List.find?_eq_none]
    intro x hx
    rw [hds _ (mem_of_mem_indexed (List.mem_reverse.1 hx))]
    nofun
  rw [findLast?, charIndices, String.toList_ofList, indexed_append, indexed, Nat.zero_add,
    List.reverse_append, List.reverse_cons, List.append_assoc, List.find?_append, hnone,
    Option.none_or]
  simp [hc]

end Indices

section Places

variable {cs l : List Char} {column : Nat}

theorem newline_eq_false (h : '\n' ∉ cs) : ∀ d ∈ cs, (d == '\n') = false := by
  rintro d hd
  rw [beq_eq_false_iff_ne]
  rintro rfl
  exact h hd

/-- In the line that starts behind `done`, a column is found behind as many characters, or at the
end of the line. -/
theorem offsetFrom?_line (done : List Char) (hl : '\n' ∉ l) {rest : List Char}
    (hrest : ∀ c ∈ rest.head?, c = '\n') (column : Nat) :
    offsetFrom? (String.ofList (done ++ (l ++ rest))) (size done) 0 column =
      some (size (done ++ l.take column)) := by
  have hstop : (match find? (· == '\n') (String.ofList (l ++ rest)) with
      | some i => size done + i
      | none => (String.ofList (done ++ (l ++ rest))).utf8ByteSize) = size (done ++ l) := by
    cases rest with
    | nil =>
      rw [List.append_nil, find?_eq_none (newline_eq_false hl)]
      rfl
    | cons c rest =>
      obtain rfl : c = '\n' := hrest c rfl
      rw [find?_append (newline_eq_false hl) rfl, size_append]
  have hline : slice? (String.ofList (done ++ (l ++ rest))) (size done) (size (done ++ l)) =
      some (String.ofList l) := by
    rw [← List.append_assoc, String.ofList_append, String.ofList_append, size_append]
    exact slice?_append _ _ _
  rw [offsetFrom?]
  simp only [slice?_rest, Option.bind_eq_bind, Option.bind_some, hstop, hline,
    getElem?_charIndices]
  cases hcolumn : l[column]? with
  | none =>
    rw [List.take_of_length_le (List.getElem?_eq_none_iff.1 hcolumn)]
    rfl
  | some c => simp

/-- A place is found at the byte of the character that it has. -/
theorem offsetFrom?_eq (done rest : List Char) (line column : Nat) :
    offsetFrom? (String.ofList (done ++ rest)) (size done) line column =
      some (size (done ++ rest.take (Text.offset rest ⟨line, column⟩))) := by
  induction line generalizing done rest with
  | zero =>
    obtain ⟨l, rest, rfl, hl, hrest⟩ := Text.exists_firstLine rest
    rw [offsetFrom?_line done hl hrest, Text.offset_line hl hrest,
      List.take_append_of_le_length (Nat.min_le_right _ _), ← List.take_eq_take_min]
  | succ line ih =>
    rw [offsetFrom?]
    simp only [slice?_rest, Option.bind_eq_bind, Option.bind_some]
    obtain ⟨l, rest, rfl, hl, hrest⟩ := Text.exists_firstLine rest
    cases rest with
    | nil =>
      have hcount : (l ++ []).count '\n' < line + 1 := by
        rw [List.append_nil, List.count_eq_zero.2 hl]
        exact Nat.succ_pos line
      rw [Text.offset_below hcount, List.take_length, List.append_nil,
        find?_eq_none (newline_eq_false hl)]
      rfl
    | cons c rest =>
      obtain rfl : c = '\n' := hrest c rfl
      have hbyte : ('\n').utf8Size = 1 := rfl
      have hnext : size done + size l + 1 = size (done ++ (l ++ ['\n'])) := by
        simp [hbyte, Nat.add_assoc]
      have hsplit : done ++ (l ++ '\n' :: rest) = done ++ (l ++ ['\n']) ++ rest := by simp
      have htake (n : Nat) : (l ++ '\n' :: rest).take (l.length + 1 + n) =
          l ++ ['\n'] ++ rest.take n := by
        have happend : (l ++ ['\n'] ++ rest).take ((l ++ ['\n']).length + n) =
            l ++ ['\n'] ++ rest.take n := List.take_length_add_append n
        simpa using happend
      rw [find?_append (newline_eq_false hl) rfl]
      simp only
      rw [hnext, hsplit, ih, Text.offset_newline hl, htake]
      simp only [List.append_assoc]

theorem offset?_ofList (cs : List Char) (p : Position) :
    offset? (String.ofList cs) p = some (size (cs.take (Text.offset cs p))) :=
  offsetFrom?_eq [] cs p.line p.column

/-- The byte of a place is where the characters before the place end. -/
theorem offset?_eq (s : String) (p : Position) :
    offset? s p = some (size (s.toList.take (Text.offset s.toList p))) := by
  have hoffset := offset?_ofList s.toList p
  rwa [String.ofList_toList] at hoffset

-- A carriage return is a character of its line, and a column beyond that line means its end.
example : offset? "é\r\nb" ⟨0, 9⟩ = some 3 := by decide

theorem offset?_of_offset {s : String} {p : Position} {pre rest : List Char}
    (hs : s.toList = pre ++ rest) (hp : Text.offset s.toList p = pre.length) :
    offset? s p = some (size pre) := by
  rw [offset?_eq, hp, hs, List.take_left]

/-- The beginnings of a text end where it can be cut. -/
theorem isValid_size_take (s : String) (n : Nat) :
    String.Pos.Raw.IsValid s ⟨size (s.toList.take n)⟩ := by
  refine String.Pos.Raw.isValid_iff_exists_append.2
    ⟨String.ofList (s.toList.take n), String.ofList (s.toList.drop n), ?_, rfl⟩
  rw [← String.ofList_append, List.take_append_drop, String.ofList_toList]

/-- Edits on bytes never fail to cut the text, and give what edits on characters give. -/
theorem perform?_eq (e : Edit) (source : String) : perform? e source =
    some ((e.perform? source).elim (.error .invalidRange) .ok) := by
  obtain ⟨range, text⟩ := e
  cases range with
  | none => rfl
  | some r =>
    have hstart := Text.offset_le_length source.toList r.start
    have hstop := Text.offset_le_length source.toList r.stop
    have hhead := slice?_take source.toList (Text.offset source.toList r.start)
    have htail := slice?_rest (source.toList.take (Text.offset source.toList r.stop))
      (source.toList.drop (Text.offset source.toList r.stop))
    rw [List.take_append_drop, String.ofList_toList] at htail
    rw [String.ofList_toList] at hhead
    simp only [perform?, offset?_eq, Option.bind_eq_bind, Option.bind_some,
      size_take_lt_iff hstop hstart, Edit.perform?]
    split
    · rfl
    · simp only [hhead, htail, Option.bind_some, Option.elim_some, Text.splice]
      simp only [String.ofList_append, String.ofList_toList]
      rfl

theorem perform?_eq_ok_iff {e : Edit} {source s : String} :
    perform? e source = some (.ok s) ↔ e.perform? source = some s := by
  rw [perform?_eq]
  cases e.perform? source <;> simp

end Places

section Words
open Completion

theorem utf8Size_of_isSeparator {c : Char} (h : isSeparator c = true) : c.utf8Size = 1 := by
  simp only [isSeparator, Bool.or_eq_true, beq_iff_eq] at h
  rcases h with ((((rfl | rfl) | rfl) | rfl) | rfl) | rfl <;> rfl

/-- What stands before the word before a column ends in a separator. -/
theorem exists_before_word (l : List Char) (column : Nat) :
    ∃ before, l.take column = before ++ wordBefore l column ∧
      ∀ c ∈ before.getLast?, isSeparator c = true := by
  refine ⟨((l.take column).reverse.dropWhile fun c => !isSeparator c).reverse, ?_, ?_⟩
  · rw [wordBefore, ← List.reverse_append, List.takeWhile_append_dropWhile, List.reverse_reverse]
  · intro c hc
    rw [List.getLast?_reverse] at hc
    have hfirst := List.head?_dropWhile_not (fun c => !isSeparator c) (l.take column).reverse
    rw [Option.mem_def.1 hc] at hfirst
    simpa using hfirst

theorem isSeparator_of_mem_wordBefore (l : List Char) (column : Nat) :
    ∀ c ∈ wordBefore l column, isSeparator c = false := by
  intro c hc
  have hkept := List.all_eq_true.1 List.all_takeWhile c (List.mem_reverse.1 hc)
  simpa using hkept

/-- On bytes the word before a column is the same one. -/
theorem wordBefore?_eq (l : List Char) (column : Nat) :
    wordBefore? (String.ofList l) column = some (String.ofList (wordBefore l column)) := by
  have hstop : (match (charIndices (String.ofList l))[column]? with
      | some (i, _) => i
      | none => (String.ofList l).utf8ByteSize) = size (l.take column) := by
    rw [getElem?_charIndices]
    cases hcolumn : l[column]? with
    | none =>
      rw [List.take_of_length_le (List.getElem?_eq_none_iff.1 hcolumn)]
      rfl
    | some c => rfl
  obtain ⟨before, hhead, hlast⟩ := exists_before_word l column
  have hword := isSeparator_of_mem_wordBefore l column
  rw [wordBefore?]
  simp only [hstop, slice?_take, Option.bind_eq_bind, Option.bind_some]
  rw [hhead]
  cases hbefore : before.getLast? with
  | none =>
    rw [List.getLast?_eq_none_iff.1 hbefore, List.nil_append, findLast?_eq_none hword]
    rfl
  | some c =>
    obtain ⟨b, rfl⟩ := List.getLast?_eq_some_iff.1 hbefore
    have hseparator := hlast c hbefore
    have hafter : size b + 1 = size (b ++ [c]) := by
      simp [utf8Size_of_isSeparator hseparator]
    have hslice := slice?_rest (b ++ [c]) (wordBefore l column)
    rw [← hafter] at hslice
    rw [List.append_assoc, List.singleton_append, findLast?_append b hseparator hword]
    simpa using hslice

end Words

end GameSchema.Utf8
