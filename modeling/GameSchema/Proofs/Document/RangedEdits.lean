import GameSchema.Proofs.Document.EditRanges

/-!
# Ranged edits

Every place of a text has a byte at which the text can be cut, later places have no earlier bytes,
and the place behind any beginning of the text has the byte at which that beginning ends. So a
ranged edit can replace any part of a text, replaces nothing else, and can be taken back by another
one.
-/

namespace GameSchema

/-- What the edits of a range can do to a text. -/
structure Edit.Splices (source : String) : Prop where
  /-- The byte of a place is one where a character starts or the text ends. -/
  boundary : ∀ p, ∃ i, Utf8.offset? source p = some i ∧ String.Pos.Raw.IsValid source ⟨i⟩
  /-- A place below the last line is the end of the text. -/
  below : ∀ p : Position, source.toList.count '\n' < p.line →
    Utf8.offset? source p = some source.utf8ByteSize
  /-- Any other place is in its line, or at the end of the line when that is shorter. -/
  within : ∀ p : Position, p.line ≤ source.toList.count '\n' → ∃ block l rest : String,
    source = block ++ l ++ rest ∧ Text.EndsLine block.toList ∧
      block.toList.count '\n' = p.line ∧ '\n' ∉ l.toList ∧ (∀ c ∈ rest.toList.head?, c = '\n') ∧
        Utf8.offset? source p = some (block.utf8ByteSize +
          (String.ofList (l.toList.take (min p.column l.length))).utf8ByteSize)
  monotone : ∀ (p q : Position) i j, p ≤ q → Utf8.offset? source p = some i →
    Utf8.offset? source q = some j → i ≤ j
  /-- What stands before a byte tells the place that the byte has. -/
  offset_placeAfter : ∀ i, String.Pos.Raw.IsValid source ⟨i⟩ → ∃ head,
    Utf8.slice? source 0 i = some head ∧
      Utf8.offset? source (Text.placeAfter head.toList) = some i
  /-- An edit from the place of one byte to that of another replaces what is between them. -/
  splice : ∀ i j new, i ≤ j → String.Pos.Raw.IsValid source ⟨i⟩ →
    String.Pos.Raw.IsValid source ⟨j⟩ → ∃ head upto tail, Utf8.slice? source 0 i = some head ∧
      Utf8.slice? source 0 j = some upto ∧
        Utf8.slice? source j source.utf8ByteSize = some tail ∧
          Utf8.perform? ⟨some ⟨Text.placeAfter head.toList, Text.placeAfter upto.toList⟩, new⟩
            source = some (.ok (head ++ new ++ tail))
  forward : ∀ (r : Range) new, r.start ≤ r.stop →
    ∃ s, Utf8.perform? ⟨some r, new⟩ source = some (.ok s)
  /-- An edit fails only if its range is found to stop before it starts. -/
  fails : ∀ (r : Range) new,
    Utf8.perform? ⟨some r, new⟩ source = some (.error .invalidRange) ↔ ∃ i j,
      Utf8.offset? source r.start = some i ∧ Utf8.offset? source r.stop = some j ∧ j < i
  /-- That failure is what a store tells of an open document with the text. -/
  invalid : ∀ (store : DocumentStore) uri d, store.get? uri = some d → d.text = source →
    ∀ (r : Range) new, store.change uri [⟨some r, new⟩] = .error .invalidRange ↔ ∃ i j,
      Utf8.offset? source r.start = some i ∧ Utf8.offset? source r.stop = some j ∧ j < i
  undone : ∀ (r : Range) new s, Utf8.perform? ⟨some r, new⟩ source = some (.ok s) →
    ∃ r' old, Utf8.perform? ⟨some r', old⟩ s = some (.ok source)
  /-- No edit fails in another way, and a store makes the same ones. -/
  performed : ∀ e : Edit, Utf8.perform? e source =
    some ((e.perform? source).elim (.error .invalidRange) .ok)

namespace Edit

section Places

variable {source : String} {p q : Position} {i j : Nat}

theorem offset_below (h : source.toList.count '\n' < p.line) :
    Utf8.offset? source p = some source.utf8ByteSize := by
  rw [Utf8.offset?_eq, Text.offset_below h, List.take_length, Utf8.size_toList]

theorem exists_line_of_offset (h : p.line ≤ source.toList.count '\n') :
    ∃ block l rest : String, source = block ++ l ++ rest ∧ Text.EndsLine block.toList ∧
      block.toList.count '\n' = p.line ∧ '\n' ∉ l.toList ∧ (∀ c ∈ rest.toList.head?, c = '\n') ∧
        Utf8.offset? source p = some (block.utf8ByteSize +
          (String.ofList (l.toList.take (min p.column l.length))).utf8ByteSize) := by
  obtain ⟨block, rest, hsource, hends, hcount⟩ := Text.exists_block_of_count h
  obtain ⟨l, rest, rfl, hl, hrest⟩ := Text.exists_firstLine rest
  obtain ⟨line, column⟩ := p
  obtain rfl : block.count '\n' = line := hcount
  have hoffset : Text.offset source.toList ⟨block.count '\n', column⟩ =
      (block ++ l.take (min column l.length)).length := by
    rw [hsource, Text.offset_behind hends, Text.offset_line hl hrest, List.length_append,
      List.length_take_of_le (Nat.min_le_right _ _)]
  have hparts : source.toList = block ++ l.take (min column l.length) ++
      (l.drop (min column l.length) ++ rest) := by
    rw [List.append_assoc, ← List.append_assoc (l.take _), List.take_append_drop, hsource]
  refine ⟨String.ofList block, String.ofList l, String.ofList rest, ?_, ?_, ?_, ?_, ?_, ?_⟩
  · apply String.toList_injective
    simp [hsource]
  · rwa [String.toList_ofList]
  · rw [String.toList_ofList]
  · rwa [String.toList_ofList]
  · rwa [String.toList_ofList]
  · rw [Utf8.offset?_of_offset hparts hoffset, Utf8.size_append, String.toList_ofList,
      String.length_ofList]
    rfl

theorem offset_monotone (h : p ≤ q) (hp : Utf8.offset? source p = some i)
    (hq : Utf8.offset? source q = some j) : i ≤ j := by
  rw [Utf8.offset?_eq, Option.some_inj] at hp hq
  rw [← hp, ← hq, ← Nat.not_lt,
    Utf8.size_take_lt_iff (Text.offset_le_length _ _) (Text.offset_le_length _ _), Nat.not_lt]
  exact Text.offset_mono h

theorem offset_placeAfter (head tail : String) :
    Utf8.offset? (head ++ tail) (Text.placeAfter head.toList) = some head.utf8ByteSize := by
  have hoffset : Text.offset (head ++ tail).toList (Text.placeAfter head.toList) =
      head.toList.length := by
    rw [String.toList_append, Text.offset_placeAfter]
  rw [Utf8.offset?_of_offset String.toList_append hoffset, Utf8.size_toList]

end Places

section Parts

variable {source s new : String} {r : Range}

theorem perform?_eq_none_iff (new : String) : (⟨some r, new⟩ : Edit).perform? source = none ↔
    ∃ i j, Utf8.offset? source r.start = some i ∧ Utf8.offset? source r.stop = some j ∧ j < i := by
  have hlt := Utf8.size_take_lt_iff (Text.offset_le_length source.toList r.stop)
    (Text.offset_le_length source.toList r.start)
  simp only [perform?, Utf8.offset?_eq, Option.some_inj]
  split <;> simp_all

/-- An edit that succeeds replaces a part of the text. -/
theorem exists_parts_of_perform? (h : (⟨some r, new⟩ : Edit).perform? source = some s) :
    ∃ pre w post, source = pre ++ w ++ post ∧ s = pre ++ new ++ post := by
  simp only [perform?] at h
  split at h
  · cases h
  · next hle =>
    have hparts := Text.take_append_drop_take (Nat.le_of_not_lt hle) source.toList
    rw [Option.some_inj] at h
    refine ⟨String.ofList (source.toList.take (Text.offset source.toList r.start)),
      String.ofList ((source.toList.take (Text.offset source.toList r.stop)).drop
        (Text.offset source.toList r.start)),
      String.ofList (source.toList.drop (Text.offset source.toList r.stop)), ?_, ?_⟩
    · rw [← String.ofList_append, hparts, ← String.ofList_append, List.take_append_drop,
        String.ofList_toList]
    · rw [← h, Text.splice, String.ofList_append, String.ofList_append, String.ofList_toList]

/-- An edit between the places of the ends of a part replaces that part. -/
theorem perform?_placeAfter (pre w post new : String) :
    (⟨some ⟨Text.placeAfter pre.toList, Text.placeAfter (pre ++ w).toList⟩, new⟩ : Edit).perform?
      (pre ++ w ++ post) = some (pre ++ new ++ post) := by
  have hsource : (pre ++ w ++ post).toList = pre.toList ++ (w.toList ++ post.toList) := by simp
  have hstart := Text.offset_placeAfter pre.toList (w.toList ++ post.toList)
  have hstop : Text.offset (pre ++ w ++ post).toList (Text.placeAfter (pre ++ w).toList) =
      pre.toList.length + w.toList.length := by
    rw [String.toList_append, Text.offset_placeAfter, String.toList_append, List.length_append]
  rw [← hsource] at hstart
  rw [perform?_of_offsets hsource hstart hstop, String.ofList_toList, String.ofList_toList]

end Parts

theorem splices (source : String) : Splices source where
  boundary := fun p => ⟨_, Utf8.offset?_eq source p, Utf8.isValid_size_take source _⟩
  below := fun p h => offset_below h
  within := fun p h => exists_line_of_offset h
  monotone := fun p q i j h hp hq => offset_monotone h hp hq
  offset_placeAfter := by
    intro i hi
    obtain ⟨head, tail, rfl, hhead⟩ := String.Pos.Raw.isValid_iff_exists_append.1 hi
    obtain rfl : i = head.utf8ByteSize := congrArg String.Pos.Raw.byteIdx hhead
    exact ⟨head, Utf8.slice?_head head tail, offset_placeAfter head tail⟩
  splice := by
    intro i j new hij hi hj
    obtain ⟨head, w, tail, rfl, rfl, rfl⟩ := Utf8.exists_append_of_isValid hij hi hj
    refine ⟨head, head ++ w, tail, ?_, ?_, ?_, ?_⟩
    · rw [String.append_assoc]
      exact Utf8.slice?_head head (w ++ tail)
    · rw [← String.utf8ByteSize_append]
      exact Utf8.slice?_head (head ++ w) tail
    · rw [← String.utf8ByteSize_append]
      exact Utf8.slice?_tail (head ++ w) tail
    · exact Utf8.perform?_eq_ok_iff.2 (perform?_placeAfter head w tail new)
  forward := by
    intro r new hle
    cases h : (⟨some r, new⟩ : Edit).perform? source with
    | none =>
      obtain ⟨i, j, hi, hj, hlt⟩ := (perform?_eq_none_iff new).1 h
      exact absurd (offset_monotone hle hi hj) (Nat.not_le_of_lt hlt)
    | some s => exact ⟨s, Utf8.perform?_eq_ok_iff.2 h⟩
  fails := by
    intro r new
    rw [Utf8.perform?_eq, ← perform?_eq_none_iff new]
    cases (⟨some r, new⟩ : Edit).perform? source <;> simp
  invalid := by
    intro store uri d hget htext r new
    subst htext
    rw [← perform?_eq_none_iff new]
    cases h : (⟨some r, new⟩ : Edit).perform? d.text with
    | none =>
      have hall : performAll? [⟨some r, new⟩] d.text = none := by rw [performAll?_cons, h]; rfl
      simp [DocumentStore.change_of_failure hget hall]
    | some s =>
      have hall : performAll? [⟨some r, new⟩] d.text = some s := by rw [performAll?_cons, h]; rfl
      simp [DocumentStore.change_of_success hget hall]
  undone := by
    intro r new s h
    obtain ⟨pre, w, post, rfl, rfl⟩ := exists_parts_of_perform? (Utf8.perform?_eq_ok_iff.1 h)
    exact ⟨_, w, Utf8.perform?_eq_ok_iff.2 (perform?_placeAfter pre new post w)⟩
  performed := fun e => Utf8.perform?_eq e source

end Edit

end GameSchema
