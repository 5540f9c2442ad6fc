import StyleSpan.Proofs.Text.Locations
import StyleSpan.Proofs.Text.Offsets

/-!
# StyleSpan.Proofs.Text.Lines

The line that an offset stands in.  It has the bytes from the last line feed before the
offset up to the next one after it, but for the carriage returns at its end.  If the
byte before the offset breaks no line, these stand behind the offset, and what the line
has before it stays whole.

* `lineAt_positionAt` — the line of an offset, its part before and its part behind;
* `lineAt_of_isLineBreak_byteBefore` — a line of which the part before stays whole;
* `lf_not_mem_lineAt_positionAt` — a line holds no line feed.
-/

namespace StyleSpan

namespace Text

variable {s t : Text} {offset : Nat} {p : UInt8 → Bool} {b : UInt8}

/-! ## Bytes at the end -/

/-- A last byte outside of the class stays, with all that stands before it. -/
theorem dropTrailing_append (hlast : s.getLast? = some b) (hb : p b = false) (t : Text) :
    dropTrailing p (s ++ t) = s ++ dropTrailing p t := by
  obtain ⟨front, rfl⟩ := List.getLast?_eq_some_iff.mp hlast
  simp only [dropTrailing, List.reverse_append, List.dropWhile_append]
  -- dropping stops in `t`, or else at the last byte of `s`
  split
  · next hall => simp [List.isEmpty_iff.mp hall, hb]
  · simp

theorem mem_of_mem_dropTrailing (h : b ∈ dropTrailing p s) : b ∈ s := by
  obtain ⟨tail, hs, -⟩ := exists_dropTrailing_append p s
  rw [hs]
  exact List.mem_append_left tail h

/-- What stands before the first line feed of a text holds none. -/
theorem lf_not_mem_takeWhile (s : Text) : lf ∉ s.takeWhile (· != lf) := by
  intro hmem
  simpa using List.all_eq_true.mp List.all_takeWhile lf hmem

/-- A text is cut behind its last line feed. -/
theorem exists_append_lastLine (s : Text) :
    ∃ front last, s = front ++ last ∧ last.length = s.lastLineLength ∧ lf ∉ last := by
  refine ⟨(s.reverse.dropWhile (· != lf)).reverse, (s.reverse.takeWhile (· != lf)).reverse,
    ?_, ?_, ?_⟩
  · rw [← List.reverse_append, List.takeWhile_append_dropWhile, List.reverse_reverse]
  · rw [List.length_reverse, lastLineLength]
  · rw [List.mem_reverse]
    exact lf_not_mem_takeWhile s.reverse

/-! ## The end of a line -/

/-- A line reaches to the line feed before the next start, or to the end of the text. -/
theorem stop_of_startsAfter (offset : Nat) (t : Text) :
    (match (startsAfter offset t)[0]? with
      | some next => next - 1
      | none => offset + t.length) = offset + (t.takeWhile (· != lf)).length := by
  induction t generalizing offset with
  | nil => rfl
  | cons b rest ih =>
    by_cases hb : b = lf
    · simp [startsAfter, hb]
    · have hrest := ih (offset + 1)
      have hlength : offset + (b :: rest).length = offset + 1 + rest.length := by
        rw [List.length_cons]
        omega
      rw [startsAfter, if_neg hb, hlength, hrest, List.takeWhile_cons_of_pos (by simpa using hb),
        List.length_cons]
      omega

/-- The line of an offset reaches to the next line feed. -/
theorem lineStop_positionAt (h : offset ≤ t.length) :
    t.lineStop (t.positionAt offset).line =
      offset + ((t.drop offset).takeWhile (· != lf)).length := by
  have hnext : t.lineStart? ((t.positionAt offset).line + 1) =
      (startsAfter offset (t.drop offset))[0]? := by
    rw [lineStart?, lineStarts_eq_append h, positionAt, List.getElem?_append_right]
    · rw [List.length_cons, length_startsAfter, Nat.sub_self]
    · exact Nat.le_of_eq (by rw [List.length_cons, length_startsAfter])
  have hlength : t.length = offset + (t.drop offset).length := by
    rw [List.length_drop]
    omega
  rw [lineStop, hnext, hlength]
  exact stop_of_startsAfter offset (t.drop offset)

/-! ## The line of an offset -/

theorem slice_append_slice {start mid stop : Nat} (h₁ : start ≤ mid) (h₂ : mid ≤ stop)
    (h : stop ≤ t.length) : t.slice start mid ++ t.slice mid stop = t.slice start stop := by
  have hmid : (t.take mid).drop start = ((t.take stop).take mid).drop start := by
    rw [List.take_take, Nat.min_eq_left h₂]
  rw [slice, if_pos (Nat.le_trans h₂ h), slice, if_pos h, slice, if_pos h, hmid,
    ← List.drop_append_of_le_length, List.take_append_drop]
  rw [List.length_take, List.length_take]
  omega

/-- The bytes from the last line feed before an offset up to the offset. -/
theorem slice_lastLine (h : offset ≤ t.length) :
    (t.slice (offset - lastLineLength (t.take offset)) offset).length =
      lastLineLength (t.take offset) ∧
    lf ∉ t.slice (offset - lastLineLength (t.take offset)) offset := by
  obtain ⟨front, last, hcut, hlength, hlf⟩ := exists_append_lastLine (t.take offset)
  have hfront : offset - lastLineLength (t.take offset) = front.length := by
    have hsum := congrArg List.length hcut
    rw [List.length_take, Nat.min_eq_left h, List.length_append] at hsum
    omega
  rw [hfront, slice, if_pos h, hcut, List.drop_left, hlength, ← hcut]
  exact ⟨rfl, hlf⟩

/-- **The line of an offset.**  It has the bytes since the last line feed before the offset and
those up to the next one, without the carriage returns at its end. -/
theorem lineAt_positionAt (h : offset ≤ t.length) :
    t.lineAt (t.positionAt offset).line =
      dropTrailing (· = cr) (t.slice (offset - lastLineLength (t.take offset)) offset ++
        (t.drop offset).takeWhile (· != lf)) := by
  have hprefix := List.takeWhile_prefix (· != lf) (l := t.drop offset)
  have hstop : offset + ((t.drop offset).takeWhile (· != lf)).length ≤ t.length := by
    have hle := hprefix.length_le
    rw [List.length_drop] at hle
    omega
  have hbehind : t.slice offset (offset + ((t.drop offset).takeWhile (· != lf)).length) =
      (t.drop offset).takeWhile (· != lf) := by
    rw [slice_eq_take_drop hstop, Nat.add_sub_cancel_left, ← List.prefix_iff_eq_take.mp hprefix]
  rw [lineAt, lineStart?_positionAt h, lineStop_positionAt h]
  dsimp only
  rw [← slice_append_slice (Nat.sub_le _ _) (Nat.le_add_right _ _) hstop, hbehind]

theorem lf_not_mem_lineAt_positionAt (h : offset ≤ t.length) :
    lf ∉ t.lineAt (t.positionAt offset).line := by
  rw [lineAt_positionAt h]
  intro hmem
  rcases List.mem_append.mp (mem_of_mem_dropTrailing hmem) with hbefore | hbehind
  · exact (slice_lastLine h).2 hbefore
  · exact lf_not_mem_takeWhile _ hbehind

/-- Behind a byte that breaks no line, the line of an offset keeps what it has before it. -/
theorem lineAt_of_isLineBreak_byteBefore (h : offset ≤ t.length) (hpos : 0 < offset)
    (hb : isLineBreak (t.byteBefore offset) = false) :
    0 < lastLineLength (t.take offset) ∧
    t.lineAt (t.positionAt offset).line =
      t.slice (offset - lastLineLength (t.take offset)) offset ++
        dropTrailing (· = cr) ((t.drop offset).takeWhile (· != lf)) := by
  obtain ⟨i, rfl⟩ : ∃ i, offset = i + 1 := ⟨offset - 1, by omega⟩
  rw [byteBefore_succ, isLineBreak, Bool.or_eq_false_iff, decide_eq_false_iff_not] at hb
  have htake : t.take (i + 1) = t.take i ++ [t.byteAt i] := by
    rw [List.take_add_one, List.getElem?_eq_getElem h, Option.toList_some, byteAt_eq_getElem h]
  have hpos : 0 < lastLineLength (t.take (i + 1)) := by
    rw [htake, lastLineLength_append_of_ne hb.1]
    omega
  have hlast : (t.slice (i + 1 - lastLineLength (t.take (i + 1))) (i + 1)).getLast? =
      some (t.byteAt i) := by
    rw [slice, if_pos h, List.getLast?_drop, htake, List.getLast?_concat, if_neg]
    rw [← htake, List.length_take, Nat.min_eq_left h]
    omega
  refine ⟨hpos, ?_⟩
  rw [lineAt_positionAt h, dropTrailing_append hlast hb.2]

end Text

end StyleSpan
