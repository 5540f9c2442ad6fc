import Mathlib.Data.List.Induction
import StyleSpan.Text.Lines

/-!
# StyleSpan.Proofs.Text.Positions

The line and column of a byte, counted in the bytes before it, and the way
back by the line starts.  The start of the last line of a text is what is left
of the text when its last bytes without a line feed are taken away
(`getElem?_startsAfter`); as the line starts of a text begin with those of
what precedes an offset, this is the start of the line of that offset.

* `indexAt?_positionAt` — the position of a byte leads to the offset after it;
* `slice_of_append` — slices of a text that stands inside another one.
-/

namespace StyleSpan

namespace Text

/-! ## The position of a byte -/

/-- The number of bytes after the last line feed of a text. -/
def lastLineLength (t : Text) : Nat := (t.reverse.takeWhile fun b => b != lf).length

/-- The line and the column of an offset, counted from 1: one more than the line
feeds before it, and one more than the bytes between the last of them and it. -/
def positionAt (t : Text) (offset : Nat) : Position where
  line := (t.take offset).count lf + 1
  column := lastLineLength (t.take offset) + 1

theorem lastLineLength_le (t : Text) : t.lastLineLength ≤ t.length := by
  have hle : t.lastLineLength ≤ t.reverse.length := (List.takeWhile_prefix _).length_le
  rw [List.length_reverse] at hle
  exact hle

/-- The bytes after the last line feed before an offset are not more than the offset. -/
theorem lastLineLength_take_le (t : Text) (offset : Nat) :
    lastLineLength (t.take offset) ≤ offset := by
  have hle := lastLineLength_le (t.take offset)
  rw [List.length_take] at hle
  omega

theorem lastLineLength_append_lf (t : Text) : lastLineLength (t ++ [lf]) = 0 := by
  simp [lastLineLength]

theorem lastLineLength_append_of_ne {b : UInt8} (h : b ≠ lf) (t : Text) :
    lastLineLength (t ++ [b]) = t.lastLineLength + 1 := by
  simp [lastLineLength, h]

/-! ## Line starts by the bytes before them -/

/-- The lines of two texts, the second behind the first. -/
theorem startsAfter_append (offset : Nat) (s t : Text) :
    startsAfter offset (s ++ t) = startsAfter offset s ++ startsAfter (offset + s.length) t := by
  induction s generalizing offset with
  | nil => rfl
  | cons b rest ih =>
    have hoffset : offset + 1 + rest.length = offset + (rest.length + 1) := by omega
    rw [List.cons_append, startsAfter, startsAfter, ih, hoffset, List.length_cons]
    split
    · rfl
    · rfl

/-- The last line starts where the bytes after the last line feed begin. -/
theorem getElem?_startsAfter (offset : Nat) (t : Text) :
    (offset :: startsAfter offset t)[t.count lf]? =
      some (offset + t.length - t.lastLineLength) := by
  induction t using List.reverseRecOn with
  | nil => rfl
  | append_singleton t b ih =>
    rw [startsAfter_append, List.count_append, List.length_append, List.length_singleton]
    by_cases hb : b = lf
    · subst hb
      have hlen : (startsAfter offset t).length = t.count lf := length_startsAfter offset t
      have hstart : startsAfter (offset + t.length) [lf] = [offset + t.length + 1] := rfl
      rw [lastLineLength_append_lf, hstart, List.count_singleton_self, List.getElem?_cons_succ,
        ← hlen, List.getElem?_concat_length]
      rfl
    · have hnone : startsAfter (offset + t.length) [b] = [] := by
        rw [startsAfter, if_neg hb]
        rfl
      have hcount : [b].count lf = 0 := List.count_eq_zero.mpr (by simpa using Ne.symm hb)
      rw [lastLineLength_append_of_ne hb, hnone, hcount, List.append_nil, Nat.add_zero, ih]
      congr 1
      omega

/-- The lines that start up to an offset, and those that start after it. -/
theorem lineStarts_eq_append {t : Text} {offset : Nat} (h : offset ≤ t.length) :
    t.lineStarts = (0 :: startsAfter 0 (t.take offset)) ++ startsAfter offset (t.drop offset) := by
  have hlength : 0 + (t.take offset).length = offset := by
    rw [List.length_take, Nat.min_eq_left h, Nat.zero_add]
  conv => lhs; rw [lineStarts, ← List.take_append_drop offset t]
  rw [startsAfter_append, hlength]
  rfl

/-- The line of an offset starts as many bytes before it as the last line so far is long. -/
theorem lineStart?_positionAt {t : Text} {offset : Nat} (h : offset ≤ t.length) :
    t.lineStart? (t.positionAt offset).line =
      some (offset - lastLineLength (t.take offset)) := by
  have hlength : (t.take offset).length = offset := by
    rw [List.length_take, Nat.min_eq_left h]
  have hlast := getElem?_startsAfter 0 (t.take offset)
  rw [Nat.zero_add, hlength] at hlast
  rw [positionAt, lineStart?, lineStarts_eq_append h, List.getElem?_append_left, hlast]
  rw [List.length_cons, length_startsAfter]
  omega

/-- The index of a position is the sum of the line start and the column where that does not wrap. -/
theorem indexAt?_of_lineStart? {t : Text} {p : Position} {start : Nat}
    (hline : t.lineStart? p.line = some start) (hlt : start + p.column < Offset.modulus - 1) :
    t.indexAt? p = some (start + p.column) := by
  rw [indexAt?, hline, Option.bind_some, Offset.add_eq_of_lt (by omega), Offset.ofWord?_eq_some]
  exact ⟨by omega, rfl⟩

/-- A column counted from 1 has an index behind some byte, or none on a line that is not there. -/
theorem indexAt?_eq_none_or {t : Text} {p : Position} (hcolumn : 1 ≤ p.column)
    (hroom : ∀ start, t.lineStart? p.line = some start → start + p.column < Offset.modulus - 1) :
    t.indexAt? p = none ∨ ∃ o, t.indexAt? p = some (o + 1) := by
  cases hline : t.lineStart? p.line with
  | none => exact .inl (by rw [indexAt?, hline, Option.bind_none])
  | some start =>
    obtain ⟨column, hc⟩ := Nat.exists_eq_add_of_le' hcolumn
    refine .inr ⟨start + column, ?_⟩
    rw [indexAt?_of_lineStart? hline (hroom start hline), hc, Nat.add_assoc]

/-- The position of a byte leads to the word after its offset. -/
theorem indexAt?_positionAt_eq_ofWord? {t : Text} {offset : Nat} (h : offset ≤ t.length)
    (hsize : offset + 1 < Offset.modulus) :
    t.indexAt? (t.positionAt offset) = Offset.ofWord? (offset + 1) := by
  have hle := lastLineLength_take_le t offset
  have hsum : Offset.add (offset - lastLineLength (t.take offset)) (t.positionAt offset).column =
      offset + 1 := by
    rw [Offset.add_eq_of_lt]
    · simp only [positionAt]
      omega
    · simp only [positionAt]
      omega
  rw [indexAt?, lineStart?_positionAt h, Option.bind_some, hsum]

/-- The position of a byte leads to the offset after it. -/
theorem indexAt?_positionAt {t : Text} {offset : Nat} (h : offset ≤ t.length)
    (hsize : offset + 1 < Offset.modulus - 1) :
    t.indexAt? (t.positionAt offset) = some (offset + 1) := by
  rw [indexAt?_positionAt_eq_ofWord? h (by omega), Offset.ofWord?_eq_some]
  exact ⟨by omega, rfl⟩

/-! ## Slices -/

theorem slice_eq_take_drop {t : Text} {start stop : Nat} (h : stop ≤ t.length) :
    t.slice start stop = (t.drop start).take (stop - start) := by
  rw [slice, if_pos h, List.drop_take]

/-- A slice of a text that stands inside another one is a slice of the other one. -/
theorem slice_of_append {front t rest : Text} {start stop : Nat} (h : stop ≤ t.length) :
    slice (front ++ t ++ rest) (front.length + start) (front.length + stop) =
      t.slice start stop := by
  have hstop : front.length + stop ≤ (front ++ t ++ rest).length := by
    rw [List.length_append, List.length_append]
    omega
  rw [slice, if_pos hstop, slice, if_pos h, List.append_assoc, List.take_length_add_append,
    List.take_append_of_le_length h, List.drop_length_add_append]

end Text

end StyleSpan
