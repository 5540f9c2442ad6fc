import StyleSpan.Proofs.Text.Positions

/-!
# StyleSpan.Proofs.Text.Locations

The way from an offset to its line and column, which looks the offset up among
the line starts.  Those up to the offset are the starts of the lines that the
bytes before it make, so the look-up gives the position that these bytes have
(`positionAt`), and that position leads back to the offset.

* `locationAt_eq` — the location of an offset is its position;
* `indexAt?_locationAt` — from a location back to its offset.
-/

namespace StyleSpan

/-- The line and the column of a location. -/
def Location.position (l : Location) : Position := ⟨l.line, l.column⟩

namespace Text

/-- A line starts behind its line feed. -/
theorem bounds_of_mem_startsAfter {offset start : Nat} {t : Text}
    (h : start ∈ startsAfter offset t) : offset < start ∧ start ≤ offset + t.length := by
  induction t generalizing offset with
  | nil => cases h
  | cons b rest ih =>
    rw [startsAfter] at h
    rw [List.length_cons]
    split at h
    · rcases List.mem_cons.mp h with rfl | h
      · omega
      · have := ih h
        omega
    · have := ih h
      omega

/-- As many lines start up to an offset as the bytes before it make. -/
theorem countP_lineStarts {t : Text} {offset : Nat} (h : offset ≤ t.length) :
    t.lineStarts.countP (· ≤ offset) = (t.positionAt offset).line := by
  have hbefore : (0 :: startsAfter 0 (t.take offset)).countP (· ≤ offset) =
      (t.positionAt offset).line := by
    have hall : ∀ start ∈ 0 :: startsAfter 0 (t.take offset), decide (start ≤ offset) = true := by
      intro start hstart
      rcases List.mem_cons.mp hstart with rfl | hstart
      · simp
      · have hle := (bounds_of_mem_startsAfter hstart).2
        rw [List.length_take] at hle
        exact decide_eq_true (by omega)
    rw [List.countP_eq_length.mpr hall, List.length_cons, length_startsAfter, positionAt]
  have hafter : (startsAfter offset (t.drop offset)).countP (· ≤ offset) = 0 := by
    rw [List.countP_eq_zero]
    intro start hstart
    have hlt := (bounds_of_mem_startsAfter hstart).1
    simpa using hlt
  rw [lineStarts_eq_append h, List.countP_append, hbefore, hafter, Nat.add_zero]

/-- The location of an offset of the text is its position, found by the line starts. -/
theorem locationAt_eq {t : Text} {offset : Nat} (h : offset ≤ t.length) :
    t.locationAt offset =
      ⟨offset, (t.positionAt offset).line, (t.positionAt offset).column⟩ := by
  have hline := lastLineLength_take_le t offset
  have hcolumn : offset - (offset - lastLineLength (t.take offset)) + 1 =
      (t.positionAt offset).column := by
    simp only [positionAt]
    omega
  simp only [locationAt, Nat.min_eq_left h, countP_lineStarts h, lineStart?_positionAt h,
    Option.getD_some, hcolumn]

/-- The position of the location of an offset leads to the offset after it. -/
theorem indexAt?_locationAt {t : Text} {offset : Nat} (h : offset ≤ t.length)
    (hsize : offset + 1 < Offset.modulus - 1) :
    t.indexAt? (t.locationAt offset).position = some (offset + 1) := by
  rw [locationAt_eq h]
  exact indexAt?_positionAt h hsize

end Text

end StyleSpan
