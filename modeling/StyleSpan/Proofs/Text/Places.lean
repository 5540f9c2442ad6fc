import StyleSpan.Proofs.Text.Lines

/-!
# StyleSpan.Proofs.Text.Places

The two names of a place of a text, by offset and by line and column.  The location
of an offset leads back to the offset; conversely a position adds a column to a line
start, and as the starts grow from line to line, looking the sum up among them finds
the same line, as long as the column stays before the next start.

* `countP_of_pairwise_lt` — the look-up in a growing list;
* `locationAt_of_lineStart?` — from a position of a line to its offset and back;
* `locationAt_inverse_indexAt` — each way undoes the other.
-/

namespace StyleSpan

namespace Text

/-! ## From offsets to positions -/

/-- Offsets past the end have the location of the end. -/
theorem locationAt_min (t : Text) (offset : Nat) :
    t.locationAt (min offset t.length) = t.locationAt offset := by
  simp only [locationAt, Nat.min_assoc, Nat.min_self]

/-- No line feed stands between the start of the line of an offset and the offset. -/
theorem lf_not_mem_slice_lineStart {t : Text} {offset : Nat} (h : offset ≤ t.length) :
    ∃ start, t.lineStart? (t.locationAt offset).line = some start ∧ start ≤ offset ∧
      lf ∉ t.slice start offset := by
  rw [locationAt_eq h]
  exact ⟨offset - lastLineLength (t.take offset), lineStart?_positionAt h, Nat.sub_le _ _,
    (slice_lastLine h).2⟩

/-! ## From positions to offsets -/

/-- Line starts increase. -/
theorem pairwise_startsAfter (offset : Nat) (t : Text) :
    (startsAfter offset t).Pairwise (· < ·) := by
  induction t generalizing offset with
  | nil => exact .nil
  | cons b rest ih =>
    rw [startsAfter]
    split
    · exact List.pairwise_cons.mpr
        ⟨fun start hstart => (bounds_of_mem_startsAfter hstart).1, ih (offset + 1)⟩
    · exact ih (offset + 1)

/-- Line starts grow from line to line. -/
theorem pairwise_lineStarts (t : Text) : t.lineStarts.Pairwise (· < ·) :=
  List.pairwise_cons.mpr
    ⟨fun _ hstart => (bounds_of_mem_startsAfter hstart).1, pairwise_startsAfter 0 t⟩

/-- In a growing list the entries up to a bound are those up to the last one not above it. -/
theorem countP_of_pairwise_lt {starts : List Nat} (h : starts.Pairwise (· < ·)) {i start o : Nat}
    (hi : starts[i]? = some start) (hle : start ≤ o)
    (hnext : ∀ next, starts[i + 1]? = some next → o < next) :
    starts.countP (· ≤ o) = i + 1 := by
  induction starts generalizing i with
  | nil => simp at hi
  | cons first rest ih =>
    obtain ⟨hfirst, hrest⟩ := List.pairwise_cons.mp h
    cases i with
    | zero =>
      cases hi
      have hnone : rest.countP (· ≤ o) = 0 := by
        cases rest with
        | nil => rfl
        | cons next more =>
          have hlt : o < next := hnext next rfl
          rw [List.countP_eq_zero]
          intro later hlater
          rcases List.mem_cons.mp hlater with rfl | hmore
          · simpa using hlt
          · have hgrow := (List.pairwise_cons.mp hrest).1 later hmore
            simpa using Nat.lt_trans hlt hgrow
      rw [List.countP_cons_of_pos (by simpa using hle), hnone]
    | succ i =>
      have hmem : start ∈ rest := List.mem_of_getElem? hi
      have hlt : first < start := hfirst start hmem
      rw [List.countP_cons_of_pos (by simpa using Nat.le_of_lt (Nat.lt_of_lt_of_le hlt hle)),
        ih hrest hi hnext]

/-- Where the line behind a line starts; behind the last line, where one would start if the
text went on with a line feed. -/
def nextStart (t : Text) (line : Nat) : Nat := (t.lineStart? (line + 1)).getD (t.length + 1)

theorem nextStart_le (t : Text) (line : Nat) : t.nextStart line ≤ t.length + 1 := by
  rw [nextStart, lineStart?]
  cases hnext : t.lineStarts[line]? with
  | none => simp
  | some next =>
    rw [Option.getD_some]
    rcases List.mem_cons.mp (List.mem_of_getElem? hnext) with rfl | hmem
    · omega
    · have hle := (bounds_of_mem_startsAfter hmem).2
      omega

/-- An offset between the start of a line and the next start has its location on that line. -/
theorem locationAt_of_lineStart? {t : Text} {line start column : Nat}
    (hline : t.lineStart? line = some start) (hlt : start + column < t.nextStart line) :
    t.locationAt (start + column) = ⟨start + column, line, column + 1⟩ := by
  have hlength := t.nextStart_le line
  cases line with
  | zero => cases hline
  | succ i =>
    have hnext : ∀ next, t.lineStarts[i + 1]? = some next → start + column < next := by
      intro next hnext
      rwa [nextStart, lineStart?, hnext, Option.getD_some] at hlt
    have hcount : t.lineStarts.countP (· ≤ start + column) = i + 1 :=
      countP_of_pairwise_lt t.pairwise_lineStarts hline (Nat.le_add_right _ _) hnext
    rw [locationAt, Nat.min_eq_left (by omega)]
    simp only [hcount, hline, Option.getD_some, Nat.add_sub_cancel_left]

/-- The offset of the byte that a position names, if it names one of the text. -/
def offsetAt? (t : Text) (p : Position) : Option Nat :=
  (t.lineStart? p.line).bind fun start =>
    if 1 ≤ p.column ∧ start + p.column ≤ t.length then some (start + p.column - 1) else none

/-- A position is that of a byte if the line is there and the column leads to a byte of the text. -/
theorem offsetAt?_eq_some {t : Text} {p : Position} {offset : Nat} :
    t.offsetAt? p = some offset ↔ ∃ start, t.lineStart? p.line = some start ∧ 1 ≤ p.column ∧
      start + p.column = offset + 1 ∧ offset < t.length := by
  rw [offsetAt?, Option.bind_eq_some_iff]
  refine exists_congr fun start => and_congr_right fun _ => ?_
  rw [Option.ite_none_right_eq_some, Option.some.injEq]
  omega

/-- The position of a byte leads to the word after its offset. -/
theorem indexAt?_of_offsetAt? {t : Text} {p : Position} {offset : Nat}
    (h : t.offsetAt? p = some offset) (hsize : t.length < Offset.modulus) :
    t.indexAt? p = Offset.ofWord? (offset + 1) := by
  obtain ⟨start, hstart, hcolumn, hsum, hlt⟩ := offsetAt?_eq_some.mp h
  rw [indexAt?, hstart, Option.bind_some, Offset.add_eq_of_lt (by omega), hsum]

/-! ## Both ways -/

/-- **Offsets and positions are the same places.**  The location of an offset names a line and a
column of the text that lead back to the offset, with no line feed since the line began; and a
line of the text and a column before the next line lead to an offset with that location.  As any
text in memory, the text leaves room for an offset behind its end. -/
theorem locationAt_inverse_indexAt (t : Text) (hsize : t.length < Offset.modulus - 2) :
    (∀ offset,
      let o := min offset t.length
      let l := t.locationAt offset
      l.offset = o ∧ 1 ≤ l.line ∧ l.line ≤ t.lineCount ∧ 1 ≤ l.column ∧
      t.indexAt? l.position = some (o + 1) ∧
      ∃ start, t.lineStart? l.line = some start ∧ start ≤ o ∧ lf ∉ t.slice start o) ∧
    ∀ line, 1 ≤ line → line ≤ t.lineCount → ∃ start, t.lineStart? line = some start ∧
      ∀ column, 1 ≤ column → column ≤ t.nextStart line - start →
        ∃ offset, t.indexAt? ⟨line, column⟩ = some (offset + 1) ∧
          t.locationAt offset = ⟨offset, line, column⟩ := by
  constructor
  · intro offset o l
    have ho : o ≤ t.length := Nat.min_le_right _ _
    have hl : l = t.locationAt o := (t.locationAt_min offset).symm
    obtain ⟨start, hstart, hle, hlf⟩ := lf_not_mem_slice_lineStart ho
    have hline := (t.lineStart?_isSome_iff l.line).mp (by rw [hl, hstart]; rfl)
    refine ⟨rfl, hline.1, hline.2, Nat.le_add_left 1 _, ?_, start, ?_, hle, hlf⟩
    · rw [hl]
      exact indexAt?_locationAt ho (by omega)
    · rw [hl]
      exact hstart
  · intro line hpos hcount
    obtain ⟨start, hstart⟩ :=
      Option.isSome_iff_exists.mp ((t.lineStart?_isSome_iff line).mpr ⟨hpos, hcount⟩)
    refine ⟨start, hstart, fun column hcolumn hle => ?_⟩
    have hlength := t.nextStart_le line
    obtain ⟨k, rfl⟩ : ∃ k, column = k + 1 := ⟨column - 1, by omega⟩
    refine ⟨start + k, ?_, locationAt_of_lineStart? hstart (by omega)⟩
    exact indexAt?_of_lineStart? (p := ⟨line, k + 1⟩) hstart (show start + (k + 1) < _ by omega)

/-- The empty line behind the last line feed has one column, that of the end of the text. -/
theorem locationAt_behindLineFeed :
    let t : Text := ascii "a\n\n"
    t.length < Offset.modulus - 2 ∧ t.lineCount = 3 ∧
      t.indexAt? (t.locationAt 9).position = some 4 ∧
      t.locationAt 3 = ⟨3, 3, 1⟩ := by
  intro t
  have hsize : t.length < Offset.modulus - 2 := by decide
  obtain ⟨hback, hforth⟩ := locationAt_inverse_indexAt t hsize
  obtain ⟨-, -, -, -, hindex, -⟩ := hback 9
  obtain ⟨start, hstart, hcolumns⟩ := hforth 3 (by decide) (by decide)
  obtain rfl : start = 3 := Option.some.inj (hstart.symm.trans (by decide))
  obtain ⟨offset, hoffset, hlocation⟩ := hcolumns 1 (by decide) (by decide)
  obtain rfl : offset = 3 := Nat.succ.inj (Option.some.inj (hoffset.symm.trans (by decide)))
  exact ⟨hsize, by decide, hindex, hlocation⟩

end Text

end StyleSpan
