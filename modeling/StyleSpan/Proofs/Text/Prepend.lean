import StyleSpan.Proofs.Text.Positions

/-!
# StyleSpan.Proofs.Text.Prepend

Whole lines in front of a text.  They move the lines of the text down and its bytes
back, and change nothing else: a line that the text does not have is not there in the
longer text either, and the end of a line is found in the same place.

* `lineStart?_append` — where the lines of the text start;
* `indexAt?_append` — the offset of a position;
* `lineEndFrom_append` — the end of a line.
-/

namespace StyleSpan

/-- The position as many lines further down. -/
def Position.addLines (lines : Nat) (p : Position) : Position := { p with line := p.line + lines }

namespace Text

variable {before t : Text}

/-- The text is made of whole lines, each with its line feed. -/
def WholeLines (t : Text) : Prop := t = [] ∨ t.getLast? = some lf

/-- Nothing follows the last line feed. -/
theorem WholeLines.lastLineLength_eq (h : t.WholeLines) : t.lastLineLength = 0 := by
  rcases h with rfl | h
  · rfl
  · obtain ⟨front, rfl⟩ := List.getLast?_eq_some_iff.mp h
    exact lastLineLength_append_lf front

theorem startsAfter_add (offset k : Nat) (t : Text) :
    startsAfter (offset + k) t = (startsAfter offset t).map (· + k) := by
  induction t generalizing offset with
  | nil => rfl
  | cons b rest ih =>
    have hrest := ih (offset + 1)
    rw [Nat.add_right_comm] at hrest
    rw [startsAfter, startsAfter, hrest]
    split
    · rw [List.map_cons, Nat.add_right_comm]
    · rfl

/-- Lines start as many bytes later as there are in front of them. -/
theorem lineStart?_append (h : before.WholeLines) {line : Nat} (hline : 1 ≤ line) :
    (before ++ t).lineStart? (line + before.count lf) =
      (t.lineStart? line).map (· + before.length) := by
  obtain ⟨i, rfl⟩ := Nat.exists_eq_add_of_le' hline
  have hlength : (0 :: startsAfter 0 before).length = before.count lf + 1 := by
    rw [List.length_cons, length_startsAfter]
  have hstarts : (before ++ t).lineStarts =
      (0 :: startsAfter 0 before) ++ startsAfter before.length t := by
    rw [lineStarts, startsAfter_append, Nat.zero_add, List.cons_append]
  rw [Nat.add_right_comm, lineStart?, hstarts]
  cases i with
  | zero =>
    have hlast := getElem?_startsAfter 0 before
    rw [h.lastLineLength_eq, Nat.zero_add, Nat.sub_zero] at hlast
    rw [Nat.zero_add, List.getElem?_append_left (by omega), hlast, lineStart?_one, Option.map_some,
      Nat.zero_add]
  | succ i =>
    have hmoved := startsAfter_add 0 before.length t
    rw [Nat.zero_add] at hmoved
    have hindex : i + 1 + before.count lf - (before.count lf + 1) = i := by omega
    rw [List.getElem?_append_right (by omega), hlength, hindex, hmoved, List.getElem?_map,
      lineStart?, lineStarts, List.getElem?_cons_succ]

/-- A position moved down names a byte that many bytes later, unless the sum wraps. -/
theorem indexAt?_append (h : before.WholeLines) {p : Position} (hline : 1 ≤ p.line)
    (hroom : ∀ start, t.lineStart? p.line = some start →
      start + p.column + before.length < Offset.modulus - 1) :
    (before ++ t).indexAt? (p.addLines (before.count lf)) =
      (t.indexAt? p).map (· + before.length) := by
  have hmoved : (before ++ t).lineStart? (p.addLines (before.count lf)).line =
      (t.lineStart? p.line).map (· + before.length) := lineStart?_append h hline
  cases hstart : t.lineStart? p.line with
  | none =>
    rw [hstart] at hmoved
    rw [indexAt?, indexAt?, hstart, hmoved]
    rfl
  | some start =>
    have hlt := hroom start hstart
    rw [hstart] at hmoved
    rw [indexAt?_of_lineStart? hstart (by omega), indexAt?_of_lineStart? hmoved, Option.map_some,
      Position.addLines, Nat.add_right_comm]
    rwa [Position.addLines, Nat.add_right_comm]

/-- Lines end as many bytes later as there are in front of them. -/
theorem lineEndFrom_append (before t : Text) (offset : Nat) :
    (before ++ t).lineEndFrom (offset + before.length) =
      t.lineEndFrom offset + before.length := by
  have hmin : min (offset + before.length) (before.length + t.length) =
      min offset t.length + before.length := by
    rw [Nat.add_comm before.length, Nat.add_min_add_right]
  rw [lineEndFrom, lineEndFrom, List.length_append, hmin, Nat.add_comm offset,
    List.drop_length_add_append, Nat.add_right_comm]

end Text

end StyleSpan
