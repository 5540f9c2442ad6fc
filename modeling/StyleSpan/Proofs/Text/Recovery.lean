import StyleSpan.Proofs.Text.Lines
import StyleSpan.Proofs.Text.Places
import StyleSpan.Proofs.Text.Prepend

/-!
# StyleSpan.Proofs.Text.Recovery

A text and its lines.  Cut at its line feeds a text falls into pieces, and it is these
pieces that the line starts find: the one with `i` pieces before it starts behind their
bytes and line feeds, and is line `i + 1`.  A line of the table is its piece without the
carriage returns at the end, so the text comes back when these are put back and line
feeds in between.

```
before            line i + 1        after
piece LF … LF     piece             LF piece …
```

* `intercalate_pieces` — pieces make up the text that was cut;
* `intercalate_eq_append` — what stands before and behind a piece;
* `lineAt_of_lines` — the line of a piece;
* `recovered_of_lines` — line starts, line feeds and lines of every text.
-/

namespace StyleSpan

namespace Text

variable {t line : Text} {sep : UInt8} {i : Nat}

/-! ## Pieces -/

/-- A text is what its pieces make up. -/
theorem intercalate_pieces (sep : UInt8) (t : Text) : [sep].intercalate (pieces sep t) = t := by
  induction t with
  | nil => rfl
  | cons b rest ih =>
    by_cases hb : b = sep
    · obtain ⟨piece, more, hrest⟩ := List.exists_cons_of_ne_nil (pieces_ne_nil sep rest)
      rw [hb, pieces_sep, hrest, List.intercalate_cons_cons, ← hrest, ih]
      rfl
    · obtain ⟨piece, more, hrest, hcons⟩ := pieces_cons_of_ne hb rest
      rw [hrest] at ih
      rw [hcons]
      cases more with
      | nil => rw [List.intercalate_singleton, ← ih, List.intercalate_singleton]
      | cons next more =>
        rw [List.intercalate_cons_cons, List.cons_append, List.cons_append,
          ← List.intercalate_cons_cons, ih]

theorem length_pieces (sep : UInt8) (t : Text) : (pieces sep t).length = t.count sep + 1 := by
  induction t with
  | nil => rfl
  | cons b rest ih =>
    by_cases hb : b = sep
    · rw [hb, pieces_sep, List.length_cons, ih, List.count_cons_self]
    · obtain ⟨piece, more, hrest, hcons⟩ := pieces_cons_of_ne hb rest
      rw [hcons, List.count_cons_of_ne hb, ← ih, hrest, List.length_cons, List.length_cons]

/-- A text has as many lines as are counted. -/
theorem length_lines (t : Text) : t.lines.length = t.lineCount := by
  rw [lines, length_pieces, lineCount_eq]

/-- Behind the first piece each stands behind its separator. -/
theorem intercalate_cons (sep : UInt8) (t : Text) (more : List Text) :
    [sep].intercalate (t :: more) = t ++ more.flatMap (sep :: ·) := by
  induction more generalizing t with
  | nil => rw [List.intercalate_singleton, List.flatMap_nil, List.append_nil]
  | cons next more ih =>
    rw [List.intercalate_cons_cons, ih, List.flatMap_cons, List.append_assoc,
      List.singleton_append, List.cons_append]

/-- Before a piece each stands before its separator. -/
theorem intercalate_eq_append {ts : List Text} (h : ts[i]? = some line) :
    [sep].intercalate ts =
      (ts.take i).flatMap (· ++ [sep]) ++ (line ++ (ts.drop (i + 1)).flatMap (sep :: ·)) := by
  induction ts generalizing i with
  | nil => cases h
  | cons t more ih =>
    cases i with
    | zero =>
      obtain rfl : t = line := Option.some.inj h
      exact intercalate_cons sep t more
    | succ i =>
      rw [List.getElem?_cons_succ] at h
      obtain ⟨next, later, hmore⟩ : ∃ next later, more = next :: later := by
        cases more with
        | nil => cases h
        | cons next later => exact ⟨next, later, rfl⟩
      rw [List.take_succ_cons, List.drop_succ_cons, List.flatMap_cons, List.append_assoc, ← ih h,
        hmore, List.intercalate_cons_cons]

/-! ## The line of a piece -/

theorem wholeLines_flatMap (ts : List Text) : WholeLines (ts.flatMap (· ++ [lf])) := by
  rcases List.eq_nil_or_concat ts with rfl | ⟨front, last, rfl⟩
  · exact .inl rfl
  · refine .inr ?_
    rw [List.concat_eq_append, List.flatMap_append, List.flatMap_singleton, ← List.append_assoc,
      List.getLast?_concat]

theorem count_flatMap_lf {ts : List Text} (h : ∀ t ∈ ts, lf ∉ t) :
    (ts.flatMap (· ++ [lf])).count lf = ts.length := by
  induction ts with
  | nil => rfl
  | cons t more ih =>
    have ht : t.count lf = 0 := List.count_eq_zero.mpr (h t List.mem_cons_self)
    have hmore := ih fun u hu => h u (List.mem_cons_of_mem t hu)
    rw [List.flatMap_cons, List.count_append, List.count_append, ht, hmore,
      List.count_singleton_self, List.length_cons]
    omega

/-- Whole lines are read back, and nothing stands behind the last line feed. -/
theorem lines_flatMap_lf {ts : List Text} (h : ∀ t ∈ ts, lf ∉ t) :
    lines (ts.flatMap (· ++ [lf])) = ts ++ [[]] := by
  induction ts with
  | nil => rfl
  | cons t more ih =>
    rw [List.flatMap_cons, List.append_assoc, List.singleton_append,
      lines_append_lf_of_not_mem (h t List.mem_cons_self),
      ih fun u hu => h u (List.mem_cons_of_mem t hu), List.cons_append]

/-- A piece stands between whole lines, as many as there are pieces before it, and the end of the
text or a line feed. -/
theorem exists_around_line (h : t.lines[i]? = some line) :
    ∃ before after, t = before ++ (line ++ after) ∧ before.WholeLines ∧ before.count lf = i ∧
      lf ∉ line ∧ ∀ b ∈ after.head?, b = lf := by
  have hpieces : ∀ piece ∈ t.lines, lf ∉ piece := fun piece => not_mem_of_mem_pieces
  have hlt := (List.getElem?_eq_some_iff.mp h).1
  have hcut : t = (t.lines.take i).flatMap (· ++ [lf]) ++
      (line ++ (t.lines.drop (i + 1)).flatMap (lf :: ·)) :=
    (intercalate_pieces lf t).symm.trans (intercalate_eq_append h)
  refine ⟨_, _, hcut, wholeLines_flatMap _, ?_, hpieces line (List.mem_of_getElem? h), ?_⟩
  · rw [count_flatMap_lf fun piece hmem => hpieces piece (List.mem_of_mem_take hmem),
      List.length_take, Nat.min_eq_left (Nat.le_of_lt hlt)]
  · cases t.lines.drop (i + 1) with
    | nil => exact nofun
    | cons next later => exact fun b hb => (Option.some.inj hb).symm

/-- A piece is a line of the table, but for the carriage returns at its end. -/
theorem lineAt_of_lines (h : t.lines[i]? = some line) :
    t.lineAt (i + 1) = dropTrailing (· = cr) line := by
  obtain ⟨before, after, rfl, hwhole, hcount, hline, hafter⟩ := exists_around_line h
  have hread : (line ++ after).takeWhile (· != lf) = line :=
    takeWhile_append_of_head? (fun b hb => bne_iff_ne.mpr fun heq => hline (heq ▸ hb))
      fun b hb => bne_eq_false_iff_eq.mpr (hafter b hb)
  have hle : before.length ≤ (before ++ (line ++ after)).length := by
    rw [List.length_append]
    omega
  have hat := lineAt_positionAt hle
  rw [positionAt, List.take_left, hcount, hwhole.lastLineLength_eq, List.drop_left, hread,
    Nat.sub_zero, slice, if_pos hle, List.take_left, List.drop_length, List.nil_append] at hat
  exact hat

/-- Only carriage returns are missing from a line of the table. -/
theorem exists_lineAt_append (h : t.lines[i]? = some line) :
    ∃ k, t.lineAt (i + 1) ++ List.replicate k cr = line := by
  obtain ⟨tail, hcut, htail⟩ := exists_dropTrailing_append (· = cr) line
  have hcr : tail = List.replicate tail.length cr :=
    List.eq_replicate_of_mem fun b hb => of_decide_eq_true (htail b hb)
  exact ⟨tail.length, by rw [lineAt_of_lines h, ← hcr, ← hcut]⟩

/-- A line that the text has is that of a piece. -/
theorem exists_piece {line : Nat} (h : 1 ≤ line ∧ line ≤ t.lineCount) :
    ∃ i piece, line = i + 1 ∧ t.lines[i]? = some piece := by
  obtain ⟨i, rfl⟩ := Nat.exists_eq_add_of_le' h.1
  have hlt : i < t.lines.length := by
    rw [length_lines]
    exact h.2
  exact ⟨i, t.lines[i], rfl, List.getElem?_eq_getElem hlt⟩

/-- Whatever the line number, some carriage returns make a piece of its line. -/
theorem exists_append_eq_piece (t : Text) (line : Nat) : ∃ k, ∀ i piece, line = 1 + i →
    t.lines[i]? = some piece → t.lineAt line ++ List.replicate k cr = piece := by
  by_cases hline : 1 ≤ line ∧ line ≤ t.lineCount
  · obtain ⟨i, piece, rfl, hpiece⟩ := exists_piece hline
    obtain ⟨k, hk⟩ := exists_lineAt_append hpiece
    refine ⟨k, fun j other hj hother => ?_⟩
    obtain rfl : i = j := by omega
    rw [hk, ← Option.some.injEq, ← hpiece, hother]
  · refine ⟨0, fun i piece hi hpiece => absurd ?_ hline⟩
    have hlt := (List.getElem?_eq_some_iff.mp hpiece).1
    rw [length_lines] at hlt
    omega

/-- The line numbers lead to all pieces. -/
theorem exists_lines_eq (t : Text) : ∃ crs : Nat → Nat,
    t.lines = (List.range' 1 t.lineCount).map fun line =>
      t.lineAt line ++ List.replicate (crs line) cr := by
  choose crs hcrs using exists_append_eq_piece t
  have hlength : t.lines.length = (List.range' 1 t.lineCount).length := by
    rw [length_lines, List.length_range']
  refine ⟨crs, List.ext_getElem (by rw [List.length_map, hlength]) fun i hi _ => ?_⟩
  rw [List.getElem_map, List.getElem_range', Nat.one_mul]
  exact (hcrs (1 + i) i t.lines[i] rfl (List.getElem?_eq_getElem hi)).symm

theorem getLast?_dropTrailing {p : UInt8 → Bool} {b : UInt8}
    (h : (dropTrailing p t).getLast? = some b) : p b = false := by
  rw [dropTrailing, List.getLast?_reverse] at h
  have hfirst := List.head?_dropWhile_not p t.reverse
  rwa [h] at hfirst

/-- A line that is not there is empty. -/
theorem lineAt_of_missing {line : Nat} (h : ¬ (1 ≤ line ∧ line ≤ t.lineCount)) :
    t.lineAt line = [] := by
  rw [← lineStart?_isSome_iff, Bool.not_eq_true, Option.isSome_eq_false_iff,
    Option.isNone_iff_eq_none] at h
  rw [lineAt, h]

/-- No line reaches over its line feed, and the carriage returns before it are not part of it. -/
theorem lineAt_ends (t : Text) (line : Nat) :
    lf ∉ t.lineAt line ∧ (t.lineAt line).getLast? ≠ some cr := by
  by_cases hline : 1 ≤ line ∧ line ≤ t.lineCount
  · obtain ⟨i, piece, rfl, hpiece⟩ := exists_piece hline
    rw [lineAt_of_lines hpiece]
    refine ⟨fun hmem => ?_, fun hlast => ?_⟩
    · exact not_mem_of_mem_pieces (List.mem_of_getElem? hpiece) (mem_of_mem_dropTrailing hmem)
    · exact absurd (getLast?_dropTrailing hlast) (by decide)
  · rw [lineAt_of_missing hline]
    exact ⟨List.not_mem_nil, by simp⟩

/-! ## Line feeds -/

/-- A line starts behind each line feed, and nowhere else but at the beginning. -/
theorem mem_startsAfter {offset start : Nat} :
    start ∈ startsAfter offset t ↔ ∃ i, t[i]? = some lf ∧ start = offset + i + 1 := by
  induction t generalizing offset with
  | nil => simp [startsAfter]
  | cons b rest ih =>
    have hrest : start ∈ startsAfter (offset + 1) rest ↔
        ∃ i, (b :: rest)[i + 1]? = some lf ∧ start = offset + (i + 1) + 1 := by
      simp only [ih, List.getElem?_cons_succ, Nat.add_right_comm, Nat.add_assoc]
    rw [startsAfter, ← Nat.or_exists_add_one, ← hrest, List.getElem?_cons_zero, Option.some.injEq]
    split
    · next hb => simp [hb]
    · next hb => simp [hb]

/-- The lines but the first start behind the line feeds. -/
theorem exists_lineStart?_iff {start : Nat} :
    (∃ line, 1 < line ∧ t.lineStart? line = some start) ↔ start ∈ startsAfter 0 t := by
  rw [List.mem_iff_getElem?]
  constructor
  · rintro ⟨line, hline, hstart⟩
    obtain ⟨i, rfl⟩ := Nat.exists_eq_add_of_le' hline
    exact ⟨i, hstart⟩
  · rintro ⟨i, hi⟩
    exact ⟨i + 2, by omega, hi⟩

/-- Lines start one behind the other. -/
theorem lineStart?_lt {line line' start start' : Nat} (hlt : line < line')
    (h : t.lineStart? line = some start) (h' : t.lineStart? line' = some start') :
    start < start' := by
  obtain ⟨j, rfl⟩ : ∃ j, line' = j + 1 := ⟨line' - 1, by omega⟩
  cases line with
  | zero => cases h
  | succ i =>
    obtain ⟨hi, rfl⟩ := List.getElem?_eq_some_iff.mp h
    obtain ⟨hj, rfl⟩ := List.getElem?_eq_some_iff.mp h'
    exact List.pairwise_iff_getElem.mp (pairwise_lineStarts t) i j hi hj (by omega)

/-! ## Every text -/

/-- **A text is recovered from its lines.**  The lines from 1 to the line count start one behind
the other, the first at 0 and the others just behind the line feeds, one for each.  No line holds a
line feed or ends in a carriage return, a line that the text does not have is empty, and the text is
the lines, each with some carriage returns behind it, joined by line feeds. -/
theorem recovered_of_lines (t : Text) :
    (∀ line, (t.lineStart? line).isSome ↔ 1 ≤ line ∧ line ≤ t.lineCount) ∧
    t.lineStart? 1 = some 0 ∧
    (∀ line line' start start', line < line' → t.lineStart? line = some start →
      t.lineStart? line' = some start' → start < start') ∧
    (∀ line, 1 < line → line ≤ t.lineCount →
      ∃ offset, t.lineStart? line = some (offset + 1) ∧ t[offset]? = some lf) ∧
    (∀ offset, t[offset]? = some lf →
      ∃ line, 1 < line ∧ line ≤ t.lineCount ∧ t.lineStart? line = some (offset + 1)) ∧
    (∀ line, lf ∉ t.lineAt line ∧ (t.lineAt line).getLast? ≠ some cr) ∧
    (∃ crs : Nat → Nat, t = [lf].intercalate ((List.range' 1 t.lineCount).map fun line =>
      t.lineAt line ++ List.replicate (crs line) cr)) ∧
    ∀ line, ¬ (1 ≤ line ∧ line ≤ t.lineCount) → t.lineAt line = [] := by
  refine ⟨lineStart?_isSome_iff t, lineStart?_one t,
    fun line line' start start' hlt h h' => lineStart?_lt hlt h h',
    fun line hfirst hlast => ?_, fun offset hlf => ?_,
    lineAt_ends t, ?_, fun line => lineAt_of_missing⟩
  · obtain ⟨start, hstart⟩ := Option.isSome_iff_exists.mp
      ((lineStart?_isSome_iff t line).mpr ⟨by omega, hlast⟩)
    obtain ⟨offset, hlf, rfl⟩ :=
      mem_startsAfter.mp (exists_lineStart?_iff.mp ⟨line, hfirst, hstart⟩)
    rw [Nat.zero_add] at hstart
    exact ⟨offset, hstart, hlf⟩
  · have hmem : offset + 1 ∈ startsAfter 0 t := mem_startsAfter.mpr ⟨offset, hlf, by omega⟩
    obtain ⟨line, hfirst, hstart⟩ := exists_lineStart?_iff.mpr hmem
    have hline := (lineStart?_isSome_iff t line).mp (by rw [hstart, Option.isSome_some])
    exact ⟨line, hfirst, hline.2, hstart⟩
  · obtain ⟨crs, hlines⟩ := exists_lines_eq t
    exact ⟨crs, hlines ▸ (intercalate_pieces lf t).symm⟩

end Text

end StyleSpan
