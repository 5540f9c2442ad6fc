import StyleSpan.Proofs.Text.Offsets

/-!
# StyleSpan.Proofs.Text.Breaks

Texts that break their lines at the same offsets.  Lines and columns are
counted from line feeds, and a line ends at a line feed or a carriage return;
no other byte of a text matters to a position.

* `lineStarts_of_sameBreaks` — the lines of both texts start at the same offsets;
* `indexAt?_of_sameBreaks` — a position is the same offset in both;
* `lineEndFrom_of_sameBreaks` — from any offset on, the line ends at the same one.
-/

namespace StyleSpan

namespace Text

/-- The texts are of one length, with their line feeds at the same offsets and
their carriage returns at the same offsets. -/
structure SameBreaks (t t' : Text) : Prop where
  length_eq : t'.length = t.length
  lf_iff : ∀ p, t'.byteAt p = lf ↔ t.byteAt p = lf
  cr_iff : ∀ p, t'.byteAt p = cr ↔ t.byteAt p = cr

variable {t t' : Text}

/-! ## One byte at a time -/

/-- A byte breaks the line in both texts or in none. -/
theorem SameBreaks.isLineBreak_eq (h : SameBreaks t t') (p : Nat) :
    isLineBreak (t'.byteAt p) = isLineBreak (t.byteAt p) := by
  simp [isLineBreak, h.lf_iff, h.cr_iff]

/-- What follows an offset breaks at the same offsets, too. -/
theorem SameBreaks.drop (h : SameBreaks t t') (i : Nat) : SameBreaks (t.drop i) (t'.drop i) where
  length_eq := by simp [h.length_eq]
  lf_iff p := by simp [byteAt_drop, h.lf_iff]
  cr_iff p := by simp [byteAt_drop, h.cr_iff]

theorem SameBreaks.of_cons {b b' : UInt8} (h : SameBreaks (b :: t) (b' :: t')) :
    SameBreaks t t' := h.drop 1

/-! ## Lines -/

/-- Lines start at the same offsets. -/
theorem startsAfter_of_sameBreaks (h : SameBreaks t t') (offset : Nat) :
    startsAfter offset t' = startsAfter offset t := by
  induction t generalizing t' offset with
  | nil =>
    have hnil : t' = [] := List.length_eq_zero_iff.mp h.length_eq
    rw [hnil]
  | cons b rest ih =>
    obtain ⟨b', rest', rfl⟩ := List.exists_cons_of_length_eq_add_one h.length_eq
    have hb : b' = lf ↔ b = lf := h.lf_iff 0
    have hrest := ih h.of_cons (offset + 1)
    simp only [startsAfter, hb, hrest]

theorem lineStarts_of_sameBreaks (h : SameBreaks t t') : t'.lineStarts = t.lineStarts := by
  rw [lineStarts, lineStarts, startsAfter_of_sameBreaks h]

/-- A position stands at the same offset, whatever the bytes there are. -/
theorem indexAt?_of_sameBreaks (h : SameBreaks t t') (p : Position) :
    t'.indexAt? p = t.indexAt? p := by
  have hstart : t'.lineStart? p.line = t.lineStart? p.line := by
    cases hline : p.line with
    | zero => rfl
    | succ line => rw [lineStart?, lineStart?, lineStarts_of_sameBreaks h]
  rw [indexAt?, indexAt?, hstart]

private theorem length_takeWhile_of_sameBreaks (h : SameBreaks t t') :
    (t'.takeWhile fun b => !isLineBreak b).length =
      (t.takeWhile fun b => !isLineBreak b).length := by
  induction t generalizing t' with
  | nil =>
    have hnil : t' = [] := List.length_eq_zero_iff.mp h.length_eq
    rw [hnil]
  | cons b rest ih =>
    obtain ⟨b', rest', rfl⟩ := List.exists_cons_of_length_eq_add_one h.length_eq
    have hb : isLineBreak b' = isLineBreak b := h.isLineBreak_eq 0
    have hrest := ih h.of_cons
    rw [List.takeWhile_cons, List.takeWhile_cons, hb]
    cases isLineBreak b with
    | true => rfl
    | false => simp [hrest]

/-- A line ends at the same offset. -/
theorem lineEndFrom_of_sameBreaks (h : SameBreaks t t') (offset : Nat) :
    t'.lineEndFrom offset = t.lineEndFrom offset := by
  rw [lineEndFrom, lineEndFrom, h.length_eq, length_takeWhile_of_sameBreaks (h.drop offset)]

end Text

end StyleSpan
