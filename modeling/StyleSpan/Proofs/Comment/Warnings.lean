import StyleSpan.Diagnostic.Render
import StyleSpan.Proofs.Comment.Aborts
import StyleSpan.Proofs.Text.Lines

/-!
# StyleSpan.Proofs.Comment.Warnings

The warning of an abort, in a list and in print.  A carriage return aborts like a line
feed but ends no line, and a line is shown without the carriage returns at its end, so
that a column may lie behind what is shown.  That of an abort does not: the byte before
an abort breaks no line, hence the line as shown has all its bytes up to the abort.

* `pointsAt_locationAt` — a diagnostic with an offset and its line points at the offset;
* `lines_render_of_pointsAt` — in print the caret then stands under the byte;
* `warning_of_abort` — what an abort adds to a list, and how it prints.
-/

namespace StyleSpan

open Text

variable {t : Text} {offset : Nat} {d : Diagnostic}

/-! ## Diagnostics that point at a byte -/

namespace Diagnostic

/-- The diagnostic points at an offset of a text, and shows the line of it. -/
structure PointsAt (d : Diagnostic) (t : Text) (offset : Nat) : Prop where
  offset_eq : d.location.offset = offset
  isValid : d.location.isValid = true
  /-- Line and column lead to the word after the offset. -/
  index_eq : t.length < Offset.modulus →
    t.indexAt? d.location.position = Offset.ofWord? (offset + 1)
  /-- The column counts from the start of the line, and what is shown begins with the bytes
  from there up to the offset. -/
  line_eq : ∃ start, t.lineStart? d.location.line = some start ∧
    start + d.location.column = offset + 1 ∧
    d.context.take (d.location.column - 1) = t.slice start offset
  context_ne_nil : d.context ≠ []

/-- Behind a byte that breaks no line, an offset and its line make a diagnostic point there. -/
theorem pointsAt_locationAt (h : offset < t.length) (hpos : 0 < offset)
    (hbefore : isLineBreak (t.byteBefore offset) = false)
    (hlocation : d.location = t.locationAt offset)
    (hcontext : d.context = t.lineAt d.location.line) : d.PointsAt t offset := by
  have hle : offset ≤ t.length := Nat.le_of_lt h
  obtain ⟨hlast, hline⟩ := lineAt_of_isLineBreak_byteBefore hle hpos hbefore
  obtain ⟨hlength, -⟩ := slice_lastLine hle
  have hwithin : lastLineLength (t.take offset) ≤ offset := by
    rw [← hlength]
    exact Nat.le_trans (length_slice_le _ _ _) (Nat.sub_le _ _)
  rw [locationAt_eq hle] at hlocation
  have hcolumn : d.location.column = lastLineLength (t.take offset) + 1 := by
    rw [hlocation, positionAt]
  have hstart : t.lineStart? d.location.line = some (offset - lastLineLength (t.take offset)) := by
    rw [hlocation]
    exact lineStart?_positionAt hle
  have hshown : d.context = t.slice (offset - lastLineLength (t.take offset)) offset ++
      dropTrailing (· = cr) ((t.drop offset).takeWhile (· != lf)) := by
    rw [hcontext, hlocation]
    exact hline
  have htake : d.context.take (d.location.column - 1) =
      t.slice (offset - lastLineLength (t.take offset)) offset := by
    rw [hshown, hcolumn, Nat.add_sub_cancel]
    exact List.take_left' hlength
  have hindex : t.length < Offset.modulus →
      t.indexAt? d.location.position = Offset.ofWord? (offset + 1) := by
    intro hsize
    rw [hlocation]
    exact indexAt?_positionAt_eq_ofWord? hle (by omega)
  have hvalid : d.location.isValid = true := by
    rw [hlocation, Location.isValid, positionAt]
    simp
  have hne : d.context ≠ [] := by
    intro hnil
    rw [hshown, List.append_eq_nil_iff] at hnil
    rw [hnil.1, List.length_nil] at hlength
    omega
  exact ⟨by rw [hlocation], hvalid, hindex, ⟨_, hstart, by omega, htake⟩, hne⟩

/-- What is shown reaches to the column. -/
theorem PointsAt.column_le (h : d.PointsAt t offset) (hoffset : offset ≤ t.length) :
    d.location.column ≤ d.context.length + 1 := by
  obtain ⟨start, -, hcolumn, htake⟩ := h.line_eq
  have hlength := congrArg List.length htake
  rw [List.length_take, length_slice hoffset] at hlength
  omega

theorem PointsAt.column_pos (h : d.PointsAt t offset) : 0 < d.location.column := by
  have hvalid := h.isValid
  rw [Location.isValid, Bool.and_eq_true, decide_eq_true_eq, decide_eq_true_eq] at hvalid
  exact hvalid.2

/-- In print the caret stands under the byte, behind a tab for each tab. -/
theorem lines_render_of_pointsAt (h : d.PointsAt t offset) (hoffset : offset ≤ t.length)
    (hmessage : lf ∉ d.message) (hcontext : lf ∉ d.context) (hhint : lf ∉ d.hint)
    (hhelp : d.hint ≠ []) :
    ∃ fill : Text,
      d.render.lines =
        [d.headline, ascii "  " ++ d.context, ascii "  " ++ fill ++ ascii "^",
          ascii "  hint: " ++ d.hint, []] ∧
      fill.length = d.location.column - 1 ∧
      ∀ i < d.location.column - 1,
        fill[i]? = some (if d.context[i]? = some tab then tab else space) := by
  have hle := h.column_le hoffset
  refine ⟨caretFill d.context (d.location.column - 1),
    lines_render hmessage hcontext hhint h.context_ne_nil hhelp h.column_pos hle,
    length_caretFill (by omega), fun i hi => ?_⟩
  have hbyte : d.context[i]? = some d.context[i] := List.getElem?_eq_getElem (by omega)
  rw [getElem?_caretFill hi, hbyte, Option.map_some]
  simp only [Option.some.injEq]

end Diagnostic

/-! ## The warning of an abort -/

namespace Comment

variable {k : Nat} {context : Context}

/-- **The warning of an abort.**  An abort adds one warning to a list that is not full.  It points
at the line break, and in print the caret stands under it. -/
theorem warning_of_abort {l : DiagnosticList} (h : (sanitize t).verdict = .aborted k context)
    (hl : l.isFull = false) :
    ∃ d : Diagnostic,
      (sanitizeInto l t).2 = { l with items := l.items ++ [d], warnings := l.warnings + 1 } ∧
      d.severity = .warning ∧ d.PointsAt t k ∧
      ∃ fill : Text,
        d.render.lines =
          [d.headline, ascii "  " ++ d.context, ascii "  " ++ fill ++ ascii "^",
            ascii "  hint: close the string on the same line", []] ∧
        fill.length = d.location.column - 1 ∧
        ∀ i < d.location.column - 1,
          fill[i]? = some (if d.context[i]? = some tab then tab else space) := by
  have habort := isAbort_of_scan (verdict_sanitize.mp h)
  have hk : k ≤ t.length := Nat.le_of_lt habort.lt_length
  obtain ⟨d, hd⟩ : ∃ d, (Verdict.aborted k context).diagnostics t = [d] := ⟨_, rfl⟩
  have hfields := (List.cons.inj hd).1
  have hseverity : d.severity = .warning := by rw [← hfields]
  have hhint : d.hint = ascii "close the string on the same line" := by rw [← hfields]
  have hlocation : d.location = t.locationAt k := by rw [← hfields]
  have hcontext : d.context = t.lineAt d.location.line := by rw [← hfields]
  have hmessage : lf ∉ d.message := by
    have htext : d.message = ascii "line break inside " ++ context.brokenName ++
        ascii ", inline comments not sanitized" := by rw [← hfields]
    rw [htext]
    rcases habort.context_eq with rfl | rfl | rfl <;> decide
  have hpoints : d.PointsAt t k :=
    Diagnostic.pointsAt_locationAt habort.lt_length habort.follows.1 habort.follows.2 hlocation
      hcontext
  have hline : lf ∉ d.context := by
    rw [hcontext, hlocation, locationAt_eq hk]
    exact lf_not_mem_lineAt_positionAt hk
  have hprint := Diagnostic.lines_render_of_pointsAt hpoints hk hmessage hline
    (by rw [hhint]; decide) (by rw [hhint]; decide)
  rw [hhint] at hprint
  refine ⟨d, ?_, hseverity, hpoints, hprint⟩
  rw [sanitizeInto, h, hd, DiagnosticList.pushAll_cons, DiagnosticList.pushAll_nil,
    DiagnosticList.push_of_not_full hl, if_pos hseverity]

/-- A carriage return breaks a string behind a tab; the line is shown without it. -/
theorem warning_of_abort_carriageReturn :
    let t := ascii "a\r\n\tx: 'it\r\n"
    (sanitize t).verdict = .aborted 10 .singleQuote ∧
      DiagnosticList.isFull {} = false ∧
      (∃ d : Diagnostic, (sanitizeInto {} t).2.items = [d] ∧ d.PointsAt t 10) ∧
      (sanitizeInto {} t).2.items.map (fun d => (d.render.lines.drop 1).take 2) =
        [[ascii "  \tx: 'it", ascii "  \t      ^"]] := by
  intro t
  have hverdict : (sanitize t).verdict = .aborted 10 .singleQuote := by decide +kernel
  have hroom : DiagnosticList.isFull {} = false := by decide
  obtain ⟨d, hlist, -, hpoints, -⟩ := warning_of_abort hverdict hroom
  refine ⟨hverdict, hroom, ⟨d, ?_, hpoints⟩, by decide +kernel⟩
  rw [hlist]
  rfl

end Comment

end StyleSpan
