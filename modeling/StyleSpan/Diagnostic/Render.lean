import StyleSpan.Diagnostic.Basic

/-!
# StyleSpan.Diagnostic.Render

The printed form of diagnostics.  A diagnostic is a line
`line L, col C: severity: message`, then, each indented by two spaces, the
context line with a caret under the column, and the hint.  A list opens
with its counts and closes with the number of refused diagnostics.
-/

namespace StyleSpan

open Text

/-- The bytes that stand under the first `width` bytes of a context line:
a tab under a tab, a space under anything else. -/
def caretFill (context : Text) (width : Nat) : Text :=
  (context.take width).map fun b => if b = tab then tab else space

/-- The caret line, present if the column falls on the context line or just
after it. -/
def Diagnostic.caretLine (d : Diagnostic) : Text :=
  if 0 < d.location.column ∧ d.location.column ≤ d.context.length + 1 then
    ascii "  " ++ caretFill d.context (d.location.column - 1) ++ ascii "^\n"
  else []

/-- One diagnostic in print. -/
def Diagnostic.render (d : Diagnostic) : Text :=
  ascii "line " ++ decimal d.location.line ++ ascii ", col " ++ decimal d.location.column ++
  ascii ": " ++ d.severity.name ++ ascii ": " ++ d.message ++ ascii "\n" ++
  (if d.context = [] then [] else ascii "  " ++ d.context ++ ascii "\n" ++ d.caretLine) ++
  (if d.hint = [] then [] else ascii "  hint: " ++ d.hint ++ ascii "\n")

/-- A number with a noun, which takes an `s` unless the number is 1. -/
def counted (n : Nat) (noun : Text) : Text :=
  decimal n ++ ascii " " ++ noun ++ (if n = 1 then [] else ascii "s")

/-- All diagnostics in print, blank lines between them; empty if there are none. -/
def DiagnosticList.render (l : DiagnosticList) : Text :=
  if l.items = [] then []
  else
    ascii "Diagnostics (" ++ counted l.warnings Severity.warning.name ++ ascii ", " ++
    counted l.notes Severity.note.name ++ ascii "):\n\n" ++
    (ascii "\n").intercalate (l.items.map Diagnostic.render) ++
    (if l.dropped = 0 then []
      else ascii "\n(limit of " ++ decimal l.limit ++ ascii " reached, " ++ decimal l.dropped ++
        ascii " more not shown)\n")

theorem length_caretFill {context : Text} {width : Nat} (h : width ≤ context.length) :
    (caretFill context width).length = width := by
  simp [caretFill, Nat.min_eq_left h]

/-- A tab stands under a tab, a space under anything else. -/
theorem getElem?_caretFill {context : Text} {width i : Nat} (h : i < width) :
    (caretFill context width)[i]? = context[i]?.map fun b => if b = tab then tab else space := by
  rw [caretFill, List.getElem?_map, List.getElem?_take_of_lt h]

theorem lf_not_mem_caretFill (context : Text) (width : Nat) : lf ∉ caretFill context width := by
  rw [caretFill, List.mem_map]
  rintro ⟨b, -, hb⟩
  split at hb
  · exact absurd hb (by decide)
  · exact absurd hb (by decide)

/-! ## The printed lines -/

namespace Diagnostic

/-- The first line of a diagnostic in print. -/
def headline (d : Diagnostic) : Text :=
  ascii "line " ++ decimal d.location.line ++ ascii ", col " ++ decimal d.location.column ++
  ascii ": " ++ d.severity.name ++ ascii ": " ++ d.message

variable {d : Diagnostic}

theorem lf_not_mem_headline (h : lf ∉ d.message) : lf ∉ d.headline := by
  have hname : lf ∉ d.severity.name := by cases d.severity <;> decide
  have hphrases : lf ∉ ascii "line " ∧ lf ∉ ascii ", col " ∧ lf ∉ ascii ": " := by decide
  simp only [headline, List.mem_append, not_or]
  simp [lf_not_mem_decimal, h, hname, hphrases]

/-- A diagnostic prints as its headline, its context, the caret and its hint, a line for each, if
none of them breaks the line and the column falls on the context. -/
theorem lines_render (hmessage : lf ∉ d.message) (hcontext : lf ∉ d.context) (hhint : lf ∉ d.hint)
    (hsome : d.context ≠ []) (hhelp : d.hint ≠ []) (hpos : 0 < d.location.column)
    (hle : d.location.column ≤ d.context.length + 1) :
    d.render.lines =
      [d.headline, ascii "  " ++ d.context,
        ascii "  " ++ caretFill d.context (d.location.column - 1) ++ ascii "^",
        ascii "  hint: " ++ d.hint, []] := by
  have hbreak : ascii "\n" = [lf] := by decide
  have hcaret : ascii "^\n" = ascii "^" ++ [lf] := by decide
  have hprint : d.render = d.headline ++ lf :: (ascii "  " ++ d.context ++
      lf :: (ascii "  " ++ caretFill d.context (d.location.column - 1) ++ ascii "^" ++
        lf :: (ascii "  hint: " ++ d.hint ++ lf :: []))) := by
    rw [render, caretLine, if_neg hsome, if_pos ⟨hpos, hle⟩, if_neg hhelp, hbreak, hcaret, headline]
    simp only [List.append_assoc, List.nil_append, List.cons_append]
  have hfill := lf_not_mem_caretFill d.context (d.location.column - 1)
  have hphrases : lf ∉ ascii "  " ∧ lf ∉ ascii "^" ∧ lf ∉ ascii "  hint: " := by decide
  rw [hprint, lines_append_lf_of_not_mem (lf_not_mem_headline hmessage),
    lines_append_lf_of_not_mem, lines_append_lf_of_not_mem, lines_append_lf_of_not_mem]
  · rfl
  · simp [hphrases, hhint]
  · simp [hphrases, hfill]
  · simp [hphrases, hcontext]

end Diagnostic

end StyleSpan
