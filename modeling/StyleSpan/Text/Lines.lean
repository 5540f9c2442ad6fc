import StyleSpan.Offset
import StyleSpan.Text.Basic

/-!
# StyleSpan.Text.Lines

The lines of a text and the two ways to name a byte of it: by offset,
counted from 0, and by line and column, both counted from 1.  Lines end
at line feeds only, so a carriage return before one still belongs to its
line.

`indexAt?` adds a column to a line start, so that a 1-based column gives
the offset one past the byte it names; `locationAt` is the way back.

* `lineCount_eq` — there is one line more than there are line feeds;
* `lineStart?_isSome_iff` — lines from 1 to the line count have a start;
* `length_slice` — a slice inside the text is as long as its bounds are apart.
-/

namespace StyleSpan

/-- A line and a column, both counted from 1. -/
structure Position where
  line : Nat
  column : Nat
deriving DecidableEq, Repr

/-- A place in a text: an offset with its line and column. -/
structure Location where
  offset : Nat := 0
  line : Nat := 1
  column : Nat := 1
deriving DecidableEq, Repr

/-- Whether line and column can name a byte at all. -/
def Location.isValid (l : Location) : Bool := 0 < l.line && 0 < l.column

namespace Text

/-! ## Line starts -/

/-- The offsets just after the line feeds of a text that begins at `offset`. -/
def startsAfter (offset : Nat) : Text → List Nat
  | [] => []
  | b :: rest =>
    if b = lf then (offset + 1) :: startsAfter (offset + 1) rest
    else startsAfter (offset + 1) rest

/-- The offset of the first byte of each line; line 1 starts at 0. -/
def lineStarts (t : Text) : List Nat := 0 :: startsAfter 0 t

/-- The number of lines, one more than there are line feeds. -/
def lineCount (t : Text) : Nat := t.lineStarts.length

/-- The offset of the first byte of a line, for lines `1` to `lineCount`. -/
def lineStart? (t : Text) : Nat → Option Nat
  | 0 => none
  | line + 1 => t.lineStarts[line]?

/-- The start of the line plus the column. -/
def indexAt? (t : Text) (p : Position) : Option Nat :=
  (t.lineStart? p.line).bind fun start => Offset.ofWord? (Offset.add start p.column)

/-- The place of an offset; offsets past the end name the end. -/
def locationAt (t : Text) (offset : Nat) : Location :=
  let o := min offset t.length
  let line := t.lineStarts.countP (· ≤ o)
  { offset := o, line, column := o - (t.lineStart? line).getD 0 + 1 }

/-- The offset of the first line break at or after `offset`, or the end of the text. -/
def lineEndFrom (t : Text) (offset : Nat) : Nat :=
  min offset t.length + ((t.drop offset).takeWhile fun b => !isLineBreak b).length

/-! ## Pieces -/

/-- The bytes from `start` up to, not including, `stop`; empty unless the
text reaches to `stop`. -/
def slice (t : Text) (start stop : Nat) : Text :=
  if stop ≤ t.length then (t.take stop).drop start else []

/-- The end of a line: the offset of its line feed, or the end of the text. -/
def lineStop (t : Text) (line : Nat) : Nat :=
  match t.lineStart? (line + 1) with
  | some next => next - 1
  | none => t.length

/-- The content of a line without the carriage returns at its end; empty
for a line that the text does not have. -/
def lineAt (t : Text) (line : Nat) : Text :=
  match t.lineStart? line with
  | none => []
  | some start => dropTrailing (· = cr) (t.slice start (t.lineStop line))

/-! ## Counting -/

theorem length_startsAfter (offset : Nat) (t : Text) :
    (startsAfter offset t).length = t.count lf := by
  induction t generalizing offset with
  | nil => rfl
  | cons b rest ih =>
    rw [startsAfter, List.count_cons]
    split
    · simp_all
    · simp_all

/-- There is one line more than there are line feeds. -/
theorem lineCount_eq (t : Text) : t.lineCount = t.count lf + 1 := by
  simp [lineCount, lineStarts, length_startsAfter]

@[simp] theorem lineStart?_zero (t : Text) : t.lineStart? 0 = none := rfl

@[simp] theorem lineStart?_one (t : Text) : t.lineStart? 1 = some 0 := rfl

/-- A text has a start for the lines from 1 to its line count. -/
theorem lineStart?_isSome_iff (t : Text) (line : Nat) :
    (t.lineStart? line).isSome ↔ 1 ≤ line ∧ line ≤ t.lineCount := by
  cases line with
  | zero => simp
  | succ k =>
    rw [lineStart?, isSome_getElem?, lineCount]
    omega

theorem length_slice_le (t : Text) (start stop : Nat) :
    (t.slice start stop).length ≤ stop - start := by
  unfold slice
  split
  · rw [List.length_drop, List.length_take]; omega
  · simp

/-- A slice inside the text has as many bytes as its bounds are apart. -/
theorem length_slice {t : Text} {start stop : Nat} (h : stop ≤ t.length) :
    (t.slice start stop).length = stop - start := by
  rw [slice, if_pos h, List.length_drop, List.length_take, Nat.min_eq_left h]

end Text

end StyleSpan
