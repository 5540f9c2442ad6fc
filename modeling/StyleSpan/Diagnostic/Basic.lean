import StyleSpan.Code
import StyleSpan.Text.Lines

/-!
# StyleSpan.Diagnostic.Basic

Diagnostics explain what could not be done for a place of a text: why an
offset stayed unknown, why a text was left as it is.  They are collected
in a list with a limit, which refuses what comes after the limit and
counts it.

* `items_push` — what is kept is kept in order, and only below the limit;
* `size_add_dropped_push` — each diagnostic is kept or counted as dropped;
* `pushAll_append` — batches add up.
-/

namespace StyleSpan

/-- How much a diagnostic matters. -/
inductive Severity where
  | warning
  | note
deriving DecidableEq, Repr

namespace Severity

/-- The word for a severity. -/
def name : Severity → Text
  | warning => Text.ascii "warning"
  | note => Text.ascii "note"

/-- All severities, in the order of their numbers. -/
def all : List Severity := [warning, note]

/-- The word for a numbered severity, empty for a number out of range. -/
def nameOfCode (code : Int) : Text := ((Code.decode? all code).map name).getD []

end Severity

/-- A finding at a place.  `context` is the line of the text that holds the
place, `hint` a way to mend it; each may be empty. -/
structure Diagnostic where
  location : Location
  severity : Severity
  message : Text
  context : Text := []
  hint : Text := []
deriving DecidableEq, Repr

/-- Diagnostics in the order of their arrival, with a limit.  `warnings`
counts the kept warnings, `dropped` the diagnostics refused for the limit. -/
structure DiagnosticList where
  items : List Diagnostic := []
  limit : Nat := 100
  warnings : Nat := 0
  dropped : Nat := 0
deriving DecidableEq, Repr

namespace DiagnosticList

/-- The empty list with a limit. -/
def withLimit (limit : Nat) : DiagnosticList := { limit }

/-- The number of kept diagnostics. -/
def size (l : DiagnosticList) : Nat := l.items.length

/-- Whether the limit is reached. -/
def isFull (l : DiagnosticList) : Bool := l.limit ≤ l.size

/-- Whether nothing is kept. -/
def isEmpty (l : DiagnosticList) : Bool := l.items.isEmpty

/-- Whether a warning is kept. -/
def hasWarnings (l : DiagnosticList) : Bool := 0 < l.warnings

/-- The number of kept notes. -/
def notes (l : DiagnosticList) : Nat := l.size - l.warnings

/-- Keeps the diagnostic unless the limit is reached; the flag tells whether
it was kept. -/
def add (l : DiagnosticList) (d : Diagnostic) : DiagnosticList × Bool :=
  if l.isFull then ({ l with dropped := l.dropped + 1 }, false)
  else
    ({ l with
        items := l.items ++ [d]
        warnings := if d.severity = .warning then l.warnings + 1 else l.warnings }, true)

/-- The list after the diagnostic was kept or refused. -/
def push (l : DiagnosticList) (d : Diagnostic) : DiagnosticList := (l.add d).1

/-- The list after several diagnostics were kept or refused, in their order. -/
def pushAll (l : DiagnosticList) (ds : List Diagnostic) : DiagnosticList := ds.foldl push l

/-- Adds a warning. -/
def addWarning (l : DiagnosticList) (location : Location) (message : Text)
    (context : Text := []) (hint : Text := []) : DiagnosticList :=
  l.push { location, severity := .warning, message, context, hint }

/-- Adds a note. -/
def addNote (l : DiagnosticList) (location : Location) (message : Text) : DiagnosticList :=
  l.push { location, severity := .note, message }

/-- Changes the limit; what is kept stays, even past the new limit. -/
def setLimit (l : DiagnosticList) (limit : Nat) : DiagnosticList := { l with limit }

/-- Forgets everything but the limit. -/
def clear (l : DiagnosticList) : DiagnosticList := withLimit l.limit

/-! ## What an addition does -/

theorem isFull_eq_true {l : DiagnosticList} : l.isFull = true ↔ l.limit ≤ l.size :=
  decide_eq_true_iff

theorem isFull_eq_false {l : DiagnosticList} : l.isFull = false ↔ l.size < l.limit := by
  rw [isFull, decide_eq_false_iff_not, Nat.not_le]

/-- A full list counts what it drops. -/
theorem push_of_full {l : DiagnosticList} (h : l.isFull = true) (d : Diagnostic) :
    l.push d = { l with dropped := l.dropped + 1 } := by
  simp [push, add, h]

/-- A list with room keeps what is added, and counts it if it is a warning. -/
theorem push_of_not_full {l : DiagnosticList} (h : l.isFull = false) (d : Diagnostic) :
    l.push d =
      { l with
        items := l.items ++ [d]
        warnings := if d.severity = .warning then l.warnings + 1 else l.warnings } := by
  simp [push, add, h]

theorem items_push (l : DiagnosticList) (d : Diagnostic) :
    (l.push d).items = if l.isFull then l.items else l.items ++ [d] := by
  unfold push add
  split <;> simp

@[simp] theorem limit_push (l : DiagnosticList) (d : Diagnostic) : (l.push d).limit = l.limit := by
  unfold push add
  split <;> rfl

/-- A diagnostic is either kept or counted as dropped. -/
theorem size_add_dropped_push (l : DiagnosticList) (d : Diagnostic) :
    (l.push d).size + (l.push d).dropped = l.size + l.dropped + 1 := by
  unfold push add
  split <;> simp [size] <;> omega

/-- The flag of an addition tells whether the limit was not yet reached. -/
theorem add_snd (l : DiagnosticList) (d : Diagnostic) : (l.add d).2 = !l.isFull := by
  unfold add
  split <;> simp_all

@[simp] theorem pushAll_nil (l : DiagnosticList) : l.pushAll [] = l := rfl

@[simp] theorem pushAll_cons (l : DiagnosticList) (d : Diagnostic) (ds : List Diagnostic) :
    l.pushAll (d :: ds) = (l.push d).pushAll ds := rfl

/-- Adding one batch after another is adding both as one. -/
theorem pushAll_append (l : DiagnosticList) (ds es : List Diagnostic) :
    l.pushAll (ds ++ es) = (l.pushAll ds).pushAll es := by
  simp [pushAll, List.foldl_append]

end DiagnosticList

end StyleSpan
