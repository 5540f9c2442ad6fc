import StyleSpan.Log.Logger
import StyleSpan.Log.Rule

/-!
# StyleSpan.Log.Config

Configuring a logger from a text of sections.  Only the lines of `[rules]`
sections are rules, and blank lines and lines that begin with `#` are none.
Rules are applied one after the other; a refused rule does not keep the
later ones from being applied, and the last failure is reported.

`foldl_next_append` and `next_of_header` are the two facts by which
configurations compose: lines are read one after the other, and a header
makes the section before it irrelevant.
-/

namespace StyleSpan

open Text

namespace Logger

/-! ## Rules -/

/-- Sends a category where a target says. -/
def retarget (l : Logger) (slot : Slot) : Target → Logger × Option Failure
  | .stdout => (l.setOutput (some slot) (some .stdout), none)
  | .stderr => (l.setOutput (some slot) (some .stderr), none)
  | .file path =>
    match l.store.openAppend? path with
    | none => (l, some .cannotAppend)
    | some (stream, store) =>
      ((setOutput { l with store } (some slot) (some stream)).update slot fun c =>
        { c with ownsOutput := true }, none)

/-- Applies a rule.  The level is set, and the category turned on, before the
target is looked at. -/
def applyRule (l : Logger) (r : Rule) : Logger × Option Failure :=
  match l.get r.category with
  | (l, none) => (l, some .tableFull)
  | (l, some slot) =>
    let l := l.update slot fun c => { c with threshold := r.level.rank, enabled := true }
    match r.target with
    | .error failure => (l, some failure)
    | .ok target => l.retarget slot target

/-- Reads a line as a rule and applies it. -/
def applyLine (l : Logger) (line : Text) : Logger × Option Failure :=
  match Rule.parse line with
  | .error failure => (l, some failure)
  | .ok rule => l.applyRule rule

/-! ## Sections -/

/-- A configuration being read: whether it is in a section of rules, and the
last failure. -/
structure Reading where
  logger : Logger
  inRules : Bool := false
  failure : Option Failure := none

/-- What a line is, by its first byte. -/
inductive LineKind where
  | empty
  | comment
  | header (rules : Bool)
  | entry
deriving DecidableEq, Repr

/-- The kind of a trimmed line. -/
def LineKind.ofLine : Text → LineKind
  | [] => .empty
  | b :: rest =>
    if b = openBracket then .header ((ascii "[rules]").isPrefixOf (b :: rest))
    else if b = hash then .comment
    else .entry

/-- Reads one more line. -/
def Reading.next (r : Reading) (rawLine : Text) : Reading :=
  let line := trim rawLine
  match LineKind.ofLine line with
  | .empty => r
  | .comment => r
  | .header rules => { r with inRules := rules }
  | .entry =>
    if r.inRules then
      match r.logger.applyLine line with
      | (logger, none) => { r with logger }
      | (logger, some failure) => { r with logger, failure := some failure }
    else r

/-- Configures a logger by a text. -/
def configure (l : Logger) (t : Text) : Logger × Option Failure :=
  let r := t.lines.foldl Reading.next { logger := l.withDefault }
  (r.logger, r.failure)

/-- Configures a logger by a text that may be missing. -/
def configure? (l : Logger) : Option Text → Logger × Option Failure
  | none => (l, some .noRules)
  | some t => l.configure t

/-- Configures a logger by the content of a file up to its first zero byte. -/
def configureFrom (l : Logger) (path : Text) : Logger × Option Failure :=
  match l.store.read? path with
  | none => (l, some .cannotRead)
  | some content => l.configure (content.takeWhile (· ≠ 0))

/-- Sets a logger up: by nothing, by a text if it has several lines or a
section, otherwise by a file. -/
def init (l : Logger) (config : Text) : Logger × Option Failure :=
  let l := l.withDefault
  if config = [] then (l, none)
  else if lf ∈ config ∨ openBracket ∈ config then l.configure config
  else l.configureFrom config

/-! ## Composition -/

/-- The lines of two texts joined by a line feed are read one after the other. -/
theorem foldl_next_append (r : Reading) (s t : Text) :
    (lines (s ++ lf :: t)).foldl Reading.next r =
      t.lines.foldl Reading.next (s.lines.foldl Reading.next r) := by
  rw [lines_append_lf, List.foldl_append]

/-- After a header it does not matter what section came before. -/
theorem next_of_header {rawLine : Text} {rules : Bool}
    (h : LineKind.ofLine (trim rawLine) = .header rules) (r : Reading) :
    r.next rawLine = { r with inRules := rules } := by
  simp [Reading.next, h]

end Logger

end StyleSpan
