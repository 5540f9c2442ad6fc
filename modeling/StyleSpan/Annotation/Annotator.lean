import StyleSpan.Annotation.Table
import StyleSpan.Annotation.Walk
import StyleSpan.Diagnostic.Basic
import StyleSpan.Log.Level

/-!
# StyleSpan.Annotation.Annotator

Annotating trees of one document.  An annotator holds the document and the
options, and after each tree the diagnostics and the number of cut sub-trees
for it; the table of spans and the log of the walk are the result.

Each part of the result is read off the visits of the walk: `Visit.entry?`
gives the table, `Visit.diagnostics` the diagnostics, `Visit.messages` the
log.
-/

namespace StyleSpan

open Text

/-- How trees are annotated.  Nodes deeper than `maxDepth` are left alone, 0
being no limit. -/
structure Options where
  maxDepth : Nat := 0
  collectDiagnostics : Bool := true
  maxDiagnostics : Nat := 100
deriving DecidableEq, Repr

/-- Which bounds of a span are unknown, in words. -/
def Span.unknownBounds (s : Span) : Text :=
  match s.start, s.stop with
  | none, none => ascii "start and end"
  | none, some _ => ascii "start"
  | some _, _ => ascii "end"

namespace Visit

/-- Whether the visit leaves a sub-tree alone. -/
def isCut : Visit → Bool
  | cut _ => true
  | _ => false

/-- The entry of the table: nodes with a source that were entered. -/
def entry? (document : Text) : Visit → Option (Path × Span)
  | entered path scope n =>
    if n.source.isSome then some (path, scope.spanOf document n) else none
  | _ => none

/-- The span of a node of the document that has a source but not both bounds. -/
def unresolved? (document : Text) : Scope → Node → Option Span
  | .document, n =>
    let span := n.spanIn document
    if n.source.isSome && !span.resolved then some span else none
  | .value _ _, _ => none

/-- What is to be said to the user about a visit: notes on what stayed unknown
in the document, warnings on what was left alone. -/
def diagnostics (document : Text) : Visit → List Diagnostic
  | cut n =>
    [{ location := n.locationIn document
       severity := .warning
       message := n.kind.name ++ ascii " exceeds maximum nesting depth, not annotated" }]
  | entered _ scope n =>
    match unresolved? document scope n with
    | some span =>
      [{ location := n.locationIn document
         severity := .note
         message := n.kind.name ++ ascii ": " ++ span.unknownBounds ++
          ascii (if span.start = none ∧ span.stop = none then " offsets unknown"
            else " offset unknown") }]
    | none => []
  | opened owner _ none =>
    [{ location := owner.locationIn document
       severity := .note
       message := owner.kind.name ++ ascii ": start unknown, value offsets unknown" }]
  | opened _ _ (some _) => []

/-- What is logged about a visit, cut sub-trees apart. -/
def messages (document : Text) : Visit → List Message
  | cut _ => []
  | entered _ scope n =>
    match unresolved? document scope n with
    | some span =>
      [⟨.debug, ascii "[CSS Loc] " ++ n.kind.name ++ ascii ": " ++ span.unknownBounds ++
        ascii " unknown"⟩]
    | none => []
  | opened owner value none =>
    [⟨.debug, ascii "[CSS Loc] " ++ value.kind.name ++
      ascii ": value offsets unknown, owner " ++ owner.kind.name ++ ascii " has no start"⟩]
  | opened owner value (some origin) =>
    [⟨.debug, ascii "[CSS Loc] " ++ value.kind.name ++ ascii " of " ++ owner.kind.name ++
      ascii " starts at " ++ decimal origin⟩]

end Visit

/-- The warning that is logged at the first cut of a walk. -/
def depthWarning (limit : Nat) : Message :=
  ⟨.warn, ascii "[CSS Loc] nesting deeper than " ++ decimal limit ++
    ascii ", sub-trees left unannotated"⟩

/-- What is logged about visits; `warned` says that a cut was met before. -/
def walkMessages (limit : Nat) (document : Text) (warned : Bool) : List Visit → List Message
  | [] => []
  | v :: rest =>
    (if v.isCut && !warned then [depthWarning limit] else v.messages document) ++
      walkMessages limit document (warned || v.isCut) rest

/-- What is logged when a walk is over. -/
def summary (table : LocationTable) : Message :=
  ⟨.debug, ascii "[CSS Loc] " ++ decimal table.size ++ ascii " positioned nodes, " ++
    decimal table.resolvedCount ++ ascii " fully resolved"⟩

/-- A document with options, and what is known about the tree annotated last. -/
structure Annotator where
  document : Text
  options : Options := {}
  diagnostics : DiagnosticList := DiagnosticList.withLimit options.maxDiagnostics
  depthCuts : Nat := 0

/-- The spans of a tree, and what was logged meanwhile. -/
structure Annotation where
  table : LocationTable := {}
  messages : List Message := []

namespace Annotator

/-- The annotator without anything that an earlier tree left. -/
def reset (a : Annotator) : Annotator :=
  { a with diagnostics := a.diagnostics.clear, depthCuts := 0 }

/-- The annotator after a visit. -/
def record (a : Annotator) (v : Visit) : Annotator :=
  { a with
    depthCuts := if v.isCut then a.depthCuts + 1 else a.depthCuts
    diagnostics :=
      if a.options.collectDiagnostics then a.diagnostics.pushAll (v.diagnostics a.document)
      else a.diagnostics }

/-- Annotates a tree, which may be missing. -/
def annotate (a : Annotator) : Option Node → Annotation × Annotator
  | none => ({}, a.reset)
  | some root =>
    let visits := root.visits a.options.maxDepth a.document
    let table : LocationTable := ⟨visits.filterMap (Visit.entry? a.document)⟩
    ({ table
       messages := walkMessages a.options.maxDepth a.document false visits ++ [summary table] },
      visits.foldl record a.reset)

/-- The table of a tree on its own. -/
def locate (document : Text) (root : Option Node) : LocationTable :=
  (annotate { document } root).1.table

/-! ## What an annotation depends on -/

/-- Recording visits adds their cuts and, if wanted, their diagnostics. -/
theorem foldl_record (a : Annotator) (visits : List Visit) :
    visits.foldl record a =
      { a with
        depthCuts := a.depthCuts + visits.countP Visit.isCut
        diagnostics :=
          if a.options.collectDiagnostics then
            a.diagnostics.pushAll (visits.flatMap (Visit.diagnostics a.document))
          else a.diagnostics } := by
  induction visits generalizing a with
  | nil => simp
  | cons v rest ih =>
    rw [List.foldl_cons, ih]
    by_cases hc : v.isCut <;> by_cases hd : a.options.collectDiagnostics <;>
      simp [record, hc, hd, DiagnosticList.pushAll_append] <;> omega

end Annotator

end StyleSpan
