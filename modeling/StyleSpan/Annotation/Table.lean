import StyleSpan.Node.Basic
import StyleSpan.Span

/-!
# StyleSpan.Annotation.Table

The spans of the nodes of a tree, by path, and the printed outline of a tree
with the spans that a table has for it.
-/

namespace StyleSpan

open Text

/-- Spans by the path of their node, in the order in which they were found. -/
structure LocationTable where
  entries : List (Path × Span) := []
deriving DecidableEq, Repr

namespace LocationTable

/-- The span of the node at a path, if the table has one. -/
def find? (t : LocationTable) (path : Path) : Option Span := t.entries.lookup path

/-- The number of entries. -/
def size (t : LocationTable) : Nat := t.entries.length

/-- The number of entries of which both bounds are known. -/
def resolvedCount (t : LocationTable) : Nat := t.entries.countP fun e => e.2.resolved

end LocationTable

/-- A bound in print; a question mark for an unknown one. -/
def renderBound : Option Nat → Text
  | some o => decimal o
  | none => ascii "?"

/-- A span in print, `[start, stop)` after a space. -/
def Span.render (s : Span) : Text :=
  ascii " [" ++ renderBound s.start ++ ascii ", " ++ renderBound s.stop ++ ascii ")"

/-- The line of a node in an outline: two spaces for each level, the kind, and
the span if there is one. -/
def outlineLine (depth : Nat) (kind : Kind) (span : Option Span) : Text :=
  List.replicate (2 * depth) space ++ kind.name ++ (span.map Span.render).getD [] ++ [lf]

namespace Node

/-- The lines of a tree that stands at `path` in the tree of the table. -/
def outlineFrom (table : LocationTable) (n : Node) (path : Path) : Text :=
  outlineLine path.length n.kind (table.find? path) ++
    n.children.attach.zipIdx.flatMap fun c => c.1.1.outlineFrom table (path ++ [c.2])
termination_by n
decreasing_by exact sizeOf_lt_of_mem_children c.1.2

/-- A tree in print with the spans of a table, a line for each node. -/
def outline (table : LocationTable) (n : Node) : Text := n.outlineFrom table []

/-- The outline of a tree: a row for its root, and then the outlines of its children. -/
theorem outlineFrom_eq (table : LocationTable) (n : Node) (path : Path) :
    n.outlineFrom table path =
      outlineLine path.length n.kind (table.find? path) ++
        n.children.zipIdx.flatMap fun c => c.1.outlineFrom table (path ++ [c.2]) := by
  rw [outlineFrom,
    flatMap_zipIdx_attach n.children fun c => c.1.outlineFrom table (path ++ [c.2])]

end Node

end StyleSpan
