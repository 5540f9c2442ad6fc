import StyleSpan.Annotation.Bounds

/-!
# StyleSpan.Annotation.Walk

The walk over a tree that gives spans to its nodes.  Positions refer to the
document until a value root is met below the root of the walk; from there on
they refer to the text of that value, and spans are moved to where the value
begins in the document.  The walk does not go below a depth limit.

The walk is a list of visits, and what annotation yields (table, diagnostics
and log) is read off that list.
-/

namespace StyleSpan

/-- What the positions of a node refer to: the document, or the text of a value
with the offset at which it begins in the document. -/
inductive Scope where
  | document
  | value (text : Text) (origin : Option Nat)
deriving DecidableEq, Repr

namespace Scope

/-- The span of a node in the document. -/
def spanOf (document : Text) : Scope → Node → Span
  | .document, n => n.spanIn document
  | .value text (some origin), n =>
    ⟨(n.startIn text).map (Offset.add · origin), (n.stopIn text).map (Offset.add · origin)⟩
  | .value _ none, _ => Span.unknown

/-- Whether a node in this scope opens the scope of a value if it is met below
another node. -/
def opensAt (n : Node) : Scope → Bool
  | .document => n.isValueRoot
  | .value _ _ => false

/-- The offset at which the value of a node of the document begins. -/
def originOf (document : Text) (owner : Node) : Option Nat :=
  (owner.startIn document).map owner.valueOffset

/-- The scope of a child of `owner`, which is itself in the given scope. -/
def below (document : Text) (owner child : Node) (s : Scope) : Scope :=
  if s.opensAt child then .value child.valueText (originOf document owner) else s

end Scope

/-- What the walk meets: a node below the depth limit, which is left alone with
all that is below it; a node that it enters; or a value that it is about to
visit, with its owner and the offset at which it begins. -/
inductive Visit where
  | cut (node : Node)
  | entered (path : Path) (scope : Scope) (node : Node)
  | opened (owner value : Node) (origin : Option Nat)

/-- Whether a depth is within a limit, 0 being no limit. -/
def withinDepth (limit depth : Nat) : Bool := limit = 0 || depth ≤ limit

/-- The visit that precedes those of a child. -/
def Scope.opening (document : Text) (owner child : Node) (s : Scope) : List Visit :=
  if s.opensAt child then [.opened owner child (Scope.originOf document owner)] else []

namespace Node

/-- The visits of a tree at a depth and a path, each node before its children. -/
def visitsFrom (limit : Nat) (document : Text) (n : Node) (scope : Scope) (depth : Nat)
    (path : Path) : List Visit :=
  if withinDepth limit depth then
    .entered path scope n :: n.children.attach.zipIdx.flatMap fun c =>
      scope.opening document n c.1.1 ++
        c.1.1.visitsFrom limit document (scope.below document n c.1.1) (depth + 1) (path ++ [c.2])
  else [.cut n]
termination_by n
decreasing_by exact sizeOf_lt_of_mem_children c.1.2

/-- The visits of a tree. -/
def visits (limit : Nat) (document : Text) (n : Node) : List Visit :=
  n.visitsFrom limit document .document 0 []

/-- Within the limit a walk enters a node and goes on below each child. -/
theorem visitsFrom_of_within {limit depth : Nat} (h : withinDepth limit depth = true)
    (document : Text) (n : Node) (scope : Scope) (path : Path) :
    n.visitsFrom limit document scope depth path =
      .entered path scope n :: n.children.zipIdx.flatMap fun c =>
        scope.opening document n c.1 ++
          c.1.visitsFrom limit document (scope.below document n c.1) (depth + 1)
            (path ++ [c.2]) := by
  rw [visitsFrom, if_pos h,
    flatMap_zipIdx_attach n.children fun c =>
      scope.opening document n c.1 ++
        c.1.visitsFrom limit document (scope.below document n c.1) (depth + 1) (path ++ [c.2])]

/-- Beyond the limit a walk cuts the node off. -/
theorem visitsFrom_of_not_within {limit depth : Nat} (h : withinDepth limit depth = false)
    (document : Text) (n : Node) (scope : Scope) (path : Path) :
    n.visitsFrom limit document scope depth path = [.cut n] := by
  rw [visitsFrom, if_neg (by simp [h])]

end Node

end StyleSpan
