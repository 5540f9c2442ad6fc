import StyleSpan.Node.Basic

/-!
# StyleSpan.Node.Arena

Trees under construction.  A parser makes nodes one at a time, puts them
below one another and still changes them afterwards; until then a node is a
cell of an arena and is named by its handle.  A node can be put below
another one only once.  `tree?` reads off the tree that hangs from a node.
-/

namespace StyleSpan

namespace Arena

/-- The number of a node in the order of their making. -/
abbrev Handle := Nat

/-- A node under construction; `given` says that it already has a parent. -/
structure Cell extends Layer Handle where
  given : Bool := false

/-- The slots that hold at most one node. -/
inductive Slot where
  | selector
  | params
  | parsedValue
  | group
deriving DecidableEq

end Arena

/-- All nodes made so far, by handle. -/
structure Arena where
  cells : List Arena.Cell := []

namespace Arena

/-- Makes a node without children. -/
def add (a : Arena) (p : Payload) : Arena × Handle :=
  ({ cells := a.cells ++ [{ toPayload := p }] }, a.cells.length)

/-- Changes a cell. -/
def update (a : Arena) (h : Handle) (f : Cell → Cell) : Arena :=
  { cells := a.cells.modify h f }

/-- Changes the payload of a node. -/
def updatePayload (a : Arena) (h : Handle) (f : Payload → Payload) : Arena :=
  a.update h fun c => { c with toPayload := f c.toPayload }

/-- Takes a node to give it away: there is none if it was given away before. -/
def take? (a : Arena) (child : Option Handle) : Arena × Option Handle :=
  match child with
  | none => (a, none)
  | some h =>
    match a.cells[h]? with
    | none => (a, none)
    | some c =>
      if c.given then (a, none) else (a.update h fun c => { c with given := true }, some h)

/-- Puts a node, if it can be taken, below another one as `attach` says. -/
def put (a : Arena) (parent child : Option Handle) (attach : Handle → Cell → Cell) :
    Arena × Option Handle :=
  match parent with
  | none => (a, none)
  | some p =>
    match a.take? child with
    | (a, none) => (a, none)
    | (a, some h) => (a.update p (attach h), some h)

/-- Appends a node to `nodes` of another; the handle is that of the node, if it
was appended. -/
def append (a : Arena) (parent child : Option Handle) : Arena × Option Handle :=
  a.put parent child fun h c => { c with nodes := c.nodes ++ [some h] }

/-- Appends a node to `groups` of another. -/
def appendGroup (a : Arena) (parent child : Option Handle) : Arena × Option Handle :=
  a.put parent child fun h c => { c with groups := c.groups ++ [some h] }

/-- Puts a node into a slot of another. -/
def fill (a : Arena) (slot : Slot) (parent child : Option Handle) : Arena :=
  (a.put parent child fun h c =>
    match slot with
    | .selector => { c with selector := some h }
    | .params => { c with params := some h }
    | .parsedValue => { c with parsedValue := some h }
    | .group => { c with group := some h }).1

/-- The tree below a node, down to the given number of levels. -/
def treeWithin (a : Arena) : Nat → Handle → Option Node
  | 0, _ => none
  | levels + 1, h => a.cells[h]?.map fun c => ⟨c.toLayer.mapSlots (a.treeWithin levels)⟩

/-- The tree that hangs from a node.  As nodes have one parent at most, it has
no more levels than there are cells. -/
def tree? (a : Arena) (h : Handle) : Option Node := a.treeWithin a.cells.length h

end Arena

end StyleSpan
