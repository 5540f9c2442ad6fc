import StyleSpan.Node.Kind
import StyleSpan.Text.Lines

/-!
# StyleSpan.Node.Basic

The syntax tree of a stylesheet.  A node has a payload and six slots for
nodes below it; the kind of a node says which of its slots are walked, and
in which order.  The nodes in the walked slots are its children.

Any slot may be filled on a node of any kind.  What stands in a slot that the
kind does not walk is not visited; but a node without an end of its own ends
with the last entry of `nodes` (`lastChild`), walked or not.

`Layer` is a node over any type in place of the nodes below it, and `Node`
is the tree of layers.  Recursion over a tree goes through `children`
(`induct`), and a node of a tree is named by its path, the indices of the
children that lead to it (`at?`).
-/

namespace StyleSpan

/-! ## Payload -/

/-- Where a node stands, as far as a tokenizer or a value parser said.  `stop`
is the last character of the node; `index` its offset in the text of its value. -/
structure Source where
  start : Option Position := none
  stop : Option Position := none
  index : Option Nat := none
deriving DecidableEq, Repr

/-- What a node holds itself.  `between` and `afterName` are formatting that a
parser may have kept: what stands between a property and its value, and after
the name of an at-rule. -/
structure Payload where
  kind : Kind
  source : Option Source := none
  between : Option Text := none
  afterName : Option Text := none
  prop : Text := []
  name : Text := []
  text : Text := []
  value : Text := []
  isInline : Bool := false
deriving DecidableEq, Repr

namespace Payload

/-- A declaration `prop between value`. -/
def declaration (prop between value : Text) : Payload :=
  { kind := .declaration, prop, between := some between, value }

/-- An at-rule `@name afterName params`. -/
def atRule (name afterName params : Text) : Payload :=
  { kind := .atRule, name, afterName := some afterName, value := params }

/-- A comment; an inline one runs to the end of its line. -/
def comment (text : Text) (isInline : Bool) : Payload := { kind := .comment, text, isInline }

/-- The root of a value parsed from `text`. -/
def valueRoot (text : Text) : Payload := { kind := .valueRoot, text }

/-- A value that is kept as it is. -/
def valueUnknown (value : Text) : Payload := { kind := .valueUnknown, value }

/-- A leaf of a value, at an offset in its text. -/
def leaf (kind : Kind) (value : Text) (index : Nat) : Payload :=
  { kind, value, source := some { index := some index } }

/-- Changes the source, which is there from then on. -/
def updateSource (p : Payload) (f : Source → Source) : Payload :=
  { p with source := some (f (p.source.getD {})) }

/-- Sets the start position. -/
def setStart (p : Payload) (start : Position) : Payload :=
  p.updateSource fun s => { s with start := some start }

/-- Sets the position of the last character. -/
def setStop (p : Payload) (stop : Position) : Payload :=
  p.updateSource fun s => { s with stop := some stop }

/-- Sets the offset in the text of the value. -/
def setIndex (p : Payload) (index : Nat) : Payload :=
  p.updateSource fun s => { s with index := some index }

/-- Whether positions below the node are relative to a text of its own. -/
def isValueRoot (p : Payload) : Bool := p.kind.isValueRoot

/-- Whether the node is a comment that runs to the end of its line. -/
def isInlineComment (p : Payload) : Bool := p.kind = .comment && p.isInline

/-- The text a value was parsed from: `text` for a value root that has one,
otherwise `value`. -/
def valueText (p : Payload) : Text :=
  if p.kind = .valueRoot ∧ p.text ≠ [] then p.text else p.value

end Payload

/-! ## Layers and trees -/

/-- A payload with slots; an entry of a slot may be missing. -/
structure Layer (α : Type) extends Payload where
  selector : Option α := none
  params : Option α := none
  parsedValue : Option α := none
  group : Option α := none
  groups : List (Option α) := []
  nodes : List (Option α) := []

namespace Layer

variable {α β : Type}

/-- The entries of the walked slots, in the order of the source. -/
def entries (l : Layer α) : List (Option α) :=
  match l.kind with
  | .root | .selectorRoot | .selector | .selectorPseudo => l.nodes
  | .rule => l.selector :: l.nodes
  | .atRule => l.selector :: l.params :: l.nodes
  | .declaration => [l.parsedValue]
  | .valueRoot => [l.group]
  | .valueFunc | .valueParenGroup => l.group :: l.groups
  | .valueCommaGroup => l.groups
  | _ => []

/-- What is there of the entries of the walked slots. -/
def children (l : Layer α) : List α := l.entries.filterMap id

/-- The last entry of `nodes`, whether or not the kind walks that slot. -/
def lastChild (l : Layer α) : Option α := l.nodes.getLast?.bind id

/-- Replaces what is there in the slots; what `f` has no replacement for goes missing. -/
def mapSlots (f : α → Option β) (l : Layer α) : Layer β where
  toPayload := l.toPayload
  selector := l.selector.bind f
  params := l.params.bind f
  parsedValue := l.parsedValue.bind f
  group := l.group.bind f
  groups := l.groups.map (·.bind f)
  nodes := l.nodes.map (·.bind f)

end Layer

/-- A tree: a payload with trees in its slots. -/
structure Node extends Layer Node

/-- The indices of the children that lead from a node to one below it. -/
abbrev Path := List Nat

namespace Node

/-- The nodes in the walked slots. -/
def children (n : Node) : List Node := n.toLayer.children

/-- The last entry of the slot `nodes`. -/
def lastChild (n : Node) : Option Node := n.toLayer.lastChild

/-! ## Recursion -/

private theorem sizeOf_lt_of_some_mem {c : Node} {entries : List (Option Node)}
    (h : some c ∈ entries) : sizeOf c < sizeOf entries := by
  have := List.sizeOf_lt_of_mem h
  simp only [Option.some.sizeOf_spec] at this
  omega

private theorem sizeOf_lt_of_eq_some {c : Node} {entry : Option Node} (h : some c = entry) :
    sizeOf c < sizeOf entry := by
  subst h
  simp only [Option.some.sizeOf_spec]
  omega

/-- A child is smaller than its parent. -/
theorem sizeOf_lt_of_mem_children {c n : Node} (h : c ∈ n.children) : sizeOf c < sizeOf n := by
  obtain ⟨⟨p, selector, params, parsedValue, group, groups, nodes⟩⟩ := n
  simp only [children, Layer.children, List.mem_filterMap, id_eq, exists_eq_right] at h
  have hslot : some c = selector ∨ some c = params ∨ some c = parsedValue ∨ some c = group ∨
      some c ∈ groups ∨ some c ∈ nodes := by
    unfold Layer.entries at h
    split at h <;> simp only [List.mem_cons, List.not_mem_nil, or_false] at h <;> grind
  simp only [Node.mk.sizeOf_spec, Layer.mk.sizeOf_spec]
  rcases hslot with h | h | h | h | h | h
  · have := sizeOf_lt_of_eq_some h; omega
  · have := sizeOf_lt_of_eq_some h; omega
  · have := sizeOf_lt_of_eq_some h; omega
  · have := sizeOf_lt_of_eq_some h; omega
  · have := sizeOf_lt_of_some_mem h; omega
  · have := sizeOf_lt_of_some_mem h; omega

/-- The last entry of `nodes` is smaller than its owner. -/
theorem sizeOf_lt_of_lastChild {c n : Node} (h : n.lastChild = some c) : sizeOf c < sizeOf n := by
  obtain ⟨⟨p, selector, params, parsedValue, group, groups, nodes⟩⟩ := n
  simp only [lastChild, Layer.lastChild, Option.bind_eq_some_iff, id_eq, exists_eq_right] at h
  have := sizeOf_lt_of_some_mem (List.mem_of_getLast? h)
  simp only [Node.mk.sizeOf_spec, Layer.mk.sizeOf_spec]
  omega

/-- What holds of a node if it holds of its children holds of every node. -/
theorem induct {motive : Node → Prop} (step : ∀ n, (∀ c ∈ n.children, motive c) → motive n)
    (n : Node) : motive n :=
  step n fun c _ => induct step c
termination_by n
decreasing_by exact sizeOf_lt_of_mem_children ‹_›

/-- The number of nodes of a tree. -/
def count (n : Node) : Nat := n.children.attach.foldl (fun total c => total + c.1.count) 1
termination_by n
decreasing_by exact sizeOf_lt_of_mem_children c.2

/-- The nodes of a tree with their paths below `path`, each before its children. -/
def preorderFrom (n : Node) (path : Path) : List (Path × Node) :=
  (path, n) :: n.children.attach.zipIdx.flatMap fun c => c.1.1.preorderFrom (path ++ [c.2])
termination_by n
decreasing_by exact sizeOf_lt_of_mem_children c.1.2

/-- The nodes of a tree with their paths, each before its children. -/
def preorder (n : Node) : List (Path × Node) := n.preorderFrom []

/-- The node at a path. -/
def at? (n : Node) : Path → Option Node
  | [] => some n
  | i :: rest => n.children[i]?.bind fun c => c.at? rest

/-! ## One level at a time -/

/-- Dropping the proofs of membership from an enumeration. -/
theorem flatMap_zipIdx_attach {α β : Type} (xs : List α) (f : α × Nat → List β) :
    (xs.attach.zipIdx.flatMap fun c => f (c.1.1, c.2)) = xs.zipIdx.flatMap f := by
  have h : xs.zipIdx = xs.attach.zipIdx.map fun c => (c.1.1, c.2) := by
    conv => lhs; rw [← List.attach_map_subtype_val xs]
    rw [List.zipIdx_map]
    rfl
  rw [h, List.flatMap_map]

theorem count_eq (n : Node) :
    n.count = n.children.foldl (fun total c => total + c.count) 1 := by
  rw [count]
  exact List.foldl_attach (f := fun total (c : Node) => total + c.count)

theorem preorderFrom_eq (n : Node) (path : Path) :
    n.preorderFrom path =
      (path, n) :: n.children.zipIdx.flatMap fun c => c.1.preorderFrom (path ++ [c.2]) := by
  rw [preorderFrom,
    flatMap_zipIdx_attach n.children fun c => c.1.preorderFrom (path ++ [c.2])]

@[simp] theorem at?_nil (n : Node) : n.at? [] = some n := rfl

@[simp] theorem at?_cons (n : Node) (i : Nat) (rest : Path) :
    n.at? (i :: rest) = n.children[i]?.bind fun c => c.at? rest := rfl

/-- Going down `p ++ q` is going down `p` and `q` from there. -/
theorem at?_append (n : Node) (p q : Path) : n.at? (p ++ q) = (n.at? p).bind (·.at? q) := by
  induction p generalizing n with
  | nil => rfl
  | cons i rest ih =>
    rw [List.cons_append, at?_cons, at?_cons]
    cases n.children[i]? with
    | none => rfl
    | some c => exact ih c

end Node

end StyleSpan
