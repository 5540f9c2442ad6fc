import Mathlib.Data.List.Permutation
import StyleSpan.Proofs.Annotation.Scopes

/-!
# StyleSpan.Proofs.Annotation.LastChild

Containers that say nothing about where they end.  Such a node ends with its last
child, which may leave its end to its own last child, and so on.  The ends are looked up
along the slot `nodes` and the walk goes along the children; on kinds that walk the slot
both come to the same node, and in one scope both count from the same place.

* `getElem?_lastChild` — the last entry of a walked slot is the last child of the walk;
* `stop_spanOf_of_lastChain` — a chain of last children ends where its first node does;
* `annotate_openEnded` — what the table has for the ends of such nodes.
-/

namespace StyleSpan

open Text

/-- Whether nodes of the kind have the slot `nodes` walked. -/
def Kind.walksNodes : Kind → Bool
  | root | rule | atRule | selectorRoot | selector | selectorPseudo => true
  | _ => false

/-! ## The last child on the walk -/

/-- Where the slot is walked, it is walked last. -/
theorem Layer.exists_entries_eq_append {α : Type} {l : Layer α} (h : l.kind.walksNodes = true) :
    ∃ front, l.entries = front ++ l.nodes := by
  unfold Layer.entries
  split
  any_goals exact ⟨[], rfl⟩
  · exact ⟨[l.selector], rfl⟩
  · exact ⟨[l.selector, l.params], rfl⟩
  all_goals simp_all [Kind.walksNodes]

namespace Node

variable {document : Text} {root n m c : Node} {path path' : Path}

/-- The last entry of a walked slot is the last child of the walk. -/
theorem getElem?_lastChild (hkind : n.kind.walksNodes = true) (h : n.lastChild = some c) :
    n.children[n.children.length - 1]? = some c := by
  obtain ⟨front, hentries⟩ := Layer.exists_entries_eq_append hkind
  obtain ⟨entry, hlast, rfl⟩ := Option.bind_eq_some_iff.mp h
  obtain ⟨before, hnodes⟩ := List.getLast?_eq_some_iff.mp hlast
  rw [← List.getLast?_eq_getElem?, children, Layer.children, hentries, hnodes, ← List.append_assoc,
    List.filterMap_append]
  exact List.getLast?_concat

/-- The path to the last child of the node at a path. -/
def lastPath (n : Node) (path : Path) : Path := path ++ [n.children.length - 1]

/-- The last path of a node leads to its last child. -/
theorem at?_lastPath (hat : root.at? path = some n) (hkind : n.kind.walksNodes = true)
    (h : n.lastChild = some c) : root.at? (n.lastPath path) = some c := by
  rw [lastPath, at?_append, hat, Option.bind_some, at?_cons, getElem?_lastChild hkind h]
  rfl

/-- The slot `nodes` is empty unless it is walked, and has no values in it. -/
structure NodesWalked (n : Node) : Prop where
  eq_nil : n.kind.walksNodes = false → n.nodes = []
  noValue : ∀ c, some c ∈ n.nodes → c.isValueRoot = false

/-- Then the last child is met on the walk, and it opens no scope. -/
theorem NodesWalked.lastChild (h : n.NodesWalked) (hlast : n.lastChild = some c) :
    n.kind.walksNodes = true ∧ c.isValueRoot = false := by
  obtain ⟨entry, hentry, rfl⟩ := Option.bind_eq_some_iff.mp hlast
  refine ⟨Bool.of_not_eq_false fun hkind => ?_, h.noValue c (List.mem_of_getLast? hentry)⟩
  rw [h.eq_nil hkind] at hentry
  cases hentry

/-! ## One scope -/

/-- Positions at both paths refer to one text in one place: to the document, or to the value of
one owner. -/
inductive SameScope (root : Node) (path path' : Path) : Prop where
  | document (h : root.InDocument path) (h' : root.InDocument path')
  | value {owner value : Node} (h : root.ScopeOf path owner value)
      (h' : root.ScopeOf path' owner value)

/-- Paths in the same scope end in the same scope of the walk. -/
theorem along_of_sameScope (h : root.SameScope path path') :
    Scope.document.along document root path = Scope.document.along document root path' := by
  cases h with
  | document h h' => rw [Scope.along_of_inDocument h, Scope.along_of_inDocument h']
  | value h h' => rw [Scope.along_of_scopeOf h, Scope.along_of_scopeOf h']

/-- A child that is no value stands in the scope of its parent. -/
theorem sameScope_concat {i : Nat} (hat : root.at? path = some n) (hc : n.children[i]? = some c)
    (hvalue : c.isValueRoot = false) : root.SameScope path (path ++ [i]) := by
  rcases inDocument_or_scopeOf hat with hin | ⟨owner, value, hscope⟩
  · exact .document hin (inDocument_concat hat hc hvalue hin)
  · exact .value hscope (scopeOf_append hscope [i])

/-! ## Ends that are left to the last child -/

/-- The node has a source that does not say where the node ends, and is no comment that runs to
the end of its line. -/
structure OpenEnded (n : Node) : Prop where
  source : ∃ source, n.source = some source ∧ source.stop = none
  notInline : n.isInlineComment = false

theorem OpenEnded.isSome_source (h : n.OpenEnded) : n.source.isSome = true := by
  obtain ⟨source, hsource, -⟩ := h.source
  rw [hsource]
  rfl

/-- An open end is that of the last child. -/
theorem OpenEnded.stopIn_eq (h : n.OpenEnded) (t : Text) :
    n.stopIn t = n.lastChild.bind (·.stopIn t) := by
  obtain ⟨source, hsource, hstop⟩ := h.source
  exact stopIn_of_lastChild hsource h.notInline hstop t

/-- The node says itself where it ends, or is a comment that runs to the end of its line. -/
def EndsItself (n : Node) : Prop :=
  ∃ source, n.source = some source ∧ (source.stop.isSome = true ∨ n.isInlineComment = true)

/-- From the node `n` at `path` down the last children to the node `m` at `path'`: every node on
the way leaves its end to its last child, which stands in a walked slot and in the same scope. -/
inductive LastChain (root : Node) : Path → Node → Path → Node → Prop where
  | here (path : Path) (n : Node) : LastChain root path n path n
  | next {path path' : Path} {n c m : Node} (hopen : n.OpenEnded)
      (hkind : n.kind.walksNodes = true) (hlast : n.lastChild = some c)
      (hscope : root.SameScope path (n.lastPath path))
      (hrest : LastChain root (n.lastPath path) c path' m) : LastChain root path n path' m

/-- A chain of last children ends at a node of the tree. -/
theorem at?_of_lastChain (h : root.LastChain path n path' m) (hat : root.at? path = some n) :
    root.at? path' = some m := by
  induction h with
  | here path n => exact hat
  | next hopen hkind hlast hscope hrest ih => exact ih (at?_lastPath hat hkind hlast)

end Node

namespace Scope

variable {document : Text} {root n m : Node} {path path' : Path}

/-- Nodes that end together in every text end together in every scope. -/
theorem stop_spanOf_congr (h : ∀ t, n.stopIn t = m.stopIn t) (s : Scope) :
    (s.spanOf document n).stop = (s.spanOf document m).stop := by
  match s with
  | .document => exact h document
  | .value text (some origin) => exact congrArg (Option.map (Offset.add · origin)) (h text)
  | .value _ none => rfl

theorem stop_spanOf_eq_none (h : ∀ t, n.stopIn t = none) (s : Scope) :
    (s.spanOf document n).stop = none := by
  match s with
  | .document => exact h document
  | .value text (some origin) => exact congrArg (Option.map (Offset.add · origin)) (h text)
  | .value _ none => rfl

/-- A chain of last children ends where its first node does. -/
theorem stop_spanOf_of_lastChain (document : Text) (h : root.LastChain path n path' m) :
    ((Scope.document.along document root path).spanOf document n).stop =
      ((Scope.document.along document root path').spanOf document m).stop := by
  induction h with
  | here path n => rfl
  | @next path path' n c m hopen hkind hlast hscope hrest ih =>
    have hstop : ∀ t, n.stopIn t = c.stopIn t := fun t => by
      rw [hopen.stopIn_eq, hlast, Option.bind_some]
    rw [stop_spanOf_congr hstop, Node.along_of_sameScope hscope, ih]

end Scope

/-! ## The table -/

namespace Annotator

/-- The table has the span of a node in the scope at the end of its path. -/
theorem find?_annotate_of_at? {a : Annotator} {root n : Node} {path : Path}
    (hdepth : a.options.maxDepth = 0) (hat : root.at? path = some n)
    (hsource : n.source.isSome = true) :
    (a.annotate (some root)).1.table.find? path =
      some ((Scope.document.along a.document root path).spanOf a.document n) :=
  (find?_annotate hdepth).mpr ⟨n, hat, hsource, (declaredSpan_iff hat).mpr rfl⟩

/-- **A container without an end of its own ends with its last child.**  Where the last child
stands in a walked slot and in the same scope and has a source, both ends are known or both are
unknown, and they are equal.  So a chain of such containers has the end of the first node on it
that ends itself; and the end is unknown if the chain comes to a node without a source or without
a last child before. -/
theorem annotate_openEnded (a : Annotator) (root : Node) (hdepth : a.options.maxDepth = 0) :
    let table := (a.annotate (some root)).1.table
    (∀ path n c, root.at? path = some n → n.OpenEnded → n.kind.walksNodes = true →
      n.lastChild = some c → c.source.isSome = true → root.SameScope path (n.lastPath path) →
      root.at? (n.lastPath path) = some c ∧
      ∃ span last, table.find? path = some span ∧ table.find? (n.lastPath path) = some last ∧
        span.stop = last.stop) ∧
    ∀ path n path' m, root.at? path = some n → n.source.isSome = true →
      root.LastChain path n path' m →
      root.at? path' = some m ∧ ∃ span, table.find? path = some span ∧
        (m.EndsItself → ∃ last, table.find? path' = some last ∧ span.stop = last.stop) ∧
        (m.source = none ∨ m.OpenEnded ∧ m.lastChild = none → span.stop = none) := by
  intro table
  constructor
  · intro path n c hat hopen hkind hlast hsource hscope
    have hat' := Node.at?_lastPath hat hkind hlast
    have hchain : root.LastChain path n (n.lastPath path) c :=
      .next hopen hkind hlast hscope (.here _ _)
    exact ⟨hat', _, _, find?_annotate_of_at? hdepth hat hopen.isSome_source,
      find?_annotate_of_at? hdepth hat' hsource, Scope.stop_spanOf_of_lastChain a.document hchain⟩
  · intro path n path' m hat hsource hchain
    have hat' := Node.at?_of_lastChain hchain hat
    have hstop := Scope.stop_spanOf_of_lastChain a.document hchain
    refine ⟨hat', _, find?_annotate_of_at? hdepth hat hsource, fun hends => ?_, fun hnone => ?_⟩
    · obtain ⟨source, hm, -⟩ := hends
      exact ⟨_, find?_annotate_of_at? hdepth hat' (by rw [hm]; rfl), hstop⟩
    · rw [hstop]
      refine Scope.stop_spanOf_eq_none (fun t => ?_) _
      rcases hnone with hnone | ⟨hopen, hlast⟩
      · exact Node.stopIn_of_no_source hnone t
      · rw [hopen.stopIn_eq, hlast, Option.bind_none]

/-- An inline comment in a rule in an at-rule, neither of which says where it ends. -/
def closingComment : Node where
  toPayload := (Payload.comment (ascii "x") true).setStart ⟨1, 6⟩

/-- The rule, which has a missing entry before the comment. -/
def closingRule : Node where
  toPayload := ({ kind := .rule } : Payload).setStart ⟨1, 4⟩
  nodes := [none, some closingComment]

/-- The at-rule, with its parameters. -/
def closingAtRule : Node where
  toPayload := (Payload.atRule (ascii "m") [] []).setStart ⟨1, 1⟩
  params := some { kind := .valueWord }
  nodes := [some closingRule]

/-- The comment ends before the line feed, and so do the rule and the at-rule. -/
theorem annotate_closingAtRule :
    let a : Annotator := { document := ascii "@m\x7ba\x7b//x\n\x7d\x7d" }
    let table := (a.annotate (some closingAtRule)).1.table
    a.options.maxDepth = 0 ∧ closingAtRule.LastChain [] closingAtRule [1, 0] closingComment ∧
      closingComment.EndsItself ∧
      (∃ span, table.find? [] = some span ∧ span.stop = some 8) ∧
      ∃ span, table.find? [1] = some span ∧ span.stop = some 8 := by
  intro a table
  have hclosing : closingComment.EndsItself := ⟨_, rfl, .inr rfl⟩
  have hopen : closingAtRule.OpenEnded := ⟨⟨_, rfl, rfl⟩, rfl⟩
  have hopenRule : closingRule.OpenEnded := ⟨⟨_, rfl, rfl⟩, rfl⟩
  have hrule : closingAtRule.SameScope [] [1] :=
    Node.sameScope_concat (n := closingAtRule) (c := closingRule) rfl rfl rfl
  have hcomment : closingAtRule.SameScope [1] [1, 0] :=
    Node.sameScope_concat (n := closingRule) (c := closingComment) rfl rfl rfl
  have hlast : closingAtRule.LastChain [1] closingRule [1, 0] closingComment :=
    .next hopenRule rfl rfl hcomment (.here _ _)
  have hchain : closingAtRule.LastChain [] closingAtRule [1, 0] closingComment :=
    .next hopen rfl rfl hrule hlast
  obtain ⟨hlinks, hchains⟩ := annotate_openEnded a closingAtRule rfl
  have htable : (a.annotate (some closingAtRule)).1.table =
      ⟨[([], ⟨some 0, some 8⟩), ([1], ⟨some 3, some 8⟩), ([1, 0], ⟨some 5, some 8⟩)]⟩ := by cbv
  have hstop : (a.annotate (some closingAtRule)).1.table.find? [1, 0] =
      some ⟨some 5, some 8⟩ := by
    rw [htable]
    rfl
  obtain ⟨-, span, last, hspan, hfind, heq⟩ :=
    hlinks [1] closingRule closingComment rfl hopenRule rfl rfl rfl hcomment
  obtain ⟨-, span', hspan', hends, -⟩ :=
    hchains [] closingAtRule [1, 0] closingComment rfl rfl hchain
  obtain ⟨last', hfind', heq'⟩ := hends hclosing
  rw [show closingRule.lastPath [1] = [1, 0] from rfl, hstop] at hfind
  rw [hstop] at hfind'
  cases hfind
  cases hfind'
  exact ⟨rfl, hchain, hclosing, ⟨span', hspan', heq'⟩, span, hspan, heq⟩

end Annotator

end StyleSpan
