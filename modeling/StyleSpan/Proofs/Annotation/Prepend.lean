import StyleSpan.Proofs.Annotation.LastChild
import StyleSpan.Proofs.Text.Prepend

/-!
# StyleSpan.Proofs.Annotation.Prepend

Annotating a document behind whole lines.  A tokenizer that meets more lines in front
of a document says of every node of the document that it stands as many lines further
down; positions in values are relative to their own texts and stay as they are.  The
spans of such a tree are those of the tree before, later by the bytes in front, in the
document by the line starts and in values by the starts of their owners.

* `Node.addLines` — the tree whose document nodes stand further down;
* `Node.startIn_addLines` / `Node.stopIn_addLines` — the bounds of a node of the document;
* `Scope.spanOf_value_shift` — the span of a node of a value;
* `entriesBelow_addLines` — the entries of a walk, by induction on the tree.
-/

namespace StyleSpan

open Text

/-! ## Trees that stand further down -/

/-- The source with its positions as many lines further down. -/
def Source.addLines (lines : Nat) (s : Source) : Source :=
  { s with start := s.start.map (·.addLines lines), stop := s.stop.map (·.addLines lines) }

/-- The payload with its source as many lines further down. -/
def Payload.addLines (lines : Nat) (p : Payload) : Payload :=
  { p with source := p.source.map (·.addLines lines) }

/-- The span that many bytes later; unknown bounds stay unknown. -/
def Span.shift (k : Nat) (s : Span) : Span := ⟨s.start.map (· + k), s.stop.map (· + k)⟩

namespace Node

mutual

/-- The tree with its nodes of the document as many lines further down.  The root counts as one
of them, value root or not. -/
def addLines (lines : Nat) : Node → Node
  | ⟨⟨p, selector, params, parsedValue, group, groups, nodes⟩⟩ =>
    { toPayload := p.addLines lines
      selector := addLinesEntry lines selector
      params := addLinesEntry lines params
      parsedValue := addLinesEntry lines parsedValue
      group := addLinesEntry lines group
      groups := addLinesEntries lines groups
      nodes := addLinesEntries lines nodes }

/-- An entry of a slot further down; values stay as they are. -/
def addLinesEntry (lines : Nat) : Option Node → Option Node
  | none => none
  | some c => some (if c.isValueRoot then c else c.addLines lines)

/-- The entries of a slot further down. -/
def addLinesEntries (lines : Nat) : List (Option Node) → List (Option Node)
  | [] => []
  | entry :: rest => addLinesEntry lines entry :: addLinesEntries lines rest

end

variable {before t : Text} {n c : Node} {lines k i : Nat}

/-- What becomes of a node in a slot of a node of the document. -/
def addLinesBelow (lines : Nat) (c : Node) : Node := if c.isValueRoot then c else c.addLines lines

/-- In an optional slot the node moves, if there is one. -/
theorem addLinesEntry_eq_map (lines : Nat) (entry : Option Node) :
    addLinesEntry lines entry = entry.map (addLinesBelow lines) := by
  cases entry <;> rfl

/-- In a list of slots every node moves. -/
theorem addLinesEntries_eq_map (lines : Nat) (entries : List (Option Node)) :
    addLinesEntries lines entries = entries.map (Option.map (addLinesBelow lines)) := by
  induction entries with
  | nil => rfl
  | cons entry rest ih => rw [addLinesEntries, addLinesEntry_eq_map, ih, List.map_cons]

/-- Of the payload of a node only the source moves. -/
theorem toPayload_addLines (lines : Nat) (n : Node) :
    (n.addLines lines).toPayload = n.toPayload.addLines lines := by
  obtain ⟨⟨⟩⟩ := n
  rfl

@[simp] theorem source_addLines (lines : Nat) (n : Node) :
    (n.addLines lines).source = n.source.map (·.addLines lines) := by
  rw [toPayload_addLines]
  rfl

/-- The source of a moved node is its source, some lines below. -/
theorem source_addLines_of_some {source : Source} (h : n.source = some source) (lines : Nat) :
    (n.addLines lines).source = some (source.addLines lines) := by
  rw [source_addLines, h, Option.map_some]

/-- A moved comment is inline if the comment is. -/
@[simp] theorem isInlineComment_addLines (lines : Nat) (n : Node) :
    (n.addLines lines).isInlineComment = n.isInlineComment := by
  rw [toPayload_addLines]
  rfl

@[simp] theorem isValueRoot_addLines (lines : Nat) (n : Node) :
    (n.addLines lines).isValueRoot = n.isValueRoot := by
  rw [toPayload_addLines]
  rfl

/-- What stands before the value in a declaration is as long after the move. -/
@[simp] theorem valueLead_addLines (lines : Nat) (n : Node) :
    (n.addLines lines).valueLead = n.valueLead := by
  rw [valueLead, toPayload_addLines]
  rfl

/-- The children of a moved node are its children, moved; those in a value stay where they are in
it. -/
theorem children_addLines (lines : Nat) (n : Node) :
    (n.addLines lines).children = n.children.map (addLinesBelow lines) := by
  obtain ⟨⟨p, selector, params, parsedValue, group, groups, nodes⟩⟩ := n
  have hentries : (Node.addLines lines ⟨⟨p, selector, params, parsedValue, group, groups,
        nodes⟩⟩).toLayer.entries =
      (Layer.entries ⟨p, selector, params, parsedValue, group, groups, nodes⟩).map
        (Option.map (addLinesBelow lines)) := by
    simp only [addLines, addLinesEntry_eq_map, addLinesEntries_eq_map, Layer.entries,
      Payload.addLines]
    cases p.kind <;> rfl
  rw [children, children, Layer.children, Layer.children, hentries, List.filterMap_map,
    List.map_filterMap]
  rfl

/-- The last child of a moved node is its last child, moved. -/
theorem lastChild_addLines (lines : Nat) (n : Node) :
    (n.addLines lines).lastChild = n.lastChild.map (addLinesBelow lines) := by
  obtain ⟨⟨p, selector, params, parsedValue, group, groups, nodes⟩⟩ := n
  simp only [lastChild, Layer.lastChild, addLines, addLinesEntries_eq_map, List.getLast?_map]
  cases nodes.getLast? <;> rfl

/-! ## What is asked of a tree -/

/-- The node is placed by lines and columns alone, counted from 1, as a node of a document is. -/
structure PlacedByLine (n : Node) : Prop where
  noIndex : ∀ source, n.source = some source → source.index = none
  position : ∀ source p, n.source = some source → source.start = some p ∨ source.stop = some p →
    1 ≤ p.line ∧ 1 ≤ p.column
  nodes : n.NodesWalked

/-- The sums of line starts and columns that the bounds of the node come to in the document stay
below the largest word, also with `k` bytes more in front. -/
def HasRoom (document : Text) (k : Nat) (n : Node) : Prop :=
  ∀ source p start, n.source = some source →
    source.start = some p ∨ n.isInlineComment = false ∧ source.stop = some p →
    document.lineStart? p.line = some start → start + p.column + k < Offset.modulus - 1

/-- The tree can move down with its document, by `k` bytes: its nodes of the document are placed by
lines, and no sum of offsets comes to the largest word, be it of a node of the document or of a
node of a value with the start of its owner and what stands before the value. -/
structure MovesDown (document : Text) (k : Nat) (root : Node) : Prop where
  placed : ∀ path n, root.at? path = some n → root.InDocument path → n.PlacedByLine
  room : ∀ path n, root.at? path = some n → root.InDocument path → n.HasRoom document k
  valueRoom : ∀ path n owner value start o, root.at? path = some n →
    root.ScopeOf path owner value → owner.startIn document = some start →
    n.startIn value.valueText = some o ∨ n.stopIn value.valueText = some o →
    start + owner.valueLead + o + k < Offset.modulus - 1

/-- A node that moves down is placed by lines and has room behind it. -/
theorem MovesDown.self (h : n.MovesDown t k) : n.PlacedByLine ∧ n.HasRoom t k :=
  ⟨h.placed [] n rfl (inDocument_nil n), h.room [] n rfl (inDocument_nil n)⟩

/-- A child that is no value moves down with its parent. -/
theorem MovesDown.child (h : n.MovesDown t k) (hc : n.children[i]? = some c)
    (hvalue : c.isValueRoot = false) : c.MovesDown t k where
  placed path m hat hin := by
    refine h.placed (i :: path) m ?_ ((inDocument_cons hc).mpr ⟨hvalue, hin⟩)
    rw [at?_cons, hc]
    exact hat
  room path m hat hin := by
    refine h.room (i :: path) m ?_ ((inDocument_cons hc).mpr ⟨hvalue, hin⟩)
    rw [at?_cons, hc]
    exact hat
  valueRoom path m owner value start o hat hscope := by
    refine h.valueRoom (i :: path) m owner value start o ?_
      ((scopeOf_cons hc).mpr (.inr ⟨hvalue, hscope⟩))
    rw [at?_cons, hc]
    exact hat

/-! ## Bounds -/

/-- A node without an end of its own has none after it moved. -/
theorem OpenEnded.addLines (h : n.OpenEnded) (lines : Nat) : (n.addLines lines).OpenEnded where
  source := by
    obtain ⟨source, hsource, hstop⟩ := h.source
    refine ⟨source.addLines lines, source_addLines_of_some hsource lines, ?_⟩
    rw [Source.addLines, hstop, Option.map_none]
  notInline := by
    rw [isInlineComment_addLines]
    exact h.notInline

/-- A node starts as far behind as the prepended text is long. -/
theorem startIn_addLines (hlines : before.WholeLines) (hn : n.PlacedByLine)
    (hroom : n.HasRoom t before.length) :
    (n.addLines (before.count lf)).startIn (before ++ t) =
      (n.startIn t).map (· + before.length) := by
  cases hsource : n.source with
  | none =>
    rw [startIn_of_no_source hsource, startIn_of_no_source (by simp [hsource]), Option.map_none]
  | some source =>
    have hindex := hn.noIndex source hsource
    have hmoved := source_addLines_of_some hsource (before.count lf)
    cases hstart : source.start with
    | none => simp [startIn, hsource, hindex, hstart, Source.addLines]
    | some p =>
      have hp : (source.addLines (before.count lf)).start =
          some (p.addLines (before.count lf)) := by rw [Source.addLines, hstart, Option.map_some]
      obtain ⟨hline, hcolumn⟩ := hn.position source p hsource (.inl hstart)
      have hsums := fun start => hroom source p start hsource (.inl hstart)
      have happend : (before ++ t).indexAt? (p.addLines (before.count lf)) = _ :=
        indexAt?_append hlines hline hsums
      have hindexed := indexAt?_eq_none_or hcolumn fun start hstart =>
        Nat.lt_of_le_of_lt (Nat.le_add_right _ _) (hsums start hstart)
      rcases hindexed with hnone | ⟨o, hsome⟩
      · rw [hnone, Option.map_none] at happend
        rw [startIn_of_start_none hsource hindex hstart hnone,
          startIn_of_start_none hmoved hindex hp happend, Option.map_none]
      · rw [hsome, Option.map_some, Nat.add_right_comm] at happend
        rw [startIn_of_start hsource hindex hstart hsome, startIn_of_start hmoved hindex hp happend,
          Option.map_some]

/-- A node stops as far behind, also where the stop is that of a last child. -/
theorem stopIn_addLines (hlines : before.WholeLines) (h : n.MovesDown t before.length) :
    (n.addLines (before.count lf)).stopIn (before ++ t) =
      (n.stopIn t).map (· + before.length) := by
  -- along the last children, as an end may be that of the last child
  induction n using Node.stopIn.induct with
  | case1 n hsource =>
    rw [stopIn_of_no_source hsource, stopIn_of_no_source (by simp [hsource]), Option.map_none]
  | case2 n source hsource hinline =>
    have hline : ∀ o, (before ++ t).lineEndFrom (o + before.length) =
        t.lineEndFrom o + before.length := lineEndFrom_append before t
    rw [stopIn_of_inline hinline, stopIn_of_inline (by simpa using hinline),
      startIn_addLines hlines h.self.1 h.self.2, Option.map_map, Option.map_map]
    simp only [Function.comp_def, hline]
  | case3 n source hsource hinline p hstop =>
    have hclosed : n.isInlineComment = false := by simpa using hinline
    have hmoved := source_addLines_of_some hsource (before.count lf)
    have hp : (source.addLines (before.count lf)).stop = some (p.addLines (before.count lf)) := by
      rw [Source.addLines, hstop, Option.map_some]
    rw [stopIn_of_stop hsource hclosed hstop, stopIn_of_stop hmoved (by simpa using hclosed) hp]
    exact indexAt?_append hlines (h.self.1.position source p hsource (.inr hstop)).1 fun start =>
      h.self.2 source p start hsource (.inr ⟨hclosed, hstop⟩)
  | case4 n source hsource hinline hstop c hlast ih =>
    have hopen : n.OpenEnded := ⟨⟨source, hsource, hstop⟩, by simpa using hinline⟩
    obtain ⟨hkind, hvalue⟩ := h.self.1.nodes.lastChild hlast
    have hc := h.child (getElem?_lastChild hkind hlast) hvalue
    have hbelow : addLinesBelow (before.count lf) c = c.addLines (before.count lf) := by
      rw [addLinesBelow, hvalue]
      rfl
    rw [hopen.stopIn_eq, (hopen.addLines _).stopIn_eq, lastChild_addLines, hlast, Option.map_some,
      Option.bind_some, Option.bind_some, hbelow, ih hc]
  | case5 n source hsource hinline hstop hlast =>
    have hopen : n.OpenEnded := ⟨⟨source, hsource, hstop⟩, by simpa using hinline⟩
    rw [hopen.stopIn_eq, (hopen.addLines _).stopIn_eq, lastChild_addLines, hlast]
    rfl

end Node

/-! ## Scopes -/

namespace Scope

variable {before t text : Text} {n owner : Node} {k start : Nat}

/-- The span of a node of the document is shifted by the length of the prepended text. -/
theorem spanOf_document_addLines (hlines : before.WholeLines) (h : n.MovesDown t before.length) :
    Scope.document.spanOf (before ++ t) (n.addLines (before.count lf)) =
      (Scope.document.spanOf t n).shift before.length := by
  obtain ⟨hplaced, hroom⟩ := h.self
  simp only [spanOf, Node.spanIn, Span.shift, Node.startIn_addLines hlines hplaced hroom,
    Node.stopIn_addLines hlines h]

/-- A bound that is moved to a later value is later by as much. -/
theorem map_add_valueOffset_shift {bound : Option Nat}
    (h : ∀ o, bound = some o → start + owner.valueLead + o + k < Offset.modulus - 1) :
    bound.map (Offset.add · (owner.valueOffset (start + k))) =
      (bound.map (Offset.add · (owner.valueOffset start))).map (· + k) := by
  cases bound with
  | none => rfl
  | some o =>
    have hlt := h o rfl
    have horigin : owner.valueOffset start = start + owner.valueLead :=
      Offset.add_eq_of_lt (by omega)
    have hlater : owner.valueOffset (start + k) = start + k + owner.valueLead :=
      Offset.add_eq_of_lt (by omega)
    rw [Option.map_some, Option.map_some, Option.map_some, horigin, hlater,
      Offset.add_eq_of_lt (by omega), Offset.add_eq_of_lt (by omega), Option.some.injEq]
    omega

/-- The span of a node of a value moves with the start of the owner. -/
theorem spanOf_value_shift (document document' : Text)
    (hroom : ∀ start o, owner.startIn t = some start →
      n.startIn text = some o ∨ n.stopIn text = some o →
      start + owner.valueLead + o + k < Offset.modulus - 1) :
    (Scope.value text (((owner.startIn t).map (· + k)).map owner.valueOffset)).spanOf document' n =
      ((Scope.value text ((owner.startIn t).map owner.valueOffset)).spanOf document n).shift k := by
  cases hstart : owner.startIn t with
  | none => rfl
  | some start =>
    simp only [Option.map_some, spanOf, Span.shift]
    rw [map_add_valueOffset_shift fun o ho => hroom start o hstart (.inl ho),
      map_add_valueOffset_shift fun o ho => hroom start o hstart (.inr ho)]

/-- The text of a value starts as far behind as its declaration does. -/
theorem originOf_addLines (hlines : before.WholeLines) (h : n.MovesDown t before.length) :
    originOf (before ++ t) (n.addLines (before.count lf)) =
      ((n.startIn t).map (· + before.length)).map n.valueOffset := by
  have hoffset : (n.addLines (before.count lf)).valueOffset = n.valueOffset := by
    funext start
    rw [Node.valueOffset, Node.valueOffset, Node.valueLead_addLines]
  rw [originOf, Node.startIn_addLines hlines h.self.1 h.self.2, hoffset]

end Scope

/-! ## The entries of a walk -/

/-- The nodes of a value move with the start of their owner, and the tree below the owner stays as
it is. -/
theorem entriesBelow_value_shift {owner value : Node} {t : Text} {k : Nat}
    (hroom : ∀ path n start o, value.at? path = some n → owner.startIn t = some start →
      n.startIn value.valueText = some o ∨ n.stopIn value.valueText = some o →
      start + owner.valueLead + o + k < Offset.modulus - 1)
    (document document' : Text) (limit depth : Nat) (path : Path) :
    value.entriesBelow limit document'
        (.value value.valueText (((owner.startIn t).map (· + k)).map owner.valueOffset)) depth
        path =
      (value.entriesBelow limit document
        (.value value.valueText ((owner.startIn t).map owner.valueOffset)) depth path).map
          fun e => (e.1, e.2.shift k) := by
  rw [Node.entriesBelow, Node.entriesBelow, List.map_map]
  refine List.map_congr_left fun e he => ?_
  have hat : value.at? e.1 = some e.2 := Node.mem_preorder_iff.mp (List.mem_filter.mp he).1
  simp only [Function.comp_apply, Scope.along_value,
    Scope.spanOf_value_shift document document' fun start o => hroom e.1 e.2 start o hat]

/-- The entries of a tree that stands further down, one level after the other. -/
theorem entriesBelow_addLines {before t : Text} {n : Node} (hlines : before.WholeLines)
    (h : n.MovesDown t before.length) (limit depth : Nat) (path : Path) :
    (n.addLines (before.count lf)).entriesBelow limit (before ++ t) .document depth path =
      (n.entriesBelow limit t .document depth path).map fun e =>
        (e.1, e.2.shift before.length) := by
  induction n using Node.induct generalizing depth path with
  | step n ih =>
    cases hin : withinDepth limit depth with
    | false => rw [entriesBelow_of_not_within hin, entriesBelow_of_not_within hin, List.map_nil]
    | true =>
      have hbelow : ∀ c ∈ n.children.zipIdx,
          (Node.addLinesBelow (before.count lf) c.1).entriesBelow limit (before ++ t)
              (Scope.document.below (before ++ t) (n.addLines (before.count lf))
                (Node.addLinesBelow (before.count lf) c.1)) (depth + 1) (path ++ [c.2]) =
            (c.1.entriesBelow limit t (Scope.document.below t n c.1) (depth + 1)
              (path ++ [c.2])).map fun e => (e.1, e.2.shift before.length) := by
        intro c hc
        have hget : n.children[c.2]? = some c.1 := List.mem_zipIdx_iff_getElem?.mp hc
        cases hvalue : c.1.isValueRoot with
        | true =>
          rw [Node.addLinesBelow, hvalue, if_pos rfl, Scope.below_of_isValueRoot hvalue,
            Scope.below_of_isValueRoot hvalue, Scope.originOf_addLines hlines h]
          refine entriesBelow_value_shift (fun q m start o hat => ?_) t (before ++ t) limit _ _
          exact h.valueRoom (c.2 :: q) m n c.1 start o (by rw [Node.at?_cons, hget]; exact hat)
            ((Node.scopeOf_cons hget).mpr (.inl ⟨hvalue, rfl, rfl⟩))
        | false =>
          have hmoved : (c.1.addLines (before.count lf)).isValueRoot = false := by
            rw [Node.isValueRoot_addLines, hvalue]
          rw [Node.addLinesBelow, hvalue, if_neg Bool.false_ne_true,
            Scope.below_of_not_isValueRoot hvalue, Scope.below_of_not_isValueRoot hmoved]
          exact ih c.1 (List.fst_mem_of_mem_zipIdx hc) (h.child hget hvalue) _ _
      rw [entriesBelow_of_within hin, entriesBelow_of_within hin, List.map_append,
        Node.children_addLines, List.zipIdx_map, List.flatMap_map, List.map_flatMap]
      simp only [Prod.map_fst, Prod.map_snd, id_eq]
      rw [List.flatMap_congr hbelow, Scope.spanOf_document_addLines hlines h, Node.source_addLines]
      cases n.source with
      | none => rfl
      | some source => rfl

namespace Annotator

/-- **Whole lines in front of a document move every span by their bytes.**  Let the nodes of the
document be placed by lines and columns counted from 1, and let no sum of offsets come to the
largest word.  Then the table of the tree that stands further down by the lines in front, in the
longer document, has the entries of the tree before, with the same bounds known and each known
bound, of a node of a value too, later by the bytes in front. -/
theorem annotate_addLines (a : Annotator) (root : Node) (before : Text)
    (hlines : before.WholeLines) (h : root.MovesDown a.document before.length) :
    let moved : Annotator := { a with document := before ++ a.document }
    (moved.annotate (some (root.addLines (before.count lf)))).1.table.entries =
      (a.annotate (some root)).1.table.entries.map fun e => (e.1, e.2.shift before.length) := by
  intro moved
  have hentries : ∀ (b : Annotator) (n : Node), (b.annotate (some n)).1.table.entries =
      n.entriesBelow b.options.maxDepth b.document .document 0 [] := fun b n =>
    entries_visitsFrom b.options.maxDepth b.document n .document 0 []
  rw [hentries, hentries]
  exact entriesBelow_addLines hlines h _ _ _

/-- The value of the declaration below. -/
def lowerValue : Node where
  toPayload := ((Payload.valueRoot (ascii "2")).setIndex 0).setStop ⟨1, 1⟩

/-- A declaration on the second line. -/
def lowerDeclaration : Node where
  toPayload := ((Payload.declaration (ascii "w") (ascii ":") (ascii "2")).setStart
    ⟨2, 2⟩).setStop ⟨2, 4⟩
  parsedValue := some lowerValue

/-- A rule that ends with the declaration. -/
def lowerRule : Node where
  toPayload := ({ kind := .rule } : Payload).setStart ⟨1, 1⟩
  nodes := [some lowerDeclaration]

/-- The document of the rule. -/
def lowerText : Text := ascii "a\x7b\n w:2\x7d"

/-- A rule, its declaration and the value in it: these are all nodes of the lower rule. -/
theorem mem_of_at?_lowerRule {path : Path} {n : Node} (h : lowerRule.at? path = some n) :
    (path, n) ∈ [([], lowerRule), ([0], lowerDeclaration), ([0, 0], lowerValue)] := by
  have hpreorder : lowerRule.preorder =
      [([], lowerRule), ([0], lowerDeclaration), ([0, 0], lowerValue)] := by cbv
  rw [← hpreorder]
  exact Node.mem_preorder_iff.mpr h

theorem placedByLine_lowerRule : lowerRule.PlacedByLine where
  noIndex source hsource := by
    cases hsource
    rfl
  position source p hsource hp := by
    cases hsource
    rcases hp with hp | hp
    · cases hp
      decide
    · cases hp
  nodes := by
    refine ⟨fun h => ?_, fun c hc => ?_⟩
    · cases h
    · cases List.mem_singleton.mp hc
      rfl

theorem placedByLine_lowerDeclaration : lowerDeclaration.PlacedByLine where
  noIndex source hsource := by
    cases hsource
    rfl
  position source p hsource hp := by
    cases hsource
    rcases hp with hp | hp
    · cases hp
      decide
    · cases hp
      decide
  nodes := ⟨fun _ => rfl, fun c hc => by cases hc⟩

theorem hasRoom_lowerRule : lowerRule.HasRoom lowerText 6 := by
  intro source p start hsource hp hline
  cases hsource
  rcases hp with hp | ⟨-, hp⟩
  · cases hp
    obtain rfl : start = 0 := Option.some.inj (hline.symm.trans (by decide))
    decide
  · cases hp

theorem hasRoom_lowerDeclaration : lowerDeclaration.HasRoom lowerText 6 := by
  intro source p start hsource hp hline
  cases hsource
  rcases hp with hp | ⟨-, hp⟩
  · cases hp
    obtain rfl : start = 3 := Option.some.inj (hline.symm.trans (by decide))
    decide
  · cases hp
    obtain rfl : start = 3 := Option.some.inj (hline.symm.trans (by decide))
    decide

theorem movesDown_lowerRule : lowerRule.MovesDown lowerText 6 where
  placed path n hat hin := by
    have hmem := mem_of_at?_lowerRule hat
    simp only [List.mem_cons, Prod.mk.injEq, List.not_mem_nil, or_false] at hmem
    rcases hmem with ⟨rfl, rfl⟩ | ⟨rfl, rfl⟩ | ⟨rfl, rfl⟩
    · exact placedByLine_lowerRule
    · exact placedByLine_lowerDeclaration
    · cases hin [0, 0] lowerValue (by simp) (List.prefix_refl _) rfl
  room path n hat hin := by
    have hmem := mem_of_at?_lowerRule hat
    simp only [List.mem_cons, Prod.mk.injEq, List.not_mem_nil, or_false] at hmem
    rcases hmem with ⟨rfl, rfl⟩ | ⟨rfl, rfl⟩ | ⟨rfl, rfl⟩
    · exact hasRoom_lowerRule
    · exact hasRoom_lowerDeclaration
    · cases hin [0, 0] lowerValue (by simp) (List.prefix_refl _) rfl
  valueRoom path n owner value start o hat hscope hstart ho := by
    have hmem := mem_of_at?_lowerRule hat
    simp only [List.mem_cons, Prod.mk.injEq, List.not_mem_nil, or_false] at hmem
    rcases hmem with ⟨rfl, rfl⟩ | ⟨rfl, rfl⟩ | ⟨rfl, rfl⟩
    · exact absurd hscope Node.not_scopeOf_nil
    · obtain ⟨hvalue, -⟩ | ⟨-, hscope⟩ := (Node.scopeOf_cons rfl).mp hscope
      · cases hvalue
      · exact absurd hscope Node.not_scopeOf_nil
    · obtain ⟨hvalue, -⟩ | ⟨-, hscope⟩ := (Node.scopeOf_cons rfl).mp hscope
      · cases hvalue
      obtain ⟨-, rfl, rfl⟩ | ⟨hvalue, -⟩ := (Node.scopeOf_cons rfl).mp hscope
      · obtain rfl : start = 4 := Option.some.inj (hstart.symm.trans (by decide))
        rcases ho with ho | ho
        · obtain rfl : o = 0 := Option.some.inj (ho.symm.trans (by decide))
          decide
        · rw [Node.stopIn_of_stop rfl rfl rfl] at ho
          obtain rfl : o = 1 := Option.some.inj (ho.symm.trans (by decide))
          decide
      · cases hvalue

/-- Two lines of six bytes in front of the rule move its spans by six. -/
theorem annotate_lowerRule :
    let a : Annotator := { document := lowerText }
    let before : Text := ascii "\n/**/\n"
    let moved : Annotator := { a with document := before ++ a.document }
    before.WholeLines ∧ lowerRule.MovesDown a.document before.length ∧
      (a.annotate (some lowerRule)).1.table.entries =
        [([], ⟨some 0, some 7⟩), ([0], ⟨some 4, some 7⟩), ([0, 0], ⟨some 6, some 7⟩)] ∧
      (moved.annotate (some (lowerRule.addLines 2))).1.table.entries =
        [([], ⟨some 6, some 13⟩), ([0], ⟨some 10, some 13⟩), ([0, 0], ⟨some 12, some 13⟩)] := by
  intro a before moved
  have hlines : before.WholeLines := .inr (by decide)
  have hentries : (a.annotate (some lowerRule)).1.table.entries =
      [([], ⟨some 0, some 7⟩), ([0], ⟨some 4, some 7⟩), ([0, 0], ⟨some 6, some 7⟩)] := by cbv
  have hmoved := annotate_addLines a lowerRule before hlines movesDown_lowerRule
  rw [hentries] at hmoved
  exact ⟨hlines, movesDown_lowerRule, hentries, hmoved⟩

end Annotator

end StyleSpan
