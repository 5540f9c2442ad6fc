import StyleSpan.Proofs.Annotation.LastChild
import StyleSpan.Proofs.Text.Places

/-!
# StyleSpan.Proofs.Annotation.Order

Spans that run forwards.  If the positions of a tree name bytes of the texts that they
refer to, and no node ends or has its last child before it begins, then no span of the
table ends before it starts, and the spans of the document can be cut out of it.  The
end of a node may come from a chain of last children of any length; that it is not
before the start is carried along the chain from its far end.

* `Node.bounds_of_wellPlaced` — the bounds of a node in the text of its positions;
* `annotate_ordered` — the spans of the table.
-/

namespace StyleSpan

open Text

namespace Node

variable {document t : Text} {root n m c : Node} {path : Path} {first stop : Nat}

/-! ## The text of positions -/

/-- The text that positions at a path refer to: the document, or the text of the value that the
path leads into. -/
inductive TextOf (document : Text) (root : Node) (path : Path) : Text → Prop where
  | document (h : root.InDocument path) : TextOf document root path document
  | value {owner value : Node} (h : root.ScopeOf path owner value) :
      TextOf document root path value.valueText

/-- The text is that of the scope at the end of the path. -/
theorem eq_of_textOf (h : root.TextOf document path t) :
    t = match Scope.document.along document root path with
      | .document => document
      | .value text _ => text := by
  cases h with
  | document hin => rw [Scope.along_of_inDocument hin]
  | value hscope => rw [Scope.along_of_scopeOf hscope]

/-- A child that is no value is placed in the text of its parent. -/
theorem textOf_concat {i : Nat} (hat : root.at? path = some n) (hc : n.children[i]? = some c)
    (hvalue : c.isValueRoot = false) (h : root.TextOf document path t) :
    root.TextOf document (path ++ [i]) t := by
  cases h with
  | document hin => exact .document (inDocument_concat hat hc hvalue hin)
  | value hscope => exact .value (scopeOf_append hscope [i])

/-! ## Nodes in their place -/

/-- The offset of the byte at which a node begins by its source: its index, or else the byte of
its start position, if it is one of the text. -/
def firstByte? (t : Text) (n : Node) : Option Nat :=
  n.source.bind fun source =>
    match source.index with
    | some index => if index < t.length then some index else none
    | none => source.start.bind t.offsetAt?

/-- What makes sense of the source of a node whose positions refer to a text. -/
structure WellPlaced (t : Text) (n : Node) : Prop where
  /-- As of any text in memory, the length of the text is a word. -/
  size : t.length < Offset.modulus
  /-- A node with a source begins at a byte of the text. -/
  start : n.source.isSome = true → ∃ first, n.firstByte? t = some first
  /-- An end position names a byte of the text that is not before the first one of the node. -/
  stop : ∀ source p, n.source = some source → source.stop = some p →
    ∃ first last, n.firstByte? t = some first ∧ t.offsetAt? p = some last ∧ first ≤ last
  nodes : n.NodesWalked
  /-- A node that leaves its end to its last child begins no later than that. -/
  lastChild : ∀ c, n.OpenEnded → n.lastChild = some c → c.source.isSome = true →
    ∃ first first', n.firstByte? t = some first ∧ c.firstByte? t = some first' ∧ first ≤ first'

/-- A node without children is well placed if its own bounds are. -/
theorem wellPlaced_of_no_nodes (hsize : t.length < Offset.modulus) (hnodes : n.nodes = [])
    (hfirst : n.firstByte? t = some first)
    (hstop : ∀ source p, n.source = some source → source.stop = some p →
      ∃ last, t.offsetAt? p = some last ∧ first ≤ last) : n.WellPlaced t where
  size := hsize
  start _ := ⟨first, hfirst⟩
  stop source p hsource hp := by
    obtain ⟨last, hlast, hle⟩ := hstop source p hsource hp
    exact ⟨first, last, hfirst, hlast, hle⟩
  nodes := ⟨fun _ => hnodes, fun c hc => by simp [hnodes] at hc⟩
  lastChild c _ hlast _ := by simp [Node.lastChild, Layer.lastChild, hnodes] at hlast

theorem lt_of_firstByte? (h : n.firstByte? t = some first) : first < t.length := by
  obtain ⟨source, -, hbyte⟩ := Option.bind_eq_some_iff.mp h
  split at hbyte
  · rw [Option.ite_none_right_eq_some, Option.some.injEq] at hbyte
    exact hbyte.2 ▸ hbyte.1
  · obtain ⟨p, -, hp⟩ := Option.bind_eq_some_iff.mp hbyte
    obtain ⟨start, -, -, -, hlt⟩ := offsetAt?_eq_some.mp hp
    exact hlt

/-- The start that is found, if any, is the first byte. -/
theorem startIn_of_firstByte? (h : n.firstByte? t = some first) (hsize : t.length < Offset.modulus)
    {start : Nat} (hstart : n.startIn t = some start) : start = first := by
  obtain ⟨source, hsource, hbyte⟩ := Option.bind_eq_some_iff.mp h
  split at hbyte
  · next index hindex =>
    rw [startIn_of_index hsource hindex] at hstart
    rw [Option.ite_none_right_eq_some] at hbyte
    exact Option.some.inj (hstart.symm.trans hbyte.2)
  · next hindex =>
    obtain ⟨p, hp, hoffset⟩ := Option.bind_eq_some_iff.mp hbyte
    have hindexed := indexAt?_of_offsetAt? hoffset hsize
    cases hword : Offset.ofWord? (first + 1) with
    | none =>
      rw [startIn_of_start_none hsource hindex hp (hindexed.trans hword)] at hstart
      cases hstart
    | some w =>
      obtain ⟨-, rfl⟩ := Offset.ofWord?_eq_some.mp hword
      rw [startIn_of_start hsource hindex hp (hindexed.trans hword)] at hstart
      exact (Option.some.inj hstart).symm

/-- A node without a source stops nowhere. -/
theorem isSome_source_of_stopIn (h : n.stopIn t = some stop) : n.source.isSome = true := by
  cases hsource : n.source with
  | none =>
    rw [stopIn_of_no_source hsource] at h
    cases h
  | some _ => rfl

/-- In a tree of which every node is in its place, a node ends in the text of its positions, and
not before its first byte. -/
theorem bounds_of_wellPlaced
    (hplaced : ∀ path n t, root.at? path = some n → root.TextOf document path t → n.WellPlaced t)
    (hat : root.at? path = some n) (ht : root.TextOf document path t)
    (hfirst : n.firstByte? t = some first) (hstop : n.stopIn t = some stop) :
    first ≤ stop ∧ stop ≤ t.length := by
  have hn := hplaced path n t hat ht
  have hsize := hn.size
  -- along the last children, as an end may be that of the last child
  induction n using Node.stopIn.induct generalizing path first with
  | case1 n hsource =>
    rw [stopIn_of_no_source hsource] at hstop
    cases hstop
  | case2 n source hsource hinline =>
    rw [stopIn_of_inline hinline] at hstop
    obtain ⟨start, hstart, rfl⟩ := Option.map_eq_some_iff.mp hstop
    rw [startIn_of_firstByte? hfirst hsize hstart]
    exact lineEndFrom_bounds (Nat.le_of_lt (lt_of_firstByte? hfirst))
  | case3 n source hsource hinline p hp =>
    obtain ⟨first', last, hfirst', hlast, hle⟩ := hn.stop source p hsource hp
    cases hfirst.symm.trans hfirst'
    obtain ⟨-, -, -, -, hlt⟩ := offsetAt?_eq_some.mp hlast
    rw [stopIn_of_stop hsource (by simpa using hinline) hp, indexAt?_of_offsetAt? hlast hsize,
      Offset.ofWord?_eq_some] at hstop
    omega
  | case4 n source hsource hinline hp c hlast ih =>
    have hopen : n.OpenEnded := ⟨⟨source, hsource, hp⟩, by simpa using hinline⟩
    obtain ⟨hkind, hvalue⟩ := hn.nodes.lastChild hlast
    have hatc := at?_lastPath hat hkind hlast
    have htc := textOf_concat hat (getElem?_lastChild hkind hlast) hvalue ht
    have hc := hplaced _ c t hatc htc
    rw [hopen.stopIn_eq, hlast, Option.bind_some] at hstop
    obtain ⟨first', firstc, hfirst', hfirstc, hle⟩ :=
      hn.lastChild c hopen hlast (isSome_source_of_stopIn hstop)
    cases hfirst.symm.trans hfirst'
    have hbounds := ih hatc htc hfirstc hstop hc
    exact ⟨Nat.le_trans hle hbounds.1, hbounds.2⟩
  | case5 n source hsource hinline hp hlast =>
    rw [stopIn_of_lastChild hsource (by simpa using hinline) hp, hlast] at hstop
    cases hstop

/-- The bounds that are found for a node in its place. -/
theorem startIn_le_stopIn
    (hplaced : ∀ path n t, root.at? path = some n → root.TextOf document path t → n.WellPlaced t)
    (hat : root.at? path = some n) (ht : root.TextOf document path t) {start : Nat}
    (hstart : n.startIn t = some start) (hstop : n.stopIn t = some stop) :
    start ≤ stop ∧ stop ≤ t.length := by
  have hn := hplaced path n t hat ht
  obtain ⟨first, hfirst⟩ := hn.start (isSome_source_of_stopIn hstop)
  rw [startIn_of_firstByte? hfirst hn.size hstart]
  exact bounds_of_wellPlaced hplaced hat ht hfirst hstop

end Node

/-! ## The table -/

namespace Annotator

variable {a : Annotator} {root : Node}

/-- **Spans run forwards, and those of the document can be cut out of it.**  Let every node be in
its place in the text that its positions refer to, and let no end of a node of a value wrap when it
is moved to where the value begins.  Then no span with two known bounds ends before it starts, and
such a span of a node of the document lies in the document and covers as many bytes as its bounds
are apart. -/
theorem annotate_ordered (a : Annotator) (root : Node) (hdepth : a.options.maxDepth = 0)
    (hplaced : ∀ path n t, root.at? path = some n → root.TextOf a.document path t →
      n.WellPlaced t)
    (hmoved : ∀ path n owner value origin stop, root.at? path = some n →
      root.ScopeOf path owner value → Scope.originOf a.document owner = some origin →
      n.stopIn value.valueText = some stop → stop + origin < Offset.modulus) :
    let table := (a.annotate (some root)).1.table
    ∀ path start stop, table.find? path = some ⟨some start, some stop⟩ →
      start ≤ stop ∧ (root.InDocument path → stop ≤ a.document.length ∧
        (Span.slice a.document ⟨some start, some stop⟩).length = stop - start) := by
  intro table path start stop hfind
  obtain ⟨n, hat, hsource, -⟩ := (find?_annotate hdepth).mp hfind
  rw [find?_annotate_of_at? hdepth hat hsource, Option.some.injEq] at hfind
  rcases Node.inDocument_or_scopeOf hat with hin | ⟨owner, value, hscope⟩
  · rw [Scope.along_of_inDocument hin] at hfind
    obtain ⟨hstart, hstop⟩ := Span.mk.inj hfind
    have ht : root.TextOf a.document path a.document := .document hin
    obtain ⟨hle, hlength⟩ := Node.startIn_le_stopIn hplaced hat ht hstart hstop
    exact ⟨hle, fun _ => ⟨hlength, length_slice hlength⟩⟩
  · have ht : root.TextOf a.document path value.valueText := .value hscope
    refine ⟨?_, fun hin => absurd hin (Node.not_inDocument_of_scopeOf hscope)⟩
    rw [Scope.along_of_scopeOf hscope] at hfind
    cases horigin : Scope.originOf a.document owner with
    | none =>
      rw [horigin] at hfind
      cases hfind
    | some origin =>
      rw [horigin] at hfind
      obtain ⟨hstart, hstop⟩ := Span.mk.inj hfind
      obtain ⟨first, hfirst, rfl⟩ := Option.map_eq_some_iff.mp hstart
      obtain ⟨last, hlast, rfl⟩ := Option.map_eq_some_iff.mp hstop
      have hle := (Node.startIn_le_stopIn hplaced hat ht hfirst hlast).1
      have hlt := hmoved path n owner value origin last hat hscope horigin hlast
      rw [Offset.add_eq_of_lt (by omega), Offset.add_eq_of_lt hlt]
      omega

/-- A value, placed in its own text. -/
def borderValue : Node where
  toPayload := ((Payload.valueRoot (ascii "2px")).setIndex 0).setStop ⟨1, 3⟩

/-- The declaration `w: 2px`. -/
def borderDeclaration : Node where
  toPayload := ((Payload.declaration (ascii "w") (ascii ": ") (ascii "2px")).setStart
    ⟨1, 3⟩).setStop ⟨1, 8⟩
  parsedValue := some borderValue

/-- The inline comment behind it. -/
def borderComment : Node where
  toPayload := (Payload.comment (ascii "c") true).setStart ⟨1, 9⟩

/-- A rule with the two in it, which does not say where it ends. -/
def borderRule : Node where
  toPayload := ({ kind := .rule } : Payload).setStart ⟨1, 1⟩
  nodes := [some borderDeclaration, some borderComment]

/-- The document of the rule. -/
def borderText : Text := ascii "a\x7bw: 2px//c\n\x7d"

theorem mem_of_at?_borderRule {path : Path} {n : Node} (h : borderRule.at? path = some n) :
    (path, n) ∈ [([], borderRule), ([0], borderDeclaration), ([0, 0], borderValue),
      ([1], borderComment)] := by
  have hpreorder : borderRule.preorder = [([], borderRule), ([0], borderDeclaration),
      ([0, 0], borderValue), ([1], borderComment)] := by cbv
  rw [← hpreorder]
  exact Node.mem_preorder_iff.mpr h

theorem wellPlaced_borderRule : borderRule.WellPlaced borderText where
  size := by decide
  start _ := ⟨0, by decide⟩
  stop source p hsource hstop := by
    cases hsource
    cases hstop
  nodes := by
    refine ⟨fun h => ?_, fun c hc => ?_⟩
    · cases h
    · rcases List.mem_cons.mp hc with hc | hc
      · cases hc
        rfl
      · cases List.mem_singleton.mp hc
        rfl
  lastChild c _ hlast _ := by
    cases hlast
    exact ⟨0, 8, by decide, by decide, by decide⟩

theorem wellPlaced_borderDeclaration : borderDeclaration.WellPlaced borderText := by
  have hfirst : borderDeclaration.firstByte? borderText = some 2 := by decide
  refine Node.wellPlaced_of_no_nodes (by decide) rfl hfirst fun source p hsource hstop => ?_
  cases hsource
  cases hstop
  exact ⟨7, by decide, by decide⟩

theorem wellPlaced_borderValue : borderValue.WellPlaced (ascii "2px") := by
  have hfirst : borderValue.firstByte? (ascii "2px") = some 0 := by decide
  refine Node.wellPlaced_of_no_nodes (by decide) rfl hfirst fun source p hsource hstop => ?_
  cases hsource
  cases hstop
  exact ⟨2, by decide, by decide⟩

theorem wellPlaced_borderComment : borderComment.WellPlaced borderText := by
  have hfirst : borderComment.firstByte? borderText = some 8 := by decide
  refine Node.wellPlaced_of_no_nodes (by decide) rfl hfirst fun source p hsource hstop => ?_
  cases hsource
  cases hstop

/-- The rule runs to the end of its comment, and the value stands in the declaration. -/
theorem annotate_borderRule :
    let a : Annotator := { document := borderText }
    let table := (a.annotate (some borderRule)).1.table
    a.options.maxDepth = 0 ∧
      (∀ path n t, borderRule.at? path = some n → borderRule.TextOf a.document path t →
        n.WellPlaced t) ∧
      (∀ path n owner value origin stop, borderRule.at? path = some n →
        borderRule.ScopeOf path owner value → Scope.originOf a.document owner = some origin →
        n.stopIn value.valueText = some stop → stop + origin < Offset.modulus) ∧
      table.find? [0, 0] = some ⟨some 5, some 8⟩ ∧ 5 ≤ 8 ∧
      table.find? [] = some ⟨some 0, some 11⟩ ∧
      (Span.slice a.document ⟨some 0, some 11⟩).length = 11 - 0 := by
  intro a table
  have hplaced : ∀ path n t, borderRule.at? path = some n → borderRule.TextOf a.document path t →
      n.WellPlaced t := by
    intro path n t hat ht
    obtain rfl := Node.eq_of_textOf ht
    have hmem := mem_of_at?_borderRule hat
    simp only [List.mem_cons, Prod.mk.injEq, List.not_mem_nil, or_false] at hmem
    rcases hmem with ⟨rfl, rfl⟩ | ⟨rfl, rfl⟩ | ⟨rfl, rfl⟩ | ⟨rfl, rfl⟩
    · exact wellPlaced_borderRule
    · exact wellPlaced_borderDeclaration
    · exact wellPlaced_borderValue
    · exact wellPlaced_borderComment
  have hmoved : ∀ path n owner value origin stop, borderRule.at? path = some n →
      borderRule.ScopeOf path owner value → Scope.originOf a.document owner = some origin →
      n.stopIn value.valueText = some stop → stop + origin < Offset.modulus := by
    intro path n owner value origin stop hat hscope horigin hstop
    have hmem := mem_of_at?_borderRule hat
    have halong : Scope.document.along a.document borderRule path = _ :=
      Scope.along_of_scopeOf hscope
    rw [horigin] at halong
    simp only [List.mem_cons, Prod.mk.injEq, List.not_mem_nil, or_false] at hmem
    rcases hmem with ⟨rfl, rfl⟩ | ⟨rfl, rfl⟩ | ⟨rfl, rfl⟩ | ⟨rfl, rfl⟩
    · cases halong
    · cases halong
    · obtain ⟨htext, horigin⟩ := Scope.value.inj halong
      rw [← htext, Node.stopIn_of_stop rfl rfl rfl] at hstop
      cases hstop
      cases horigin
      decide
    · cases halong
  have hordered := annotate_ordered a borderRule rfl hplaced hmoved
  have htable : (a.annotate (some borderRule)).1.table =
      ⟨[([], ⟨some 0, some 11⟩), ([0], ⟨some 2, some 8⟩), ([0, 0], ⟨some 5, some 8⟩),
        ([1], ⟨some 8, some 11⟩)]⟩ := by cbv
  have hvalue : table.find? [0, 0] = some ⟨some 5, some 8⟩ :=
    (congrArg (LocationTable.find? · [0, 0]) htable).trans rfl
  have hrule : table.find? [] = some ⟨some 0, some 11⟩ :=
    (congrArg (LocationTable.find? · []) htable).trans rfl
  obtain ⟨hle, -⟩ := hordered [0, 0] 5 8 hvalue
  obtain ⟨-, hslice⟩ := hordered [] 0 11 hrule
  exact ⟨rfl, hplaced, hmoved, hvalue, hle, hrule, (hslice (Node.inDocument_nil _)).2⟩

end Annotator

end StyleSpan
