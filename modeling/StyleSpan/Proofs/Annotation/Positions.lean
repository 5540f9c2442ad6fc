import StyleSpan.Proofs.Annotation.Scopes
import StyleSpan.Proofs.Text.Positions

/-!
# StyleSpan.Proofs.Annotation.Positions

Annotation undoes what a tokenizer does when it gives positions.  A node that
is said to stand at the bytes `p` to `q` of the text that its positions refer
to (`WrittenAt`) has the span `[p, q + 1)` in that text; if that text is the
value of an owner that is written out in the document (`WrittenValue`), the
span is moved to where the value stands.

* `startIn_of_writtenAt` / `stopIn_of_writtenAt` — the bounds in the text of the positions;
* `originOf_of_writtenValue` — the offset at which a value begins;
* `declaredSpan_of_value` — the span of a node of a value that is written out;
* `slice_of_writtenValue` — what such a span covers.
-/

namespace StyleSpan

open Text

/-! ## Nodes that say where they stand -/

/-- The node says that it stands at the bytes `start` to `last` of a text: the
first one by its index or by line and column, the last one by line and column. -/
structure Node.WrittenAt (t : Text) (n : Node) (start last : Nat) : Prop where
  le : start ≤ last
  lt : last < t.length
  notInline : n.isInlineComment = false
  source : ∃ source, n.source = some source ∧
    (source.index = some start ∨
      source.index = none ∧ source.start = some (t.positionAt start)) ∧
    source.stop = some (t.positionAt last)

/-- What stands between the start of an owner and its value. -/
def Node.textBeforeValue (owner : Node) : Text :=
  if owner.kind = .atRule then ascii "@" ++ owner.name else owner.prop ++ owner.between.getD []

/-- The document has, from the start of the owner on, what stands before the
value and the value, which begins at the offset `origin`.  The owner is a
declaration, or an at-rule for which nothing was kept after its name. -/
structure Node.WrittenValue (document : Text) (owner value : Node) (origin : Nat) : Prop where
  kind : owner.kind = .declaration ∨ owner.kind = .atRule ∧ owner.afterName = none
  text : ∃ front rest, owner.startIn document = some front.length ∧
    document = front ++ owner.textBeforeValue ++ value.valueText ++ rest ∧
    origin = (front ++ owner.textBeforeValue).length

namespace Node

variable {t document : Text} {n owner value : Node} {start last origin : Nat}

/-- A node starts where it is written. -/
theorem startIn_of_writtenAt (h : n.WrittenAt t start last)
    (hsize : t.length < Offset.modulus - 1) : n.startIn t = some start := by
  have hle := h.le
  have hlt := h.lt
  obtain ⟨source, hsource, hstart, -⟩ := h.source
  rcases hstart with hindex | ⟨hindex, hstart⟩
  · exact startIn_of_index hsource hindex t
  · exact startIn_of_start hsource hindex hstart (indexAt?_positionAt (by omega) (by omega))

/-- A node stops behind the last of its bytes. -/
theorem stopIn_of_writtenAt (h : n.WrittenAt t start last)
    (hsize : t.length < Offset.modulus - 1) : n.stopIn t = some (last + 1) := by
  have hlt := h.lt
  obtain ⟨source, hsource, -, hstop⟩ := h.source
  rw [stopIn_of_stop hsource h.notInline hstop]
  exact indexAt?_positionAt (by omega) (by omega)

theorem source_of_writtenAt (h : n.WrittenAt t start last) : n.source.isSome = true := by
  obtain ⟨source, hsource, -⟩ := h.source
  rw [hsource]
  rfl

/-! ## Values that are written out -/

/-- What is added to the start of a declaration is the length of the text before its value. -/
theorem valueLead_eq_length
    (h : owner.kind = .declaration ∨ owner.kind = .atRule ∧ owner.afterName = none) :
    owner.valueLead = owner.textBeforeValue.length := by
  rcases h with hkind | ⟨hkind, hafter⟩
  · rw [valueLead, textBeforeValue, hkind, if_neg (by decide), List.length_append]
  · rw [valueLead, textBeforeValue, hkind, if_pos rfl, hafter, List.length_append]
    rfl

/-- The text of a written value lies in the document. -/
theorem origin_le_of_writtenValue (h : owner.WrittenValue document value origin) :
    origin + value.valueText.length ≤ document.length := by
  obtain ⟨front, rest, -, hdocument, rfl⟩ := h.text
  have hlength := congrArg List.length hdocument
  simp only [List.length_append] at hlength ⊢
  omega

/-- The value begins where its text is written. -/
theorem originOf_of_writtenValue (h : owner.WrittenValue document value origin)
    (hsize : document.length < Offset.modulus - 1) :
    ∃ s, owner.startIn document = some s ∧ owner.valueOffset s = origin := by
  have hle := origin_le_of_writtenValue h
  obtain ⟨front, rest, hstart, -, horigin⟩ := h.text
  rw [List.length_append] at horigin
  refine ⟨front.length, hstart, ?_⟩
  rw [valueOffset, valueLead_eq_length h.kind, Offset.add_eq_of_lt (by omega), horigin]

/-- The document has the bytes of a value where the value stands. -/
theorem slice_of_writtenValue (h : owner.WrittenValue document value origin) {i j : Nat}
    (hj : j ≤ value.valueText.length) :
    document.slice (origin + i) (origin + j) = value.valueText.slice i j := by
  obtain ⟨front, rest, -, hdocument, rfl⟩ := h.text
  rw [hdocument, slice_of_append hj]

end Node

/-! ## Spans in the table -/

namespace Annotator

variable {a : Annotator} {root n owner value : Node} {path : Path} {origin start last : Nat}

/-- A node of the document has the bytes that it is written at. -/
theorem declaredSpan_of_document {document : Text} (hin : root.InDocument path)
    (h : n.WrittenAt document start last) (hsize : document.length < Offset.modulus - 1) :
    DeclaredSpan document root path n ⟨some start, some (last + 1)⟩ := by
  rw [← Node.startIn_of_writtenAt h hsize, ← Node.stopIn_of_writtenAt h hsize]
  exact .document hin

/-- A node of a value has its bytes, counted from the start of the value. -/
theorem declaredSpan_of_value {document : Text} (hscope : root.ScopeOf path owner value)
    (hvalue : owner.WrittenValue document value origin)
    (h : n.WrittenAt value.valueText start last) (hsize : document.length < Offset.modulus - 1) :
    DeclaredSpan document root path n ⟨some (origin + start), some (origin + last + 1)⟩ := by
  have hle := Node.origin_le_of_writtenValue hvalue
  have hstart := h.le
  have hlast := h.lt
  obtain ⟨s, hs, horigin⟩ := Node.originOf_of_writtenValue hvalue hsize
  have hspan := DeclaredSpan.value (n := n) hscope hs
  rw [Node.startIn_of_writtenAt h (by omega), Node.stopIn_of_writtenAt h (by omega), horigin,
    Option.map_some, Option.map_some, Nat.mod_eq_of_lt (by omega), Nat.mod_eq_of_lt (by omega)]
    at hspan
  rw [Nat.add_comm origin start, Nat.add_assoc origin, Nat.add_comm origin (last + 1)]
  exact hspan

/-- Without a depth limit, the table has the bytes at which nodes say that they
stand: those of the document for a node of the document, and those at which the
value stands for a node of a value that is written out; and that is what the
span covers.  As any text in memory, the document is shorter than the largest offset. -/
theorem annotate_written (a : Annotator) (root : Node) (hdepth : a.options.maxDepth = 0)
    (hsize : a.document.length < Offset.modulus - 1) :
    let table := (a.annotate (some root)).1.table
    (∀ path n start last, root.at? path = some n → root.InDocument path →
      n.WrittenAt a.document start last →
        table.find? path = some ⟨some start, some (last + 1)⟩ ∧
        Span.slice a.document ⟨some start, some (last + 1)⟩ =
          (a.document.drop start).take (last + 1 - start)) ∧
    (∀ path owner value n origin start last, root.at? path = some n →
      root.ScopeOf path owner value → owner.WrittenValue a.document value origin →
      n.WrittenAt value.valueText start last →
        table.find? path = some ⟨some (origin + start), some (origin + last + 1)⟩ ∧
        Span.slice a.document ⟨some (origin + start), some (origin + last + 1)⟩ =
          (value.valueText.drop start).take (last + 1 - start)) := by
  intro table
  constructor
  · intro path n start last hat hin h
    have hlast := h.lt
    have hspan := declaredSpan_of_document hin h hsize
    have hsource := Node.source_of_writtenAt h
    refine ⟨(find?_annotate hdepth).mpr ⟨n, hat, hsource, hspan⟩, ?_⟩
    rw [Span.slice_mk_some, slice_eq_take_drop (by omega)]
  · intro path owner value n origin start last hat hscope hvalue h
    have hlast := h.lt
    have hspan := declaredSpan_of_value hscope hvalue h hsize
    have hsource := Node.source_of_writtenAt h
    refine ⟨(find?_annotate hdepth).mpr ⟨n, hat, hsource, hspan⟩, ?_⟩
    rw [Span.slice_mk_some, Nat.add_assoc, Node.slice_of_writtenValue hvalue (by omega),
      slice_eq_take_drop (by omega)]

/-- The second word of a value of two lines, placed by line and column. -/
def gridWord : Node where
  toPayload := (({ kind := .valueWord } : Payload).setStart ⟨2, 3⟩).setStop ⟨2, 3⟩

/-- A value of two lines. -/
def gridValue : Node where
  toPayload := Payload.valueRoot (ascii "a,\n  b")
  group := some { kind := .valueCommaGroup, groups := [none, some gridWord] }

/-- The declaration `grid: a,` with `b` on a second line. -/
def gridDeclaration : Node where
  toPayload := ((Payload.declaration (ascii "grid") (ascii ": ") (ascii "a,\n  b")).setStart
    ⟨1, 1⟩).setStop ⟨2, 4⟩
  parsedValue := some gridValue

/-- The declaration stands at the bytes 0 to 12 and the word at byte 11. -/
theorem annotate_gridDeclaration :
    let a : Annotator := { document := ascii "grid: a,\n  b;" }
    let table := (a.annotate (some gridDeclaration)).1.table
    a.options.maxDepth = 0 ∧ a.document.length < Offset.modulus - 1 ∧
      table.find? [] = some ⟨some 0, some 13⟩ ∧
      table.find? [0, 0, 0] = some ⟨some 11, some 12⟩ ∧
      Span.slice a.document ⟨some 11, some 12⟩ = ascii "b" := by
  intro a table
  have hsize : a.document.length < Offset.modulus - 1 := by decide
  obtain ⟨hdocument, hvalues⟩ := annotate_written a gridDeclaration rfl hsize
  have hwhole : gridDeclaration.WrittenAt a.document 0 12 :=
    ⟨by decide, by decide, by decide, _, rfl, .inr ⟨rfl, by decide⟩, by decide⟩
  have hword : gridWord.WrittenAt gridValue.valueText 5 5 :=
    ⟨by decide, by decide, by decide, _, rfl, .inr ⟨rfl, by decide⟩, by decide⟩
  have hwritten : gridDeclaration.WrittenValue a.document gridValue 6 :=
    ⟨.inl rfl, [], ascii ";", by decide, by decide, by decide⟩
  have hscope : gridDeclaration.ScopeOf [0, 0, 0] gridDeclaration gridValue :=
    ⟨[], 0, [0, 0], rfl, Node.inDocument_nil _, rfl, rfl, rfl⟩
  obtain ⟨hfind, -⟩ := hdocument [] gridDeclaration 0 12 rfl (Node.inDocument_nil _) hwhole
  obtain ⟨hfindWord, hslice⟩ :=
    hvalues [0, 0, 0] gridDeclaration gridValue gridWord 6 5 5 rfl hscope hwritten hword
  exact ⟨rfl, hsize, hfind, hfindWord, hslice⟩

end Annotator

end StyleSpan
