import StyleSpan.Node.Basic
import StyleSpan.Span

/-!
# StyleSpan.Annotation.Bounds

Where a node begins and ends in the text that its positions refer to, and
where a value begins in the text of its owner.

A start position names the first character, and `indexAt?` gives the offset
after it, hence the step back; an end position names the last character,
and the offset after it is the bound.  The lemmas at the end state the rules
for the end of a node one at a time.
-/

namespace StyleSpan

namespace Node

/-- The offset of the first byte of a node: its index if it has one, otherwise
by its start position. -/
def startIn (t : Text) (n : Node) : Option Nat :=
  n.source.bind fun source =>
    match source.index, source.start with
    | some index, _ => some index
    | none, some p =>
      match t.indexAt? p with
      | some (o + 1) => some o
      | _ => none
    | none, none => none

/-- The offset after the last byte of a node.  An inline comment runs to the end
of its line; other nodes have their end position, or else end with their last
child. -/
def stopIn (t : Text) (n : Node) : Option Nat :=
  match n.source with
  | none => none
  | some source =>
    if n.isInlineComment then (n.startIn t).map t.lineEndFrom
    else match source.stop with
      | some p => t.indexAt? p
      | none =>
        match _h : n.lastChild with
        | some c => c.stopIn t
        | none => none
termination_by n
decreasing_by exact sizeOf_lt_of_lastChild _h

/-- Both bounds of a node in the text that its positions refer to. -/
def spanIn (t : Text) (n : Node) : Span := ⟨n.startIn t, n.stopIn t⟩

/-- The number of bytes between the start of an owner and its value: in an
at-rule the at sign, the name and the blanks after it, in a declaration the
property and what follows it, elsewhere what the parser kept before the value. -/
def valueLead (n : Node) : Nat :=
  match n.kind with
  | .atRule => 1 + n.name.length + ((n.afterName.getD []).takeWhile Text.isStyleBlank).length
  | .declaration => n.prop.length + (n.between.getD []).length
  | _ => (n.between.getD []).length

/-- The offset of the first byte of the value of a node that begins at `start`. -/
def valueOffset (n : Node) (start : Nat) : Nat := Offset.add start n.valueLead

/-- The place that a diagnostic about a node names: its start position, or no
place if it has none. -/
def locationIn (t : Text) (n : Node) : Location :=
  match n.source.bind (·.start) with
  | some p => { offset := (t.indexAt? p).getD 0 - 1, line := p.line, column := p.column }
  | none => { offset := 0, line := 0, column := 0 }

/-! ## One rule at a time -/

@[simp] theorem startIn_of_no_source {n : Node} (h : n.source = none) (t : Text) :
    n.startIn t = none := by
  simp [startIn, h]

@[simp] theorem stopIn_of_no_source {n : Node} (h : n.source = none) (t : Text) :
    n.stopIn t = none := by
  rw [stopIn, h]

/-- An index is the start, whatever the text. -/
theorem startIn_of_index {n : Node} {source : Source} {index : Nat} (h : n.source = some source)
    (hi : source.index = some index) (t : Text) : n.startIn t = some index := by
  simp [startIn, h, hi]

/-- A start position names the byte before its index. -/
theorem startIn_of_start {n : Node} {source : Source} {p : Position} (h : n.source = some source)
    (hi : source.index = none) (hp : source.start = some p) {t : Text} {o : Nat}
    (ho : t.indexAt? p = some (o + 1)) : n.startIn t = some o := by
  simp [startIn, h, hi, hp, ho]

theorem startIn_of_start_none {n : Node} {source : Source} {p : Position}
    (h : n.source = some source) (hi : source.index = none) (hp : source.start = some p) {t : Text}
    (ho : t.indexAt? p = none) : n.startIn t = none := by
  simp [startIn, h, hi, hp, ho]

/-- An inline comment stops where its line ends. -/
theorem stopIn_of_inline {n : Node} (h : n.isInlineComment = true) (t : Text) :
    n.stopIn t = (n.startIn t).map t.lineEndFrom := by
  rw [stopIn]
  split
  · rename_i hs
    simp [hs]
  · simp [h]

/-- An end position wins over the last child. -/
theorem stopIn_of_stop {n : Node} {source : Source} {p : Position} (h : n.source = some source)
    (hc : n.isInlineComment = false) (hp : source.stop = some p) (t : Text) :
    n.stopIn t = t.indexAt? p := by
  rw [stopIn, h]
  simp [hc, hp]

/-- Without an end position a node ends with its last child. -/
theorem stopIn_of_lastChild {n : Node} {source : Source} (h : n.source = some source)
    (hc : n.isInlineComment = false) (hp : source.stop = none) (t : Text) :
    n.stopIn t = n.lastChild.bind (·.stopIn t) := by
  rw [stopIn, h]
  simp only [hc, hp, Bool.false_eq_true, if_false]
  split <;> simp_all

end Node

end StyleSpan
