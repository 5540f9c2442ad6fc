import StyleSpan.Proofs.Annotation.Depth
import StyleSpan.Proofs.Annotation.Findings

/-!
# StyleSpan.Proofs.Annotation.CutWarnings

Where the warnings say that sub-trees were cut.  A warning names the node by its start
position and by the offset that this position has in the document.  That is where the
node stands as long as positions refer to the document; in a value they refer to the
text of the value, and the warning is as far off as the two texts are apart: on the
first line, where every text begins at 0, by the whole offset of the value.

* `filter_findings` — the warnings among the findings of a tree;
* `offset_locationIn` — the offset that a diagnostic names;
* `annotate_cutWarnings` — the warnings of a limited annotation, by the table of a full one.
-/

namespace StyleSpan

open Text

variable {document : Text} {root n : Node} {path : Path} {p : Position} {limit : Nat}

/-! ## Which nodes are warned of -/

private theorem flatMap_ite {α β : Type} (p : α → Prop) [DecidablePred p] (f : α → β)
    (xs : List α) : (xs.flatMap fun x => if p x then [f x] else []) = (xs.filter p).map f := by
  induction xs with
  | nil => rfl
  | cons x rest ih =>
    rw [List.flatMap_cons, ih, List.filter_cons]
    by_cases h : p x <;> simp [h]

/-- What is found at the owner of a value is no warning. -/
theorem filter_ownerFindings (limit : Nat) (document : Text) (root : Node) (path : Path)
    (n : Node) :
    (root.ownerFindings limit document path n).filter (·.severity = .warning) = [] := by
  rw [Node.ownerFindings]
  split
  · split <;> rfl
  · rfl

/-- The one warning about a node is that it is just below the limit. -/
theorem filter_nodeFindings (hlimit : 0 < limit) (document : Text) (root : Node) (path : Path)
    (n : Node) :
    (root.nodeFindings limit document path n).filter (·.severity = .warning) =
      if path.length = limit + 1 then [.tooDeep n] else [] := by
  rw [Node.nodeFindings, withinDepth_of_pos hlimit]
  by_cases hwithin : path.length ≤ limit
  · have hne : path.length ≠ limit + 1 := by omega
    rw [decide_eq_true hwithin, if_pos rfl, if_neg hne]
    split <;> rfl
  · rw [decide_eq_false hwithin, if_neg Bool.false_ne_true]
    split <;> rfl

/-- The warnings among the findings are about the nodes just below the limit, in their order. -/
theorem filter_findings (hlimit : 0 < limit) (document : Text) (root : Node) :
    (root.findings limit document).filter (·.severity = .warning) =
      (root.atDepth (limit + 1)).map Finding.tooDeep := by
  rw [Node.findings, List.filter_flatMap]
  simp only [List.filter_append, filter_ownerFindings, filter_nodeFindings hlimit, List.nil_append]
  rw [flatMap_ite (fun e : Path × Node => e.1.length = limit + 1) (fun e => Finding.tooDeep e.2),
    Node.atDepth, List.map_map]
  rfl

/-! ## Where a warning points -/

namespace Node

/-- The node says by line and column where it starts, and by nothing else. -/
def StartsAt (n : Node) (p : Position) : Prop :=
  ∃ source, n.source = some source ∧ source.start = some p ∧ source.index = none

theorem startIn_of_startsAt (h : n.StartsAt p) (t : Text) :
    n.startIn t = match t.indexAt? p with
      | some (o + 1) => some o
      | _ => none := by
  obtain ⟨source, hsource, hstart, hindex⟩ := h
  cases hindexAt : t.indexAt? p with
  | none => exact startIn_of_start_none hsource hindex hstart hindexAt
  | some index =>
    cases index with
    | zero => simp [startIn, hsource, hindex, hstart, hindexAt]
    | succ o => exact startIn_of_start hsource hindex hstart hindexAt

/-- The offset in a diagnostic is the start of the node in the document, as if its position
referred to the document, and 0 if there is none. -/
theorem offset_locationIn (h : n.StartsAt p) (document : Text) :
    (n.locationIn document).offset = (n.startIn document).getD 0 := by
  rw [startIn_of_startsAt h]
  obtain ⟨source, hsource, hstart, -⟩ := h
  rw [locationIn, hsource, Option.bind_some, hstart]
  dsimp only
  cases document.indexAt? p with
  | none => rfl
  | some index => cases index <;> rfl

/-- On the first line a position does not depend on the text. -/
theorem startIn_of_firstLine (h : n.StartsAt p) (hline : p.line = 1) (t t' : Text) :
    n.startIn t = n.startIn t' := by
  have hindex : t.indexAt? p = t'.indexAt? p := by
    rw [indexAt?, indexAt?, hline, lineStart?_one, lineStart?_one]
  rw [startIn_of_startsAt h, startIn_of_startsAt h, hindex]

end Node

/-- A known start in a value is the start in the text of the value, moved by where the value of
the owner begins. -/
theorem Scope.start_spanOf_of_scopeOf {owner value : Node} {o : Nat}
    (hscope : root.ScopeOf path owner value)
    (h : ((Scope.document.along document root path).spanOf document n).start = some o) :
    ∃ start, owner.startIn document = some start ∧
      ∃ i, n.startIn value.valueText = some i ∧ o = Offset.add i (owner.valueOffset start) := by
  rw [along_of_scopeOf hscope, originOf] at h
  cases hstart : owner.startIn document with
  | none =>
    rw [hstart] at h
    cases h
  | some start =>
    rw [hstart] at h
    obtain ⟨i, hi, rfl⟩ := Option.map_eq_some_iff.mp h
    exact ⟨start, rfl, i, hi, rfl⟩

/-! ## The warnings of an annotation -/

namespace Annotator

/-- The warnings that are kept are about the first of the nodes just below the limit, and about
all of them unless diagnostics were dropped. -/
theorem warnings_annotate {a : Annotator} (hlimit : 0 < a.options.maxDepth)
    (hcollect : a.options.collectDiagnostics = true) (root : Node) :
    let diagnostics := (a.annotate (some root)).2.diagnostics
    let cuts := (root.atDepth (a.options.maxDepth + 1)).map fun n =>
      (Finding.tooDeep n).diagnostic a.document
    diagnostics.items.filter (·.severity = .warning) <+: cuts ∧
      (diagnostics.dropped = 0 → diagnostics.items.filter (·.severity = .warning) = cuts) := by
  intro diagnostics cuts
  let found := (root.findings a.options.maxDepth a.document).map (Finding.diagnostic a.document)
  have hdiagnostics : diagnostics = a.diagnostics.clear.pushAll found :=
    (diagnostics_annotate a root).trans (if_pos hcollect)
  have hitems : diagnostics.items = found.take a.diagnostics.clear.room := by
    rw [hdiagnostics, DiagnosticList.items_pushAll]
    exact List.nil_append _
  have hcuts : found.filter (·.severity = .warning) = cuts := by
    have hwarnings := congrArg (List.map (Finding.diagnostic a.document))
      (filter_findings hlimit a.document root)
    rw [List.map_map] at hwarnings
    rw [List.filter_map]
    exact hwarnings
  rw [hitems, ← hcuts]
  refine ⟨(List.take_prefix _ _).filter _, fun hdropped => ?_⟩
  have hroom : found.length ≤ a.diagnostics.clear.room := by
    rw [hdiagnostics, DiagnosticList.dropped_pushAll] at hdropped
    omega
  rw [List.take_of_length_le hroom]

/-- **The warning of a cut sub-tree looks its position up in the document.**  Warnings are about
the nodes just below the limit, in their order.  A node of the document that starts at a line and
column is found where an annotation without a limit has it.  In a value the warning names the
offset that the position would have in the document; this is the start of the node exactly if the
position, read so, leads there (or nowhere, and the node starts at 0), and on the first line it is
short of the start by the offset of the value. -/
theorem annotate_cutWarnings (a : Annotator) (root : Node) (hlimit : 0 < a.options.maxDepth)
    (hcollect : a.options.collectDiagnostics = true) :
    let limit := a.options.maxDepth
    let diagnostics := (a.annotate (some root)).2.diagnostics
    let warnings := diagnostics.items.filter (·.severity = .warning)
    let cuts := (root.atDepth (limit + 1)).map fun n => (Finding.tooDeep n).diagnostic a.document
    let full := (a.unlimited.annotate (some root)).1.table
    warnings <+: cuts ∧ (diagnostics.dropped = 0 → warnings = cuts) ∧
    ∀ path n p span o, root.at? path = some n → path.length = limit + 1 → n.StartsAt p →
      full.find? path = some span → span.start = some o →
      let named := ((Finding.tooDeep n).diagnostic a.document).location.offset
      (root.InDocument path → named = o) ∧
      ∀ owner value, root.ScopeOf path owner value →
        ∃ start, owner.startIn a.document = some start ∧
          (named = o ↔ n.startIn a.document = some o ∨ n.startIn a.document = none ∧ o = 0) ∧
          (p.line = 1 → o = Offset.add named (owner.valueOffset start)) := by
  intro limit diagnostics warnings cuts full
  obtain ⟨hkept, hall⟩ := warnings_annotate hlimit hcollect root
  refine ⟨hkept, hall, fun path n p span o hat _ hstarts hfound hstart => ?_⟩
  intro named
  have hnamed : named = (n.startIn a.document).getD 0 := Node.offset_locationIn hstarts a.document
  have hspan : (Scope.document.along a.document root path).spanOf a.document n = span := by
    obtain ⟨m, hm, -, hdeclared⟩ := (find?_annotate rfl).mp hfound
    cases hat.symm.trans hm
    exact (declaredSpan_iff hat).mp hdeclared
  rw [← hspan] at hstart
  constructor
  · intro hin
    rw [Scope.along_of_inDocument hin] at hstart
    have hdocument : n.startIn a.document = some o := hstart
    rw [hnamed, hdocument]
    rfl
  · intro owner value hscope
    obtain ⟨start, howner, i, hi, ho⟩ := Scope.start_spanOf_of_scopeOf hscope hstart
    refine ⟨start, howner, ?_, fun hline => ?_⟩
    · rw [hnamed, Option.getD_eq_iff, eq_comm (a := 0)]
    · rw [ho, hnamed, Node.startIn_of_firstLine hstarts hline a.document value.valueText, hi]
      rfl

/-- A declaration in a rule, -/
def deepDeclaration : Node where
  toPayload := (Payload.declaration (ascii "b") (ascii ":") (ascii "c")).setStart ⟨1, 3⟩

/-- a value that says where it starts in its own text, -/
def deepValue : Node where
  toPayload := (Payload.valueRoot (ascii "1")).setStart ⟨1, 1⟩

/-- the declaration above the value, -/
def valueOwner : Node where
  toPayload := (Payload.declaration (ascii "w") (ascii ":") (ascii "1")).setStart ⟨1, 7⟩
  parsedValue := some deepValue

/-- and a sheet of the rule and that declaration. -/
def deepSheet : Node where
  kind := .root
  nodes := [some {
    toPayload := ({ kind := .rule } : Payload).setStart ⟨1, 1⟩
    nodes := [some deepDeclaration] }, some valueOwner]

/-- In `a{b:c}w:1` the declaration in the rule is warned of where it stands, at 2, and the value,
which stands at 8, at 0: it is the value of the declaration at 6, two bytes after its start. -/
theorem annotate_deepSheet :
    let a : Annotator := { document := ascii "a\x7bb:c\x7dw:1", options := { maxDepth := 1 } }
    let named := fun n => ((Finding.tooDeep n).diagnostic a.document).location.offset
    let full := (a.unlimited.annotate (some deepSheet)).1.table
    0 < a.options.maxDepth ∧ a.options.collectDiagnostics = true ∧
      deepDeclaration.StartsAt ⟨1, 3⟩ ∧ full.find? [0, 0] = some ⟨some 2, none⟩ ∧
      deepSheet.InDocument [0, 0] ∧ named deepDeclaration = 2 ∧
      deepValue.StartsAt ⟨1, 1⟩ ∧ full.find? [1, 0] = some ⟨some 8, none⟩ ∧
      deepSheet.ScopeOf [1, 0] valueOwner deepValue ∧
      8 = Offset.add (named deepValue) (valueOwner.valueOffset 6) := by
  intro a named full
  have hlimit : 0 < a.options.maxDepth := by decide
  obtain ⟨-, -, hnamed⟩ := annotate_cutWarnings a deepSheet hlimit rfl
  have hfull : full.entries = [([0], ⟨some 0, none⟩), ([0, 0], ⟨some 2, none⟩),
      ([1], ⟨some 6, none⟩), ([1, 0], ⟨some 8, none⟩)] := by cbv
  have hdeclaration : deepDeclaration.StartsAt ⟨1, 3⟩ := ⟨_, rfl, rfl, rfl⟩
  have hvalue : deepValue.StartsAt ⟨1, 1⟩ := ⟨_, rfl, rfl, rfl⟩
  have hfound : full.find? [0, 0] = some ⟨some 2, none⟩ := by rw [LocationTable.find?, hfull]; rfl
  have hfound' : full.find? [1, 0] = some ⟨some 8, none⟩ := by rw [LocationTable.find?, hfull]; rfl
  have hdocument : deepSheet.InDocument [0, 0] := by decide
  have hscope : deepSheet.ScopeOf [1, 0] valueOwner deepValue :=
    ⟨[1], 0, [], rfl, by decide, rfl, rfl, rfl⟩
  obtain ⟨hin, -⟩ := hnamed [0, 0] deepDeclaration _ _ 2 rfl rfl hdeclaration hfound rfl
  obtain ⟨-, hbelow⟩ := hnamed [1, 0] deepValue _ _ 8 rfl rfl hvalue hfound' rfl
  obtain ⟨start, hstart, -, hfirst⟩ := hbelow valueOwner deepValue hscope
  have hsix : valueOwner.startIn a.document = some 6 := by decide
  cases hsix.symm.trans hstart
  exact ⟨hlimit, rfl, hdeclaration, hfound, hdocument, hin hdocument, hvalue, hfound', hscope,
    hfirst rfl⟩

/-- A number that starts its value. -/
def deepNumber : Node where
  toPayload := ({ kind := .valueNumber } : Payload).setStart ⟨1, 1⟩

/-- The declaration of the number. -/
def numberDeclaration : Node where
  toPayload := (Payload.declaration (ascii "w") (ascii ":") []).setStart ⟨1, 1⟩
  parsedValue := some { toPayload := Payload.valueRoot (ascii "1"), group := some deepNumber }

/-- In `w:1` the number stands at 2, and the one warning, which is about it, names 0. -/
theorem misplaced_deepNumber :
    let a : Annotator := { document := ascii "w:1", options := { maxDepth := 1 } }
    numberDeclaration.at? [0, 0] = some deepNumber ∧ deepNumber.StartsAt ⟨1, 1⟩ ∧
      (a.unlimited.annotate (some numberDeclaration)).1.table.find? [0, 0] =
        some ⟨some 2, none⟩ ∧
      (a.annotate (some numberDeclaration)).2.diagnostics.items.filter (·.severity = .warning) =
        [{ location := { offset := 0, line := 1, column := 1 }
           severity := .warning
           message := ascii "value-number exceeds maximum nesting depth, not annotated" }] := by
  intro a
  have hfull : (a.unlimited.annotate (some numberDeclaration)).1.table.entries =
      [([], ⟨some 0, none⟩), ([0, 0], ⟨some 2, none⟩)] := by cbv
  refine ⟨rfl, ⟨_, rfl, rfl, rfl⟩, ?_, by cbv⟩
  rw [LocationTable.find?, hfull]
  rfl

end Annotator

end StyleSpan
