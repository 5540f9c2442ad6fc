import StyleSpan.Proofs.Annotation.Reuse
import StyleSpan.Proofs.Annotation.Scopes
import StyleSpan.Proofs.Diagnostic.Limit

/-!
# StyleSpan.Proofs.Annotation.Findings

What an annotation says about a tree.  For every node of the tree there are at most
two findings, told by its path alone, and they stand in the order of the enumeration:

```
adrift    before the visit of a value whose owner has no start
unplaced  at an entered node of the document that has a source but not both bounds
tooDeep   at a node just below the depth limit, which is not entered
```

The diagnostics are the first of these findings, as many as there is room for.

* `visitsFrom_eq_flatMap` — the walk, by the enumeration of the tree;
* `openingAlong_document` — which nodes open a value on the walk;
* `diagnostics_visits` — the diagnostics of the walk are the findings of the tree;
* `annotate_findings` — the list of diagnostics that an annotator has behind a tree.
-/

namespace StyleSpan

open Text

variable {document : Text} {root n m owner : Node} {path : Path} {limit depth : Nat}

/-! ## The walk, node by node -/

/-- The visit that precedes those of the node at the end of a path that leads down from `n`. -/
def Scope.openingAlong (document : Text) (n : Node) (s : Scope) : Path → List Visit
  | [] => []
  | i :: rest =>
    match n.children[i]? with
    | some c =>
      if rest = [] then s.opening document n c
      else (s.below document n c).openingAlong document c rest
    | none => []

/-- The visits at one node of a tree that stands at a depth and a path: none if the walk does not
come to the node, that is, if the node above it is not entered. -/
def Node.visitsAt (limit : Nat) (document : Text) (n : Node) (s : Scope) (depth : Nat)
    (path : Path) (e : Path × Node) : List Visit :=
  if e.1 = [] ∨ withinDepth limit (depth + e.1.length - 1) then
    s.openingAlong document n e.1 ++
      [if withinDepth limit (depth + e.1.length) then
        .entered (path ++ e.1) (s.along document n e.1) e.2 else .cut e.2]
  else []

theorem Node.visitsAt_of_not_within (h : withinDepth limit depth = false) (s : Scope) (path : Path)
    (i : Nat) (e : Path × Node) : n.visitsAt limit document s depth path (i :: e.1, e.2) = [] := by
  have hdepth : depth + (e.1.length + 1) - 1 = depth + e.1.length := by omega
  simp [visitsAt, hdepth, withinDepth_add h]

/-- The visits at a node of a child are those of the child on its own, but for what the child
itself opens. -/
theorem Node.visitsAt_cons {i : Nat} {c : Node} (h : withinDepth limit depth = true)
    (hc : n.children[i]? = some c) (s : Scope) (path : Path) (e : Path × Node) :
    n.visitsAt limit document s depth path (i :: e.1, e.2) =
      (if e.1 = [] then s.opening document n c else []) ++
        c.visitsAt limit document (s.below document n c) (depth + 1) (path ++ [i]) e := by
  obtain ⟨p, m⟩ := e
  cases p with
  | nil => simp [visitsAt, Scope.openingAlong, hc, h, Scope.along]
  | cons j rest =>
    have hdepth : depth + (i :: j :: rest).length = depth + 1 + (j :: rest).length := by
      simp only [List.length_cons]
      omega
    have hpath : path ++ i :: j :: rest = path ++ [i] ++ j :: rest := by simp
    simp only [visitsAt, Scope.openingAlong, hc, hdepth, hpath, Scope.along_cons hc, reduceCtorEq,
       false_or, if_false, List.nil_append]

/-- The walk comes to the nodes in the order of the enumeration. -/
theorem Node.visitsFrom_eq_flatMap (limit : Nat) (document : Text) (n : Node) (s : Scope)
    (depth : Nat) (path : Path) :
    n.visitsFrom limit document s depth path =
      n.preorder.flatMap (n.visitsAt limit document s depth path) := by
  induction n using Node.induct generalizing s depth path with
  | step n ih =>
    rw [preorder_eq, List.flatMap_cons, List.flatMap_assoc]
    cases h : withinDepth limit depth with
    | false =>
      have hnone : ∀ c ∈ n.children.zipIdx, (c.1.preorder.map fun e => (c.2 :: e.1, e.2)).flatMap
          (n.visitsAt limit document s depth path) = [] := by
        intro c _
        rw [List.flatMap_map, List.flatMap_eq_nil_iff]
        exact fun e _ => visitsAt_of_not_within h s path c.2 e
      rw [visitsFrom_of_not_within h, List.flatMap_eq_nil_iff.mpr hnone]
      simp [visitsAt, Scope.openingAlong, h]
    | true =>
      have hbelow : ∀ c ∈ n.children.zipIdx, (c.1.preorder.map fun e => (c.2 :: e.1, e.2)).flatMap
          (n.visitsAt limit document s depth path) =
          s.opening document n c.1 ++ c.1.visitsFrom limit document (s.below document n c.1)
            (depth + 1) (path ++ [c.2]) := by
        intro c hc
        have hget : n.children[c.2]? = some c.1 := List.mem_zipIdx_iff_getElem?.mp hc
        obtain ⟨rest, hrest, hne⟩ := c.1.exists_preorder_eq_cons
        have htail : ∀ e ∈ rest, n.visitsAt limit document s depth path (c.2 :: e.1, e.2) =
            c.1.visitsAt limit document (s.below document n c.1) (depth + 1) (path ++ [c.2]) e := by
          intro e he
          rw [visitsAt_cons h hget, if_neg (hne e he), List.nil_append]
        rw [ih c.1 (List.fst_mem_of_mem_zipIdx hc), hrest, List.flatMap_map, List.flatMap_cons,
          List.flatMap_cons, List.flatMap_congr htail, ← List.append_assoc]
        congr 1
        exact visitsAt_cons h hget s path ([], c.1)
      rw [visitsFrom_of_within h, List.flatMap_congr hbelow]
      simp [visitsAt, Scope.openingAlong, Scope.along, h]

/-! ## Findings -/

/-- Something that there is to say about a tree. -/
inductive Finding where
  /-- A node of the document has a source, but not both bounds are known. -/
  | unplaced (node : Node)
  /-- A value is met below an owner of which the start is not known. -/
  | adrift (owner : Node)
  /-- A node stands just below the depth limit. -/
  | tooDeep (node : Node)

namespace Finding

/-- The node that is named. -/
def node : Finding → Node
  | unplaced node | adrift node | tooDeep node => node

def severity : Finding → Severity
  | unplaced _ | adrift _ => .note
  | tooDeep _ => .warning

/-- What is said about the node. -/
def remark (document : Text) : Finding → Text
  | unplaced node =>
    match node.startIn document, node.stopIn document with
    | none, none => ascii ": start and end offsets unknown"
    | none, some _ => ascii ": start offset unknown"
    | some _, _ => ascii ": end offset unknown"
  | adrift _ => ascii ": start unknown, value offsets unknown"
  | tooDeep _ => ascii " exceeds maximum nesting depth, not annotated"

/-- The finding as a diagnostic. -/
def diagnostic (document : Text) (f : Finding) : Diagnostic where
  location := f.node.locationIn document
  severity := f.severity
  message := f.node.kind.name ++ f.remark document

end Finding

namespace Node

/-- Whether a path stays in the document is told step by step. -/
instance decidableInDocument : (root : Node) → (path : Path) → Decidable (root.InDocument path)
  | root, [] => .isTrue (inDocument_nil root)
  | root, i :: rest =>
    match h : root.children[i]? with
    | some c =>
      have : Decidable (c.InDocument rest) := decidableInDocument c rest
      decidable_of_iff (c.isValueRoot = false ∧ c.InDocument rest) (inDocument_cons h).symm
    | none => .isTrue fun front m hne hpre hm => by
      obtain ⟨k, front, rfl⟩ := List.exists_cons_of_ne_nil hne
      obtain ⟨rfl, -⟩ := List.cons_prefix_cons.mp hpre
      rw [at?_cons, h] at hm
      cases hm

/-- The owner of the value that is opened at a path: the node above it, if that stands in the
document and the node `n` at the path is a value root. -/
def ownerAt? (root : Node) (path : Path) (n : Node) : Option Node :=
  if path ≠ [] ∧ n.isValueRoot = true ∧ root.InDocument path.dropLast then root.at? path.dropLast
  else none

/-- What there is to say before the node `n` at a path is visited, if the node above is entered. -/
def ownerFindings (limit : Nat) (document : Text) (root : Node) (path : Path) (n : Node) :
    List Finding :=
  match root.ownerAt? path n with
  | some owner =>
    if withinDepth limit (path.length - 1) ∧ owner.startIn document = none then [.adrift owner]
    else []
  | none => []

/-- What there is to say about the node `n` at a path itself. -/
def nodeFindings (limit : Nat) (document : Text) (root : Node) (path : Path) (n : Node) :
    List Finding :=
  if withinDepth limit path.length then
    if root.InDocument path ∧ n.source.isSome = true ∧ (n.spanIn document).resolved = false then
      [.unplaced n]
    else []
  else if path.length = limit + 1 then [.tooDeep n]
  else []

/-- What there is to say about a tree, node by node in the order of the enumeration. -/
def findings (limit : Nat) (document : Text) (root : Node) : List Finding :=
  root.preorder.flatMap fun e =>
    root.ownerFindings limit document e.1 e.2 ++ root.nodeFindings limit document e.1 e.2

end Node

/-! ## The findings of a walk -/

/-- A step behind a path is preceded by what the step opens in the scope there. -/
theorem Scope.openingAlong_concat {i : Nat} (hat : n.at? path = some owner)
    (hm : owner.children[i]? = some m) (s : Scope) :
    s.openingAlong document n (path ++ [i]) =
      (s.along document n path).opening document owner m := by
  induction path generalizing n s with
  | nil =>
    cases hat
    simp [openingAlong, hm, along]
  | cons k rest ih =>
    obtain ⟨c, hc, hat⟩ := Option.bind_eq_some_iff.mp hat
    rw [List.cons_append, openingAlong, hc]
    dsimp only
    rw [if_neg (by simp), ih hat, along_cons hc]

/-- On a walk that begins in the document, values are opened at the value roots whose node above
stands in the document. -/
theorem Scope.openingAlong_document (hat : root.at? path = some n) :
    Scope.document.openingAlong document root path =
      match root.ownerAt? path n with
      | some owner => [.opened owner n (originOf document owner)]
      | none => [] := by
  rcases List.eq_nil_or_concat path with rfl | ⟨above, i, rfl⟩
  · rfl
  · rw [List.concat_eq_append] at hat ⊢
    rw [Node.at?_append] at hat
    obtain ⟨owner, habove, hstep⟩ := Option.bind_eq_some_iff.mp hat
    obtain ⟨m, hm, hmn⟩ := Option.bind_eq_some_iff.mp hstep
    cases hmn
    rw [openingAlong_concat habove hm, Node.ownerAt?, List.dropLast_concat, habove]
    by_cases hin : root.InDocument above
    · rw [along_of_inDocument hin, opening, opensAt]
      cases hvalue : n.isValueRoot <;> simp [hin]
    · obtain ⟨owner', value, hscope⟩ := (Node.inDocument_or_scopeOf habove).resolve_left hin
      rw [along_of_scopeOf hscope, opening, opensAt]
      simp [hin]

namespace Visit

theorem diagnostics_cut (document : Text) (n : Node) :
    (cut n).diagnostics document = [(Finding.tooDeep n).diagnostic document] := rfl

/-- Of a node that is entered in the document it is said which bounds it has not. -/
theorem diagnostics_entered_document (document : Text) (path : Path) (n : Node) :
    (entered path .document n).diagnostics document =
      if n.source.isSome = true ∧ (n.spanIn document).resolved = false then
        [(Finding.unplaced n).diagnostic document]
      else [] := by
  have hphrases : ascii ": " ++ (ascii "start and end" ++ ascii " offsets unknown") =
        ascii ": start and end offsets unknown" ∧
      ascii ": " ++ (ascii "start" ++ ascii " offset unknown") = ascii ": start offset unknown" ∧
      ascii ": " ++ (ascii "end" ++ ascii " offset unknown") = ascii ": end offset unknown" := by
    decide
  obtain ⟨hboth, hstart, hstop⟩ := hphrases
  rw [diagnostics, unresolved?]
  cases n.source.isSome with
  | false => simp
  | true =>
    cases hs : n.startIn document <;> cases he : n.stopIn document <;>
      simp [Node.spanIn, Span.resolved, Span.unknownBounds, Finding.diagnostic, Finding.remark,
        Finding.node, Finding.severity, hs, he, hboth, hstart, hstop]

/-- Nothing is said of a node that is entered in a value. -/
theorem diagnostics_entered_value (document : Text) (path : Path) (text : Text)
    (origin : Option Nat) (n : Node) :
    (entered path (.value text origin) n).diagnostics document = [] := rfl

/-- A value whose origin is not known is reported with its owner. -/
theorem diagnostics_opened (document : Text) (owner value : Node) (origin : Option Nat) :
    (opened owner value origin).diagnostics document =
      if origin = none then [(Finding.adrift owner).diagnostic document] else [] := by
  cases origin <;> rfl

end Visit

/-- Where the walk comes to a node of which the one above is entered, it says what there is to say
about the owner of a value. -/
theorem diagnostics_openingAlong (hat : root.at? path = some n)
    (hreached : withinDepth limit (path.length - 1) = true) :
    (Scope.document.openingAlong document root path).flatMap (Visit.diagnostics document) =
      (root.ownerFindings limit document path n).map (Finding.diagnostic document) := by
  rw [Scope.openingAlong_document hat, Node.ownerFindings]
  cases root.ownerAt? path n with
  | none => rfl
  | some owner =>
    have horigin : Scope.originOf document owner = none ↔ owner.startIn document = none := by
      rw [Scope.originOf, Option.map_eq_none_iff]
    dsimp only
    rw [List.flatMap_singleton, Visit.diagnostics_opened, if_congr horigin rfl rfl, hreached]
    split <;> simp_all

/-- Then it says what there is to say about the node. -/
theorem diagnostics_nodeVisit (hat : root.at? path = some n)
    (hreached : withinDepth limit (path.length - 1) = true) :
    Visit.diagnostics document (if withinDepth limit path.length then
        .entered path (Scope.document.along document root path) n else .cut n) =
      (root.nodeFindings limit document path n).map (Finding.diagnostic document) := by
  rw [Node.nodeFindings]
  cases hin : withinDepth limit path.length with
  | true =>
    by_cases hdocument : root.InDocument path
    · rw [if_pos rfl, if_pos rfl, Scope.along_of_inDocument hdocument,
        Visit.diagnostics_entered_document]
      simp only [hdocument, true_and]
      split <;> rfl
    · obtain ⟨owner, value, hscope⟩ := (Node.inDocument_or_scopeOf hat).resolve_left hdocument
      rw [if_pos rfl, if_pos rfl, Scope.along_of_scopeOf hscope, Visit.diagnostics_entered_value,
        if_neg (fun h => hdocument h.1)]
      rfl
  | false =>
    -- the first level that is not entered is the one below the limit
    have hlength : path.length = limit + 1 := by
      simp only [withinDepth, Bool.or_eq_true, Bool.or_eq_false_iff, decide_eq_true_eq,
        decide_eq_false_iff_not] at hin hreached
      omega
    rw [if_neg Bool.false_ne_true, if_neg Bool.false_ne_true, if_pos hlength, Visit.diagnostics_cut]
    rfl

/-- What is said at one node of the walk. -/
theorem diagnostics_visitsAt (hat : root.at? path = some n) :
    (root.visitsAt limit document .document 0 [] (path, n)).flatMap (Visit.diagnostics document) =
      (root.ownerFindings limit document path n ++ root.nodeFindings limit document path n).map
        (Finding.diagnostic document) := by
  have hguard : (path = [] ∨ withinDepth limit (0 + path.length - 1) = true) ↔
      withinDepth limit (path.length - 1) = true := by
    rw [Nat.zero_add, or_iff_right_of_imp]
    rintro rfl
    simp [withinDepth]
  rw [Node.visitsAt, if_congr hguard rfl rfl]
  cases hreached : withinDepth limit (path.length - 1) with
  | true =>
    rw [if_pos rfl, List.flatMap_append, diagnostics_openingAlong hat hreached,
      List.flatMap_singleton, List.map_append, ← diagnostics_nodeVisit hat hreached]
    simp only [Nat.zero_add, List.nil_append]
  | false =>
    have hout : withinDepth limit path.length = false ∧ path.length ≠ limit + 1 := by
      simp only [withinDepth, Bool.or_eq_false_iff, decide_eq_false_iff_not] at hreached ⊢
      omega
    have howner : root.ownerFindings limit document path n = [] := by
      rw [Node.ownerFindings, hreached]
      split <;> simp
    rw [if_neg Bool.false_ne_true, howner, Node.nodeFindings, hout.1, if_neg Bool.false_ne_true,
      if_neg hout.2]
    rfl

/-- The walk says what there is to say about the tree, in that order. -/
theorem diagnostics_visits (limit : Nat) (document : Text) (root : Node) :
    (root.visits limit document).flatMap (Visit.diagnostics document) =
      (root.findings limit document).map (Finding.diagnostic document) := by
  rw [Node.visits, Node.visitsFrom_eq_flatMap, List.flatMap_assoc, Node.findings, List.map_flatMap]
  exact List.flatMap_congr fun e he => diagnostics_visitsAt (Node.mem_preorder_iff.mp he)

/-- Nothing is noted of a node in a value, which is at most found too deep. -/
theorem Finding.eq_tooDeep_of_mem_nodeFindings {f : Finding} (hvalue : ¬ root.InDocument path)
    (hf : f ∈ root.nodeFindings limit document path n) : f = .tooDeep n := by
  rw [Node.nodeFindings, if_neg (c := _ ∧ _) (fun h => hvalue h.1)] at hf
  split at hf
  · cases hf
  · split at hf
    · exact List.mem_singleton.mp hf
    · cases hf

/-- Warnings are given for cuts, one for each. -/
theorem countP_warnings (document : Text) (visits : List Visit) :
    (visits.flatMap (Visit.diagnostics document)).countP (·.severity = .warning) =
      visits.countP Visit.isCut := by
  have hone : ∀ v : Visit, (v.diagnostics document).countP (·.severity = .warning) =
      if v.isCut then 1 else 0 := by
    intro v
    cases v with
    | cut n => rfl
    | entered path s n =>
      rw [Visit.diagnostics]
      split <;> rfl
    | opened owner value origin => cases origin <;> rfl
  induction visits with
  | nil => rfl
  | cons v rest ih =>
    rw [List.flatMap_cons, List.countP_append, List.countP_cons, hone, ih, Nat.add_comm]

/-! ## The diagnostics of an annotation -/

namespace Annotator

/-- The annotator after some trees, some of them missing. -/
def afterAll (a : Annotator) (roots : List (Option Node)) : Annotator :=
  roots.foldl (fun a root => (a.annotate root).2) a

theorem reset_afterAll (a : Annotator) (roots : List (Option Node)) :
    (a.afterAll roots).reset = a.reset := by
  induction roots generalizing a with
  | nil => rfl
  | cons root more ih => exact (ih (a.annotate root).2).trans (a.reset_annotate root)

/-- The diagnostics of a tree are the findings that there is room for. -/
theorem diagnostics_annotate (a : Annotator) (root : Node) :
    (a.annotate (some root)).2.diagnostics =
      if a.options.collectDiagnostics then
        a.diagnostics.clear.pushAll ((root.findings a.options.maxDepth a.document).map
          (Finding.diagnostic a.document))
      else a.diagnostics.clear := by
  rw [annotate, foldl_record, ← diagnostics_visits]
  rfl

/-- The cuts of a tree are its warnings. -/
theorem depthCuts_annotate_eq_countP (a : Annotator) (root : Node) :
    (a.annotate (some root)).2.depthCuts =
      (root.findings a.options.maxDepth a.document).countP (·.severity = .warning) := by
  have hcounted := countP_warnings a.document (root.visits a.options.maxDepth a.document)
  rw [diagnostics_visits, List.countP_map] at hcounted
  rw [annotate, foldl_record]
  exact (Nat.zero_add _).trans hcounted.symm

/-- **The diagnostics of a tree are the first of its findings**, whatever trees came before: they
stand in the order of the enumeration, as many as there is room for, and the rest is counted.
There is a warning for each cut, and nothing is noted of a node in a value, which is at most found
too deep.  Unless diagnostics are collected there are none. -/
theorem annotate_findings (document : Text) (options : Options) (earlier : List (Option Node))
    (root : Node) :
    let a : Annotator := afterAll { document, options } earlier
    let after := (a.annotate (some root)).2
    let found := root.findings options.maxDepth document
    (options.collectDiagnostics = true →
      after.diagnostics.items =
        (found.take options.maxDiagnostics).map (Finding.diagnostic document) ∧
      after.diagnostics.dropped = found.length - options.maxDiagnostics ∧
      after.diagnostics.size + after.diagnostics.dropped = found.length ∧
      after.diagnostics.warnings =
        (found.take options.maxDiagnostics).countP (·.severity = .warning)) ∧
    (options.collectDiagnostics = false →
      after.diagnostics = DiagnosticList.withLimit options.maxDiagnostics) ∧
    found.countP (·.severity = .warning) = after.depthCuts ∧
    ∀ path n, root.at? path = some n → ¬ root.InDocument path →
      ∀ f ∈ root.nodeFindings options.maxDepth document path n, f = .tooDeep n := by
  intro a after found
  have hfresh : after = (({ document, options } : Annotator).annotate (some root)).2 :=
    congrArg Prod.snd (annotate_of_reset (reset_afterAll _ earlier) (some root))
  have hdiagnostics : after.diagnostics =
      if options.collectDiagnostics then
        (DiagnosticList.withLimit options.maxDiagnostics).pushAll
          (found.map (Finding.diagnostic document))
      else DiagnosticList.withLimit options.maxDiagnostics := by
    rw [hfresh]
    exact diagnostics_annotate { document, options } root
  refine ⟨fun hcollect => ?_, fun hcollect => ?_, ?_,
    fun path n _ hvalue f hf => Finding.eq_tooDeep_of_mem_nodeFindings hvalue hf⟩
  · rw [hcollect, if_pos rfl] at hdiagnostics
    obtain ⟨hitems, hdropped, hall, hwarnings⟩ :=
      DiagnosticList.pushAll_withLimit options.maxDiagnostics
        (found.map (Finding.diagnostic document))
    rw [← hdiagnostics, ← List.map_take] at hitems hwarnings
    rw [← hdiagnostics, List.length_map] at hdropped hall
    rw [List.countP_map] at hwarnings
    exact ⟨hitems, hdropped, hall, hwarnings⟩
  · rw [hdiagnostics, hcollect]
    rfl
  · rw [hfresh]
    exact (depthCuts_annotate_eq_countP { document, options } root).symm

/-- A rule without an end, -/
def loneRule : Node where
  toPayload := ({ kind := .rule } : Payload).setStart ⟨1, 1⟩

/-- the value of a declaration, -/
def loneValue : Node where
  toPayload := (Payload.valueUnknown (ascii "2")).setIndex 0

/-- the declaration, of which it is not known where it begins, -/
def loneDeclaration : Node where
  toPayload := Payload.declaration (ascii "w") (ascii ":") (ascii "2")
  parsedValue := some loneValue

/-- and a sheet of the rule and the declaration. -/
def loneSheet : Node where
  kind := .root
  nodes := [some loneRule, some loneDeclaration]

/-- There are three things to say about the sheet within the limit 1. -/
theorem findings_loneSheet : loneSheet.findings 1 (ascii "ab") =
    [.unplaced loneRule, .adrift loneDeclaration, .tooDeep loneValue] := by
  have hpreorder : loneSheet.preorder =
      [([], loneSheet), ([0], loneRule), ([1], loneDeclaration), ([1, 0], loneValue)] := by
    have hsheet : loneSheet.children.zipIdx = [(loneRule, 0), (loneDeclaration, 1)] := rfl
    have hrule : loneRule.children = [] := rfl
    have hdeclaration : loneDeclaration.children.zipIdx = [(loneValue, 0)] := rfl
    have hvalue : loneValue.children = [] := rfl
    rw [Node.preorder_eq, hsheet]
    simp [Node.preorder_eq loneRule, Node.preorder_eq loneDeclaration, Node.preorder_eq loneValue,
      hrule, hdeclaration, hvalue]
  have hunplaced : loneSheet.nodeFindings 1 (ascii "ab") [0] loneRule = [.unplaced loneRule] := by
    have hend : (loneRule.spanIn (ascii "ab")).resolved = false := by cbv
    have hwithin : withinDepth 1 [0].length = true := rfl
    have hdocument : loneSheet.InDocument [0] := by decide
    rw [Node.nodeFindings, if_pos hwithin, if_pos ⟨hdocument, rfl, hend⟩]
  rw [Node.findings, hpreorder]
  simp only [List.flatMap_cons, hunplaced]
  rfl

/-- There is room for two of them, and only the third is a warning. -/
theorem annotate_loneSheet :
    let document := ascii "ab"
    let options : Options := { maxDepth := 1, maxDiagnostics := 2 }
    let quiet : Options := { options with collectDiagnostics := false }
    let after := ((afterAll { document, options } [some loneSheet, none]).annotate
      (some loneSheet)).2
    after.diagnostics.items =
        [Finding.unplaced loneRule, .adrift loneDeclaration].map (Finding.diagnostic document) ∧
      after.diagnostics.dropped = 1 ∧ after.diagnostics.warnings = 0 ∧ after.depthCuts = 1 ∧
      (∀ f ∈ loneSheet.nodeFindings 1 document [1, 0] loneValue, f = .tooDeep loneValue) ∧
      ((afterAll { document, options := quiet } []).annotate (some loneSheet)).2.diagnostics =
        DiagnosticList.withLimit 2 := by
  intro document options quiet after
  obtain ⟨hcollected, -, hcuts, htooDeep⟩ :=
    annotate_findings document options [some loneSheet, none] loneSheet
  obtain ⟨hitems, hdropped, -, hwarnings⟩ := hcollected rfl
  obtain ⟨-, hnone, -, -⟩ := annotate_findings document quiet [] loneSheet
  rw [findings_loneSheet] at hitems hdropped hwarnings hcuts
  exact ⟨hitems, hdropped, hwarnings, hcuts.symm, htooDeep [1, 0] loneValue rfl (by decide),
    hnone rfl⟩

end Annotator

end StyleSpan
