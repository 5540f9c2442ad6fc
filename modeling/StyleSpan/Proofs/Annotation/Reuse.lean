import StyleSpan.Annotation.Annotator

/-!
# StyleSpan.Proofs.Annotation.Reuse

Annotating one tree after another.  What an annotator keeps after a tree, its
diagnostics and the number of its cuts, is put back before the next one, all but the
limit of the diagnostics, which no annotation changes.  So it does not matter what was
annotated before; and as the diagnostics are only written to, it does not matter for
anything else whether and how many of them are kept.

* `reset_annotate` — one annotation, undone by the next;
* `annotateAll_eq_map` — a sequence of trees, by induction on it;
* `annotate_of_maxDepth` — the options of the diagnostics.
-/

namespace StyleSpan

open Text

theorem DiagnosticList.limit_pushAll (l : DiagnosticList) (ds : List Diagnostic) :
    (l.pushAll ds).limit = l.limit := by
  induction ds generalizing l with
  | nil => rfl
  | cons d more ih => rw [pushAll_cons, ih, limit_push]

namespace Annotator

/-- What is left of an annotator after a tree is the limit of its diagnostics. -/
theorem reset_of_limit {a : Annotator} {diagnostics : DiagnosticList}
    (h : diagnostics.limit = a.diagnostics.limit) (depthCuts : Nat) :
    ({ a with diagnostics, depthCuts } : Annotator).reset = a.reset := by
  simp [reset, DiagnosticList.clear, h]

/-- The next tree undoes what a tree left. -/
theorem reset_annotate (a : Annotator) (root : Option Node) :
    (a.annotate root).2.reset = a.reset := by
  cases root with
  | none => rfl
  | some root =>
    rw [annotate, foldl_record]
    refine reset_of_limit ?_ _
    split
    · exact DiagnosticList.limit_pushAll _ _
    · rfl

/-- Annotating begins with undoing what earlier trees left. -/
theorem annotate_of_reset {a b : Annotator} (h : a.reset = b.reset) (root : Option Node) :
    a.annotate root = b.annotate root := by
  have hdocument : a.reset.document = b.reset.document := congrArg document h
  have hoptions : a.reset.options = b.reset.options := congrArg options h
  change a.document = b.document at hdocument
  change a.options = b.options at hoptions
  cases root with
  | none => rw [annotate, annotate, h]
  | some root => rw [annotate, annotate, h, hdocument, hoptions]

/-- Annotates trees one after the other; each result comes with the annotator after it. -/
def annotateAll (a : Annotator) : List (Option Node) → List (Prod Annotation Annotator)
  | [] => []
  | root :: more => a.annotate root :: (a.annotate root).2.annotateAll more

/-- In a sequence each tree is annotated as by the annotator that began it. -/
theorem annotateAll_eq_map (a : Annotator) (roots : List (Option Node)) :
    a.annotateAll roots = roots.map a.annotate := by
  induction roots generalizing a with
  | nil => rfl
  | cons root more ih =>
    have hnext : (a.annotate root).2.annotate = a.annotate :=
      funext (annotate_of_reset (a.reset_annotate root))
    rw [annotateAll, ih, hnext, List.map_cons]

/-- Of the options only the depth limit counts for what is found and logged. -/
theorem annotate_of_maxDepth {a b : Annotator} (hdocument : b.document = a.document)
    (hdepth : b.options.maxDepth = a.options.maxDepth) (root : Option Node) :
    (b.annotate root).1 = (a.annotate root).1 ∧
      (b.annotate root).2.depthCuts = (a.annotate root).2.depthCuts := by
  cases root with
  | none => exact ⟨rfl, rfl⟩
  | some root =>
    simp only [annotate, foldl_record, hdocument, hdepth, reset, and_self]

/-- **An annotator carries nothing from tree to tree, and its diagnostics change no result.**  Each
tree of a sequence, some of them missing, is annotated as by a fresh annotator with the same
options: with the same spans, cuts, diagnostics and log.  Spans, cuts and log of each tree are the
same whether or not diagnostics are collected, and whatever their limit. -/
theorem annotateAll_alone (document : Text) (options : Options) (roots : List (Option Node)) :
    let fresh : Annotator := { document, options }
    fresh.annotateAll roots = roots.map fresh.annotate ∧
      ∀ (collectDiagnostics : Bool) (maxDiagnostics : Nat),
        let other : Annotator :=
          { document, options := { options with collectDiagnostics, maxDiagnostics } }
        (other.annotateAll roots).map (fun r => (r.1, r.2.depthCuts)) =
          (fresh.annotateAll roots).map (fun r => (r.1, r.2.depthCuts)) := by
  intro fresh
  constructor
  · exact fresh.annotateAll_eq_map roots
  · intro collectDiagnostics maxDiagnostics other
    rw [annotateAll_eq_map, annotateAll_eq_map, List.map_map, List.map_map]
    apply List.map_congr_left
    intro root _
    obtain ⟨hfound, hcuts⟩ := annotate_of_maxDepth (a := fresh) (b := other) rfl rfl root
    exact Prod.ext hfound hcuts

end Annotator

end StyleSpan
