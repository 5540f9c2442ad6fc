import Mathlib.Data.List.Permutation
import StyleSpan.Annotation.Annotator
import StyleSpan.Proofs.Comment.Edits
import StyleSpan.Proofs.Text.Breaks

/-!
# StyleSpan.Proofs.Annotation.Breaks

What an annotation depends on in its document: the line breaks, and nothing
else.  Every look at the document asks for the offset of a position or for the
end of a line, and texts of values are not part of it.  As blanking the quotes
of inline comments touches no line break, spans found in a blanked text hold in
the text as it was.

* `Node.startIn_of_sameBreaks` / `Node.stopIn_of_sameBreaks` — the bounds of a node;
* `Node.visits_of_sameBreaks` — the walk over a tree;
* `sameBreaks_blank` — a text and the text with its queued comments blanked.
-/

namespace StyleSpan

open Text

variable {document document' : Text}

/-! ## Bounds -/

namespace Node

/-- A node starts at the same offset in texts with the same breaks. -/
theorem startIn_of_sameBreaks (h : SameBreaks document document') (n : Node) :
    n.startIn document' = n.startIn document := by
  simp only [startIn, indexAt?_of_sameBreaks h]

/-- A node stops at the same offset, whether the stop is its own or that of a last child. -/
theorem stopIn_of_sameBreaks (h : SameBreaks document document') (n : Node) :
    n.stopIn document' = n.stopIn document := by
  -- along the last children, as an end may be that of the last child
  induction n using Node.stopIn.induct with
  | case1 n hsource => rw [stopIn_of_no_source hsource, stopIn_of_no_source hsource]
  | case2 n source hsource hinline =>
    have hline : document'.lineEndFrom = document.lineEndFrom :=
      funext (lineEndFrom_of_sameBreaks h)
    rw [stopIn_of_inline hinline, stopIn_of_inline hinline, startIn_of_sameBreaks h, hline]
  | case3 n source hsource hinline p hstop =>
    rw [stopIn_of_stop hsource (by simpa using hinline) hstop,
      stopIn_of_stop hsource (by simpa using hinline) hstop, indexAt?_of_sameBreaks h]
  | case4 n source hsource hinline hstop c hlast ih =>
    rw [stopIn_of_lastChild hsource (by simpa using hinline) hstop,
      stopIn_of_lastChild hsource (by simpa using hinline) hstop, hlast, Option.bind_some,
      Option.bind_some, ih]
  | case5 n source hsource hinline hstop hlast =>
    rw [stopIn_of_lastChild hsource (by simpa using hinline) hstop,
      stopIn_of_lastChild hsource (by simpa using hinline) hstop, hlast, Option.bind_none,
      Option.bind_none]

/-- The span of a node in the text is the same. -/
theorem spanIn_of_sameBreaks (h : SameBreaks document document') (n : Node) :
    n.spanIn document' = n.spanIn document := by
  rw [spanIn, spanIn, startIn_of_sameBreaks h, stopIn_of_sameBreaks h]

/-- The line and the column of a node are the same. -/
theorem locationIn_of_sameBreaks (h : SameBreaks document document') (n : Node) :
    n.locationIn document' = n.locationIn document := by
  simp only [locationIn, indexAt?_of_sameBreaks h]

end Node

/-! ## Scopes -/

namespace Scope

/-- The span of a node is the same in every scope. -/
theorem spanOf_of_sameBreaks (h : SameBreaks document document') (s : Scope) (n : Node) :
    s.spanOf document' n = s.spanOf document n := by
  cases s with
  | document => exact Node.spanIn_of_sameBreaks h n
  | value text origin => cases origin <;> rfl

/-- The value of a declaration starts at the same offset. -/
theorem originOf_of_sameBreaks (h : SameBreaks document document') (owner : Node) :
    originOf document' owner = originOf document owner := by
  rw [originOf, originOf, Node.startIn_of_sameBreaks h]

/-- A child is placed in the same scope. -/
theorem below_of_sameBreaks (h : SameBreaks document document') (owner child : Node) (s : Scope) :
    s.below document' owner child = s.below document owner child := by
  rw [below, below, originOf_of_sameBreaks h]

/-- A walk opens the same values at the same offsets. -/
theorem opening_of_sameBreaks (h : SameBreaks document document') (owner child : Node)
    (s : Scope) : s.opening document' owner child = s.opening document owner child := by
  rw [opening, opening, originOf_of_sameBreaks h]

end Scope

/-! ## The walk -/

/-- A walk makes the same visits below any node, in the same order. -/
theorem Node.visitsFrom_of_sameBreaks (h : SameBreaks document document') (limit : Nat) (n : Node)
    (s : Scope) (depth : Nat) (path : Path) :
    n.visitsFrom limit document' s depth path = n.visitsFrom limit document s depth path := by
  induction n using Node.induct generalizing s depth path with
  | step n ih =>
    cases hin : withinDepth limit depth with
    | false => rw [visitsFrom_of_not_within hin, visitsFrom_of_not_within hin]
    | true =>
      have hbelow : ∀ c ∈ n.children.zipIdx,
          s.opening document' n c.1 ++ c.1.visitsFrom limit document' (s.below document' n c.1)
              (depth + 1) (path ++ [c.2]) =
            s.opening document n c.1 ++ c.1.visitsFrom limit document (s.below document n c.1)
              (depth + 1) (path ++ [c.2]) := by
        intro c hc
        have hmem : c.1 ∈ n.children := List.fst_mem_of_mem_zipIdx hc
        rw [Scope.opening_of_sameBreaks h, Scope.below_of_sameBreaks h, ih c.1 hmem]
      rw [visitsFrom_of_within hin, visitsFrom_of_within hin, List.flatMap_congr hbelow]

/-- A walk over a tree makes the same visits. -/
theorem Node.visits_of_sameBreaks (h : SameBreaks document document') (limit : Nat) (n : Node) :
    n.visits limit document' = n.visits limit document :=
  n.visitsFrom_of_sameBreaks h limit .document 0 []

/-! ## What is read off a visit -/

namespace Visit

/-- A visit enters the same span into the table. -/
theorem entry?_of_sameBreaks (h : SameBreaks document document') :
    entry? document' = entry? document := by
  funext v
  cases v with
  | cut n => rfl
  | entered path s n => simp only [Scope.spanOf_of_sameBreaks h, entry?]
  | opened owner value origin => rfl

/-- The same bounds are unresolved. -/
theorem unresolved?_of_sameBreaks (h : SameBreaks document document') (s : Scope) (n : Node) :
    unresolved? document' s n = unresolved? document s n := by
  cases s with
  | document => rw [unresolved?, unresolved?, Node.spanIn_of_sameBreaks h]
  | value text origin => rfl

/-- A visit gives the same diagnostics. -/
theorem diagnostics_of_sameBreaks (h : SameBreaks document document') :
    diagnostics document' = diagnostics document := by
  funext v
  cases v with
  | cut n => rw [diagnostics, diagnostics, Node.locationIn_of_sameBreaks h]
  | entered path s n =>
    rw [diagnostics, diagnostics, unresolved?_of_sameBreaks h, Node.locationIn_of_sameBreaks h]
  | opened owner value origin =>
    cases origin with
    | none => rw [diagnostics, diagnostics, Node.locationIn_of_sameBreaks h]
    | some origin => rfl

/-- A visit logs the same messages. -/
theorem messages_of_sameBreaks (h : SameBreaks document document') :
    messages document' = messages document := by
  funext v
  cases v with
  | cut n => rfl
  | entered path s n => rw [messages, messages, unresolved?_of_sameBreaks h]
  | opened owner value origin => cases origin <;> rfl

end Visit

/-- The log of a walk is the same, with the warning about the depth limit or without it. -/
theorem walkMessages_of_sameBreaks (h : SameBreaks document document') (limit : Nat)
    (warned : Bool) (visits : List Visit) :
    walkMessages limit document' warned visits = walkMessages limit document warned visits := by
  induction visits generalizing warned with
  | nil => rfl
  | cons v rest ih => rw [walkMessages, walkMessages, Visit.messages_of_sameBreaks h, ih]

/-! ## Blanked comments -/

namespace Comment

/-- Blanking brings spaces and takes quotes away, and nothing else. -/
theorem byteAt_blank_eq_iff {b : UInt8} (hquote : isQuote b = false) (hspace : b ≠ space)
    (comments : List Extent) (t : Text) (p : Nat) :
    byteAt (blank comments t) p = b ↔ t.byteAt p = b := by
  rw [byteAt_blank]
  split
  · next hblank =>
    have hq : isQuote (t.byteAt p) = true := (Bool.and_eq_true_iff.mp hblank).1
    constructor
    · intro h
      exact absurd h.symm hspace
    · intro h
      rw [h, hquote] at hq
      cases hq
  · rfl

/-- A text breaks its lines where its blanked text does. -/
theorem sameBreaks_blank (comments : List Extent) (t : Text) :
    SameBreaks t (blank comments t) where
  length_eq := length_blank comments t
  lf_iff := byteAt_blank_eq_iff rfl (by decide) comments t
  cr_iff := byteAt_blank_eq_iff rfl (by decide) comments t

end Comment

/-! ## Annotations -/

namespace Annotator

/-- Annotating depends on the document by its breaks alone; the annotator keeps the document that it
has. -/
theorem annotate_of_breaks (a : Annotator) (h : SameBreaks a.document document)
    (root : Option Node) :
    ({ a with document }.annotate root).1 = (a.annotate root).1 ∧
      ({ a with document }.annotate root).2 = { (a.annotate root).2 with document } := by
  cases root with
  | none => exact ⟨rfl, rfl⟩
  | some root =>
    have hvisits := root.visits_of_sameBreaks h a.options.maxDepth
    constructor
    · simp only [annotate, hvisits, Visit.entry?_of_sameBreaks h, walkMessages_of_sameBreaks h]
    · simp only [annotate, hvisits, foldl_record, reset, Visit.diagnostics_of_sameBreaks h]

/-- **Positions hold in a text and in any text with the same line breaks**: the spans of a tree,
the number of cut sub-trees, the diagnostics and the log are those of the other document.  A
text that was read to its end and the text with the quotes of its queued comments blanked
are such a pair. -/
theorem annotate_of_sameBreaks :
    (∀ (a : Annotator) (document : Text) (root : Option Node), SameBreaks a.document document →
      let b : Annotator := { a with document }
      (b.annotate root).1.table = (a.annotate root).1.table ∧
        (b.annotate root).2.depthCuts = (a.annotate root).2.depthCuts ∧
        (b.annotate root).2.diagnostics = (a.annotate root).2.diagnostics ∧
        (b.annotate root).1.messages = (a.annotate root).1.messages) ∧
    ∀ (a : Annotator) (m : Comment.Mode) (queue : List Extent) (root : Option Node),
      Comment.scan a.document = .finished m queue →
      let b : Annotator := { a with document := Comment.blank queue a.document }
      (b.annotate root).1.table = (a.annotate root).1.table ∧
        (b.annotate root).2.depthCuts = (a.annotate root).2.depthCuts ∧
        (b.annotate root).2.diagnostics = (a.annotate root).2.diagnostics ∧
        (Comment.sanitize a.document).text = b.document := by
  constructor
  · intro a document root h b
    obtain ⟨hresult, hafter⟩ := annotate_of_breaks a h root
    exact ⟨by rw [hresult], by rw [hafter], by rw [hafter], by rw [hresult]⟩
  · intro a m queue root h b
    have hbreaks := Comment.sameBreaks_blank queue a.document
    obtain ⟨hresult, hafter⟩ := annotate_of_breaks a hbreaks root
    exact ⟨by rw [hresult], by rw [hafter], by rw [hafter], Comment.text_sanitize_of_finished h⟩

/-- An inline comment on the second line. -/
def quotedComment : Node where
  toPayload := (Payload.comment (ascii "it's") true).setStart ⟨2, 1⟩

/-- A rule with the comment in it; its end is on a line that the text does not have. -/
def commentedRule : Node where
  toPayload := (({ kind := .rule } : Payload).setStart ⟨1, 1⟩).setStop ⟨9, 1⟩
  nodes := [some quotedComment]

/-- The comment stands at the bytes 3 to 8 of the blanked text, as in the text, and the one
note on the rule is there, too. -/
theorem annotate_commentedRule :
    let a : Annotator := { document := ascii "a\x7b\n//it's\n\x7d" }
    let b : Annotator := { a with document := ascii "a\x7b\n//it s\n\x7d" }
    SameBreaks a.document b.document ∧ Comment.scan a.document = .finished .top [⟨3, 9⟩] ∧
      (Comment.sanitize a.document).text = b.document ∧
      (b.annotate (some commentedRule)).1.table =
        ⟨[([], ⟨some 0, none⟩), ([0], ⟨some 3, some 9⟩)]⟩ ∧
      (b.annotate (some commentedRule)).2.diagnostics.notes = 1 := by
  intro a b
  have hscan : Comment.scan a.document = .finished .top [⟨3, 9⟩] := by decide
  have hblank : Comment.blank [⟨3, 9⟩] a.document = b.document := by decide
  have hbreaks : SameBreaks a.document b.document := by
    rw [← hblank]
    exact Comment.sameBreaks_blank [⟨3, 9⟩] a.document
  obtain ⟨hsame, hsanitized⟩ := annotate_of_sameBreaks
  obtain ⟨htable, -, hdiagnostics, -⟩ := hsame a b.document (some commentedRule) hbreaks
  obtain ⟨-, -, -, htext⟩ := hsanitized a .top [⟨3, 9⟩] (some commentedRule) hscan
  have hspans : (a.annotate (some commentedRule)).1.table =
      ⟨[([], ⟨some 0, none⟩), ([0], ⟨some 3, some 9⟩)]⟩ := by cbv
  have hnotes : (a.annotate (some commentedRule)).2.diagnostics.notes = 1 := by cbv
  exact ⟨hbreaks, hscan, htext.trans hblank, htable.trans hspans,
    (congrArg DiagnosticList.notes hdiagnostics).trans hnotes⟩

end Annotator

end StyleSpan
