import StyleSpan.Proofs.Annotation.Depth
import StyleSpan.Proofs.Comment.Edits
import StyleSpan.Proofs.Text.Locations

/-!
# StyleSpan.Proofs.Annotation.Comments

Reading and annotating agree on where an inline comment stands.  The reading
finds a comment byte by byte, up to a line feed or a carriage return; annotation
finds the node of the comment by the line and column of its start, where lines end
at line feeds alone, and looks for the end of the line from there.  A queued
comment has the same extent either way, so the span of its node covers the text
whose quotes are blanked.

* `lineEndFrom_start` — the end of the line at which a queued comment starts;
* `spanIn_of_commentAt` — the bounds of the node of a queued comment.
-/

namespace StyleSpan

open Text

/-- The node is an inline comment that says by line and column that it starts at an offset of a
text.  Nothing is asked of its end. -/
structure Node.CommentAt (t : Text) (n : Node) (start : Nat) : Prop where
  isInline : n.isInlineComment = true
  source : ∃ source, n.source = some source ∧ source.index = none ∧
    source.start = some (t.locationAt start).position

namespace Comment

variable {t : Text} {c : Extent}

/-- The line of a quoted comment ends with the comment. -/
theorem lineEndFrom_start (h : IsQuotedComment t c) : t.lineEndFrom c.start = c.stop := by
  have hlt := h.lt_stop
  have hslash : isLineBreak slash = false := rfl
  refine lineEndFrom_eq (by omega) (fun k hk hkc => ?_) h.break_stop
  by_cases hbehind : c.start + 1 < k
  · exact h.noBreak k hbehind hkc
  · obtain rfl | rfl : k = c.start ∨ k = c.start + 1 := by omega
    · rw [h.slash_start, hslash]
    · rw [h.slash_next, hslash]

/-- There is a quote between the slashes and the end, so the comment has three bytes at least. -/
theorem exists_quote (h : IsQuotedComment t c) :
    ∃ p, c.start + 2 ≤ p ∧ p < c.stop ∧ isQuote (t.byteAt p) = true := by
  have hlt := h.stop_lt
  obtain ⟨p, h₁, h₂, hq⟩ := (quotedBetween_iff (by omega)).mp h.quoted
  exact ⟨p, h₁, h₂, hq⟩

/-- The node of a quoted comment covers the comment. -/
theorem spanIn_of_commentAt (h : IsQuotedComment t c) (hsize : t.length < Offset.modulus)
    {n : Node} (hn : n.CommentAt t c.start) : n.spanIn t = ⟨some c.start, some c.stop⟩ := by
  have hlt := h.stop_lt
  obtain ⟨p, h₁, h₂, -⟩ := exists_quote h
  obtain ⟨source, hsource, hindex, hstart⟩ := hn.source
  have hbegin : n.startIn t = some c.start :=
    Node.startIn_of_start hsource hindex hstart (indexAt?_locationAt (by omega) (by omega))
  rw [Node.spanIn, Node.stopIn_of_inline hn.isInline, hbegin, Option.map_some,
    lineEndFrom_start h]

end Comment

namespace Annotator

/-- **Reading and annotating find the same inline comments.**  The comments that a finished
reading queues stand apart and in order, each from its two slashes to its first line break, with
a quote in between; and a node that is said to start where one of them does has its extent in the
document, whatever its end, and covers its text.  As any text in memory, the document has a length
that is a word. -/
theorem annotate_queuedComments (a : Annotator) {m : Comment.Mode} {queue : List Extent}
    (h : Comment.scan a.document = .finished m queue) :
    let t := a.document
    queue.Pairwise (fun c d => c.stop < d.start) ∧
    (∀ c ∈ queue, c.start + 2 < c.stop ∧ c.stop < t.length ∧
      t.byteAt c.start = slash ∧ t.byteAt (c.start + 1) = slash ∧
      (∃ p, c.start + 2 ≤ p ∧ p < c.stop ∧ isQuote (t.byteAt p) = true) ∧
      (∀ p, c.start + 2 ≤ p → p < c.stop → isLineBreak (t.byteAt p) = false) ∧
      isLineBreak (t.byteAt c.stop) = true) ∧
    (t.length < Offset.modulus → ∀ c ∈ queue, ∀ n : Node, n.CommentAt t c.start →
      n.spanIn t = ⟨some c.start, some c.stop⟩ ∧
      (∀ root path, root.at? path = some n → root.InDocument path →
        withinDepth a.options.maxDepth path.length = true →
        (a.annotate (some root)).1.table.find? path = some ⟨some c.start, some c.stop⟩) ∧
      Span.slice t ⟨some c.start, some c.stop⟩ = (t.drop c.start).take (c.stop - c.start) ∧
      Span.slice t ⟨some c.start, some c.stop⟩ ∈ Comment.queuedTexts t) := by
  intro t
  have hqueue := Comment.isQuotedComment_of_scan h
  refine ⟨Comment.pairwise_of_scan h, fun c hc => ?_, fun hsize c hc n hn => ?_⟩
  · have hquoted := hqueue c hc
    obtain ⟨p, h₁, h₂, hq⟩ := Comment.exists_quote hquoted
    exact ⟨by omega, hquoted.stop_lt, hquoted.slash_start, hquoted.slash_next, ⟨p, h₁, h₂, hq⟩,
      hquoted.noBreak, hquoted.break_stop⟩
  · have hstop := (hqueue c hc).stop_lt
    have hspan := Comment.spanIn_of_commentAt (hqueue c hc) hsize hn
    refine ⟨hspan, fun root path hat hin hdepth => ?_,
      slice_eq_take_drop (Nat.le_of_lt hstop), ?_⟩
    · obtain ⟨source, hsource, -⟩ := hn.source
      rw [find?_annotate_of_within hdepth, find?_annotate rfl]
      refine ⟨n, hat, by rw [hsource]; rfl, ?_⟩
      rw [← hspan]
      exact .document hin
    · rw [Comment.queuedTexts, h]
      exact List.mem_map_of_mem hc

/-- An inline comment behind other text of its line, with an end beyond the document. -/
def lateComment : Node where
  toPayload := ((Payload.comment (ascii "it's") true).setStart ⟨1, 6⟩).setStop ⟨7, 1⟩

/-- A rule with the comment in it. -/
def lateCommentRule : Node where
  kind := .rule
  nodes := [some lateComment]

/-- A carriage return stands in the line of the first comment and one ends it; the node of the
comment has the extent that is queued. -/
theorem annotate_lateComment :
    let a : Annotator := { document := ascii "a\r\x7b  //it's\r\n//\"\n" }
    let queue : List Extent := [⟨5, 11⟩, ⟨13, 16⟩]
    Comment.scan a.document = .finished .top queue ∧
      queue.Pairwise (fun c d => c.stop < d.start) ∧
      a.document.length < Offset.modulus ∧ lateComment.CommentAt a.document 5 ∧
      (a.annotate (some lateCommentRule)).1.table.find? [0] = some ⟨some 5, some 11⟩ ∧
      Span.slice a.document ⟨some 5, some 11⟩ = ascii "//it's" := by
  intro a queue
  have hscan : Comment.scan a.document = .finished .top queue := by decide
  have hsize : a.document.length < Offset.modulus := by decide
  have hcomment : lateComment.CommentAt a.document 5 := ⟨rfl, _, rfl, rfl, by decide⟩
  obtain ⟨hordered, -, hspans⟩ := annotate_queuedComments a hscan
  obtain ⟨-, htable, hslice, -⟩ :=
    hspans hsize ⟨5, 11⟩ List.mem_cons_self lateComment hcomment
  have hin : lateCommentRule.InDocument [0] :=
    (Node.inDocument_cons rfl).mpr ⟨rfl, Node.inDocument_nil lateComment⟩
  exact ⟨hscan, hordered, hsize, hcomment, htable lateCommentRule [0] rfl hin rfl, hslice⟩

end Annotator

end StyleSpan
