import Mathlib.Data.Nat.Find
import StyleSpan.Comment.Sanitize
import StyleSpan.Proofs.Comment.Segments

/-!
# StyleSpan.Proofs.Comment.Edits

What stands inside a queued comment does not steer the reading of a
stylesheet.  If a reading reaches the end of a text, bytes of its queued
comments may be changed, behind the two slashes and not into line breaks:
the reading of the changed text goes the same way and queues those of the
comments that still hold a quote.  Blanking the quotes is such a change, so
that a second pass finds nothing to do.

* `isQuotedComment_of_readFrom` — what the reader queues, and from where on;
* `segment_congr` — a segment depends on the bytes that it reaches over;
* `readFrom_of_edited` — two readings, of a text and of the changed text.
-/

namespace StyleSpan

open Text

namespace Comment

/-! ## What is queued -/

/-- An inline comment that holds a quote, from its slashes to its line break. -/
structure IsQuotedComment (t : Text) (c : Extent) : Prop where
  slash_start : t.byteAt c.start = slash
  slash_next : t.byteAt (c.start + 1) = slash
  lt_stop : c.start + 1 < c.stop
  stop_lt : c.stop < t.length
  noBreak : ∀ p, c.start + 1 < p → p < c.stop → isLineBreak (t.byteAt p) = false
  break_stop : isLineBreak (t.byteAt c.stop) = true
  quoted : quotedBetween t (c.start + 1) c.stop = true

/-- A string queues nothing. -/
theorem comment_of_stringSegment {t : Text} {q : Quote} {inUrl u : Bool} {start j : Nat}
    {comment : Option Extent} (h : stringSegment t q inUrl start = .upTo u j comment) :
    comment = none := by
  rw [stringSegment] at h
  split at h
  · split at h <;> cases h
    rfl
  all_goals
    cases h
    try rfl

/-- What an inline comment queues lies between its second slash and the end of its line, and holds a
quote. -/
theorem isQuotedComment_of_inlineSegment {t : Text} {u : Bool} {i j : Nat} {c : Extent}
    (ho : openingAt t i = .inline) (h : inlineSegment t i = .upTo u j (some c)) :
    IsQuotedComment t c ∧ u = false ∧ i = c.start + 1 ∧ j = c.stop + 1 := by
  obtain ⟨hs, hb⟩ := openingAt_inline_iff.mp ho
  -- before the first byte stands no slash
  obtain ⟨start, rfl⟩ : ∃ start, i = start + 1 := by
    refine Nat.exists_eq_succ_of_ne_zero fun h0 => ?_
    rw [h0, byteBefore_zero] at hb
    exact absurd hb (by decide)
  rw [byteBefore_succ] at hb
  rw [inlineSegment, lineBreak?] at h
  split at h
  · next k hk =>
    obtain ⟨h₁, h₂, hk, hmin⟩ := firstFrom_eq_some.mp hk
    rw [Nat.add_sub_cancel] at h
    injection h with hu hj hc
    split at hc
    · next hq =>
      cases hc
      exact ⟨⟨hb, hs, h₁, h₂, hmin, hk, hq⟩, hu.symm, rfl, hj.symm⟩
    · cases hc
  · cases h

/-- Only an inline comment is queued, at its second slash. -/
theorem isQuotedComment_of_segment {t : Text} {inUrl u : Bool} {i j : Nat} {c : Extent}
    (h : segment t inUrl i = .upTo u j (some c)) :
    IsQuotedComment t c ∧ inUrl = false ∧ u = false ∧ i = c.start + 1 ∧ j = c.stop + 1 := by
  cases inUrl with
  | true =>
    rw [segment, if_pos rfl, urlSegment] at h
    split at h
    · cases h
    · split at h
      · cases h
      · split at h
        · cases comment_of_stringSegment h
        · cases h
  | false =>
    rw [segment, if_neg (by simp), topSegment] at h
    cases ho : openingAt t i with
    | nothing => simp [ho] at h
    | string q =>
      rw [ho] at h
      cases comment_of_stringSegment h
    | url => simp [ho] at h
    | block =>
      rw [ho] at h
      dsimp only [blockSegment] at h
      split at h <;> cases h
    | plain => simp [ho] at h
    | inline =>
      rw [ho] at h
      obtain ⟨hq, hu, hi, hj⟩ := isQuotedComment_of_inlineSegment ho h
      exact ⟨hq, rfl, hu, hi, hj⟩

theorem exists_of_enqueue_eq_finished {o : Outcome} {c : Extent} {m : Mode} {queue : List Extent}
    (h : o.enqueue c = .finished m queue) : ∃ rest, o = .finished m rest ∧ queue = c :: rest := by
  cases o with
  | finished mode rest =>
    cases h
    exact ⟨rest, rfl, rfl⟩
  | aborted offset context => cases h

/-- A segment queues its comment, if it has one, and the reader goes on behind it. -/
theorem readFrom_of_upTo {t : Text} {inUrl u : Bool} {i j : Nat} {comment : Option Extent}
    {m : Mode} {rest : List Extent} (hseg : segment t inUrl i = .upTo u j comment)
    (h : readFrom t u j = .finished m rest) :
    readFrom t inUrl i = .finished m (comment.toList ++ rest) := by
  rw [readFrom_eq, hseg]
  cases comment with
  | none => exact h
  | some c =>
    rw [Segment.resume, h]
    rfl

/-- A finished reading finishes behind each of its segments, and queues first what the segment does.
-/
theorem exists_of_readFrom_upTo {t : Text} {inUrl u : Bool} {i j : Nat} {comment : Option Extent}
    {m : Mode} {queue : List Extent} (hseg : segment t inUrl i = .upTo u j comment)
    (h : readFrom t inUrl i = .finished m queue) :
    ∃ rest, readFrom t u j = .finished m rest ∧ queue = comment.toList ++ rest := by
  rw [readFrom_eq, hseg] at h
  cases comment with
  | none => exact ⟨queue, h, rfl⟩
  | some c => exact exists_of_enqueue_eq_finished h

/-- What holds of the empty queue, and is kept when a segment puts its comment in front, holds of
the queue of every finished reading. -/
theorem queue_induction {t : Text} {m : Mode} {motive : Nat → List Extent → Prop}
    (ended : ∀ i, motive i [])
    (upTo : ∀ {inUrl u : Bool} {i j : Nat} {comment : Option Extent} {rest : List Extent},
      segment t inUrl i = .upTo u j comment → readFrom t u j = .finished m rest →
        motive j rest → motive i (comment.toList ++ rest))
    {inUrl : Bool} {i : Nat} {queue : List Extent}
    (h : readFrom t inUrl i = .finished m queue) : motive i queue := by
  induction hn : t.length - i using Nat.strongRecOn generalizing i inUrl queue with
  | _ n ih =>
    cases hseg : segment t inUrl i with
    | ended mode =>
      rw [readFrom_eq, hseg] at h
      cases h
      exact ended i
    | broken offset context =>
      rw [readFrom_eq, hseg] at h
      cases h
    | upTo u j comment =>
      obtain ⟨hij, hj⟩ := lt_of_segment hseg
      obtain ⟨rest, hrest, rfl⟩ := exists_of_readFrom_upTo hseg h
      exact upTo hseg hrest (ih (t.length - j) (by omega) hrest rfl)

/-- What a reader queues from `i` on are inline comments whose second slash is not behind it. -/
theorem isQuotedComment_of_readFrom {t : Text} {inUrl : Bool} {i : Nat} {m : Mode}
    {queue : List Extent} (h : readFrom t inUrl i = .finished m queue) :
    ∀ c ∈ queue, IsQuotedComment t c ∧ i ≤ c.start + 1 := by
  refine queue_induction (motive := fun i queue =>
    ∀ c ∈ queue, IsQuotedComment t c ∧ i ≤ c.start + 1) (fun i c hc => absurd hc List.not_mem_nil)
    (fun {inUrl u i j comment rest} hseg hrest ih c hc => ?_) h
  obtain ⟨hij, -⟩ := lt_of_segment hseg
  rcases List.mem_append.mp hc with hc | hc
  · obtain ⟨hq, -, -, hi, -⟩ := isQuotedComment_of_segment (Option.mem_toList.mp hc ▸ hseg)
    exact ⟨hq, by omega⟩
  · obtain ⟨hq, hle⟩ := ih c hc
    exact ⟨hq, by omega⟩

/-- Comments are queued in the order of the text, with at least a line break between them. -/
theorem pairwise_of_readFrom {t : Text} {inUrl : Bool} {i : Nat} {m : Mode}
    {queue : List Extent} (h : readFrom t inUrl i = .finished m queue) :
    queue.Pairwise fun c d => c.stop < d.start := by
  refine queue_induction (motive := fun _ queue => queue.Pairwise fun c d => c.stop < d.start)
    (fun _ => .nil) (fun {inUrl u i j comment rest} hseg hrest ih => ?_) h
  cases comment with
  | none => exact ih
  | some c =>
    refine List.pairwise_cons.mpr ⟨fun d hd => ?_, ih⟩
    obtain ⟨hc, -, -, -, hj⟩ := isQuotedComment_of_segment hseg
    obtain ⟨hq, hle⟩ := isQuotedComment_of_readFrom hrest d hd
    -- the line break behind the first comment is no slash of the second
    have hne : c.stop ≠ d.start := by
      intro heq
      have hbreak := hc.break_stop
      rw [heq, hq.slash_start] at hbreak
      cases hbreak
    omega

/-! ## What a segment depends on -/

/-- The offset that a segment reaches over. -/
def Segment.reach (t : Text) : Segment → Nat
  | .ended _ => t.length
  | .broken offset _ => offset + 1
  | .upTo _ next _ => next

variable {t t' : Text}

/-- Whether a byte closes a string depends on it and the byte before. -/
theorem closesString_congr {q : Quote} {start stop k : Nat} (h : SameBytes t t' start stop)
    (hk : start < k) (hlt : k < stop) : closesString t' q k = closesString t q k := by
  rw [closesString, closesString, h k (by omega) hlt, h.byteBefore_eq hk (by omega)]

/-- A string reaches behind its opening quote. -/
theorem lt_reach_stringSegment {q : Quote} {inUrl : Bool} {start : Nat} (h : start < t.length) :
    start < (stringSegment t q inUrl start).reach t := by
  rw [stringSegment_eq]
  split
  · next j hj =>
    obtain ⟨h₁, -, -, -⟩ := firstFrom_eq_some.mp hj
    split <;> exact Nat.lt_succ_of_lt h₁
  · exact h

/-- A string reads the same in texts that agree as far as it reaches. -/
theorem stringSegment_congr {q : Quote} {inUrl : Bool} {start : Nat} (hlen : t'.length = t.length)
    (h : SameBytes t t' start ((stringSegment t q inUrl start).reach t)) :
    stringSegment t' q inUrl start = stringSegment t q inUrl start := by
  rw [stringSegment_eq] at h
  rw [stringSegment_eq, stringSegment_eq]
  cases hj : t.firstFrom (start + 1) fun j => closesString t q j || isLineBreak (t.byteAt j) with
  | none =>
    rw [hj] at h
    rw [firstFrom_congr hlen fun k hk hlt => ?_, hj]
    rw [hj] at hlt
    rw [closesString_congr h hk hlt, h k (by omega) hlt]
  | some j =>
    obtain ⟨h₁, -, -, -⟩ := firstFrom_eq_some.mp hj
    have hreach : SameBytes t t' start (j + 1) := by
      rw [hj] at h
      dsimp only at h
      split at h <;> exact h
    rw [firstFrom_congr hlen fun k hk hlt => ?_, hj]
    · dsimp only
      rw [closesString_congr hreach h₁ (Nat.lt_succ_self j)]
    · rw [hj] at hlt
      rw [closesString_congr hreach hk hlt, hreach k (by omega) hlt]

/-- The inside of a `url(` reads the same in texts that agree as far as it reaches. -/
theorem urlSegment_congr {start : Nat} (hlen : t'.length = t.length)
    (h : SameBytes t t' start ((urlSegment t start).reach t)) :
    urlSegment t' start = urlSegment t start := by
  rw [urlSegment] at h
  rw [urlSegment, urlSegment]
  cases hj : t.firstFrom start (stopsUrl t) with
  | none =>
    rw [hj] at h
    rw [firstFrom_congr hlen fun k hk hlt => ?_, hj]
    rw [hj] at hlt
    rw [stopsUrl, stopsUrl, h k hk hlt]
  | some j =>
    obtain ⟨h₁, hlt, -, -⟩ := firstFrom_eq_some.mp hj
    rw [hj] at h
    dsimp only at h
    have hreach : SameBytes t t' start (j + 1) := by
      refine h.mono (Nat.le_refl _) ?_
      split
      · exact Nat.le_refl _
      · split
        · exact lt_reach_stringSegment hlt
        · exact Nat.le_refl _
    rw [firstFrom_congr hlen fun k hk hlt => ?_, hj]
    · dsimp only
      rw [hreach j h₁ (Nat.lt_succ_self j)]
      by_cases hp : t.byteAt j = closeParen
      · rw [if_pos hp, if_pos hp]
      · rw [if_neg hp, if_neg hp]
        cases hq : Quote.ofByte? (t.byteAt j) with
        | none => rfl
        | some q =>
          rw [if_neg hp, hq] at h
          exact stringSegment_congr hlen (h.mono h₁ (Nat.le_refl _))
    · rw [hj] at hlt
      rw [stopsUrl, stopsUrl, hreach k hk hlt]

theorem reach_blockSegment (start : Nat) :
    (blockSegment t start).reach t =
      (t.firstFrom (start + 1) (closesBlock t)).elim t.length (· + 1) := by
  rw [blockSegment]
  cases t.firstFrom (start + 1) (closesBlock t) <;> rfl

/-- A block comment reads the same in texts that agree up to its end. -/
theorem blockSegment_congr {start : Nat} (hlen : t'.length = t.length)
    (h : SameBytes t t' start ((blockSegment t start).reach t)) :
    blockSegment t' start = blockSegment t start := by
  rw [reach_blockSegment] at h
  rw [blockSegment, blockSegment, firstFrom_congr hlen fun k hk hlt => ?_]
  rw [closesBlock, closesBlock, h k (by omega) hlt, h.byteBefore_eq hk (by omega)]

/-- Texts with the same bytes hold the same quotes. -/
theorem quotedBetween_congr {start stop : Nat} (hlen : t'.length = t.length) (hs : stop ≤ t.length)
    (h : SameBytes t t' start stop) : quotedBetween t' start stop = quotedBetween t start stop := by
  rw [Bool.eq_iff_iff, quotedBetween_iff (by omega), quotedBetween_iff hs]
  constructor
  · rintro ⟨p, h₁, h₂, hq⟩
    exact ⟨p, h₁, h₂, by rw [← h p (by omega) h₂, hq]⟩
  · rintro ⟨p, h₁, h₂, hq⟩
    exact ⟨p, h₁, h₂, by rw [h p (by omega) h₂, hq]⟩

theorem reach_inlineSegment (start : Nat) :
    (inlineSegment t start).reach t = (lineBreak? t start).elim t.length (· + 1) := by
  rw [inlineSegment]
  cases lineBreak? t start <;> rfl

/-- An inline comment reads the same in texts that agree up to its line break. -/
theorem inlineSegment_congr {start : Nat} (hlen : t'.length = t.length)
    (h : SameBytes t t' start ((inlineSegment t start).reach t)) :
    inlineSegment t' start = inlineSegment t start := by
  rw [reach_inlineSegment] at h
  have hbreak : lineBreak? t' start = lineBreak? t start :=
    firstFrom_congr hlen fun k hk hlt => by rw [h k (by omega) hlt]
  rw [inlineSegment, inlineSegment, hbreak]
  cases hk : lineBreak? t start with
  | none =>
    rw [hk] at h
    dsimp only
    rw [hlen, quotedBetween_congr hlen (Nat.le_refl _) h]
  | some k =>
    obtain ⟨-, hlt, -, -⟩ := firstFrom_eq_some.mp hk
    rw [hk] at h
    dsimp only
    rw [quotedBetween_congr hlen (by omega) (h.mono (Nat.le_refl _) (Nat.le_succ k))]

theorem lt_reach_topSegment {i : Nat} (hi : i < t.length) : i < (topSegment t i).reach t := by
  cases hseg : topSegment t i with
  | ended mode => exact hi
  | upTo u j comment =>
    have hseg' : segment t false i = .upTo u j comment := hseg
    exact (lt_of_segment hseg').1
  | broken offset context =>
    rw [topSegment] at hseg
    cases ho : openingAt t i with
    | string q =>
      rw [ho] at hseg
      dsimp only at hseg
      rw [← hseg]
      exact lt_reach_stringSegment hi
    | block =>
      rw [ho] at hseg
      dsimp only [blockSegment] at hseg
      split at hseg <;> cases hseg
    | inline =>
      rw [ho] at hseg
      dsimp only [inlineSegment] at hseg
      split at hseg <;> cases hseg
    | nothing | url | plain => simp [ho] at hseg

/-- A segment depends on the bytes that it reaches over, the byte before it, and on whether
`url(` stands there, for which a reader looks further ahead. -/
theorem segment_congr {inUrl : Bool} {i : Nat} (hlen : t'.length = t.length)
    (hbefore : t'.byteBefore i = t.byteBefore i) (hurl : opensUrl t' i = opensUrl t i)
    (h : SameBytes t t' i ((segment t inUrl i).reach t)) :
    segment t' inUrl i = segment t inUrl i := by
  cases inUrl with
  | true => exact urlSegment_congr hlen h
  | false =>
    have hopening : openingAt t' i = openingAt t i := by
      rw [openingAt, openingAt, hlen, hbefore, hurl]
      split
      · next hi => rw [h i (Nat.le_refl i) (lt_reach_topSegment hi)]
      · rfl
    change SameBytes t t' i ((topSegment t i).reach t) at h
    change topSegment t' i = topSegment t i
    rw [topSegment] at h
    rw [topSegment, topSegment, hopening]
    cases ho : openingAt t i with
    | string q =>
      rw [ho] at h
      exact stringSegment_congr hlen h
    | block =>
      rw [ho] at h
      exact blockSegment_congr hlen h
    | inline =>
      rw [ho] at h
      exact inlineSegment_congr hlen h
    | nothing | url | plain => rfl

/-! ## Two readings -/

/-- `t'` is `t` with other bytes inside some of the comments, behind their slashes; none of
these bytes is a line break. -/
structure EditedIn (comments : List Extent) (t t' : Text) : Prop where
  length_eq : t'.length = t.length
  mem : ∀ p, t'.byteAt p ≠ t.byteAt p → ∃ c ∈ comments, c.start + 2 ≤ p ∧ p < c.stop
  noBreak : ∀ p, t'.byteAt p ≠ t.byteAt p → isLineBreak (t'.byteAt p) = false

/-- Whether a comment holds a quote. -/
def holdsQuote (t : Text) (c : Extent) : Bool := (c.slice t).any isQuote

/-- If a slash stands before each byte that differs, `url(` stands in both texts or in none. -/
theorem opensUrl_congr {i : Nat}
    (h : ∀ p, i ≤ p → t'.byteAt p ≠ t.byteAt p → ∃ s, i ≤ s ∧ s < p ∧ t.byteAt s = slash) :
    opensUrl t' i = opensUrl t i := by
  by_cases hsame : SameBytes t t' i (i + 4)
  · simp only [opensUrl]
    rw [hsame i (by omega) (by omega), hsame (i + 1) (by omega) (by omega),
      hsame (i + 2) (by omega) (by omega), hsame (i + 3) (by omega) (by omega)]
  · -- the slash before the first difference stands in both texts
    have hdiff : ∃ p, i ≤ p ∧ p < i + 4 ∧ t'.byteAt p ≠ t.byteAt p := by
      simpa [SameBytes] using hsame
    obtain ⟨h₁, h₂, hne⟩ := Nat.find_spec hdiff
    obtain ⟨s, hs, hlt, hslash⟩ := h _ h₁ hne
    have hslash' : t'.byteAt s = slash := by
      rw [← hslash]
      by_contra hne'
      exact Nat.find_min hdiff hlt ⟨hs, by omega, hne'⟩
    rw [opensUrl_eq_false hs (by omega) (by rw [hslash']; decide),
      opensUrl_eq_false hs (by omega) (by rw [hslash]; decide)]

/-- A comment holds a quote if some byte of it is one. -/
theorem holdsQuote_iff {c : Extent} (h : c.stop ≤ t.length) :
    holdsQuote t c = true ↔ ∃ p, c.start ≤ p ∧ p < c.stop ∧ isQuote (t.byteAt p) = true := by
  rw [holdsQuote, Extent.slice, any_slice_iff h]

/-- The slashes of a comment hold no quote. -/
theorem holdsQuote_eq_quotedBetween {c : Extent} (h : c.stop ≤ t.length)
    (hs : t.byteAt c.start = slash) (hs' : t.byteAt (c.start + 1) = slash) :
    holdsQuote t c = quotedBetween t (c.start + 1) c.stop := by
  have hslash : isQuote slash = false := rfl
  rw [Bool.eq_iff_iff, holdsQuote_iff h, quotedBetween_iff h]
  constructor
  · rintro ⟨p, h₁, h₂, hq⟩
    refine ⟨p, ?_, h₂, hq⟩
    by_contra hle
    obtain rfl | rfl : p = c.start ∨ p = c.start + 1 := by omega
    · rw [hs, hslash] at hq
      cases hq
    · rw [hs', hslash] at hq
      cases hq
  · rintro ⟨p, h₁, h₂, hq⟩
    exact ⟨p, by omega, h₂, hq⟩

/-- A comment is read up to the first line break and queued if it holds a quote. -/
theorem segment_of_slashes {c : Extent} (hs : t.byteAt c.start = slash)
    (hs' : t.byteAt (c.start + 1) = slash) (hlt : c.start + 1 < c.stop) (hle : c.stop < t.length)
    (hbreak : ∀ p, c.start + 1 < p → p < c.stop → isLineBreak (t.byteAt p) = false)
    (hstop : isLineBreak (t.byteAt c.stop) = true) :
    segment t false (c.start + 1) =
      .upTo false (c.stop + 1) (if holdsQuote t c then some c else none) := by
  have hopening : openingAt t (c.start + 1) = .inline := by
    rw [openingAt_inline_iff, byteBefore_succ]
    exact ⟨hs', hs⟩
  have hfirst : lineBreak? t (c.start + 1) = some c.stop :=
    firstFrom_eq_some.mpr ⟨hlt, hle, hstop, hbreak⟩
  change topSegment t (c.start + 1) = _
  rw [topSegment, hopening, holdsQuote_eq_quotedBetween (by omega) hs hs']
  dsimp only [inlineSegment]
  rw [hfirst]
  rfl

/-- A segment of the text is one of the changed text, if it is changed only inside the comment
that it queues; this is queued again if it still holds a quote. -/
theorem segment_of_edited {inUrl u : Bool} {i j : Nat} {comment : Option Extent}
    (hlen : t'.length = t.length)
    (hbreak : ∀ p, t'.byteAt p ≠ t.byteAt p → isLineBreak (t'.byteAt p) = false)
    (hbefore : t'.byteBefore i = t.byteBefore i) (hurl : opensUrl t' i = opensUrl t i)
    (hseg : segment t inUrl i = .upTo u j comment)
    (hmem : ∀ p, i ≤ p → p < j → t'.byteAt p ≠ t.byteAt p →
      ∃ c, comment = some c ∧ c.start + 2 ≤ p ∧ p < c.stop) :
    segment t' inUrl i = .upTo u j (comment.filter (holdsQuote t')) := by
  cases comment with
  | none =>
    have hsame : SameBytes t t' i j := by
      intro p hp hlt
      by_contra hne
      obtain ⟨c, hc, -⟩ := hmem p hp hlt hne
      cases hc
    rw [segment_congr hlen hbefore hurl (by rw [hseg]; exact hsame), hseg]
    rfl
  | some c =>
    obtain ⟨hq, rfl, rfl, rfl, rfl⟩ := isQuotedComment_of_segment hseg
    have hlt := hq.lt_stop
    have hkept : ∀ p, c.start + 1 ≤ p → p ≤ c.stop → ¬ (c.start + 2 ≤ p ∧ p < c.stop) →
        t'.byteAt p = t.byteAt p := by
      intro p hp hle hout
      by_contra hne
      obtain ⟨d, hd, hin⟩ := hmem p hp (by omega) hne
      cases hd
      exact hout hin
    have hs : t'.byteAt c.start = slash := by
      rw [← hq.slash_start, ← byteBefore_succ, hbefore, byteBefore_succ]
    have hs' : t'.byteAt (c.start + 1) = slash := by
      rw [hkept _ (Nat.le_refl _) (by omega) (by omega), hq.slash_next]
    have hstop : isLineBreak (t'.byteAt c.stop) = true := by
      rw [hkept _ (by omega) (Nat.le_refl _) (by omega), hq.break_stop]
    have hnoBreak : ∀ p, c.start + 1 < p → p < c.stop → isLineBreak (t'.byteAt p) = false := by
      intro p h₁ h₂
      by_cases hne : t'.byteAt p = t.byteAt p
      · rw [hne, hq.noBreak p h₁ h₂]
      · exact hbreak p hne
    rw [segment_of_slashes hs hs' hlt (by rw [hlen]; exact hq.stop_lt) hnoBreak hstop,
      Option.filter_some]

/-- From any offset on, both readings go the same way. -/
theorem readFrom_of_edited (hlen : t'.length = t.length)
    (hbreak : ∀ p, t'.byteAt p ≠ t.byteAt p → isLineBreak (t'.byteAt p) = false)
    {inUrl : Bool} {i : Nat} {m : Mode} {queue : List Extent}
    (h : readFrom t inUrl i = .finished m queue) (hbefore : t'.byteBefore i = t.byteBefore i)
    (hmem : ∀ p, i ≤ p → t'.byteAt p ≠ t.byteAt p →
      ∃ c ∈ queue, c.start + 2 ≤ p ∧ p < c.stop) :
    readFrom t' inUrl i = .finished m (queue.filter (holdsQuote t')) := by
  -- what the two readings have to agree on is the byte before and the changes still to come
  induction hn : t.length - i using Nat.strongRecOn generalizing i inUrl queue with
  | _ n ih =>
    have hurl : opensUrl t' i = opensUrl t i := by
      refine opensUrl_congr fun p hp hne => ?_
      obtain ⟨c, hc, h₁, -⟩ := hmem p hp hne
      obtain ⟨hq, hle⟩ := isQuotedComment_of_readFrom h c hc
      exact ⟨c.start + 1, hle, by omega, hq.slash_next⟩
    cases hseg : segment t inUrl i with
    | broken offset context =>
      rw [readFrom_eq, hseg] at h
      cases h
    | ended mode =>
      rw [readFrom_eq, hseg] at h
      cases h
      have hsame : SameBytes t t' i t.length := by
        intro p hp _
        by_contra hne
        obtain ⟨c, hc, -⟩ := hmem p hp hne
        exact absurd hc List.not_mem_nil
      rw [readFrom_eq, segment_congr hlen hbefore hurl (by rw [hseg]; exact hsame), hseg]
      rfl
    | upTo u j comment =>
      obtain ⟨hij, hj⟩ := lt_of_segment hseg
      obtain ⟨rest, hrest, hqueue⟩ := exists_of_readFrom_upTo hseg h
      -- a change before `j` is one inside the comment of this segment
      have hhere : ∀ p, i ≤ p → p < j → t'.byteAt p ≠ t.byteAt p →
          ∃ c, comment = some c ∧ c.start + 2 ≤ p ∧ p < c.stop := by
        intro p hp hlt hne
        obtain ⟨c, hc, h₁, h₂⟩ := hmem p hp hne
        rw [hqueue, List.mem_append, Option.mem_toList] at hc
        rcases hc with hc | hc
        · exact ⟨c, hc, h₁, h₂⟩
        · obtain ⟨-, hle⟩ := isQuotedComment_of_readFrom hrest c hc
          omega
      have hthere : ∀ p, j ≤ p → t'.byteAt p ≠ t.byteAt p →
          ∃ c ∈ rest, c.start + 2 ≤ p ∧ p < c.stop := by
        intro p hp hne
        obtain ⟨c, hc, h₁, h₂⟩ := hmem p (by omega) hne
        rw [hqueue, List.mem_append, Option.mem_toList] at hc
        rcases hc with hc | hc
        · obtain ⟨-, -, -, -, hstop⟩ := isQuotedComment_of_segment (hc ▸ hseg)
          omega
        · exact ⟨c, hc, h₁, h₂⟩
      have hbefore' : t'.byteBefore j = t.byteBefore j := by
        obtain ⟨k, rfl⟩ := Nat.exists_eq_succ_of_ne_zero (by omega : j ≠ 0)
        rw [byteBefore_succ, byteBefore_succ]
        by_contra hne
        obtain ⟨c, hc, -, hlt⟩ := hhere k (by omega) (by omega) hne
        obtain ⟨-, -, -, -, hstop⟩ := isQuotedComment_of_segment (hc ▸ hseg)
        omega
      have hseg' := segment_of_edited hlen hbreak hbefore hurl hseg hhere
      have hnext := ih (t.length - j) (by omega) hrest hbefore' hthere rfl
      rw [readFrom_of_upTo hseg' hnext, hqueue, List.filter_append, Option.toList_filter]

/-! ## Blanking -/

/-- Blanking puts a space for each quote inside the comments. -/
theorem byteAt_blankFrom (comments : List Extent) (offset : Nat) (t : Text) (p : Nat) :
    byteAt (blankFrom comments offset t) p =
      if isQuote (t.byteAt p) && comments.any (·.contains (offset + p)) then space
      else t.byteAt p := by
  induction t generalizing offset p with
  | nil => rfl
  | cons b rest ih =>
    cases p with
    | zero => rfl
    | succ p =>
      have h := ih (offset + 1) p
      rw [Nat.add_assoc, Nat.add_comm 1 p] at h
      exact h

/-- Blanking changes the quotes inside the comments, and no other byte. -/
theorem byteAt_blank (comments : List Extent) (t : Text) (p : Nat) :
    byteAt (blank comments t) p =
      if isQuote (t.byteAt p) && comments.any (·.contains p) then space else t.byteAt p := by
  rw [blank, byteAt_blankFrom, Nat.zero_add]

/-- Blanking quoted comments is an edit inside of them. -/
theorem editedIn_blank {comments : List Extent} (h : ∀ c ∈ comments, IsQuotedComment t c) :
    EditedIn comments t (blank comments t) := by
  have hdiff : ∀ p, byteAt (blank comments t) p ≠ t.byteAt p →
      byteAt (blank comments t) p = space ∧ isQuote (t.byteAt p) = true ∧
        ∃ c ∈ comments, c.start ≤ p ∧ p < c.stop := by
    intro p hne
    rw [byteAt_blank] at hne ⊢
    split at hne
    · next hb =>
      rw [if_pos hb]
      rw [Bool.and_eq_true, List.any_eq_true] at hb
      obtain ⟨hq, c, hc, hin⟩ := hb
      rw [Extent.contains, Bool.and_eq_true, decide_eq_true_eq, decide_eq_true_eq] at hin
      exact ⟨rfl, hq, c, hc, hin⟩
    · exact absurd rfl hne
  refine ⟨length_blank comments t, fun p hne => ?_, fun p hne => ?_⟩
  · obtain ⟨-, hq, c, hc, h₁, h₂⟩ := hdiff p hne
    refine ⟨c, hc, ?_, h₂⟩
    by_contra hle
    have hslash : t.byteAt p = slash := by
      obtain rfl | rfl : p = c.start ∨ p = c.start + 1 := by omega
      · exact (h c hc).slash_start
      · exact (h c hc).slash_next
    rw [hslash] at hq
    cases hq
  · rw [(hdiff p hne).1]
    decide

/-- A blanked comment holds no quote. -/
theorem holdsQuote_blank {comments : List Extent} {c : Extent} (hc : c ∈ comments)
    (h : c.stop ≤ t.length) : holdsQuote (blank comments t) c = false := by
  rw [← Bool.not_eq_true, holdsQuote_iff (by rw [length_blank]; exact h)]
  rintro ⟨p, h₁, h₂, hq⟩
  rw [byteAt_blank] at hq
  split at hq
  · cases hq
  · next hb =>
    have hany : comments.any (·.contains p) = true :=
      List.any_eq_true.mpr ⟨c, hc, by simp [Extent.contains, h₁, h₂]⟩
    rw [hq, hany] at hb
    exact hb rfl

/-! ## Whole texts -/

/-- A finished reading of a text goes the same way in every text that is edited in its queued
comments, and queues those that still hold a quote. -/
theorem scan_of_editedIn {queue : List Extent} {m : Mode} (h : scan t = .finished m queue)
    (he : EditedIn queue t t') : scan t' = .finished m (queue.filter (holdsQuote t')) := by
  rw [scan_eq_readFrom] at h ⊢
  exact readFrom_of_edited he.length_eq he.noBreak h rfl fun p _ hne => he.mem p hne

/-- All that is queued is a quoted comment. -/
theorem isQuotedComment_of_scan {queue : List Extent} {m : Mode}
    (h : scan t = .finished m queue) : ∀ c ∈ queue, IsQuotedComment t c := by
  rw [scan_eq_readFrom] at h
  exact fun c hc => (isQuotedComment_of_readFrom h c hc).1

/-- Queued comments stand one behind the other, apart. -/
theorem pairwise_of_scan {queue : List Extent} {m : Mode} (h : scan t = .finished m queue) :
    queue.Pairwise fun c d => c.stop < d.start := by
  rw [scan_eq_readFrom] at h
  exact pairwise_of_readFrom h

/-- In the blanked text nothing is left to queue. -/
theorem scan_blank {queue : List Extent} {m : Mode} (h : scan t = .finished m queue) :
    scan (blank queue t) = .finished m [] := by
  have hqueue := isQuotedComment_of_scan h
  rw [scan_of_editedIn h (editedIn_blank hqueue), List.filter_eq_nil_iff.mpr]
  intro c hc
  rw [holdsQuote_blank hc (Nat.le_of_lt (hqueue c hc).stop_lt)]
  decide

/-- **What a queued comment holds does not steer the reading**, and a second pass finds nothing
left to blank. -/
theorem scan_edited_and_blanked {queue : List Extent} {m : Mode}
    (h : scan t = .finished m queue) :
    (∀ t', EditedIn queue t t' → scan t' = .finished m (queue.filter (holdsQuote t'))) ∧
      scan (blank queue t) = .finished m [] ∧
      sanitize (sanitize t).text = ⟨(sanitize t).text, .unchanged⟩ := by
  refine ⟨fun t' he => scan_of_editedIn h he, scan_blank h, ?_⟩
  rw [text_sanitize_of_finished h, sanitize, scan_blank h]

/-- Two comments are queued; after an edit of the first, which loses its quote to what reads
like the end of a block comment and a `url(`, only the second one is. -/
theorem scan_edited_two_comments :
    let t := ascii "u//'it's.\n'b'/*'*///\"\nx"
    let t' := ascii "u//*/url(\n'b'/*'*///\"\nx"
    let queue : List Extent := [⟨1, 9⟩, ⟨17, 21⟩]
    scan t = .finished .top queue ∧ EditedIn queue t t' ∧ scan t' = .finished .top [⟨17, 21⟩] ∧
      scan (blank queue t) = .finished .top [] := by
  intro t t' queue
  have h : scan t = .finished .top queue := by decide
  have hdiff : ∀ p < 23, t'.byteAt p ≠ t.byteAt p →
      (∃ c ∈ queue, c.start + 2 ≤ p ∧ p < c.stop) ∧ isLineBreak (t'.byteAt p) = false := by
    decide
  have he : EditedIn queue t t' := by
    have hlt : ∀ p, t'.byteAt p ≠ t.byteAt p → p < 23 := fun p hne =>
      Nat.lt_of_not_le fun hle => hne (by rw [byteAt_of_length_le hle, byteAt_of_length_le hle])
    exact ⟨by decide, fun p hne => (hdiff p (hlt p hne) hne).1,
      fun p hne => (hdiff p (hlt p hne) hne).2⟩
  obtain ⟨hedit, hblank, -⟩ := scan_edited_and_blanked h
  have hkept : queue.filter (holdsQuote t') = [⟨17, 21⟩] := by decide
  exact ⟨h, he, hkept ▸ hedit t' he, hblank⟩

end Comment

end StyleSpan
