import StyleSpan.Proofs.Comment.Append

/-!
# StyleSpan.Proofs.Comment.Aborts

Where a reading aborts.  It is at a line break inside a string or a `url( )`, and as
the first line break there would have been enough, no line break stands before it.
What comes after that line break was not looked at: looking ahead for `url(` does
not reach over it.  So the bytes up to the abort decide it, and none before it.

* `isAbort_of_segment` / `followsByte_of_segment` — over one segment;
* `isAbort_of_readFrom` — over all of them, by induction on what is left to read;
* `scan_of_take_eq` — texts that begin alike abort alike;
* `first_abort_of_verdict` — the first abort, decided by the bytes up to it.
-/

namespace StyleSpan

open Text

namespace Comment

variable {t t' s : Text} {inUrl u : Bool} {i j k offset : Nat} {context : Context} {m : Mode}
  {prev : UInt8} {comment : Option Extent}

/-! ## The place of an abort -/

/-- Behind an offset stands a byte, and it breaks no line. -/
def FollowsByte (t : Text) (i : Nat) : Prop := 0 < i ∧ isLineBreak (t.byteBefore i) = false

/-- A line breaks at `k` inside a string or a `url( )`, and not already one byte before. -/
structure IsAbort (t : Text) (k : Nat) (context : Context) : Prop where
  lt_length : k < t.length
  break_at : isLineBreak (t.byteAt k) = true
  context_eq : context = .singleQuote ∨ context = .doubleQuote ∨ context = .url
  follows : FollowsByte t k

/-- A byte that is no line break may stand before any offset. -/
theorem followsByte_succ (h : isLineBreak (t.byteAt i) = false) : FollowsByte t (i + 1) :=
  ⟨Nat.succ_pos i, by rwa [byteBefore_succ]⟩

/-- A string is read in the context of its quote, or in that of the `url(` around it. -/
theorem Quote.context_string (q : Quote) (inUrl : Bool) :
    (Mode.string q inUrl).context = .singleQuote ∨ (Mode.string q inUrl).context = .doubleQuote ∨
      (Mode.string q inUrl).context = .url := by
  cases q with
  | single => exact .inl rfl
  | double => exact .inr (.inl rfl)

/-- No quote breaks a line. -/
theorem isLineBreak_of_ofByte? {b : UInt8} {q : Quote} (h : Quote.ofByte? b = some q) :
    isLineBreak b = false := by
  rw [Quote.ofByte?_eq_some.mp h, Quote.isLineBreak_byte]

/-- A string that is broken off breaks at the first line break behind its quote. -/
theorem isAbort_of_stringSegment {q : Quote} {start : Nat}
    (hq : isLineBreak (t.byteAt start) = false)
    (h : stringSegment t q inUrl start = .broken k context) : start < k ∧ IsAbort t k context := by
  rw [stringSegment_eq] at h
  split at h
  · next j hj =>
    obtain ⟨h₁, hlt, hstop, hmin⟩ := firstFrom_eq_some.mp hj
    split at h
    · cases h
    · next hopen =>
      cases h
      rw [Bool.or_eq_true, or_iff_right hopen] at hstop
      -- the byte before is the quote, or one that was passed over
      have hfollows : FollowsByte t k := by
        obtain ⟨p, rfl⟩ : ∃ p, k = p + 1 := ⟨k - 1, by omega⟩
        apply followsByte_succ
        by_cases hp : p = start
        · rw [hp, hq]
        · exact (Bool.or_eq_false_iff.mp (hmin p (by omega) (Nat.lt_succ_self p))).2
      exact ⟨h₁, hlt, hstop, q.context_string inUrl, hfollows⟩
  · cases h

/-- A `url(` that is broken off aborts the reading at the first break in it. -/
theorem isAbort_of_urlSegment (hi : FollowsByte t i) (h : urlSegment t i = .broken k context) :
    i ≤ k ∧ IsAbort t k context := by
  rw [urlSegment] at h
  split at h
  · cases h
  · next j hj =>
    obtain ⟨h₁, hlt, hstop, hmin⟩ := firstFrom_eq_some.mp hj
    split at h
    · cases h
    · next hparen =>
      split at h
      · next q hq =>
        obtain ⟨hlt', habort⟩ := isAbort_of_stringSegment (isLineBreak_of_ofByte? hq) h
        exact ⟨by omega, habort⟩
      · next hq =>
        cases h
        rw [stopsUrl, Quote.ofByte?_eq_none_iff.mp hq, Bool.or_false, Bool.or_eq_true,
          decide_eq_true_eq, or_iff_right hparen] at hstop
        -- the byte before was passed over, or it stands before the segment
        have hfollows : FollowsByte t k := by
          by_cases hik : i = k
          · exact hik ▸ hi
          · obtain ⟨p, rfl⟩ : ∃ p, k = p + 1 := ⟨k - 1, by omega⟩
            have hp := hmin p (by omega) (Nat.lt_succ_self p)
            rw [stopsUrl, Bool.or_eq_false_iff, Bool.or_eq_false_iff] at hp
            exact followsByte_succ hp.1.2
        exact ⟨h₁, hlt, hstop, .inr (.inr rfl), hfollows⟩

/-- A segment that is broken off breaks where an abort is said to be. -/
theorem isAbort_of_segment (hi : inUrl = true → FollowsByte t i)
    (h : segment t inUrl i = .broken k context) : i ≤ k ∧ IsAbort t k context := by
  cases inUrl with
  | true => exact isAbort_of_urlSegment (hi rfl) h
  | false =>
    change topSegment t i = _ at h
    rw [topSegment] at h
    cases ho : openingAt t i with
    | string q =>
      rw [ho] at h
      have hq : Quote.ofByte? (t.byteAt i) = some q := by
        unfold openingAt at ho
        repeat' split at ho
        all_goals simp_all
      obtain ⟨hlt, habort⟩ := isAbort_of_stringSegment (isLineBreak_of_ofByte? hq) h
      exact ⟨Nat.le_of_lt hlt, habort⟩
    | block =>
      rw [ho] at h
      dsimp only [blockSegment] at h
      split at h <;> cases h
    | inline =>
      rw [ho] at h
      dsimp only [inlineSegment] at h
      split at h <;> cases h
    | nothing | url | plain => simp [ho] at h

/-- A string ends behind its closing quote. -/
theorem followsByte_of_stringSegment {q : Quote} {start : Nat}
    (h : stringSegment t q inUrl start = .upTo u j comment) : FollowsByte t j := by
  rw [stringSegment_eq] at h
  split at h
  · next k hk =>
    split at h
    · next hclose =>
      cases h
      rw [closesString, Bool.and_eq_true, decide_eq_true_eq] at hclose
      exact followsByte_succ (by rw [hclose.1, Quote.isLineBreak_byte])
    · cases h
  · cases h

/-- Where a reader goes on inside a `url( )`, a parenthesis or a quote stands before. -/
theorem followsByte_of_segment (h : segment t inUrl i = .upTo true j comment) :
    FollowsByte t j := by
  cases inUrl with
  | true =>
    change urlSegment t i = _ at h
    rw [urlSegment] at h
    split at h
    · cases h
    · split at h
      · cases h
      · split at h
        · exact followsByte_of_stringSegment h
        · cases h
  | false =>
    change topSegment t i = _ at h
    rw [topSegment] at h
    cases ho : openingAt t i with
    | string q =>
      rw [ho] at h
      exact followsByte_of_stringSegment h
    | url =>
      rw [ho] at h
      cases h
      have hurl := opensUrl_of_openingAt ho
      rw [opensUrl, Bool.and_eq_true, decide_eq_true_eq] at hurl
      exact followsByte_succ (by rw [hurl.2]; rfl)
    | block =>
      rw [ho] at h
      dsimp only [blockSegment] at h
      split at h <;> cases h
    | inline =>
      rw [ho] at h
      dsimp only [inlineSegment] at h
      split at h <;> cases h
    | nothing | plain => simp [ho] at h

/-- If reading aborts behind a segment it does so from the end of the segment on. -/
theorem readFrom_of_upTo_aborted (hseg : segment t inUrl i = .upTo u j comment)
    (h : readFrom t inUrl i = .aborted k context) : readFrom t u j = .aborted k context := by
  rw [readFrom_eq, hseg] at h
  cases comment with
  | none => exact h
  | some c =>
    rw [Segment.resume] at h
    cases hrest : readFrom t u j with
    | finished m queue =>
      rw [hrest] at h
      cases h
    | aborted offset context' =>
      rw [hrest] at h
      exact h

/-- A reader aborts where an abort is said to be, not before it begins. -/
theorem isAbort_of_readFrom (hi : inUrl = true → FollowsByte t i)
    (h : readFrom t inUrl i = .aborted k context) : i ≤ k ∧ IsAbort t k context := by
  -- on the number of bytes that are left, of which every segment takes some
  induction hn : t.length - i using Nat.strongRecOn generalizing i inUrl with
  | _ n ih =>
    cases hseg : segment t inUrl i with
    | ended mode =>
      rw [readFrom_eq, hseg] at h
      cases h
    | broken offset context' =>
      rw [readFrom_eq, hseg] at h
      cases h
      exact isAbort_of_segment hi hseg
    | upTo u j comment =>
      obtain ⟨hij, hj⟩ := lt_of_segment hseg
      have hnext : u = true → FollowsByte t j := by
        rintro rfl
        exact followsByte_of_segment hseg
      obtain ⟨hle, habort⟩ :=
        ih (t.length - j) (by omega) hnext (readFrom_of_upTo_aborted hseg h) rfl
      exact ⟨by omega, habort⟩

/-- Whatever the text, an abort is what `IsAbort` says. -/
theorem isAbort_of_scan (h : scan t = .aborted k context) : IsAbort t k context := by
  rw [scan_eq_readFrom] at h
  exact (isAbort_of_readFrom (fun hurl => absurd hurl (by decide)) h).2

/-! ## What decides it -/

/-- A reading does not abort before it begins. -/
theorem le_of_scanFrom_aborted (h : scanFrom m offset prev t = .aborted k context) :
    offset ≤ k := by
  induction t generalizing m offset prev with
  | nil => cases h
  | cons b rest ih =>
    rw [scanFrom_cons] at h
    split at h
    · exact Nat.le_of_succ_le (ih h)
    · next c hmove =>
      cases hrest : scanFrom .top (offset + 1) b rest with
      | finished m' queue =>
        rw [hrest] at h
        cases h
      | aborted offset' context' =>
        rw [hrest] at h
        cases h
        exact Nat.le_of_succ_le (ih hrest)
    · cases h
      exact Nat.le_refl k

/-- A text ends its line where it is cut off behind a line break. -/
theorem endsLine_take (hk : k < t.length) (h : isLineBreak (t.byteAt k) = true) :
    EndsLine (t.take (k + 1)) := by
  intro b hb
  rw [List.take_add_one, List.getElem?_eq_getElem hk, Option.toList_some, List.getLast?_concat,
    Option.mem_some_iff, ← byteAt_eq_getElem hk] at hb
  rwa [← hb]

/-- Cut off behind its abort, a text aborts there, whatever is put behind it. -/
theorem scan_take_append (h : scan t = .aborted k context) (s : Text) :
    scan (t.take (k + 1) ++ s) = .aborted k context := by
  have habort := isAbort_of_scan h
  have hline := endsLine_take habort.lt_length habort.break_at
  have hlength : (t.take (k + 1)).length = k + 1 := by
    rw [List.length_take, Nat.min_eq_left habort.lt_length]
  rw [scan_eq_scanFrom, ← List.take_append_drop (k + 1) t, scanFrom_append hline, hlength,
    Nat.zero_add] at h
  rw [scan_eq_scanFrom, scanFrom_append hline, hlength, Nat.zero_add]
  cases hs : scanFrom .top 0 0 (t.take (k + 1)) with
  | aborted offset context' =>
    rw [hs] at h
    exact h
  | finished m queue =>
    -- the abort would stand behind the bytes up to it
    rw [hs, Outcome.andThen] at h
    cases hrest : scanFrom m (k + 1) ((t.take (k + 1)).getLast?.getD 0) (t.drop (k + 1)) with
    | finished m' more =>
      rw [hrest] at h
      cases h
    | aborted offset context' =>
      rw [hrest] at h
      cases h
      exact absurd (le_of_scanFrom_aborted hrest) (Nat.not_succ_le_self k)

/-- Texts that begin alike abort alike. -/
theorem scan_of_take_eq (h : scan t = .aborted k context)
    (htake : t'.take (k + 1) = t.take (k + 1)) : scan t' = .aborted k context := by
  rw [← List.take_append_drop (k + 1) t', htake, scan_take_append h]

/-- A text cut off before its abort does not abort. -/
theorem scan_take_ne_aborted {n j : Nat} {context' : Context} (h : scan t = .aborted k context)
    (hn : n ≤ k) : scan (t.take n) ≠ .aborted j context' := by
  intro hj
  have hlt : j < n := Nat.lt_of_lt_of_le (isAbort_of_scan hj).lt_length (List.length_take_le n t)
  have htake : t.take (j + 1) = (t.take n).take (j + 1) := by
    rw [List.take_take, Nat.min_eq_left hlt]
  have hfirst := scan_of_take_eq hj htake
  rw [h] at hfirst
  injection hfirst with hjk
  omega

/-! ## Of a verdict -/

/-- Sanitizing reports the abort of the reading, as it is. -/
theorem verdict_sanitize :
    (sanitize t).verdict = .aborted k context ↔ scan t = .aborted k context := by
  rw [sanitize]
  cases scan t with
  | finished m queue => cases queue <;> simp
  | aborted offset context' => simp

/-- **An abort is the first one, and the bytes up to it decide it.**  A text that aborts does so at
a line break inside a string or a `url( )` and stays as it is, whatever was queued before.  Every
text that has its bytes up to there aborts there, and cut off before that it does not abort. -/
theorem first_abort_of_verdict (h : (sanitize t).verdict = .aborted k context) :
    (k < t.length ∧ (t.byteAt k = lf ∨ t.byteAt k = cr) ∧
      (context = .singleQuote ∨ context = .doubleQuote ∨ context = .url)) ∧
    ((sanitize t).text = t ∧ (sanitize t).verdict.changedComments = 0 ∧
      (sanitize t).verdict.blankedQuotes = 0) ∧
    (∀ t', t'.take (k + 1) = t.take (k + 1) → (sanitize t').verdict = .aborted k context) ∧
    ∀ n ≤ k, (sanitize (t.take n)).verdict.status ≠ .aborted := by
  have hscan := verdict_sanitize.mp h
  have habort := isAbort_of_scan hscan
  have hbreak := habort.break_at
  rw [isLineBreak, Bool.or_eq_true, decide_eq_true_eq, decide_eq_true_eq] at hbreak
  refine ⟨⟨habort.lt_length, hbreak, habort.context_eq⟩, ⟨?_, ?_, ?_⟩, fun t' htake => ?_,
    fun n hn hstatus => ?_⟩
  · rw [sanitize_of_aborted hscan]
  · simp only [h, Verdict.changedComments]
  · simp only [h, Verdict.blankedQuotes]
  · exact verdict_sanitize.mpr (scan_of_take_eq hscan htake)
  · obtain ⟨offset, context', hcut⟩ := (status_sanitize _).mp hstatus
    exact scan_take_ne_aborted hscan hn hcut

/-- A comment is queued, and then the line breaks inside a string: whatever follows, nothing is
blanked. -/
theorem first_abort_of_queued :
    let t := ascii "//it's\n'a\nb"
    (sanitize (ascii "//it's\n")).verdict = .sanitized 1 1 ∧
      (sanitize t).verdict = .aborted 9 .singleQuote ∧ (sanitize t).text = t ∧
      (sanitize (ascii "//it's\n'a\nurl(")).verdict = .aborted 9 .singleQuote ∧
      (sanitize (ascii "//it's\n'a")).verdict.status ≠ .aborted := by
  intro t
  have hverdict : (sanitize t).verdict = .aborted 9 .singleQuote := by decide +kernel
  obtain ⟨-, ⟨htext, -, -⟩, hsame, hbefore⟩ := first_abort_of_verdict hverdict
  exact ⟨by decide +kernel, hverdict, htext, hsame (ascii "//it's\n'a\nurl(") (by decide),
    hbefore 9 (Nat.le_refl 9)⟩

end Comment

end StyleSpan
