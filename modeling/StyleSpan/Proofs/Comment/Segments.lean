import StyleSpan.Proofs.Comment.Reader
import StyleSpan.Proofs.Text.Offsets

/-!
# StyleSpan.Proofs.Comment.Segments

Reading a stylesheet segment by segment.  A segment is what a reader takes in
at once: a string, a comment, a stretch of a `url( )`, or a single byte.
Where it ends is said by least offsets alone (`Text.firstFrom`), without any
state carried from byte to byte:

```
'...'  "..."   up to the first such quote behind no backslash, if no line breaks before
url(           four bytes, the letters in either case
  ... )        up to the first of a parenthesis, a quote, a line break
/* ... */      from the star up to the first slash behind a star
// ...         from the second slash up to the first line break
```

The main statement is that the byte-by-byte reading of `Comment.scan` and the
reader by segments have the same outcome:

* `scanAt_segment` — over one segment;
* `scanAt_eq_readFrom` — over all of them, from any offset on;
* `scan_eq_readFrom` — the reading of the loop, through the modes that it goes through.
-/

namespace StyleSpan

open Text

namespace Comment

/-! ## Quotes -/

theorem Quote.ofByte?_eq_none_iff {b : UInt8} : ofByte? b = none ↔ isQuote b = false := by
  rw [← isSome_ofByte?, Option.isSome_eq_false_iff, Option.isNone_iff_eq_none]

@[simp] theorem Quote.isLineBreak_byte (q : Quote) : isLineBreak q.byte = false := by
  cases q <;> rfl

theorem isQuote_eq_false_of_isLineBreak {b : UInt8} (h : isLineBreak b = true) :
    isQuote b = false := by
  rw [← Quote.ofByte?_eq_none_iff]
  cases hq : Quote.ofByte? b with
  | none => rfl
  | some q =>
    rw [Quote.ofByte?_eq_some.mp hq, Quote.isLineBreak_byte] at h
    cases h

/-! ## Segments -/

/-- How a segment ends: the text is over in it, a line breaks where it must
not, or the reader goes on at an offset, inside a `url( )` or not, after
queueing a comment that it may have read. -/
inductive Segment where
  | ended (mode : Mode)
  | broken (offset : Nat) (context : Context)
  | upTo (inUrl : Bool) (next : Nat) (comment : Option Extent)
deriving DecidableEq, Repr

/-- Whether a quote stands at `j` that no backslash keeps from closing a string. -/
def closesString (t : Text) (q : Quote) (j : Nat) : Bool :=
  t.byteAt j = q.byte && t.byteBefore j ≠ backslash

/-- The offset of the quote that closes a string opened at `start`. -/
def closingQuote? (t : Text) (q : Quote) (start : Nat) : Option Nat :=
  t.firstFrom (start + 1) (closesString t q)

/-- The offset of the first line break after `start`. -/
def lineBreak? (t : Text) (start : Nat) : Option Nat :=
  t.firstFrom (start + 1) fun k => isLineBreak (t.byteAt k)

/-- A string whose opening quote stands at `start`. -/
def stringSegment (t : Text) (q : Quote) (inUrl : Bool) (start : Nat) : Segment :=
  match closingQuote? t q start, lineBreak? t start with
  | some j, some k =>
    if k < j then .broken k (Mode.string q inUrl).context else .upTo inUrl (j + 1) none
  | some j, none => .upTo inUrl (j + 1) none
  | none, some k => .broken k (Mode.string q inUrl).context
  | none, none => .ended (.string q inUrl)

/-- Whether one of the bytes stands at `j` that matter inside a `url( )`. -/
def stopsUrl (t : Text) (j : Nat) : Bool :=
  t.byteAt j = closeParen || isLineBreak (t.byteAt j) || isQuote (t.byteAt j)

/-- The inside of a `url( )` from `start` on, up to its end or through a string in it. -/
def urlSegment (t : Text) (start : Nat) : Segment :=
  match t.firstFrom start (stopsUrl t) with
  | none => .ended .url
  | some j =>
    if t.byteAt j = closeParen then .upTo false (j + 1) none
    else match Quote.ofByte? (t.byteAt j) with
      | some q => stringSegment t q true j
      | none => .broken j .url

/-- Whether a slash stands at `j` behind a star. -/
def closesBlock (t : Text) (j : Nat) : Bool := t.byteAt j = slash && t.byteBefore j = star

/-- A block comment whose first star stands at `start`. -/
def blockSegment (t : Text) (start : Nat) : Segment :=
  match t.firstFrom (start + 1) (closesBlock t) with
  | some j => .upTo false (j + 1) none
  | none => .ended .block

/-- Whether a quote stands after `start` and before `stop`. -/
def quotedBetween (t : Text) (start stop : Nat) : Bool := (t.slice (start + 1) stop).any isQuote

/-- An inline comment whose second slash stands at `start`. -/
def inlineSegment (t : Text) (start : Nat) : Segment :=
  match lineBreak? t start with
  | some k =>
    .upTo false (k + 1) (if quotedBetween t start k then some ⟨start - 1, k⟩ else none)
  | none => .ended (.inline (start - 1) (quotedBetween t start t.length))

/-- Whether `url(` stands at an offset, each letter in either case. -/
def opensUrl (t : Text) (i : Nat) : Bool :=
  (ascii "uU").contains (t.byteAt i) && (ascii "rR").contains (t.byteAt (i + 1)) &&
    (ascii "lL").contains (t.byteAt (i + 2)) && t.byteAt (i + 3) = openParen

/-- What can begin outside of strings, comments and `url( )`. -/
inductive Opening where
  | nothing
  | string (quote : Quote)
  | url
  | block
  | inline
  | plain
deriving DecidableEq, Repr

/-- What begins at `i`: the first of these that fits. -/
def openingAt (t : Text) (i : Nat) : Opening :=
  if i < t.length then
    match Quote.ofByte? (t.byteAt i) with
    | some q => .string q
    | none =>
      if opensUrl t i then .url
      else if t.byteAt i = star ∧ t.byteBefore i = slash then .block
      else if t.byteAt i = slash ∧ t.byteBefore i = slash then .inline
      else .plain
  else .nothing

/-- The segment that begins at `i` outside of strings, comments and `url( )`. -/
def topSegment (t : Text) (i : Nat) : Segment :=
  match openingAt t i with
  | .nothing => .ended .top
  | .string q => stringSegment t q false i
  | .url => .upTo true (i + 4) none
  | .block => blockSegment t i
  | .inline => inlineSegment t i
  | .plain => .upTo false (i + 1) none

/-- The segment that begins at `i`, inside a `url( )` or not. -/
def segment (t : Text) (inUrl : Bool) (i : Nat) : Segment :=
  if inUrl then urlSegment t i else topSegment t i

/-! ## Where segments end -/

/-- A string ends at the first of a closing quote and a line break. -/
theorem stringSegment_eq (t : Text) (q : Quote) (inUrl : Bool) (start : Nat) :
    stringSegment t q inUrl start =
      match t.firstFrom (start + 1) fun j => closesString t q j || isLineBreak (t.byteAt j) with
      | some j =>
        if closesString t q j then .upTo inUrl (j + 1) none
        else .broken j (Mode.string q inUrl).context
      | none => .ended (.string q inUrl) := by
  rw [firstFrom_or, stringSegment, closingQuote?, lineBreak?]
  cases hq : t.firstFrom (start + 1) (closesString t q) with
  | none =>
    cases hb : t.firstFrom (start + 1) fun k => isLineBreak (t.byteAt k) with
    | none => rfl
    | some k =>
      obtain ⟨h₁, h₂, -, -⟩ := firstFrom_eq_some.mp hb
      have hk := firstFrom_eq_none.mp hq k h₁ h₂
      simp [hk]
  | some j =>
    obtain ⟨h₁, h₂, hj, hmin⟩ := firstFrom_eq_some.mp hq
    cases hb : t.firstFrom (start + 1) fun k => isLineBreak (t.byteAt k) with
    | none => simp [hj]
    | some k =>
      obtain ⟨h₁', h₂', -, -⟩ := firstFrom_eq_some.mp hb
      by_cases hkj : k < j
      · have hk := hmin k h₁' hkj
        have hm : min j k = k := by omega
        simp [hkj, hk, hm]
      · have hm : min j k = j := by omega
        simp [hkj, hj, hm]

/-- Nothing opens at the end of the text. -/
theorem openingAt_nothing_iff {t : Text} {i : Nat} :
    openingAt t i = .nothing ↔ t.length ≤ i := by
  unfold openingAt
  by_cases hi : i < t.length
  · rw [if_pos hi]
    constructor
    · intro h
      repeat' split at h
      all_goals cases h
    · omega
  · rw [if_neg hi]
    simpa using hi

/-- Where a `url(` opens its four bytes stand. -/
theorem opensUrl_of_openingAt {t : Text} {i : Nat} (h : openingAt t i = .url) :
    opensUrl t i = true := by
  unfold openingAt at h
  repeat' split at h
  all_goals simp_all

/-- A byte that is none of its letters stands where `url(` does not. -/
theorem opensUrl_eq_false {t : Text} {i s : Nat} (h : i ≤ s) (hs : s < i + 3)
    (hletter : (ascii "uUrRlL").contains (t.byteAt s) = false) : opensUrl t i = false := by
  have hletters : ascii "uUrRlL" = ascii "uU" ++ (ascii "rR" ++ ascii "lL") := by decide
  rw [hletters, List.contains_append, List.contains_append, Bool.or_eq_false_iff,
    Bool.or_eq_false_iff] at hletter
  obtain ⟨hu, hr, hl⟩ := hletter
  simp only [opensUrl, Bool.and_eq_false_iff]
  obtain rfl | rfl | rfl : s = i ∨ s = i + 1 ∨ s = i + 2 := by omega
  · exact .inl (.inl (.inl hu))
  · exact .inl (.inl (.inr hr))
  · exact .inl (.inr hl)

/-- An inline comment opens at a slash behind a slash. -/
theorem openingAt_inline_iff {t : Text} {i : Nat} :
    openingAt t i = .inline ↔ t.byteAt i = slash ∧ t.byteBefore i = slash := by
  constructor
  · intro h
    unfold openingAt at h
    repeat' split at h
    all_goals simp_all
  · rintro ⟨hs, hb⟩
    have hlt : i < t.length := lt_length_of_byteAt (by rw [hs]; decide)
    have hq : Quote.ofByte? slash = none := rfl
    rw [openingAt, if_pos hlt,
      opensUrl_eq_false (Nat.le_refl i) (by omega) (by rw [hs]; decide), hs, hq, hb]
    decide

/-- `url(` stands inside the text. -/
theorem lt_length_of_opensUrl {t : Text} {i : Nat} (h : opensUrl t i = true) :
    i + 3 < t.length := by
  simp only [opensUrl, Bool.and_eq_true, decide_eq_true_eq] at h
  exact lt_length_of_byteAt (by rw [h.2]; decide)

/-- A capital letter is the upper case of two bytes, itself and the small letter. -/
theorem upper_eq_iff {letter b : UInt8} (h : 65 ≤ letter ∧ letter ≤ 90) :
    upper b = letter ↔ b = letter + 32 ∨ b = letter := by
  unfold upper
  grind

theorem upper_eq_openParen {b : UInt8} : upper b = openParen ↔ b = openParen := by
  unfold upper
  grind

/-- Comparing upper case is comparing with both cases of each letter. -/
theorem startsUrl_eq_opensUrl (s : Text) : startsUrl s = opensUrl s 0 := by
  have hurl : ascii "URL(" = [85, 82, 76, openParen] := by decide
  have hu : ascii "uU" = [85 + 32, 85] := by decide
  have hr : ascii "rR" = [82 + 32, 82] := by decide
  have hl : ascii "lL" = [76 + 32, 76] := by decide
  rw [Bool.eq_iff_iff]
  simp only [startsUrl, opensUrl, hurl, hu, hr, hl, decide_eq_true_eq, Bool.and_eq_true,
    List.contains_eq_mem, List.mem_cons, List.not_mem_nil, or_false]
  match s with
  | [] | [_] | [_, _] | [_, _, _] => simp [byteAt, openParen]
  | a :: b :: c :: d :: rest =>
    simp [byteAt, upper_eq_openParen, upper_eq_iff]
    grind

/-- Whether a `url(` begins at an offset depends on what follows it alone. -/
theorem opensUrl_drop (t : Text) (i : Nat) : opensUrl (t.drop i) 0 = opensUrl t i := by
  simp only [opensUrl, byteAt_drop, Nat.add_zero, Nat.zero_add]

/-- A string that is read to its end has two bytes at least. -/
theorem lt_of_stringSegment {t : Text} {q : Quote} {inUrl u : Bool} {start j : Nat}
    {comment : Option Extent} (h : stringSegment t q inUrl start = .upTo u j comment) :
    start + 1 < j ∧ j ≤ t.length := by
  rw [stringSegment_eq] at h
  split at h
  · next k hk =>
    obtain ⟨h₁, h₂, -, -⟩ := firstFrom_eq_some.mp hk
    split at h
    · cases h
      omega
    · cases h
  · cases h

/-- A segment inside a `url(` takes a byte at least. -/
theorem lt_of_urlSegment {t : Text} {u : Bool} {i j : Nat} {comment : Option Extent}
    (h : urlSegment t i = .upTo u j comment) : i < j ∧ j ≤ t.length := by
  rw [urlSegment] at h
  split at h
  · cases h
  · next k hk =>
    obtain ⟨h₁, h₂, -, -⟩ := firstFrom_eq_some.mp hk
    split at h
    · cases h
      omega
    · split at h
      · have := lt_of_stringSegment h
        omega
      · cases h

/-- A block comment that is read to its end has a byte behind its start. -/
theorem lt_of_blockSegment {t : Text} {u : Bool} {start j : Nat} {comment : Option Extent}
    (h : blockSegment t start = .upTo u j comment) : start + 1 < j ∧ j ≤ t.length := by
  rw [blockSegment] at h
  split at h
  · next k hk =>
    obtain ⟨h₁, h₂, -, -⟩ := firstFrom_eq_some.mp hk
    cases h
    omega
  · cases h

/-- An inline comment that is read to its end has a line break behind it. -/
theorem lt_of_inlineSegment {t : Text} {u : Bool} {start j : Nat} {comment : Option Extent}
    (h : inlineSegment t start = .upTo u j comment) : start + 1 < j ∧ j ≤ t.length := by
  rw [inlineSegment, lineBreak?] at h
  split at h
  · next k hk =>
    obtain ⟨h₁, h₂, -, -⟩ := firstFrom_eq_some.mp hk
    cases h
    omega
  · cases h

/-- A segment is not empty and ends inside the text. -/
theorem lt_of_segment {t : Text} {inUrl u : Bool} {i j : Nat} {comment : Option Extent}
    (h : segment t inUrl i = .upTo u j comment) : i < j ∧ j ≤ t.length := by
  cases inUrl with
  | true => exact lt_of_urlSegment h
  | false =>
    rw [segment, if_neg (by simp), topSegment] at h
    cases ho : openingAt t i with
    | nothing => simp [ho] at h
    | string q =>
      rw [ho] at h
      have := lt_of_stringSegment h
      omega
    | url =>
      have hlt := lt_length_of_opensUrl (opensUrl_of_openingAt ho)
      rw [ho] at h
      cases h
      omega
    | block =>
      rw [ho] at h
      have := lt_of_blockSegment h
      omega
    | inline =>
      rw [ho] at h
      have := lt_of_inlineSegment h
      omega
    | plain =>
      have hlt : ¬ t.length ≤ i := by rw [← openingAt_nothing_iff, ho]; decide
      rw [ho] at h
      cases h
      omega

/-! ## The reader -/

/-- Reads segment by segment from `i` on. -/
def readFrom (t : Text) (inUrl : Bool) (i : Nat) : Outcome :=
  match _h : segment t inUrl i with
  | .ended mode => .finished mode []
  | .broken offset context => .aborted offset context
  | .upTo u j none => readFrom t u j
  | .upTo u j (some comment) => (readFrom t u j).enqueue comment
termination_by t.length - i
decreasing_by
  all_goals
    have := lt_of_segment _h
    omega

/-- Reads a text segment by segment from its first byte. -/
def read (t : Text) : Outcome := readFrom t false 0

/-- What a segment leads to, if `next` reads on after it. -/
def Segment.resume (next : Bool → Nat → Outcome) : Segment → Outcome
  | .ended mode => .finished mode []
  | .broken offset context => .aborted offset context
  | .upTo u j none => next u j
  | .upTo u j (some comment) => (next u j).enqueue comment

/-- Reading is reading a segment and going on behind it. -/
theorem readFrom_eq (t : Text) (inUrl : Bool) (i : Nat) :
    readFrom t inUrl i = (segment t inUrl i).resume (readFrom t) := by
  rw [readFrom]
  split <;> simp_all [Segment.resume]

/-- What comes after a segment matters only where the segment ends. -/
theorem Segment.resume_congr {s : Segment} {next next' : Bool → Nat → Outcome}
    (h : ∀ u j comment, s = .upTo u j comment → next u j = next' u j) :
    s.resume next = s.resume next' := by
  cases s with
  | ended mode => rfl
  | broken offset context => rfl
  | upTo u j comment =>
    have hj := h u j comment rfl
    cases comment with
    | none => exact hj
    | some comment => rw [resume, resume, hj]

/-! ## Byte by byte -/

/-- Where a reader between two segments stands. -/
def place (inUrl : Bool) : Mode := if inUrl then .url else .top

/-- Reads `t` byte by byte from `i` on, in the mode `m`. -/
def scanAt (t : Text) (m : Mode) (i : Nat) : Outcome :=
  scanFrom m i (t.byteBefore i) (t.drop i)

/-- What the byte at `i` does in the mode `m`. -/
def moveAt (t : Text) (m : Mode) (i : Nat) : Move :=
  m.move i (t.byteBefore i) (t.byteAt i) (t.drop (i + 1))

/-- The loop ends with the text. -/
theorem scanAt_of_length_le {t : Text} {i : Nat} (h : t.length ≤ i) (m : Mode) :
    scanAt t m i = .finished m [] := by
  rw [scanAt, List.drop_eq_nil_of_le h, scanFrom_nil]

/-- One round of the loop: the byte at the offset, and the rest in the mode that it leaves. -/
theorem scanAt_eq {t : Text} {i : Nat} (h : i < t.length) (m : Mode) :
    scanAt t m i =
      match moveAt t m i with
      | .go next => scanAt t next (i + 1)
      | .queue comment => (scanAt t .top (i + 1)).enqueue comment
      | .stop => .aborted i m.context := by
  rw [scanAt, drop_eq_byteAt_cons h, scanFrom_cons, ← moveAt]
  cases moveAt t m i with
  | go next =>
    show scanFrom next (i + 1) (t.byteAt i) (t.drop (i + 1)) = scanAt t next (i + 1)
    rw [scanAt, byteBefore_succ]
  | queue comment =>
    show (scanFrom .top (i + 1) (t.byteAt i) (t.drop (i + 1))).enqueue comment =
      (scanAt t .top (i + 1)).enqueue comment
    rw [scanAt, byteBefore_succ]
  | stop => rfl

/-- A stretch that keeps the mode may be skipped. -/
theorem scanAt_of_stays {t : Text} {m : Mode} {i j : Nat} (hij : i ≤ j) (hj : j ≤ t.length)
    (h : ∀ k, i ≤ k → k < j → moveAt t m k = .go m) : scanAt t m i = scanAt t m j := by
  obtain ⟨d, rfl⟩ := Nat.exists_eq_add_of_le hij
  induction d with
  | zero => rfl
  | succ d ih =>
    rw [ih (by omega) (by omega) fun l hil hlk => h l hil (by omega), scanAt_eq (by omega),
      h (i + d) (by omega) (by omega)]
    rfl

/-- A mode that only bytes with the property `p` end is kept up to the first of them. -/
theorem scanAt_firstFrom {t : Text} {m : Mode} {i : Nat} {p : Nat → Bool} (hi : i ≤ t.length)
    (h : ∀ k, i ≤ k → p k = false → moveAt t m k = .go m) :
    scanAt t m i =
      match t.firstFrom i p with
      | some j => scanAt t m j
      | none => .finished m [] := by
  split
  · next j hj =>
    obtain ⟨h₁, h₂, -, hmin⟩ := firstFrom_eq_some.mp hj
    exact scanAt_of_stays h₁ (by omega) fun k hk hkj => h k hk (hmin k hk hkj)
  · next hn =>
    have hnone := firstFrom_eq_none.mp hn
    rw [scanAt_of_stays hi (Nat.le_refl _) fun k hk hlt => h k hk (hnone k hk hlt),
      scanAt_of_length_le (Nat.le_refl _)]

/-! ## One segment at a time -/

/-- The loop reads a string as a segment. -/
theorem scanAt_string {t : Text} {start : Nat} (hs : start < t.length) (q : Quote) (inUrl : Bool) :
    scanAt t (.string q inUrl) (start + 1) =
      (stringSegment t q inUrl start).resume fun u j => scanAt t (place u) j := by
  have hmove : ∀ k, moveAt t (.string q inUrl) k =
      if closesString t q k then .go (place inUrl)
      else if isLineBreak (t.byteAt k) then .stop
      else .go (.string q inUrl) := by
    intro k
    simp [moveAt, Mode.move, closesString, place]
  have hskip := scanAt_firstFrom (m := .string q inUrl) (i := start + 1)
    (p := fun j => closesString t q j || isLineBreak (t.byteAt j)) hs fun k _ hk => by
      rw [Bool.or_eq_false_iff] at hk
      rw [hmove, hk.1, hk.2]
      rfl
  rw [hskip, stringSegment_eq]
  cases hj : t.firstFrom (start + 1) fun j => closesString t q j || isLineBreak (t.byteAt j) with
  | none => rfl
  | some j =>
    obtain ⟨-, hlt, hstop, -⟩ := firstFrom_eq_some.mp hj
    dsimp only
    rw [scanAt_eq hlt, hmove]
    by_cases hq : closesString t q j = true
    · rw [if_pos hq, if_pos hq]
      rfl
    · rw [Bool.or_eq_true, or_iff_right hq] at hstop
      rw [if_neg hq, if_neg hq, if_pos hstop]
      rfl

/-- The loop reads the inside of a `url(` as a segment. -/
theorem scanAt_url {t : Text} {i : Nat} (hi : i ≤ t.length) :
    scanAt t .url i = (urlSegment t i).resume fun u j => scanAt t (place u) j := by
  have hmove : ∀ k, moveAt t .url k =
      if t.byteAt k = closeParen then .go .top
      else if isLineBreak (t.byteAt k) then .stop
      else match Quote.ofByte? (t.byteAt k) with
        | some q => .go (.string q true)
        | none => .go .url := fun k => rfl
  have hskip := scanAt_firstFrom (m := .url) (p := stopsUrl t) hi fun k _ hk => by
    rw [stopsUrl, Bool.or_eq_false_iff, Bool.or_eq_false_iff] at hk
    obtain ⟨⟨hp, hb⟩, hq⟩ := hk
    rw [hmove, if_neg (of_decide_eq_false hp), hb, Quote.ofByte?_eq_none_iff.mpr hq]
    rfl
  rw [hskip, urlSegment]
  cases hj : t.firstFrom i (stopsUrl t) with
  | none => rfl
  | some j =>
    obtain ⟨-, hlt, hstop, -⟩ := firstFrom_eq_some.mp hj
    dsimp only
    rw [scanAt_eq hlt, hmove]
    by_cases hp : t.byteAt j = closeParen
    · rw [if_pos hp, if_pos hp]
      rfl
    · rw [if_neg hp, if_neg hp]
      cases hq : Quote.ofByte? (t.byteAt j) with
      | none =>
        rw [stopsUrl, Quote.ofByte?_eq_none_iff.mp hq, Bool.or_false, Bool.or_eq_true,
          decide_eq_true_eq, or_iff_right hp] at hstop
        rw [if_pos hstop]
        rfl
      | some q =>
        have hb : isLineBreak (t.byteAt j) = false := by
          rw [Quote.ofByte?_eq_some.mp hq, Quote.isLineBreak_byte]
        rw [hb]
        exact scanAt_string hlt q true

/-- The loop reads a block comment as a segment. -/
theorem scanAt_block {t : Text} {start : Nat} (hs : start < t.length) :
    scanAt t .block (start + 1) =
      (blockSegment t start).resume fun u j => scanAt t (place u) j := by
  have hmove : ∀ k, moveAt t .block k = if closesBlock t k then .go .top else .go .block := by
    intro k
    simp [moveAt, Mode.move, closesBlock]
  have hskip := scanAt_firstFrom (m := .block) (i := start + 1) (p := closesBlock t) hs
    fun k _ hk => by rw [hmove, hk]; rfl
  rw [hskip, blockSegment]
  cases hj : t.firstFrom (start + 1) (closesBlock t) with
  | none => rfl
  | some j =>
    obtain ⟨-, hlt, hstop, -⟩ := firstFrom_eq_some.mp hj
    dsimp only
    rw [scanAt_eq hlt, hmove, if_pos hstop]
    rfl

/-- There is a quote between two offsets if a byte there is one. -/
theorem quotedBetween_iff {t : Text} {start stop : Nat} (h : stop ≤ t.length) :
    quotedBetween t start stop = true ↔
      ∃ p, start < p ∧ p < stop ∧ isQuote (t.byteAt p) = true := by
  rw [quotedBetween, any_slice_iff h]
  simp only [Nat.succ_le_iff]

/-- One more byte may be one more quote. -/
theorem quotedBetween_succ {t : Text} {start k : Nat} (hk : start < k) (h : k < t.length) :
    quotedBetween t start (k + 1) = (quotedBetween t start k || isQuote (t.byteAt k)) := by
  rw [Bool.eq_iff_iff, Bool.or_eq_true, quotedBetween_iff h, quotedBetween_iff (by omega)]
  constructor
  · rintro ⟨p, h₁, h₂, hq⟩
    rcases Nat.lt_succ_iff_lt_or_eq.mp h₂ with hp | rfl
    · exact .inl ⟨p, h₁, hp, hq⟩
    · exact .inr hq
  · rintro (⟨p, h₁, h₂, hq⟩ | hq)
    · exact ⟨p, h₁, by omega, hq⟩
    · exact ⟨k, hk, by omega, hq⟩

/-- Inside an inline comment nothing is kept but whether there was a quote. -/
theorem scanAt_inline_skip {t : Text} {origin start stop : Nat} (hs : start < stop)
    (hlen : stop ≤ t.length)
    (h : ∀ k, start < k → k < stop → isLineBreak (t.byteAt k) = false) :
    scanAt t (.inline origin false) (start + 1) =
      scanAt t (.inline origin (quotedBetween t start stop)) stop := by
  obtain ⟨d, rfl⟩ := Nat.exists_eq_add_of_le hs
  induction d with
  | zero =>
    have hnone : quotedBetween t start (start + 1) = false := by
      rw [← Bool.not_eq_true, quotedBetween_iff hlen]
      rintro ⟨p, h₁, h₂, -⟩
      omega
    rw [Nat.add_zero, hnone]
  | succ d ih =>
    have hb := h (start + 1 + d) (by omega) (by omega)
    rw [ih (by omega) (by omega) fun k h₁ h₂ => h k h₁ (by omega), scanAt_eq (by omega),
      moveAt, Mode.move, hb, ← Nat.add_assoc, quotedBetween_succ (by omega) (by omega)]
    cases isQuote (t.byteAt (start + 1 + d)) with
    | true => rw [Bool.or_true]; rfl
    | false => rw [Bool.or_false]; rfl

/-- The loop reads an inline comment as a segment, and queues it if a quote was in it. -/
theorem scanAt_inline {t : Text} {start : Nat} (hs : start < t.length) :
    scanAt t (.inline (start - 1) false) (start + 1) =
      (inlineSegment t start).resume fun u j => scanAt t (place u) j := by
  rw [inlineSegment, lineBreak?]
  cases hk : t.firstFrom (start + 1) fun k => isLineBreak (t.byteAt k) with
  | none =>
    have hnone := firstFrom_eq_none.mp hk
    rw [scanAt_inline_skip hs (Nat.le_refl _) hnone, scanAt_of_length_le (Nat.le_refl _)]
    rfl
  | some k =>
    obtain ⟨h₁, hlt, hb, hmin⟩ := firstFrom_eq_some.mp hk
    have hq : isQuote (t.byteAt k) = false := isQuote_eq_false_of_isLineBreak hb
    rw [scanAt_inline_skip h₁ (by omega) hmin, scanAt_eq hlt, moveAt, Mode.move, hq, hb]
    dsimp only
    cases quotedBetween t start k <;> rfl

/-- The four bytes of `url(` are read one after another. -/
theorem scanAt_urlName {t : Text} {i : Nat} (h : i + 3 < t.length) :
    scanAt t (.urlName 3) (i + 1) = scanAt t .url (i + 4) := by
  calc scanAt t (.urlName 3) (i + 1)
      = scanAt t (.urlName 2) (i + 2) := scanAt_eq (by omega) _
    _ = scanAt t (.urlName 1) (i + 3) := scanAt_eq (by omega) _
    _ = scanAt t .url (i + 4) := scanAt_eq (by omega) _

/-- The loop reads what begins outside of everything as a segment. -/
theorem scanAt_top {t : Text} {i : Nat} :
    scanAt t .top i = (topSegment t i).resume fun u j => scanAt t (place u) j := by
  have hmove : i < t.length → moveAt t .top i =
      match openingAt t i with
      | .string q => .go (.string q false)
      | .url => .go (.urlName 3)
      | .block => .go .block
      | .inline => .go (.inline (i - 1) false)
      | _ => .go .top := by
    intro hi
    rw [moveAt, Mode.move, ← drop_eq_byteAt_cons hi, startsUrl_eq_opensUrl, opensUrl_drop,
      openingAt, if_pos hi]
    cases Quote.ofByte? (t.byteAt i) with
    | some q => rfl
    | none =>
      dsimp only
      repeat' split
      all_goals simp_all
  rw [topSegment]
  by_cases hi : i < t.length
  · rw [scanAt_eq hi, hmove hi]
    cases ho : openingAt t i with
    | nothing => exact absurd (openingAt_nothing_iff.mp ho) (by omega)
    | string q => exact scanAt_string hi q false
    | url => exact scanAt_urlName (lt_length_of_opensUrl (opensUrl_of_openingAt ho))
    | block => exact scanAt_block hi
    | inline => exact scanAt_inline hi
    | plain => rfl
  · rw [openingAt_nothing_iff.mpr (by omega), scanAt_of_length_le (by omega)]
    rfl

/-- Over one segment the byte-by-byte reading does what the segment says. -/
theorem scanAt_segment {t : Text} {i : Nat} (hi : i ≤ t.length) (inUrl : Bool) :
    scanAt t (place inUrl) i =
      (segment t inUrl i).resume fun u j => scanAt t (place u) j := by
  cases inUrl with
  | true => exact scanAt_url hi
  | false => exact scanAt_top

/-- From any offset on, both readings have the same outcome. -/
theorem scanAt_eq_readFrom {t : Text} {i : Nat} (hi : i ≤ t.length) (inUrl : Bool) :
    scanAt t (place inUrl) i = readFrom t inUrl i := by
  -- on the number of bytes that are left, of which every segment takes some
  induction hn : t.length - i using Nat.strongRecOn generalizing i inUrl with
  | _ n ih =>
    rw [scanAt_segment hi, readFrom_eq]
    refine Segment.resume_congr fun u j comment hseg => ?_
    obtain ⟨hij, hj⟩ := lt_of_segment hseg
    exact ih (t.length - j) (by omega) hj u rfl

/-- The reading of a text is that by segments from its first byte on. -/
theorem scan_eq_readFrom (t : Text) : scan t = readFrom t false 0 := by
  rw [scan_eq_scanFrom]
  exact scanAt_eq_readFrom (Nat.zero_le _) false

/-- **The byte-by-byte reading of a text is its reading by segments.** -/
theorem scan_eq_read (t : Text) : scan t = read t := scan_eq_readFrom t

end Comment

end StyleSpan
