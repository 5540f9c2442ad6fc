import StyleSpan.Proofs.Comment.Edits
import StyleSpan.Proofs.Comment.Strings
import StyleSpan.Proofs.Comment.Tokens

/-!
# StyleSpan.Proofs.Comment.Lookback

A reading by bytes and a reading by tokens.  The first looks one byte back, into
whatever stands there, and so takes the slash that closes a block comment for the
first one of the next comment, and the star that opens one for the star that
closes it.  Where no block comment gives it the occasion (`StandsClear`), it goes
from token to token and queues the inline comments among them; where one does,
it may queue a piece of a block comment.

* `queue?_scanAt` — over one token;
* `queue?_scanAt_eq` — over all of them, from any offset on;
* `queue_of_standsClear` — over a whole text.
-/

namespace StyleSpan

open Text

namespace Comment

variable {t : Text} {inUrl u : Bool} {i : Nat} {k : Token}

/-! ## Between two tokens -/

/-- The queue of a reading that reaches the end of the text. -/
def Outcome.queue? : Outcome → Option (List Extent)
  | .finished _ queue => some queue
  | .aborted _ _ => none

@[simp] theorem Outcome.queue?_finished (m : Mode) (queue : List Extent) :
    (Outcome.finished m queue).queue? = some queue := rfl

@[simp] theorem Outcome.queue?_aborted (offset : Nat) (context : Context) :
    (Outcome.aborted offset context).queue? = none := rfl

@[simp] theorem Outcome.queue?_enqueue (o : Outcome) (c : Extent) :
    (o.enqueue c).queue? = o.queue?.map (c :: ·) := by
  cases o <;> rfl

/-- What a token adds to the queue: an inline comment that a line break closes and that
holds a quote. -/
def Token.queued (t : Text) (k : Token) : List Extent :=
  if k.kind = .inline ∧ k.extent.stop < t.length ∧ holdsQuote t k.extent = true then [k.extent]
  else []

/-- A token queues its own bytes, if it is an inline comment with a quote that a line break ends. -/
theorem mem_queued_iff {c : Extent} : c ∈ k.queued t ↔
    c = k.extent ∧ k.kind = .inline ∧ k.extent.stop < t.length ∧ holdsQuote t k.extent = true := by
  rw [Token.queued]
  split <;> simp_all

/-- No comment begins with the byte before `i`: a reader between two tokens that looks
one byte back sees nothing there. -/
def SeesNoComment (t : Text) (inUrl : Bool) (i : Nat) : Prop :=
  inUrl = false → t.byteBefore i = slash → t.byteAt i ≠ slash ∧ t.byteAt i ≠ star

/-- A block comment stands clear if its opening star is not behind it taken for the star that
closes it, nor its closing slash for the slash that opens the next comment. -/
structure StandsClear (t : Text) (b : Extent) : Prop where
  slash_behind_star : t.byteAt (b.start + 2) ≠ slash
  slash_after : t.byteAt b.stop ≠ slash
  star_after : t.byteAt b.stop ≠ star

/-- Behind the end of the text nothing is queued. -/
theorem scanAt_of_ge (h : t.length ≤ i) (m : Mode) : (scanAt t m i).queue? = some [] := by
  rw [scanAt_of_length_le h, Outcome.queue?_finished]

/-- A quote opens a string, inside a `url(` and outside. -/
theorem scanAt_openingQuote {q : Quote} (hi : i < t.length)
    (hq : Quote.ofByte? (t.byteAt i) = some q) (inUrl : Bool) :
    scanAt t (place inUrl) i = scanAt t (.string q inUrl) (i + 1) := by
  rw [scanAt, scanAt, drop_eq_byteAt_cons hi, Quote.ofByte?_eq_some.mp hq, scanFrom_openingQuote,
    byteBefore_succ, Quote.ofByte?_eq_some.mp hq]

/-- A string ends for a reading by bytes where it ends as a token. -/
theorem queue?_scanAt_string (hi : i < t.length) (q : Quote) (inUrl : Bool) :
    (scanAt t (.string q inUrl) (i + 1)).queue? =
      (stringEnd? t q i).bind fun j => (scanAt t (place inUrl) j).queue? := by
  rw [scanAt_string hi, stringSegment_eq, stringEnd?]
  cases t.firstFrom (i + 1) fun j => closesString t q j || isLineBreak (t.byteAt j) with
  | none => simp [Segment.resume, scanAt_of_ge (Nat.le_refl t.length)]
  | some j =>
    dsimp only
    by_cases hq : closesString t q j = true <;> simp [hq, Segment.resume]

/-- A byte is code if it opens nothing and is not the second byte of a comment. -/
theorem openingAt_plain (hi : i < t.length) (hq : isQuote (t.byteAt i) = false)
    (hurl : opensUrl t i = false)
    (hsees : t.byteBefore i = slash → t.byteAt i ≠ slash ∧ t.byteAt i ≠ star) :
    openingAt t i = .plain := by
  rw [openingAt, if_pos hi, Quote.ofByte?_eq_none_iff.mpr hq, hurl]
  by_cases hs : t.byteBefore i = slash
  · simp [hsees hs]
  · simp [hs]

/-- A byte at which nothing opens is passed over. -/
theorem scanAt_plain (h : openingAt t i = .plain) : scanAt t .top i = scanAt t .top (i + 1) := by
  rw [scanAt_top, topSegment, h]
  rfl

/-- A `url(` begins with its first letter. -/
theorem opensUrl_eq_false_of_byteAt (h : (ascii "uU").contains (t.byteAt i) = false) :
    opensUrl t i = false := by
  rw [opensUrl, h]
  rfl

/-- Before the second byte of a comment a reading by bytes sees a plain slash. -/
theorem openingAt_slash (hs : t.byteAt i = slash) (hsees : SeesNoComment t false i) :
    openingAt t i = .plain := by
  have hlt : i < t.length := lt_length_of_byteAt (by rw [hs]; decide)
  exact openingAt_plain hlt (by rw [hs]; rfl)
    (opensUrl_eq_false_of_byteAt (by rw [hs]; decide)) (hsees rfl)

/-- A star behind a slash opens a block comment. -/
theorem openingAt_block {t : Text} {i : Nat} (hstar : t.byteAt i = star)
    (hs : t.byteBefore i = slash) : openingAt t i = .block := by
  have hlt : i < t.length := lt_length_of_byteAt (by rw [hstar]; decide)
  have hq : Quote.ofByte? star = none := rfl
  rw [openingAt, if_pos hlt, opensUrl_eq_false_of_byteAt (by rw [hstar]; decide), hstar, hq, hs]
  decide

/-- If the star of a block comment does not close it, a reading by bytes leaves it at its end. -/
theorem queue?_scanAt_blockComment (hs : t.byteAt i = slash) (hstar : t.byteAt (i + 1) = star)
    (hsees : SeesNoComment t false i) (hclear : t.byteAt (i + 2) ≠ slash) :
    (scanAt t .top i).queue? = (scanAt t .top (blockEnd t i)).queue? := by
  have hlt : i + 1 < t.length := lt_length_of_byteAt (by rw [hstar]; decide)
  have hopen : openingAt t (i + 1) = .block :=
    openingAt_block hstar (by rw [byteBefore_succ, hs])
  have hnot : closesBlock t (i + 2) = false := by simp [closesBlock, hclear]
  rw [scanAt_plain (openingAt_slash hs hsees), scanAt_top, topSegment, hopen, blockEnd]
  dsimp only
  rw [blockSegment, firstFrom_succ hnot]
  cases t.firstFrom (i + 3) (closesBlock t) with
  | none => simp [Segment.resume, scanAt_of_ge (Nat.le_refl t.length)]
  | some j => rfl

theorem ne_of_isLineBreak {a b : UInt8} (ha : isLineBreak a = true) (hb : isLineBreak b = false) :
    a ≠ b := by
  rintro rfl
  rw [hb] at ha
  cases ha

/-- Outside of everything a line break is passed over. -/
theorem scanAt_lineBreak (hb : isLineBreak (t.byteAt i) = true) :
    scanAt t .top i = scanAt t .top (i + 1) := by
  have hlt : i < t.length := lt_length_of_byteAt (ne_of_isLineBreak hb rfl)
  have hurl : (ascii "uU").contains (t.byteAt i) = false := by
    have hletters : ascii "uU" = [117, 85] := by decide
    simp [hletters, ne_of_isLineBreak hb (show isLineBreak 117 = false from rfl),
      ne_of_isLineBreak hb (show isLineBreak 85 = false from rfl)]
  exact scanAt_plain (openingAt_plain hlt (isQuote_eq_false_of_isLineBreak hb)
    (opensUrl_eq_false_of_byteAt hurl)
    fun _ => ⟨ne_of_isLineBreak hb rfl, ne_of_isLineBreak hb rfl⟩)

/-- An inline comment is queued by a reading by bytes as it is as a token. -/
theorem queue?_scanAt_inlineComment (hs : t.byteAt i = slash) (hs' : t.byteAt (i + 1) = slash)
    (hsees : SeesNoComment t false i) :
    (scanAt t .top i).queue? =
      (scanAt t .top (inlineEnd t i)).queue?.map
        (Token.queued t ⟨.inline, ⟨i, inlineEnd t i⟩⟩ ++ ·) := by
  have hopen : openingAt t (i + 1) = .inline :=
    openingAt_inline_iff.mpr ⟨hs', by rw [byteBefore_succ, hs]⟩
  rw [scanAt_plain (openingAt_slash hs hsees), scanAt_top, topSegment, hopen, inlineEnd]
  dsimp only
  rw [inlineSegment]
  cases hk : lineBreak? t (i + 1) with
  | none => simp [Segment.resume, Token.queued, scanAt_of_ge (Nat.le_refl t.length)]
  | some l =>
    obtain ⟨h₁, hlt, hb, -⟩ := firstFrom_eq_some.mp hk
    have hquoted : holdsQuote t ⟨i, l⟩ = quotedBetween t (i + 1) l :=
      holdsQuote_eq_quotedBetween (Nat.le_of_lt hlt) hs hs'
    simp only [Option.getD_some, Nat.add_sub_cancel, Token.queued, hlt, hquoted,
      scanAt_lineBreak hb]
    by_cases hq : quotedBetween t (i + 1) l = true <;> simp [hq, Segment.resume, place]

/-! ## One token at a time -/

/-- Inside a `url( )` a reading by bytes takes the same token. -/
theorem queue?_scanAt_url (hi : i < t.length) :
    (scanAt t .url i).queue? = (urlToken? t i).bind fun next =>
      (scanAt t (place next.2) next.1.extent.stop).queue?.map (next.1.queued t ++ ·) := by
  rw [urlToken?, if_pos hi]
  cases hq : Quote.ofByte? (t.byteAt i) with
  | some q =>
    have hopen : scanAt t .url i = scanAt t (.string q true) (i + 1) :=
      scanAt_openingQuote hi hq true
    rw [hopen, queue?_scanAt_string hi]
    dsimp only
    cases stringEnd? t q i with
    | none => rfl
    | some j => simp [Token.queued]
  | none =>
    have hmove : moveAt t .url i =
        if t.byteAt i = closeParen then .go .top
        else if isLineBreak (t.byteAt i) then .stop else .go .url := by
      rw [moveAt, Mode.move, hq]
    rw [scanAt_eq hi, hmove]
    by_cases hp : t.byteAt i = closeParen
    · have hb : isLineBreak closeParen = false := rfl
      simp [hp, hb, Token.queued, place]
    · by_cases hb : isLineBreak (t.byteAt i) = true
      · simp [hp, hb]
      · simp [hp, hb, Token.queued, place]

/-- Outside of a `url( )` a reading by bytes takes the same token, if it sees no comment where
none begins and the star of a block comment does not close it. -/
theorem queue?_scanAt_topToken (hi : i < t.length) (hsees : SeesNoComment t false i)
    (hclear : beginningAt t i = .block → t.byteAt (i + 2) ≠ slash) :
    (scanAt t .top i).queue? = (topToken? t i).bind fun next =>
      (scanAt t (place next.2) next.1.extent.stop).queue?.map (next.1.queued t ++ ·) := by
  rw [topToken?]
  cases hb : beginningAt t i with
  | nothing => exact absurd (beginningAt_nothing_iff.mp hb) (by omega)
  | string q =>
    have hopen : scanAt t .top i = scanAt t (.string q false) (i + 1) :=
      scanAt_openingQuote hi (ofByte?_of_beginningAt hb) false
    rw [hopen, queue?_scanAt_string hi]
    dsimp only
    cases stringEnd? t q i with
    | none => rfl
    | some j => simp [Token.queued]
  | url =>
    have hurl := opensUrl_of_beginningAt hb
    have hopen : openingAt t i = .url := by
      rw [beginningAt, if_pos hi] at hb
      rw [openingAt, if_pos hi]
      cases hq : Quote.ofByte? (t.byteAt i) with
      | some q => simp [hq] at hb
      | none => rw [hurl]; rfl
    simp [scanAt_top, topSegment, hopen, Segment.resume, Token.queued]
  | block =>
    obtain ⟨hs, hstar⟩ := slash_star_of_beginningAt hb
    simp [queue?_scanAt_blockComment hs hstar hsees (hclear hb), Token.queued, place]
  | inline =>
    obtain ⟨hs, hs'⟩ := slash_slash_of_beginningAt hb
    simp [queue?_scanAt_inlineComment hs hs' hsees, place]
  | plain =>
    have hplain : openingAt t i = .plain := by
      obtain ⟨hq, hurl⟩ := plain_of_beginningAt hb
      exact openingAt_plain hi hq hurl (hsees rfl)
    simp [scanAt_plain hplain, Token.queued, place]

/-- A reading by bytes over one token. -/
theorem queue?_scanAt (hi : i < t.length) (hsees : SeesNoComment t inUrl i)
    (hclear : ∀ k ∈ tokensFrom t inUrl i, k.kind = .block → StandsClear t k.extent) :
    (scanAt t (place inUrl) i).queue? = (nextToken? t inUrl i).bind fun next =>
      (scanAt t (place next.2) next.1.extent.stop).queue?.map (next.1.queued t ++ ·) := by
  cases inUrl with
  | true => exact queue?_scanAt_url hi
  | false =>
    refine queue?_scanAt_topToken hi hsees fun hb => ?_
    have hnext : nextToken? t false i = some (⟨.block, ⟨i, blockEnd t i⟩⟩, false) := by
      rw [nextToken?, if_neg (by simp), topToken?, hb]
    have hmem : ⟨.block, ⟨i, blockEnd t i⟩⟩ ∈ tokensFrom t false i := by
      simp [tokensFrom_of_some hnext]
    exact (hclear _ hmem rfl).slash_behind_star

/-- Behind a token no comment seems to begin with its last byte, unless it is a block comment
that does not stand clear. -/
theorem seesNoComment_of_nextToken? (h : nextToken? t inUrl i = some (k, u))
    (hclear : k.kind = .block → StandsClear t k.extent) :
    SeesNoComment t u k.extent.stop := by
  have hend_of_text : ∀ u, SeesNoComment t u t.length := fun u _ _ => by
    rw [byteAt_of_length_le (Nat.le_refl _)]
    decide
  have hbyte : ∀ {u j}, t.byteBefore j ≠ slash → SeesNoComment t u j :=
    fun hne _ hs => absurd hs hne
  cases isToken_of_nextToken? h with
  | @string _ q _ j hi hend =>
    rcases stringEnd?_eq_some hend with hstop | ⟨-, -, hq⟩
    · dsimp only
      rw [hstop]
      exact hend_of_text _
    · exact hbyte (by rw [hq]; cases q <;> decide)
  | urlName hurl => exact fun hu => absurd hu (by simp)
  | block hs hstar =>
    obtain ⟨-, hslash, hstar'⟩ := hclear rfl
    exact fun _ _ => ⟨hslash, hstar'⟩
  | inline hs hs' =>
    dsimp only [inlineEnd]
    cases hbreak : lineBreak? t (i + 1) with
    | none => exact hend_of_text false
    | some l =>
      obtain ⟨-, -, hb, -⟩ := firstFrom_eq_some.mp hbreak
      exact fun _ _ => ⟨ne_of_isLineBreak hb rfl, ne_of_isLineBreak hb rfl⟩
  | plain hi hnot => exact fun _ hs => hnot (by simpa using hs)
  | urlByte hi =>
    intro hu
    have hp : t.byteAt i = closeParen := by simpa using hu
    exact hbyte (by rw [byteBefore_succ, hp]; decide) hu

/-! ## All tokens -/

/-- From any offset on, if every block comment stands clear and a reading by bytes reaches the
end: so does the reading by tokens, and the queue is that of the tokens. -/
theorem queue?_scanAt_eq (hi : i ≤ t.length) (hsees : SeesNoComment t inUrl i)
    (hclear : ∀ k ∈ tokensFrom t inUrl i, k.kind = .block → StandsClear t k.extent)
    {queue : List Extent} (h : (scanAt t (place inUrl) i).queue? = some queue) :
    queue = (tokensFrom t inUrl i).flatMap (Token.queued t) ∧
      ∀ p, i ≤ p → p < t.length → ∃ k ∈ tokensFrom t inUrl i, k.extent.contains p = true := by
  induction inUrl, i using tokensFrom_induction (t := t) generalizing queue with
  | done inUrl i hnone =>
    rcases Nat.eq_or_lt_of_le hi with rfl | hlt
    · rw [scanAt_of_ge (Nat.le_refl _)] at h
      rw [tokensFrom_of_none hnone, List.flatMap_nil]
      exact ⟨(Option.some.inj h).symm, fun p hp hlt => by omega⟩
    · rw [queue?_scanAt hlt hsees hclear, hnone] at h
      cases h
  | step inUrl i k u hk ih =>
    obtain ⟨hstart, hstop, hlen⟩ := bounds_of_nextToken? hk
    rw [queue?_scanAt (by omega) hsees hclear, hk, Option.bind_some] at h
    obtain ⟨rest, hrest, rfl⟩ := Option.map_eq_some_iff.mp h
    rw [tokensFrom_of_some hk] at hclear ⊢
    have hthis := hclear k (List.mem_cons_self ..)
    obtain ⟨hqueue, hcovered⟩ := ih hlen (seesNoComment_of_nextToken? hk hthis)
      (fun l hl => hclear l (List.mem_cons_of_mem k hl)) hrest
    refine ⟨by rw [List.flatMap_cons, hqueue], fun p hp hlt => ?_⟩
    by_cases hin : p < k.extent.stop
    · exact ⟨k, List.mem_cons_self .., by simp [Extent.contains, hstart, hp, hin]⟩
    · obtain ⟨l, hl, hcontains⟩ := hcovered p (by omega) hlt
      exact ⟨l, List.mem_cons_of_mem k hl, hcontains⟩

/-- The block comments of a text are the bytes of its block tokens. -/
theorem mem_blockComments_iff {b : Extent} :
    b ∈ blockComments t ↔ ∃ k ∈ tokens t, k.kind = .block ∧ k.extent = b := by
  simp [blockComments, and_assoc]

/-- **Only inline comments are queued, if every block comment stands clear.**  If a reading by bytes
reaches the end then every byte stands in a token, the queue is that of the tokens, and none of
its comments overlaps a block comment. -/
theorem queue_of_standsClear {m : Mode} {queue : List Extent} (h : scan t = .finished m queue)
    (hclear : ∀ b ∈ blockComments t, StandsClear t b) :
    (∀ p, p < t.length → ∃ k ∈ tokens t, k.extent.contains p = true) ∧
      queue = (tokens t).flatMap (Token.queued t) ∧
      ∀ c ∈ queue, ∀ b ∈ blockComments t, c.Apart b := by
  have hscan : (scanAt t (place false) 0).queue? = some queue := by
    change (scanFrom .top 0 0 t).queue? = some queue
    rw [← scan_eq_scanFrom, h, Outcome.queue?_finished]
  have hsees : SeesNoComment t false 0 := fun _ hs => by
    rw [byteBefore_zero] at hs
    cases hs
  obtain ⟨hqueue, hcovered⟩ := queue?_scanAt_eq (Nat.zero_le _) hsees
    (fun k hk hkind => hclear _ (mem_blockComments_iff.mpr ⟨k, hk, hkind, rfl⟩)) hscan
  refine ⟨fun p hp => hcovered p (Nat.zero_le p) hp, hqueue, fun c hc b hb => ?_⟩
  rw [hqueue, List.mem_flatMap] at hc
  obtain ⟨k, hk, hqueued⟩ := hc
  obtain ⟨rfl, hkind, -, -⟩ := mem_queued_iff.mp hqueued
  obtain ⟨l, hl, hlkind, rfl⟩ := mem_blockComments_iff.mp hb
  have hne : k ≠ l := by
    rintro rfl
    rw [hkind] at hlkind
    cases hlkind
  exact apart_of_mem_tokens hk hl hne

/-- A block comment with a quote, a string and a `url( )` that hold slashes and stars, and one
inline comment. -/
theorem queue_of_standsClear_mixed :
    let t := ascii "/* it's */'//\"/*'url(//)/**/ //'b'\n*/"
    scan t = .finished .top [⟨29, 34⟩] ∧ blockComments t = [⟨0, 10⟩, ⟨24, 28⟩] ∧
      [⟨29, 34⟩] = (tokens t).flatMap (Token.queued t) ∧
      ∀ b ∈ blockComments t, Extent.Apart ⟨29, 34⟩ b := by
  intro t
  have h : scan t = .finished .top [⟨29, 34⟩] := by decide
  have hblocks : blockComments t = [⟨0, 10⟩, ⟨24, 28⟩] := by decide +kernel
  have hclear : ∀ b ∈ blockComments t, StandsClear t b := by
    rw [hblocks]
    intro b hb
    rcases List.mem_cons.mp hb with rfl | hb
    · exact ⟨by decide, by decide, by decide⟩
    · cases List.mem_singleton.mp hb
      exact ⟨by decide, by decide, by decide⟩
  obtain ⟨-, hqueue, hapart⟩ := queue_of_standsClear h hclear
  exact ⟨h, hblocks, hqueue, hapart _ (List.mem_singleton_self _)⟩

/-- None of the three conditions can be left out.  Where one of them fails, a part of a block
comment may be queued: the slash that closes it opens an inline comment, the star that opens it
closes it, or the slash that closes one comment opens another before a star. -/
theorem not_apart_sharedBytes :
    (let t := ascii "/*a*//b \"c\"\n"
     scan t = .finished .top [⟨4, 11⟩] ∧ ⟨0, 5⟩ ∈ blockComments t ∧
       ¬ Extent.Apart ⟨4, 11⟩ ⟨0, 5⟩) ∧
    (let t := ascii "/*/ // it's\n*/"
     scan t = .finished .top [⟨4, 11⟩] ∧ ⟨0, 14⟩ ∈ blockComments t ∧
       ¬ Extent.Apart ⟨4, 11⟩ ⟨0, 14⟩) ∧
    (let t := ascii "/**/*\"*/'\"/*'//\"\n*/"
     scan t = .finished .top [⟨13, 16⟩] ∧ ⟨10, 19⟩ ∈ blockComments t ∧
       ¬ Extent.Apart ⟨13, 16⟩ ⟨10, 19⟩) := by
  decide +kernel

end Comment

end StyleSpan
