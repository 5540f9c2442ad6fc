import Mathlib.Data.List.Pairwise
import StyleSpan.Proofs.Comment.Segments

/-!
# StyleSpan.Proofs.Comment.Tokens

Reading a stylesheet token by token, each byte in one token at most.  What
begins at an offset is told by the bytes from there on, so that no token shares
a byte with the one before it:

```
'...'  "..."   up to the closing quote, as the byte-by-byte reading finds it
url(           four bytes; inside, strings and single bytes up to the parenthesis
/* ... */      through the first star and slash behind the opening two bytes
// ...         up to the first line break
```

Any other byte is a token of its own.

* `isToken_of_nextToken?` — which tokens there are;
* `pairwise_tokensFrom` — they do not overlap.
-/

namespace StyleSpan

open Text

/-- One of the extents ends before the other begins. -/
def Extent.Apart (a b : Extent) : Prop := a.stop ≤ b.start ∨ b.stop ≤ a.start

instance (a b : Extent) : Decidable (a.Apart b) :=
  inferInstanceAs (Decidable (a.stop ≤ b.start ∨ b.stop ≤ a.start))

theorem Extent.Apart.symm {a b : Extent} (h : a.Apart b) : b.Apart a := Or.symm h

namespace Comment

/-! ## Tokens -/

/-- What a token is. -/
inductive TokenKind where
  | string
  | urlName
  | block
  | inline
  | byte
deriving DecidableEq, Repr

/-- A token and the bytes that it covers. -/
structure Token where
  kind : TokenKind
  extent : Extent
deriving DecidableEq, Repr

/-- The end of a string opened at `start`: behind its closing quote, or at the end of
the text; none if a line breaks in it. -/
def stringEnd? (t : Text) (q : Quote) (start : Nat) : Option Nat :=
  match t.firstFrom (start + 1) fun j => closesString t q j || isLineBreak (t.byteAt j) with
  | some j => if closesString t q j then some (j + 1) else none
  | none => some t.length

/-- The end of a block comment opened at `start`: behind the first star and slash that
begin after the two opening bytes, or at the end of the text. -/
def blockEnd (t : Text) (start : Nat) : Nat :=
  (t.firstFrom (start + 3) (closesBlock t)).elim t.length (· + 1)

/-- The end of an inline comment opened at `start`: its line break or the end of the text. -/
def inlineEnd (t : Text) (start : Nat) : Nat := (lineBreak? t (start + 1)).getD t.length

/-- What begins at `i`, told by the bytes from `i` on. -/
def beginningAt (t : Text) (i : Nat) : Opening :=
  if i < t.length then
    match Quote.ofByte? (t.byteAt i) with
    | some q => .string q
    | none =>
      if opensUrl t i then .url
      else if t.byteAt i = slash ∧ t.byteAt (i + 1) = star then .block
      else if t.byteAt i = slash ∧ t.byteAt (i + 1) = slash then .inline
      else .plain
  else .nothing

/-- The token at `i` outside of a `url( )`, and whether the next one stands in one. -/
def topToken? (t : Text) (i : Nat) : Option (Token × Bool) :=
  match beginningAt t i with
  | .nothing => none
  | .string q => (stringEnd? t q i).map fun j => (⟨.string, ⟨i, j⟩⟩, false)
  | .url => some (⟨.urlName, ⟨i, i + 4⟩⟩, true)
  | .block => some (⟨.block, ⟨i, blockEnd t i⟩⟩, false)
  | .inline => some (⟨.inline, ⟨i, inlineEnd t i⟩⟩, false)
  | .plain => some (⟨.byte, ⟨i, i + 1⟩⟩, false)

/-- The token at `i` inside a `url( )`, and whether the next one stands in it too. -/
def urlToken? (t : Text) (i : Nat) : Option (Token × Bool) :=
  if i < t.length then
    match Quote.ofByte? (t.byteAt i) with
    | some q => (stringEnd? t q i).map fun j => (⟨.string, ⟨i, j⟩⟩, true)
    | none =>
      if isLineBreak (t.byteAt i) then none
      else some (⟨.byte, ⟨i, i + 1⟩⟩, t.byteAt i ≠ closeParen)
  else none

/-- The token at `i`, inside a `url( )` or not; none at the end of the text and where
a line breaks in a string or a `url( )`. -/
def nextToken? (t : Text) (inUrl : Bool) (i : Nat) : Option (Token × Bool) :=
  if inUrl then urlToken? t i else topToken? t i

variable {t : Text} {inUrl u : Bool} {i : Nat} {k : Token}

/-- A string ends with the text or behind a quote of its own, which is not the one that opens it. -/
theorem stringEnd?_eq_some {q : Quote} {j : Nat} (h : stringEnd? t q i = some j) :
    j = t.length ∨ (i + 1 < j ∧ j ≤ t.length ∧ t.byteBefore j = q.byte) := by
  rw [stringEnd?] at h
  split at h
  · next l hl =>
    obtain ⟨h₁, h₂, -, -⟩ := firstFrom_eq_some.mp hl
    split at h
    · next hq =>
      cases h
      simp only [closesString, Bool.and_eq_true, decide_eq_true_eq] at hq
      exact .inr ⟨by omega, by omega, by rw [byteBefore_succ, hq.1]⟩
    · cases h
  · cases h
    exact .inl rfl

/-- A block comment takes at least its first byte, and no more than the text. -/
theorem lt_blockEnd (hi : i < t.length) : i < blockEnd t i ∧ blockEnd t i ≤ t.length := by
  rw [blockEnd]
  cases hj : t.firstFrom (i + 3) (closesBlock t) with
  | none => exact ⟨hi, Nat.le_refl _⟩
  | some j =>
    obtain ⟨h₁, h₂, -, -⟩ := firstFrom_eq_some.mp hj
    dsimp only [Option.elim]
    omega

/-- An inline comment takes at least its first byte, and no more than the text. -/
theorem lt_inlineEnd (hi : i < t.length) : i < inlineEnd t i ∧ inlineEnd t i ≤ t.length := by
  rw [inlineEnd, lineBreak?]
  cases hj : t.firstFrom (i + 1 + 1) fun k => isLineBreak (t.byteAt k) with
  | none => exact ⟨hi, Nat.le_refl _⟩
  | some j =>
    obtain ⟨h₁, h₂, -, -⟩ := firstFrom_eq_some.mp hj
    dsimp only [Option.getD]
    omega

/-! ### What begins -/

/-- Nothing begins at the end of the text, and something does everywhere else. -/
theorem beginningAt_nothing_iff : beginningAt t i = .nothing ↔ t.length ≤ i := by
  unfold beginningAt
  by_cases hi : i < t.length
  · rw [if_pos hi]
    constructor
    · intro h
      repeat' split at h
      all_goals cases h
    · omega
  · rw [if_neg hi]
    simpa using hi

/-- A string begins with its quote. -/
theorem ofByte?_of_beginningAt {q : Quote} (h : beginningAt t i = .string q) :
    Quote.ofByte? (t.byteAt i) = some q := by
  unfold beginningAt at h
  repeat' split at h
  all_goals simp_all

/-- A `url(` begins with its own four bytes. -/
theorem opensUrl_of_beginningAt (h : beginningAt t i = .url) : opensUrl t i = true := by
  unfold beginningAt at h
  repeat' split at h
  all_goals simp_all

/-- A block comment begins with a slash and a star. -/
theorem slash_star_of_beginningAt (h : beginningAt t i = .block) :
    t.byteAt i = slash ∧ t.byteAt (i + 1) = star := by
  unfold beginningAt at h
  repeat' split at h
  all_goals simp_all

/-- An inline comment begins with two slashes. -/
theorem slash_slash_of_beginningAt (h : beginningAt t i = .inline) :
    t.byteAt i = slash ∧ t.byteAt (i + 1) = slash := by
  unfold beginningAt at h
  repeat' split at h
  all_goals simp_all

/-- A slash that is code begins no comment. -/
theorem not_comment_of_beginningAt (h : beginningAt t i = .plain) (hs : t.byteAt i = slash) :
    t.byteAt (i + 1) ≠ slash ∧ t.byteAt (i + 1) ≠ star := by
  unfold beginningAt at h
  repeat' split at h
  all_goals simp_all

/-- Code begins no string and no `url(`. -/
theorem plain_of_beginningAt (h : beginningAt t i = .plain) :
    isQuote (t.byteAt i) = false ∧ opensUrl t i = false := by
  unfold beginningAt at h
  repeat' split at h
  all_goals simp_all [Quote.ofByte?_eq_none_iff]

/-- What begins at an offset begins inside the text. -/
theorem lt_of_beginningAt {o : Opening} (h : beginningAt t i = o) (ho : o ≠ .nothing) :
    i < t.length :=
  Nat.lt_of_not_le fun hle => ho (h ▸ beginningAt_nothing_iff.mpr hle)

/-- The tokens that there are: at an offset, inside a `url( )` or not, and where the next one
stands then. -/
inductive IsToken (t : Text) : Bool → Nat → Token → Bool → Prop where
  | string {inUrl : Bool} {q : Quote} {i j : Nat} (hi : i < t.length)
      (hend : stringEnd? t q i = some j) : IsToken t inUrl i ⟨.string, ⟨i, j⟩⟩ inUrl
  | urlName {i : Nat} (hurl : opensUrl t i = true) :
      IsToken t false i ⟨.urlName, ⟨i, i + 4⟩⟩ true
  | block {i : Nat} (hs : t.byteAt i = slash) (hstar : t.byteAt (i + 1) = star) :
      IsToken t false i ⟨.block, ⟨i, blockEnd t i⟩⟩ false
  | inline {i : Nat} (hs : t.byteAt i = slash) (hs' : t.byteAt (i + 1) = slash) :
      IsToken t false i ⟨.inline, ⟨i, inlineEnd t i⟩⟩ false
  | plain {i : Nat} (hi : i < t.length)
      (h : t.byteAt i = slash → t.byteAt (i + 1) ≠ slash ∧ t.byteAt (i + 1) ≠ star) :
      IsToken t false i ⟨.byte, ⟨i, i + 1⟩⟩ false
  | urlByte {i : Nat} (hi : i < t.length) :
      IsToken t true i ⟨.byte, ⟨i, i + 1⟩⟩ (t.byteAt i ≠ closeParen)

/-- In a `url(` the next token is what `IsToken` says, a string or a byte. -/
theorem isToken_of_urlToken? (h : urlToken? t i = some (k, u)) : IsToken t true i k u := by
  rw [urlToken?] at h
  split at h
  · next hi =>
    split at h
    · obtain ⟨j, hj, hk⟩ := Option.map_eq_some_iff.mp h
      cases hk
      exact .string hi hj
    · split at h
      · cases h
      · cases h
        exact .urlByte hi
  · cases h

/-- Outside of them the next token is what `IsToken` says, by what begins there. -/
theorem isToken_of_topToken? (h : topToken? t i = some (k, u)) : IsToken t false i k u := by
  rw [topToken?] at h
  cases hb : beginningAt t i with
  | nothing => simp [hb] at h
  | string q =>
    rw [hb] at h
    obtain ⟨j, hj, hk⟩ := Option.map_eq_some_iff.mp h
    cases hk
    exact .string (lt_of_beginningAt hb (by simp)) hj
  | url =>
    rw [hb] at h
    cases h
    exact .urlName (opensUrl_of_beginningAt hb)
  | block =>
    obtain ⟨hs, hstar⟩ := slash_star_of_beginningAt hb
    rw [hb] at h
    cases h
    exact .block hs hstar
  | inline =>
    obtain ⟨hs, hs'⟩ := slash_slash_of_beginningAt hb
    rw [hb] at h
    cases h
    exact .inline hs hs'
  | plain =>
    rw [hb] at h
    cases h
    exact .plain (lt_of_beginningAt hb (by simp)) (not_comment_of_beginningAt hb)

/-- The next token is a token, and the mode behind it is that of `IsToken`. -/
theorem isToken_of_nextToken? (h : nextToken? t inUrl i = some (k, u)) : IsToken t inUrl i k u := by
  cases inUrl with
  | true => exact isToken_of_urlToken? h
  | false => exact isToken_of_topToken? h

/-! ### Where tokens stand -/

/-- A token covers the offset at which it was looked for, and ends inside the text. -/
theorem bounds_of_nextToken? (h : nextToken? t inUrl i = some (k, u)) :
    k.extent.start = i ∧ i < k.extent.stop ∧ k.extent.stop ≤ t.length := by
  have hlt : t.byteAt i = slash → i < t.length := fun hs =>
    lt_length_of_byteAt (by rw [hs]; decide)
  cases isToken_of_nextToken? h with
  | string hi hend =>
    have hstop := stringEnd?_eq_some hend
    exact ⟨rfl, by dsimp only; omega, by dsimp only; omega⟩
  | urlName hurl =>
    have hstop := lt_length_of_opensUrl hurl
    exact ⟨rfl, by dsimp only; omega, hstop⟩
  | block hs hstar => exact ⟨rfl, lt_blockEnd (hlt hs)⟩
  | inline hs hs' => exact ⟨rfl, lt_inlineEnd (hlt hs)⟩
  | plain hi hnot => exact ⟨rfl, Nat.lt_succ_self i, hi⟩
  | urlByte hi => exact ⟨rfl, Nat.lt_succ_self i, hi⟩

/-- The tokens from `i` on, each beginning where the one before it ends. -/
def tokensFrom (t : Text) (inUrl : Bool) (i : Nat) : List Token :=
  match _h : nextToken? t inUrl i with
  | none => []
  | some (k, u) => k :: tokensFrom t u k.extent.stop
termination_by t.length - i
decreasing_by
  have := bounds_of_nextToken? _h
  omega

/-- The tokens of a text. -/
def tokens (t : Text) : List Token := tokensFrom t false 0

/-- The block comments of a text. -/
def blockComments (t : Text) : List Extent :=
  ((tokens t).filter (·.kind = .block)).map (·.extent)

/-- Where no token is left there are no tokens. -/
theorem tokensFrom_of_none (h : nextToken? t inUrl i = none) : tokensFrom t inUrl i = [] := by
  rw [tokensFrom]
  split <;> simp_all

/-- The tokens from an offset on are the next one and those from its end on. -/
theorem tokensFrom_of_some (h : nextToken? t inUrl i = some (k, u)) :
    tokensFrom t inUrl i = k :: tokensFrom t u k.extent.stop := by
  rw [tokensFrom]
  split <;> simp_all

/-- An induction on the tokens from an offset on. -/
theorem tokensFrom_induction {motive : Bool → Nat → Prop}
    (done : ∀ inUrl i, nextToken? t inUrl i = none → motive inUrl i)
    (step : ∀ inUrl i k u, nextToken? t inUrl i = some (k, u) → motive u k.extent.stop →
      motive inUrl i) (inUrl : Bool) (i : Nat) : motive inUrl i := by
  -- on the number of bytes that are left, of which every token takes some
  induction hn : t.length - i using Nat.strongRecOn generalizing inUrl i with
  | _ n ih =>
    cases hk : nextToken? t inUrl i with
    | none => exact done inUrl i hk
    | some next =>
      obtain ⟨k, u⟩ := next
      have hbounds := bounds_of_nextToken? hk
      exact step inUrl i k u hk (ih (t.length - k.extent.stop) (by omega) u _ rfl)

/-- No token starts before the offset that reading starts from. -/
theorem le_start_of_mem_tokensFrom : ∀ k ∈ tokensFrom t inUrl i, i ≤ k.extent.start := by
  induction inUrl, i using tokensFrom_induction (t := t) with
  | done inUrl i h => simp [tokensFrom_of_none h]
  | step inUrl i k u h ih =>
    have hbounds := bounds_of_nextToken? h
    rw [tokensFrom_of_some h]
    intro l hl
    rcases List.mem_cons.mp hl with rfl | hl
    · omega
    · have := ih l hl
      omega

/-- **No two tokens share a byte.** -/
theorem pairwise_tokensFrom (t : Text) (inUrl : Bool) (i : Nat) :
    (tokensFrom t inUrl i).Pairwise fun k l => k.extent.stop ≤ l.extent.start := by
  induction inUrl, i using tokensFrom_induction (t := t) with
  | done inUrl i h => simp [tokensFrom_of_none h]
  | step inUrl i k u h ih =>
    rw [tokensFrom_of_some h]
    exact List.pairwise_cons.mpr ⟨le_start_of_mem_tokensFrom, ih⟩

/-- Of two tokens, one stands before the other. -/
theorem apart_of_mem_tokens {l : Token} (hk : k ∈ tokens t) (hl : l ∈ tokens t) (hne : k ≠ l) :
    k.extent.Apart l.extent := by
  have hsymm : Std.Symm fun k l : Token => k.extent.Apart l.extent := ⟨fun _ _ h => h.symm⟩
  have hpair : (tokens t).Pairwise fun k l => k.extent.Apart l.extent :=
    (pairwise_tokensFrom t false 0).imp fun h => .inl h
  exact hpair.forall hk hl hne

end Comment

end StyleSpan
