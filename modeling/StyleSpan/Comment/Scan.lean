import StyleSpan.Code
import StyleSpan.Span

/-!
# StyleSpan.Comment.Scan

Finding the inline comments of a stylesheet that hold quotes.  A text is
read byte by byte; the reading knows the byte before and what it stands
in: a string, a `url( )`, a comment, or none of these.  A line break
inside a string or a `url( )` aborts it.  An inline comment that a line
break closes and that holds a quote is queued; one that runs to the end of
the text is not.

A `Mode` is what the reading stands in, with what it has to remember there
and no more; `scanFrom` goes through the modes of a text.  `scanFrom_cons`
says what one byte does; everything else about the reading follows by
induction on the text.
-/

namespace StyleSpan

open Text

namespace Comment

/-- What a byte of a stylesheet can stand in. -/
inductive Context where
  | top
  | singleQuote
  | doubleQuote
  | url
  | block
  | inline
deriving DecidableEq, Repr

namespace Context

/-- The name of a context. -/
def name : Context → Text
  | top => ascii "initial"
  | singleQuote => ascii "single-quote"
  | doubleQuote => ascii "double-quote"
  | url => ascii "url"
  | block => ascii "block-comment"
  | inline => ascii "inline-comment"

/-- All contexts, in the order of their numbers. -/
def all : List Context := [top, singleQuote, doubleQuote, url, block, inline]

/-- The name of a numbered context. -/
def nameOfCode (code : Int) : Text :=
  ((Code.decode? all code).map name).getD (ascii "unknown")

end Context

/-- The two quotes. -/
inductive Quote where
  | single
  | double
deriving DecidableEq, Repr

namespace Quote

/-- The byte of a quote. -/
def byte : Quote → UInt8
  | single => Text.singleQuote
  | double => Text.doubleQuote

/-- The quote that a byte is. -/
def ofByte? (b : UInt8) : Option Quote :=
  if b = Text.singleQuote then some single
  else if b = Text.doubleQuote then some double
  else none

@[simp] theorem ofByte?_byte (q : Quote) : ofByte? q.byte = some q := by cases q <;> rfl

theorem ofByte?_eq_some {b : UInt8} {q : Quote} : ofByte? b = some q ↔ b = q.byte := by
  constructor
  · intro h
    unfold ofByte? at h
    split at h
    · cases q <;> simp_all [byte]
    · split at h <;> cases q <;> simp_all [byte]
  · rintro rfl
    exact ofByte?_byte q

/-- The bytes that are no quote are exactly those outside `isQuote`. -/
theorem isSome_ofByte? (b : UInt8) : (ofByte? b).isSome = isQuote b := by
  unfold ofByte? isQuote
  split
  · simp_all
  · split <;> simp_all

end Quote

/-- What the reading stands in, with what it has to remember there.  A string
remembers its quote and whether it was opened inside a `url( )`, to which it
then returns; `urlName` the number of bytes of `url(` still to come; an inline
comment its start and whether it held a quote so far. -/
inductive Mode where
  | top
  | string (quote : Quote) (inUrl : Bool)
  | urlName (left : Nat)
  | url
  | block
  | inline (start : Nat) (quoted : Bool)
deriving DecidableEq, Repr

/-- The context of a mode. -/
def Mode.context : Mode → Context
  | .top => .top
  | .string .single _ => .singleQuote
  | .string .double _ => .doubleQuote
  | .urlName _ => .url
  | .url => .url
  | .block => .block
  | .inline _ _ => .inline

/-- What a byte does to the reading: it goes on in a mode, it ends an inline
comment that is to be queued, or it breaks the line where that is not allowed. -/
inductive Move where
  | go (mode : Mode)
  | queue (comment : Extent)
  | stop

/-- Whether a text begins with `url(`, the letters in either case. -/
def startsUrl (t : Text) : Bool := (t.take 4).map upper = ascii "URL("

/-- The effect of the byte `b` at offset `offset`, between `prev` and `rest`. -/
def Mode.move (m : Mode) (offset : Nat) (prev b : UInt8) (rest : Text) : Move :=
  match m with
  | .top =>
    match Quote.ofByte? b with
    | some q => .go (.string q false)
    | none =>
      if startsUrl (b :: rest) then .go (.urlName 3)
      else if b = star ∧ prev = slash then .go .block
      else if b = slash ∧ prev = slash then .go (.inline (offset - 1) false)
      else .go .top
  | .string q inUrl =>
    if b = q.byte ∧ prev ≠ backslash then .go (if inUrl then .url else .top)
    else if isLineBreak b then .stop
    else .go m
  | .urlName left => .go (if left ≤ 1 then .url else .urlName (left - 1))
  | .url =>
    if b = closeParen then .go .top
    else if isLineBreak b then .stop
    else match Quote.ofByte? b with
      | some q => .go (.string q true)
      | none => .go .url
  | .block => if b = slash ∧ prev = star then .go .top else .go .block
  | .inline start quoted =>
    if isQuote b then .go (.inline start true)
    else if isLineBreak b then (if quoted then .queue ⟨start, offset⟩ else .go .top)
    else .go m

/-- How a reading ends: at the end of the text, in a mode and with the queued
comments in their order, or at a line break inside a string or a `url( )`. -/
inductive Outcome where
  | finished (mode : Mode) (queue : List Extent)
  | aborted (offset : Nat) (context : Context)
deriving DecidableEq, Repr

/-- The outcome with a comment queued before all others. -/
def Outcome.enqueue (comment : Extent) : Outcome → Outcome
  | .finished m queue => .finished m (comment :: queue)
  | .aborted offset context => .aborted offset context

/-- The outcome with comments queued before all others. -/
def Outcome.after (queue : List Extent) : Outcome → Outcome
  | .finished m more => .finished m (queue ++ more)
  | .aborted offset context => .aborted offset context

/-- Reads on in mode `m` at offset `offset`, after the byte `prev`. -/
def scanFrom (m : Mode) (offset : Nat) (prev : UInt8) : Text → Outcome
  | [] => .finished m []
  | b :: rest =>
    match m.move offset prev b rest with
    | .go next => scanFrom next (offset + 1) b rest
    | .queue comment => (scanFrom .top (offset + 1) b rest).enqueue comment
    | .stop => .aborted offset m.context

/-- The queued comments; none if the reading was aborted. -/
def Outcome.queued : Outcome → List Extent
  | .finished _ queue => queue
  | .aborted _ _ => []

@[simp] theorem scanFrom_nil (m : Mode) (offset : Nat) (prev : UInt8) :
    scanFrom m offset prev [] = .finished m [] := rfl

/-- What one byte does to the outcome. -/
theorem scanFrom_cons (m : Mode) (offset : Nat) (prev b : UInt8) (rest : Text) :
    scanFrom m offset prev (b :: rest) =
      match m.move offset prev b rest with
      | .go next => scanFrom next (offset + 1) b rest
      | .queue comment => (scanFrom .top (offset + 1) b rest).enqueue comment
      | .stop => .aborted offset m.context := rfl

theorem Outcome.after_nil (o : Outcome) : o.after [] = o := by cases o <;> rfl

/-- A comment that is queued first stands behind what was queued before. -/
theorem Outcome.after_enqueue (queue : List Extent) (comment : Extent) (o : Outcome) :
    (o.enqueue comment).after queue = o.after (queue ++ [comment]) := by
  cases o with
  | finished m more => simp [enqueue, after]
  | aborted offset context => rfl

end Comment

end StyleSpan
