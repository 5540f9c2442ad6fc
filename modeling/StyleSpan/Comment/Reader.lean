import StyleSpan.Comment.Scan

/-!
# StyleSpan.Comment.Reader

The reading of a stylesheet, with the variables of its loop:

```
context        what the next byte stands in
returnTo       where a closing quote leads
commentStart   where the last inline comment began
hasQuotes      whether it held a quote so far
skip           how many bytes of url( are still passed over
queue          the inline comments with quotes so far
```

Not all of them count at all times, and some are only right because they are
put back in time: `returnTo` when a string is closed, `hasQuotes` when an inline
comment is.  `mode` is what the variables say about the place of the next byte,
and `scan` reads a text from its first byte to its last.
-/

namespace StyleSpan

open Text

namespace Comment

/-- The variables of a reading. -/
structure Reader where
  context : Context := .top
  returnTo : Context := .top
  commentStart : Nat := 0
  hasQuotes : Bool := false
  skip : Nat := 0
  queue : List Extent := []
deriving DecidableEq, Repr

namespace Reader

/-- The quote that closes a string. -/
def closingQuote (r : Reader) : UInt8 :=
  if r.context = .singleQuote then singleQuote else doubleQuote

/-- The reading after the byte `b` at offset `offset`, between `prev` and `rest`;
none if a line break stands where it must not. -/
def step (r : Reader) (offset : Nat) (prev b : UInt8) (rest : Text) : Option Reader :=
  if r.skip ≠ 0 then some { r with skip := r.skip - 1 }
  else match r.context with
    | .top =>
      if b = singleQuote then some { r with context := .singleQuote }
      else if b = doubleQuote then some { r with context := .doubleQuote }
      else if startsUrl (b :: rest) then some { r with context := .url, skip := 3 }
      else if b = star ∧ prev = slash then some { r with context := .block }
      else if b = slash ∧ prev = slash then
        some { r with context := .inline, commentStart := offset - 1 }
      else some r
    | .singleQuote | .doubleQuote =>
      if b = r.closingQuote ∧ prev ≠ backslash then
        some { r with context := r.returnTo, returnTo := .top }
      else if isLineBreak b then none
      else some r
    | .url =>
      if b = closeParen then some { r with context := .top }
      else if isLineBreak b then none
      else if b = singleQuote then some { r with context := .singleQuote, returnTo := .url }
      else if b = doubleQuote then some { r with context := .doubleQuote, returnTo := .url }
      else some r
    | .block => if b = slash ∧ prev = star then some { r with context := .top } else some r
    | .inline =>
      if isQuote b then some { r with hasQuotes := true }
      else if isLineBreak b then
        some
          { r with
            context := .top
            hasQuotes := false
            queue :=
              if r.hasQuotes then r.queue ++ [⟨r.commentStart, offset⟩] else r.queue }
      else some r

/-- What the variables say about the place of the next byte. -/
def mode (r : Reader) : Mode :=
  match r.context with
  | .top => .top
  | .singleQuote => .string .single (r.returnTo = .url)
  | .doubleQuote => .string .double (r.returnTo = .url)
  | .url => if r.skip = 0 then .url else .urlName r.skip
  | .block => .block
  | .inline => .inline r.commentStart r.hasQuotes

/-- Reads on at offset `offset`, after the byte `prev`. -/
def run (r : Reader) (offset : Nat) (prev : UInt8) : Text → Outcome
  | [] => .finished r.mode r.queue
  | b :: rest =>
    match r.step offset prev b rest with
    | some next => next.run (offset + 1) b rest
    | none => .aborted offset r.context

end Reader

/-- Reads a text from its first byte. -/
def scan (t : Text) : Outcome := Reader.run {} 0 0 t

end Comment

end StyleSpan
