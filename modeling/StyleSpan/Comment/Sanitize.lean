import StyleSpan.Comment.Reader
import StyleSpan.Diagnostic.Basic
import StyleSpan.Log.Level

/-!
# StyleSpan.Comment.Sanitize

Blanking the quotes of inline comments.  A tokenizer may take a quote in an
inline comment for the start of a string; `sanitize` puts a space in place
of each quote of a queued comment and leaves every other byte, so that
offsets in the result are offsets in the text.  If the reading aborts the
text is left as it is, and the abort is explained by a diagnostic.

* `length_blank` — no offset is moved;
* `text_sanitize_of_finished` — the queued comments, and nothing else, are blanked.
-/

namespace StyleSpan

open Text

namespace Comment

/-! ## Blanking -/

/-- The text from `offset` on with the quotes inside the given comments blanked. -/
def blankFrom (comments : List Extent) (offset : Nat) : Text → Text
  | [] => []
  | b :: rest =>
    (if isQuote b && comments.any (·.contains offset) then space else b) ::
      blankFrom comments (offset + 1) rest

/-- The text with the quotes inside the given comments blanked. -/
def blank (comments : List Extent) (t : Text) : Text := blankFrom comments 0 t

@[simp] theorem length_blankFrom (comments : List Extent) (offset : Nat) (t : Text) :
    (blankFrom comments offset t).length = t.length := by
  induction t generalizing offset with
  | nil => rfl
  | cons b rest ih => simp [blankFrom, ih]

/-- Blanking keeps every offset. -/
@[simp] theorem length_blank (comments : List Extent) (t : Text) :
    (blank comments t).length = t.length := length_blankFrom comments 0 t

@[simp] theorem blankFrom_nil_comments (offset : Nat) (t : Text) : blankFrom [] offset t = t := by
  induction t generalizing offset with
  | nil => rfl
  | cons b rest ih => simp [blankFrom, ih]

/-! ## Results -/

/-- What a line break is said to be inside of when it aborts the reading. -/
def Context.brokenName (c : Context) : Text :=
  if c = .url then ascii "url()" else ascii "quoted string"

/-- What became of a text. -/
inductive Verdict where
  | unchanged
  | sanitized (comments quotes : Nat)
  | aborted (offset : Nat) (context : Context)
deriving DecidableEq, Repr

/-- The kind of a verdict. -/
inductive Status where
  | unchanged
  | sanitized
  | aborted
deriving DecidableEq, Repr

namespace Status

/-- The name of a status. -/
def name : Status → Text
  | unchanged => ascii "unchanged"
  | sanitized => ascii "sanitized"
  | aborted => ascii "aborted"

/-- All statuses, in the order of their numbers. -/
def all : List Status := [unchanged, sanitized, aborted]

/-- The name of a numbered status. -/
def nameOfCode (code : Int) : Text :=
  ((Code.decode? all code).map name).getD (ascii "unknown")

end Status

namespace Verdict

/-- The kind of the verdict. -/
def status : Verdict → Status
  | unchanged => .unchanged
  | sanitized _ _ => .sanitized
  | aborted _ _ => .aborted

/-- The number of comments in which a quote was blanked. -/
def changedComments : Verdict → Nat
  | sanitized comments _ => comments
  | _ => 0

/-- The number of blanked quotes. -/
def blankedQuotes : Verdict → Nat
  | sanitized _ quotes => quotes
  | _ => 0

/-- The offset of the line break that aborted the reading, 0 without one. -/
def abortOffset : Verdict → Nat
  | aborted offset _ => offset
  | _ => 0

/-- What the line break that aborted the reading stands in. -/
def abortContext : Verdict → Context
  | aborted _ context => context
  | _ => .top

/-- What is logged about a verdict. -/
def messages : Verdict → List Message
  | unchanged => []
  | sanitized comments quotes =>
    [⟨.debug, ascii "[CSS Sanitize] replaced " ++ decimal quotes ++ ascii " quotes in " ++
      decimal comments ++ ascii " inline comments"⟩]
  | aborted offset context =>
    [⟨.warn, ascii "[CSS Sanitize] line break inside " ++ context.brokenName ++
      ascii " at offset " ++ decimal offset ++ ascii ", inline comments left as-is"⟩]

/-- The diagnostics of a verdict on the text `t`: an abort is a warning at the
line break, with its line as context. -/
def diagnostics (t : Text) : Verdict → List Diagnostic
  | aborted offset context =>
    let location := t.locationAt offset
    [{ location
       severity := .warning
       message := ascii "line break inside " ++ context.brokenName ++
         ascii ", inline comments not sanitized"
       context := t.lineAt location.line
       hint := ascii "close the string on the same line" }]
  | _ => []

end Verdict

/-- A text after sanitizing, and what became of it. -/
structure Sanitized where
  text : Text
  verdict : Verdict
deriving DecidableEq, Repr

/-- The text with the quotes of its queued comments blanked, or as it is if the
reading aborts. -/
def sanitize (t : Text) : Sanitized :=
  match scan t with
  | .aborted offset context => ⟨t, .aborted offset context⟩
  | .finished _ [] => ⟨t, .unchanged⟩
  | .finished _ (c :: cs) =>
    ⟨blank (c :: cs) t,
      .sanitized (c :: cs).length (((c :: cs).flatMap fun e => e.slice t).countP isQuote)⟩

/-- Sanitizes a text and adds the diagnostics to a list. -/
def sanitizeInto (l : DiagnosticList) (t : Text) : Sanitized × DiagnosticList :=
  let s := sanitize t
  (s, l.pushAll (s.verdict.diagnostics t))

/-- The comments whose quotes sanitizing blanks, as texts. -/
def queuedTexts (t : Text) : List Text := (scan t).queued.map fun e => e.slice t

theorem sanitize_of_aborted {t : Text} {offset : Nat} {context : Context}
    (h : scan t = .aborted offset context) : sanitize t = ⟨t, .aborted offset context⟩ := by
  rw [sanitize, h]

/-- A finished reading leaves the text with the quotes of the queue blanked. -/
theorem text_sanitize_of_finished {t : Text} {m : Mode} {queue : List Extent}
    (h : scan t = .finished m queue) : (sanitize t).text = blank queue t := by
  rw [sanitize, h]
  cases queue with
  | nil => simp [blank]
  | cons c cs => rfl

end Comment

end StyleSpan
