import StyleSpan.Text.Lines

/-!
# StyleSpan.Span

Stretches of a text.  An `Extent` has two known bounds; in a `Span` each
bound may be unknown.
-/

namespace StyleSpan

/-- The bytes from `start` up to, not including, `stop`. -/
structure Extent where
  start : Nat
  stop : Nat
deriving DecidableEq, Repr

/-- Whether an offset lies in the extent. -/
def Extent.contains (e : Extent) (offset : Nat) : Bool := e.start ≤ offset && offset < e.stop

/-- The bytes of a text that an extent covers. -/
def Extent.slice (t : Text) (e : Extent) : Text := t.slice e.start e.stop

/-- A stretch of a text of which either bound may be unknown. -/
structure Span where
  start : Option Nat
  stop : Option Nat
deriving DecidableEq, Repr

namespace Span

/-- The span of which nothing is known. -/
def unknown : Span := ⟨none, none⟩

/-- Whether both bounds are known. -/
def resolved (s : Span) : Bool := s.start.isSome && s.stop.isSome

/-- The bytes that a resolved span covers; empty if a bound is unknown or
the text does not reach to it. -/
def slice (t : Text) (s : Span) : Text :=
  match s.start, s.stop with
  | some start, some stop => t.slice start stop
  | _, _ => []

@[simp] theorem slice_mk_some (t : Text) (a b : Nat) :
    slice t ⟨some a, some b⟩ = t.slice a b := rfl

end Span

end StyleSpan
