/-!
# StyleSpan.Offset

Offsets are 64-bit words held as natural numbers.  Sums of offsets wrap,
and the largest word never stands for an offset: where a sum lands on it,
the offset counts as unknown.
-/

namespace StyleSpan.Offset

/-- The number of 64-bit words. -/
abbrev modulus : Nat := UInt64.size

/-- The sum of two offsets as a word. -/
def add (a b : Nat) : Nat := (a + b) % modulus

/-- The offset that a word stands for: none for the largest word. -/
def ofWord? (w : Nat) : Option Nat := if w = modulus - 1 then none else some w

theorem add_eq_of_lt {a b : Nat} (h : a + b < modulus) : add a b = a + b :=
  Nat.mod_eq_of_lt h

@[simp] theorem ofWord?_eq_some {w o : Nat} : ofWord? w = some o ↔ w ≠ modulus - 1 ∧ w = o := by
  unfold ofWord?
  split <;> simp_all

end StyleSpan.Offset
