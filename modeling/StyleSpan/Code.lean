/-!
# StyleSpan.Code

Numbered names: the members of an enumeration are numbered from 0 in the
order of its declaration, and a number outside that range stands for none
of them.
-/

namespace StyleSpan.Code

/-- The member of the enumeration `all` that has the given number. -/
def decode? {α : Type} (all : List α) (code : Int) : Option α :=
  if code < 0 then none else all[code.toNat]?

end StyleSpan.Code
