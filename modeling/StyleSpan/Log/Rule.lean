import StyleSpan.Log.Level

/-!
# StyleSpan.Log.Rule

A rule of a configuration says for one category from which level on its
messages are let through, and where they go:

```
category.LEVEL  >stdout
category.LEVEL  >stderr
category.LEVEL  "path"; anything
```

The last dot before the first blank parts category and level, and the
target ends at the first semicolon.  A rule whose target cannot be read is
still a rule: it sets the level and fails after that.
-/

namespace StyleSpan

open Text

/-- Why a configuration, or a rule of it, was refused. -/
inductive Failure where
  /-- The configuration is missing. -/
  | noRules
  /-- No blank parts the category from the target. -/
  | noTarget
  /-- No dot parts the category from the level. -/
  | noLevel
  | unknownLevel
  /-- The target is none of the three forms. -/
  | unknownTarget
  /-- The path of the target has no closing quote. -/
  | unclosedPath
  /-- The file of the target cannot be opened for append. -/
  | cannotAppend
  /-- The configuration file cannot be read. -/
  | cannotRead
  /-- There is no slot left for the category. -/
  | tableFull
deriving DecidableEq, Repr

/-- The number that stands for a failure: format, writing, set-up, category. -/
def Failure.code : Failure → Int
  | noRules | noTarget | noLevel | unknownLevel | unknownTarget | unclosedPath => -3
  | cannotAppend => -4
  | cannotRead => -5
  | tableFull => -6

/-- Where a rule sends messages. -/
inductive Target where
  | stdout
  | stderr
  | file (path : Text)
deriving DecidableEq, Repr

/-- Reads a target. -/
def Target.parse (t : Text) : Except Failure Target :=
  if t = ascii ">stdout" then .ok .stdout
  else if t = ascii ">stderr" then .ok .stderr
  else match t with
    | [] => .error .unknownTarget
    | b :: rest =>
      if b ≠ doubleQuote then .error .unknownTarget
      else if doubleQuote ∉ rest then .error .unclosedPath
      else .ok (.file (rest.takeWhile (· ≠ doubleQuote)))

/-- A rule; its target may have been unreadable. -/
structure Rule where
  category : Text
  level : Level
  target : Except Failure Target

/-- The parts before and after the last byte `sep` of a text. -/
def splitAtLast? (sep : UInt8) (t : Text) : Option (Text × Text) :=
  if sep ∈ t then
    let after := (t.reverse.takeWhile (· ≠ sep)).reverse
    some (t.take (t.length - after.length - 1), after)
  else none

/-- Reads a line as a rule. -/
def Rule.parse (line : Text) : Except Failure Rule :=
  let head := line.takeWhile fun b => !isBlank b
  let rest := line.dropWhile fun b => !isBlank b
  if rest = [] then .error .noTarget
  else match splitAtLast? dot head with
    | none => .error .noLevel
    | some (category, levelName) =>
      match Level.ofName? levelName with
      | none => .error .unknownLevel
      | some level =>
        .ok { category, level, target := Target.parse (trim (rest.takeWhile (· ≠ semicolon))) }

/-- A path between quotes is read as that path. -/
theorem Target.parse_quoted {path : Text} (h : doubleQuote ∉ path) (rest : Text) :
    Target.parse (doubleQuote :: (path ++ doubleQuote :: rest)) = .ok (.file path) := by
  have hne : ∀ s : Text, s.head? = some 62 → doubleQuote :: (path ++ doubleQuote :: rest) ≠ s := by
    rintro s hs rfl
    exact absurd (Option.some.inj hs) (by decide)
  have htake : (path ++ doubleQuote :: rest).takeWhile (· ≠ doubleQuote) = path := by
    rw [List.takeWhile_append_of_pos]
    · simp
    · intro b hb
      simpa using fun hq : b = doubleQuote => h (hq ▸ hb)
  rw [Target.parse, if_neg (hne _ (by decide)), if_neg (hne _ (by decide))]
  simp only [ne_eq, not_true_eq_false, if_false]
  rw [if_neg (by simp), htake]

end StyleSpan
