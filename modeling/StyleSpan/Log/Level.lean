import StyleSpan.Text.Basic

/-!
# StyleSpan.Log.Level

Levels of messages.  Each level has a rank; thresholds and the levels of
single messages are ranks and need not be the rank of a level.
-/

namespace StyleSpan

/-- The levels, from the least to the most important. -/
inductive Level where
  | debug
  | info
  | notice
  | warn
  | error
  | fatal
deriving DecidableEq, Repr

namespace Level

/-- The number by which levels are compared. -/
def rank : Level → Int
  | debug => 20
  | info => 40
  | notice => 60
  | warn => 80
  | error => 100
  | fatal => 120

/-- The name of a level in print. -/
def name : Level → Text
  | debug => Text.ascii "DEBUG"
  | info => Text.ascii "INFO"
  | notice => Text.ascii "NOTICE"
  | warn => Text.ascii "WARN"
  | error => Text.ascii "ERROR"
  | fatal => Text.ascii "FATAL"

/-- All levels. -/
def all : List Level := [debug, info, notice, warn, error, fatal]

/-- The level of a rank. -/
def ofRank? (rank : Int) : Option Level := all.find? fun l => l.rank = rank

/-- The name printed for a rank, whether or not a level has it. -/
def nameOfRank (rank : Int) : Text := ((ofRank? rank).map name).getD (Text.ascii "UNKNOWN")

/-- The level of a name, written in upper case, lower case or both. -/
def ofName? (t : Text) : Option Level := all.find? fun l => t.map Text.upper = l.name

/-- A name is read whatever the case of its letters. -/
theorem ofName?_of_map_upper {t : Text} {l : Level} (h : t.map Text.upper = l.name) :
    ofName? t = some l := by
  rw [ofName?, h]
  cases l <;> decide

end Level

/-- A phrase to be logged at a level. -/
structure Message where
  level : Level
  text : Text
deriving DecidableEq, Repr

end StyleSpan
