import StyleSpan.Log.Level
import StyleSpan.Log.Store

/-!
# StyleSpan.Log.Logger

A logger is a table of categories.  A category lets messages from its
threshold on through to its stream.  The first slot of the table is the
default category, made when the logger is first used, and the logger keeps
a pointer to it; a new category takes its threshold and its stream from it,
so categories may share a stream.  At most one of the sharers owns the stream
and closes it when it is given another one; the rest then fall back to
standard output.

A shutdown empties the table, but leaves the slots as they are.  A handle from
before leads to what its slot holds, until the slot is given out again:

```
categories   the table, slots 0 .. length - 1
former       the slots behind it that were in use before a shutdown
```

A slot may be missing where an operation takes one, as `get` may find no
room; the operation then does nothing.
-/

namespace StyleSpan

open Text

/-- A time of day, as lines are stamped with it. -/
structure TimeOfDay where
  hour : Nat := 0
  minute : Nat := 0
  second : Nat := 0
deriving DecidableEq, Repr

/-- A number below 100 in two digits. -/
def twoDigits (n : Nat) : Text := decimal (n / 10) ++ decimal (n % 10)

/-- A time of day as `HH:MM:SS`. -/
def TimeOfDay.render (t : TimeOfDay) : Text :=
  twoDigits t.hour ++ ascii ":" ++ twoDigits t.minute ++ ascii ":" ++ twoDigits t.second

/-- A category of messages. -/
structure Category where
  name : Text
  threshold : Int := Level.info.rank
  output : Stream := .stdout
  ownsOutput : Bool := false
  enabled : Bool := true
deriving DecidableEq, Repr

/-- Whether a category lets a message of the given rank through. -/
def Category.lets (c : Category) (rank : Int) : Bool := c.enabled && c.threshold ≤ rank

/-- The default category as it is made. -/
def Category.default : Category := { name := ascii "default" }

/-- A place in the table of categories. -/
abbrev Slot := Nat

/-- The categories by slot, what the slots behind them still hold, the slot of
the default category once it is made, and where lines go. -/
structure Logger where
  categories : List Category := []
  former : List Category := []
  default? : Option Slot := none
  timestamps : Bool := false
  clock : TimeOfDay := {}
  store : Store := {}

namespace Logger

/-- The number of slots of the table. -/
def capacity : Nat := 32

/-- The number of bytes of a name that are stored. -/
def nameCapacity : Nat := 63

/-! ## Categories -/

/-- The logger with its default category made.  If it is still to be made, it is
then alone in the table. -/
def withDefault (l : Logger) : Logger :=
  match l.default? with
  | some _ => l
  | none =>
    { l with
      categories := [Category.default]
      former := (l.categories ++ l.former).drop 1
      default? := some 0 }

/-- The slot of the category stored under a name. -/
def find? (l : Logger) (name : Text) : Option Slot :=
  l.categories.findIdx? fun c => c.name = name

/-- Whether a name means the default category. -/
def namesDefault (name : Text) : Bool := name = [] || name = [star]

/-- The category of a slot of the table. -/
def category? (l : Logger) (slot : Option Slot) : Option Category :=
  slot.bind fun i => l.categories[i]?

/-- What a slot holds, be it in the table or behind it. -/
def held? (l : Logger) (slot : Option Slot) : Option Category :=
  slot.bind fun i => (l.categories ++ l.former)[i]?

/-- The category made for a name when it is first asked for. -/
def newCategory (l : Logger) (name : Text) : Category :=
  let first := (l.category? l.default?).getD Category.default
  { name := name.take nameCapacity, threshold := first.threshold, output := first.output }

/-- The table with a category for a name behind the others. -/
def join (l : Logger) (name : Text) : Logger :=
  { l with
    categories := l.categories ++ [l.newCategory name]
    former := l.former.drop 1 }

/-- The slot of a name.  A name not yet stored gets a new slot, if there is room. -/
def get (l : Logger) (name : Text) : Logger × Option Slot :=
  let l := l.withDefault
  if namesDefault name then (l, l.default?)
  else match l.find? name with
    | some slot => (l, some slot)
    | none =>
      if capacity ≤ l.categories.length then (l, none)
      else (l.join name, some l.categories.length)

/-- Changes what a slot holds. -/
def update (l : Logger) (slot : Slot) (f : Category → Category) : Logger :=
  { l with
    categories := l.categories.modify slot f
    former :=
      if slot < l.categories.length then l.former
      else l.former.modify (slot - l.categories.length) f }

/-- Sets the threshold of a category. -/
def setThreshold (l : Logger) (slot : Option Slot) (rank : Int) : Logger :=
  slot.elim l fun i => l.update i fun c => { c with threshold := rank }

/-- Turns a category on or off. -/
def setEnabled (l : Logger) (slot : Option Slot) (on : Bool) : Logger :=
  slot.elim l fun i => l.update i fun c => { c with enabled := on }

/-- Turns time stamps on or off for all lines. -/
def setTimestamps (l : Logger) (on : Bool) : Logger := { l with timestamps := on }

/-! ## Streams -/

/-- Closes a stream, and moves every category on it to standard output. -/
def closeStream (l : Logger) (stream : Stream) : Logger :=
  { l with
    categories := l.categories.map fun c =>
      if c.output = stream then { c with output := .stdout } else c
    store := l.store.close stream }

/-- Closes the stream that a slot has, if it owns it. -/
def closeOwned (l : Logger) (slot : Slot) : Logger :=
  match l.held? (some slot) with
  | some c => if c.ownsOutput then l.closeStream c.output else l
  | none => l

/-- Gives up the stream that a slot has, for standard output. -/
def release (l : Logger) (slot : Slot) : Logger :=
  (l.closeOwned slot).update slot fun d => { d with output := .stdout, ownsOutput := false }

/-- Gives a category a stream that it does not own; without one, standard output. -/
def setOutput (l : Logger) (slot : Option Slot) (stream : Option Stream) : Logger :=
  slot.elim l fun i =>
    (l.release i).update i fun c => { c with output := stream.getD .stdout }

/-- Closes all owned streams and empties the table. -/
def shutDown (l : Logger) : Logger :=
  let l := (List.range l.categories.length).foldl release l
  { l with categories := [], former := l.categories ++ l.former, default? := none }

/-! ## Messages -/

/-- Whether a message of the given rank gets through a category. -/
def isEnabled (l : Logger) (slot : Option Slot) (rank : Int) : Bool :=
  match l.held? slot with
  | some c => c.lets rank
  | none => false

/-- The line for a message: the stamp if wanted, from warnings on the level,
then the text. -/
def line (l : Logger) (rank : Int) (text : Text) : Text :=
  (if l.timestamps then l.clock.render ++ [space] else []) ++
  (if Level.warn.rank ≤ rank then ascii "[" ++ Level.nameOfRank rank ++ ascii "] " else []) ++
  text ++ [lf]

/-- Writes a message to the stream of a category, if the category lets it through. -/
def write (l : Logger) (slot : Option Slot) (rank : Int) (text : Text) : Logger :=
  match l.held? slot with
  | some c =>
    if c.lets rank then { l with store := l.store.append c.output (l.line rank text) } else l
  | none => l

/-- Writes a message to the default category. -/
def log (l : Logger) (m : Message) : Logger :=
  l.withDefault.write l.withDefault.default? m.level.rank m.text

/-- Writes messages to the default category, in their order. -/
def logAll (l : Logger) (ms : List Message) : Logger := ms.foldl log l

/-! ## What the operations leave alone -/

variable {l : Logger} {slot : Slot}

/-- A default category that is there is not made anew. -/
theorem withDefault_of_some (h : l.default? = some slot) : l.withDefault = l := by
  rw [withDefault, h]

/-- The default category takes the first slot, whatever that slot held. -/
theorem withDefault_of_none (h : l.default? = none) :
    l.withDefault =
      { l with
        categories := [Category.default]
        former := (l.categories ++ l.former).drop 1
        default? := some 0 } := by
  rw [withDefault, h]

/-- Once the logger is used its default category is made. -/
theorem exists_default?_withDefault (l : Logger) : ∃ slot, l.withDefault.default? = some slot := by
  cases h : l.default? with
  | none => exact ⟨0, by rw [withDefault_of_none h]⟩
  | some slot => exact ⟨slot, by rw [withDefault_of_some h, h]⟩

/-- The default category is made once. -/
@[simp] theorem withDefault_withDefault (l : Logger) :
    l.withDefault.withDefault = l.withDefault := by
  obtain ⟨slot, hslot⟩ := l.exists_default?_withDefault
  exact withDefault_of_some hslot

/-- Making the default category writes nothing. -/
theorem store_withDefault (l : Logger) : l.withDefault.store = l.store := by
  rw [withDefault]
  split <;> rfl

@[simp] theorem length_update (l : Logger) (slot : Slot) (f : Category → Category) :
    (l.update slot f).categories.length = l.categories.length := by
  simp [update]

/-- A slot of the table holds its category. -/
theorem held?_of_lt (h : slot < l.categories.length) :
    l.held? (some slot) = l.categories[slot]? :=
  List.getElem?_append_left h

/-- Closing what a slot owns closes one stream or none. -/
theorem closeOwned_eq_or (l : Logger) (slot : Slot) :
    l.closeOwned slot = l ∨ ∃ stream, l.closeOwned slot = l.closeStream stream := by
  unfold closeOwned
  split
  · next c _ =>
    split
    · exact .inr ⟨c.output, rfl⟩
    · exact .inl rfl
  · exact .inl rfl

/-- Closing a stream keeps the number of categories. -/
@[simp] theorem length_closeOwned (l : Logger) (slot : Slot) :
    (l.closeOwned slot).categories.length = l.categories.length := by
  rcases l.closeOwned_eq_or slot with h | ⟨stream, h⟩
  · rw [h]
  · rw [h, closeStream, List.length_map]

/-- Giving up a stream keeps the number of categories. -/
@[simp] theorem length_release (l : Logger) (slot : Slot) :
    (l.release slot).categories.length = l.categories.length := by
  rw [release, length_update, length_closeOwned]

/-- Writing appends a line to one stream or to none. -/
theorem write_eq_or (l : Logger) (slot : Option Slot) (rank : Int) (text : Text) :
    l.write slot rank text = l ∨ ∃ stream, l.write slot rank text =
      { l with store := l.store.append stream (l.line rank text) } := by
  unfold write
  split
  · next c _ =>
    split
    · exact .inr ⟨c.output, rfl⟩
    · exact .inl rfl
  · exact .inl rfl

/-- Writing changes no category. -/
@[simp] theorem categories_write (l : Logger) (slot : Option Slot) (rank : Int) (text : Text) :
    (l.write slot rank text).categories = l.categories := by
  rcases l.write_eq_or slot rank text with h | ⟨stream, h⟩ <;> rw [h]

end Logger

end StyleSpan
