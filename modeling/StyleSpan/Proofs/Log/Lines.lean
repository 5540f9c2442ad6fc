import StyleSpan.Log.Logger

/-!
# StyleSpan.Proofs.Log.Lines

What is written when messages are logged.  The default category lets a message
through or does not, and logging changes neither the category nor the way lines
are written; so the messages that get through can be told beforehand, and the
store is that before with one line appended for each of them.

* `count_letThrough` — how often a message gets through;
* `log_eq` — one message;
* `store_logAll` — several messages.
-/

namespace StyleSpan

open Text

namespace Logger

/-- The default category, as it is or as it will be made. -/
def first (l : Logger) : Category :=
  (l.withDefault.held? l.withDefault.default?).getD Category.default

/-- Whether a message of the given rank gets through the default category, as it is or as it will
be made. -/
def passes (l : Logger) (rank : Int) : Bool := l.withDefault.isEnabled l.withDefault.default? rank

/-- The messages that get through the default category. -/
def letThrough (l : Logger) (ms : List Message) : List Message :=
  ms.filter fun m => l.passes m.level.rank

/-- The store after the line of a message. -/
def appendLine (l : Logger) (store : Store) (m : Message) : Store :=
  store.append l.first.output (l.line m.level.rank m.text)

/-- A message gets through as often as it is logged, or never. -/
theorem count_letThrough (l : Logger) (ms : List Message) (m : Message) :
    (l.letThrough ms).count m = if l.passes m.level.rank then ms.count m else 0 := by
  rw [letThrough]
  split
  · next hlets => exact List.count_filter hlets
  · next hstopped =>
    rw [List.count_eq_zero, List.mem_filter]
    exact fun hmem => hstopped hmem.2

/-- Making the default category does not change the way lines are written. -/
theorem line_withDefault (l : Logger) : l.withDefault.line = l.line := by
  rw [withDefault]
  split <;> rfl

/-- A message is appended to what its category wrote, or nothing happens but that the default
category is made. -/
theorem log_eq (l : Logger) (m : Message) :
    l.log m = { l.withDefault with
      store := if l.passes m.level.rank then l.appendLine l.store m else l.store } := by
  rw [log, write, passes, isEnabled, appendLine, first, line_withDefault, store_withDefault]
  cases l.withDefault.held? l.withDefault.default? with
  | none =>
    dsimp only
    rw [if_neg (by decide), ← store_withDefault l]
  | some c =>
    dsimp only [Option.getD_some]
    split
    · rfl
    · rw [← store_withDefault l]

/-- What is written leaves the default category and its lines as they are. -/
theorem withDefault_log (l : Logger) (m : Message) : (l.log m).withDefault = l.log m := by
  obtain ⟨slot, hslot⟩ := l.exists_default?_withDefault
  rw [log_eq]
  exact withDefault_of_some hslot

/-- Logging is appending the lines of the messages that get through, in their order. -/
theorem store_logAll (l : Logger) (ms : List Message) :
    (l.logAll ms).store = (l.letThrough ms).foldl l.appendLine l.store := by
  induction ms generalizing l with
  | nil => rfl
  | cons m more ih =>
    have hpasses : (l.log m).passes = l.passes := by
      funext rank
      rw [passes, withDefault_log, log_eq]
      rfl
    have happend : (l.log m).appendLine = l.appendLine := by
      have hfirst : (l.log m).first = l.first := by
        rw [first, withDefault_log, log_eq]
        rfl
      have hline : (l.log m).line = l.line := by
        rw [log_eq, ← line_withDefault l]
        rfl
      funext store m'
      rw [appendLine, appendLine, hfirst, hline]
    have hrest := ih (l.log m)
    rw [letThrough, hpasses, happend, log_eq] at hrest
    rw [logAll, List.foldl_cons, ← logAll, letThrough, List.filter_cons, log_eq, hrest]
    split
    · rw [List.foldl_cons]
    · rfl

end Logger

end StyleSpan
