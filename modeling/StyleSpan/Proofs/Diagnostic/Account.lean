import Mathlib.Data.List.DropRight
import Mathlib.Data.List.Induction
import StyleSpan.Proofs.Diagnostic.Limit

/-!
# StyleSpan.Proofs.Diagnostic.Account

A list of diagnostics in use.  Diagnostics come to it, its limit is raised and lowered, and it is
cleared, in any order.  At any time, what it holds and counts is accounted for by the additions
since it was cleared last: those that met room are its items, and the others were dropped.

* `call_cases` — what one call can do;
* `run_induction` — what a call keeps, any calls keep;
* `accounts_run` — the account, by that induction;
* `run_of_limit_kept` — under one limit, the calls come to one batch of additions;
* `account_of_run` — items, counters and limit, told from the calls.
-/

namespace StyleSpan

namespace DiagnosticList

/-! ## Calls -/

/-- A call that changes a list. -/
inductive Call where
  | add (d : Diagnostic)
  | addWarning (location : Location) (message context hint : Text)
  | addNote (location : Location) (message : Text)
  | setLimit (limit : Nat)
  | clear
deriving DecidableEq, Repr

/-- The diagnostic that a call adds. -/
def Call.diagnostic? : Call → Option Diagnostic
  | .add d => some d
  | .addWarning location message context hint =>
    some { location, severity := .warning, message, context, hint }
  | .addNote location message => some { location, severity := .note, message }
  | .setLimit _ | .clear => none

/-- The limit that a call sets. -/
def Call.limit? : Call → Option Nat
  | .setLimit limit => some limit
  | _ => none

/-- The list after a call. -/
def call (l : DiagnosticList) : Call → DiagnosticList
  | .add d => (l.add d).1
  | .addWarning location message context hint => l.addWarning location message context hint
  | .addNote location message => l.addNote location message
  | .setLimit limit => l.setLimit limit
  | .clear => l.clear

/-- The list after several calls, one after the other. -/
def run (l : DiagnosticList) (cs : List Call) : DiagnosticList := cs.foldl call l

/-- A call, and the list that it met. -/
structure Event where
  before : DiagnosticList
  call : Call
deriving DecidableEq, Repr

/-- The diagnostic that came with the call. -/
def Event.added? (e : Event) : Option Diagnostic := e.call.diagnostic?

/-- The diagnostic that came with the call and met room. -/
def Event.kept? (e : Event) : Option Diagnostic :=
  if e.before.size < e.before.limit then e.added? else none

/-- The calls of a run, each with the list that it met. -/
def history (l : DiagnosticList) : List Call → List Event
  | [] => []
  | c :: later => ⟨l, c⟩ :: history (l.call c) later

/-- What followed the last time that the list was cleared; everything if it never was. -/
def sinceClear (es : List Event) : List Event := es.rtakeWhile (·.call ≠ .clear)

variable {l : DiagnosticList} {c : Call} {d : Diagnostic} {since : List Event}

/-- A call clears the list, sets its limit or adds a diagnostic. -/
theorem call_cases (l : DiagnosticList) (c : Call) :
    (c = .clear ∧ l.call c = withLimit l.limit) ∨
    (∃ limit, c = .setLimit limit ∧ l.call c = { l with limit }) ∨
    ∃ d, c ≠ .clear ∧ c.limit? = none ∧ c.diagnostic? = some d ∧ l.call c = l.push d := by
  cases c with
  | add d => exact .inr (.inr ⟨d, nofun, rfl, rfl, rfl⟩)
  | addWarning location message context hint => exact .inr (.inr ⟨_, nofun, rfl, rfl, rfl⟩)
  | addNote location message => exact .inr (.inr ⟨_, nofun, rfl, rfl, rfl⟩)
  | setLimit limit => exact .inr (.inl ⟨limit, rfl, rfl⟩)
  | clear => exact .inl ⟨rfl, rfl⟩

/-- What a selection takes from a list with one more element at its end. -/
theorem filterMap_concat {α β : Type} (f : α → Option β) (xs : List α) (x : α) :
    (xs ++ [x]).filterMap f = xs.filterMap f ++ (f x).toList := by
  rw [List.filterMap_append]
  cases hx : f x <;> simp [hx]

/-- The last of some calls is made on what the others leave. -/
theorem run_concat (l : DiagnosticList) (cs : List Call) (c : Call) :
    l.run (cs ++ [c]) = (l.run cs).call c := by
  simp only [run, List.foldl_append, List.foldl_cons, List.foldl_nil]

/-- The history ends with the last call, on what the others left. -/
theorem history_concat (l : DiagnosticList) (cs : List Call) (c : Call) :
    l.history (cs ++ [c]) = l.history cs ++ [⟨l.run cs, c⟩] := by
  induction cs generalizing l with
  | nil => rfl
  | cons first later ih => simp only [List.cons_append, history, ih, run, List.foldl_cons]

theorem sinceClear_concat_clear (es : List Event) (l : DiagnosticList) :
    sinceClear (es ++ [⟨l, .clear⟩]) = [] :=
  List.rtakeWhile_concat_neg _ _ _ (by simp)

/-- Any other call is one more since the last clearing. -/
theorem sinceClear_concat (es : List Event) (l : DiagnosticList) (h : c ≠ .clear) :
    sinceClear (es ++ [⟨l, c⟩]) = sinceClear es ++ [⟨l, c⟩] :=
  List.rtakeWhile_concat_pos _ _ _ (by simpa using h)

/-- What holds of a new list, and is kept when a limit is set and when a diagnostic is added, holds
of a list in use, told by what followed the last time that it was cleared. -/
theorem run_induction {motive : List Event → DiagnosticList → Prop}
    (new : ∀ limit, motive [] (withLimit limit))
    (setLimit : ∀ since l limit, motive since l →
      motive (since ++ [⟨l, .setLimit limit⟩]) { l with limit })
    (push : ∀ since l c d, c.diagnostic? = some d → motive since l →
      motive (since ++ [⟨l, c⟩]) (l.push d))
    (cap : Nat) (cs : List Call) :
    motive (sinceClear ((withLimit cap).history cs)) ((withLimit cap).run cs) := by
  induction cs using List.reverseRecOn with
  | nil => exact new cap
  | append_singleton cs c ih =>
    rw [history_concat, run_concat]
    obtain ⟨rfl, hcall⟩ | ⟨limit, rfl, hcall⟩ | ⟨d, hc, -, hd, hcall⟩ :=
      call_cases ((withLimit cap).run cs) c
    · rw [sinceClear_concat_clear, hcall]
      exact new _
    · have hc : Call.setLimit limit ≠ .clear := nofun
      rw [sinceClear_concat _ _ hc, hcall]
      exact setLimit _ _ limit ih
    · rw [sinceClear_concat _ _ hc, hcall]
      exact push _ _ c d hd ih

/-! ## The account -/

/-- What a list holds and counts, told by the calls since it was empty and had counted nothing. -/
structure Accounts (since : List Event) (l : DiagnosticList) : Prop where
  items : l.items = since.filterMap Event.kept?
  arrived : l.size + l.dropped = (since.filterMap Event.added?).length
  warnings : l.warnings = l.items.countP (·.severity = .warning)

/-- A full list keeps nothing. -/
theorem Event.kept?_of_full (h : l.isFull = true) : Event.kept? ⟨l, c⟩ = none :=
  if_neg (Nat.not_lt.mpr (isFull_eq_true.mp h))

/-- A list with room keeps what is added. -/
theorem Event.kept?_of_not_full (h : l.isFull = false) : Event.kept? ⟨l, c⟩ = c.diagnostic? :=
  if_pos (isFull_eq_false.mp h)

/-- An addition answers whether its diagnostic is kept. -/
theorem Event.add_eq_true_iff {e : Event} (h : e.call = .add d) :
    (e.before.add d).2 = true ↔ e.kept? = some d := by
  obtain ⟨l, c⟩ := e
  obtain rfl : c = .add d := h
  rw [add_snd]
  cases hfull : l.isFull with
  | true =>
    rw [kept?_of_full hfull]
    simp
  | false =>
    rw [kept?_of_not_full hfull]
    simp [Call.diagnostic?]

theorem Accounts.nil (limit : Nat) : Accounts [] (withLimit limit) := ⟨rfl, rfl, rfl⟩

/-- Another limit changes no account. -/
theorem Accounts.setLimit (h : Accounts since l) (limit : Nat) :
    Accounts (since ++ [⟨l, .setLimit limit⟩]) { l with limit } := by
  have hkept : Event.kept? ⟨l, .setLimit limit⟩ = none := ite_self none
  have hadded : Event.added? ⟨l, .setLimit limit⟩ = none := rfl
  refine ⟨?_, ?_, h.warnings⟩
  · rw [filterMap_concat, hkept, Option.toList_none, List.append_nil]
    exact h.items
  · rw [filterMap_concat, hadded, Option.toList_none, List.append_nil]
    exact h.arrived

/-- An addition is kept or counted, and so it is in the account. -/
theorem Accounts.push (h : Accounts since l) (hd : c.diagnostic? = some d) :
    Accounts (since ++ [⟨l, c⟩]) (l.push d) := by
  have hadded : Event.added? ⟨l, c⟩ = some d := hd
  have harrived : (l.push d).size + (l.push d).dropped =
      ((since ++ [Event.mk l c]).filterMap Event.added?).length := by
    rw [size_add_dropped_push, h.arrived, filterMap_concat, hadded, List.length_append,
      Option.toList_some, List.length_singleton]
  cases hfull : l.isFull with
  | true =>
    have hkept : Event.kept? ⟨l, c⟩ = none := Event.kept?_of_full hfull
    rw [push_of_full hfull] at harrived ⊢
    refine ⟨?_, harrived, h.warnings⟩
    rw [filterMap_concat, hkept, Option.toList_none, List.append_nil]
    exact h.items
  | false =>
    have hkept : Event.kept? ⟨l, c⟩ = some d := (Event.kept?_of_not_full hfull).trans hd
    rw [push_of_not_full hfull] at harrived ⊢
    refine ⟨?_, harrived, ?_⟩
    · rw [filterMap_concat, hkept, Option.toList_some, h.items]
    · rw [List.countP_append, List.countP_singleton, ← h.warnings]
      split
      · next hwarning => simp [hwarning]
      · next hnote => simp [hnote]

/-- The account is right whatever the calls were. -/
theorem accounts_run (cap : Nat) (cs : List Call) :
    Accounts (sinceClear ((withLimit cap).history cs)) ((withLimit cap).run cs) :=
  run_induction .nil (fun _ _ limit h => h.setLimit limit) (fun _ _ _ _ hd h => h.push hd) cap cs

/-- Every item is a warning or a note. -/
theorem Accounts.size_eq (h : Accounts since l) :
    l.size = l.warnings + l.items.countP (·.severity = .note) := by
  have hnote : l.items.countP (fun d => decide ¬decide (d.severity = .warning) = true) =
      l.items.countP (·.severity = .note) := by
    refine List.countP_congr fun d _ => ?_
    cases d.severity with
    | warning => decide
    | note => decide
  rw [size, h.warnings, ← hnote]
  exact List.length_eq_countP_add_countP _

/-! ## The limit -/

/-- The limit is the one that was set last. -/
theorem limit_run (cap : Nat) (cs : List Call) :
    ((withLimit cap).run cs).limit = (cs.filterMap Call.limit?).getLastD cap := by
  induction cs using List.reverseRecOn with
  | nil => rfl
  | append_singleton cs c ih =>
    rw [run_concat, filterMap_concat]
    obtain ⟨rfl, hcall⟩ | ⟨limit, rfl, hcall⟩ | ⟨d, -, hlimit, -, hcall⟩ :=
      call_cases ((withLimit cap).run cs) c
    · rw [hcall, Call.limit?, Option.toList_none, List.append_nil]
      · exact ih
      · nofun
    · rw [hcall, Call.limit?, Option.toList_some, List.getLastD_concat]
    · rw [hcall, limit_push, hlimit, Option.toList_none, List.append_nil]
      exact ih

/-- Adding does not lead beyond the limit. -/
theorem size_le_limit_push (h : l.size ≤ l.limit) : (l.push d).size ≤ (l.push d).limit := by
  cases hfull : l.isFull with
  | true =>
    rw [push_of_full hfull]
    exact h
  | false =>
    have hlt := isFull_eq_false.mp hfull
    rw [push_of_not_full hfull]
    simpa only [size, List.length_append, List.length_singleton, Nat.succ_le_iff] using hlt

/-- The size stays within the limit, if the limit was not set below the size since the list was
cleared last. -/
theorem size_le_limit_run (cap : Nat) (cs : List Call) :
    let l := (withLimit cap).run cs
    let since := sinceClear ((withLimit cap).history cs)
    (∀ e ∈ since, ∀ limit, e.call = .setLimit limit → e.before.size ≤ limit) →
      l.size ≤ l.limit ∧ ∀ e ∈ since, e.before.size ≤ e.before.limit := by
  refine run_induction (motive := fun since l =>
    (∀ e ∈ since, ∀ limit, e.call = .setLimit limit → e.before.size ≤ limit) →
      l.size ≤ l.limit ∧ ∀ e ∈ since, e.before.size ≤ e.before.limit)
    (fun limit _ => ⟨Nat.zero_le limit, nofun⟩) ?_ ?_ cap cs
  · intro since l limit ih h
    rw [List.forall_mem_append, List.forall_mem_singleton] at h ⊢
    obtain ⟨hsize, hevents⟩ := ih h.1
    exact ⟨h.2 limit rfl, hevents, hsize⟩
  · intro since l c d _ ih h
    rw [List.forall_mem_append, List.forall_mem_singleton] at h ⊢
    obtain ⟨hsize, hevents⟩ := ih h.1
    exact ⟨size_le_limit_push hsize, hevents, hsize⟩

/-- As long as the limit is the same, the calls since the list was cleared last come to one batch
of additions to a new list. -/
theorem run_of_limit_kept (cap : Nat) (cs : List Call) (limit : Nat) :
    let l := (withLimit cap).run cs
    let since := sinceClear ((withLimit cap).history cs)
    (∀ e ∈ since, e.before.limit = limit) → l.limit = limit →
      l = (withLimit limit).pushAll (since.filterMap Event.added?) := by
  refine run_induction (motive := fun since l =>
    (∀ e ∈ since, e.before.limit = limit) → l.limit = limit →
      l = (withLimit limit).pushAll (since.filterMap Event.added?)) ?_ ?_ ?_ cap cs
  · rintro _ - rfl
    rfl
  · intro since l next ih h hnext
    rw [List.forall_mem_append, List.forall_mem_singleton] at h
    have hl := ih h.1 h.2
    -- The limit that is set is the one that the list has.
    obtain rfl : next = l.limit := hnext.trans h.2.symm
    rw [filterMap_concat, pushAll_append, ← hl]
    rfl
  · intro since l c d hd ih h _
    rw [List.forall_mem_append, List.forall_mem_singleton] at h
    have hl := ih h.1 h.2
    rw [filterMap_concat, pushAll_append, ← hl, Event.added?, hd]
    rfl

/-! ## Every run -/

/-- **Items and counters of a list are accounted for at any time.**  Whatever the first limit was
and the calls were, the items are, in their order, the diagnostics that came since the list was
cleared last and met room, and an addition answers whether its diagnostic did.  The others were
dropped, so that items and dropped ones make up the additions.  The count of warnings is that of
the warnings among the items, and what is left of the size counts the notes.  The limit is the one
that was set last.  Unless it was set below the size, the size stays within it, and while it stays
the same, the items are the first of the additions, as many as it allows. -/
theorem account_of_run (cap : Nat) (cs : List Call) :
    let l := (withLimit cap).run cs
    let events := (withLimit cap).history cs
    let since := sinceClear events
    let added := since.filterMap Event.added?
    l.items = since.filterMap Event.kept? ∧
    (∀ e ∈ events, ∀ d, e.call = .add d → ((e.before.add d).2 = true ↔ e.kept? = some d)) ∧
    l.size + l.dropped = added.length ∧
    l.warnings = l.items.countP (·.severity = .warning) ∧
    l.notes = l.items.countP (·.severity = .note) ∧
    l.warnings ≤ l.size ∧ l.warnings + l.notes = l.size ∧
    l.limit = (cs.filterMap Call.limit?).getLastD cap ∧
    ((∀ e ∈ since, ∀ limit, e.call = .setLimit limit → e.before.size ≤ limit) →
      l.size ≤ l.limit ∧ ∀ e ∈ since, e.before.size ≤ e.before.limit) ∧
    ∀ limit, (∀ e ∈ since, e.before.limit = limit) → l.limit = limit →
      l.items = added.take limit := by
  intro l events since added
  have haccounts : Accounts since l := accounts_run cap cs
  have hsize := haccounts.size_eq
  have hnotes : l.notes = l.items.countP (·.severity = .note) := by
    rw [notes]
    omega
  refine ⟨haccounts.items, fun e _ d hadd => Event.add_eq_true_iff hadd, haccounts.arrived,
    haccounts.warnings, hnotes, by omega, by omega, limit_run cap cs, size_le_limit_run cap cs, ?_⟩
  intro limit hevents hlimit
  have hbatch : l = (withLimit limit).pushAll added :=
    run_of_limit_kept cap cs limit hevents hlimit
  rw [hbatch]
  exact (pushAll_withLimit limit added).1

/-- A list whose limit was set below its size, cleared then and filled again: the new items stay
within the limit, which is now kept. -/
theorem account_of_run_filledAgain :
    let four : Diagnostic := ⟨{}, .note, Text.ascii "four", [], []⟩
    let five : Diagnostic := ⟨{}, .warning, Text.ascii "five", [], []⟩
    let cs : List Call :=
      [.addWarning {} (Text.ascii "one") [] [], .addNote {} (Text.ascii "two"), .setLimit 1,
        .addNote {} (Text.ascii "three"), .clear, .add four, .setLimit 1, .add five]
    let l := (withLimit 3).run cs
    let since := sinceClear ((withLimit 3).history cs)
    (∀ e ∈ since, ∀ limit, e.call = .setLimit limit → e.before.size ≤ limit) ∧
      (∀ e ∈ since, e.before.limit = 1) ∧ l.limit = 1 ∧
      since.filterMap Event.added? = [four, five] ∧
      l.items = [four] ∧ l.size + l.dropped = 2 ∧ l.warnings = 0 ∧ l.size ≤ l.limit := by
  intro four five cs l since
  have hsince : since = [⟨withLimit 1, .add four⟩, ⟨(withLimit 1).push four, .setLimit 1⟩,
      ⟨(withLimit 1).push four, .add five⟩] := by decide
  have hset : ∀ e ∈ since, ∀ limit, e.call = .setLimit limit → e.before.size ≤ limit := by
    rw [hsince]
    intro e he limit hcall
    simp only [List.mem_cons, List.not_mem_nil, or_false] at he
    obtain rfl | rfl | rfl := he
    · cases hcall
    · cases hcall
      decide
    · cases hcall
  have hkept : ∀ e ∈ since, e.before.limit = 1 := by
    rw [hsince]
    decide
  have hlimit : l.limit = 1 := by decide
  have hadded : since.filterMap Event.added? = [four, five] := by
    rw [hsince]
    rfl
  obtain ⟨-, -, hcount, hwarnings, -, -, -, -, hwithin, hfirst⟩ := account_of_run 3 cs
  have hitems : l.items = [four] := by
    rw [hfirst 1 hkept hlimit, hadded]
    rfl
  refine ⟨hset, hkept, hlimit, hadded, hitems, hcount, ?_, (hwithin hset).1⟩
  rw [hwarnings, hitems]
  rfl

end DiagnosticList

end StyleSpan
