import StyleSpan.Diagnostic.Basic

/-!
# StyleSpan.Proofs.Diagnostic.Limit

What a list with a limit keeps of the diagnostics that come to it: as many of the first
as there is room for.  The rest is counted, and kept warnings are counted, too.
-/

namespace StyleSpan

namespace DiagnosticList

/-- The number of diagnostics that there is room for. -/
def room (l : DiagnosticList) : Nat := l.limit - l.size

/-- A full list has no room, and none after an addition. -/
theorem room_push_of_full {l : DiagnosticList} (h : l.isFull = true) (d : Diagnostic) :
    l.room = 0 ∧ (l.push d).room = 0 := by
  rw [push_of_full h]
  have hle := isFull_eq_true.mp h
  simp only [room, size] at hle ⊢
  omega

/-- An addition takes room for one. -/
theorem room_push_of_not_full {l : DiagnosticList} (h : l.isFull = false) (d : Diagnostic) :
    l.room = (l.push d).room + 1 := by
  rw [push_of_not_full h]
  have hlt := isFull_eq_false.mp h
  simp only [room, size, List.length_append, List.length_singleton] at hlt ⊢
  omega

/-- The first diagnostics are kept, in their order. -/
theorem items_pushAll (l : DiagnosticList) (ds : List Diagnostic) :
    (l.pushAll ds).items = l.items ++ ds.take l.room := by
  induction ds generalizing l with
  | nil => simp
  | cons d more ih =>
    rw [pushAll_cons, ih, items_push]
    cases h : l.isFull with
    | true =>
      obtain ⟨hroom, hroom'⟩ := room_push_of_full h d
      simp [hroom, hroom']
    | false => simp [room_push_of_not_full h d]

/-- The rest is dropped. -/
theorem dropped_pushAll (l : DiagnosticList) (ds : List Diagnostic) :
    (l.pushAll ds).dropped = l.dropped + (ds.length - l.room) := by
  induction ds generalizing l with
  | nil => simp
  | cons d more ih =>
    rw [pushAll_cons, ih, List.length_cons]
    cases h : l.isFull with
    | true =>
      obtain ⟨hroom, hroom'⟩ := room_push_of_full h d
      have hdropped : (l.push d).dropped = l.dropped + 1 := by rw [push_of_full h]
      omega
    | false =>
      have hroom := room_push_of_not_full h d
      have hdropped : (l.push d).dropped = l.dropped := by rw [push_of_not_full h]
      omega

/-- Of the warnings, those that are kept are counted. -/
theorem warnings_pushAll (l : DiagnosticList) (ds : List Diagnostic) :
    (l.pushAll ds).warnings = l.warnings + (ds.take l.room).countP (·.severity = .warning) := by
  induction ds generalizing l with
  | nil => simp
  | cons d more ih =>
    rw [pushAll_cons, ih]
    cases h : l.isFull with
    | true =>
      obtain ⟨hroom, hroom'⟩ := room_push_of_full h d
      have hwarnings : (l.push d).warnings = l.warnings := by rw [push_of_full h]
      simp [hroom, hroom', hwarnings]
    | false =>
      have hwarnings : (l.push d).warnings =
          if d.severity = .warning then l.warnings + 1 else l.warnings := by
        rw [push_of_not_full h]
      rw [room_push_of_not_full h d, hwarnings, List.take_succ_cons, List.countP_cons]
      split
      · next hd => simp [hd]; omega
      · next hd => simp [hd]

/-- What a new list keeps and counts of the diagnostics that come to it. -/
theorem pushAll_withLimit (limit : Nat) (ds : List Diagnostic) :
    let l := (withLimit limit).pushAll ds
    l.items = ds.take limit ∧ l.dropped = ds.length - limit ∧
      l.size + l.dropped = ds.length ∧
      l.warnings = (ds.take limit).countP (·.severity = .warning) := by
  intro l
  have hitems : l.items = ds.take limit := (withLimit limit).items_pushAll ds
  have hdropped : l.dropped = ds.length - limit :=
    ((withLimit limit).dropped_pushAll ds).trans (Nat.zero_add _)
  have hwarnings : l.warnings = (ds.take limit).countP (·.severity = .warning) :=
    ((withLimit limit).warnings_pushAll ds).trans (Nat.zero_add _)
  refine ⟨hitems, hdropped, ?_, hwarnings⟩
  rw [size, hitems, hdropped, List.length_take]
  omega

end DiagnosticList

end StyleSpan
