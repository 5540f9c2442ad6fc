import StyleSpan.Log.Config

/-!
# StyleSpan.Proofs.Log.Slots

Which slots are in use.  The table has its length, and the logger has a pointer to the
default category; nothing but the operations makes the two agree.  Making the default
category sets the pointer and a shutdown takes it back; no other operation touches it:

```
             table            pointer
withDefault  default only     slot 0, if it was not set
get          one more         as after withDefault
shutDown     empty            not set
others       as long          as before
```

* `applies` — the ways in which a line of a configuration is applied;
* `withDefault_configure` — a configuration leaves the pointer set;
* `DefaultKept` — the pointer is set if there is a table, and then leads to its first slot;
* `defaultKept_applyLine`, `defaultKept_get` — this is kept, whatever is asked for.
-/

namespace StyleSpan

open Text

/-- The category as a rule makes it before its target is looked at. -/
def Rule.setLevel (r : Rule) (c : Category) : Category :=
  { c with threshold := r.level.rank, enabled := true }

namespace Logger

variable {l l' : Logger} {slot : Slot}

/-! ## The pointer to the default category -/

@[simp] theorem default?_update (l : Logger) (slot : Slot) (f : Category → Category) :
    (l.update slot f).default? = l.default? := rfl

@[simp] theorem default?_closeOwned (l : Logger) (slot : Slot) :
    (l.closeOwned slot).default? = l.default? := by
  rcases l.closeOwned_eq_or slot with h | ⟨stream, h⟩
  · rw [h]
  · rw [h, closeStream]

@[simp] theorem default?_release (l : Logger) (slot : Slot) :
    (l.release slot).default? = l.default? := by
  rw [release, default?_update, default?_closeOwned]

@[simp] theorem default?_elim_update (l : Logger) (slot : Option Slot) (f : Category → Category) :
    (slot.elim l fun i => l.update i f).default? = l.default? := by
  cases slot <;> rfl

@[simp] theorem default?_setOutput (l : Logger) (slot : Option Slot) (stream : Option Stream) :
    (l.setOutput slot stream).default? = l.default? := by
  cases slot with
  | none => rfl
  | some slot => exact default?_release l slot

@[simp] theorem default?_write (l : Logger) (slot : Option Slot) (rank : Int) (text : Text) :
    (l.write slot rank text).default? = l.default? := by
  rcases l.write_eq_or slot rank text with h | ⟨stream, h⟩ <;> rw [h]

/-- Sending a category elsewhere keeps the length of the table. -/
@[simp] theorem length_setOutput (l : Logger) (slot : Option Slot) (stream : Option Stream) :
    (l.setOutput slot stream).categories.length = l.categories.length := by
  cases slot with
  | none => rfl
  | some slot => rw [setOutput, Option.elim_some, length_update, length_release]

/-- A target touches neither the pointer nor the length of the table, opened or not. -/
theorem slots_retarget (l : Logger) (slot : Slot) (target : Target) :
    (l.retarget slot target).1.default? = l.default? ∧
      (l.retarget slot target).1.categories.length = l.categories.length := by
  cases target with
  | stdout | stderr => exact ⟨default?_setOutput l _ _, length_setOutput l _ _⟩
  | file path =>
    rw [retarget]
    cases l.store.openAppend? path with
    | none => exact ⟨rfl, rfl⟩
    | some next =>
      exact ⟨default?_setOutput _ _ _, (length_update _ _ _).trans (length_setOutput _ _ _)⟩

/-- What asking for a name does: it finds a slot, there is no room, or a new category joins. -/
theorem get_eq_or (l : Logger) (name : Text) :
    (l.get name).1 = l.withDefault ∨
      l.get name = (l.withDefault.join name, some l.withDefault.categories.length) := by
  rw [get]
  split
  · exact .inl rfl
  · split
    · exact .inl rfl
    · split
      · exact .inl rfl
      · exact .inr rfl

/-- Asking for a name makes the default category, and touches the pointer in no other way. -/
theorem default?_get (l : Logger) (name : Text) :
    (l.get name).1.default? = l.withDefault.default? := by
  rcases l.get_eq_or name with hsame | hjoin
  · rw [hsame]
  · rw [hjoin]
    rfl

/-- What applying a line of a configuration comes to. -/
inductive Applies (l : Logger) (line : Text) : Prop where
  /-- The line is no rule. -/
  | refused (failure : Failure) (hparse : Rule.parse line = .error failure)
      (h : l.applyLine line = (l, some failure))
  /-- There is no room for the category of the rule. -/
  | full (r : Rule) (hparse : Rule.parse line = .ok r) (hslot : (l.get r.category).2 = none)
      (h : l.applyLine line = ((l.get r.category).1, some .tableFull))
  /-- The level is set, and the target refused. -/
  | untargeted (r : Rule) (slot : Slot) (failure : Failure) (hparse : Rule.parse line = .ok r)
      (hslot : (l.get r.category).2 = some slot) (htarget : r.target = .error failure)
      (h : l.applyLine line = ((l.get r.category).1.update slot r.setLevel, some failure))
  /-- The level is set, and the category sent to the target. -/
  | targeted (r : Rule) (slot : Slot) (target : Target) (hparse : Rule.parse line = .ok r)
      (hslot : (l.get r.category).2 = some slot) (htarget : r.target = .ok target)
      (h : l.applyLine line = ((l.get r.category).1.update slot r.setLevel).retarget slot target)

/-- A line is applied in one of these ways. -/
theorem applies (l : Logger) (line : Text) : l.Applies line := by
  cases hparse : Rule.parse line with
  | error failure => exact .refused failure hparse (by rw [applyLine, hparse])
  | ok r =>
    have happly : l.applyLine line = l.applyRule r := by rw [applyLine, hparse]
    cases hget : l.get r.category with
    | mk found slot? =>
      cases slot? with
      | none =>
        refine .full r hparse (by rw [hget]) ?_
        rw [happly, applyRule, hget]
      | some slot =>
        have hslot : (l.get r.category).2 = some slot := by rw [hget]
        cases htarget : r.target with
        | error failure =>
          refine .untargeted r slot failure hparse hslot htarget ?_
          rw [happly, applyRule, hget, htarget]
          rfl
        | ok target =>
          refine .targeted r slot target hparse hslot htarget ?_
          rw [happly, applyRule, hget, htarget]
          rfl

/-- What a line of a configuration does to the pointer and to the length of the table is nothing,
or what asking for a name does. -/
theorem slots_applyLine (l : Logger) (line : Text) :
    (l.applyLine line).1 = l ∨
      ∃ name, (l.applyLine line).1.default? = (l.get name).1.default? ∧
        (l.applyLine line).1.categories.length = (l.get name).1.categories.length := by
  cases l.applies line with
  | refused failure hparse h => exact .inl (by rw [h])
  | full r hparse hslot h =>
    rw [h]
    exact .inr ⟨r.category, rfl, rfl⟩
  | untargeted r slot failure hparse hslot htarget h =>
    rw [h]
    exact .inr ⟨r.category, rfl, length_update _ _ _⟩
  | targeted r slot target hparse hslot htarget h =>
    obtain ⟨hdefault, hlength⟩ :=
      slots_retarget ((l.get r.category).1.update slot r.setLevel) slot target
    rw [h]
    exact .inr ⟨r.category, hdefault, hlength.trans (length_update _ _ _)⟩

/-- A pointer that is set stays. -/
theorem default?_applyLine (h : l.default? = some slot) (line : Text) :
    (l.applyLine line).1.default? = some slot := by
  rcases l.slots_applyLine line with hsame | ⟨name, hdefault, -⟩
  · rw [hsame, h]
  · rw [hdefault, default?_get, withDefault_of_some h, h]

/-- Reading lines leaves the pointer to the default category where it is. -/
theorem default?_foldl_next {r : Reading} (h : r.logger.default? = some slot)
    (rawLines : List Text) : (rawLines.foldl Reading.next r).logger.default? = some slot := by
  induction rawLines generalizing r with
  | nil => exact h
  | cons rawLine more ih =>
    refine ih ?_
    rw [Reading.next]
    cases LineKind.ofLine (trim rawLine) with
    | empty | comment | header rules => exact h
    | entry =>
      dsimp only
      split
      · have hline := default?_applyLine h (trim rawLine)
        cases hnext : r.logger.applyLine (trim rawLine) with
        | mk logger failure? =>
          rw [hnext] at hline
          cases failure? <;> exact hline
      · exact h

/-- After a configuration the default category is there. -/
theorem withDefault_configure (l : Logger) (config : Text) :
    (l.configure config).1.withDefault = (l.configure config).1 := by
  obtain ⟨slot, hslot⟩ := l.exists_default?_withDefault
  have hstart : (Reading.mk l.withDefault false none).logger.default? = some slot := hslot
  exact withDefault_of_some (default?_foldl_next hstart config.lines)

/-! ## The pointer and the table -/

/-- The pointer to the default category is unset as long as the table is empty, and leads to the
first slot when it is not. -/
structure DefaultKept (l : Logger) : Prop where
  unset_iff : l.default? = none ↔ l.categories.length = 0
  first : ∀ slot, l.default? = some slot → slot = 0

namespace DefaultKept

/-- Nothing but the pointer and the length of the table counts. -/
theorem of_eq (h : l.DefaultKept) (hdefault : l'.default? = l.default?)
    (hlength : l'.categories.length = l.categories.length) : l'.DefaultKept := by
  refine ⟨?_, fun slot hslot => h.first slot ?_⟩
  · rw [hdefault, hlength, h.unset_iff]
  · rw [← hdefault, hslot]

/-- In a table that is not empty the default category has slot 0. -/
theorem default?_eq (h : l.DefaultKept) (hne : l.categories.length ≠ 0) : l.default? = some 0 := by
  cases hd : l.default? with
  | none => exact absurd (h.unset_iff.mp hd) hne
  | some slot => rw [h.first slot hd]

/-- Where the pointer leads there is a category. -/
theorem lt_length (h : l.DefaultKept) (hslot : l.default? = some slot) :
    slot < l.categories.length := by
  have hset : l.categories.length ≠ 0 := by
    intro hzero
    rw [h.unset_iff.mpr hzero] at hslot
    cases hslot
  rw [h.first slot hslot]
  exact Nat.pos_of_ne_zero hset

/-- The table is empty before the default category is made. -/
theorem categories_eq_nil (h : l.DefaultKept) (hunset : l.default? = none) : l.categories = [] :=
  List.length_eq_zero_iff.mp (h.unset_iff.mp hunset)

end DefaultKept

/-- After a shutdown the pointer is unset. -/
theorem defaultKept_shutDown (l : Logger) : l.shutDown.DefaultKept :=
  ⟨iff_of_true rfl rfl, fun _ hslot => by cases hslot⟩

/-- Making the default category sets the pointer with the first slot. -/
theorem defaultKept_withDefault (h : l.DefaultKept) : l.withDefault.DefaultKept := by
  cases hd : l.default? with
  | some slot => rwa [withDefault_of_some hd]
  | none =>
    rw [withDefault_of_none hd]
    exact ⟨iff_of_false (by simp) (by simp), fun slot hslot => (Option.some.inj hslot).symm⟩

/-- A logger in use has its default category in the first slot. -/
theorem default?_withDefault (h : l.DefaultKept) : l.withDefault.default? = some 0 := by
  obtain ⟨slot, hslot⟩ := l.exists_default?_withDefault
  rw [hslot, (defaultKept_withDefault h).first slot hslot]

/-- Once the default category is made the table is not empty. -/
theorem length_withDefault_pos (h : l.DefaultKept) : 0 < l.withDefault.categories.length :=
  (defaultKept_withDefault h).lt_length (default?_withDefault h)

/-- As long as the pointer is unset there is nothing in the table that would be lost. -/
theorem isPrefix_withDefault (h : l.DefaultKept) : l.categories <+: l.withDefault.categories := by
  cases hd : l.default? with
  | some slot => exact ⟨[], by rw [withDefault_of_some hd, List.append_nil]⟩
  | none =>
    rw [h.categories_eq_nil hd]
    exact List.nil_prefix

/-- Asking for a name keeps pointer and table together. -/
theorem defaultKept_get (h : l.DefaultKept) (name : Text) : (l.get name).1.DefaultKept := by
  have hready := defaultKept_withDefault h
  rcases l.get_eq_or name with hsame | hjoin
  · rwa [hsame]
  · have hset := default?_withDefault h
    rw [hjoin]
    refine ⟨iff_of_false ?_ ?_, hready.first⟩
    · rw [join, hset]
      exact Option.some_ne_none 0
    · simp [join]

/-- A line of a configuration keeps them together, whether or not it is refused. -/
theorem defaultKept_applyLine (h : l.DefaultKept) (line : Text) :
    (l.applyLine line).1.DefaultKept := by
  rcases l.slots_applyLine line with hsame | ⟨name, hdefault, hlength⟩
  · rwa [hsame]
  · exact (defaultKept_get h name).of_eq hdefault hlength

end Logger

end StyleSpan
