import StyleSpan.Proofs.Log.Names
import StyleSpan.Proofs.Log.Refusals

/-!
# StyleSpan.Proofs.Log.Table

The table of categories, by the names that stand in it.  It is empty until the default
category is made, which then stands at its first slot, and after a shutdown; in between
categories join behind the others while there is room, and none is moved or renamed.
Whichever way a category comes to be, a name is asked for, so all of this is a matter of
`get`.  That the pointer to the default category goes along with the table is `DefaultKept`.

* `get_of_full_table`, `get_of_room` — a new name is turned away, or joins;
* `tableKept_get` — the table is kept when a name is asked for;
* `tableKept_of_reachable` — and by all steps, by induction on them;
* `table_of_reachable` — the whole of it, for every session.
-/

namespace StyleSpan

open Text

/-- The names of a table: no more than there is room for, that of the default category first, and
none that stands for the default category. -/
structure TableKept (ns : List Text) : Prop where
  length_le : ns.length ≤ Logger.capacity
  first : ns ≠ [] → ns[0]? = some Category.default.name
  named : ∀ name ∈ ns, Logger.namesDefault name = false

variable {ns : List Text} {name : Text} {l : Logger} {slot : Slot}

/-! ## Names -/

theorem Logger.namesDefault_eq_false : namesDefault name = false ↔ name ≠ [] ∧ name ≠ [star] := by
  simp [namesDefault]

/-- The stored part of a name is a name. -/
theorem Logger.namesDefault_take (h : namesDefault name = false) :
    namesDefault (name.take nameCapacity) = false := by
  rw [namesDefault_eq_false] at h ⊢
  refine ⟨fun hnil => ?_, fun hstar => ?_⟩
  · rcases List.take_eq_nil_iff.mp hnil with hzero | hempty
    · exact absurd hzero (by decide)
    · exact h.1 hempty
  · -- a stored part of one byte is the whole name
    have hlength := congrArg List.length hstar
    rw [List.length_take, List.length_singleton] at hlength
    have hcapacity : nameCapacity = 63 := rfl
    rw [List.take_of_length_le (by omega)] at hstar
    exact h.2 hstar

namespace TableKept

theorem nil : TableKept [] := ⟨Nat.zero_le _, fun h => absurd rfl h, by simp⟩

/-- A name may join a table with a default category, if there is room. -/
theorem join (h : TableKept ns) (hne : ns ≠ []) (hroom : ns.length < Logger.capacity)
    (hname : Logger.namesDefault name = false) :
    TableKept (ns ++ [name.take Logger.nameCapacity]) where
  length_le := by
    rw [List.length_append, List.length_singleton]
    omega
  first := fun _ => by
    rw [List.getElem?_append_left (List.length_pos_iff.mpr hne), h.first hne]
  named := by
    simp only [List.mem_append, List.mem_singleton]
    rintro n (hn | rfl)
    · exact h.named n hn
    · exact Logger.namesDefault_take hname

end TableKept

namespace Logger

/-! ## Asking for a name -/

/-- With the default category there is a name. -/
theorem names_withDefault_ne (h : l.DefaultKept) : l.withDefault.names ≠ [] := by
  rw [← List.length_pos_iff, length_names]
  exact length_withDefault_pos h

/-- The default category comes first, under a name that can be stored. -/
theorem tableKept_withDefault (h : TableKept l.names) : TableKept l.withDefault.names := by
  have hdefault : TableKept [Category.default.name] := ⟨by decide, fun _ => rfl, by decide⟩
  rw [withDefault]
  split
  · exact h
  · exact hdefault

/-- If there is no room, a new name is turned away and nothing happens. -/
theorem get_of_full_table (hname : namesDefault name = false) (hnew : name ∉ l.withDefault.names)
    (hfull : capacity ≤ l.withDefault.names.length) :
    l.withDefault = l ∧ l.get name = (l, none) := by
  have hget := get_of_new hname hnew
  rw [if_pos hfull] at hget
  have hready : (l.get name).1 = l := get_of_full (by rw [hget])
  have hsame : l.withDefault = l := by rwa [hget] at hready
  exact ⟨hsame, by rw [hget, hsame]⟩

/-- If there is room, a new name joins behind the others, with the threshold and the stream that
the default category has. -/
theorem get_of_room (h : l.DefaultKept) (hname : namesDefault name = false)
    (hnew : name ∉ l.withDefault.names) (hroom : l.withDefault.names.length < capacity) :
    ∃ first, l.withDefault.categories[0]? = some first ∧
      l.get name =
        ({ l.withDefault with
            categories := l.withDefault.categories ++
              [{ name := name.take nameCapacity, threshold := first.threshold,
                 output := first.output, ownsOutput := false, enabled := true }]
            former := l.withDefault.former.drop 1 },
          some l.withDefault.categories.length) := by
  have hget := get_of_new hname hnew
  rw [if_neg (Nat.not_le.mpr hroom), length_names] at hget
  obtain ⟨first, hat⟩ : ∃ first, l.withDefault.categories[0]? = some first :=
    ⟨_, List.getElem?_eq_getElem (length_withDefault_pos h)⟩
  have hfirst : l.withDefault.category? l.withDefault.default? = some first := by
    rw [default?_withDefault h]
    exact hat
  refine ⟨first, hat, ?_⟩
  rw [hget, join, newCategory, hfirst, Option.getD_some]

/-- With no category there, the default category is made, and is all that is found. -/
theorem withDefault_of_empty (h : l.DefaultKept) (hempty : l.categories.length = 0) :
    l.withDefault =
        { l with
          categories := [Category.default]
          former := l.former.drop 1
          default? := some 0 } ∧
      l.get Category.default.name = (l.withDefault, some 0) := by
  have hready := withDefault_of_none (h.unset_iff.mpr hempty)
  rw [List.length_eq_zero_iff.mp hempty, List.nil_append] at hready
  have hname : namesDefault Category.default.name = false := by decide
  have hfound : l.withDefault.find? Category.default.name = some 0 := by
    rw [hready, find?]
    rfl
  exact ⟨hready, get_of_find? hname hfound⟩

/-- Asking for a name hides no other. -/
theorem find?_get {other : Text} (hd : l.DefaultKept)
    (h : l.withDefault.find? other = some slot) (name : Text) :
    (l.get name).1.find? other = some slot := by
  have hgrow : NamesGrow [Category.default.name, name] l.withDefault.names
      (l.withDefault.get name).1.names :=
    grows_get (defaultKept_withDefault hd) List.mem_cons_self
      (List.mem_cons_of_mem _ List.mem_cons_self)
  rw [get_withDefault] at hgrow
  exact find?_of_isPrefix hgrow.isPrefix h

/-- Asking for a name keeps the table in order. -/
theorem tableKept_get (hd : l.DefaultKept) (h : TableKept l.names) (name : Text) :
    TableKept (l.get name).1.names := by
  have hready := tableKept_withDefault h
  cases hname : namesDefault name with
  | true =>
    rw [get, hname]
    exact hready
  | false =>
    by_cases hnew : name ∈ l.withDefault.names
    · rcases l.get_of_name hname with ⟨slot, -, hget⟩ | ⟨hnot, -⟩ | ⟨hnot, -⟩
      · rwa [hget]
      · exact absurd hnew hnot
      · exact absurd hnew hnot
    · rw [get_of_new hname hnew]
      split
      · exact hready
      · next hroom =>
        rw [names_join]
        exact hready.join (names_withDefault_ne hd) (Nat.not_le.mp hroom) hname

/-- The name at the slot that a name got: that of the default category, or the stored part. -/
theorem getElem?_names_get (hd : l.DefaultKept) (htable : TableKept l.names)
    (hstored : NamesStored l.names) (h : (l.get name).2 = some slot) :
    (l.get name).1.names[slot]? =
      some (if namesDefault name then Category.default.name else name.take nameCapacity) := by
  cases hname : namesDefault name with
  | true =>
    rw [get_of_namesDefault hd hname] at h ⊢
    rw [← Option.some.inj h]
    exact (tableKept_withDefault htable).first (names_withDefault_ne hd)
  | false => exact names_of_get hd hstored hname h

end Logger

namespace Session

variable {s : Session} {a : Step}

/-! ## Steps -/

/-- Every step keeps the table in order: it asks for a name, empties the table or leaves the names
alone. -/
theorem tableKept_step (hd : s.logger.DefaultKept) (h : TableKept s.logger.names) (a : Step) :
    TableKept (s.step a).logger.names := by
  by_cases hshut : a = .shutDown
  · rw [hshut, names_shutDown]
    exact .nil
  · rcases s.names_step hshut with hsame | hready | ⟨name, -, hget⟩
    · rwa [hsame]
    · rw [hready]
      exact Logger.tableKept_withDefault h
    · rw [hget]
      exact Logger.tableKept_get hd h name

/-- The table is kept whatever the steps were. -/
theorem tableKept_of_reachable (h : s.Reachable) : TableKept s.logger.names := by
  induction h with
  | start paths files stdout stderr timestamps clock => exact .nil
  | step h _ ih => exact tableKept_step (inOrder_of_reachable h).pointer ih _

/-- A slot that was handed out keeps its name until a shutdown. -/
theorem name_of_handle (h : s.Reachable) {name : Text} {slot : Slot}
    (hslot : (s.logger.get name).2 = some slot) {cs : List Call} (hcs : .single .shutDown ∉ cs) :
    ∃ c, ((s.step (.get name)).calls cs).logger.category? (some slot) = some c ∧
      c.name = if Logger.namesDefault name then Category.default.name
        else name.take Logger.nameCapacity := by
  have hd := (inOrder_of_reachable h).pointer
  obtain ⟨joined, hjoined⟩ := isPrefix_calls hcs (defaultKept_step hd (.get name))
  have hat := Logger.getElem?_names_get hd (tableKept_of_reachable h) (namesStored_of_reachable h)
    hslot
  have hlater :
      ((s.logger.get name).1.names ++ joined)[slot]? = (s.logger.get name).1.names[slot]? :=
    List.getElem?_append_left (List.getElem?_eq_some_iff.mp hat).1
  change ((s.logger.get name).1.names ++ joined) = _ at hjoined
  rw [hat, hjoined, Logger.names, List.getElem?_map] at hlater
  exact Option.map_eq_some_iff.mp hlater

/-! ## Every session -/

/-- **The table of categories only grows, and not beyond its capacity.**  It is empty exactly as
long as the pointer to the default category is unset; otherwise the pointer leads to the first slot,
the default category stands there, and no name stands for it.  Until a shutdown no slot is given up,
renamed or moved, so that a slot that was handed out keeps its name.  Asking for a name makes the
default category, where it is still to be made, and nothing else is done to the table before the
name is looked up.  A name that is not there gets a slot of its own behind all others, with the
threshold and the stream of the default category, or is turned away when the table is full; the
names that were found before are found at their slots. -/
theorem table_of_reachable (h : s.Reachable) :
    let ready := s.logger.withDefault
    s.logger.categories.length ≤ Logger.capacity ∧
    (s.logger.categories.length = 0 ↔ s.logger.default? = none) ∧
    (s.logger.categories.length = 0 →
      ready =
          { s.logger with
            categories := [Category.default]
            former := s.logger.former.drop 1
            default? := some 0 } ∧
        s.logger.get Category.default.name = (ready, some 0)) ∧
    (s.logger.categories.length ≠ 0 → ready = s.logger) ∧
    (s.logger.categories.length ≠ 0 → s.logger.default? = some 0 ∧
      s.logger.names[0]? = some Category.default.name ∧
      ∀ name ∈ s.logger.names, name ≠ [] ∧ name ≠ [star]) ∧
    (∀ cs, .single .shutDown ∉ cs → s.logger.names <+: (s.calls cs).logger.names) ∧
    (∀ name slot, (s.logger.get name).2 = some slot → ∀ cs, .single .shutDown ∉ cs →
      ∃ c, ((s.step (.get name)).calls cs).logger.category? (some slot) = some c ∧
        c.name = if Logger.namesDefault name then Category.default.name
          else name.take Logger.nameCapacity) ∧
    (∀ name, Logger.namesDefault name = true → s.logger.get name = (ready, some 0)) ∧
    ∀ name, Logger.namesDefault name = false → name ∉ ready.names →
      ((ready.categories.length < Logger.capacity ∧
          ∃ first, ready.categories[0]? = some first ∧
            s.logger.get name =
              ({ ready with
                  categories := ready.categories ++
                    [{ name := name.take Logger.nameCapacity, threshold := first.threshold,
                       output := first.output, ownsOutput := false, enabled := true }]
                  former := ready.former.drop 1 },
                some ready.categories.length)) ∨
        (s.logger.categories.length = Logger.capacity ∧
          s.logger.get name = (s.logger, none))) ∧
      ∀ other slot, ready.find? other = some slot →
        (s.logger.get name).1.find? other = some slot := by
  intro ready
  have hd := (inOrder_of_reachable h).pointer
  have htable := tableKept_of_reachable h
  have hle := htable.length_le
  rw [Logger.length_names] at hle
  refine ⟨hle, hd.unset_iff.symm, fun hempty => Logger.withDefault_of_empty hd hempty,
    fun hne => Logger.withDefault_of_some (hd.default?_eq hne),
    fun hne => ⟨hd.default?_eq hne, htable.first ?_, fun name hmem => ?_⟩,
    fun cs hcs => isPrefix_calls hcs hd, fun name slot hslot cs hcs => name_of_handle h hslot hcs,
    fun name hname => Logger.get_of_namesDefault hd hname,
    fun name hname hnew => ⟨?_, fun other slot hother => Logger.find?_get hd hother name⟩⟩
  · rw [← List.length_pos_iff, Logger.length_names]
    exact Nat.pos_of_ne_zero hne
  · exact Logger.namesDefault_eq_false.mp (htable.named name hmem)
  · rcases Nat.lt_or_ge ready.names.length Logger.capacity with hroom | hfull
    · have hjoins := Logger.get_of_room hd hname hnew hroom
      rw [Logger.length_names] at hroom
      exact .inl ⟨hroom, hjoins⟩
    · obtain ⟨hsame, hget⟩ := Logger.get_of_full_table hname hnew hfull
      have hready : ready.categories.length = s.logger.categories.length := by
        rw [show ready = s.logger from hsame]
      rw [Logger.length_names] at hfull
      exact .inr ⟨by omega, hget⟩

/-- A table with its last slot just taken: the next name is turned away, and those that are there
keep their slots, also while a configuration works on them. -/
theorem table_of_alphabet :
    let start : Session := { logger := {} }
    let letters : List Step := (List.range 31).map fun i => .get [97 + i.toUInt8]
    let s : Session := start.run letters
    let cs : List Call := [.configure (some (ascii "[rules]\na.ERROR >stderr\nnew.WARN >stdout\n"))]
    s.Reachable ∧ s.logger.categories.length = 32 ∧
      s.logger.default? = some 0 ∧ s.logger.get (ascii "new") = (s.logger, none) ∧
      s.logger.names <+: (s.calls cs).logger.names ∧
      ∃ c, ((s.step (.get (ascii "a"))).calls cs).logger.category? (some 1) = some c ∧
        c.name = ascii "a" := by
  intro start letters s cs
  have hstart : start.Reachable := .start .flat [] [] [] false {}
  have hadmits : ∀ a ∈ letters, ∀ s : Session, a.Admissible s := by
    intro a ha s
    obtain ⟨i, -, rfl⟩ := List.mem_map.mp ha
    trivial
  have h : s.Reachable := reachable_of_admits hstart (admits_of_always hadmits start)
  have hfull : s.logger.categories.length = 32 := by decide +kernel
  have hname : Logger.namesDefault (ascii "new") = false := by decide
  have hnew : ascii "new" ∉ s.logger.withDefault.names := by decide +kernel
  have hslot : (s.logger.get (ascii "a")).2 = some 1 := by decide +kernel
  have hcs : .single .shutDown ∉ cs := by simp [cs]
  obtain ⟨-, -, -, hready, hfirst, hgrows, hhandles, -, hgets⟩ := table_of_reachable h
  obtain ⟨hroom, -⟩ | ⟨-, hget⟩ := (hgets (ascii "new") hname hnew).1
  · rw [hready (by omega), hfull] at hroom
    exact absurd hroom (by decide)
  · exact ⟨h, hfull, (hfirst (by omega)).1, hget, hgrows cs hcs,
      hhandles (ascii "a") 1 hslot cs hcs⟩

end Session

end StyleSpan
