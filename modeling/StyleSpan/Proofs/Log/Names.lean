import StyleSpan.Proofs.Log.Session

/-!
# StyleSpan.Proofs.Log.Names

Which category a name stands for.  A name is looked up whole among the stored names,
of which each is the beginning of the name that its category was made for, as far as
it is stored:

```
name of at most 63 bytes   stored whole; found again at its slot
longer name                stored cut off; not found again, so each asking takes a slot
```

Until a shutdown the table only grows at its end, so what a name stands for stays.

* `NamesGrow` — all that can happen to the names, short of a shutdown;
* `NamesStored.join` — two slots may share a name only if it was cut off;
* `names_step`, `grows_step` — what one step does to the names;
* `namesStored_of_reachable` — the invariant, by induction on the steps;
* `one_slot_of_reachable` — one slot for each name that is stored whole.
-/

namespace StyleSpan

open Text

/-! ## Growing tables -/

/-- `ns'` are `ns` and behind them the stored parts of names that were asked for, each when
it was not there. -/
inductive NamesGrow (wanted ns : List Text) : List Text → Prop where
  | refl : NamesGrow wanted ns ns
  | join {ns' : List Text} {name : Text} (h : NamesGrow wanted ns ns')
      (hwanted : name ∈ wanted) (hnew : name ∉ ns') :
      NamesGrow wanted ns (ns' ++ [name.take Logger.nameCapacity])

/-- No stored name is longer than there is room, and one that stands at two slots fills the room. -/
structure NamesStored (ns : List Text) : Prop where
  length_le : ∀ name ∈ ns, name.length ≤ Logger.nameCapacity
  apart : ns.Pairwise fun n m => n = m → n.length = Logger.nameCapacity

variable {wanted ns ns' : List Text} {name : Text} {slot : Slot}

namespace NamesGrow

/-- Names join at the end. -/
theorem isPrefix (h : NamesGrow wanted ns ns') : ns <+: ns' := by
  induction h with
  | refl => exact List.prefix_refl ns
  | join _ _ _ ih => exact ih.trans (List.prefix_append _ _)

end NamesGrow

namespace NamesStored

theorem nil : NamesStored [] := ⟨by simp, .nil⟩

/-- A new name that is not cut off differs from all that are there. -/
theorem join (h : NamesStored ns) (hnew : name ∉ ns) :
    NamesStored (ns ++ [name.take Logger.nameCapacity]) where
  length_le := by
    simp only [List.mem_append, List.mem_singleton]
    rintro n (hn | rfl)
    · exact h.length_le n hn
    · exact List.length_take_le Logger.nameCapacity name
  apart := by
    refine List.pairwise_append.mpr ⟨h.apart, List.pairwise_singleton _ _, fun n hn m hm heq => ?_⟩
    rw [List.mem_singleton.mp hm] at heq
    subst heq
    rw [List.length_take, Nat.min_eq_left]
    by_contra hshort
    rw [List.take_of_length_le (by omega)] at hn
    exact hnew hn

/-- Names that grow as asked for stay stored as they have to be. -/
theorem of_grow (h : NamesStored ns) (hgrow : NamesGrow wanted ns ns') :
    NamesStored ns' := by
  induction hgrow with
  | refl => exact h
  | join _ _ hnew ih => exact ih.join hnew

/-- A name that does not fill the room stands at one slot. -/
theorem slot_unique (h : NamesStored ns) {i j : Slot} (hi : ns[i]? = some name)
    (hj : ns[j]? = some name) (hshort : name.length < Logger.nameCapacity) : i = j := by
  have hlt : ∀ {i j : Slot}, ns[i]? = some name → ns[j]? = some name → ¬ i < j := by
    intro i j hi hj hij
    obtain ⟨hi', hni⟩ := List.getElem?_eq_some_iff.mp hi
    obtain ⟨hj', hnj⟩ := List.getElem?_eq_some_iff.mp hj
    have hfull := List.pairwise_iff_getElem.mp h.apart i j hi' hj' hij (hni.trans hnj.symm)
    rw [hni] at hfull
    omega
  exact Nat.le_antisymm (Nat.not_lt.mp (hlt hj hi)) (Nat.not_lt.mp (hlt hi hj))

end NamesStored

/-- If no name is cut off, all of them stay apart. -/
theorem nodup_of_grow (h : ns.Nodup) (hgrow : NamesGrow wanted ns ns')
    (hshort : ∀ name ∈ wanted, name.length ≤ Logger.nameCapacity) : ns'.Nodup := by
  induction hgrow with
  | refl => exact h
  | join _ hwanted hnew ih =>
    rw [List.take_of_length_le (hshort _ hwanted), ← List.concat_eq_append, List.nodup_concat]
    exact ⟨hnew, ih⟩

namespace Logger

/-- The names of the categories as they are stored, by slot. -/
def names (l : Logger) : List Text := l.categories.map Category.name

variable {l l' : Logger} {other : Text}

@[simp] theorem length_names (l : Logger) : l.names.length = l.categories.length := by
  simp [names]

/-! ## Operations that keep the names -/

/-- An update that keeps names keeps them all, at any slot. -/
theorem names_update {f : Category → Category} (h : ∀ c, (f c).name = c.name) (l : Logger)
    (slot : Slot) : (l.update slot f).names = l.names := by
  apply List.ext_getElem?
  intro i
  rw [names, names, List.getElem?_map, List.getElem?_map, update, List.getElem?_modify]
  cases l.categories[i]? with
  | none => rfl
  | some c => by_cases hi : slot = i <;> simp [hi, h]

/-- Closing a stream changes no name. -/
theorem names_closeOwned (l : Logger) (slot : Slot) : (l.closeOwned slot).names = l.names := by
  rcases l.closeOwned_eq_or slot with h | ⟨stream, h⟩
  · rw [h]
  · rw [h]
    simp only [names, closeStream, List.map_map]
    apply List.map_congr_left
    intro c _
    simp only [Function.comp_apply]
    split <;> rfl

/-- Giving up a stream changes no name. -/
theorem names_release (l : Logger) (slot : Slot) : (l.release slot).names = l.names := by
  rw [release, names_update, names_closeOwned]
  exact fun _ => rfl

/-- Handing over a stream changes no name. -/
theorem names_setOutput (l : Logger) (slot : Option Slot) (stream : Option Stream) :
    (l.setOutput slot stream).names = l.names := by
  cases slot with
  | none => rfl
  | some slot =>
    rw [setOutput, Option.elim_some, names_update, names_release]
    exact fun _ => rfl

theorem names_elim_update {f : Category → Category} (h : ∀ c, (f c).name = c.name) (l : Logger)
    (slot : Option Slot) : (slot.elim l fun i => l.update i f).names = l.names := by
  cases slot with
  | none => rfl
  | some slot => exact names_update h l slot

theorem names_setThreshold (l : Logger) (slot : Option Slot) (rank : Int) :
    (l.setThreshold slot rank).names = l.names := by
  refine names_elim_update ?_ l slot
  exact fun _ => rfl

theorem names_setEnabled (l : Logger) (slot : Option Slot) (on : Bool) :
    (l.setEnabled slot on).names = l.names := by
  refine names_elim_update ?_ l slot
  exact fun _ => rfl

/-- Sending a category to a target changes no name. -/
theorem names_retarget (l : Logger) (slot : Slot) (target : Target) :
    (l.retarget slot target).1.names = l.names := by
  cases target with
  | stdout => exact names_setOutput l (some slot) (some .stdout)
  | stderr => exact names_setOutput l (some slot) (some .stderr)
  | file path =>
    rw [retarget]
    cases l.store.openAppend? path with
    | none => rfl
    | some next =>
      obtain ⟨stream, store⟩ := next
      dsimp only
      rw [names_update, names_setOutput]
      · rfl
      · exact fun _ => rfl

/-! ## Operations that ask for a name -/

/-- The first name is that of the default category. -/
theorem grows_withDefault (h : l.DefaultKept) (hwanted : Category.default.name ∈ wanted) :
    NamesGrow wanted l.names l.withDefault.names := by
  cases hd : l.default? with
  | some slot =>
    rw [withDefault_of_some hd]
    exact .refl
  | none =>
    have hnil : l.names = [] := by rw [names, h.categories_eq_nil hd, List.map_nil]
    rw [hnil, withDefault_of_none hd]
    exact NamesGrow.refl.join hwanted List.not_mem_nil

/-- A category is looked up by its name alone. -/
theorem find?_eq (l : Logger) (name : Text) : l.find? name = l.names.findIdx? (· = name) := by
  rw [find?, names, List.findIdx?_map]
  rfl

/-- A name is not found if no category has it as it is asked for. -/
theorem find?_eq_none_iff : l.find? name = none ↔ name ∉ l.names := by
  rw [find?_eq, List.findIdx?_eq_none_iff]
  constructor
  · intro h hmem
    simpa using h name hmem
  · rintro h n hn
    exact decide_eq_false fun heq => h (heq ▸ hn)

/-- A name is found where it is stored. -/
theorem names_of_find? (h : l.find? name = some slot) : l.names[slot]? = some name := by
  rw [find?_eq, List.findIdx?_eq_some_iff_getElem] at h
  obtain ⟨hlt, heq, -⟩ := h
  rw [List.getElem?_eq_getElem hlt, of_decide_eq_true heq]

/-- Where a name is found it is found in a longer table. -/
theorem find?_of_isPrefix (hp : l.names <+: l'.names) (h : l.find? name = some slot) :
    l'.find? name = some slot := by
  rw [find?_eq] at h ⊢
  exact hp.findIdx?_eq_some h

/-- The name of a new category is stored up to its capacity. -/
theorem names_join (l : Logger) (name : Text) :
    (l.join name).names = l.names ++ [name.take nameCapacity] := by
  simp [join, names, newCategory]

/-- Asking for a name makes the default category first. -/
theorem get_withDefault (l : Logger) (name : Text) : l.withDefault.get name = l.get name := by
  rw [get, get, withDefault_withDefault]

/-- A name that means the default category leads to the first slot. -/
theorem get_of_namesDefault (h : l.DefaultKept) (hname : namesDefault name = true) :
    l.get name = (l.withDefault, some 0) := by
  rw [get, if_pos hname, default?_withDefault h]

/-- A name that is found makes no category. -/
theorem get_of_find? (hname : namesDefault name = false)
    (hfind : l.withDefault.find? name = some slot) : l.get name = (l.withDefault, some slot) := by
  rw [get, hname, if_neg (by decide), hfind]

/-- A name that is not there joins if there is room. -/
theorem get_of_new (hname : namesDefault name = false) (hnew : name ∉ l.withDefault.names) :
    l.get name =
      if capacity ≤ l.withDefault.names.length then (l.withDefault, none)
      else (l.withDefault.join name, some l.withDefault.names.length) := by
  rw [get, hname, if_neg (by decide), find?_eq_none_iff.mpr hnew, length_names]

/-- What asking for a name comes to: it is found, there is no room for it, or it joins. -/
theorem get_of_name (l : Logger) (hname : namesDefault name = false) :
    (∃ slot, l.withDefault.find? name = some slot ∧ l.get name = (l.withDefault, some slot)) ∨
      (name ∉ l.withDefault.names ∧ l.get name = (l.withDefault, none)) ∨
      (name ∉ l.withDefault.names ∧
        l.get name = (l.withDefault.join name, some l.withDefault.names.length)) := by
  cases hfind : l.withDefault.find? name with
  | some slot => exact .inl ⟨slot, rfl, get_of_find? hname hfind⟩
  | none =>
    have hnew := find?_eq_none_iff.mp hfind
    have hget := get_of_new hname hnew
    split at hget
    · exact .inr (.inl ⟨hnew, hget⟩)
    · exact .inr (.inr ⟨hnew, hget⟩)

/-- Asking for a name adds that name, the name of the default category, both or none. -/
theorem grows_get (h : l.DefaultKept) (hdefault : Category.default.name ∈ wanted)
    (hname : name ∈ wanted) : NamesGrow wanted l.names (l.get name).1.names := by
  have hgrow := grows_withDefault h hdefault
  cases hd : namesDefault name with
  | true =>
    rw [get, hd]
    exact hgrow
  | false =>
    rcases l.get_of_name hd with ⟨slot, -, hget⟩ | ⟨-, hget⟩ | ⟨hnew, hget⟩
    · rwa [hget]
    · rwa [hget]
    · rw [hget]
      dsimp only
      rw [names_join]
      exact hgrow.join hname hnew

/-- The names that a line of a configuration asks for: that of its rule, if it is one. -/
def askedBy (line : Text) : List Text :=
  match Rule.parse line with
  | .ok r => [r.category]
  | .error _ => []

/-- A rule asks for its category. -/
theorem category_mem_askedBy {line : Text} {r : Rule} (hparse : Rule.parse line = .ok r) :
    r.category ∈ askedBy line := by
  rw [askedBy, hparse]
  exact List.mem_singleton_self _

/-- The names after a line of a configuration: they are as they were, or as they are when the
name of its rule was asked for. -/
theorem names_applyLine (l : Logger) (line : Text) :
    (l.applyLine line).1.names = l.names ∨
      ∃ name ∈ askedBy line, (l.applyLine line).1.names = (l.get name).1.names := by
  have hset : ∀ (r : Rule) (slot : Slot),
      ((l.get r.category).1.update slot r.setLevel).names = (l.get r.category).1.names := by
    intro r slot
    have hsame : ∀ c : Category, (r.setLevel c).name = c.name := fun _ => rfl
    exact names_update hsame _ slot
  cases l.applies line with
  | refused failure hparse h => exact .inl (by rw [h])
  | full r hparse hslot h => exact .inr ⟨r.category, category_mem_askedBy hparse, by rw [h]⟩
  | untargeted r slot failure hparse hslot htarget h =>
    exact .inr ⟨r.category, category_mem_askedBy hparse, by rw [h, hset]⟩
  | targeted r slot target hparse hslot htarget h =>
    exact .inr ⟨r.category, category_mem_askedBy hparse, by rw [h, names_retarget, hset]⟩

/-! ## The slot of a name -/

/-- A name that got a slot has its stored part there. -/
theorem names_of_get (hd : l.DefaultKept) (hstored : NamesStored l.names)
    (hname : namesDefault name = false) (h : (l.get name).2 = some slot) :
    (l.get name).1.names[slot]? = some (name.take nameCapacity) := by
  have hdefault := hstored.of_grow (grows_withDefault hd (List.mem_singleton_self _))
  rcases l.get_of_name hname with ⟨found, hfind, hget⟩ | ⟨-, hget⟩ | ⟨-, hget⟩
  · rw [hget] at h ⊢
    obtain rfl : found = slot := Option.some.inj h
    have hat := names_of_find? hfind
    rw [List.take_of_length_le (hdefault.length_le name (List.mem_of_getElem? hat))]
    exact hat
  · rw [hget] at h
    cases h
  · rw [hget] at h ⊢
    obtain rfl := Option.some.inj h
    dsimp only
    rw [names_join]
    exact List.getElem?_concat_length

/-- A name that is stored whole is found afterwards, and nothing else happens. -/
theorem get_of_isPrefix (hd : l'.DefaultKept) (hname : namesDefault name = false)
    (hfits : name.length ≤ nameCapacity)
    (h : (l.get name).2 = some slot) (hp : (l.get name).1.names <+: l'.names) :
    l'.get name = (l', some slot) := by
  have hfound : (l.get name).1.find? name = some slot := by
    rcases l.get_of_name hname with ⟨found, hfind, hget⟩ | ⟨-, hget⟩ | ⟨hnew, hget⟩
    · rw [hget] at h ⊢
      rwa [← h]
    · rw [hget] at h
      cases h
    · rw [hget] at h ⊢
      have hnone : l.withDefault.names.findIdx? (· = name) = none := by
        rw [← find?_eq]
        exact find?_eq_none_iff.mpr hnew
      rw [← h, find?_eq]
      dsimp only
      rw [names_join, List.take_of_length_le hfits, List.findIdx?_append, hnone]
      simp
  have hlater := find?_of_isPrefix hp hfound
  have hset := hd.default?_eq fun hzero => by
    rw [find?, List.length_eq_zero_iff.mp hzero] at hlater
    cases hlater
  rw [get, withDefault_of_some hset, hname, if_neg (by decide), hlater]

/-- Only the name that is stored at a slot of the table leads there. -/
theorem eq_of_get (hd : l.DefaultKept) (hname : namesDefault other = false) (hp : ns <+: l.names)
    (hslot : ns[slot]? = some name) (h : (l.get other).2 = some slot) : other = name := by
  have hgrow : ns <+: l.withDefault.names :=
    hp.trans (grows_withDefault hd (List.mem_singleton_self _)).isPrefix
  have hat : l.withDefault.names[slot]? = some name := by
    obtain ⟨joined, hjoined⟩ := hgrow
    rw [← hjoined, List.getElem?_append_left (List.getElem?_eq_some_iff.mp hslot).1, hslot]
  rcases l.get_of_name hname with ⟨found, hfind, hget⟩ | ⟨-, hget⟩ | ⟨-, hget⟩
  · rw [hget] at h
    obtain rfl : found = slot := Option.some.inj h
    have hfound := names_of_find? hfind
    rw [hat] at hfound
    exact (Option.some.inj hfound).symm
  · rw [hget] at h
    cases h
  · rw [hget] at h
    have hlt := (List.getElem?_eq_some_iff.mp hat).1
    have hnew := Option.some.inj h
    omega

/-- A name that is cut off is not found: it gets a slot behind all others. -/
theorem get_of_long (hd : l.DefaultKept) (hstored : NamesStored l.names)
    (hlong : nameCapacity < name.length) (h : (l.get name).2 = some slot) :
    l.categories.length ≤ slot ∧ (l.get name).1.categories.length = slot + 1 := by
  have hgrow := grows_withDefault hd (List.mem_singleton_self _)
  have hlen := hgrow.isPrefix.length_le
  have hname : namesDefault name = false := by
    have hne : name ≠ [] ∧ name ≠ [star] := by
      constructor <;> (rintro rfl; simp [nameCapacity] at hlong)
    simp [namesDefault, hne]
  rw [length_names] at hlen
  rcases l.get_of_name hname with ⟨found, hfind, hget⟩ | ⟨-, hget⟩ | ⟨-, hget⟩
  · have hmem := List.mem_of_getElem? (names_of_find? hfind)
    have hle := (hstored.of_grow hgrow).length_le name hmem
    omega
  · rw [hget] at h
    cases h
  · rw [hget] at h ⊢
    have hslot := Option.some.inj h
    rw [length_names] at hlen hslot
    simp only [join, List.length_append, List.length_singleton]
    omega

end Logger

namespace Session

variable {s : Session} {a : Step}

/-! ## Steps and calls -/

/-- The names that a step may ask for, that of the default category among them. -/
def Step.asked : Step → List Text
  | .get name => [Category.default.name, name]
  | .rule line => Category.default.name :: Logger.askedBy line
  | _ => [Category.default.name]

/-- The names after a step: they are as they were, or as they are when the default category was
made, or when a name was asked for. -/
theorem names_step (s : Session) (hne : a ≠ .shutDown) :
    (s.step a).logger.names = s.logger.names ∨
      (s.step a).logger.names = s.logger.withDefault.names ∨
      ∃ name ∈ a.asked, (s.step a).logger.names = (s.logger.get name).1.names := by
  cases a with
  | ready => exact .inr (.inl rfl)
  | rule line =>
    rcases s.logger.names_applyLine line with hsame | ⟨name, hname, hget⟩
    · exact .inl hsame
    · exact .inr (.inr ⟨name, List.mem_cons_of_mem _ hname, hget⟩)
  | get name => exact .inr (.inr ⟨name, by simp [Step.asked], rfl⟩)
  | setThreshold slot rank => exact .inl (Logger.names_setThreshold s.logger slot rank)
  | setEnabled slot on => exact .inl (Logger.names_setEnabled s.logger slot on)
  | setTimestamps on => exact .inl rfl
  | setOutput slot stream => exact .inl (Logger.names_setOutput s.logger slot stream)
  | write slot rank text =>
    have hsame := Logger.categories_write s.logger slot rank text
    exact .inl (congrArg (List.map Category.name) hsame)
  | shutDown => exact absurd rfl hne
  | lend path =>
    rw [step]
    cases s.logger.store.openAppend? path with
    | none => exact .inl rfl
    | some next => exact .inl rfl
  | elapse clock paths files => exact .inl rfl

/-- Every step may ask for the default category. -/
theorem default_mem_asked (a : Step) : Category.default.name ∈ a.asked := by
  cases a <;> simp [Step.asked]

/-- What one step does to the names. -/
theorem grows_step (h : s.logger.DefaultKept) (hne : a ≠ .shutDown) :
    NamesGrow a.asked s.logger.names (s.step a).logger.names := by
  have hdefault := default_mem_asked a
  rcases s.names_step hne with hsame | hready | ⟨name, hname, hget⟩
  · rw [hsame]
    exact .refl
  · rw [hready]
    exact Logger.grows_withDefault h hdefault
  · rw [hget]
    exact Logger.grows_get h hdefault hname

theorem names_shutDown (s : Session) : (s.step .shutDown).logger.names = [] := rfl

/-- Each step stores names as they have to be. -/
theorem namesStored_step (hd : s.logger.DefaultKept) (h : NamesStored s.logger.names) (a : Step) :
    NamesStored (s.step a).logger.names := by
  by_cases hshut : a = .shutDown
  · rw [hshut, names_shutDown]
    exact .nil
  · exact h.of_grow (grows_step hd hshut)

/-- Names are stored as they should be whatever the steps were. -/
theorem namesStored_of_reachable (h : s.Reachable) : NamesStored s.logger.names := by
  induction h with
  | start paths files stdout stderr timestamps clock => exact .nil
  | step h _ ih => exact namesStored_step (inOrder_of_reachable h).pointer ih _

/-- The pointer and the table agree after a run, whatever is handed over. -/
theorem defaultKept_run (hd : s.logger.DefaultKept) (steps : List Step) :
    (s.run steps).logger.DefaultKept := by
  induction steps generalizing s with
  | nil => exact hd
  | cons a more ih => exact ih (defaultKept_step hd a)

/-- Names keep their slots as long as no step shuts the logger down. -/
theorem isPrefix_run {steps : List Step} (h : .shutDown ∉ steps) (hd : s.logger.DefaultKept) :
    s.logger.names <+: (s.run steps).logger.names := by
  induction steps generalizing s with
  | nil => exact List.prefix_refl _
  | cons a more ih =>
    rw [List.mem_cons, not_or] at h
    exact (grows_step hd (Ne.symm h.1)).isPrefix.trans (ih h.2 (defaultKept_step hd a))

/-- Names stay apart as long as none is asked for that is cut off. -/
theorem nodup_run {steps : List Step} (hd : s.logger.DefaultKept) (h : s.logger.names.Nodup)
    (hshort : ∀ a ∈ steps, ∀ name ∈ a.asked, name.length ≤ Logger.nameCapacity) :
    (s.run steps).logger.names.Nodup := by
  induction steps generalizing s with
  | nil => exact h
  | cons a more ih =>
    refine ih (defaultKept_step hd a) ?_ fun b hb => hshort b (List.mem_cons_of_mem a hb)
    by_cases hshut : a = .shutDown
    · rw [hshut, names_shutDown]
      exact List.nodup_nil
    · exact nodup_of_grow h (grows_step hd hshut) (hshort a List.mem_cons_self)

/-- No configuration shuts the logger down. -/
theorem shutDown_not_mem_textSteps (config : Text) : .shutDown ∉ textSteps config := by
  simp [textSteps]

theorem shutDown_not_mem_fileSteps (s : Session) (path : Text) :
    .shutDown ∉ s.fileSteps path := by
  rw [fileSteps]
  split
  · exact List.not_mem_nil
  · exact shutDown_not_mem_textSteps _

/-- No other call shuts the logger down. -/
theorem shutDown_not_mem_steps {c : Call} (h : c ≠ .single .shutDown) (s : Session) :
    .shutDown ∉ c.steps s := by
  cases c with
  | init config =>
    have htext := shutDown_not_mem_textSteps config
    have hfile := s.shutDown_not_mem_fileSteps config
    rw [Call.steps]
    split
    · simp
    · split <;> simpa
  | configure config =>
    cases config with
    | none => exact List.not_mem_nil
    | some config => exact shutDown_not_mem_textSteps config
  | configureFrom path => exact s.shutDown_not_mem_fileSteps path
  | log m => simp [Call.steps]
  | single a =>
    rw [Call.steps, List.mem_singleton]
    rintro rfl
    exact h rfl

/-- The session after some calls. -/
def calls (s : Session) (cs : List Call) : Session := cs.foldl call s

/-- The pointer and the table agree after calls, whatever is handed over. -/
theorem defaultKept_calls (hd : s.logger.DefaultKept) (cs : List Call) :
    (s.calls cs).logger.DefaultKept := by
  induction cs generalizing s with
  | nil => exact hd
  | cons c more ih =>
    refine ih ?_
    rw [call_eq_run]
    exact defaultKept_run hd _

/-- Names keep their slots until the logger is shut down. -/
theorem isPrefix_calls {cs : List Call} (h : .single .shutDown ∉ cs) (hd : s.logger.DefaultKept) :
    s.logger.names <+: (s.calls cs).logger.names := by
  induction cs generalizing s with
  | nil => exact List.prefix_refl _
  | cons c more ih =>
    rw [List.mem_cons, not_or] at h
    have hcall : s.logger.names <+: (s.call c).logger.names := by
      rw [call_eq_run]
      exact isPrefix_run (shutDown_not_mem_steps (Ne.symm h.1) s) hd
    have hnext : (s.call c).logger.DefaultKept := by
      rw [call_eq_run]
      exact defaultKept_run hd _
    exact hcall.trans (ih h.2 hnext)

/-! ## Every session -/

/-- **One slot for each name that is stored whole.**  A name that got a slot keeps it until a
shutdown: if it is stored whole it is found there, no slot being added, and no name but the part of
it that is stored leads there.  A name that is cut off gets a new slot whenever it is asked for.
So only a name that fills the room can stand at two slots, and names all stay apart under calls that
ask for none that is cut off. -/
theorem one_slot_of_reachable (h : s.Reachable) :
    (∀ name slot, Logger.namesDefault name = false → (s.logger.get name).2 = some slot →
      ∀ cs, .single .shutDown ∉ cs →
        let later := (s.step (.get name)).calls cs
        (name.length ≤ Logger.nameCapacity → later.logger.get name = (later.logger, some slot)) ∧
        ∀ other, Logger.namesDefault other = false → (later.logger.get other).2 = some slot →
          other = name.take Logger.nameCapacity) ∧
    (∀ name slot, Logger.nameCapacity < name.length → (s.logger.get name).2 = some slot →
      s.logger.categories.length ≤ slot ∧
        (s.step (.get name)).logger.categories.length = slot + 1) ∧
    (∀ (i j : Slot) (c d : Category), s.logger.categories[i]? = some c →
      s.logger.categories[j]? = some d → c.name = d.name →
      c.name.length < Logger.nameCapacity → i = j) ∧
    ∀ c, (∀ a ∈ c.steps s, ∀ name ∈ a.asked, name.length ≤ Logger.nameCapacity) →
      s.logger.names.Nodup → (s.call c).logger.names.Nodup := by
  have hstored := namesStored_of_reachable h
  have hd := (inOrder_of_reachable h).pointer
  refine ⟨fun name slot hname hslot cs hcs => ?_, fun name slot hlong hslot => ?_,
    fun i j c d hi hj heq hshort => ?_, fun c hshort hnodup => ?_⟩
  · intro later
    have hasked : (s.step (.get name)).logger.DefaultKept := defaultKept_step hd _
    have hlater : (s.logger.get name).1.names <+: later.logger.names := isPrefix_calls hcs hasked
    have hd' : later.logger.DefaultKept := defaultKept_calls hasked cs
    refine ⟨fun hfits => Logger.get_of_isPrefix hd' hname hfits hslot hlater,
      fun other hother hget => ?_⟩
    exact Logger.eq_of_get hd' hother hlater (Logger.names_of_get hd hstored hname hslot) hget
  · exact Logger.get_of_long hd hstored hlong hslot
  · have hat : ∀ {i : Slot} {c : Category}, s.logger.categories[i]? = some c →
        s.logger.names[i]? = some c.name := by
      intro i c hi
      rw [Logger.names, List.getElem?_map, hi, Option.map_some]
    exact hstored.slot_unique (hat hi) (heq ▸ hat hj) hshort
  · rw [call_eq_run]
    exact nodup_run hd hnodup hshort

/-- A name keeps its slot while a configuration gives it another stream and more names join. -/
theorem one_slot_of_configured :
    let start : Session := { logger := {} }
    let name := ascii "css"
    let cs : List Call :=
      [.configure (some (ascii "[rules]\ncss.ERROR >stderr\nlog.WARN >stdout\n")),
        .single (.get (ascii "x"))]
    let later := (start.step (.get name)).calls cs
    start.Reachable ∧ Logger.namesDefault name = false ∧ (start.logger.get name).2 = some 1 ∧
      .single .shutDown ∉ cs ∧ name.length ≤ Logger.nameCapacity ∧
      later.logger.names = [ascii "default", name, ascii "log", ascii "x"] ∧
      later.logger.get name = (later.logger, some 1) := by
  intro start name cs later
  have hstart : start.Reachable := .start .flat [] [] [] false {}
  have hname : Logger.namesDefault name = false := by decide
  have hslot : (start.logger.get name).2 = some 1 := by decide +kernel
  have hcs : .single .shutDown ∉ cs := by simp [cs]
  have hfits : name.length ≤ Logger.nameCapacity := by decide
  obtain ⟨hkeeps, -⟩ := one_slot_of_reachable hstart
  exact ⟨hstart, hname, hslot, hcs, hfits, by decide +kernel,
    (hkeeps name 1 hname hslot cs hcs).1 hfits⟩

/-- A name of 64 bytes is not found again: asked for twice it has two slots, both under its first
63 bytes, and the first of them is also that of the shorter name. -/
theorem two_slots_of_longName :
    let start : Session := { logger := {} }
    let stored : Text := List.replicate 63 97
    let name : Text := stored ++ [97]
    let once := start.step (.get name)
    start.Reachable ∧ (start.logger.get name).2 = some 1 ∧ (once.logger.get name).2 = some 2 ∧
      (once.step (.get name)).logger.names = [ascii "default", stored, stored] ∧
      stored ≠ name ∧ (once.logger.get stored).2 = some 1 := by
  intro start stored name once
  exact ⟨.start .flat [] [] [] false {}, by decide +kernel, by decide +kernel, by decide +kernel,
    by decide +kernel, by decide +kernel⟩

end Session

end StyleSpan
