import StyleSpan.Proofs.Log.Refusals
import StyleSpan.Proofs.Log.Session

/-!
# StyleSpan.Proofs.Log.Isolation

What an operation on one category does to the others.  Categories share streams, so
one of them cannot always be sent elsewhere without the others noticing: those on the
stream that it owned are left on standard output.  That is all there is: their slots,
names, thresholds and switches stay, and so does what they own.

```
Spares slot? gone? l l'    from l to l' only the category at slot? was worked on,
                           and the stream gone? was closed
```

* `spares_release` — the one place where others are touched;
* `spares_applyLine` — a line of a configuration, refused or not;
* `spares_step` — what one step leaves alone;
* `spared_run` — a category that no step of a run addresses;
* `spared_of_reachable` — the whole of it, for every session.
-/

namespace StyleSpan

open Text

/-- The category after a stream may have been closed by another one. -/
def Category.leave (gone? : Option Stream) (c : Category) : Category :=
  { c with output := if some c.output = gone? then .stdout else c.output }

@[simp] theorem Category.leave_none (c : Category) : c.leave none = c := by simp [leave]

namespace Logger

variable {l l' l'' : Logger} {slot : Slot} {slot? : Option Slot} {gone? : Option Stream}

/-! ## One operation after the other -/

/-- Every category but the one at `slot?` stands where it stood.  It writes to standard output if
the stream `gone?` was its own, and is otherwise as it was. -/
def Spares (slot? : Option Slot) (gone? : Option Stream) (l l' : Logger) : Prop :=
  ∀ i c, slot? ≠ some i → l.categories[i]? = some c →
    l'.categories[i]? = some (c.leave gone?)

/-- Where categories only join, all others are spared. -/
theorem spares_of_isPrefix (h : l.categories <+: l'.categories) : Spares slot? none l l' := by
  intro i c _ hi
  obtain ⟨joined, hjoined⟩ := h
  rw [← hjoined, List.getElem?_append_left (List.getElem?_eq_some_iff.mp hi).1, hi,
    Category.leave_none]

theorem spares_of_eq (h : l'.categories = l.categories) : Spares slot? none l l' :=
  spares_of_isPrefix (h ▸ List.prefix_refl _)

/-- What closes nothing may come behind. -/
theorem Spares.andThen (h : Spares slot? gone? l l') (h' : Spares slot? none l' l'') :
    Spares slot? gone? l l'' := by
  intro i c hne hi
  rw [h' i _ hne (h i c hne hi), Category.leave_none]

/-- What closes nothing may come before. -/
theorem Spares.behind (h' : Spares slot? gone? l' l'') (h : Spares slot? none l l') :
    Spares slot? gone? l l'' := by
  intro i c hne hi
  have hbefore := h i c hne hi
  rw [Category.leave_none] at hbefore
  exact h' i c hne hbefore

/-! ## Operations on a category -/

/-- An update spares all slots but its own. -/
theorem spares_update (l : Logger) (slot : Slot) (f : Category → Category) :
    Spares (some slot) none l (l.update slot f) := by
  intro i c hne hi
  have hslot : slot ≠ i := fun heq => hne (congrArg some heq)
  rw [Category.leave_none, ← hi]
  exact List.getElem?_modify_ne f l.categories hslot

/-- A category that gives up its stream takes along those that share it, if it owns it. -/
theorem spares_closeOwned (h : slot < l.categories.length ∨ l.TableOwns) :
    Spares slot? (ownedAt? l.outlets slot) l (l.closeOwned slot) := by
  rw [closeOwned_eq h]
  cases ownedAt? l.outlets slot with
  | none => exact spares_of_eq rfl
  | some stream =>
    intro i c _ hi
    simp only [Option.elim_some, closeStream, List.getElem?_map, hi, Option.map_some,
      Category.leave, Option.some.injEq]
    split <;> rfl

/-- Giving up a stream touches its slot and those that share the stream. -/
theorem spares_release (h : slot < l.categories.length ∨ l.TableOwns) :
    Spares (some slot) (ownedAt? l.outlets slot) l (l.release slot) :=
  (spares_closeOwned h).andThen (spares_update _ slot _)

/-- Handing over a stream touches the slot and those that share the stream given up. -/
theorem spares_setOutput (h : slot < l.categories.length ∨ l.TableOwns) (stream : Option Stream) :
    Spares (some slot) (ownedAt? l.outlets slot) l (l.setOutput (some slot) stream) :=
  (spares_release h).andThen (spares_update _ slot _)

/-- Sending a category to a target that has a stream touches no other slots, either. -/
theorem spares_retarget {target : Target} (h : target.canOpen l.store = true)
    (hslot : slot < l.categories.length) :
    Spares (some slot) (ownedAt? l.outlets slot) l (l.retarget slot target).1 := by
  cases target with
  | stdout => exact spares_setOutput (.inl hslot) (some .stdout)
  | stderr => exact spares_setOutput (.inl hslot) (some .stderr)
  | file path =>
    obtain ⟨⟨stream, store⟩, hopen⟩ := Store.exists_openAppend? h
    have hlt : slot < ({ l with store } : Logger).categories.length := hslot
    rw [retarget, hopen]
    exact (spares_setOutput (.inl hlt) (some stream)).andThen (spares_update _ slot _)

/-! ## A line of a configuration -/

/-- The slot of the category that a line of a configuration names, if the line is a rule. -/
def addressedBy? (l : Logger) (line : Text) : Option Slot :=
  match Rule.parse line with
  | .error _ => none
  | .ok r => (l.get r.category).2

/-- A line that sends a category elsewhere is addressed to that category. -/
theorem addressedBy?_of_retargetedBy? {line : Text} (h : l.retargetedBy? line = some slot) :
    l.addressedBy? line = some slot := by
  rw [retargetedBy?] at h
  rw [addressedBy?]
  cases hparse : Rule.parse line with
  | error failure => simp [hparse] at h
  | ok r =>
    rw [hparse] at h
    dsimp only at h
    cases htarget : r.target with
    | error failure => simp [htarget] at h
    | ok target =>
      simp only [htarget, Option.ite_none_right_eq_some] at h
      exact h.2

/-- The stream that a line of a configuration closes. -/
def releasedBy? (l : Logger) (line : Text) : Option Stream :=
  (l.retargetedBy? line).bind (ownedAt? l.outlets)

/-- Asking for a name leaves the categories that are there. -/
theorem isPrefix_get (h : l.DefaultKept) (name : Text) :
    l.categories <+: (l.get name).1.categories := by
  rcases l.get_eq_or name with hsame | hjoin
  · rw [hsame]
    exact isPrefix_withDefault h
  · rw [hjoin]
    exact (isPrefix_withDefault h).trans (List.prefix_append _ _)

/-- A rule is addressed to its category. -/
theorem addressedBy?_of_rule {line : Text} {r : Rule} (hparse : Rule.parse line = .ok r) :
    l.addressedBy? line = (l.get r.category).2 := by
  rw [addressedBy?, hparse]

/-- A line of a configuration works on the category that it names, whether or not it is refused. -/
theorem spares_applyLine (h : l.DefaultKept) (line : Text) :
    Spares (l.addressedBy? line) (l.releasedBy? line) l (l.applyLine line).1 := by
  have hget : ∀ (r : Rule) {slot? : Option Slot}, Spares slot? none l (l.get r.category).1 :=
    fun r => spares_of_isPrefix (isPrefix_get h r.category)
  have hset : ∀ (r : Rule) (slot : Slot),
      Spares (some slot) none l ((l.get r.category).1.update slot r.setLevel) :=
    fun r slot => (hget r).andThen (spares_update _ slot r.setLevel)
  cases l.applies line with
  | refused failure hparse happly =>
    rw [happly, releasedBy?, retargetedBy?, hparse]
    exact spares_of_eq rfl
  | full r hparse hslot happly =>
    rw [happly, releasedBy?, retargetedBy?_eq_none hparse (.inl hslot)]
    exact hget r
  | untargeted r slot failure hparse hslot htarget happly =>
    rw [happly, addressedBy?_of_rule hparse, hslot, releasedBy?,
      retargetedBy?_eq_none hparse (.inr ⟨failure, htarget⟩)]
    exact hset r slot
  | targeted r slot target hparse hslot htarget happly =>
    rw [happly, addressedBy?_of_rule hparse, hslot, releasedBy?,
      retargetedBy?_of_target hparse htarget, hslot, ← l.store_get r.category]
    have hlt : slot < ((l.get r.category).1.update slot r.setLevel).categories.length := by
      rw [length_update]
      exact lt_length_of_get h hslot
    cases hcan : target.canOpen (l.get r.category).1.store with
    | true =>
      have hmoved := spares_retarget (l := (l.get r.category).1.update slot r.setLevel) hcan hlt
      rw [(joins_setLevel h r slot).ownedAt?_eq] at hmoved
      exact hmoved.behind (hset r slot)
    | false =>
      rw [retarget_of_not_canOpen (l := (l.get r.category).1.update slot r.setLevel) hcan]
      exact hset r slot

end Logger

namespace Session

variable {s : Session} {a : Step} {slot : Slot} {i : Slot} {stream : Stream} {c : Category}

/-! ## Steps -/

/-- The slot of the category that a step is addressed to. -/
def Step.addressee? (s : Session) : Step → Option Slot
  | .rule line => s.logger.addressedBy? line
  | .setThreshold slot _ => slot
  | .setEnabled slot _ => slot
  | .setOutput slot _ => slot
  | _ => none

/-- The stream that a step short of a shutdown closes: the one owned where it sends a category
elsewhere. -/
def Step.released? (s : Session) (a : Step) : Option Stream :=
  (a.retargets? s).bind (ownedAt? s.logger.outlets)

/-- What one step leaves alone. -/
theorem spares_step (h : s.logger.SlotsKept) (hne : a ≠ .shutDown) :
    Logger.Spares (a.addressee? s) (a.released? s) s.logger (s.step a).logger := by
  cases a with
  | ready => exact Logger.spares_of_isPrefix (Logger.isPrefix_withDefault h.pointer)
  | rule line => exact Logger.spares_applyLine h.pointer line
  | get name => exact Logger.spares_of_isPrefix (Logger.isPrefix_get h.pointer name)
  | setThreshold slot rank =>
    cases slot with
    | none => exact Logger.spares_of_eq rfl
    | some slot => exact Logger.spares_update s.logger slot _
  | setEnabled slot on =>
    cases slot with
    | none => exact Logger.spares_of_eq rfl
    | some slot => exact Logger.spares_update s.logger slot _
  | setTimestamps on => exact Logger.spares_of_eq rfl
  | setOutput slot stream =>
    cases slot with
    | none => exact Logger.spares_of_eq rfl
    | some slot => exact Logger.spares_setOutput (.inr h.owners) stream
  | write slot rank text =>
    exact Logger.spares_of_eq (Logger.categories_write s.logger slot rank text)
  | shutDown => exact absurd rfl hne
  | lend path =>
    rw [step]
    cases s.logger.store.openAppend? path with
    | none => exact Logger.spares_of_eq rfl
    | some next => exact Logger.spares_of_eq rfl
  | elapse clock paths files => exact Logger.spares_of_eq rfl

/-- A step that sends a category elsewhere is addressed to it. -/
theorem addressee?_of_retargets? (h : a.retargets? s = some slot) : a.addressee? s = some slot := by
  cases a with
  | rule line => exact Logger.addressedBy?_of_retargetedBy? h
  | setOutput target stream => exact h
  | _ => cases h

/-- A step that sends a category elsewhere closes the stream that the category owns. -/
theorem mem_closed_of_retargets? {id : Nat} (hs : s.logger.SlotsKept)
    (h : a.retargets? s = some slot)
    (howns : s.logger.Owns slot id) : id ∈ (s.step a).logger.store.closed := by
  have hreplaces : ∀ {l l' : Logger} {o : Outlet}, l.Owns slot id → Logger.Replaces l l' slot o →
      id ∈ l'.store.closed := fun howns hr => by
    rw [hr.closed_eq, List.mem_append, mem_closedAt]
    exact .inr howns
  cases a with
  | setOutput target stream =>
    cases h
    exact hreplaces howns (Logger.replaces_setOutput (.inr hs.owners) stream)
  | rule line =>
    rcases Logger.applyLine_cases hs.pointer line with
      ⟨hnone, -⟩ | ⟨moved, l, hsome, hjoins, -, hmoves⟩
    · rw [Step.retargets?, hnone] at h
      cases h
    · rw [Step.retargets?, hsome] at h
      cases h
      cases hmoves with
      | standard stream hstd hr hopened => exact hreplaces (hjoins.owns_iff.mpr howns) hr
      | opened path hr hopened => exact hreplaces (hjoins.owns_iff.mpr howns) hr
  | _ => cases h

/-- What a step closes belonged to the category that the step is addressed to. -/
theorem owner_of_released? (h : s.InOrder) (hgone : a.released? s = some stream) :
    ∃ slot id, a.addressee? s = some slot ∧ stream = .file id ∧ s.logger.Owns slot id ∧
      s.OpenByRule id ∧ id ∈ (s.step a).logger.store.closed := by
  obtain ⟨slot, hslot, howned⟩ := Option.bind_eq_some_iff.mp hgone
  rw [ownedAt?_eq_some] at howned
  obtain ⟨id, rfl, hlent⟩ := h.streams.owned_file howned
  exact ⟨slot, id, addressee?_of_retargets? hslot, rfl, howned,
    ⟨h.streams.open_output howned, hlent⟩, mem_closed_of_retargets? h.slotsKept hslot howned⟩

/-! ## Runs -/

/-- Some step of a run is addressed to the category at a slot. -/
def Addresses (i : Slot) : Session → List Step → Prop
  | _, [] => False
  | s, a :: more => a.addressee? s = some i ∨ (s.step a).Addresses i more

/-- A category that no step of a run addresses is at its end as it was, but that it may have been
left on standard output. -/
theorem spared_run (h : s.logger.SlotsKept) {steps : List Step} (hshut : .shutDown ∉ steps)
    (hfree : ¬ s.Addresses i steps) (hi : s.logger.categories[i]? = some c) :
    ∃ output, (output = c.output ∨ output = .stdout) ∧
      (s.run steps).logger.categories[i]? = some { c with output } := by
  induction steps generalizing s c with
  | nil => exact ⟨c.output, .inl rfl, hi⟩
  | cons a more ih =>
    rw [List.mem_cons, not_or] at hshut
    rw [Addresses, not_or] at hfree
    have hnext := spares_step h (Ne.symm hshut.1) i c hfree.1 hi
    obtain ⟨output, houtput, hlast⟩ := ih (slotsKept_step h a) hshut.2 hfree.2 hnext
    refine ⟨output, ?_, hlast⟩
    rw [Category.leave] at houtput
    split at houtput
    · exact .inr (houtput.elim id id)
    · exact houtput

/-! ## Every session -/

/-- **Operations on one category leave the others alone.**  Short of a shutdown, a step changes no
category but the one that it is addressed to; only those move to standard output that shared a
stream which that category owned and the step closed.  So a category that no step of a run addresses
keeps all but its stream.  Messages change no category of a logger that is set up. -/
theorem spared_of_reachable (h : s.Reachable) :
    (∀ a, a ≠ .shutDown → ∀ i c, a.addressee? s ≠ some i → s.logger.categories[i]? = some c →
      (s.step a).logger.categories[i]? = some
        { c with output := if some c.output = a.released? s then .stdout else c.output }) ∧
    (∀ a stream, a.released? s = some stream →
      ∃ slot id, a.addressee? s = some slot ∧ stream = .file id ∧ s.logger.Owns slot id ∧
        s.OpenByRule id ∧ id ∈ (s.step a).logger.store.closed) ∧
    (∀ steps i c, .shutDown ∉ steps → ¬ s.Addresses i steps →
      s.logger.categories[i]? = some c →
        ∃ output, (output = c.output ∨ output = .stdout) ∧
          (s.run steps).logger.categories[i]? = some { c with output }) ∧
    (s.logger.categories ≠ [] →
      (∀ slot rank text,
        (s.step (.write slot rank text)).logger.categories = s.logger.categories) ∧
      ∀ m, (s.call (.log m)).logger.categories = s.logger.categories) := by
  have hs := inOrder_of_reachable h
  refine ⟨fun a hne i c hother hi => spares_step hs.slotsKept hne i c hother hi,
    fun a stream hgone => owner_of_released? hs hgone,
    fun steps i c hshut hfree hi => spared_run hs.slotsKept hshut hfree hi,
    fun hready => ⟨fun slot rank text => ?_, fun m => ?_⟩⟩
  · exact Logger.categories_write s.logger slot rank text
  · have hset := hs.pointer.default?_eq fun hzero => hready (List.length_eq_zero_iff.mp hzero)
    rw [call, Logger.log, Logger.categories_write, Logger.withDefault_of_some hset]

/-- Of two categories one shares the file of the default category.  Sent to standard error by a
rule, the default category closes the file: the sharer is left on standard output, and the other
category does not notice.  No step of a run that goes on with the other one touches the sharer. -/
theorem spared_of_sharedFile :
    let s : Session := run { logger := {} }
      [.ready, .rule (ascii "*.INFO \"a.log\""), .get (ascii "x"), .rule (ascii "y.WARN >stderr")]
    let a : Step := .rule (ascii "*.ERROR >stderr")
    let more : List Step := [.setThreshold (some 2) 20, .rule (ascii "y.DEBUG \"b.log\"")]
    let x : Category := { name := ascii "x", output := .file 0 }
    let y : Category := { name := ascii "y", threshold := Level.warn.rank, output := .stderr }
    s.Reachable ∧ s.logger.categories.drop 1 = [x, y] ∧ a.released? s = some (.file 0) ∧
      (s.step a).logger.categories[1]? = some { x with output := .stdout } ∧
      (s.step a).logger.categories[2]? = some y ∧
      (∃ slot id, a.addressee? s = some slot ∧ Stream.file 0 = .file id ∧ s.logger.Owns slot id ∧
        s.OpenByRule id ∧ id ∈ (s.step a).logger.store.closed) ∧
      (∃ output, (output = .file 0 ∨ output = .stdout) ∧
        (s.run more).logger.categories[1]? = some { x with output }) ∧
      (s.call (.log ⟨.fatal, ascii "m"⟩)).logger.categories = s.logger.categories := by
  intro s a more x y
  have hstart : Reachable { logger := {} } := .start .flat [] [] [] false {}
  have h : s.Reachable := reachable_of_admits hstart ⟨trivial, trivial, trivial, trivial, trivial⟩
  have hx : s.logger.categories[1]? = some x := by decide +kernel
  have hy : s.logger.categories[2]? = some y := by decide +kernel
  have hgone : a.released? s = some (.file 0) := by decide +kernel
  have haddressee : a.addressee? s = some 0 := by decide +kernel
  have hfree : ¬ s.Addresses 1 more := by
    simp only [more, Addresses, not_or, not_false_eq_true, and_true]
    exact ⟨by decide +kernel, by decide +kernel⟩
  have hready : s.logger.categories ≠ [] := by decide +kernel
  obtain ⟨hsteps, howner, hruns, hmessages⟩ := spared_of_reachable h
  have hmoved := hsteps a (by simp [a]) 1 x (by simp [haddressee]) hx
  have hkept := hsteps a (by simp [a]) 2 y (by simp [haddressee]) hy
  rw [hgone] at hmoved hkept
  exact ⟨h, by decide +kernel, hgone, hmoved, hkept, howner a _ hgone,
    hruns more 1 x (by simp [more]) hfree hx, (hmessages hready).2 _⟩

end Session

end StyleSpan
