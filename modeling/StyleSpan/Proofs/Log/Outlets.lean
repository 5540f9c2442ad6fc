import StyleSpan.Proofs.Log.Slots

/-!
# StyleSpan.Proofs.Log.Outlets

What the operations of a logger do to its streams.  Of a category only its
outlet counts, the stream that it writes to and whether it owns it; of the
store, how many streams were opened and which were closed.  There are three
things that an operation can do:

```
join       new categories write where an old one does, and own nothing
replaceAt  a category gives up its outlet for another one
shutDown   every category gives up its outlet
```

and each operation has one lemma that says which of them it does.
-/

namespace StyleSpan

open Text

/-! ## Outlets -/

/-- The stream that a category writes to, and whether it owns it. -/
structure Outlet where
  stream : Stream
  owned : Bool
deriving DecidableEq, Repr

namespace Outlet

/-- Standard output, which no category owns. -/
def standard : Outlet := ⟨.stdout, false⟩

/-- The stream that the outlet owns. -/
def owned? (o : Outlet) : Option Stream := if o.owned then some o.stream else none

/-- The outlet after its stream may have been closed by another one. -/
def leave (gone? : Option Stream) (o : Outlet) : Outlet :=
  if some o.stream = gone? then { o with stream := .stdout } else o

@[simp] theorem owned?_eq_some {o : Outlet} {stream : Stream} :
    o.owned? = some stream ↔ o = ⟨stream, true⟩ := by
  obtain ⟨s, b⟩ := o
  cases b <;> simp [owned?]

/-- If no stream was closed all outlets stay as they are. -/
@[simp] theorem leave_none : leave none = id := by
  funext o
  simp [leave]

end Outlet

/-- The stream that the outlet at a slot owns. -/
def ownedAt? (outs : List Outlet) (slot : Slot) : Option Stream := outs[slot]?.bind Outlet.owned?

/-- The outlets after the one at `slot` was given up for `o`: what it owned is left by all. -/
def replaceAt (outs : List Outlet) (slot : Slot) (o : Outlet) : List Outlet :=
  (outs.map (Outlet.leave (ownedAt? outs slot))).modify slot fun _ => o

/-- The stream that is closed when the outlet at `slot` is given up. -/
def closedAt (outs : List Outlet) (slot : Slot) : List Nat :=
  match ownedAt? outs slot with
  | some (.file id) => [id]
  | _ => []

section Lists

variable {outs : List Outlet} {slot : Slot} {o p : Outlet} {i id : Nat}

/-- A stream is owned at a slot if the outlet there is that stream, with the ownership. -/
theorem ownedAt?_eq_some {stream : Stream} :
    ownedAt? outs slot = some stream ↔ outs[slot]? = some ⟨stream, true⟩ := by
  simp [ownedAt?, Option.bind_eq_some_iff]

/-- Giving up an outlet closes the file that it owns, and no other. -/
theorem mem_closedAt : id ∈ closedAt outs slot ↔ outs[slot]? = some ⟨.file id, true⟩ := by
  rw [← ownedAt?_eq_some, closedAt]
  split
  · next h => simp [h, eq_comm]
  · next h =>
    constructor
    · exact fun hmem => absurd hmem List.not_mem_nil
    · exact fun heq => absurd heq (h id)

/-- The outlets after a replacement, one by one. -/
theorem getElem?_replaceAt : (replaceAt outs slot o)[i]? =
    if slot = i then outs[i]?.map fun _ => o
    else outs[i]?.map (Outlet.leave (ownedAt? outs slot)) := by
  rw [replaceAt, List.getElem?_modify, List.getElem?_map]
  split <;> cases outs[i]? <;> rfl

/-- Where an outlet comes from after a replacement: it was put there, or it stood there and left
what was closed. -/
theorem getElem?_replaceAt_eq_some : (replaceAt outs slot o)[i]? = some p ↔
    (slot = i ∧ i < outs.length ∧ p = o) ∨
      (slot ≠ i ∧ ∃ q, outs[i]? = some q ∧ p = q.leave (ownedAt? outs slot)) := by
  rw [getElem?_replaceAt]
  split
  · next h =>
    cases hi : outs[i]? with
    | none =>
      have hle := List.getElem?_eq_none_iff.mp hi
      simp [h, Nat.not_lt.mpr hle]
    | some q =>
      have hlt := (List.getElem?_eq_some_iff.mp hi).1
      simp [h, hlt, eq_comm]
  · next h =>
    rw [Option.map_eq_some_iff]
    simp [h, eq_comm]

end Lists

/-! ## What operations do -/

/-- Whether a target has a stream: a standard one, or a file that can be opened. -/
def Target.canOpen (s : Store) : Target → Bool
  | .stdout => true
  | .stderr => true
  | .file path => s.canOpen path

/-- The outlet of a category. -/
def Category.outlet (c : Category) : Outlet := ⟨c.output, c.ownsOutput⟩

namespace Logger

/-- The outlets of all categories, by slot. -/
def outlets (l : Logger) : List Outlet := l.categories.map Category.outlet

/-- The outlets of what the slots behind the table hold. -/
def formerOutlets (l : Logger) : List Outlet := l.former.map Category.outlet

/-- Streams are owned in the table only: what the slots behind it hold owns none. -/
def TableOwns (l : Logger) : Prop := ∀ o ∈ l.formerOutlets, o.owned = false

/-- The category at `slot` owns the stream opened as number `id`. -/
def Owns (l : Logger) (slot : Slot) (id : Nat) : Prop := l.outlets[slot]? = some ⟨.file id, true⟩

theorem getElem?_outlets (l : Logger) (slot : Slot) :
    l.outlets[slot]? = l.categories[slot]?.map Category.outlet := by
  rw [outlets, List.getElem?_map]

@[simp] theorem length_outlets (l : Logger) : l.outlets.length = l.categories.length := by
  simp [outlets]

variable {l l' l'' : Logger} {slot : Slot}

/-- An update that acts on the outlet of a category changes one outlet of the table. -/
theorem outlets_update {f : Category → Category} {g : Outlet → Outlet}
    (h : ∀ c, (f c).outlet = g c.outlet) (l : Logger) (slot : Slot) :
    (l.update slot f).outlets = l.outlets.modify slot g := by
  apply List.ext_getElem?
  intro i
  rw [List.getElem?_modify, getElem?_outlets, getElem?_outlets, update, List.getElem?_modify]
  cases l.categories[i]? with
  | none => rfl
  | some c => by_cases hi : slot = i <;> simp [hi, h]

/-- Behind the table an update changes what the slot holds, if it is one of those slots. -/
theorem formerOutlets_update {f : Category → Category} {g : Outlet → Outlet}
    (h : ∀ c, (f c).outlet = g c.outlet) (l : Logger) (slot : Slot) :
    (l.update slot f).formerOutlets =
      if slot < l.categories.length then l.formerOutlets
      else l.formerOutlets.modify (slot - l.categories.length) g := by
  rw [formerOutlets, update]
  dsimp only
  split
  · rfl
  · apply List.ext_getElem?
    intro i
    rw [List.getElem?_modify, formerOutlets, List.getElem?_map, List.getElem?_map,
      List.getElem?_modify]
    cases l.former[i]? with
    | none => rfl
    | some c => by_cases hi : slot - l.categories.length = i <;> simp [hi, h]

/-! ### New categories -/

/-- `l'` is `l`, perhaps with more categories, which own nothing and write where a category of
`l` does or to standard output; they may have taken slots from those behind the table. -/
structure Joins (l l' : Logger) : Prop where
  outlets_eq : ∃ joined, l'.outlets = l.outlets ++ joined ∧ ∀ o ∈ joined,
    o.owned = false ∧ (o.stream = .stdout ∨ ∃ p ∈ l.outlets, p.stream = o.stream)
  former_sub : l'.formerOutlets ⊆ l.formerOutlets
  opened_eq : l'.store.opened = l.store.opened
  closed_eq : l'.store.closed = l.store.closed

/-- Where outlets, openings and closings are the same, nobody joined. -/
theorem Joins.of_eq (hout : l'.outlets = l.outlets) (hformer : l'.formerOutlets = l.formerOutlets)
    (hopened : l'.store.opened = l.store.opened) (hclosed : l'.store.closed = l.store.closed) :
    Joins l l' :=
  ⟨⟨[], by simp [hout], by simp⟩, hformer ▸ List.Subset.refl _, hopened, hclosed⟩

theorem Joins.refl (l : Logger) : Joins l l := .of_eq rfl rfl rfl rfl

/-- Categories may join one after the other. -/
theorem Joins.trans (h : Joins l l') (h' : Joins l' l'') : Joins l l'' := by
  obtain ⟨joined, hout, hjoined⟩ := h.outlets_eq
  obtain ⟨joined', hout', hjoined'⟩ := h'.outlets_eq
  refine ⟨⟨joined ++ joined', by rw [hout', hout, List.append_assoc], fun o ho => ?_⟩,
    fun o ho => h.former_sub (h'.former_sub ho), h'.opened_eq.trans h.opened_eq,
    h'.closed_eq.trans h.closed_eq⟩
  rcases List.mem_append.mp ho with ho | ho
  · exact hjoined o ho
  · obtain ⟨hfree, hstream⟩ := hjoined' o ho
    refine ⟨hfree, ?_⟩
    rcases hstream with hstd | ⟨p, hp, hps⟩
    · exact .inl hstd
    · -- a category that joined last may follow one that joined before
      rw [hout, List.mem_append] at hp
      rcases hp with hp | hp
      · exact .inr ⟨p, hp, hps⟩
      · rw [← hps]
        exact (hjoined p hp).2

/-- Joining categories own nothing. -/
theorem Joins.owned_iff (h : Joins l l') {stream : Stream} :
    l'.outlets[slot]? = some ⟨stream, true⟩ ↔ l.outlets[slot]? = some ⟨stream, true⟩ := by
  obtain ⟨joined, hout, hjoined⟩ := h.outlets_eq
  rw [hout, List.getElem?_append]
  split
  · exact Iff.rfl
  · next hlt =>
    have hnone : l.outlets[slot]? = none := List.getElem?_eq_none_iff.mpr (by omega)
    rw [hnone]
    constructor
    · intro hsome
      have hfree := (hjoined _ (List.mem_of_getElem? hsome)).1
      cases hfree
    · intro hsome
      cases hsome

/-- Who owns a file does not change when categories join. -/
theorem Joins.owns_iff (h : Joins l l') {id : Nat} : l'.Owns slot id ↔ l.Owns slot id :=
  h.owned_iff

/-- What is owned at a slot does not change when categories join. -/
theorem Joins.ownedAt?_eq (h : Joins l l') (slot : Slot) :
    ownedAt? l'.outlets slot = ownedAt? l.outlets slot := by
  apply Option.ext
  intro stream
  rw [ownedAt?_eq_some, ownedAt?_eq_some, h.owned_iff]

/-- An update that leaves outlets alone lets nobody join. -/
theorem joins_update {f : Category → Category} (h : ∀ c, (f c).outlet = c.outlet) (l : Logger)
    (slot : Slot) : Joins l (l.update slot f) := by
  have hout : (l.update slot f).outlets = l.outlets := by
    rw [outlets_update (g := id) h, List.modify_id]
  have hformer : (l.update slot f).formerOutlets = l.formerOutlets := by
    rw [formerOutlets_update (g := id) h, List.modify_id, ite_self]
  exact .of_eq hout hformer rfl rfl

theorem joins_elim_update {f : Category → Category} (h : ∀ c, (f c).outlet = c.outlet) (l : Logger)
    (slot : Option Slot) : Joins l (slot.elim l fun i => l.update i f) := by
  cases slot with
  | none => exact .refl l
  | some slot => exact joins_update h l slot

/-- A threshold is no matter of outlets. -/
theorem joins_setThreshold (l : Logger) (slot : Option Slot) (rank : Int) :
    Joins l (l.setThreshold slot rank) := by
  refine joins_elim_update ?_ l slot
  exact fun _ => rfl

theorem joins_setEnabled (l : Logger) (slot : Option Slot) (on : Bool) :
    Joins l (l.setEnabled slot on) := by
  refine joins_elim_update ?_ l slot
  exact fun _ => rfl

/-- Writing moves no outlet, and opens and closes nothing. -/
theorem joins_write (l : Logger) (slot : Option Slot) (rank : Int) (text : Text) :
    Joins l (l.write slot rank text) := by
  rcases l.write_eq_or slot rank text with h | ⟨stream, h⟩
  · rw [h]
    exact .refl l
  · rw [h]
    exact .of_eq rfl rfl (Store.opened_append _ _ _) (Store.closed_append _ _ _)

/-- A category that owns nothing and writes where another one does may join behind the others. -/
theorem joins_append {c : Category} (hcategories : l'.categories = l.categories ++ [c])
    (hformer : l'.former = l.former.drop 1) (hstore : l'.store = l.store)
    (hfree : c.ownsOutput = false)
    (hstream : c.output = .stdout ∨ ∃ d ∈ l.categories, d.output = c.output) : Joins l l' := by
  refine ⟨⟨[c.outlet], by simp [outlets, hcategories], fun o ho => ?_⟩, ?_, by rw [hstore],
    by rw [hstore]⟩
  · cases List.mem_singleton.mp ho
    refine ⟨hfree, hstream.imp id ?_⟩
    rintro ⟨d, hd, hdc⟩
    exact ⟨d.outlet, List.mem_map_of_mem hd, hdc⟩
  · rw [formerOutlets, hformer]
    exact List.map_subset _ (List.drop_subset 1 l.former)

/-- The default category is the first to join. -/
theorem joins_withDefault (h : l.DefaultKept) : Joins l l.withDefault := by
  cases hd : l.default? with
  | some slot =>
    rw [withDefault_of_some hd]
    exact .refl l
  | none =>
    have hempty := h.categories_eq_nil hd
    rw [withDefault_of_none hd, hempty]
    exact joins_append (c := Category.default) (by rw [hempty]; rfl) rfl rfl rfl (.inl rfl)

/-- The category made for a name writes where the default category does. -/
theorem joins_join (l : Logger) (name : Text) : Joins l (l.join name) := by
  refine joins_append (c := l.newCategory name) rfl rfl rfl rfl ?_
  rw [newCategory]
  cases hfirst : l.category? l.default? with
  | none => exact .inl rfl
  | some c =>
    obtain ⟨slot, -, hslot⟩ := Option.bind_eq_some_iff.mp hfirst
    exact .inr ⟨c, List.mem_of_getElem? hslot, rfl⟩

/-- Asking for a name joins a category, the default one, both or none. -/
theorem joins_get (h : l.DefaultKept) (name : Text) : Joins l (l.get name).1 := by
  have hdefault := joins_withDefault h
  rcases l.get_eq_or name with hsame | hjoin
  · rwa [hsame]
  · rw [hjoin]
    exact hdefault.trans (joins_join l.withDefault name)

/-- Asking for a name opens nothing and writes nothing. -/
theorem store_get (l : Logger) (name : Text) : (l.get name).1.store = l.store := by
  rw [← store_withDefault l]
  rcases l.get_eq_or name with hsame | hjoin
  · rw [hsame]
  · rw [hjoin]
    rfl

/-- The slot of a name is one of the table. -/
theorem lt_length_of_get {name : Text} (h : l.DefaultKept) (hslot : (l.get name).2 = some slot) :
    slot < (l.get name).1.categories.length := by
  have hready := defaultKept_withDefault h
  rw [get] at hslot ⊢
  split at hslot
  · next hname =>
    rw [if_pos hname]
    exact hready.lt_length hslot
  · next hname =>
    rw [if_neg hname]
    cases hfind : l.withDefault.find? name with
    | some found =>
      rw [hfind] at hslot
      rw [find?, List.findIdx?_eq_some_iff_findIdx_eq] at hfind
      rw [← Option.some.inj hslot]
      exact hfind.1
    | none =>
      rw [hfind] at hslot
      dsimp only at hslot ⊢
      split at hslot
      · cases hslot
      · next hroom =>
        rw [if_neg hroom, ← Option.some.inj hslot]
        simp [join]

/-! ### Another outlet -/

/-- `l'` is `l` after what is at `slot` gave up its outlet for `o`. -/
structure Replaces (l l' : Logger) (slot : Slot) (o : Outlet) : Prop where
  outlets_eq : l'.outlets = replaceAt l.outlets slot o
  former_eq : l'.formerOutlets =
    if slot < l.categories.length then l.formerOutlets
    else l.formerOutlets.modify (slot - l.categories.length) fun _ => o
  closed_eq : l'.store.closed = l.store.closed ++ closedAt l.outlets slot

/-- What stands behind the table afterwards stood there before, or was put there. -/
theorem Replaces.mem_former {o p : Outlet} (h : Replaces l l' slot o) (hp : p ∈ l'.formerOutlets) :
    p ∈ l.formerOutlets ∨ l.categories.length ≤ slot ∧ p = o := by
  rw [h.former_eq] at hp
  split at hp
  · exact .inl hp
  · next hge =>
    obtain ⟨i, hi⟩ := List.getElem?_of_mem hp
    rw [List.getElem?_modify] at hi
    obtain ⟨q, hq, hqp⟩ := Option.map_eq_some_iff.mp hi
    split at hqp
    · exact .inr ⟨Nat.le_of_not_lt hge, hqp.symm⟩
    · exact .inl (hqp ▸ List.mem_of_getElem? hq)

/-- Nothing is closed for a slot that holds no owner. -/
theorem closeOwned_of_le (h : l.TableOwns) (hslot : l.categories.length ≤ slot) :
    l.closeOwned slot = l := by
  rw [closeOwned]
  cases hc : l.held? (some slot) with
  | none => rfl
  | some c =>
    have hat : l.former[slot - l.categories.length]? = some c := by
      rw [← List.getElem?_append_right hslot]
      exact hc
    have hfree : c.outlet.owned = false := h _ (List.mem_map_of_mem (List.mem_of_getElem? hat))
    dsimp only
    rw [if_neg (by simpa [Category.outlet] using hfree)]

/-- What a slot of the table owns. -/
theorem ownedAt?_outlets {c : Category} (h : l.categories[slot]? = some c) :
    ownedAt? l.outlets slot = if c.ownsOutput then some c.output else none := by
  rw [ownedAt?, getElem?_outlets, h]
  rfl

/-- Behind the table nothing is owned. -/
theorem ownedAt?_of_le (h : l.categories.length ≤ slot) : ownedAt? l.outlets slot = none := by
  have hnone : l.outlets[slot]? = none := by
    rw [List.getElem?_eq_none_iff, length_outlets]
    exact h
  rw [ownedAt?, hnone, Option.bind_none]

/-- What is closed for a slot is what is owned there. -/
theorem closeOwned_eq (h : slot < l.categories.length ∨ l.TableOwns) :
    l.closeOwned slot = (ownedAt? l.outlets slot).elim l l.closeStream := by
  rcases Nat.lt_or_ge slot l.categories.length with hlt | hge
  · obtain ⟨c, hc⟩ : ∃ c, l.categories[slot]? = some c := ⟨_, List.getElem?_eq_getElem hlt⟩
    rw [closeOwned, held?_of_lt hlt, ownedAt?_outlets hc, hc]
    cases hown : c.ownsOutput <;> simp [hown]
  · rw [closeOwned_of_le (h.resolve_left (Nat.not_lt.mpr hge)) hge, ownedAt?_of_le hge,
      Option.elim_none]

/-- All outlets leave a stream that is closed. -/
theorem outlets_closeStream (l : Logger) (stream : Stream) :
    (l.closeStream stream).outlets = l.outlets.map (Outlet.leave (some stream)) := by
  simp only [outlets, closeStream, List.map_map]
  apply List.map_congr_left
  intro c _
  simp only [Function.comp_apply, Outlet.leave, Category.outlet, Option.some.injEq]
  split <;> rfl

/-- At a slot that may own a stream, all outlets leave the stream that is closed. -/
theorem outlets_closeOwned (h : slot < l.categories.length ∨ l.TableOwns) :
    (l.closeOwned slot).outlets = l.outlets.map (Outlet.leave (ownedAt? l.outlets slot)) := by
  rw [closeOwned_eq h]
  cases ownedAt? l.outlets slot with
  | none => rw [Option.elim_none, Outlet.leave_none, List.map_id]
  | some stream => exact outlets_closeStream l stream

/-- Of the store, giving up a stream only closes it. -/
theorem store_closeOwned (h : slot < l.categories.length ∨ l.TableOwns) :
    (l.closeOwned slot).store =
      { l.store with closed := l.store.closed ++ closedAt l.outlets slot } := by
  rw [closeOwned_eq h, closedAt]
  cases ownedAt? l.outlets slot with
  | none => simp
  | some stream => cases stream <;> simp [closeStream, Store.close]

/-- Closing a stream changes nothing behind the table. -/
theorem formerOutlets_closeOwned (l : Logger) (slot : Slot) :
    (l.closeOwned slot).formerOutlets = l.formerOutlets := by
  rcases l.closeOwned_eq_or slot with h | ⟨stream, h⟩
  · rw [h]
  · rw [h]
    rfl

/-- Giving up a stream is having standard output instead. -/
theorem replaces_release (h : slot < l.categories.length ∨ l.TableOwns) :
    Replaces l (l.release slot) slot .standard where
  outlets_eq := by
    rw [release, outlets_update (g := fun _ => .standard) fun _ => rfl, outlets_closeOwned h]
    rfl
  former_eq := by
    rw [release, formerOutlets_update (g := fun _ => .standard) fun _ => rfl,
      formerOutlets_closeOwned, length_closeOwned]
  closed_eq := congrArg Store.closed (store_closeOwned h)

/-- Nothing is opened when a stream is given up. -/
theorem opened_release (l : Logger) (slot : Slot) :
    (l.release slot).store.opened = l.store.opened := by
  change (l.closeOwned slot).store.opened = _
  rcases l.closeOwned_eq_or slot with h | ⟨stream, h⟩
  · rw [h]
  · rw [h, closeStream, Store.opened_close]

/-- A category that is given a stream gives up its own outlet and does not own the new one. -/
theorem replaces_setOutput (h : slot < l.categories.length ∨ l.TableOwns)
    (stream : Option Stream) :
    Replaces l (l.setOutput (some slot) stream) slot ⟨stream.getD .stdout, false⟩ := by
  have hreleased := replaces_release h
  let given (o : Outlet) : Outlet := { o with stream := stream.getD .stdout }
  refine ⟨?_, ?_, hreleased.closed_eq⟩
  · rw [setOutput, Option.elim_some, outlets_update (g := given) fun _ => rfl,
      hreleased.outlets_eq, replaceAt, List.modify_modify_eq]
    rfl
  · rw [setOutput, Option.elim_some, formerOutlets_update (g := given) fun _ => rfl,
      hreleased.former_eq, length_release]
    split
    · rfl
    · rw [List.modify_modify_eq]
      rfl

/-- Handing over a stream opens none. -/
theorem opened_setOutput (l : Logger) (slot : Option Slot) (stream : Option Stream) :
    (l.setOutput slot stream).store.opened = l.store.opened := by
  cases slot with
  | none => rfl
  | some slot => exact opened_release l slot

/-- `l'` is `l` after the category at `slot` was sent elsewhere: to a standard stream, or to a
file that was opened for it and that it owns. -/
inductive Moves (l l' : Logger) (slot : Slot) : Prop where
  | standard (stream : Stream) (hstd : stream = .stdout ∨ stream = .stderr)
      (hreplaces : Replaces l l' slot ⟨stream, false⟩)
      (hopened : l'.store.opened = l.store.opened)
  | opened (opening : Opening)
      (hreplaces : Replaces l l' slot ⟨.file l.store.opened.length, true⟩)
      (hopened : l'.store.opened = l.store.opened ++ [opening])

/-- A target that needs a file which cannot be opened changes nothing. -/
theorem retarget_of_not_canOpen {target : Target} (h : target.canOpen l.store = false)
    (slot : Slot) : (l.retarget slot target).1 = l := by
  cases target with
  | stdout | stderr => cases h
  | file path => rw [retarget, Store.openAppend?_of_not_canOpen h]

/-- A file that can be opened is opened for the category, which owns it. -/
theorem moves_retarget_file {path : Text} (h : l.store.canOpen path = true)
    (hslot : slot < l.categories.length) : Moves l (l.retarget slot (.file path)).1 slot := by
  obtain ⟨⟨stream, store⟩, hopen⟩ := Store.exists_openAppend? h
  obtain ⟨rfl, hclosed, file, -, hopened⟩ := Store.stream_openAppend? hopen
  have hlt : slot < ({ l with store } : Logger).categories.length := hslot
  have hgiven := replaces_setOutput (.inl hlt) (some (.file l.store.opened.length))
  have hopened' :=
    opened_setOutput { l with store } (some slot) (some (.file l.store.opened.length))
  let owned (o : Outlet) : Outlet := { o with owned := true }
  rw [retarget, hopen]
  refine .opened ⟨path, file⟩ ⟨?_, ?_, ?_⟩ (hopened'.trans hopened)
  · dsimp only
    rw [outlets_update (g := owned) fun _ => rfl, hgiven.outlets_eq, replaceAt,
      List.modify_modify_eq]
    rfl
  · dsimp only
    rw [formerOutlets_update (g := owned) fun _ => rfl, length_setOutput, if_pos hlt,
      hgiven.former_eq, if_pos hlt]
    exact (if_pos hslot).symm
  · have hstart : ({ l with store } : Logger).store.closed = l.store.closed := hclosed
    rw [← hstart]
    exact hgiven.closed_eq

/-- A target that has a stream moves the category there. -/
theorem moves_retarget {target : Target} (h : target.canOpen l.store = true)
    (hslot : slot < l.categories.length) : Moves l (l.retarget slot target).1 slot := by
  cases target with
  | stdout =>
    exact .standard .stdout (.inl rfl) (replaces_setOutput (.inl hslot) (some .stdout))
      (opened_setOutput l (some slot) (some .stdout))
  | stderr =>
    exact .standard .stderr (.inr rfl) (replaces_setOutput (.inl hslot) (some .stderr))
      (opened_setOutput l (some slot) (some .stderr))
  | file path => exact moves_retarget_file h hslot

/-- The slot that a line of a configuration sends elsewhere: that of its category, if the line is
a rule whose target has a stream. -/
def retargetedBy? (l : Logger) (line : Text) : Option Slot :=
  match Rule.parse line with
  | .error _ => none
  | .ok r =>
    match r.target with
    | .error _ => none
    | .ok target => if target.canOpen l.store then (l.get r.category).2 else none

/-- Up to its target a rule only lets categories join. -/
theorem joins_setLevel (h : l.DefaultKept) (r : Rule) (slot : Slot) :
    Joins l ((l.get r.category).1.update slot r.setLevel) := by
  have hsame : ∀ c : Category, (r.setLevel c).outlet = c.outlet := fun _ => rfl
  exact (joins_get h r.category).trans (joins_update hsame _ slot)

/-- A rule sends its category to its target, if the target has a stream. -/
theorem retargetedBy?_of_target {line : Text} {r : Rule} {target : Target}
    (hparse : Rule.parse line = .ok r) (htarget : r.target = .ok target) :
    l.retargetedBy? line = if target.canOpen l.store then (l.get r.category).2 else none := by
  rw [retargetedBy?, hparse]
  dsimp only
  rw [htarget]

/-- A rule without room for its category, or without a target, sends nothing elsewhere. -/
theorem retargetedBy?_eq_none {line : Text} {r : Rule} (hparse : Rule.parse line = .ok r)
    (h : (l.get r.category).2 = none ∨ ∃ failure, r.target = .error failure) :
    l.retargetedBy? line = none := by
  cases htarget : r.target with
  | error failure =>
    rw [retargetedBy?, hparse]
    dsimp only
    rw [htarget]
  | ok target =>
    rw [retargetedBy?_of_target hparse htarget]
    rcases h with hfull | ⟨failure, hfailure⟩
    · rw [hfull, ite_self]
    · rw [hfailure] at htarget
      cases htarget

/-- What a line of a configuration can do. -/
theorem applyLine_cases (h : l.DefaultKept) (line : Text) :
    (l.retargetedBy? line = none ∧ Joins l (l.applyLine line).1) ∨
      ∃ slot l₁, l.retargetedBy? line = some slot ∧ Joins l l₁ ∧ slot < l₁.outlets.length ∧
        Moves l₁ (l.applyLine line).1 slot := by
  cases l.applies line with
  | refused failure hparse happly =>
    rw [happly, retargetedBy?, hparse]
    exact .inl ⟨rfl, .refl l⟩
  | full r hparse hslot happly =>
    rw [happly]
    exact .inl ⟨retargetedBy?_eq_none hparse (.inl hslot), joins_get h r.category⟩
  | untargeted r slot failure hparse hslot htarget happly =>
    rw [happly]
    exact .inl ⟨retargetedBy?_eq_none hparse (.inr ⟨failure, htarget⟩), joins_setLevel h r slot⟩
  | targeted r slot target hparse hslot htarget happly =>
    rw [happly, retargetedBy?_of_target hparse htarget, hslot, ← l.store_get r.category]
    have hlt : slot < ((l.get r.category).1.update slot r.setLevel).categories.length := by
      rw [length_update]
      exact lt_length_of_get h hslot
    cases hcan : target.canOpen (l.get r.category).1.store with
    | true =>
      refine .inr ⟨slot, _, rfl, joins_setLevel h r slot, ?_, moves_retarget hcan hlt⟩
      rwa [length_outlets]
    | false =>
      rw [retarget_of_not_canOpen (l := (l.get r.category).1.update slot r.setLevel) hcan]
      exact .inl ⟨rfl, joins_setLevel h r slot⟩

end Logger

end StyleSpan
