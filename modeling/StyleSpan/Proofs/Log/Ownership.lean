import Mathlib.Data.List.Nodup
import StyleSpan.Proofs.Log.Outlets

/-!
# StyleSpan.Proofs.Log.Ownership

Every open stream of a file that a logger opened has one owner among the
categories, and the owner closes it.  Other categories may write to the stream,
too; they leave it when it is closed, so that none is left with a closed one.
Streams that were lent to the logger are nobody's, and are never closed.  A
shutdown moves the categories behind the table, where nothing is owned
(`TableOwns`) and every outlet is a standard stream or one that was lent
(`FormerKept`).

`StreamsOwned` says this of the outlets of all categories; it is kept

* `StreamsOwned.append` — when categories join;
* `StreamsOwned.replaceAt` — when one gives up its outlet for another;
* `StreamsOwned.lend` — when a stream is lent;
* `Logger.streamsOwned_shutDown` — by a shutdown, and on the way there, as the
  categories give up their outlets one after the other.
-/

namespace StyleSpan

open Text

variable {outs : List Outlet} {store store' : Store} {lent : List Nat} {slot : Slot} {o : Outlet}
  {id : Nat}

/-! ## The invariant -/

/-- Outlets and streams in order: every outlet is open, and every open stream but those that
were lent has one outlet that owns it. -/
structure StreamsOwned (outs : List Outlet) (store : Store) (lent : List Nat) : Prop where
  open_output : ∀ {slot : Slot} {o : Outlet}, outs[slot]? = some o → store.isOpen o.stream = true
  owned_file : ∀ {slot : Slot} {stream : Stream}, outs[slot]? = some ⟨stream, true⟩ →
    ∃ id, stream = .file id ∧ id ∉ lent
  owner_unique : ∀ {i j : Slot} {id : Nat}, outs[i]? = some ⟨.file id, true⟩ →
    outs[j]? = some ⟨.file id, true⟩ → i = j
  owner_exists : ∀ {id : Nat}, store.isOpen (.file id) = true → id ∉ lent →
    ∃ slot : Slot, outs[slot]? = some ⟨.file id, true⟩
  closed_nodup : store.closed.Nodup
  lt_of_closed : ∀ {id : Nat}, id ∈ store.closed → id < store.opened.length
  lent_open : ∀ {id : Nat}, id ∈ lent → store.isOpen (.file id) = true

/-- The outlet `o` can be given to the category at `slot`: it is open and not owned by any, or it
owns the one stream that was opened. -/
inductive Supplies (outs : List Outlet) (store store' : Store) (slot : Slot) : Outlet → Prop where
  | borrowed {stream : Stream} (hopen : store.isOpen stream = true)
      (hfree : ∀ i : Slot, outs[i]? ≠ some ⟨stream, true⟩)
      (hopened : store'.opened.length = store.opened.length) :
      Supplies outs store store' slot ⟨stream, false⟩
  | opened (hslot : slot < outs.length)
      (hopened : store'.opened.length = store.opened.length + 1) :
      Supplies outs store store' slot ⟨.file store.opened.length, true⟩

/-- Supplying an outlet opens at most one stream and forgets none. -/
theorem Supplies.le (ho : Supplies outs store store' slot o) :
    store.opened.length ≤ store'.opened.length := by
  cases ho <;> omega

namespace StreamsOwned

/-- Without categories and streams all is in order. -/
theorem empty (hopened : store.opened = []) (hclosed : store.closed = []) :
    StreamsOwned [] store [] where
  open_output hi := by cases hi
  owned_file hi := by cases hi
  owner_unique hi := by cases hi
  owner_exists hid := by
    have hlt := (Store.isOpen_file_iff.mp hid).1
    simp [hopened] at hlt
  closed_nodup := by simp [hclosed]
  lt_of_closed hid := by simp [hclosed] at hid
  lent_open hid := by cases hid

/-- An owned file was opened and is not closed. -/
theorem lt_of_owned (h : StreamsOwned outs store lent)
    (howned : outs[slot]? = some ⟨.file id, true⟩) : id < store.opened.length ∧ id ∉ store.closed :=
  Store.isOpen_file_iff.mp (h.open_output howned)

/-- A standard stream is not owned. -/
theorem not_owned_standard (h : StreamsOwned outs store lent) {stream : Stream}
    (hstd : stream = .stdout ∨ stream = .stderr) (i : Slot) : outs[i]? ≠ some ⟨stream, true⟩ := by
  intro howned
  obtain ⟨id, rfl, -⟩ := h.owned_file howned
  rcases hstd with hstd | hstd <;> cases hstd

/-- New outlets that own nothing and write where an old one does keep everything in order. -/
theorem append {joined : List Outlet} (h : StreamsOwned outs store lent)
    (hjoined : ∀ o ∈ joined,
      o.owned = false ∧ (o.stream = .stdout ∨ ∃ p ∈ outs, p.stream = o.stream))
    (hopened : store'.opened = store.opened) (hclosed : store'.closed = store.closed) :
    StreamsOwned (outs ++ joined) store' lent := by
  have hopen : ∀ stream, store'.isOpen stream = store.isOpen stream := by
    intro stream
    cases stream <;> simp [Store.isOpen, hopened, hclosed]
  -- what is owned was owned before
  have howned : ∀ {i : Slot} {stream : Stream}, (outs ++ joined)[i]? = some ⟨stream, true⟩ →
      outs[i]? = some ⟨stream, true⟩ := by
    intro i stream hi
    rw [List.getElem?_append] at hi
    split at hi
    · exact hi
    · have hfree := (hjoined _ (List.mem_of_getElem? hi)).1
      cases hfree
  refine ⟨fun {i p} hi => ?_, fun hi => h.owned_file (howned hi),
    fun hi hj => h.owner_unique (howned hi) (howned hj), fun {id} hid hlent => ?_,
    by rw [hclosed]; exact h.closed_nodup, fun hid => ?_, fun hid => ?_⟩
  · rw [hopen]
    rw [List.getElem?_append] at hi
    split at hi
    · exact h.open_output hi
    · rcases (hjoined p (List.mem_of_getElem? hi)).2 with hstd | ⟨q, hq, hqp⟩
      · rw [hstd]
        rfl
      · obtain ⟨j, hj⟩ := List.getElem?_of_mem hq
        rw [← hqp]
        exact h.open_output hj
  · rw [hopen] at hid
    obtain ⟨i, hi⟩ := h.owner_exists hid hlent
    have hlt := (List.getElem?_eq_some_iff.mp hi).1
    exact ⟨i, by rw [List.getElem?_append_left hlt, hi]⟩
  · rw [hclosed] at hid
    rw [hopened]
    exact h.lt_of_closed hid
  · rw [hopen]
    exact h.lent_open hid

/-- A stream may be opened and lent at any time. -/
theorem lend (h : StreamsOwned outs store lent)
    (hopened : store'.opened.length = store.opened.length + 1)
    (hclosed : store'.closed = store.closed) :
    StreamsOwned outs store' (lent ++ [store.opened.length]) := by
  have hopen : ∀ {stream : Stream}, store.isOpen stream = true → store'.isOpen stream = true := by
    intro stream hs
    cases stream with
    | stdout | stderr => rfl
    | file id =>
      obtain ⟨hlt, hmem⟩ := Store.isOpen_file_iff.mp hs
      exact Store.isOpen_file_iff.mpr ⟨by omega, by rwa [hclosed]⟩
  refine ⟨fun hi => hopen (h.open_output hi), fun {i stream} hi => ?_, h.owner_unique,
    fun {id} hid hnot => ?_, by rw [hclosed]; exact h.closed_nodup, fun {id} hid => ?_,
    fun {id} hid => ?_⟩
  · obtain ⟨id, rfl, hnot⟩ := h.owned_file hi
    have hlt := (h.lt_of_owned hi).1
    refine ⟨id, rfl, ?_⟩
    rw [List.mem_append, List.mem_singleton]
    rintro (hin | rfl)
    · exact hnot hin
    · omega
  · rw [List.mem_append, List.mem_singleton, not_or] at hnot
    obtain ⟨hlt, hmem⟩ := Store.isOpen_file_iff.mp hid
    rw [hclosed] at hmem
    exact h.owner_exists (Store.isOpen_file_iff.mpr ⟨by omega, hmem⟩) hnot.1
  · rw [hclosed] at hid
    have hlt := h.lt_of_closed hid
    omega
  · rw [List.mem_append, List.mem_singleton] at hid
    rcases hid with hid | rfl
    · exact hopen (h.lent_open hid)
    · rw [Store.isOpen_file_iff, hclosed]
      refine ⟨by omega, fun hin => ?_⟩
      have hlt := h.lt_of_closed hin
      omega

/-! ### Another outlet -/

/-- After a replacement, what is owned is what was owned, but at `slot`. -/
theorem owned_replaceAt_iff (h : StreamsOwned outs store lent) {i : Slot} {stream : Stream} :
    (replaceAt outs slot o)[i]? = some ⟨stream, true⟩ ↔
      (slot = i ∧ i < outs.length ∧ o = ⟨stream, true⟩) ∨
        (slot ≠ i ∧ outs[i]? = some ⟨stream, true⟩) := by
  rw [getElem?_replaceAt_eq_some]
  refine or_congr (by rw [eq_comm (a := o)]) (and_congr_right fun hne => ?_)
  constructor
  · rintro ⟨q, hi, hleave⟩
    rw [Outlet.leave] at hleave
    split at hleave
    · -- no second outlet owned the stream that was closed
      next hgone =>
      have hq : q = ⟨q.stream, true⟩ := by
        cases q
        cases hleave
        rfl
      have hslot := ownedAt?_eq_some.mp hgone.symm
      rw [hq] at hi
      obtain ⟨id, hid, -⟩ := h.owned_file hslot
      rw [hid] at hi hslot
      exact absurd (h.owner_unique hslot hi) hne
    · rw [hleave, hi]
  · intro hi
    refine ⟨_, hi, ?_⟩
    obtain ⟨id, rfl, -⟩ := h.owned_file hi
    rw [Outlet.leave, if_neg]
    intro hgone
    exact hne (h.owner_unique (ownedAt?_eq_some.mp hgone.symm) hi)

section Replace

variable (h : StreamsOwned outs store lent) (ho : Supplies outs store store' slot o)
  (hclosed : store'.closed = store.closed ++ closedAt outs slot)

include ho hclosed in
/-- A stream that was open is open still, if it was not owned at `slot`. -/
theorem isOpen_of_not_owned {stream : Stream} (hopen : store.isOpen stream = true)
    (hnot : outs[slot]? ≠ some ⟨stream, true⟩) : store'.isOpen stream = true := by
  cases stream with
  | stdout | stderr => rfl
  | file id =>
    have hle := ho.le
    obtain ⟨hlt, hmem⟩ := Store.isOpen_file_iff.mp hopen
    rw [Store.isOpen_file_iff, hclosed, List.mem_append, mem_closedAt]
    exact ⟨by omega, fun hin => hin.elim hmem hnot⟩

include h ho hclosed

/-- The supplied outlet is open after the old one was given up. -/
theorem isOpen_supplied : store'.isOpen o.stream = true := by
  cases ho with
  | borrowed hopen hfree hopened =>
    exact isOpen_of_not_owned (.borrowed hopen hfree hopened) hclosed hopen (hfree slot)
  | opened hslot hopened =>
    rw [Store.isOpen_file_iff, hclosed, List.mem_append, mem_closedAt]
    refine ⟨by omega, ?_⟩
    rintro (hmem | hmem)
    · have hlt := h.lt_of_closed hmem
      omega
    · have hlt := (h.lt_of_owned hmem).1
      omega

/-- Every outlet is open after a replacement. -/
theorem isOpen_replaceAt {i : Slot} {p : Outlet} (hi : (replaceAt outs slot o)[i]? = some p) :
    store'.isOpen p.stream = true := by
  rcases getElem?_replaceAt_eq_some.mp hi with ⟨-, -, rfl⟩ | ⟨-, q, hq, rfl⟩
  · exact isOpen_supplied h ho hclosed
  · rw [Outlet.leave]
    split
    · rfl
    · next hgone =>
      exact isOpen_of_not_owned ho hclosed (h.open_output hq)
        fun hslot => hgone (ownedAt?_eq_some.mpr hslot).symm

omit ho in
/-- What the old outlet closes was not closed before. -/
theorem closed_nodup_replaceAt : store'.closed.Nodup := by
  rw [hclosed, List.nodup_append]
  refine ⟨h.closed_nodup, ?_, fun a ha b hb => ?_⟩
  · rw [closedAt]
    split <;> simp
  · have hopen := (h.lt_of_owned (mem_closedAt.mp hb)).2
    rintro rfl
    exact hopen ha

/-- A stream that is open afterwards and was not lent has an owner. -/
theorem owner_exists_replaceAt (hopen : store'.isOpen (.file id) = true) (hlent : id ∉ lent) :
    ∃ i : Slot, (replaceAt outs slot o)[i]? = some ⟨.file id, true⟩ := by
  obtain ⟨hlt, hmem⟩ := Store.isOpen_file_iff.mp hopen
  rw [hclosed, List.mem_append, mem_closedAt, not_or] at hmem
  by_cases hold : id < store.opened.length
  · obtain ⟨i, hi⟩ := h.owner_exists (Store.isOpen_file_iff.mpr ⟨hold, hmem.1⟩) hlent
    have hne : slot ≠ i := by
      rintro rfl
      exact hmem.2 hi
    exact ⟨i, h.owned_replaceAt_iff.mpr (.inr ⟨hne, hi⟩)⟩
  · cases ho with
    | borrowed hborrowed hfree hopened => omega
    | opened hslot hopened =>
      have hid : id = store.opened.length := by omega
      exact ⟨slot, h.owned_replaceAt_iff.mpr (.inl ⟨rfl, hslot, by rw [hid]⟩)⟩

omit hclosed in
/-- A supplied outlet that owns a stream is the only one on it: the stream is new. -/
theorem not_owned_supplied {i : Slot} (heq : o = ⟨.file id, true⟩) :
    outs[i]? ≠ some ⟨.file id, true⟩ := by
  intro hi
  have hlt := (h.lt_of_owned hi).1
  cases ho with
  | borrowed hopen hfree hopened => cases heq
  | opened hslot hopened =>
    cases heq
    omega

omit hclosed in
/-- After a replacement a stream has no two owners. -/
theorem owner_unique_replaceAt {i j : Slot}
    (hi : (replaceAt outs slot o)[i]? = some ⟨.file id, true⟩)
    (hj : (replaceAt outs slot o)[j]? = some ⟨.file id, true⟩) : i = j := by
  rcases h.owned_replaceAt_iff.mp hi with ⟨rfl, -, hi⟩ | ⟨-, hi⟩
  · rcases h.owned_replaceAt_iff.mp hj with ⟨rfl, -, -⟩ | ⟨-, hj⟩
    · rfl
    · exact absurd hj (not_owned_supplied h ho hi)
  · rcases h.owned_replaceAt_iff.mp hj with ⟨rfl, -, hj⟩ | ⟨-, hj⟩
    · exact absurd hi (not_owned_supplied h ho hj)
    · exact h.owner_unique hi hj

/-- If a category gives up its outlet for one that it can be given, all is in order. -/
theorem replaceAt : StreamsOwned (replaceAt outs slot o) store' lent where
  open_output := isOpen_replaceAt h ho hclosed
  owned_file := by
    intro i stream hi
    rcases h.owned_replaceAt_iff.mp hi with ⟨-, -, rfl⟩ | ⟨-, hbefore⟩
    · cases ho with
      | opened hslot hopened =>
        refine ⟨_, rfl, fun hin => ?_⟩
        have hlt := (Store.isOpen_file_iff.mp (h.lent_open hin)).1
        omega
    · exact h.owned_file hbefore
  owner_unique := owner_unique_replaceAt h ho
  owner_exists := owner_exists_replaceAt h ho hclosed
  closed_nodup := closed_nodup_replaceAt h hclosed
  lt_of_closed := by
    intro id hid
    have hle := ho.le
    rw [hclosed, List.mem_append, mem_closedAt] at hid
    rcases hid with hid | hid
    · have hlt := h.lt_of_closed hid
      omega
    · have hlt := (h.lt_of_owned hid).1
      omega
  lent_open := by
    intro id hid
    refine isOpen_of_not_owned ho hclosed (h.lent_open hid) fun howned => ?_
    obtain ⟨id', heq, hnot⟩ := h.owned_file howned
    cases heq
    exact hnot hid

end Replace

end StreamsOwned

/-! ## Borrowed streams -/

/-- The outlet owns nothing, and writes to a standard stream or to one that was lent. -/
structure Outlet.Borrows (lent : List Nat) (o : Outlet) : Prop where
  free : o.owned = false
  mem_lent : ∀ {id : Nat}, o.stream = .file id → id ∈ lent

namespace Outlet.Borrows

/-- Standard output is owned by none and lent by none. -/
theorem standard : Outlet.standard.Borrows lent := ⟨rfl, fun heq => by cases heq⟩

/-- What is borrowed stays so when more streams are lent. -/
theorem lend (h : o.Borrows lent) (more : List Nat) : o.Borrows (lent ++ more) :=
  ⟨h.free, fun heq => List.mem_append_left more (h.mem_lent heq)⟩

/-- What is borrowed is open. -/
theorem isOpen (h : o.Borrows lent) (hs : StreamsOwned outs store lent) :
    store.isOpen o.stream = true := by
  cases hstream : o.stream with
  | stdout | stderr => rfl
  | file id => exact hs.lent_open (h.mem_lent hstream)

/-- A stream that is open and that nobody owns was lent. -/
theorem of_not_owned (hs : StreamsOwned outs store lent) {stream : Stream}
    (hopen : store.isOpen stream = true) (hfree : ∀ i : Slot, outs[i]? ≠ some ⟨stream, true⟩) :
    (⟨stream, false⟩ : Outlet).Borrows lent := by
  refine ⟨rfl, fun {id} heq => ?_⟩
  obtain rfl : stream = .file id := heq
  by_contra hlent
  obtain ⟨i, hi⟩ := hs.owner_exists hopen hlent
  exact hfree i hi

end Outlet.Borrows

/-! ## Loggers -/

namespace Logger

variable {l l' : Logger}

/-- Categories that join leave the streams in order. -/
theorem streamsOwned_of_joins (h : StreamsOwned l.outlets l.store lent) (hj : Joins l l') :
    StreamsOwned l'.outlets l'.store lent := by
  obtain ⟨joined, hout, hjoined⟩ := hj.outlets_eq
  rw [hout]
  exact h.append hjoined hj.opened_eq hj.closed_eq

/-- A category that gives up its outlet for one that can be supplied leaves them in order. -/
theorem streamsOwned_of_replaces (h : StreamsOwned l.outlets l.store lent)
    (hr : Replaces l l' slot o) (ho : Supplies l.outlets l.store l'.store slot o) :
    StreamsOwned l'.outlets l'.store lent := by
  rw [hr.outlets_eq]
  exact h.replaceAt ho hr.closed_eq

/-- A category that gives up its stream has standard output instead, and all is in order. -/
theorem streamsOwned_release (h : StreamsOwned l.outlets l.store lent) (hfree : l.TableOwns)
    (slot : Slot) : StreamsOwned (l.release slot).outlets (l.release slot).store lent := by
  have hopened : (l.release slot).store.opened.length = l.store.opened.length := by
    rw [opened_release]
  exact streamsOwned_of_replaces h (replaces_release (.inr hfree))
    (.borrowed rfl (h.not_owned_standard (.inl rfl)) hopened)

/-! ### Behind the table -/

/-- The slots of a logger in order: the pointer and the table agree, and streams are owned in the
table only. -/
structure SlotsKept (l : Logger) : Prop where
  pointer : l.DefaultKept
  owners : l.TableOwns

/-- What the slots behind the table hold writes to borrowed streams. -/
def FormerKept (l : Logger) (lent : List Nat) : Prop := ∀ p ∈ l.formerOutlets, p.Borrows lent

theorem FormerKept.tableOwns (h : l.FormerKept lent) : l.TableOwns := fun p hp => (h p hp).free

/-- No owner comes behind the table when categories join. -/
theorem tableOwns_of_joins (h : l.TableOwns) (hj : Joins l l') : l'.TableOwns :=
  fun p hp => h p (hj.former_sub hp)

/-- Joining puts nothing behind the table. -/
theorem formerKept_of_joins (h : l.FormerKept lent) (hj : Joins l l') : l'.FormerKept lent :=
  fun p hp => h p (hj.former_sub hp)

/-- A slot behind the table is only given a stream that was lent. -/
theorem formerKept_of_replaces (h : l.FormerKept lent) (hs : StreamsOwned l.outlets l.store lent)
    (hr : Replaces l l' slot o) (ho : Supplies l.outlets l.store l'.store slot o) :
    l'.FormerKept lent := by
  intro p hp
  rcases hr.mem_former hp with hold | ⟨hge, rfl⟩
  · exact h p hold
  · cases ho with
    | borrowed hopen hfree hopened => exact .of_not_owned hs hopen hfree
    | opened hslot hopened =>
      rw [length_outlets] at hslot
      exact absurd hslot (Nat.not_lt.mpr hge)

/-- Giving up a stream makes nobody an owner. -/
theorem tableOwns_release (h : l.TableOwns) (slot : Slot) : (l.release slot).TableOwns := by
  intro p hp
  rcases (replaces_release (.inr h)).mem_former hp with hold | ⟨-, rfl⟩
  · exact h p hold
  · rfl

/-! ### Shutting down -/

/-- The logger after the first `n` slots gave up their outlets. -/
def releaseFirst (l : Logger) (n : Nat) : Logger := (List.range n).foldl release l

/-- The slots give up their streams in order, one at a time. -/
theorem releaseFirst_succ (l : Logger) (n : Nat) :
    l.releaseFirst (n + 1) = (l.releaseFirst n).release n := by
  rw [releaseFirst, List.range_succ, List.foldl_append]
  rfl

theorem length_releaseFirst (l : Logger) (n : Nat) :
    (l.releaseFirst n).categories.length = l.categories.length := by
  induction n with
  | zero => rfl
  | succ n ih => rw [releaseFirst_succ, length_release, ih]

/-- On the way to a shutdown nothing is opened. -/
theorem opened_releaseFirst (l : Logger) (n : Nat) :
    (l.releaseFirst n).store.opened = l.store.opened := by
  induction n with
  | zero => rfl
  | succ n ih => rw [releaseFirst_succ, opened_release, ih]

/-- Streams are owned in the table only after each of the releases. -/
theorem tableOwns_releaseFirst (h : l.TableOwns) (n : Nat) : (l.releaseFirst n).TableOwns := by
  induction n with
  | zero => exact h
  | succ n ih =>
    rw [releaseFirst_succ]
    exact tableOwns_release ih n

/-- What a release does on the way. -/
theorem replaces_releaseFirst (h : l.TableOwns) (n : Nat) :
    Replaces (l.releaseFirst n) (l.releaseFirst (n + 1)) n .standard := by
  rw [releaseFirst_succ]
  exact replaces_release (.inr (tableOwns_releaseFirst h n))

/-- What was closed stays closed. -/
theorem closed_releaseFirst (h : l.TableOwns) (n : Nat) :
    l.store.closed <+: (l.releaseFirst n).store.closed := by
  induction n with
  | zero => exact List.prefix_refl _
  | succ n ih =>
    rw [(replaces_releaseFirst h n).closed_eq]
    exact ih.trans (List.prefix_append _ _)

/-- All is in order after each of the releases. -/
theorem streamsOwned_releaseFirst (h : StreamsOwned l.outlets l.store lent) (hfree : l.TableOwns)
    (n : Nat) : StreamsOwned (l.releaseFirst n).outlets (l.releaseFirst n).store lent := by
  induction n with
  | zero => exact h
  | succ n ih =>
    rw [releaseFirst_succ]
    exact streamsOwned_release ih (tableOwns_releaseFirst hfree n) n

/-- The categories that gave up their outlets write to standard output. -/
theorem getElem?_releaseFirst (hfree : l.TableOwns) {n i : Nat} (hi : i < n)
    (hlt : i < l.categories.length) : (l.releaseFirst n).outlets[i]? = some .standard := by
  induction n with
  | zero => omega
  | succ n ih =>
    rw [(replaces_releaseFirst hfree n).outlets_eq, getElem?_replaceAt]
    split
    · rw [List.getElem?_eq_getElem (by rw [length_outlets, length_releaseFirst]; exact hlt)]
      rfl
    · next hne =>
      have hbefore := ih (Nat.lt_of_le_of_ne (Nat.le_of_lt_succ hi) (Ne.symm hne))
      rw [hbefore, Option.map_some, Outlet.leave]
      -- who is on standard output stays there, whatever is closed
      split <;> rfl

/-- What a shutdown leaves behind the table is what stood there, or writes to standard output. -/
theorem mem_formerOutlets_shutDown (hfree : l.TableOwns) {p : Outlet}
    (hp : p ∈ l.shutDown.formerOutlets) :
    p = .standard ∨ p ∈ (l.releaseFirst l.categories.length).formerOutlets := by
  have hsplit : l.shutDown.formerOutlets =
      (l.releaseFirst l.categories.length).outlets ++
        (l.releaseFirst l.categories.length).formerOutlets := List.map_append
  rw [hsplit, List.mem_append] at hp
  refine hp.imp (fun htable => ?_) id
  obtain ⟨i, hi⟩ := List.getElem?_of_mem htable
  have hlt := (List.getElem?_eq_some_iff.mp hi).1
  rw [length_outlets, length_releaseFirst] at hlt
  rw [getElem?_releaseFirst hfree hlt hlt] at hi
  exact (Option.some.inj hi).symm

/-- After a shutdown nothing is owned: every category gave up its stream before it went behind the
table. -/
theorem tableOwns_shutDown (h : l.TableOwns) : l.shutDown.TableOwns := by
  intro p hp
  rcases mem_formerOutlets_shutDown h hp with rfl | hold
  · rfl
  · exact tableOwns_releaseFirst h _ p hold

/-- On the way to a shutdown the slots behind the table keep their streams. -/
theorem formerKept_releaseFirst (h : l.FormerKept lent) (n : Nat) :
    (l.releaseFirst n).FormerKept lent := by
  induction n with
  | zero => exact h
  | succ n ih =>
    intro p hp
    rcases (replaces_releaseFirst h.tableOwns n).mem_former hp with hold | ⟨-, rfl⟩
    · exact ih p hold
    · exact .standard

/-- What a shutdown puts behind the table writes to standard output. -/
theorem formerKept_shutDown (h : l.FormerKept lent) : l.shutDown.FormerKept lent := by
  intro p hp
  rcases mem_formerOutlets_shutDown h.tableOwns hp with rfl | hold
  · exact .standard
  · exact formerKept_releaseFirst h _ p hold

/-- After a shutdown every stream that is open was lent. -/
theorem streamsOwned_shutDown (h : StreamsOwned l.outlets l.store lent) (hfree : l.TableOwns) :
    StreamsOwned l.shutDown.outlets l.shutDown.store lent := by
  have hlast := streamsOwned_releaseFirst h hfree l.categories.length
  refine { hlast with
    open_output := fun hi => by cases hi
    owned_file := fun hi => by cases hi
    owner_unique := fun hi => by cases hi
    owner_exists := fun {id} hopen hlent => ?_ }
  obtain ⟨i, hi⟩ := hlast.owner_exists hopen hlent
  have hlt := (List.getElem?_eq_some_iff.mp hi).1
  rw [length_outlets, length_releaseFirst] at hlt
  rw [getElem?_releaseFirst hfree hlt hlt] at hi
  cases hi

end Logger

end StyleSpan
