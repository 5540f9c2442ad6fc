import StyleSpan.Proofs.Log.Ownership

/-!
# StyleSpan.Proofs.Log.Session

A logger in use.  Its callers configure it, ask for categories, send them
elsewhere, write and shut it down, in any order and as often as they like; the
streams that they hand over were opened by them, and stay open.  The streams
that rules open belong to the logger.  Callers may keep the slots that they were
given before a shutdown: what such a slot holds still writes, to a standard
stream or to one that was lent.

* `effect_step` — what one step can do to outlets and streams;
* `inOrder_of_reachable` — the invariant, by induction on the steps;
* `call_eq_run` — every call is a run of steps;
* `streams_of_reachable` — who owns, who closes, and what is written to.
-/

namespace StyleSpan

open Text

/-- A logger, and the numbers of the streams that its callers opened. -/
structure Session where
  logger : Logger
  lent : List Nat := []

namespace Session

/-! ## Steps -/

/-- One step of a logger, or of the world around it.  A slot may lie behind the table: it was
handed out before a shutdown. -/
inductive Step where
  /-- The default category is made, if there is none. -/
  | ready
  /-- A line of a configuration is read. -/
  | rule (line : Text)
  | get (name : Text)
  | setThreshold (slot : Option Slot) (rank : Int)
  | setEnabled (slot : Option Slot) (on : Bool)
  | setTimestamps (on : Bool)
  | setOutput (slot : Option Slot) (stream : Option Stream)
  | write (slot : Option Slot) (rank : Int) (text : Text)
  | shutDown
  /-- A caller opens a stream. -/
  | lend (path : Text)
  /-- Time goes on, and others change files and where paths lead. -/
  | elapse (clock : TimeOfDay) (paths : Paths) (files : List (Text × Text))

/-- The session after a step. -/
def step (s : Session) : Step → Session
  | .ready => { s with logger := s.logger.withDefault }
  | .rule line => { s with logger := (s.logger.applyLine line).1 }
  | .get name => { s with logger := (s.logger.get name).1 }
  | .setThreshold slot rank => { s with logger := s.logger.setThreshold slot rank }
  | .setEnabled slot on => { s with logger := s.logger.setEnabled slot on }
  | .setTimestamps on => { s with logger := s.logger.setTimestamps on }
  | .setOutput slot stream => { s with logger := s.logger.setOutput slot stream }
  | .write slot rank text => { s with logger := s.logger.write slot rank text }
  | .shutDown => { s with logger := s.logger.shutDown }
  | .lend path =>
    match s.logger.store.openAppend? path with
    | some (_, store) =>
      { logger := { s.logger with store }, lent := s.lent ++ [s.logger.store.opened.length] }
    | none => s
  | .elapse clock paths files =>
    { s with logger := { s.logger with clock, store := { s.logger.store with paths, files } } }

/-- A file stream that is given to a category has to be open, and no category may own it. -/
def Step.Admissible (s : Session) : Step → Prop
  | .setOutput _ (some (.file id)) =>
    s.logger.store.isOpen (.file id) = true ∧ ∀ slot, ¬ s.logger.Owns slot id
  | _ => True

/-- The slot that a step sends elsewhere. -/
def Step.retargets? (s : Session) : Step → Option Slot
  | .rule line => s.logger.retargetedBy? line
  | .setOutput slot _ => slot
  | _ => none

/-- The sessions that steps lead to from one in which nothing was opened. -/
inductive Reachable : Session → Prop where
  | start (paths : Paths) (files : List (Text × Text)) (stdout stderr : Text) (timestamps : Bool)
      (clock : TimeOfDay) :
      Reachable { logger := { timestamps, clock, store := { paths, files, stdout, stderr } } }
  | step {s : Session} {a : Step} (h : Reachable s) (ha : a.Admissible s) : Reachable (s.step a)

/-- The stream of a number is open, and a rule opened it. -/
def OpenByRule (s : Session) (id : Nat) : Prop :=
  s.logger.store.isOpen (.file id) = true ∧ id ∉ s.lent

variable {s s' : Session} {a : Step} {slot : Slot} {id : Nat}

/-! ## The invariant -/

/-- Outlets and streams are in order, in the table and behind it, and so is the pointer to the
default category. -/
structure InOrder (s : Session) : Prop where
  streams : StreamsOwned s.logger.outlets s.logger.store s.lent
  former : s.logger.FormerKept s.lent
  pointer : s.logger.DefaultKept

/-- The pointer and the table agree after a step, whatever is handed over. -/
theorem defaultKept_step (h : s.logger.DefaultKept) (a : Step) : (s.step a).logger.DefaultKept := by
  have hupdate : ∀ (slot : Option Slot) (f : Category → Category),
      Logger.DefaultKept (slot.elim s.logger fun i => s.logger.update i f) := by
    intro slot f
    refine h.of_eq (Logger.default?_elim_update _ _ _) ?_
    cases slot <;> simp
  cases a with
  | ready => exact Logger.defaultKept_withDefault h
  | rule line => exact Logger.defaultKept_applyLine h line
  | get name => exact Logger.defaultKept_get h name
  | setThreshold slot rank => exact hupdate slot _
  | setEnabled slot on => exact hupdate slot _
  | setTimestamps on => exact h.of_eq rfl rfl
  | setOutput slot stream =>
    exact h.of_eq (Logger.default?_setOutput _ _ _) (Logger.length_setOutput _ _ _)
  | write slot rank text => exact h.of_eq (by simp [step]) (by simp [step])
  | shutDown => exact Logger.defaultKept_shutDown s.logger
  | lend path =>
    rw [step]
    split <;> exact h.of_eq rfl rfl
  | elapse clock paths files => exact h.of_eq rfl rfl

/-- A line of a configuration makes owners in the table only. -/
theorem tableOwns_rule (h : s.logger.SlotsKept) (line : Text) :
    (s.logger.applyLine line).1.TableOwns := by
  rcases Logger.applyLine_cases h.pointer line with ⟨-, hjoins⟩ | ⟨slot, l, -, hjoins, hlt, hmoves⟩
  · exact Logger.tableOwns_of_joins h.owners hjoins
  · have hl := Logger.tableOwns_of_joins h.owners hjoins
    rw [Logger.length_outlets] at hlt
    intro p hp
    cases hmoves with
    | standard stream hstd hreplaces hopened =>
      rcases hreplaces.mem_former hp with hold | ⟨-, rfl⟩
      · exact hl p hold
      · rfl
    | opened opening hreplaces hopened =>
      rcases hreplaces.mem_former hp with hold | ⟨hge, -⟩
      · exact hl p hold
      · exact absurd hlt (Nat.not_lt.mpr hge)

/-- The slots stay in order, whatever is handed over. -/
theorem slotsKept_step (h : s.logger.SlotsKept) (a : Step) : (s.step a).logger.SlotsKept := by
  refine ⟨defaultKept_step h.pointer a, ?_⟩
  have hjoined : ∀ {l : Logger}, Logger.Joins s.logger l → l.TableOwns :=
    fun hjoins => Logger.tableOwns_of_joins h.owners hjoins
  cases a with
  | ready => exact hjoined (Logger.joins_withDefault h.pointer)
  | rule line => exact tableOwns_rule h line
  | get name => exact hjoined (Logger.joins_get h.pointer name)
  | setThreshold slot rank => exact hjoined (Logger.joins_setThreshold s.logger slot rank)
  | setEnabled slot on => exact hjoined (Logger.joins_setEnabled s.logger slot on)
  | setTimestamps on => exact h.owners
  | setOutput slot stream =>
    cases slot with
    | none => exact h.owners
    | some slot =>
      intro p hp
      rcases (Logger.replaces_setOutput (.inr h.owners) stream).mem_former hp with hold | ⟨-, rfl⟩
      · exact h.owners p hold
      · rfl
  | write slot rank text => exact hjoined (Logger.joins_write s.logger slot rank text)
  | shutDown => exact Logger.tableOwns_shutDown h.owners
  | lend path =>
    rw [step]
    split <;> exact h.owners
  | elapse clock paths files => exact h.owners

/-- What a step other than a shutdown does: categories may join, a stream may be lent, or what is
at a slot is sent elsewhere, after categories may have joined. -/
inductive Effect (s s' : Session) : Option Slot → Prop where
  | joins (h : Logger.Joins s.logger s'.logger) (hlent : s'.lent = s.lent) : Effect s s' none
  | lends (hout : s'.logger.outlets = s.logger.outlets)
      (hformer : s'.logger.formerOutlets = s.logger.formerOutlets)
      (hopened : s'.logger.store.opened.length = s.logger.store.opened.length + 1)
      (hclosed : s'.logger.store.closed = s.logger.store.closed)
      (hlent : s'.lent = s.lent ++ [s.logger.store.opened.length]) : Effect s s' none
  | replaces {slot : Slot} {l : Logger} {o : Outlet} (hjoins : Logger.Joins s.logger l)
      (hsupplies : Supplies l.outlets l.store s'.logger.store slot o)
      (hreplaces : Logger.Replaces l s'.logger slot o) (hlent : s'.lent = s.lent) :
      Effect s s' (some slot)

/-- A rule sends its category to a standard stream, which nobody owns, or to a file of its own. -/
theorem effect_rule (h : s.InOrder) (line : Text) :
    Effect s (s.step (.rule line)) (s.logger.retargetedBy? line) := by
  rcases Logger.applyLine_cases h.pointer line with
    ⟨hnone, hjoins⟩ | ⟨slot, l, hsome, hjoins, hlt, hmoves⟩
  · rw [hnone]
    exact .joins hjoins rfl
  · have hl := Logger.streamsOwned_of_joins h.streams hjoins
    rw [hsome]
    cases hmoves with
    | standard stream hstd hreplaces hopened =>
      have hopen : l.store.isOpen stream = true := by
        rcases hstd with rfl | rfl <;> rfl
      exact .replaces hjoins (.borrowed hopen (hl.not_owned_standard hstd) (by
        show (s.logger.applyLine line).1.store.opened.length = _
        rw [hopened])) hreplaces rfl
    | opened opening hreplaces hopened =>
      exact .replaces hjoins (.opened hlt (by
        show (s.logger.applyLine line).1.store.opened.length = _
        rw [hopened, List.length_append, List.length_singleton])) hreplaces rfl

/-- A caller hands over a standard stream or one that was lent. -/
theorem effect_setOutput (h : s.InOrder) {stream : Option Stream}
    (ha : (Step.setOutput (some slot) stream).Admissible s) :
    Effect s (s.step (.setOutput (some slot) stream)) (some slot) := by
  have hopened : (s.logger.setOutput (some slot) stream).store.opened.length =
      s.logger.store.opened.length := by rw [Logger.opened_setOutput]
  have hreplaces : s.logger.Replaces (s.logger.setOutput (some slot) stream) slot _ :=
    Logger.replaces_setOutput (.inr h.former.tableOwns) stream
  have hstd : ∀ {given : Stream}, given = .stdout ∨ given = .stderr →
      Supplies s.logger.outlets s.logger.store (s.logger.setOutput (some slot) stream).store slot
        ⟨given, false⟩ := fun {given} hgiven => by
    have hopen : s.logger.store.isOpen given = true := by
      rcases hgiven with rfl | rfl <;> rfl
    exact .borrowed hopen (h.streams.not_owned_standard hgiven) hopened
  have hsame := Logger.Joins.refl s.logger
  cases stream with
  | none => exact .replaces hsame (hstd (.inl rfl)) hreplaces rfl
  | some given =>
    cases given with
    | stdout => exact .replaces hsame (hstd (.inl rfl)) hreplaces rfl
    | stderr => exact .replaces hsame (hstd (.inr rfl)) hreplaces rfl
    | file id => exact .replaces hsame (.borrowed ha.1 ha.2 hopened) hreplaces rfl

/-- Lending a stream moves no outlet. -/
theorem effect_lend (path : Text) : Effect s (s.step (.lend path)) none := by
  rw [step]
  cases hopen : s.logger.store.openAppend? path with
  | none => exact .joins (.refl s.logger) rfl
  | some next =>
    obtain ⟨stream, store⟩ := next
    obtain ⟨-, hclosed, file, -, hopened⟩ := Store.stream_openAppend? hopen
    exact .lends rfl rfl (by simp [hopened]) hclosed rfl

/-- What one step can do. -/
theorem effect_step (h : s.InOrder) (ha : a.Admissible s) (hne : a ≠ .shutDown) :
    Effect s (s.step a) (a.retargets? s) := by
  cases a with
  | ready => exact .joins (Logger.joins_withDefault h.pointer) rfl
  | rule line => exact effect_rule h line
  | get name => exact .joins (Logger.joins_get h.pointer name) rfl
  | setThreshold slot rank => exact .joins (Logger.joins_setThreshold s.logger slot rank) rfl
  | setEnabled slot on => exact .joins (Logger.joins_setEnabled s.logger slot on) rfl
  | setTimestamps on => exact .joins (.of_eq rfl rfl rfl rfl) rfl
  | setOutput slot stream =>
    cases slot with
    | none => exact .joins (.refl s.logger) rfl
    | some slot => exact effect_setOutput h ha
  | write slot rank text => exact .joins (Logger.joins_write s.logger slot rank text) rfl
  | shutDown => exact absurd rfl hne
  | lend path => exact effect_lend path
  | elapse clock paths files => exact .joins (.of_eq rfl rfl rfl rfl) rfl

/-- Whatever a step does to outlets and streams, they stay in order. -/
theorem Effect.streamsOwned {slot? : Option Slot} (h : s.InOrder) (he : Effect s s' slot?) :
    StreamsOwned s'.logger.outlets s'.logger.store s'.lent ∧ s'.logger.FormerKept s'.lent := by
  cases he with
  | joins hjoins hlent =>
    rw [hlent]
    exact ⟨Logger.streamsOwned_of_joins h.streams hjoins,
      Logger.formerKept_of_joins h.former hjoins⟩
  | lends hout hformer hopened hclosed hlent =>
    rw [hout, hlent, Logger.FormerKept, hformer]
    exact ⟨h.streams.lend hopened hclosed, fun p hp => (h.former p hp).lend _⟩
  | replaces hjoins hsupplies hreplaces hlent =>
    rw [hlent]
    have hl := Logger.streamsOwned_of_joins h.streams hjoins
    have hformer := Logger.formerKept_of_joins h.former hjoins
    exact ⟨Logger.streamsOwned_of_replaces hl hreplaces hsupplies,
      Logger.formerKept_of_replaces hformer hl hreplaces hsupplies⟩

/-- The slots of a session in order are in order. -/
theorem InOrder.slotsKept (h : s.InOrder) : s.logger.SlotsKept := ⟨h.pointer, h.former.tableOwns⟩

/-- A step keeps outlets, streams and the pointer in order. -/
theorem inOrder_step (h : s.InOrder) (ha : a.Admissible s) : (s.step a).InOrder := by
  by_cases hshut : a = .shutDown
  · rw [hshut]
    exact ⟨Logger.streamsOwned_shutDown h.streams h.former.tableOwns,
      Logger.formerKept_shutDown h.former, Logger.defaultKept_shutDown s.logger⟩
  · obtain ⟨hstreams, hformer⟩ := (effect_step h ha hshut).streamsOwned h
    exact ⟨hstreams, hformer, defaultKept_step h.pointer a⟩

/-- Outlets, streams and the pointer are in order whatever the steps were. -/
theorem inOrder_of_reachable (h : s.Reachable) : s.InOrder := by
  induction h with
  | start paths files stdout stderr timestamps clock =>
    exact ⟨StreamsOwned.empty rfl rfl, fun p hp => (by cases hp),
      iff_of_true rfl rfl, fun slot hslot => (by cases hslot)⟩
  | step h ha ih => exact inOrder_step ih ha

/-! ## Closing -/

/-- What a step does about a stream that a rule opened: it closes it if it shuts the logger down
or sends the owner elsewhere, and in no other case; then no category keeps the stream, and those
that shared it write to standard output. -/
structure ClosesWithOwner (s : Session) (a : Step) (id : Nat) : Prop where
  closed_iff : id ∈ (s.step a).logger.store.closed ↔
    a = .shutDown ∨ ∃ slot, a.retargets? s = some slot ∧ s.logger.Owns slot id
  unused : id ∈ (s.step a).logger.store.closed →
    ∀ c ∈ (s.step a).logger.categories, c.output ≠ .file id
  sharers : ∀ slot, a.retargets? s = some slot → s.logger.Owns slot id → ∀ i c, i ≠ slot →
    s.logger.categories[i]? = some c → c.output = .file id →
      ∃ d, (s.step a).logger.categories[i]? = some d ∧ d.output = .stdout

/-- A shutdown closes every open stream that a rule opened. -/
theorem closed_shutDown (h : s.InOrder) (hid : s.OpenByRule id) :
    id ∈ (s.step .shutDown).logger.store.closed := by
  by_contra hopen
  have hlt := (Store.isOpen_file_iff.mp hid.1).1
  have hopened : (s.step .shutDown).logger.store.opened = s.logger.store.opened :=
    Logger.opened_releaseFirst s.logger _
  have hafter : (s.step .shutDown).logger.store.isOpen (.file id) = true :=
    Store.isOpen_file_iff.mpr ⟨by rwa [hopened], hopen⟩
  have hlast := Logger.streamsOwned_shutDown h.streams h.former.tableOwns
  obtain ⟨slot, howns⟩ := hlast.owner_exists hafter hid.2
  cases howns

/-- Short of a shutdown, a stream that a rule opened is closed when its owner is sent elsewhere, and
only then. -/
theorem Effect.closed_iff {slot? : Option Slot} (he : Effect s s' slot?) (hid : s.OpenByRule id) :
    id ∈ s'.logger.store.closed ↔ ∃ slot, slot? = some slot ∧ s.logger.Owns slot id := by
  have hnot := (Store.isOpen_file_iff.mp hid.1).2
  cases he with
  | joins hjoins hlent => simp [hjoins.closed_eq, hnot]
  | lends hout hformer hopened hclosed hlent => simp [hclosed, hnot]
  | @replaces slot l o hjoins hsupplies hreplaces hlent =>
    have howns : id ∈ closedAt l.outlets slot ↔ s.logger.Owns slot id :=
      mem_closedAt.trans hjoins.owns_iff
    rw [hreplaces.closed_eq, List.mem_append, hjoins.closed_eq, howns]
    simp [hnot]

/-- No category is left with a stream that was closed with its owner. -/
theorem Effect.unused (h : s.InOrder) (he : Effect s s' (some slot))
    (howns : s.logger.Owns slot id) : ∀ c ∈ s'.logger.categories, c.output ≠ .file id := by
  intro c hc
  obtain ⟨i, hi⟩ := List.getElem?_of_mem hc
  have hout : s'.logger.outlets[i]? = some c.outlet := by rw [Logger.getElem?_outlets, hi]; rfl
  cases he with
  | @replaces slot l o hjoins hsupplies hreplaces hlent =>
    have howned : l.outlets[slot]? = some ⟨.file id, true⟩ := hjoins.owns_iff.mpr howns
    rw [hreplaces.outlets_eq] at hout
    change c.outlet.stream ≠ .file id
    rcases getElem?_replaceAt_eq_some.mp hout with ⟨-, -, hgiven⟩ | ⟨-, q, -, hleave⟩
    · rw [hgiven]
      cases hsupplies with
      | borrowed hopen hfree hopened =>
        rintro rfl
        exact hfree slot howned
      | opened hslot hopened =>
        have hlt := ((Logger.streamsOwned_of_joins h.streams hjoins).lt_of_owned howned).1
        intro heq
        cases heq
        omega
    · rw [hleave, ownedAt?_eq_some.mpr howned, Outlet.leave]
      split
      · simp
      · next hne => exact fun heq => hne (congrArg some heq)

/-- Those that shared a stream with the owner write to standard output once it is closed. -/
theorem Effect.sharers (he : Effect s s' (some slot)) (howns : s.logger.Owns slot id) {i : Slot}
    {c : Category} (hne : i ≠ slot) (hi : s.logger.categories[i]? = some c)
    (hc : c.output = .file id) :
    ∃ d, s'.logger.categories[i]? = some d ∧ d.output = .stdout := by
  have hout : s.logger.outlets[i]? = some c.outlet := by rw [Logger.getElem?_outlets, hi]; rfl
  cases he with
  | @replaces slot l o hjoins hsupplies hreplaces hlent =>
    have howned : ownedAt? l.outlets slot = some (.file id) :=
      ownedAt?_eq_some.mpr (hjoins.owns_iff.mpr howns)
    obtain ⟨joined, hl, -⟩ := hjoins.outlets_eq
    have hlt := (List.getElem?_eq_some_iff.mp hout).1
    have hafter : s'.logger.outlets[i]? = some (c.outlet.leave (some (.file id))) := by
      rw [hreplaces.outlets_eq, getElem?_replaceAt, if_neg (Ne.symm hne), howned, hl,
        List.getElem?_append_left hlt, hout]
      rfl
    have hleave : (c.outlet.leave (some (.file id))).stream = .stdout := by
      have hstream : some c.outlet.stream = some (.file id) := congrArg some hc
      rw [Outlet.leave, if_pos hstream]
    rw [Logger.getElem?_outlets] at hafter
    obtain ⟨d, hd, hdo⟩ := Option.map_eq_some_iff.mp hafter
    rw [← hdo] at hleave
    exact ⟨d, hd, hleave⟩

/-- Each admissible step treats the stream of a rule as `ClosesWithOwner` says. -/
theorem closesWithOwner (h : s.InOrder) (ha : a.Admissible s) (hid : s.OpenByRule id) :
    s.ClosesWithOwner a id := by
  by_cases hshut : a = .shutDown
  · rw [hshut]
    exact ⟨iff_of_true (closed_shutDown h hid) (.inl rfl), fun _ c hc => (by cases hc),
      fun slot hslot => (by cases hslot)⟩
  · have he := effect_step h ha hshut
    have hiff : id ∈ (s.step a).logger.store.closed ↔
        a = .shutDown ∨ ∃ slot, a.retargets? s = some slot ∧ s.logger.Owns slot id := by
      rw [he.closed_iff hid, or_iff_right hshut]
    refine ⟨hiff, fun hclosed => ?_, fun slot hslot howns i c hne hi hc => ?_⟩
    · obtain ⟨slot, hslot, howns⟩ := (he.closed_iff hid).mp hclosed
      rw [hslot] at he
      exact he.unused h howns
    · rw [hslot] at he
      exact he.sharers howns hne hi hc

/-- Short of a shutdown a step closes a stream at most, and reopens none. -/
theorem Effect.closed_grows {slot? : Option Slot} (he : Effect s s' slot?) :
    s.logger.store.closed <+: s'.logger.store.closed := by
  cases he with
  | joins hjoins hlent => simp [hjoins.closed_eq]
  | lends hout hformer hopened hclosed hlent => simp [hclosed]
  | replaces hjoins hsupplies hreplaces hlent => simp [hreplaces.closed_eq, hjoins.closed_eq]

/-- What is closed stays closed. -/
theorem closed_grows_of_step (h : s.InOrder) (ha : a.Admissible s) :
    s.logger.store.closed <+: (s.step a).logger.store.closed := by
  by_cases hshut : a = .shutDown
  · rw [hshut]
    exact Logger.closed_releaseFirst h.former.tableOwns _
  · exact (effect_step h ha hshut).closed_grows

/-! ## Calls -/

/-- What a caller can do; `single` are the calls that take one step. -/
inductive Call where
  | init (config : Text)
  | configure (config : Option Text)
  | configureFrom (path : Text)
  | log (m : Message)
  | single (a : Step)

/-- The session after a call. -/
def call (s : Session) : Call → Session
  | .init config => { s with logger := (s.logger.init config).1 }
  | .configure config => { s with logger := (s.logger.configure? config).1 }
  | .configureFrom path => { s with logger := (s.logger.configureFrom path).1 }
  | .log m => { s with logger := s.logger.log m }
  | .single a => s.step a

/-- The lines of a configuration that are read as rules, trimmed. -/
def ruleLines (inRules : Bool) : List Text → List Text
  | [] => []
  | rawLine :: more =>
    match Logger.LineKind.ofLine (trim rawLine) with
    | .header rules => ruleLines rules more
    | .entry => if inRules then trim rawLine :: ruleLines inRules more else ruleLines inRules more
    | _ => ruleLines inRules more

/-- The steps of reading a configuration. -/
def textSteps (config : Text) : List Step := .ready :: (ruleLines false config.lines).map .rule

/-- The steps of reading a configuration from a file. -/
def fileSteps (s : Session) (path : Text) : List Step :=
  match s.logger.store.read? path with
  | none => []
  | some content => textSteps (content.takeWhile (· ≠ 0))

/-- The steps of a call. -/
def Call.steps (s : Session) : Call → List Step
  | .init config =>
    if config = [] then [.ready]
    else .ready :: if lf ∈ config ∨ openBracket ∈ config then textSteps config
      else s.fileSteps config
  | .configure none => []
  | .configure (some config) => textSteps config
  | .configureFrom path => s.fileSteps path
  | .log m => [.ready, .write s.logger.withDefault.default? m.level.rank m.text]
  | .single a => [a]

/-- The session after some steps. -/
def run (s : Session) (steps : List Step) : Session := steps.foldl step s

/-- Each of the steps is admissible where it is taken. -/
def Admits : Session → List Step → Prop
  | _, [] => True
  | s, a :: more => a.Admissible s ∧ (s.step a).Admits more

/-- A call gives no stream to a category that it may not be given. -/
def Call.Admissible (s : Session) : Call → Prop
  | .single a => a.Admissible s
  | _ => True

/-- Admissible steps lead from a reachable session to a reachable one. -/
theorem reachable_of_admits {steps : List Step} (h : s.Reachable) (hsteps : s.Admits steps) :
    (s.run steps).Reachable := by
  induction steps generalizing s with
  | nil => exact h
  | cons a more ih => exact ih (.step h hsteps.1) hsteps.2

/-- Reading lines is applying those of them that are rules. -/
theorem logger_foldl_next (r : Logger.Reading) (rawLines : List Text) :
    (rawLines.foldl Logger.Reading.next r).logger =
      (ruleLines r.inRules rawLines).foldl (fun l line => (l.applyLine line).1) r.logger := by
  induction rawLines generalizing r with
  | nil => rfl
  | cons rawLine more ih =>
    rw [List.foldl_cons, ih, Logger.Reading.next, ruleLines]
    cases Logger.LineKind.ofLine (trim rawLine) with
    | empty | comment | header rules => rfl
    | entry =>
      cases hrules : r.inRules with
      | false => simp [hrules]
      | true =>
        cases hline : r.logger.applyLine (trim rawLine) with
        | mk logger failure =>
          cases failure <;> simp [hline]

/-- Rules that are read one after the other are applied one after the other. -/
theorem run_rules (s : Session) (ruleTexts : List Text) :
    s.run (ruleTexts.map .rule) =
      { s with logger := ruleTexts.foldl (fun l line => (l.applyLine line).1) s.logger } := by
  induction ruleTexts generalizing s with
  | nil => rfl
  | cons line more ih => exact ih (s.step (.rule line))

/-- Reading a configuration is making the default category and applying the rules in it. -/
theorem configure_eq_run (s : Session) (config : Text) :
    { s with logger := (s.logger.configure config).1 } = s.run (textSteps config) := by
  have hread := logger_foldl_next { logger := s.logger.withDefault } config.lines
  have hrun := run_rules (s.step .ready) (ruleLines false config.lines)
  rw [textSteps, run, List.foldl_cons, ← run, hrun, Logger.configure, hread]
  rfl

/-- Reading a configuration from a file is reading what stands before its first zero byte, if the
file is there. -/
theorem configureFrom_eq_run (s : Session) (path : Text) :
    { s with logger := (s.logger.configureFrom path).1 } = s.run (s.fileSteps path) := by
  rw [Logger.configureFrom, fileSteps]
  cases s.logger.store.read? path with
  | none => rfl
  | some content => exact configure_eq_run s _

/-- Every call is the run of its steps. -/
theorem call_eq_run (s : Session) (c : Call) : s.call c = s.run (c.steps s) := by
  cases c with
  | init config =>
    have hfile : (s.step .ready).fileSteps config = s.fileSteps config := by
      rw [fileSteps, fileSteps, step, Logger.store_withDefault]
    rw [call, Call.steps, Logger.init]
    split
    · rfl
    · split
      · exact configure_eq_run (s.step .ready) config
      · rw [← hfile]
        exact configureFrom_eq_run (s.step .ready) config
  | configure config =>
    cases config with
    | none => rfl
    | some config => exact configure_eq_run s config
  | configureFrom path => exact configureFrom_eq_run s path
  | log m => rfl
  | single a => rfl

/-- Steps that are admissible anywhere are admissible in a row. -/
theorem admits_of_always {steps : List Step} (h : ∀ a ∈ steps, ∀ s, a.Admissible s) (s : Session) :
    s.Admits steps := by
  induction steps generalizing s with
  | nil => trivial
  | cons a more ih =>
    exact ⟨h a List.mem_cons_self s, ih (fun b hb => h b (List.mem_cons_of_mem a hb)) _⟩

/-- Reading a configuration hands over no stream. -/
theorem admissible_of_mem_textSteps {config : Text} :
    ∀ a ∈ textSteps config, ∀ s, a.Admissible s := by
  intro a ha s
  rcases List.mem_cons.mp ha with rfl | ha
  · trivial
  · obtain ⟨line, -, rfl⟩ := List.mem_map.mp ha
    trivial

/-- Reading a configuration from a file hands over no stream, either. -/
theorem admissible_of_mem_fileSteps {path : Text} :
    ∀ a ∈ s.fileSteps path, ∀ s', a.Admissible s' := by
  rw [fileSteps]
  split
  · exact fun a ha => absurd ha List.not_mem_nil
  · exact admissible_of_mem_textSteps

/-- The steps of an admissible call are admissible, each where it is taken. -/
theorem admits_steps {c : Call} (hc : c.Admissible s) : s.Admits (c.steps s) := by
  cases c with
  | init config =>
    rw [Call.steps]
    split
    · exact ⟨trivial, trivial⟩
    · refine ⟨trivial, ?_⟩
      split
      · exact admits_of_always admissible_of_mem_textSteps _
      · exact admits_of_always admissible_of_mem_fileSteps _
  | configure config =>
    cases config with
    | none => trivial
    | some config => exact admits_of_always admissible_of_mem_textSteps _
  | configureFrom path => exact admits_of_always admissible_of_mem_fileSteps _
  | log m => exact ⟨trivial, trivial, trivial⟩
  | single a => exact ⟨hc, trivial⟩

/-! ## Every session -/

/-- How the streams of a session stand: all that are written to are open, those that rules opened
have one owner each, and none is closed twice.  What stands behind the table writes to streams that
nobody owns. -/
structure StreamsKept (s : Session) : Prop where
  open_output : ∀ c ∈ s.logger.categories, s.logger.store.isOpen c.output = true
  one_owner : ∀ id, s.OpenByRule id → ∃! slot, s.logger.Owns slot id
  owners_apart : ∀ (i j : Slot) (c d : Category),
    s.logger.categories[i]? = some c → s.logger.categories[j]? = some d →
    c.ownsOutput = true → d.ownsOutput = true → c.output = d.output → i = j
  closed_once : s.logger.store.closed.Nodup
  lent_open : ∀ id ∈ s.lent, s.logger.store.isOpen (.file id) = true
  former_borrows : ∀ c ∈ s.logger.former, c.outlet.Borrows s.lent
  written_open : ∀ slot rank, s.logger.isEnabled slot rank = true →
    ∃ c, s.logger.held? slot = some c ∧ s.logger.store.isOpen c.output = true ∧
      ∀ text, s.logger.write slot rank text =
        { s.logger with store := s.logger.store.append c.output (s.logger.line rank text) }

/-- The streams of a table in order are open. -/
theorem isOpen_of_mem_categories {l : Logger} {lent : List Nat}
    (h : StreamsOwned l.outlets l.store lent) {c : Category} (hc : c ∈ l.categories) :
    l.store.isOpen c.output = true := by
  obtain ⟨i, hi⟩ := List.getElem?_of_mem hc
  have hout : l.outlets[i]? = some c.outlet := by rw [Logger.getElem?_outlets, hi]; rfl
  exact h.open_output hout

/-- What a slot holds writes to an open stream, also behind the table. -/
theorem isOpen_of_held? (h : s.InOrder) {slot? : Option Slot} {c : Category}
    (hc : s.logger.held? slot? = some c) : s.logger.store.isOpen c.output = true := by
  obtain ⟨i, -, hi⟩ := Option.bind_eq_some_iff.mp hc
  rcases List.mem_append.mp (List.mem_of_getElem? hi) with htable | hformer
  · exact isOpen_of_mem_categories h.streams htable
  · exact (h.former _ (List.mem_map_of_mem hformer)).isOpen h.streams

/-- Outlets and streams in order are streams kept. -/
theorem streamsKept (h : s.InOrder) : s.StreamsKept where
  open_output c hc := isOpen_of_mem_categories h.streams hc
  one_owner id hid := by
    obtain ⟨slot, howns⟩ := h.streams.owner_exists hid.1 hid.2
    exact ⟨slot, howns, fun other hother => h.streams.owner_unique hother howns⟩
  owners_apart i j c d hi hj hc hd heq := by
    have hout : ∀ {i : Slot} {c : Category}, s.logger.categories[i]? = some c →
        c.ownsOutput = true → s.logger.outlets[i]? = some ⟨c.output, true⟩ := by
      intro i c hi hc
      rw [Logger.getElem?_outlets, hi, Option.map_some, Category.outlet, hc]
    have hci := hout hi hc
    have hdj := hout hj hd
    rw [heq] at hci
    obtain ⟨id, hid, -⟩ := h.streams.owned_file hci
    rw [hid] at hci hdj
    exact h.streams.owner_unique hci hdj
  closed_once := h.streams.closed_nodup
  lent_open id hid := h.streams.lent_open hid
  former_borrows c hc := h.former _ (List.mem_map_of_mem hc)
  written_open slot rank hlets := by
    rw [Logger.isEnabled] at hlets
    cases hc : s.logger.held? slot with
    | none => simp [hc] at hlets
    | some c =>
      rw [hc] at hlets
      refine ⟨c, rfl, isOpen_of_held? h hc, fun text => ?_⟩
      rw [Logger.write, hc]
      exact if_pos hlets

/-- **One owner for each stream that a rule opened**, whatever the calls were: the streams are kept
as `StreamsKept` says, also between the releases of a shutdown; a stream is closed with its owner
and never opened again; after a shutdown those that rules opened are all closed; and calls are runs
of steps, at each of which this holds. -/
theorem streams_of_reachable (h : s.Reachable) :
    s.StreamsKept ∧
      (∀ n, ∀ c ∈ (s.logger.releaseFirst n).categories,
        (s.logger.releaseFirst n).store.isOpen c.output = true) ∧
      (∀ a, a.Admissible s → s.logger.store.closed <+: (s.step a).logger.store.closed ∧
        ∀ id, s.OpenByRule id → s.ClosesWithOwner a id) ∧
      (∀ id, ¬ (s.step .shutDown).OpenByRule id) ∧
      ∀ c, c.Admissible s →
        s.call c = s.run (c.steps s) ∧ s.Admits (c.steps s) ∧ (s.call c).Reachable := by
  have hs := inOrder_of_reachable h
  have hfree := hs.former.tableOwns
  refine ⟨streamsKept hs, fun n c hc => ?_,
    fun a ha => ⟨closed_grows_of_step hs ha, fun id hid => ?_⟩, fun id hid => ?_, fun c hc => ?_⟩
  · exact isOpen_of_mem_categories (Logger.streamsOwned_releaseFirst hs.streams hfree n) hc
  · exact closesWithOwner hs ha hid
  · have hlast := Logger.streamsOwned_shutDown hs.streams hfree
    obtain ⟨slot, howns⟩ := hlast.owner_exists hid.1 hid.2
    cases howns
  · have hsteps := admits_steps hc
    refine ⟨call_eq_run s c, hsteps, ?_⟩
    rw [call_eq_run]
    exact reachable_of_admits h hsteps

/-- The default category owns a file that a second category shares.  Sent elsewhere, the first
closes the file, and the second writes to standard output. -/
theorem streams_of_sharedFile :
    let s : Session := run { logger := {} }
      [.ready, .rule (ascii "*.INFO \"a.log\""), .get (ascii "x")]
    s.Reachable ∧ s.logger.outlets = [⟨.file 0, true⟩, ⟨.file 0, false⟩] ∧ s.OpenByRule 0 ∧
      s.StreamsKept ∧ s.ClosesWithOwner (.setOutput (some 0) none) 0 ∧
      (s.step (.setOutput (some 0) none)).logger.outlets = [.standard, .standard] ∧
      (s.step (.setOutput (some 0) none)).logger.store.closed = [0] := by
  intro s
  have hstart : Reachable { logger := {} } := .start .flat [] [] [] false {}
  have h : s.Reachable := reachable_of_admits hstart ⟨trivial, trivial, trivial, trivial⟩
  have hopen : s.OpenByRule 0 := ⟨by decide +kernel, List.not_mem_nil⟩
  obtain ⟨hkept, -, hsteps, -, -⟩ := streams_of_reachable h
  have hadmissible : (Step.setOutput (some 0) none).Admissible s := trivial
  exact ⟨h, by decide +kernel, hopen, hkept, (hsteps _ hadmissible).2 0 hopen, by decide +kernel,
    by decide +kernel⟩

-- a slot from before a shutdown lies behind the table and still prints
example :
    let s : Session := run { logger := {} }
      [.get (ascii "x"), .shutDown, .write (some 1) Level.error.rank (ascii "m")]
    s.logger.categories = [] ∧ s.logger.store.stdout = ascii "[ERROR] m\n" := by
  decide +kernel

end Session

end StyleSpan
