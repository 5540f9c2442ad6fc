import StyleSpan.Proofs.Log.Outlets

/-!
# StyleSpan.Proofs.Log.Refusals

What a refused rule leaves behind.  A rule is refused on the way: before its
category is asked for, because there is no room for the category, or at its target,
when the level is already set and the category turned on.  Only the refusals at the
target leave something behind, and that is the level, the category turned on, and the
category itself if it is new; no outlet is moved and no stream opened.

* `applyLine_of_refused` — what one refused line does;
* `foldl_kept` — reading on without the refused lines, by induction on the lines;
* `snd_configure` — the failure that is reported is the last refusal;
* `configure_without` — a configuration without its refused lines.
-/

namespace StyleSpan

open Text

/-! ## Kinds of refusals -/

/-- Whether a rule was refused for its target. -/
def Failure.atTarget : Failure → Bool
  | unknownTarget | unclosedPath | cannotAppend => true
  | noRules | noTarget | noLevel | unknownLevel | cannotRead | tableFull => false

/-- A target is refused for what is wrong with a target. -/
theorem Target.atTarget_of_parse {t : Text} {failure : Failure}
    (h : Target.parse t = .error failure) : failure.atTarget = true := by
  unfold Target.parse at h
  repeat' split at h
  all_goals cases h <;> rfl

/-- A line is refused before its target is looked at, or it is a rule with the target that it
has, whether or not that can be read. -/
theorem Rule.parse_cases (line : Text) :
    (∃ failure, Rule.parse line = .error failure ∧ failure.atTarget = false) ∨
      ∃ r t, Rule.parse line = .ok r ∧ r.target = Target.parse t := by
  rw [Rule.parse]
  split
  · exact .inl ⟨_, rfl, rfl⟩
  · split
    · exact .inl ⟨_, rfl, rfl⟩
    · split
      · exact .inl ⟨_, rfl, rfl⟩
      · exact .inr ⟨_, _, rfl, rfl⟩

/-- What is no rule is refused before its target. -/
theorem Rule.not_atTarget_of_parse {line : Text} {failure : Failure}
    (h : Rule.parse line = .error failure) : failure.atTarget = false := by
  rcases Rule.parse_cases line with ⟨e, he, hearly⟩ | ⟨r, t, hr, -⟩
  · rw [he] at h
    cases h
    exact hearly
  · rw [hr] at h
    cases h

/-- The target of a rule is refused for what is wrong with it. -/
theorem Rule.atTarget_of_target {line : Text} {r : Rule} {failure : Failure}
    (h : Rule.parse line = .ok r) (htarget : r.target = .error failure) :
    failure.atTarget = true := by
  rcases Rule.parse_cases line with ⟨e, he, -⟩ | ⟨r', t, hr, ht⟩
  · rw [he] at h
    cases h
  · rw [hr] at h
    cases h
    exact Target.atTarget_of_parse (ht ▸ htarget)

namespace Logger

variable {l : Logger} {line : Text} {r : Rule} {failure : Failure}

/-! ## One line -/

/-- If there is no room for a category, the logger is as it was: its table was not just made. -/
theorem get_of_full {name : Text} (h : (l.get name).2 = none) : (l.get name).1 = l := by
  cases hd : l.default? with
  | some slot =>
    rcases l.get_eq_or name with hsame | hjoin
    · rw [hsame, withDefault_of_some hd]
    · rw [hjoin] at h
      cases h
  | none =>
    have hset : l.withDefault.default? = some 0 := by rw [withDefault_of_none hd]
    have hone : l.withDefault.categories.length = 1 := by rw [withDefault_of_none hd]; rfl
    rw [get, hset, hone] at h
    repeat' split at h
    all_goals cases h
    next hfull => exact absurd hfull (by decide)

/-- A target is refused if its file cannot be opened, and then nothing happens. -/
theorem retarget_of_refused {target : Target} {slot : Slot}
    (h : (l.retarget slot target).2 = some failure) :
    failure = .cannotAppend ∧ (l.retarget slot target).1 = l := by
  cases target with
  | stdout | stderr => cases h
  | file path =>
    rw [retarget] at h ⊢
    cases hopen : l.store.openAppend? path with
    | none =>
      rw [hopen] at h
      exact ⟨(Option.some.inj h).symm, rfl⟩
    | some opened =>
      rw [hopen] at h
      cases h

/-- A refused line changes nothing, or sets the category of its rule if the target is refused. -/
theorem applyLine_of_refused (h : (l.applyLine line).2 = some failure) :
    (failure.atTarget = false ∧ (l.applyLine line).1 = l) ∨
      (failure.atTarget = true ∧ ∃ r slot, Rule.parse line = .ok r ∧
        (l.get r.category).2 = some slot ∧
        (l.applyLine line).1 = (l.get r.category).1.update slot r.setLevel) := by
  cases l.applies line with
  | refused e hparse happly =>
    rw [happly] at h ⊢
    obtain rfl : e = failure := Option.some.inj h
    exact .inl ⟨Rule.not_atTarget_of_parse hparse, rfl⟩
  | full r hparse hslot happly =>
    rw [happly] at h ⊢
    obtain rfl : Failure.tableFull = failure := Option.some.inj h
    exact .inl ⟨rfl, get_of_full hslot⟩
  | untargeted r slot e hparse hslot htarget happly =>
    rw [happly] at h ⊢
    obtain rfl : e = failure := Option.some.inj h
    exact .inr ⟨Rule.atTarget_of_target hparse htarget, r, slot, hparse, hslot, rfl⟩
  | targeted r slot target hparse hslot htarget happly =>
    rw [happly] at h ⊢
    obtain ⟨rfl, hsame⟩ := retarget_of_refused h
    exact .inr ⟨rfl, r, slot, hparse, hslot, hsame⟩

/-- A line that is refused before its target changes nothing. -/
theorem applyLine_of_refused_early (h : (l.applyLine line).2 = some failure)
    (hearly : failure.atTarget = false) : (l.applyLine line).1 = l := by
  rcases applyLine_of_refused h with ⟨-, hsame⟩ | ⟨hlate, -⟩
  · exact hsame
  · rw [hearly] at hlate
    cases hlate

/-! ## The refused lines of a configuration -/

namespace Reading

/-- Why the rule on a line is refused, if there is one and it is refused. -/
def refusal? (r : Reading) (rawLine : Text) : Option Failure :=
  match LineKind.ofLine (trim rawLine) with
  | .entry => if r.inRules then (r.logger.applyLine (trim rawLine)).2 else none
  | _ => none

/-- Why the rules on some lines are refused. -/
def refusals : Reading → List Text → List Failure
  | _, [] => []
  | r, rawLine :: more => (r.refusal? rawLine).toList ++ (r.next rawLine).refusals more

/-- The lines without those whose rule is refused for a reason of the kind `p`. -/
def kept (p : Failure → Bool) : Reading → List Text → List Text
  | _, [] => []
  | r, rawLine :: more =>
    if (r.refusal? rawLine).any p then (r.next rawLine).kept p more
    else rawLine :: (r.next rawLine).kept p more

/-- The reading with another failure to report. -/
def withFailure (failure? : Option Failure) (r : Reading) : Reading :=
  { r with failure := failure? }

variable {r : Reading} {p : Failure → Bool} {rawLine : Text} {rawLines : List Text}

/-- What was refused before has no bearing on what a line does. -/
theorem next_withFailure (r : Reading) (failure? : Option Failure) (rawLine : Text) :
    (r.withFailure failure?).next rawLine =
      (r.next rawLine).withFailure ((r.refusal? rawLine).or failure?) := by
  obtain ⟨l, inRules, earlier?⟩ := r
  simp only [next, refusal?, withFailure]
  cases LineKind.ofLine (trim rawLine) with
  | empty | comment | header rules => rfl
  | entry =>
    cases inRules with
    | false => rfl
    | true =>
      cases l.applyLine (trim rawLine) with
      | mk logger refused => cases refused <;> rfl

/-- A line that is refused before its target leaves the reading where it was. -/
theorem next_of_refused (h : r.refusal? rawLine = some failure)
    (hearly : failure.atTarget = false) : r.next rawLine = r.withFailure (some failure) := by
  rw [refusal?] at h
  rw [next]
  cases hkind : LineKind.ofLine (trim rawLine) with
  | empty | comment | header rules => simp [hkind] at h
  | entry =>
    rw [hkind] at h
    cases hrules : r.inRules with
    | false => simp [hrules] at h
    | true =>
      simp only [hrules, if_true] at h ⊢
      have hsame := applyLine_of_refused_early h hearly
      cases hline : r.logger.applyLine (trim rawLine) with
      | mk logger refused =>
        rw [hline] at h hsame
        obtain rfl : refused = some failure := h
        obtain rfl : logger = r.logger := hsame
        simp [withFailure, hrules]

/-- Reading on without lines that are refused before their target ends where reading all of them
does; it only has fewer failures to report. -/
theorem foldl_kept
    (h : ∀ failure ∈ r.refusals rawLines, p failure = true → failure.atTarget = false)
    (failure? : Option Failure) :
    (r.kept p rawLines).foldl next (r.withFailure failure?) =
      (rawLines.foldl next r).withFailure
        (((r.refusals rawLines).filter fun f => !p f).getLast?.or failure?) := by
  induction rawLines generalizing r failure? with
  | nil => rfl
  | cons rawLine more ih =>
    have hmore : ∀ failure ∈ (r.next rawLine).refusals more, p failure = true →
        failure.atTarget = false :=
      fun failure hf => h failure (List.mem_append_right _ hf)
    rw [kept, refusals, List.foldl_cons, List.filter_append]
    cases hrefusal : r.refusal? rawLine with
    | none =>
      rw [Option.any_none, if_neg (by decide), List.foldl_cons, next_withFailure, hrefusal]
      exact ih hmore failure?
    | some failure =>
      rw [Option.any_some, Option.toList_some]
      cases hp : p failure with
      | true =>
        have hmem : failure ∈ r.refusals (rawLine :: more) := by
          rw [refusals, hrefusal]
          exact List.mem_append_left _ (List.mem_singleton_self failure)
        have hnext : r.withFailure failure? = (r.next rawLine).withFailure failure? := by
          rw [next_of_refused hrefusal (h failure hmem hp)]
          rfl
        rw [if_pos rfl, hnext, ih hmore]
        simp [hp]
      | false =>
        rw [if_neg (by decide), List.foldl_cons, next_withFailure, hrefusal, ih hmore,
          List.getLast?_append, Option.or_assoc]
        simp [hp]

/-- Nor has it on what several lines do; they report it if nothing is refused on them. -/
theorem foldl_withFailure (r : Reading) (failure? : Option Failure) (rawLines : List Text) :
    rawLines.foldl next (r.withFailure failure?) =
      (rawLines.foldl next r).withFailure ((r.refusals rawLines).getLast?.or failure?) := by
  induction rawLines generalizing r failure? with
  | nil => rfl
  | cons rawLine more ih =>
    rw [List.foldl_cons, List.foldl_cons, next_withFailure, ih, refusals, List.getLast?_append,
      Option.or_assoc]
    cases r.refusal? rawLine <;> rfl

/-- What is reported is the last refusal. -/
theorem failure_foldl (r : Reading) (rawLines : List Text) :
    (rawLines.foldl next r).failure = (r.refusals rawLines).getLast?.or r.failure :=
  congrArg failure (foldl_withFailure r r.failure rawLines)

theorem mem_of_mem_kept (h : line ∈ r.kept p rawLines) : line ∈ rawLines := by
  induction rawLines generalizing r with
  | nil => exact h
  | cons rawLine more ih =>
    rw [kept] at h
    split at h
    · exact List.mem_cons_of_mem rawLine (ih h)
    · rcases List.mem_cons.mp h with rfl | h
      · exact List.mem_cons_self
      · exact List.mem_cons_of_mem rawLine (ih h)

end Reading

/-! ## A configuration without its refused lines -/

/-- The reading of a configuration before its first line. -/
def startReading (l : Logger) : Reading := { logger := l.withDefault }

/-- Why the rules of a configuration are refused. -/
def refusals (l : Logger) (config : Text) : List Failure := l.startReading.refusals config.lines

/-- The configuration without the lines whose rule is refused for a reason of the kind `p`, when
it is its turn. -/
def without (p : Failure → Bool) (l : Logger) (config : Text) : Text :=
  [lf].intercalate (l.startReading.kept p config.lines)

/-- Lines are read alike from a list and from the text that they make up. -/
theorem foldl_lines_intercalate {rawLines : List Text} (h : ∀ rawLine ∈ rawLines, lf ∉ rawLine)
    (r : Reading) :
    (lines ([lf].intercalate rawLines)).foldl Reading.next r = rawLines.foldl Reading.next r := by
  by_cases hempty : rawLines = []
  · rw [hempty]
    rfl
  · rw [lines, pieces_intercalate hempty h]

/-- The failure of a configuration is its last refusal. -/
theorem snd_configure (l : Logger) (config : Text) :
    (l.configure config).2 = (l.refusals config).getLast? :=
  (Reading.failure_foldl l.startReading config.lines).trans Option.or_none

/-- Lines that are refused before their target can be taken out of a configuration. -/
theorem configure_without (p : Failure → Bool) (config : Text)
    (h : ∀ failure ∈ l.refusals config, p failure = true → failure.atTarget = false) :
    l.configure (l.without p config) =
      ((l.configure config).1, ((l.refusals config).filter fun f => !p f).getLast?) := by
  have hlines : ∀ rawLine ∈ l.startReading.kept p config.lines, lf ∉ rawLine :=
    fun rawLine hmem => not_mem_of_mem_pieces (Reading.mem_of_mem_kept hmem)
  have hread : (l.without p config).lines.foldl Reading.next l.startReading =
      (config.lines.foldl Reading.next l.startReading).withFailure
        (((l.refusals config).filter fun f => !p f).getLast?.or none) :=
    (foldl_lines_intercalate hlines l.startReading).trans (Reading.foldl_kept h none)
  rw [Option.or_none] at hread
  exact congrArg (fun r : Reading => (r.logger, r.failure)) hread

/-- **What refused rules leave behind.**  A refused line leaves the logger as it was, unless its
target is refused: then the level of its category is set and the category turned on, a new one
being made, and that is all.  A configuration does the same without the lines that are refused
before their target; so, if none is refused for its target, it does the same without its refused
lines, and then reports no failure. -/
theorem configure_without_refused (l : Logger) :
    (∀ line failure, (l.applyLine line).2 = some failure →
      (failure.atTarget = false ∧ (l.applyLine line).1 = l) ∨
      (failure.atTarget = true ∧ ∃ r slot, Rule.parse line = .ok r ∧
        (l.get r.category).2 = some slot ∧
        (l.applyLine line).1 = (l.get r.category).1.update slot r.setLevel)) ∧
    (∀ config, l.configure (l.without (fun f => !f.atTarget) config) =
      ((l.configure config).1, ((l.refusals config).filter Failure.atTarget).getLast?)) ∧
    (∀ config, (∀ failure ∈ l.refusals config, failure.atTarget = false) →
      l.configure (l.without (fun _ => true) config) = ((l.configure config).1, none)) := by
  refine ⟨fun line failure h => applyLine_of_refused h, fun config => ?_, fun config h => ?_⟩
  · have hwithout := configure_without (l := l) (fun f => !f.atTarget) config
      fun failure _ hp => by simpa using hp
    simpa using hwithout
  · have hwithout := configure_without (fun _ => true) config fun failure hf _ => h failure hf
    rwa [List.filter_eq_nil_iff.mpr (by simp)] at hwithout

/-- Of five rules one is no rule and one has a level that there is not; the rest do what they do
without these. -/
theorem configure_without_misspelled :
    let l : Logger := {}
    let config := ascii "[rules]\nbroken\n*.WARN >stdout\nx.LOUD >stdout\nok.ERROR >stderr\n"
    let rest := ascii "[rules]\n*.WARN >stdout\nok.ERROR >stderr\n"
    l.refusals config = [.noTarget, .unknownLevel] ∧ l.without (fun _ => true) config = rest ∧
      l.configure rest = ((l.configure config).1, none) := by
  intro l config rest
  have hrefusals : l.refusals config = [.noTarget, .unknownLevel] := by decide +kernel
  have hrest : l.without (fun _ => true) config = rest := by decide +kernel
  have hearly : ∀ failure ∈ l.refusals config, failure.atTarget = false := by
    rw [hrefusals]
    decide
  exact ⟨hrefusals, hrest, hrest ▸ (configure_without_refused l).2.2 config hearly⟩

/-- A rule without a target that can be read sets the level all the same. -/
theorem configure_unknownTarget :
    let l : Logger := ({} : Logger).withDefault
    let line := ascii "*.ERROR >syslog"
    let config := ascii "[rules]\n" ++ line ++ [lf]
    (l.applyLine line).2 = some .unknownTarget ∧ (l.applyLine line).1 ≠ l ∧
      (l.configure (l.without (fun _ => true) config)).1 ≠ (l.configure config).1 := by
  intro l line config
  have hline : (l.applyLine line).1.categories ≠ l.categories := by decide +kernel
  have hconfig : (l.configure (l.without (fun _ => true) config)).1.categories ≠
      (l.configure config).1.categories := by decide +kernel
  exact ⟨by decide +kernel, fun heq => hline (congrArg categories heq),
    fun heq => hconfig (congrArg categories heq)⟩

end Logger

end StyleSpan
