import StyleSpan.Proofs.Log.Names
import StyleSpan.Proofs.Log.Refusals

/-!
# StyleSpan.Proofs.Log.Sections

Configurations made up of others.  What reading some lines hands on to the next one
is the logger, the section and the last failure.  Where a section begins, the section
before it is forgotten; a failure from before is only reported if none comes after it;
and the default category, which a configuration makes first, is there already.  So a
text that begins with a header does behind another one what it does on its own.

* `configure_append` — two texts;
* `configure_intercalate` — any number of texts, by induction on them;
* `opens_append` — the files that are opened on the way.
-/

namespace StyleSpan

open Text

namespace Logger

variable {l : Logger} {config section₁ section₂ : Text}

/-! ## What a configuration keeps -/

/-- A target opens at most one stream, behind those that were opened before. -/
theorem isPrefix_opened_retarget (l : Logger) (slot : Slot) (target : Target) :
    l.store.opened <+: (l.retarget slot target).1.store.opened := by
  cases target with
  | stdout | stderr => simp [retarget, opened_setOutput]
  | file path =>
    rw [retarget]
    cases hopen : l.store.openAppend? path with
    | none => exact List.prefix_refl _
    | some next =>
      obtain ⟨stream, store⟩ := next
      obtain ⟨-, -, file, -, hopened⟩ := Store.stream_openAppend? hopen
      have hsame := opened_setOutput { l with store } (some slot) (some stream)
      change l.store.opened <+: (setOutput { l with store } (some slot) (some stream)).store.opened
      rw [hsame, hopened]
      exact List.prefix_append _ _

/-- A line opens streams behind those that were opened before. -/
theorem isPrefix_opened_applyLine (l : Logger) (line : Text) :
    l.store.opened <+: (l.applyLine line).1.store.opened := by
  have hset : ∀ (r : Rule) (slot : Slot),
      ((l.get r.category).1.update slot r.setLevel).store = l.store :=
    fun r _ => l.store_get r.category
  cases l.applies line with
  | refused failure hparse h => simp [h]
  | full r hparse hslot h => simp [h, store_get]
  | untargeted r slot failure hparse hslot htarget h => simp [h, hset]
  | targeted r slot target hparse hslot htarget h =>
    rw [h, ← hset r slot]
    exact isPrefix_opened_retarget _ slot target

/-- A configuration forgets no opening. -/
theorem isPrefix_opened_configure (l : Logger) (config : Text) :
    l.store.opened <+: (l.configure config).1.store.opened := by
  have hrules : ∀ (ruleTexts : List Text) (l : Logger),
      l.store.opened <+: (ruleTexts.foldl (fun l line => (l.applyLine line).1) l).store.opened := by
    intro ruleTexts
    induction ruleTexts with
    | nil => exact fun l => List.prefix_refl _
    | cons line more ih => exact fun l => (l.isPrefix_opened_applyLine line).trans (ih _)
  rw [← store_withDefault l, configure, Session.logger_foldl_next]
  exact hrules _ _

/-- What a configuration opens, in the order in which it does: the paths, and the files that they
lead to. -/
def opens (l : Logger) (config : Text) : List Opening :=
  (l.configure config).1.store.opened.drop l.store.opened.length

/-- The openings of a configuration stand behind those from before it, in order. -/
theorem opened_configure (l : Logger) (config : Text) :
    (l.configure config).1.store.opened = l.store.opened ++ l.opens config := by
  obtain ⟨openings, hopenings⟩ := l.isPrefix_opened_configure config
  rw [opens, ← hopenings, List.drop_left]

/-! ## One text behind another -/

/-- The text begins with a header: its first line, trimmed, does so with a bracket. -/
def OpensSection (t : Text) : Prop := (trim (t.lines.headD [])).head? = some openBracket

instance : DecidablePred OpensSection := fun t =>
  inferInstanceAs (Decidable ((trim (t.lines.headD [])).head? = some openBracket))

/-- A text that opens a section has a header as its first line. -/
theorem OpensSection.lines_eq {t : Text} (h : OpensSection t) :
    ∃ first more rules, t.lines = first :: more ∧
      LineKind.ofLine (trim first) = .header rules := by
  obtain ⟨first, more, hlines⟩ := List.exists_cons_of_ne_nil (pieces_ne_nil lf t)
  rw [OpensSection, lines, hlines, List.headD_cons] at h
  obtain ⟨rest, hfirst⟩ := List.head?_eq_some_iff.mp h
  exact ⟨first, more, _, hlines, by rw [hfirst, LineKind.ofLine, if_pos rfl]⟩

/-- Whatever was read before, a text that begins with a header is read as on its own; a failure
from before stands if there is none in it. -/
theorem Reading.foldl_next_of_opensSection {t : Text} (h : OpensSection t) (r : Reading)
    (hdefault : r.logger.withDefault = r.logger) :
    t.lines.foldl next r =
      (t.lines.foldl next r.logger.startReading).withFailure
        ((r.logger.configure t).2.or r.failure) := by
  obtain ⟨first, more, rules, hlines, hheader⟩ := h.lines_eq
  have hfirst : r.next first = (r.logger.startReading.next first).withFailure r.failure := by
    rw [next_of_header hheader, next_of_header hheader, startReading, hdefault]
    rfl
  have hrefusal : r.logger.startReading.refusal? first = none := by rw [refusal?, hheader]
  rw [snd_configure, Logger.refusals, hlines, List.foldl_cons, List.foldl_cons, hfirst,
    foldl_withFailure, refusals, hrefusal]
  rfl

/-- A text behind another one does what it does on its own; the failure is that of the second, or
else of the first. -/
theorem configure_append (l : Logger) (first : Text) {second : Text} (h : OpensSection second) :
    l.configure (first ++ lf :: second) =
      (((l.configure first).1.configure second).1,
        ((l.configure first).1.configure second).2.or (l.configure first).2) := by
  have hread := Reading.foldl_next_of_opensSection h
    (first.lines.foldl Reading.next l.startReading) (l.withDefault_configure first)
  rw [← foldl_next_append] at hread
  exact congrArg (fun r : Reading => (r.logger, r.failure)) hread

/-- The configuration by one more text. -/
def thenConfigure (r : Logger × Option Failure) (t : Text) : Logger × Option Failure :=
  ((r.1.configure t).1, (r.1.configure t).2.or r.2)

/-- Texts that begin with headers are read as one after the other. -/
theorem configure_intercalate (l : Logger) (first : Text) {more : List Text}
    (h : ∀ t ∈ more, OpensSection t) :
    l.configure ([lf].intercalate (first :: more)) =
      more.foldl thenConfigure (l.configure first) := by
  induction more generalizing first with
  | nil => rw [List.intercalate_singleton, List.foldl_nil]
  | cons second more ih =>
    have hjoin : [lf].intercalate (first :: second :: more) =
        [lf].intercalate ((first ++ lf :: second) :: more) := by
      cases more <;> simp
    rw [hjoin, ih _ fun t ht => h t (List.mem_cons_of_mem second ht), List.foldl_cons,
      configure_append l first (h second List.mem_cons_self)]
    rfl

/-- The files of the first text are opened before those of the second. -/
theorem opens_append (l : Logger) (first : Text) {second : Text} (h : OpensSection second) :
    l.opens (first ++ lf :: second) = l.opens first ++ (l.configure first).1.opens second := by
  have hboth := l.opened_configure (first ++ lf :: second)
  rw [configure_append l first h, opened_configure, opened_configure, List.append_assoc] at hboth
  exact (List.append_cancel_left hboth).symm

/-- **Configurations compose section by section.**  Two texts joined by a line feed, of which the
second begins with a header, leave the logger as the two do one after the other, and open the same
files in the same order; the failure of the second is reported, or else that of the first.  So it is
with any number of texts. -/
theorem configure_sections (l : Logger) (first second : Text) (h : OpensSection second) :
    let after := l.configure first
    let both := l.configure (first ++ lf :: second)
    both.1 = (after.1.configure second).1 ∧
      both.2 = (after.1.configure second).2.or after.2 ∧
      l.opens (first ++ lf :: second) = l.opens first ++ after.1.opens second ∧
      ∀ more, (∀ t ∈ more, OpensSection t) →
        l.configure ([lf].intercalate (first :: second :: more)) =
          more.foldl thenConfigure both := by
  intro after both
  have hboth : both = thenConfigure after second := configure_append l first h
  have hlogger : both.1 = (thenConfigure after second).1 := congrArg Prod.fst hboth
  have hfailure : both.2 = (thenConfigure after second).2 := congrArg Prod.snd hboth
  refine ⟨hlogger, hfailure, opens_append l first h, fun more hmore => ?_⟩
  have hheaders : ∀ t ∈ second :: more, OpensSection t := List.forall_mem_cons.mpr ⟨h, hmore⟩
  rw [configure_intercalate l first hheaders, List.foldl_cons, hboth]

/-- The first text ends within its last line and the second is refused in part; the file of the
first is opened before that of the second. -/
theorem configure_sections_twoFiles :
    let l : Logger := {}
    let first := ascii "[rules]\nx.LOUD >stdout\n*.WARN \"a.log\""
    let second := ascii " [rules] \nx.ERROR \"b.log\"\nbroken\n"
    let after := l.configure first
    OpensSection second ∧ after.2 = some .unknownLevel ∧
      (l.configure (first ++ lf :: second)).1 = (after.1.configure second).1 ∧
      (l.configure (first ++ lf :: second)).2 = some .noTarget ∧
      (l.opens (first ++ lf :: second)).map Opening.path = [ascii "a.log", ascii "b.log"] := by
  intro l first second after
  have hheader : OpensSection second := by decide +kernel
  have hfirst : after.2 = some .unknownLevel := by decide +kernel
  have hsecond : (after.1.configure second).2 = some .noTarget := by decide +kernel
  have hopens : (l.opens first ++ after.1.opens second).map Opening.path =
      [ascii "a.log", ascii "b.log"] := by decide +kernel
  obtain ⟨hlogger, hfailure, hfiles, -⟩ := configure_sections l first second hheader
  refine ⟨hheader, hfirst, hlogger, hfailure.trans ?_, hfiles ▸ hopens⟩
  rw [hsecond]
  rfl

end Logger

end StyleSpan
