import Mathlib.Data.List.TakeWhile
import StyleSpan.Proofs.Log.Sections
import StyleSpan.Proofs.Text.Lines

/-!
# StyleSpan.Proofs.Log.QuotedPaths

Rules that send a category to a file, written and read back:

```
[rules]
name.LEVEL "path"
```

The line is cut at its first blank, before it at the last dot and behind it at the first
semicolon, and only then the quotes are looked at.  Names hold no blanks and levels no
dots, so both are read back whatever dots and quotes the name has; the path is read back
whatever it holds, semicolons apart: one of these ends the target within the quotes.

* `Rule.parse_quotedRule` — the line of the rule, up to its target;
* `Target.parse_uncut`, `Target.parse_cut` — the target;
* `configure_oneRule` — a configuration of one rule applies it;
* `appendsTo_retarget` — what a category has from a file that it is sent to;
* `configure_quotedPath` — a rule, written and applied.

Which paths can be opened, and which files they lead to, is left to the `Paths` of the store.
-/

namespace StyleSpan

open Text

/-! ## Texts that are read back -/

/-- Names of levels are written in letters. -/
theorem Level.le_of_map_upper {level : Level} {levelName : Text}
    (h : levelName.map upper = level.name) {b : UInt8} (hb : b ∈ levelName) : 65 ≤ b := by
  have hletters : ∀ c ∈ level.name, 65 ≤ c := by cases level <;> decide +kernel
  have hupper : 65 ≤ upper b := hletters _ (h ▸ List.mem_map_of_mem hb)
  rw [upper] at hupper
  grind

namespace Text

variable {s t : Text} {b : UInt8}

/-- No letter is blank. -/
theorem isBlank_of_le (h : 65 ≤ b) : isBlank b = false := by
  rw [isBlank]
  grind

/-- A text that begins and ends with other bytes than blanks is trimmed. -/
theorem trim_of_not_blank {first last : UInt8} (hfirst : s.head? = some first)
    (hlast : s.getLast? = some last) (hf : isBlank first = false) (hl : isBlank last = false) :
    trim s = s := by
  obtain ⟨rest, rfl⟩ := List.head?_eq_some_iff.mp hfirst
  rw [trim, List.dropWhile_cons_of_neg (by simp [hf])]
  simpa using dropTrailing_append hlast hl []

/-- Behind a blank, what begins with another byte is trimmed at its end only. -/
theorem trim_space_cons (hb : isBlank b = false) (t : Text) :
    trim (space :: b :: t) = b :: dropTrailing isBlank t := by
  have hspace : isBlank space = true := by decide
  rw [trim, List.dropWhile_cons_of_pos hspace, List.dropWhile_cons_of_neg (by simp [hb])]
  exact dropTrailing_append (s := [b]) rfl hb t

end Text

/-! ## The line of a rule -/

/-- A name that a rule can begin with: none of its bytes is a blank, all of them are stored, and
the line is neither a comment nor a header. -/
structure RuleName (name : Text) : Prop where
  ne_nil : name ≠ []
  length_le : name.length ≤ Logger.nameCapacity
  noBlank : ∀ b ∈ name, isBlank b = false
  noComment : name.head? ≠ some hash
  noHeader : name.head? ≠ some openBracket

/-- The rule that sends a category to a file. -/
def quotedRule (name levelName path : Text) : Text :=
  name ++ dot :: levelName ++ space :: doubleQuote :: (path ++ [doubleQuote])

/-- The configuration of that rule. -/
def quotedConfig (name levelName path : Text) : Text :=
  ascii "[rules]\n" ++ quotedRule name levelName path ++ [lf]

variable {name levelName path : Text} {level : Level}

/-- The last separator parts a text. -/
theorem splitAtLast?_append {sep : UInt8} {t : Text} (h : sep ∉ t) (s : Text) :
    splitAtLast? sep (s ++ sep :: t) = some (s, t) := by
  have hafter : ((s ++ sep :: t).reverse.takeWhile (· ≠ sep)).reverse = t := by
    have hall : ∀ b ∈ t.reverse, (b ≠ sep : Bool) = true := by
      intro b hb
      exact decide_eq_true fun heq => h (heq ▸ List.mem_reverse.mp hb)
    rw [List.reverse_append, List.reverse_cons, List.append_assoc,
      List.takeWhile_append_of_pos hall]
    simp
  have hbefore : (s ++ sep :: t).length - t.length - 1 = s.length := by
    rw [List.length_append, List.length_cons]
    omega
  rw [splitAtLast?, if_pos (by simp)]
  simp only [hafter, hbefore, List.take_left]

/-- The rule with a quoted target names its category and level, and the target is parsed apart. -/
theorem Rule.parse_quotedRule (hname : RuleName name) (hlevel : levelName.map upper = level.name)
    (path : Text) :
    Rule.parse (quotedRule name levelName path) =
      .ok { category := name, level
            target := Target.parse (trim
              ((space :: doubleQuote :: (path ++ [doubleQuote])).takeWhile (· ≠ semicolon))) } := by
  have hhead : ∀ b ∈ name ++ dot :: levelName, (!isBlank b) = true := by
    intro b hb
    rw [Bool.not_eq_true']
    rcases List.mem_append.mp hb with hb | hb
    · exact hname.noBlank b hb
    · rcases List.mem_cons.mp hb with rfl | hb
      · decide
      · exact isBlank_of_le (Level.le_of_map_upper hlevel hb)
  have hspace : (!isBlank space) = false := by decide
  have hdot : dot ∉ levelName := fun hmem =>
    absurd (Level.le_of_map_upper hlevel hmem) (by decide)
  rw [Rule.parse, quotedRule, List.takeWhile_append_of_pos hhead,
    List.dropWhile_append_of_pos hhead, List.takeWhile_cons_of_neg (by simp [hspace]),
    List.dropWhile_cons_of_neg (by simp [hspace]), List.append_nil]
  simp only [reduceCtorEq, if_false, splitAtLast?_append hdot, Level.ofName?_of_map_upper hlevel]

/-! ## The target -/

/-- A path without semicolons is read back. -/
theorem Target.parse_uncut (hquote : doubleQuote ∉ path) (hsemicolon : semicolon ∉ path) :
    Target.parse (trim
      ((space :: doubleQuote :: (path ++ [doubleQuote])).takeWhile (· ≠ semicolon))) =
        .ok (.file path) := by
  have hall : (space :: doubleQuote :: (path ++ [doubleQuote])).takeWhile (· ≠ semicolon) =
      space :: doubleQuote :: (path ++ [doubleQuote]) := by
    rw [List.takeWhile_eq_self_iff]
    intro b hb
    simp only [List.mem_cons, List.mem_append, List.not_mem_nil, or_false] at hb
    rcases hb with rfl | rfl | hb | rfl
    · decide
    · decide
    · exact decide_eq_true fun heq => hsemicolon (heq ▸ hb)
    · decide
  have hquoteEnd : dropTrailing isBlank (path ++ [doubleQuote]) = path ++ [doubleQuote] := by
    simpa using dropTrailing_append (s := path ++ [doubleQuote]) (p := isBlank) (b := doubleQuote)
      (by simp) (by decide) []
  rw [hall, trim_space_cons (by decide), hquoteEnd]
  exact Target.parse_quoted hquote []

/-- A path with a semicolon is cut there, and its closing quote is missed. -/
theorem Target.parse_cut (hquote : doubleQuote ∉ path) (hsemicolon : semicolon ∈ path) :
    Target.parse (trim
      ((space :: doubleQuote :: (path ++ [doubleQuote])).takeWhile (· ≠ semicolon))) =
        .error .unclosedPath := by
  obtain ⟨front, back, rfl, hfront⟩ := List.eq_append_cons_of_mem hsemicolon
  have hcut : (space :: doubleQuote :: (front ++ semicolon :: back ++ [doubleQuote])).takeWhile
      (· ≠ semicolon) = space :: doubleQuote :: front := by
    have hall : ∀ b ∈ space :: doubleQuote :: front, (b ≠ semicolon : Bool) = true := by
      intro b hb
      refine decide_eq_true ?_
      rintro rfl
      simp only [List.mem_cons, hfront, or_false] at hb
      exact absurd hb (by decide)
    have hshape : space :: doubleQuote :: (front ++ semicolon :: back ++ [doubleQuote]) =
        (space :: doubleQuote :: front) ++ semicolon :: (back ++ [doubleQuote]) := by simp
    rw [hshape, List.takeWhile_append_of_pos hall, List.takeWhile_cons_of_neg (by simp),
      List.append_nil]
  have hmissed : doubleQuote ∉ dropTrailing isBlank front := fun hmem =>
    hquote (List.mem_append_left _ (mem_of_mem_dropTrailing hmem))
  have hne : ∀ t : Text, t.head? = some 62 → doubleQuote :: dropTrailing isBlank front ≠ t := by
    rintro t ht rfl
    exact absurd (Option.some.inj ht) (by decide)
  rw [hcut, trim_space_cons (by decide), Target.parse, if_neg (hne _ (by decide)),
    if_neg (hne _ (by decide))]
  simp only [ne_eq, not_true_eq_false, if_false]
  rw [if_pos hmissed]

/-! ## A configuration of one rule -/

namespace Logger

variable {l l' : Logger} {slot : Slot}

/-- A configuration of one rule is the rule, applied. -/
theorem configure_oneRule {line : Text} (hline : lf ∉ line) (htrim : trim line = line)
    (hentry : LineKind.ofLine line = .entry) (l : Logger) :
    l.configure (ascii "[rules]\n" ++ line ++ [lf]) = l.withDefault.applyLine line := by
  have hlines : (ascii "[rules]\n" ++ line ++ [lf]).lines = [ascii "[rules]", line, []] := by
    have hheader : ascii "[rules]\n" ++ line ++ [lf] =
        ascii "[rules]" ++ lf :: (line ++ lf :: []) := by simp [ascii]
    rw [hheader, lines_append_lf_of_not_mem (by decide), lines_append_lf_of_not_mem hline]
    rfl
  have hrules : LineKind.ofLine (trim (ascii "[rules]")) = .header true := by decide
  have hnone : LineKind.ofLine (trim []) = .empty := rfl
  rw [configure, hlines, List.foldl_cons, List.foldl_cons, List.foldl_cons, List.foldl_nil,
    next_of_header hrules]
  simp only [Reading.next, htrim, hentry, hnone, if_true]
  cases l.withDefault.applyLine line with
  | mk logger failure => cases failure <;> rfl

/-- The configuration with a quoted path is its rule, applied. -/
theorem configure_quotedConfig (hname : RuleName name) (hlevel : levelName.map upper = level.name)
    (hlf : lf ∉ path) (l : Logger) :
    l.configure (quotedConfig name levelName path) =
      l.withDefault.applyLine (quotedRule name levelName path) := by
  obtain ⟨first, rest, rfl⟩ := List.exists_cons_of_ne_nil hname.ne_nil
  have hfirst : isBlank first = false := hname.noBlank first List.mem_cons_self
  have hlast : (quotedRule (first :: rest) levelName path).getLast? = some doubleQuote := by
    have hshape : quotedRule (first :: rest) levelName path =
        (first :: rest ++ dot :: levelName ++ space :: doubleQuote :: path) ++ [doubleQuote] := by
      simp [quotedRule]
    rw [hshape, List.getLast?_concat]
  refine configure_oneRule ?_ (trim_of_not_blank rfl hlast hfirst (by decide)) ?_ l
  · have hnamed : lf ∉ first :: rest := fun hmem => absurd (hname.noBlank lf hmem) (by decide)
    have hlevelled : lf ∉ levelName := fun hmem =>
      absurd (Level.le_of_map_upper hlevel hmem) (by decide)
    have hbytes : lf ≠ dot ∧ lf ≠ space ∧ lf ≠ doubleQuote := by decide
    simp only [quotedRule, List.mem_append, List.mem_cons, not_or] at hnamed ⊢
    simp [hnamed, hlevelled, hlf, hbytes]
  · have hcomment : first ≠ Text.hash := fun heq => hname.noComment (congrArg some heq)
    have hheader : first ≠ openBracket := fun heq => hname.noHeader (congrArg some heq)
    change LineKind.ofLine (first :: _) = .entry
    rw [LineKind.ofLine, if_neg hheader, if_neg hcomment]

/-! ## A category that is sent to a file -/

/-- What an update makes of its category. -/
theorem getElem?_update (l : Logger) (slot : Slot) (f : Category → Category) :
    (l.update slot f).categories[slot]? = l.categories[slot]?.map f := by
  rw [update, List.getElem?_modify]
  cases l.categories[slot]? <;> simp

/-- A category that gave up its stream keeps all else. -/
theorem getElem?_release (l : Logger) (slot : Slot) :
    (l.release slot).categories[slot]? =
      l.categories[slot]?.map fun c => { c with output := .stdout, ownsOutput := false } := by
  rw [release, getElem?_update]
  rcases l.closeOwned_eq_or slot with h | ⟨stream, h⟩
  · rw [h]
  · rw [h, closeStream, List.getElem?_map]
    cases l.categories[slot]? with
    | none => rfl
    | some c =>
      simp only [Option.map_some]
      split <;> rfl

/-- A category that is given a stream has that stream and does not own it. -/
theorem getElem?_setOutput (l : Logger) (slot : Slot) (stream : Stream) :
    (l.setOutput (some slot) (some stream)).categories[slot]? =
      l.categories[slot]?.map fun c => { c with output := stream, ownsOutput := false } := by
  rw [setOutput, Option.elim_some, getElem?_update, getElem?_release, Option.map_map]
  rfl

/-- Closing a stream changes no file. -/
theorem files_release (l : Logger) (slot : Slot) :
    (l.release slot).store.files = l.store.files := by
  change (l.closeOwned slot).store.files = _
  rcases l.closeOwned_eq_or slot with h | ⟨stream, h⟩
  · rw [h]
  · rw [h, closeStream, Store.files_close]

/-- Of the logger `l`, the category at `slot` lets messages of a level through to a stream that it
owns.  The stream was opened last, by the path of `o`, over a store: it appends to the file of `o`,
which is made if it was not there and otherwise keeps what it held. -/
structure AppendsTo (store : Store) (l : Logger) (slot : Slot) (level : Level) (o : Opening) :
    Prop where
  category : ∃ c, l.categories[slot]? = some c ∧ c.enabled = true ∧ c.threshold = level.rank ∧
    c.output = .file store.opened.length ∧ c.ownsOutput = true
  opened : l.store.opened = store.opened ++ [o]
  isOpen : l.store.isOpen (.file store.opened.length) = true
  made : l.store.files.lookup o.file = some (store.content o.file)
  appends : ∀ rank text, level.rank ≤ rank →
    (l.write (some slot) rank text).store.files.lookup o.file =
      some (store.content o.file ++ l.line rank text)

section File

variable {file : Text} (hfile : l.store.paths.appendTo? path = some file)
include hfile

/-- The stream that a target for a file is opened as. -/
theorem exists_retarget_file (slot : Slot) : ∃ store,
    l.store.openAppend? path = some (.file l.store.opened.length, store) ∧
      store.opened = l.store.opened ++ [⟨path, file⟩] ∧
      store.files.lookup file = some (l.store.content file) ∧
      l.retarget slot (.file path) =
        ((setOutput { l with store } (some slot) (some (.file l.store.opened.length))).update slot
          fun c => { c with ownsOutput := true }, none) := by
  have hcan : l.store.canOpen path = true := by rw [Store.canOpen, hfile, Option.isSome_some]
  obtain ⟨⟨stream, store⟩, hopen⟩ := Store.exists_openAppend? hcan
  obtain ⟨rfl, -, file', hfile', hopened⟩ := Store.stream_openAppend? hopen
  obtain rfl : file' = file := Option.some.inj (hfile'.symm.trans hfile)
  exact ⟨store, hopen, hopened, Store.lookup_openAppend? hfile hopen, by rw [retarget, hopen]⟩

/-- A file that can be opened is no failure. -/
theorem snd_retarget_file (slot : Slot) : (l.retarget slot (.file path)).2 = none := by
  obtain ⟨store, -, -, -, hmoved⟩ := exists_retarget_file hfile slot
  rw [hmoved]

/-- The category has the stream that was opened, and owns it. -/
theorem getElem?_retarget_file (slot : Slot) :
    (l.retarget slot (.file path)).1.categories[slot]? = l.categories[slot]?.map fun c =>
      { c with output := .file l.store.opened.length, ownsOutput := true } := by
  obtain ⟨store, -, -, -, hmoved⟩ := exists_retarget_file hfile slot
  rw [hmoved]
  dsimp only
  rw [getElem?_update, getElem?_setOutput, Option.map_map]
  rfl

/-- One stream is opened, to the file that the path leads to. -/
theorem opened_retarget_file (slot : Slot) :
    (l.retarget slot (.file path)).1.store.opened = l.store.opened ++ [⟨path, file⟩] := by
  obtain ⟨store, -, hopened, -, hmoved⟩ := exists_retarget_file hfile slot
  rw [hmoved, ← hopened]
  exact opened_setOutput { l with store } (some slot) (some (.file l.store.opened.length))

/-- Opening a file for a category and closing what it had writes nothing. -/
theorem lookup_retarget_file (slot : Slot) :
    (l.retarget slot (.file path)).1.store.files.lookup file = some (l.store.content file) := by
  obtain ⟨store, -, -, hmade, hmoved⟩ := exists_retarget_file hfile slot
  have hfiles := files_release { l with store } slot
  rw [hmoved, ← hmade]
  exact congrArg (List.lookup file) hfiles

/-- A category that lets messages of a level through, sent to a file. -/
theorem appendsTo_retarget {c : Category} (hc : l.categories[slot]? = some c)
    (hon : c.enabled = true) (hlevel : c.threshold = level.rank)
    (hopen : (l.retarget slot (.file path)).1.store.isOpen (.file l.store.opened.length) = true) :
    AppendsTo l.store (l.retarget slot (.file path)).1 slot level ⟨path, file⟩ := by
  have hcategory := getElem?_retarget_file hfile slot
  have hopened := opened_retarget_file hfile slot
  have hmade := lookup_retarget_file hfile slot
  rw [hc] at hcategory
  refine ⟨⟨_, hcategory, hon, hlevel, rfl, rfl⟩, hopened, hopen, hmade, fun rank text hrank => ?_⟩
  have hat : (l.retarget slot (.file path)).1.store.opened[l.store.opened.length]? =
      some ⟨path, file⟩ := by
    rw [hopened]
    exact List.getElem?_concat_length
  have hheld : (l.retarget slot (.file path)).1.held? (some slot) = _ :=
    (held?_of_lt (List.getElem?_eq_some_iff.mp hcategory).1).trans hcategory
  have happend :=
    Store.lookup_append hopen hat ((l.retarget slot (.file path)).1.line rank text)
  rw [Store.content, hmade, Option.getD_some] at happend
  rw [write, hheld]
  simp only [Option.map_some, Category.lets, hon, hlevel, hrank, decide_true, Bool.and_self,
    if_true]
  exact happend

end File

/-! ## Written and applied -/

/-- A name gets a slot if it means the default category or is stored, or if there is room. -/
theorem exists_slot_of_get (h : namesDefault name = true ∨ name ∈ l.withDefault.names ∨
    l.withDefault.categories.length < capacity) : ∃ slot, (l.get name).2 = some slot := by
  rw [get]
  split
  · exact l.exists_default?_withDefault
  · next hname =>
    split
    · next slot hfind => exact ⟨slot, rfl⟩
    · next hfind =>
      have hroom : l.withDefault.categories.length < capacity := by
        rcases h with h | h | h
        · exact absurd h hname
        · exact absurd h (find?_eq_none_iff.mp hfind)
        · exact h
      rw [if_neg (by omega)]
      exact ⟨_, rfl⟩

/-- A name that is stored whole leads to its slot as long as the names before it stay. -/
theorem get_of_isPrefix_names (hd : l.DefaultKept) (hd' : l'.DefaultKept)
    (hfits : name.length ≤ nameCapacity) (hslot : (l.get name).2 = some slot)
    (hp : (l.get name).1.names <+: l'.names) : l'.get name = (l', some slot) := by
  cases hname : namesDefault name with
  | false => exact get_of_isPrefix hd' hname hfits hslot hp
  | true =>
    rw [get_of_namesDefault hd hname] at hslot hp
    have hset := hd'.default?_eq fun hzero => by
      have hle := hp.length_le
      rw [length_names, length_names, hzero] at hle
      exact absurd (length_withDefault_pos hd) (Nat.not_lt.mpr hle)
    rw [get_of_namesDefault hd' hname, withDefault_of_some hset, ← Option.some.inj hslot]

/-- The logger after a rule that names a category and a level, before its target is looked at. -/
def named (l : Logger) (name : Text) (slot : Slot) (level : Level) : Logger :=
  (l.get name).1.update slot fun c => { c with threshold := level.rank, enabled := true }

/-- A semicolon in the path decides: with one the target is refused, without one the category is
sent to the file. -/
theorem configure_quotedPath_cases (hname : RuleName name)
    (hlevel : levelName.map upper = level.name) (hquote : doubleQuote ∉ path) (hlf : lf ∉ path)
    (hslot : (l.get name).2 = some slot) :
    l.configure (quotedConfig name levelName path) =
      if semicolon ∈ path then (l.named name slot level, some .unclosedPath)
      else (l.named name slot level).retarget slot (.file path) := by
  have hget : l.withDefault.get name = ((l.get name).1, some slot) := by
    rw [get_withDefault, ← hslot]
  rw [configure_quotedConfig hname hlevel hlf, applyLine, Rule.parse_quotedRule hname hlevel]
  dsimp only
  rw [applyRule]
  dsimp only
  rw [hget]
  dsimp only
  by_cases hcut : semicolon ∈ path
  · rw [if_pos hcut, Target.parse_cut hquote hcut]
    rfl
  · rw [if_neg hcut, Target.parse_uncut hquote hcut]
    rfl

theorem names_named (l : Logger) (name : Text) (slot : Slot) (level : Level) :
    (l.named name slot level).names = (l.get name).1.names := by
  rw [named, names_update]
  exact fun _ => rfl

theorem store_named (l : Logger) (name : Text) (slot : Slot) (level : Level) :
    (l.named name slot level).store = l.store := l.store_get name

/-- The category of a rule is enabled at its level before the target counts. -/
theorem getElem?_named (hd : l.DefaultKept) (hslot : (l.get name).2 = some slot) (level : Level) :
    ∃ c, (l.named name slot level).categories[slot]? = some c ∧ c.enabled = true ∧
      c.threshold = level.rank := by
  have hlt : slot < (l.get name).1.categories.length := lt_length_of_get hd hslot
  rw [named, getElem?_update, List.getElem?_eq_getElem hlt]
  exact ⟨_, rfl, rfl, rfl⟩

/-- Whether or not the target is refused, the names are those of asking for the category. -/
theorem names_configure_quotedPath (hname : RuleName name)
    (hlevel : levelName.map upper = level.name) (hquote : doubleQuote ∉ path) (hlf : lf ∉ path)
    (hslot : (l.get name).2 = some slot) :
    (l.configure (quotedConfig name levelName path)).1.names = (l.get name).1.names := by
  rw [configure_quotedPath_cases hname hlevel hquote hlf hslot]
  split
  · exact names_named l name slot level
  · rw [names_retarget, names_named]

end Logger

namespace Session

variable {s : Session}

/-- A session that reads a configuration stays reachable. -/
theorem reachable_configure (h : s.Reachable) (config : Text) :
    ({ s with logger := (s.logger.configure config).1 } : Session).Reachable := by
  have hcall : (Call.configure (some config)).Admissible s := trivial
  have hreachable := reachable_of_admits h (admits_steps hcall)
  rwa [← call_eq_run] at hreachable

/-- **A rule for a file is read back as it was written**, in every state, wherever paths lead, and
whatever the path holds but quotes, line feeds and semicolons: the category that the name stands for
is turned on at the level and owns a stream, opened last and by that path, that appends to the file
that the path leads to.  A semicolon in the path ends it, and the rule is refused for its quotes
with the level set. -/
theorem configure_quotedPath (h : s.Reachable) {name levelName path : Text} {level : Level}
    (hname : RuleName name)
    (hroom : Logger.namesDefault name = true ∨ name ∈ s.logger.withDefault.names ∨
      s.logger.withDefault.categories.length < Logger.capacity)
    (hlevel : levelName.map upper = level.name) (hquote : doubleQuote ∉ path) (hlf : lf ∉ path)
    (hfile : s.logger.store.canOpen path = true) :
    let result := s.logger.configure (quotedConfig name levelName path)
    ∃ slot, (s.logger.get name).2 = some slot ∧ result.1.get name = (result.1, some slot) ∧
      (semicolon ∉ path →
        result.2 = none ∧ ∃ file, s.logger.store.paths.appendTo? path = some file ∧
          Logger.AppendsTo s.logger.store result.1 slot level ⟨path, file⟩) ∧
      (semicolon ∈ path →
        result = (s.logger.named name slot level, some .unclosedPath)) := by
  intro result
  have hafter := inOrder_of_reachable (reachable_configure h (quotedConfig name levelName path))
  have hd := (inOrder_of_reachable h).pointer
  obtain ⟨slot, hslot⟩ := Logger.exists_slot_of_get hroom
  have hcases := Logger.configure_quotedPath_cases hname hlevel hquote hlf hslot
  have hnames := Logger.names_configure_quotedPath hname hlevel hquote hlf hslot
  refine ⟨slot, hslot, ?_, fun huncut => ?_, fun hcut => ?_⟩
  · exact Logger.get_of_isPrefix_names hd hafter.pointer hname.length_le hslot
      (hnames ▸ List.prefix_refl _)
  · rw [if_neg huncut] at hcases
    obtain ⟨file, hleads⟩ := Option.isSome_iff_exists.mp hfile
    obtain ⟨c, hc, hon, hthreshold⟩ := Logger.getElem?_named hd hslot level
    have hstore := s.logger.store_named name slot level
    have hnamed : (s.logger.named name slot level).store.paths.appendTo? path = some file := by
      rw [hstore, hleads]
    have hat := Logger.getElem?_retarget_file hnamed slot
    rw [hc, ← hcases, Option.map_some] at hat
    have hopen := isOpen_of_mem_categories hafter.streams (List.mem_of_getElem? hat)
    have happends := Logger.appendsTo_retarget hnamed hc hon hthreshold (hcases ▸ hopen)
    rw [← hcases, hstore] at happends
    have hnone : result.2 = none :=
      (congrArg Prod.snd hcases).trans (Logger.snd_retarget_file hnamed slot)
    exact ⟨hnone, file, hleads, happends⟩
  · rwa [if_pos hcut] at hcases

/-- A category that shares the file of the default category, with dots and a quote in its name, gets
a file of its own.  Its path has blanks, dots and a bracket, and goes through a directory to which a
path leads since the sharing began. -/
theorem configure_quotedPath_blanks :
    let other : Paths := ⟨some, some⟩
    let s : Session := run { logger := {} } [.ready, .rule (ascii "*.INFO \"a.log\""),
      .get (ascii "css.\"x"), .elapse {} other []]
    let name := ascii "css.\"x"
    let path := ascii "/tmp/my #1 [x].log"
    let result := s.logger.configure (quotedConfig name (ascii "wArN") path)
    s.Reachable ∧ s.logger.outlets = [⟨.file 0, true⟩, ⟨.file 0, false⟩] ∧ RuleName name ∧
      (ascii "wArN").map upper = Level.warn.name ∧ s.logger.store.canOpen path = true ∧
      result.2 = none ∧ ∃ slot, result.1.get name = (result.1, some slot) ∧
        ∃ file, Logger.AppendsTo s.logger.store result.1 slot .warn ⟨path, file⟩ := by
  intro other s name path result
  have hstart : Reachable { logger := {} } := .start .flat [] [] [] false {}
  have h : s.Reachable := reachable_of_admits hstart ⟨trivial, trivial, trivial, trivial, trivial⟩
  have hname : RuleName name := ⟨by decide, by decide, by decide +kernel, by decide, by decide⟩
  have hlevel : (ascii "wArN").map upper = Level.warn.name := by decide +kernel
  have hfile : s.logger.store.canOpen path = true := rfl
  have hstored : name ∈ s.logger.withDefault.names := by decide +kernel
  obtain ⟨slot, -, hget, huncut, -⟩ := configure_quotedPath h hname (.inr (.inl hstored)) hlevel
    (by decide : doubleQuote ∉ path) (by decide) hfile
  obtain ⟨hnone, file, -, happends⟩ := huncut (by decide)
  exact ⟨h, by decide +kernel, hname, hlevel, hfile, hnone, slot, hget, file, happends⟩

/-- A path with a semicolon between its quotes can be opened, but the rule is refused: nothing is
opened, and the default category stays on standard output. -/
theorem refused_semicolonPath :
    let start : Session := { logger := {} }
    let path := ascii "a;b.log"
    let result := start.logger.configure (quotedConfig [star] (ascii "ERROR") path)
    start.Reachable ∧ RuleName [star] ∧ (ascii "ERROR").map upper = Level.error.name ∧
      doubleQuote ∉ path ∧ lf ∉ path ∧ start.logger.store.canOpen path = true ∧
      result.2 = some .unclosedPath ∧ result.1.store.opened = [] ∧
      result.1.outlets = [.standard] := by
  intro start path result
  exact ⟨.start .flat [] [] [] false {},
    ⟨by decide, by decide, by decide +kernel, by decide, by decide⟩,
    by decide, by decide, by decide, by decide +kernel, by decide +kernel, by decide +kernel,
    by decide +kernel⟩

end Session

end StyleSpan
