import Mathlib.Tactic.SplitIfs
import StyleSpan.Comment.Sanitize
import StyleSpan.Proofs.Comment.Segments

/-!
# StyleSpan.Proofs.Comment.Append

Reading one text after another.  What a reading has to remember at the end of a
text is in its mode, the byte before, and the offset; of what follows it looks at
three bytes only where `url(` may begin, and no `url(` goes over a line break.  So
a text that ends in a line break is read alike whatever follows, and if that leaves
the reading outside of strings, comments and `url( )`, the text that follows is read
as it is on its own, but for its offsets.

* `scanFrom_append` — from the end of a line on, a reading goes on in its mode;
* `scanFrom_shift` — a reading that starts later queues the same comments later;
* `scan_append` — both together.
-/

namespace StyleSpan

open Text

/-- The extent moved by a number of bytes. -/
def Extent.shift (k : Nat) (e : Extent) : Extent := ⟨k + e.start, k + e.stop⟩

namespace Comment

/-! ## Moved readings -/

/-- The mode of a reading that is moved by a number of bytes. -/
def Mode.shift (k : Nat) : Mode → Mode
  | .inline start quoted => .inline (k + start) quoted
  | m => m

/-- What a byte does to a reading that is moved by a number of bytes. -/
def Move.shift (k : Nat) : Move → Move
  | .go m => .go (m.shift k)
  | .queue comment => .queue (comment.shift k)
  | .stop => .stop

/-- The outcome of a reading that is moved by a number of bytes. -/
def Outcome.shift (k : Nat) : Outcome → Outcome
  | .finished m queue => .finished (m.shift k) (queue.map (·.shift k))
  | .aborted offset context => .aborted (k + offset) context

variable {m : Mode} {offset k : Nat} {prev b : UInt8} {s t rest : Text}

/-- Where a comment starts has no part in the context. -/
theorem Mode.context_shift (k : Nat) (m : Mode) : (m.shift k).context = m.context := by
  cases m with
  | string q inUrl => cases q <;> rfl
  | top | urlName left | url | block | inline start quoted => rfl

theorem Outcome.shift_enqueue (k : Nat) (comment : Extent) (o : Outcome) :
    (o.enqueue comment).shift k = (o.shift k).enqueue (comment.shift k) := by
  cases o <;> rfl

/-- Where a byte stands matters only to the start of a comment, the byte before included. -/
theorem Mode.move_shift (h : 0 < offset ∨ prev ≠ slash) (k : Nat) (m : Mode) (b : UInt8)
    (rest : Text) :
    (m.shift k).move (k + offset) prev b rest = (m.move offset prev b rest).shift k := by
  cases m with
  | top =>
    change Mode.top.move (k + offset) prev b rest = _
    simp only [Mode.move]
    cases Quote.ofByte? b with
    | some q => rfl
    | none =>
      dsimp only
      split_ifs with hurl hblock hinline
      · rfl
      · rfl
      · have hpos : 0 < offset := h.resolve_right (not_not_intro hinline.2)
        rw [Nat.add_sub_assoc hpos k]
        rfl
      · rfl
  | string q inUrl =>
    change (Mode.string q inUrl).move (k + offset) prev b rest = _
    simp only [Mode.move]
    split_ifs <;> rfl
  | urlName left =>
    change (Mode.urlName left).move (k + offset) prev b rest = _
    simp only [Mode.move]
    split_ifs <;> rfl
  | url =>
    change Mode.url.move (k + offset) prev b rest = _
    simp only [Mode.move]
    cases Quote.ofByte? b <;> dsimp only <;> split_ifs <;> rfl
  | block =>
    change Mode.block.move (k + offset) prev b rest = _
    simp only [Mode.move]
    split_ifs <;> rfl
  | inline start quoted =>
    change (Mode.inline (k + start) quoted).move (k + offset) prev b rest = _
    simp only [Mode.move]
    split_ifs <;> rfl

/-- A reading that starts later, behind the same byte, has the same outcome later. -/
theorem scanFrom_shift (h : 0 < offset ∨ prev ≠ slash) (k : Nat) (m : Mode) (t : Text) :
    scanFrom (m.shift k) (k + offset) prev t = (scanFrom m offset prev t).shift k := by
  induction t generalizing m offset prev with
  | nil => rfl
  | cons b rest ih =>
    have hnext : ∀ m : Mode, scanFrom (m.shift k) (k + offset + 1) b rest =
        (scanFrom m (offset + 1) b rest).shift k := fun m => ih (.inl (Nat.succ_pos offset)) m
    rw [scanFrom_cons, scanFrom_cons, Mode.move_shift h]
    cases m.move offset prev b rest with
    | go next => exact hnext next
    | queue comment =>
      show (scanFrom (Mode.top.shift k) (k + offset + 1) b rest).enqueue (comment.shift k) = _
      rw [hnext]
      exact (Outcome.shift_enqueue k comment _).symm
    | stop =>
      show Outcome.aborted (k + offset) (m.shift k).context = _
      rw [Mode.context_shift]
      rfl

/-- Outside of strings, comments and `url( )` the byte before matters only if it is a slash. -/
theorem scanFrom_top_of_ne_slash {prev' : UInt8} (h : prev ≠ slash) (h' : prev' ≠ slash)
    (offset : Nat) (t : Text) : scanFrom .top offset prev t = scanFrom .top offset prev' t := by
  cases t with
  | nil => rfl
  | cons b rest =>
    have hmove : Mode.top.move offset prev b rest = Mode.top.move offset prev' b rest := by
      simp only [Mode.move, h, h', and_false]
    rw [scanFrom_cons, scanFrom_cons, hmove]

/-! ## Going on at the end of a line -/

/-- The outcome of a reading that goes on as `next` says from the mode in which it ended. -/
def Outcome.andThen (next : Mode → Outcome) : Outcome → Outcome
  | .finished m queue => (next m).after queue
  | .aborted offset context => .aborted offset context

/-- The text is empty or ends in a line break. -/
def EndsLine (t : Text) : Prop := ∀ b ∈ t.getLast?, isLineBreak b = true

theorem Outcome.andThen_enqueue (next : Mode → Outcome) (comment : Extent) (o : Outcome) :
    (o.enqueue comment).andThen next = (o.andThen next).enqueue comment := by
  cases o with
  | finished m queue =>
    show (next m).after (comment :: queue) = ((next m).after queue).enqueue comment
    cases next m <;> rfl
  | aborted offset context => rfl

/-- A text ends its line if what follows its first byte does. -/
theorem EndsLine.of_cons (h : EndsLine (b :: rest)) : EndsLine rest := by
  intro last hlast
  exact h last (by rw [List.getLast?_cons, hlast]; rfl)

/-- No line break is a letter of `url`. -/
theorem contains_eq_false_of_isLineBreak (h : isLineBreak b = true) :
    (ascii "uUrRlL").contains b = false := by
  rw [isLineBreak, Bool.or_eq_true, decide_eq_true_eq, decide_eq_true_eq] at h
  rcases h with rfl | rfl <;> decide

/-- Whether `url(` begins before the end of a line is a matter of that line. -/
theorem startsUrl_append (hs : s ≠ []) (h : EndsLine s) (t : Text) :
    startsUrl (s ++ t) = startsUrl s := by
  have hpos : 0 < s.length := List.length_pos_iff.mpr hs
  have hbyte : ∀ i < s.length, byteAt (s ++ t) i = s.byteAt i := by
    intro i hi
    rw [byteAt_eq_getElem (by rw [List.length_append]; omega), byteAt_eq_getElem hi,
      List.getElem_append_left hi]
  rw [startsUrl_eq_opensUrl, startsUrl_eq_opensUrl]
  by_cases hlen : 3 < s.length
  · simp only [opensUrl, Nat.zero_add]
    rw [hbyte 0 (by omega), hbyte 1 (by omega), hbyte 2 (by omega), hbyte 3 (by omega)]
  · -- the line break stands where a letter would
    have hlast : isLineBreak (s.byteAt (s.length - 1)) = true := by
      rw [byteAt_eq_getElem (by omega), ← List.getLast_eq_getElem hs]
      exact h _ (List.getLast?_eq_some_getLast hs)
    have hletter := contains_eq_false_of_isLineBreak hlast
    rw [opensUrl_eq_false (Nat.zero_le _) (by omega) hletter,
      opensUrl_eq_false (Nat.zero_le (s.length - 1)) (by omega)
        (by rw [hbyte _ (by omega), hletter])]

/-- A byte of a text that ends its line is read without regard to the text behind. -/
theorem Mode.move_append (h : EndsLine (b :: rest)) (m : Mode) (offset : Nat) (prev : UInt8)
    (t : Text) : m.move offset prev b (rest ++ t) = m.move offset prev b rest := by
  have hurl : startsUrl (b :: (rest ++ t)) = startsUrl (b :: rest) :=
    startsUrl_append (List.cons_ne_nil b rest) h t
  cases m with
  | top => simp only [Mode.move, hurl]
  | string q inUrl | urlName left | url | block | inline start quoted => rfl

/-- From the end of a line a reading goes on in its mode. -/
theorem scanFrom_append (h : EndsLine s) (m : Mode) (offset : Nat) (prev : UInt8) (t : Text) :
    scanFrom m offset prev (s ++ t) =
      (scanFrom m offset prev s).andThen fun m' =>
        scanFrom m' (offset + s.length) (s.getLast?.getD prev) t := by
  induction s generalizing m offset prev with
  | nil => exact (Outcome.after_nil _).symm
  | cons b rest ih =>
    have hlength : offset + (b :: rest).length = offset + 1 + rest.length := by
      rw [List.length_cons]
      omega
    have hlast : (b :: rest).getLast?.getD prev = rest.getLast?.getD b := by
      rw [List.getLast?_cons, Option.getD_some]
    rw [List.cons_append, scanFrom_cons, scanFrom_cons, Mode.move_append h, hlength, hlast]
    cases m.move offset prev b rest with
    | go next => exact ih h.of_cons next (offset + 1) b
    | queue comment =>
      dsimp only
      rw [Outcome.andThen_enqueue, ih h.of_cons]
    | stop => rfl

/-! ## Texts one after the other -/

variable {t₁ : Text} {queue : List Extent}

/-- A text that ends its line leaves no slash before the next byte. -/
theorem EndsLine.getLast?_getD_ne_slash (h : EndsLine t) : t.getLast?.getD 0 ≠ slash := by
  cases hlast : t.getLast? with
  | none => decide
  | some b =>
    rintro rfl
    exact absurd (h slash hlast) (by decide)

/-- Behind a text that ends its line outside of everything, reading starts anew. -/
theorem scan_append (h : scan t₁ = .finished .top queue) (hline : EndsLine t₁) (t₂ : Text) :
    scan (t₁ ++ t₂) = ((scan t₂).shift t₁.length).after queue := by
  have hzero : (0 : UInt8) ≠ slash := by decide
  have hmoved : scanFrom .top (t₁.length + 0) 0 t₂ = (scan t₂).shift t₁.length := by
    rw [scan_eq_scanFrom]
    exact scanFrom_shift (.inr hzero) t₁.length .top t₂
  rw [scan_eq_scanFrom] at h
  rw [scan_eq_scanFrom, scanFrom_append hline, h, Nat.zero_add]
  show (scanFrom .top t₁.length (t₁.getLast?.getD 0) t₂).after queue = _
  rw [scanFrom_top_of_ne_slash hline.getLast?_getD_ne_slash hzero]
  exact congrArg (Outcome.after queue) hmoved

/-- Sanitizing is aborted if reading is. -/
theorem status_sanitize (t : Text) : (sanitize t).verdict.status = .aborted ↔
    ∃ offset context, scan t = .aborted offset context := by
  rw [sanitize]
  cases scan t with
  | finished m queue => cases queue <;> simp [Verdict.status]
  | aborted offset context => simp [Verdict.status]

/-- **Reading goes line by line.**  Behind a text that ends in a line break and leaves the reading
outside of everything, a text is read as on its own: it is the one at whose line break the reading
aborts, and else the comments of both are queued, each where it stands. -/
theorem scan_append_of_endsLine (h : scan t₁ = .finished .top queue) (hline : EndsLine t₁)
    (t₂ : Text) :
    ((sanitize (t₁ ++ t₂)).verdict.status = .aborted ↔
      (sanitize t₂).verdict.status = .aborted) ∧
    (∀ offset context, scan t₂ = .aborted offset context →
      scan (t₁ ++ t₂) = .aborted (t₁.length + offset) context ∧
      sanitize (t₁ ++ t₂) = ⟨t₁ ++ t₂, .aborted (t₁.length + offset) context⟩) ∧
    (∀ m queue₂, scan t₂ = .finished m queue₂ →
      scan (t₁ ++ t₂) = .finished (m.shift t₁.length)
        (queue ++ queue₂.map fun c => ⟨t₁.length + c.start, t₁.length + c.stop⟩)) := by
  have happend := scan_append h hline t₂
  refine ⟨?_, fun offset context h₂ => ?_, fun m queue₂ h₂ => ?_⟩
  · rw [status_sanitize, status_sanitize, happend]
    cases scan t₂ with
    | finished m queue₂ => simp [Outcome.shift, Outcome.after]
    | aborted offset context => simp [Outcome.shift, Outcome.after]
  · have haborted : scan (t₁ ++ t₂) = .aborted (t₁.length + offset) context := by
      rw [happend, h₂]
      rfl
    exact ⟨haborted, sanitize_of_aborted haborted⟩
  · rw [happend, h₂]
    rfl

/-- A comment that a carriage return ends stands before one that a line feed ends; a line break in
a string behind it aborts. -/
theorem scan_append_carriageReturn :
    let t₁ := ascii "//it's\r"
    scan t₁ = .finished .top [⟨0, 6⟩] ∧ EndsLine t₁ ∧
      scan (t₁ ++ ascii "url(a)//\"\n") = .finished .top [⟨0, 6⟩, ⟨13, 16⟩] ∧
      scan (t₁ ++ ascii "/'\n") = .aborted 9 .singleQuote := by
  intro t₁
  have hscan : scan t₁ = .finished .top [⟨0, 6⟩] := by decide
  have hline : EndsLine t₁ := by
    unfold EndsLine
    decide +kernel
  have hlength : t₁.length = 7 := by decide
  obtain ⟨-, haborts, -⟩ := scan_append_of_endsLine hscan hline (ascii "/'\n")
  have habort := (haborts 2 .singleQuote (by decide +kernel)).1
  obtain ⟨-, -, hfinishes⟩ := scan_append_of_endsLine hscan hline (ascii "url(a)//\"\n")
  have hfinish := hfinishes .top [⟨6, 9⟩] (by decide +kernel)
  rw [hlength] at habort hfinish
  exact ⟨hscan, hline, hfinish, habort⟩

end Comment

end StyleSpan
