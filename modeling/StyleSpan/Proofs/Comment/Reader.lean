import StyleSpan.Comment.Reader

/-!
# StyleSpan.Proofs.Comment.Reader

The variables of a reading, and the modes that it goes through.  A variable that does
not count where the reading stands is as it was at the start: `Settled` says which, and
every step keeps it so.  So the mode alone decides what a byte does, and a text is read
as `scanFrom` reads it, mode after mode:

```
closing quote     returnTo is put back, whether the string was in a url( ) or not
end of a comment  hasQuotes is put back, whether the comment is queued or not
byte of url(      skip counts down, and is 0 when the url( ) begins
```

* `agrees_step` — one byte does to the variables what it does to the mode;
* `run_eq_scanFrom` — and so does a text, by induction on it;
* `scan_eq_scanFrom` — the reading from the first byte.
-/

namespace StyleSpan

open Text

namespace Comment

namespace Reader

variable {r : Reader} {offset : Nat} {prev b : UInt8} {rest : Text}

/-! ## What the variables hold -/

/-- The variables that do not count are as they were at the start: a closing quote leads out of all
unless a string stands in a `url( )`, only an inline comment may have held a quote, and only of
`url(` bytes are passed over. -/
structure Settled (r : Reader) : Prop where
  returnTo_of_ne : r.returnTo ≠ .top →
    r.returnTo = .url ∧ (r.context = .singleQuote ∨ r.context = .doubleQuote)
  inline_of_hasQuotes : r.hasQuotes = true → r.context = .inline
  url_of_skip : r.skip ≠ 0 → r.context = .url

/-- The context of the mode is that of the reading. -/
theorem context_mode (r : Reader) : r.mode.context = r.context := by
  cases hc : r.context with
  | url =>
    simp only [mode, hc]
    split <;> rfl
  | top | singleQuote | doubleQuote | block | inline => simp [mode, hc, Mode.context]

/-- What a byte does to the mode and what it does to the variables: they go on alike, a comment
being queued by both or by none, or both break off. -/
inductive Agrees (r : Reader) : Move → Option Reader → Prop where
  | go {m : Mode} {next : Reader} (hsettled : next.Settled) (hmode : next.mode = m)
      (hqueue : next.queue = r.queue) : Agrees r (.go m) (some next)
  | queue {comment : Extent} {next : Reader} (hsettled : next.Settled) (hmode : next.mode = .top)
      (hqueue : next.queue = r.queue ++ [comment]) : Agrees r (.queue comment) (some next)
  | stop : Agrees r .stop none

/-! ## One byte -/

/-- Variables that are as at the start are settled. -/
theorem Settled.of_start (hreturn : r.returnTo = .top) (hquotes : r.hasQuotes = false)
    (hskip : r.skip = 0) : r.Settled :=
  ⟨fun hne => absurd hreturn hne, fun hq => absurd (hquotes.symm.trans hq) Bool.false_ne_true,
    fun hne => absurd hskip hne⟩

/-- Outside of strings a closing quote leads out of all. -/
theorem Settled.returnTo_eq (h : r.Settled) (hsingle : r.context ≠ .singleQuote)
    (hdouble : r.context ≠ .doubleQuote) : r.returnTo = .top := by
  refine Decidable.byContradiction fun hne => ?_
  rcases (h.returnTo_of_ne hne).2 with hc | hc
  · exact hsingle hc
  · exact hdouble hc

/-- Quotes are remembered in inline comments only. -/
theorem Settled.hasQuotes_eq (h : r.Settled) (hne : r.context ≠ .inline) : r.hasQuotes = false := by
  cases hq : r.hasQuotes with
  | false => rfl
  | true => exact absurd (h.inline_of_hasQuotes hq) hne

/-- A byte of `url(` is passed over. -/
theorem agrees_skip (h : r.Settled) (hskip : r.skip ≠ 0) :
    Agrees r (r.mode.move offset prev b rest) (r.step offset prev b rest) := by
  have hurl := h.url_of_skip hskip
  have hreturn : r.returnTo = .top := h.returnTo_eq (by simp [hurl]) (by simp [hurl])
  have hquotes : r.hasQuotes = false := h.hasQuotes_eq (by simp [hurl])
  have hmode : r.mode = .urlName r.skip := by simp [mode, hurl, hskip]
  rw [step, if_pos hskip, hmode]
  refine .go ⟨fun hne => absurd hreturn hne, fun hq => ?_, fun _ => hurl⟩ ?_ rfl
  · exact absurd (hquotes.symm.trans hq) Bool.false_ne_true
  · simp only [mode, hurl, Nat.sub_eq_zero_iff_le]

/-- What opens at the top opens alike, with the variables as at the start. -/
theorem agrees_top (h : r.Settled) (hskip : r.skip = 0) (hc : r.context = .top) :
    Agrees r (Mode.top.move offset prev b rest) (r.step offset prev b rest) := by
  have hreturn : r.returnTo = .top := h.returnTo_eq (by simp [hc]) (by simp [hc])
  have hquotes : r.hasQuotes = false := h.hasQuotes_eq (by simp [hc])
  rw [step, if_neg fun hne => hne hskip, hc]
  dsimp only [Mode.move]
  by_cases hsingle : b = singleQuote
  · rw [if_pos hsingle, hsingle]
    exact .go (.of_start hreturn hquotes hskip) (by simp [mode, hreturn]) rfl
  by_cases hdouble : b = doubleQuote
  · rw [if_neg hsingle, if_pos hdouble, hdouble]
    exact .go (.of_start hreturn hquotes hskip) (by simp [mode, hreturn]) rfl
  have hnone : Quote.ofByte? b = none := by rw [Quote.ofByte?, if_neg hsingle, if_neg hdouble]
  rw [if_neg hsingle, if_neg hdouble, hnone]
  dsimp only
  split
  · refine .go ⟨fun hne => absurd hreturn hne, fun hq => ?_, fun _ => rfl⟩ (by simp [mode]) rfl
    exact absurd (hquotes.symm.trans hq) Bool.false_ne_true
  · split
    · exact .go (.of_start hreturn hquotes hskip) (by simp [mode]) rfl
    · split
      · -- a comment begins, and has held no quote
        refine .go ⟨fun hne => absurd hreturn hne, fun _ => rfl, fun hne => absurd hskip hne⟩ ?_ rfl
        simp [mode, hquotes]
      · exact .go h (by simp [mode, hc]) rfl

/-- A closing quote leads back into the `url( )` that the string stands in, and is forgotten. -/
theorem agrees_string (h : r.Settled) (hskip : r.skip = 0)
    (hc : r.context = .singleQuote ∨ r.context = .doubleQuote) :
    Agrees r (r.mode.move offset prev b rest) (r.step offset prev b rest) := by
  obtain ⟨q, hmode, hbyte⟩ : ∃ q, r.mode = .string q (r.returnTo = .url) ∧
      r.closingQuote = q.byte := by
    rcases hc with hc | hc
    · exact ⟨.single, by simp [mode, hc], by simp [closingQuote, hc, Quote.byte]⟩
    · exact ⟨.double, by simp [mode, hc], by simp [closingQuote, hc, Quote.byte]⟩
  have hquotes : r.hasQuotes = false := h.hasQuotes_eq (by rcases hc with hc | hc <;> simp [hc])
  have hstep : r.step offset prev b rest =
      if b = q.byte ∧ prev ≠ backslash then
        some { r with context := r.returnTo, returnTo := .top }
      else if isLineBreak b then none
      else some r := by
    rw [step, if_neg fun hne => hne hskip, hbyte]
    rcases hc with hc | hc <;> rw [hc]
  rw [hmode, hstep]
  dsimp only [Mode.move]
  split
  · refine .go (.of_start rfl hquotes hskip) ?_ rfl
    by_cases hreturn : r.returnTo = .top
    · simp [mode, hreturn]
    · simp [mode, (h.returnTo_of_ne hreturn).1, hskip]
  · split
    · exact .stop
    · exact .go h hmode rfl

/-- A string in a `url( )` notes where its closing quote leads. -/
theorem agrees_url (h : r.Settled) (hskip : r.skip = 0) (hc : r.context = .url) :
    Agrees r (Mode.url.move offset prev b rest) (r.step offset prev b rest) := by
  have hreturn : r.returnTo = .top := h.returnTo_eq (by simp [hc]) (by simp [hc])
  have hquotes : r.hasQuotes = false := h.hasQuotes_eq (by simp [hc])
  have hopens : ∀ c, c = Context.singleQuote ∨ c = Context.doubleQuote →
      Settled { r with context := c, returnTo := .url } := fun c hquote =>
    ⟨fun _ => ⟨rfl, hquote⟩, fun hq => absurd (hquotes.symm.trans hq) Bool.false_ne_true,
      fun hne => absurd hskip hne⟩
  rw [step, if_neg fun hne => hne hskip, hc]
  dsimp only [Mode.move]
  split
  · exact .go (.of_start hreturn hquotes hskip) (by simp [mode]) rfl
  · split
    · exact .stop
    · by_cases hsingle : b = singleQuote
      · rw [if_pos hsingle, hsingle]
        exact .go (hopens _ (.inl rfl)) (by simp [mode]) rfl
      by_cases hdouble : b = doubleQuote
      · rw [if_neg hsingle, if_pos hdouble, hdouble]
        exact .go (hopens _ (.inr rfl)) (by simp [mode]) rfl
      have hnone : Quote.ofByte? b = none := by rw [Quote.ofByte?, if_neg hsingle, if_neg hdouble]
      rw [if_neg hsingle, if_neg hdouble, hnone]
      exact .go h (by simp [mode, hc, hskip]) rfl

/-- A block comment touches no variable but the context. -/
theorem agrees_block (h : r.Settled) (hskip : r.skip = 0) (hc : r.context = .block) :
    Agrees r (Mode.block.move offset prev b rest) (r.step offset prev b rest) := by
  have hreturn : r.returnTo = .top := h.returnTo_eq (by simp [hc]) (by simp [hc])
  have hquotes : r.hasQuotes = false := h.hasQuotes_eq (by simp [hc])
  rw [step, if_neg fun hne => hne hskip, hc]
  dsimp only [Mode.move]
  split
  · exact .go (.of_start hreturn hquotes hskip) (by simp [mode]) rfl
  · exact .go h (by simp [mode, hc]) rfl

/-- At the end of a comment its quotes are forgotten, whether or not it is queued. -/
theorem agrees_inline (h : r.Settled) (hskip : r.skip = 0) (hc : r.context = .inline) :
    Agrees r ((Mode.inline r.commentStart r.hasQuotes).move offset prev b rest)
      (r.step offset prev b rest) := by
  have hreturn : r.returnTo = .top := h.returnTo_eq (by simp [hc]) (by simp [hc])
  rw [step, if_neg fun hne => hne hskip, hc]
  dsimp only [Mode.move]
  split
  · refine .go ⟨fun hne => absurd hreturn hne, fun _ => rfl, fun hne => absurd hskip hne⟩ ?_ rfl
    simp [mode]
  · split
    · cases hquotes : r.hasQuotes with
      | true => exact .queue (.of_start hreturn rfl hskip) (by simp [mode]) (by simp)
      | false => exact .go (.of_start hreturn rfl hskip) (by simp [mode]) (by simp)
    · exact .go h (by simp [mode, hc]) rfl

/-- One byte does to the variables what it does to the mode. -/
theorem agrees_step (h : r.Settled) (offset : Nat) (prev b : UInt8) (rest : Text) :
    Agrees r (r.mode.move offset prev b rest) (r.step offset prev b rest) := by
  by_cases hskip : r.skip = 0
  · cases hc : r.context with
    | top =>
      have hmode : r.mode = .top := by simp [mode, hc]
      exact hmode ▸ agrees_top h hskip hc
    | singleQuote => exact agrees_string h hskip (.inl hc)
    | doubleQuote => exact agrees_string h hskip (.inr hc)
    | url =>
      have hmode : r.mode = .url := by simp [mode, hc, hskip]
      exact hmode ▸ agrees_url h hskip hc
    | block =>
      have hmode : r.mode = .block := by simp [mode, hc]
      exact hmode ▸ agrees_block h hskip hc
    | inline =>
      have hmode : r.mode = .inline r.commentStart r.hasQuotes := by simp [mode, hc]
      exact hmode ▸ agrees_inline h hskip hc
  · exact agrees_skip h hskip

/-! ## A text -/

/-- A text is read as its modes say, whatever was queued before. -/
theorem run_eq_scanFrom (h : r.Settled) (offset : Nat) (prev : UInt8) (t : Text) :
    r.run offset prev t = (scanFrom r.mode offset prev t).after r.queue := by
  induction t generalizing r offset prev with
  | nil => simp [run, Outcome.after]
  | cons b rest ih =>
    have hagrees := agrees_step h offset prev b rest
    rw [run, scanFrom_cons]
    revert hagrees
    generalize r.mode.move offset prev b rest = move
    generalize r.step offset prev b rest = next?
    intro hagrees
    cases hagrees with
    | go hsettled hmode hqueue =>
      dsimp only
      rw [ih hsettled, hmode, hqueue]
    | queue hsettled hmode hqueue =>
      dsimp only
      rw [ih hsettled, hmode, hqueue, Outcome.after_enqueue]
    | stop =>
      dsimp only
      rw [context_mode]
      rfl

end Reader

/-- The reading of a text is that of its modes, from its first byte on. -/
theorem scan_eq_scanFrom (t : Text) : scan t = scanFrom .top 0 0 t := by
  rw [scan, Reader.run_eq_scanFrom (.of_start rfl rfl rfl)]
  exact Outcome.after_nil _

end Comment

end StyleSpan
