/-!
# StyleSpan.Text.Basic

Texts are byte strings: every length, offset and column of the library
counts bytes.  This module holds the type, the bytes that the other
modules name, the spelling of fixed phrases and of numbers, trimming, and
splitting at a byte.

* `decimal_injective` — distinct numbers have distinct decimals;
* `exists_dropTrailing_append` — trimming drops bytes of its class and no others;
* `append_inj_of_head?` — bytes of a class are told apart from what follows them;
* `pieces_append_sep` — cutting a text at a separator cuts its list of pieces there;
* `pieces_intercalate` — pieces make up a text that has these pieces.
-/

namespace StyleSpan

/-- A text is a string of bytes. -/
abbrev Text := List UInt8

namespace Text

/-! ## Bytes with a name -/

/-- Horizontal tab. -/
abbrev tab : UInt8 := 9
/-- Line feed, the only byte that ends a line. -/
abbrev lf : UInt8 := 10
/-- Form feed. -/
abbrev formFeed : UInt8 := 12
/-- Carriage return. -/
abbrev cr : UInt8 := 13
/-- Space. -/
abbrev space : UInt8 := 32
/-- Double quote. -/
abbrev doubleQuote : UInt8 := 34
/-- Number sign. -/
abbrev hash : UInt8 := 35
/-- Single quote. -/
abbrev singleQuote : UInt8 := 39
/-- Opening parenthesis. -/
abbrev openParen : UInt8 := 40
/-- Closing parenthesis. -/
abbrev closeParen : UInt8 := 41
/-- Asterisk. -/
abbrev star : UInt8 := 42
/-- Full stop. -/
abbrev dot : UInt8 := 46
/-- Slash. -/
abbrev slash : UInt8 := 47
/-- Semicolon. -/
abbrev semicolon : UInt8 := 59
/-- Opening square bracket. -/
abbrev openBracket : UInt8 := 91
/-- Backslash. -/
abbrev backslash : UInt8 := 92

/-- The two bytes that break a line of a stylesheet. -/
def isLineBreak (b : UInt8) : Bool := b = lf || b = cr

/-- The two bytes that open and close a string of a stylesheet. -/
def isQuote (b : UInt8) : Bool := b = singleQuote || b = doubleQuote

/-- Blanks of a configuration: the five bytes from tab to carriage return,
and space. -/
def isBlank (b : UInt8) : Bool := (tab ≤ b && b ≤ cr) || b = space

/-- Blanks of a stylesheet: those of a configuration without the vertical tab. -/
def isStyleBlank (b : UInt8) : Bool :=
  b = tab || b = lf || b = formFeed || b = cr || b = space

/-- The upper case of an ASCII letter; every other byte is kept. -/
def upper (b : UInt8) : UInt8 := if 97 ≤ b ∧ b ≤ 122 then b - 32 else b

/-! ## Phrases and numbers -/

/-- The bytes of a phrase of ASCII characters. -/
def ascii (phrase : String) : Text := phrase.toList.map fun c => c.toNat.toUInt8

/-- A number in decimal, without leading zeros. -/
def decimal (n : Nat) : Text := (Nat.toDigits 10 n).map fun c => c.toNat.toUInt8

/-- The byte of a digit has the digit's number. -/
private theorem toNat_toUInt8_of_isDigit {c : Char} (h : c.isDigit = true) :
    c.toNat.toUInt8.toNat = c.toNat := by
  have hhigh : c.toNat ≤ 57 := (Char.isDigit_iff_toNat.mp h).2
  rw [Nat.toUInt8_eq, UInt8.toNat_ofNat_of_lt' (Nat.lt_of_le_of_lt hhigh (by decide))]

theorem bounds_of_mem_decimal {n : Nat} {b : UInt8} (h : b ∈ decimal n) :
    48 ≤ b.toNat ∧ b.toNat ≤ 57 := by
  obtain ⟨c, hc, rfl⟩ := List.mem_map.mp h
  have hdigit : c.isDigit = true := Nat.isDigit_of_mem_toDigits (by decide) (by decide) hc
  rw [toNat_toUInt8_of_isDigit hdigit]
  exact Char.isDigit_iff_toNat.mp hdigit

/-- A number in decimal stands on one line. -/
theorem lf_not_mem_decimal (n : Nat) : lf ∉ decimal n := fun h =>
  absurd (bounds_of_mem_decimal h).1 (by decide)

/-- A number is read back from its decimal. -/
theorem ofDigitChars_decimal (n : Nat) :
    Nat.ofDigitChars 10 ((decimal n).map fun b => Char.ofNat b.toNat) 0 = n := by
  have hchars : ((decimal n).map fun b => Char.ofNat b.toNat) = Nat.toDigits 10 n := by
    rw [decimal, List.map_map]
    refine List.map_congr_left (fun c hc => ?_) |>.trans (List.map_id _)
    have hdigit : c.isDigit = true := Nat.isDigit_of_mem_toDigits (by decide) (by decide) hc
    rw [Function.comp_apply, toNat_toUInt8_of_isDigit hdigit, Char.ofNat_toNat, id_eq]
  rw [hchars, Nat.ofDigitChars_toDigits (by decide) (by decide)]

/-- Distinct numbers have distinct decimals. -/
theorem decimal_injective {m n : Nat} (h : decimal m = decimal n) : m = n := by
  rw [← ofDigitChars_decimal m, h, ofDigitChars_decimal]

/-! ## Trimming -/

/-- The text without the longest tail of bytes in the class `p`. -/
def dropTrailing (p : UInt8 → Bool) (t : Text) : Text := (t.reverse.dropWhile p).reverse

/-- The text without the blanks at both of its ends. -/
def trim (t : Text) : Text := dropTrailing isBlank (t.dropWhile isBlank)

@[simp] theorem dropTrailing_nil (p : UInt8 → Bool) : dropTrailing p [] = [] := rfl

/-- Only bytes of the class are dropped. -/
theorem exists_dropTrailing_append (p : UInt8 → Bool) (t : Text) :
    ∃ tail, t = dropTrailing p t ++ tail ∧ ∀ b ∈ tail, p b = true := by
  refine ⟨(t.reverse.takeWhile p).reverse, ?_, fun b hb => ?_⟩
  · rw [dropTrailing, ← List.reverse_append, List.takeWhile_append_dropWhile, List.reverse_reverse]
  · exact List.all_eq_true.mp List.all_takeWhile b (List.mem_reverse.mp hb)

/-! ## Bytes of a class -/

/-- Reading bytes of a class ends before the first byte outside it. -/
theorem takeWhile_append_of_head? {p : UInt8 → Bool} {s t : Text} (hs : ∀ b ∈ s, p b = true)
    (ht : ∀ b ∈ t.head?, p b = false) : (s ++ t).takeWhile p = s := by
  rw [List.takeWhile_append_of_pos hs]
  cases t with
  | nil => rw [List.takeWhile_nil, List.append_nil]
  | cons b rest =>
    have hb : ¬ p b = true := Bool.eq_false_iff.mp (ht b rfl)
    rw [List.takeWhile_cons_of_neg hb, List.append_nil]

/-- Bytes of a class are told apart from what follows them. -/
theorem append_inj_of_head? {p : UInt8 → Bool} {s s' t t' : Text} (hs : ∀ b ∈ s, p b = true)
    (hs' : ∀ b ∈ s', p b = true) (ht : ∀ b ∈ t.head?, p b = false)
    (ht' : ∀ b ∈ t'.head?, p b = false) (h : s ++ t = s' ++ t') : s = s' ∧ t = t' := by
  have hread : s = s' := by
    rw [← takeWhile_append_of_head? hs ht, h, takeWhile_append_of_head? hs' ht']
  subst hread
  exact ⟨rfl, List.append_cancel_left h⟩

/-! ## Pieces and lines -/

/-- The pieces of a text between its bytes `sep`; there is always one. -/
def pieces (sep : UInt8) : Text → List Text
  | [] => [[]]
  | b :: rest =>
    if b = sep then [] :: pieces sep rest
    else match pieces sep rest with
      | [] => [[b]]
      | piece :: more => (b :: piece) :: more

/-- The pieces of a text between its line feeds. -/
def lines (t : Text) : List Text := pieces lf t

@[simp] theorem pieces_nil (sep : UInt8) : pieces sep [] = [[]] := rfl

@[simp] theorem pieces_sep (sep : UInt8) (t : Text) :
    pieces sep (sep :: t) = [] :: pieces sep t := by
  simp [pieces]

theorem pieces_ne_nil (sep : UInt8) (t : Text) : pieces sep t ≠ [] := by
  cases t with
  | nil => simp
  | cons b rest =>
    rw [pieces]
    split
    · simp
    · split <;> simp

/-- A byte other than the separator belongs to the first piece. -/
theorem pieces_cons_of_ne {sep b : UInt8} (h : b ≠ sep) (t : Text) :
    ∃ piece more, pieces sep t = piece :: more ∧ pieces sep (b :: t) = (b :: piece) :: more := by
  cases ht : pieces sep t with
  | nil => exact absurd ht (pieces_ne_nil sep t)
  | cons piece more => exact ⟨piece, more, rfl, by rw [pieces, if_neg h, ht]⟩

/-- A separator parts the pieces before it from the pieces after it. -/
theorem pieces_append_sep (sep : UInt8) (s t : Text) :
    pieces sep (s ++ sep :: t) = pieces sep s ++ pieces sep t := by
  induction s with
  | nil => simp
  | cons b rest ih =>
    by_cases h : b = sep
    · simp [h, ih]
    · obtain ⟨piece, more, hp, hb⟩ := pieces_cons_of_ne h rest
      obtain ⟨piece', more', hp', hb'⟩ := pieces_cons_of_ne h (rest ++ sep :: t)
      rw [List.cons_append, hb', hb]
      rw [ih, hp, List.cons_append] at hp'
      injection hp' with h₁ h₂
      rw [← h₁, ← h₂, List.cons_append]

/-- A text without the separator is its only piece. -/
theorem pieces_of_not_mem {sep : UInt8} {t : Text} (h : sep ∉ t) : pieces sep t = [t] := by
  induction t with
  | nil => rfl
  | cons b rest ih =>
    rw [List.mem_cons, not_or] at h
    rw [pieces, if_neg (Ne.symm h.1), ih h.2]

/-- No piece holds the separator. -/
theorem not_mem_of_mem_pieces {sep : UInt8} {t piece : Text} (h : piece ∈ pieces sep t) :
    sep ∉ piece := by
  induction t generalizing piece with
  | nil => simp_all
  | cons b rest ih =>
    by_cases hb : b = sep
    · rw [hb, pieces_sep, List.mem_cons] at h
      rcases h with rfl | h
      · exact List.not_mem_nil
      · exact ih h
    · obtain ⟨first, more, hrest, hcons⟩ := pieces_cons_of_ne hb rest
      rw [hcons, List.mem_cons] at h
      rcases h with rfl | h
      · rw [List.mem_cons, not_or]
        exact ⟨Ne.symm hb, ih (hrest ▸ List.mem_cons_self)⟩
      · exact ih (hrest ▸ List.mem_cons_of_mem first h)

/-- Texts without the separator are the pieces of what they make up with separators in between. -/
theorem pieces_intercalate {sep : UInt8} {ts : List Text} (hne : ts ≠ [])
    (h : ∀ t ∈ ts, sep ∉ t) : pieces sep ([sep].intercalate ts) = ts := by
  induction ts with
  | nil => exact absurd rfl hne
  | cons t more ih =>
    have ht := pieces_of_not_mem (h t List.mem_cons_self)
    cases more with
    | nil => rw [List.intercalate_singleton, ht]
    | cons u more =>
      rw [List.intercalate_cons_cons, List.append_assoc, List.singleton_append, pieces_append_sep,
        ht, ih (List.cons_ne_nil u more) fun v hv => h v (List.mem_cons_of_mem t hv),
        List.singleton_append]

/-- A line feed separates the lines before it from the lines after it. -/
theorem lines_append_lf (s t : Text) : lines (s ++ lf :: t) = lines s ++ lines t :=
  pieces_append_sep lf s t

/-- What stands before the first line feed is the first line. -/
theorem lines_append_lf_of_not_mem {s : Text} (h : lf ∉ s) (t : Text) :
    lines (s ++ lf :: t) = s :: lines t := by
  rw [lines_append_lf, lines, pieces_of_not_mem h, List.singleton_append]

end Text

end StyleSpan
