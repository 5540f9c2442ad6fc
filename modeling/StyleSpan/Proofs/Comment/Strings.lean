import StyleSpan.Proofs.Comment.Segments

/-!
# StyleSpan.Proofs.Comment.Strings

Strings with escapes.  Between the quotes of a string stand units: a byte that
means nothing there, or a backslash with the byte that it escapes.

```
body = unit*
unit = any byte but the quote, a backslash, a line break
     | backslash, any byte but a line break
```

A reading that decides by the one byte before a quote whether it closes the
string does not tell a backslash that escapes from one that is escaped.  Inside
a body this does no harm, as an escaped byte is never taken for the end; it
does at the closing quote, when the last unit is an escaped backslash.

* `scanFrom_body` — from inside a string over a body and the closing quote;
* `skipsString_iff` — which strings a reading leaves as it came to them.
-/

namespace StyleSpan

open Text

namespace Comment

/-- What can stand between two quotes `q`: bytes other than the quote, a backslash
and line breaks, and escapes, a backslash before any byte but a line break. -/
inductive IsStringBody (q : Quote) : Text → Prop where
  | nil : IsStringBody q []
  | plain {b : UInt8} {rest : Text} (hquote : b ≠ q.byte) (hescape : b ≠ backslash)
      (hbreak : isLineBreak b = false) (hrest : IsStringBody q rest) : IsStringBody q (b :: rest)
  | escaped {b : UInt8} {rest : Text} (hbreak : isLineBreak b = false)
      (hrest : IsStringBody q rest) : IsStringBody q (backslash :: b :: rest)

/-- A reading that comes to the opening quote of the string outside of strings and
comments, inside a `url( )` or not, is there again right after the closing quote,
with nothing queued, whatever stands before and after the string. -/
def SkipsString (q : Quote) (inUrl : Bool) (body : Text) : Prop :=
  ∀ offset prev rest,
    scanFrom (place inUrl) offset prev (q.byte :: (body ++ q.byte :: rest)) =
      scanFrom (place inUrl) (offset + body.length + 2) q.byte rest

variable {q : Quote} {body rest : Text} {inUrl : Bool} {offset : Nat} {prev b : UInt8}

/-! ## One byte inside a string -/

theorem Quote.byte_ne_backslash (q : Quote) : q.byte ≠ backslash := by cases q <;> decide

theorem Quote.byte_ne_closeParen (q : Quote) : q.byte ≠ closeParen := by cases q <;> decide

/-- A quote opens a string, inside a `url( )` and outside of it. -/
theorem scanFrom_openingQuote (q : Quote) (inUrl : Bool) (offset : Nat) (prev : UInt8)
    (rest : Text) :
    scanFrom (place inUrl) offset prev (q.byte :: rest) =
      scanFrom (.string q inUrl) (offset + 1) q.byte rest := by
  have hquote : Quote.ofByte? q.byte = some q := Quote.ofByte?_byte q
  have hparen := q.byte_ne_closeParen
  cases inUrl <;> simp [scanFrom_cons, place, Mode.move, hquote, hparen]

/-- A byte keeps the reading in the string if it does not close it and breaks no line. -/
theorem scanFrom_stays (hclose : b = q.byte → prev = backslash) (hbreak : isLineBreak b = false) :
    scanFrom (.string q inUrl) offset prev (b :: rest) =
      scanFrom (.string q inUrl) (offset + 1) b rest := by
  have hopen : ¬ (b = q.byte ∧ prev ≠ backslash) := fun h => h.2 (hclose h.1)
  simp [scanFrom_cons, Mode.move, hopen, hbreak]

/-- The quote closes the string, if no backslash stands before it. -/
theorem scanFrom_closingQuote (q : Quote) (inUrl : Bool) (offset : Nat) (prev : UInt8)
    (rest : Text) :
    scanFrom (.string q inUrl) offset prev (q.byte :: rest) =
      scanFrom (if prev = backslash then .string q inUrl else place inUrl) (offset + 1) q.byte
        rest := by
  by_cases hprev : prev = backslash
  · rw [if_pos hprev, scanFrom_stays (fun _ => hprev) q.isLineBreak_byte]
  · simp [scanFrom_cons, Mode.move, hprev, place]

/-! ## Bodies -/

/-- The reading stays in the string over the whole body, and the last byte of the body
decides whether the quote after it closes the string. -/
theorem scanFrom_body (h : IsStringBody q body) (inUrl : Bool) (offset : Nat) (prev : UInt8)
    (rest : Text) :
    scanFrom (.string q inUrl) offset prev (body ++ q.byte :: rest) =
      scanFrom (if body.getLastD prev = backslash then .string q inUrl else place inUrl)
        (offset + body.length + 1) q.byte rest := by
  induction h generalizing offset prev with
  | nil => exact scanFrom_closingQuote q inUrl offset prev rest
  | @plain b body hquote hescape hbreak hbody ih =>
    have hlength : offset + 1 + body.length + 1 = offset + (b :: body).length + 1 := by
      simp only [List.length_cons]
      omega
    rw [List.cons_append, scanFrom_stays (fun hb => absurd hb hquote) hbreak, ih, hlength,
      List.getLastD_cons]
  | @escaped b body hbreak hbody ih =>
    have hlength : offset + 1 + 1 + body.length + 1 =
        offset + (backslash :: b :: body).length + 1 := by
      simp only [List.length_cons]
      omega
    have hslash : backslash ≠ q.byte := Ne.symm q.byte_ne_backslash
    rw [List.cons_append, List.cons_append, scanFrom_stays (fun hb => absurd hb hslash) rfl,
      scanFrom_stays (fun _ => rfl) hbreak, ih, hlength, List.getLastD_cons, List.getLastD_cons]

/-- Over a whole string: the reading is back, unless the body ends in a backslash. -/
theorem scanFrom_string (h : IsStringBody q body) (inUrl : Bool) (offset : Nat) (prev : UInt8)
    (rest : Text) :
    scanFrom (place inUrl) offset prev (q.byte :: (body ++ q.byte :: rest)) =
      scanFrom (if body.getLast? = some backslash then .string q inUrl else place inUrl)
        (offset + body.length + 2) q.byte rest := by
  have hlength : offset + 1 + body.length + 1 = offset + body.length + 2 := by omega
  have hlast : body.getLastD q.byte = backslash ↔ body.getLast? = some backslash := by
    rw [List.getLastD_eq_getLast?]
    cases body.getLast? with
    | none => simpa using q.byte_ne_backslash
    | some b => simp
  rw [scanFrom_openingQuote, scanFrom_body h, hlength]
  simp only [hlast]

/-- **A reading leaves a string as it came to it if and only if the last unit of the string is no
escaped backslash**; after such a unit it takes the closing quote for a part of the string. -/
theorem skipsString_iff (h : IsStringBody q body) (inUrl : Bool) :
    (SkipsString q inUrl body ↔ body.getLast? ≠ some backslash) ∧
      (body.getLast? = some backslash → ∀ offset prev rest,
        scanFrom (place inUrl) offset prev (q.byte :: (body ++ q.byte :: rest)) =
          scanFrom (.string q inUrl) (offset + body.length + 2) q.byte rest) := by
  have hstring := scanFrom_string h inUrl
  refine ⟨⟨fun hskips hlast => ?_, fun hlast offset prev rest => ?_⟩,
    fun hlast offset prev rest => ?_⟩
  · -- at the end of a text the two modes are told apart
    have hend := hskips 0 0 []
    rw [hstring, if_pos hlast, scanFrom_nil, scanFrom_nil] at hend
    cases inUrl <;> cases hend
  · rw [hstring, if_neg hlast]
  · rw [hstring, if_pos hlast]

/-- An escaped quote, an escaped backslash before the end and the other quote do no harm. -/
theorem skipsString_escapedQuote :
    IsStringBody .single (ascii "\\'\\\\\"") ∧ SkipsString .single true (ascii "\\'\\\\\"") := by
  have hbody : IsStringBody .single (ascii "\\'\\\\\"") :=
    .escaped (by decide) (.escaped (by decide)
      (.plain (by decide) (by decide) (by decide) .nil))
  exact ⟨hbody, (skipsString_iff hbody true).1.mpr (by decide)⟩

/-- A string that holds one escaped backslash is well formed and is not left: the reading stays
in it up to the next line break, where it aborts. -/
theorem not_skipsString_escapedBackslash :
    (IsStringBody .double (ascii "\\\\") ∧ ¬ SkipsString .double false (ascii "\\\\") ∧
      ¬ SkipsString .double true (ascii "\\\\")) ∧
    scan (ascii "\"\\\\\"\n//it's\n") = .aborted 4 .doubleQuote := by
  have hbody : IsStringBody .double (ascii "\\\\") := .escaped (by decide) .nil
  have hscan : scan (ascii "\"\\\\\"\n//it's\n") = .aborted 4 .doubleQuote := by decide
  refine ⟨⟨hbody, fun hskips => ?_, fun hskips => ?_⟩, hscan⟩
  · exact absurd (hskips 0 0 []) (by decide)
  · exact absurd (hskips 0 0 []) (by decide)

end Comment

end StyleSpan
