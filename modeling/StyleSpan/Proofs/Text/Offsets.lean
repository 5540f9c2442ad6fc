import Mathlib.Data.List.GetD
import StyleSpan.Text.Lines

/-!
# StyleSpan.Proofs.Text.Offsets

The bytes of a text by offset, and the least offset with a property.  A byte
outside the text reads as NUL, which is none of the bytes that mean something
to a stylesheet, so that a property of bytes needs no bounds of its own.

* `drop_eq_byteAt_cons` — what a reading of the text sees at an offset;
* `firstFrom_eq_some` / `firstFrom_eq_none` — what `firstFrom` promises;
* `firstFrom_congr` — it looks no further than the offset that it finds;
* `lineEndFrom_eq` — a line ends at the first line break.
-/

namespace StyleSpan

namespace Text

/-- The byte at an offset, NUL outside the text. -/
def byteAt (t : Text) (i : Nat) : UInt8 := t.getD i 0

/-- The byte before an offset, NUL before the first one. -/
def byteBefore (t : Text) (i : Nat) : UInt8 := if i = 0 then 0 else t.byteAt (i - 1)

/-- The least offset of the text, from `start` on, with the property `p`. -/
def firstFrom (t : Text) (start : Nat) (p : Nat → Bool) : Option Nat :=
  (List.range' start (t.length - start)).find? p

/-! ## Bytes -/

theorem byteAt_eq_getElem {t : Text} {i : Nat} (h : i < t.length) : t.byteAt i = t[i] := by
  rw [byteAt, List.getD_eq_getElem t 0 h]

theorem byteAt_of_length_le {t : Text} {i : Nat} (h : t.length ≤ i) : t.byteAt i = 0 := by
  rw [byteAt, List.getD_eq_default t 0 h]

/-- A byte other than NUL stands inside the text. -/
theorem lt_length_of_byteAt {t : Text} {i : Nat} (h : t.byteAt i ≠ 0) : i < t.length :=
  Nat.lt_of_not_le fun hle => h (byteAt_of_length_le hle)

@[simp] theorem byteBefore_zero (t : Text) : t.byteBefore 0 = 0 := rfl

@[simp] theorem byteBefore_succ (t : Text) (i : Nat) : t.byteBefore (i + 1) = t.byteAt i := by
  simp [byteBefore]

/-- Inside the text there is a byte at the offset and the text after it. -/
theorem drop_eq_byteAt_cons {t : Text} {i : Nat} (h : i < t.length) :
    t.drop i = t.byteAt i :: t.drop (i + 1) := by
  rw [byteAt_eq_getElem h, List.drop_eq_getElem_cons h]

theorem byteAt_drop (t : Text) (i k : Nat) : byteAt (t.drop i) k = t.byteAt (i + k) := by
  rw [byteAt, byteAt, List.getD_eq_getElem?_getD, List.getElem?_drop, List.getD_eq_getElem?_getD]

/-- The bytes of a slice are those of the text between its bounds. -/
theorem mem_slice_iff {t : Text} {start stop : Nat} (h : stop ≤ t.length) {b : UInt8} :
    b ∈ t.slice start stop ↔ ∃ p, start ≤ p ∧ p < stop ∧ t.byteAt p = b := by
  rw [slice, if_pos h, List.mem_iff_getElem]
  constructor
  · rintro ⟨k, hk, rfl⟩
    rw [List.length_drop, List.length_take] at hk
    refine ⟨start + k, by omega, by omega, ?_⟩
    rw [List.getElem_drop, List.getElem_take, byteAt_eq_getElem (by omega)]
  · rintro ⟨p, hp, hlt, rfl⟩
    refine ⟨p - start, by rw [List.length_drop, List.length_take]; omega, ?_⟩
    rw [List.getElem_drop, List.getElem_take, byteAt_eq_getElem (by omega)]
    congr 1
    omega

/-- A slice holds a byte of a kind if some offset in it does. -/
theorem any_slice_iff {t : Text} {start stop : Nat} (h : stop ≤ t.length) {p : UInt8 → Bool} :
    (t.slice start stop).any p = true ↔ ∃ k, start ≤ k ∧ k < stop ∧ p (t.byteAt k) = true := by
  rw [List.any_eq_true]
  constructor
  · rintro ⟨b, hb, hp⟩
    obtain ⟨k, h₁, h₂, rfl⟩ := (mem_slice_iff h).mp hb
    exact ⟨k, h₁, h₂, hp⟩
  · rintro ⟨k, h₁, h₂, hp⟩
    exact ⟨t.byteAt k, (mem_slice_iff h).mpr ⟨k, h₁, h₂, rfl⟩, hp⟩

/-! ## The least offset -/

/-- The first offset that passes a test, none before it passing. -/
theorem firstFrom_eq_some {t : Text} {start j : Nat} {p : Nat → Bool} :
    t.firstFrom start p = some j ↔
      start ≤ j ∧ j < t.length ∧ p j = true ∧ ∀ k, start ≤ k → k < j → p k = false := by
  rw [firstFrom, List.find?_range'_eq_some, List.mem_range'_1]
  constructor
  · rintro ⟨hp, ⟨h₁, h₂⟩, hmin⟩
    exact ⟨h₁, by omega, hp, fun k hk hkj => by simpa using hmin k hk hkj⟩
  · rintro ⟨h₁, h₂, hp, hmin⟩
    exact ⟨hp, ⟨h₁, by omega⟩, fun k hk hkj => by simpa using hmin k hk hkj⟩

/-- No offset passes a test. -/
theorem firstFrom_eq_none {t : Text} {start : Nat} {p : Nat → Bool} :
    t.firstFrom start p = none ↔ ∀ k, start ≤ k → k < t.length → p k = false := by
  rw [firstFrom, List.find?_range'_eq_none]
  constructor
  · intro h k hk hlt
    simpa using h k hk (by omega)
  · intro h k hk hlt
    simpa using h k hk (by omega)

/-- An offset without the property may be left out. -/
theorem firstFrom_succ {t : Text} {start : Nat} {p : Nat → Bool} (h : p start = false) :
    t.firstFrom start p = t.firstFrom (start + 1) p := by
  rw [firstFrom, firstFrom]
  by_cases hlt : start < t.length
  · have hlen : t.length - start = t.length - (start + 1) + 1 := by omega
    rw [hlen, List.range'_succ, List.find?_cons_of_neg (by simp [h])]
  · have hlen : t.length - start = 0 := by omega
    have hlen' : t.length - (start + 1) = 0 := by omega
    rw [hlen, hlen', List.range'_zero, List.range'_zero]

/-- The least offset with one of two properties is the lesser of their least offsets. -/
theorem firstFrom_or (t : Text) (start : Nat) (p q : Nat → Bool) :
    (t.firstFrom start fun k => p k || q k) =
      match t.firstFrom start p, t.firstFrom start q with
      | some j, some k => some (min j k)
      | some j, none => some j
      | none, k? => k? := by
  cases hp : t.firstFrom start p with
  | none =>
    have hp' := firstFrom_eq_none.mp hp
    cases hq : t.firstFrom start q with
    | none =>
      have hq' := firstFrom_eq_none.mp hq
      rw [firstFrom_eq_none]
      intro k hk hlt
      rw [hp' k hk hlt, hq' k hk hlt, Bool.false_or]
    | some k =>
      obtain ⟨h₁, h₂, hk, hmin⟩ := firstFrom_eq_some.mp hq
      rw [firstFrom_eq_some]
      refine ⟨h₁, h₂, by rw [hk, Bool.or_true], fun l hl hlk => ?_⟩
      rw [hp' l hl (by omega), hmin l hl hlk, Bool.false_or]
  | some j =>
    obtain ⟨h₁, h₂, hj, hmin⟩ := firstFrom_eq_some.mp hp
    cases hq : t.firstFrom start q with
    | none =>
      have hq' := firstFrom_eq_none.mp hq
      rw [firstFrom_eq_some]
      refine ⟨h₁, h₂, by rw [hj, Bool.true_or], fun l hl hlj => ?_⟩
      rw [hmin l hl hlj, hq' l hl (by omega), Bool.false_or]
    | some k =>
      obtain ⟨h₁', h₂', hk, hmin'⟩ := firstFrom_eq_some.mp hq
      rw [firstFrom_eq_some]
      refine ⟨by omega, by omega, ?_, fun l hl hlt => ?_⟩
      · rcases Nat.le_total j k with h | h
        · rw [Nat.min_eq_left h, hj, Bool.true_or]
        · rw [Nat.min_eq_right h, hk, Bool.or_true]
      · rw [hmin l hl (by omega), hmin' l hl (by omega), Bool.false_or]

/-- The search looks no further than the offset that it finds. -/
theorem firstFrom_congr {t t' : Text} {start : Nat} {p p' : Nat → Bool}
    (hlen : t'.length = t.length)
    (h : ∀ k, start ≤ k → k < (t.firstFrom start p).elim t.length (· + 1) → p' k = p k) :
    t'.firstFrom start p' = t.firstFrom start p := by
  cases hj : t.firstFrom start p with
  | none =>
    have hnone := firstFrom_eq_none.mp hj
    rw [hj, Option.elim_none] at h
    rw [firstFrom_eq_none, hlen]
    intro k hk hlt
    rw [h k hk hlt, hnone k hk hlt]
  | some j =>
    obtain ⟨h₁, h₂, hp, hmin⟩ := firstFrom_eq_some.mp hj
    rw [hj, Option.elim_some] at h
    rw [firstFrom_eq_some, hlen]
    refine ⟨h₁, h₂, by rw [h j h₁ (by omega), hp], fun k hk hkj => ?_⟩
    rw [h k hk (by omega), hmin k hk hkj]

/-! ## The end of a line -/

theorem lineEndFrom_of_isLineBreak {t : Text} {i : Nat} (h : isLineBreak (t.byteAt i) = true) :
    t.lineEndFrom i = i := by
  have hi : i < t.length := lt_length_of_byteAt fun h0 => by
    rw [h0] at h
    cases h
  rw [lineEndFrom, drop_eq_byteAt_cons hi, List.takeWhile_cons, h, Nat.min_eq_left (by omega)]
  rfl

theorem lineEndFrom_of_not_isLineBreak {t : Text} {i : Nat} (hi : i < t.length)
    (h : isLineBreak (t.byteAt i) = false) : t.lineEndFrom i = t.lineEndFrom (i + 1) := by
  rw [lineEndFrom, lineEndFrom, drop_eq_byteAt_cons hi, List.takeWhile_cons, h,
    Nat.min_eq_left (by omega), Nat.min_eq_left (by omega)]
  simp only [Bool.not_false, if_true, List.length_cons]
  omega

/-- From an offset of the text on, its line ends in the text and not before the offset. -/
theorem lineEndFrom_bounds {t : Text} {offset : Nat} (h : offset ≤ t.length) :
    offset ≤ t.lineEndFrom offset ∧ t.lineEndFrom offset ≤ t.length := by
  have hle : ((t.drop offset).takeWhile fun b => !isLineBreak b).length ≤ t.length - offset := by
    rw [← List.length_drop]
    exact (List.takeWhile_prefix _).length_le
  rw [lineEndFrom, Nat.min_eq_left h]
  omega

/-- A line ends at the first line break. -/
theorem lineEndFrom_eq {t : Text} {start stop : Nat} (hle : start ≤ stop)
    (h : ∀ k, start ≤ k → k < stop → isLineBreak (t.byteAt k) = false)
    (hstop : isLineBreak (t.byteAt stop) = true) : t.lineEndFrom start = stop := by
  obtain ⟨d, rfl⟩ := Nat.exists_eq_add_of_le hle
  induction d generalizing start with
  | zero => exact lineEndFrom_of_isLineBreak hstop
  | succ d ih =>
    have hlt : start + (d + 1) < t.length := lt_length_of_byteAt fun h0 => by
      rw [h0] at hstop
      cases hstop
    have hsum : start + (d + 1) = start + 1 + d := by omega
    rw [hsum] at h hstop ⊢
    rw [lineEndFrom_of_not_isLineBreak (by omega) (h start (Nat.le_refl _) (by omega))]
    exact ih (by omega) (fun k hk hlt => h k (by omega) hlt) hstop

/-! ## Texts that agree on a stretch -/

/-- The texts have the same bytes from `start` up to, not including, `stop`. -/
def SameBytes (t t' : Text) (start stop : Nat) : Prop :=
  ∀ p, start ≤ p → p < stop → t'.byteAt p = t.byteAt p

/-- Texts agree on any part of what they agree on. -/
theorem SameBytes.mono {t t' : Text} {start start' stop stop' : Nat}
    (h : SameBytes t t' start stop) (hstart : start ≤ start') (hstop : stop' ≤ stop) :
    SameBytes t t' start' stop' :=
  fun p hp hlt => h p (by omega) (by omega)

theorem SameBytes.byteBefore_eq {t t' : Text} {start stop k : Nat}
    (h : SameBytes t t' start stop) (hk : start < k) (hlt : k ≤ stop) :
    t'.byteBefore k = t.byteBefore k := by
  obtain ⟨p, rfl⟩ := Nat.exists_eq_succ_of_ne_zero (by omega : k ≠ 0)
  rw [byteBefore_succ, byteBefore_succ, h p (by omega) (by omega)]

end Text

end StyleSpan
