import StyleSpan.Annotation.Table
import StyleSpan.Proofs.Node.Depths
import StyleSpan.Proofs.Text.Recovery

/-!
# StyleSpan.Proofs.Annotation.Outline

The outline of a tree, read back.  It is a row for each node of the enumeration, with
a line feed behind each; and a row tells the depth of its node, the kind, and the span
with its bounds, since each part is made of bytes that the next part does not begin with.

```
spaces   bytes above space   space, bracket   digits or ?   comma, space   digits or ?   parenthesis
indent   kind                  [              start         ,              stop          )
```

The rows of two outlines being equal, so are the depths, and by them the paths.

* `Span.render_injective` — distinct spans are distinct in print;
* `outlineRow_inj` — a row tells what it was made of;
* `outline_eq_flatMap` — an outline is its rows;
* `outline_faithful` — the outline of every tree, and when two are equal.
-/

namespace StyleSpan

open Text

/-! ## Spans in print -/

/-- No byte of a bound in print comes before the digits. -/
theorem le_of_mem_renderBound {bound : Option Nat} {b : UInt8} (h : b ∈ renderBound bound) :
    48 ≤ b := by
  cases bound with
  | none =>
    obtain rfl : b = 63 := List.mem_singleton.mp h
    decide
  | some o => exact UInt8.le_iff_toNat_le.mpr (bounds_of_mem_decimal h).1

/-- Distinct bounds are distinct in print; a question mark is not a digit. -/
theorem renderBound_injective {bound bound' : Option Nat}
    (h : renderBound bound = renderBound bound') : bound = bound' := by
  have hmark : ∀ o, decimal o ≠ renderBound none := by
    intro o heq
    have hmem : (63 : UInt8) ∈ decimal o := heq ▸ List.mem_singleton_self 63
    exact absurd (bounds_of_mem_decimal hmem).2 (by decide)
  cases bound with
  | none =>
    cases bound' with
    | none => rfl
    | some o' => exact absurd h.symm (hmark o')
  | some o =>
    cases bound' with
    | none => exact absurd h (hmark o)
    | some o' => rw [decimal_injective h]

/-- A bound in print ends where the bytes of digits and question marks do. -/
theorem renderBound_append_inj {bound bound' : Option Nat} {t t' : Text}
    (ht : ∀ b ∈ t.head?, b < 48) (ht' : ∀ b ∈ t'.head?, b < 48)
    (h : renderBound bound ++ t = renderBound bound' ++ t') : bound = bound' ∧ t = t' := by
  have hbound : ∀ o, ∀ b ∈ renderBound o, decide (48 ≤ b) = true := fun o b hb =>
    decide_eq_true (le_of_mem_renderBound hb)
  have hrest : ∀ s : Text, (∀ b ∈ s.head?, b < 48) → ∀ b ∈ s.head?, decide (48 ≤ b) = false :=
    fun s hs b hb => decide_eq_false (UInt8.not_le.mpr (hs b hb))
  obtain ⟨hread, hleft⟩ :=
    append_inj_of_head? (hbound bound) (hbound bound') (hrest t ht) (hrest t' ht') h
  exact ⟨renderBound_injective hread, hleft⟩

namespace Span

/-- The parts of a span in print, one behind the other. -/
theorem render_eq (s : Span) : s.render =
    ascii " [" ++ (renderBound s.start ++ (ascii ", " ++ (renderBound s.stop ++ ascii ")"))) := by
  simp only [render, List.append_assoc]

/-- Distinct spans are distinct in print. -/
theorem render_injective {s s' : Span} (h : s.render = s'.render) : s = s' := by
  have hcomma : ∀ t, ∀ b ∈ (ascii ", " ++ t).head?, b < 48 := by
    rintro t b ⟨⟩
    decide
  have hclose : ∀ b ∈ (ascii ")").head?, b < 48 := by
    rintro b ⟨⟩
    decide
  rw [render_eq, render_eq] at h
  obtain ⟨hstart, h⟩ :=
    renderBound_append_inj (hcomma _) (hcomma _) (List.append_cancel_left h)
  obtain ⟨hstop, -⟩ := renderBound_append_inj hclose hclose (List.append_cancel_left h)
  obtain ⟨start, stop⟩ := s
  obtain ⟨start', stop'⟩ := s'
  exact congrArg₂ Span.mk hstart hstop

/-- A span in print holds no control byte. -/
theorem le_of_mem_render {s : Span} {b : UInt8} (h : b ∈ s.render) : space ≤ b := by
  have hphrases : ∀ b ∈ ascii " [" ++ ascii ", " ++ ascii ")", space ≤ b := by decide +kernel
  have hbound : ∀ {o}, b ∈ renderBound o → space ≤ b := fun hb =>
    UInt8.le_trans (by decide) (le_of_mem_renderBound hb)
  simp only [render_eq, List.mem_append] at h hphrases
  rcases h with h | h | h | h | h
  · exact hphrases b (.inl (.inl h))
  · exact hbound h
  · exact hphrases b (.inl (.inr h))
  · exact hbound h
  · exact hphrases b (.inr h)

end Span

/-! ## Kinds in print -/

namespace Kind

private theorem name_bytes_of_mem : ∀ k ∈ all, k.name ≠ [] ∧ ∀ b ∈ k.name, space < b := by
  decide +kernel

/-- Names of kinds hold no blank and no control byte. -/
theorem lt_of_mem_name {k : Kind} {b : UInt8} (h : b ∈ k.name) : space < b :=
  (name_bytes_of_mem k (mem_all k)).2 b h

/-- What begins with a kind does not begin with a space. -/
theorem lt_of_mem_head? {k : Kind} {t : Text} : ∀ b ∈ (k.name ++ t).head?, space < b := by
  intro b hb
  obtain ⟨c, more, hk⟩ := List.exists_cons_of_ne_nil (name_bytes_of_mem k (mem_all k)).1
  rw [hk] at hb
  obtain rfl : c = b := Option.some.inj hb
  exact lt_of_mem_name (hk ▸ List.mem_cons_self)

end Kind

/-! ## Rows -/

/-- The line of a node in an outline, without its line feed. -/
def outlineRow (depth : Nat) (kind : Kind) (span : Option Span) : Text :=
  List.replicate (2 * depth) space ++ (kind.name ++ (span.map Span.render).getD [])

variable {depth depth' : Nat} {kind kind' : Kind} {span span' : Option Span}

theorem outlineLine_eq (depth : Nat) (kind : Kind) (span : Option Span) :
    outlineLine depth kind span = outlineRow depth kind span ++ [lf] := by
  simp only [outlineLine, outlineRow, List.append_assoc]

/-- A row is one line. -/
theorem lf_not_mem_outlineRow (depth : Nat) (kind : Kind) (span : Option Span) :
    lf ∉ outlineRow depth kind span := by
  intro h
  have hlow : space ≤ lf := by
    rcases List.mem_append.mp h with h | h
    · exact (List.eq_of_mem_replicate h).symm ▸ UInt8.le_refl space
    · rcases List.mem_append.mp h with h | h
      · exact UInt8.le_of_lt (Kind.lt_of_mem_name h)
      · cases span with
        | none => cases h
        | some s => exact Span.le_of_mem_render h
  exact absurd hlow (by decide)

/-- A span begins with a space, where there is one. -/
theorem head?_span : ∀ b ∈ ((span.map Span.render).getD []).head?, b = space := by
  intro b hb
  cases span with
  | none => cases hb
  | some s => exact (Option.some.inj hb).symm

/-- Spans are told apart in print, and from no span. -/
theorem span_injective
    (h : (span.map Span.render).getD [] = (span'.map Span.render).getD []) : span = span' := by
  cases span with
  | none =>
    cases span' with
    | none => rfl
    | some s' => cases h
  | some s =>
    cases span' with
    | none => cases h
    | some s' => rw [Span.render_injective h]

/-- A row tells the depth, the kind and the span. -/
theorem outlineRow_inj (h : outlineRow depth kind span = outlineRow depth' kind' span') :
    depth = depth' ∧ kind = kind' ∧ span = span' := by
  have hindent : ∀ n, ∀ b ∈ List.replicate n space, decide (b = space) = true := fun n b hb =>
    decide_eq_true (List.eq_of_mem_replicate hb)
  have hfirst : ∀ (k : Kind) (t : Text), ∀ b ∈ (k.name ++ t).head?, decide (b = space) = false :=
    fun k t b hb => decide_eq_false (UInt8.ne_of_lt (Kind.lt_of_mem_head? b hb)).symm
  have hname : ∀ (k : Kind), ∀ b ∈ k.name, decide (space < b) = true := fun k b hb =>
    decide_eq_true (Kind.lt_of_mem_name hb)
  have hspan : ∀ o : Option Span,
      ∀ b ∈ ((o.map Span.render).getD []).head?, decide (space < b) = false := fun o b hb =>
    decide_eq_false (head?_span b hb ▸ UInt8.lt_irrefl space)
  obtain ⟨hspaces, h⟩ := append_inj_of_head? (hindent _) (hindent _) (hfirst _ _) (hfirst _ _) h
  obtain ⟨hkind, h⟩ := append_inj_of_head? (hname _) (hname _) (hspan _) (hspan _) h
  have hlength := congrArg List.length hspaces
  rw [List.length_replicate, List.length_replicate] at hlength
  exact ⟨Nat.eq_of_mul_eq_mul_left (by decide) hlength, Kind.name_injective hkind, span_injective h⟩

namespace Node

/-! ## Outlines -/

/-- The rows of an outline, one for each node of the enumeration. -/
def outlineRows (table : LocationTable) (n : Node) : List Text :=
  n.preorder.map fun e => outlineRow e.1.length e.2.kind (table.find? e.1)

/-- The outline goes through the preorder. -/
theorem outlineFrom_eq_flatMap (table : LocationTable) (n : Node) (path : Path) :
    n.outlineFrom table path = (n.preorderFrom path).flatMap fun e =>
      outlineLine e.1.length e.2.kind (table.find? e.1) := by
  induction n using induct generalizing path with
  | step n ih =>
    rw [outlineFrom_eq, preorderFrom_eq, List.flatMap_cons, List.flatMap_assoc]
    congr 1
    exact List.flatMap_congr fun c hc => ih c.1 (List.fst_mem_of_mem_zipIdx hc) (path ++ [c.2])

/-- An outline is its rows, with a line feed behind each. -/
theorem outline_eq_flatMap (table : LocationTable) (n : Node) :
    n.outline table = (n.outlineRows table).flatMap (· ++ [lf]) := by
  rw [outline, outlineFrom_eq_flatMap, outlineRows, List.flatMap_map]
  simp only [outlineLine_eq]
  rfl

theorem lf_not_mem_of_mem_outlineRows {table : LocationTable} {n : Node} :
    ∀ row ∈ n.outlineRows table, lf ∉ row := by
  intro row hrow
  obtain ⟨e, -, rfl⟩ := List.mem_map.mp hrow
  exact lf_not_mem_outlineRow _ _ _

/-- The lines of an outline are its rows, and what stands behind the last line feed. -/
theorem lines_outline (table : LocationTable) (n : Node) :
    (n.outline table).lines = n.outlineRows table ++ [[]] := by
  rw [outline_eq_flatMap, lines_flatMap_lf lf_not_mem_of_mem_outlineRows]

/-- There is one row for each node. -/
theorem length_outlineRows (table : LocationTable) (n : Node) :
    (n.outlineRows table).length = n.count := by
  rw [outlineRows, List.length_map, length_preorder]

/-- Outlines are equal if their rows are. -/
theorem outline_eq_iff_outlineRows {n n' : Node} {table table' : LocationTable} :
    n.outline table = n'.outline table' ↔ n.outlineRows table = n'.outlineRows table' := by
  constructor
  · intro h
    have hlines := congrArg Text.lines h
    rwa [lines_outline, lines_outline, List.append_cancel_right_eq] at hlines
  · intro h
    rw [outline_eq_flatMap, outline_eq_flatMap, h]

/-- Rows are equal just when what they tell is. -/
theorem outlineRows_eq_iff {n n' : Node} {table table' : LocationTable} :
    n.outlineRows table = n'.outlineRows table' ↔
      n.preorder.map (fun e => (e.1.length, e.2.kind, table.find? e.1)) =
        n'.preorder.map fun e => (e.1.length, e.2.kind, table'.find? e.1) := by
  have hrows : ∀ (m : Node) (t : LocationTable), m.outlineRows t =
      (m.preorder.map fun e => (e.1.length, e.2.kind, t.find? e.1)).map
        fun told => outlineRow told.1 told.2.1 told.2.2 := by
    intro m t
    rw [outlineRows, List.map_map]
    rfl
  rw [hrows, hrows, List.map_inj_right]
  rintro ⟨depth, kind, span⟩ ⟨depth', kind', span'⟩ h
  obtain ⟨rfl, rfl, rfl⟩ := outlineRow_inj h
  rfl

/-- **An outline is faithful and unambiguous.**  It has a line for each node of the tree, and the
lines are, in the order of the enumeration, the rows of the nodes: two spaces for each level of the
depth, the kind, and the span if the table has one.  Two outlines are equal just when the same paths
lead to nodes in both trees, and at each of them both nodes are of one kind and both tables have the
same span or none. -/
theorem outline_faithful (n : Node) (table : LocationTable) :
    (n.outline table).count lf = n.count ∧
    (n.outline table).lines =
      (n.preorder.map fun e => outlineRow e.1.length e.2.kind (table.find? e.1)) ++ [[]] ∧
    n.preorder.length = n.count ∧
    ∀ (n' : Node) (table' : LocationTable), n.outline table = n'.outline table' ↔
      ∀ path, (n.at? path).map (fun m => (m.kind, table.find? path)) =
        (n'.at? path).map fun m => (m.kind, table'.find? path) := by
  refine ⟨?_, lines_outline table n, length_preorder n, fun n' table' => ?_⟩
  · rw [outline_eq_flatMap, count_flatMap_lf lf_not_mem_of_mem_outlineRows, length_outlineRows]
  · rw [outline_eq_iff_outlineRows, outlineRows_eq_iff]
    exact map_depth_preorder_eq_iff (fun path m => (m.kind, table.find? path))
      fun path m => (m.kind, table'.find? path)

end Node

end StyleSpan
