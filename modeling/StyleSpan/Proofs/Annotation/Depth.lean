import Mathlib.Data.List.Permutation
import StyleSpan.Proofs.Annotation.Scopes
import StyleSpan.Proofs.Log.Lines

/-!
# StyleSpan.Proofs.Annotation.Depth

What a depth limit does to an annotation.  The scope of a node and its bounds are
those of the path to it, limit or not, so that the limit only decides which nodes
are entered: those within it.  The sub-trees one level below are cut, and a cut is
worth one warning in the log however often it happens.

* `entries_annotate_of_limit` — the table is that without a limit, less the deep nodes;
* `cuts_visitsFrom` — the walk cuts the nodes just below the limit, in order;
* `filter_walkMessages` — of all that is logged, only the first cut is more than debugging.
-/

namespace StyleSpan

open Text

/-- The annotator without a depth limit. -/
def Annotator.unlimited (a : Annotator) : Annotator :=
  { a with options := { a.options with maxDepth := 0 } }

/-! ## What is left of the table -/

/-- A limit other than 0 limits the depth. -/
theorem withinDepth_of_pos {limit : Nat} (h : 0 < limit) (depth : Nat) :
    withinDepth limit depth = decide (depth ≤ limit) := by
  rw [withinDepth, decide_eq_false (by omega), Bool.false_or]

/-- Looking a path up in the rows whose path is wanted. -/
private theorem lookup_filter_path (p : Path → Bool) (rows : List (Path × Span)) (path : Path) :
    (rows.filter fun e => p e.1).lookup path = if p path then rows.lookup path else none := by
  induction rows with
  | nil => simp
  | cons e rest ih =>
    obtain ⟨key, span⟩ := e
    rw [List.filter_cons]
    by_cases hkey : path = key
    · subst hkey
      cases hp : p path with
      | true => simp
      | false => simpa [hp] using ih
    · have hne : (path == key) = false := beq_false_of_ne hkey
      cases hp : p key with
      | true => simp [List.lookup_cons, hne, ih]
      | false => simp [List.lookup_cons, hne, ih]

namespace Annotator

variable {a : Annotator} {path : Path}

/-- A limit takes the entries of deeper nodes from the table, and leaves the others. -/
theorem entries_annotate_of_limit (h : 0 < a.options.maxDepth) (root : Node) :
    (a.annotate (some root)).1.table.entries =
      (a.unlimited.annotate (some root)).1.table.entries.filter fun e =>
        e.1.length ≤ a.options.maxDepth := by
  rw [entries_annotate, entries_annotate, List.filter_map, List.filter_filter]
  simp only [unlimited, withinDepth_of_pos h, withinDepth_zero, Bool.true_and, Function.comp_apply]

/-- A limit has no effect on looking up nodes within it. -/
theorem find?_annotate_of_limit (h : 0 < a.options.maxDepth) (root : Node) (path : Path) :
    (a.annotate (some root)).1.table.find? path =
      if path.length ≤ a.options.maxDepth then
        (a.unlimited.annotate (some root)).1.table.find? path
      else none := by
  rw [LocationTable.find?, entries_annotate_of_limit h,
    lookup_filter_path fun p => decide (p.length ≤ a.options.maxDepth)]
  simp only [decide_eq_true_eq, LocationTable.find?]

/-- Within the limit the table is that without one. -/
theorem find?_annotate_of_within (h : withinDepth a.options.maxDepth path.length = true)
    (root : Node) :
    (a.annotate (some root)).1.table.find? path =
      (a.unlimited.annotate (some root)).1.table.find? path := by
  rcases Nat.eq_zero_or_pos a.options.maxDepth with h0 | hpos
  · have hsame : a.unlimited = a := by rw [unlimited, ← h0]
    rw [hsame]
  · rw [withinDepth_of_pos hpos, decide_eq_true_eq] at h
    rw [find?_annotate_of_limit hpos, if_pos h]

end Annotator

/-! ## Where sub-trees are cut -/

private theorem cuts_opening (document : Text) (owner child : Node) (s : Scope) :
    (s.opening document owner child).filter Visit.isCut = [] := by
  rw [Scope.opening]
  split <;> rfl

/-- The nodes of a tree that stand at a depth below its root. -/
def Node.atDepth (n : Node) (depth : Nat) : List Node :=
  (n.preorder.filter fun e => e.1.length = depth).map Prod.snd

theorem Node.atDepth_zero (n : Node) : n.atDepth 0 = [n] := by
  rw [atDepth, preorder_eq, List.filter_cons, List.filter_flatMap]
  simp [List.filter_map]

theorem Node.atDepth_succ (n : Node) (depth : Nat) :
    n.atDepth (depth + 1) = n.children.flatMap fun c => c.atDepth depth := by
  have hchildren : n.children.zipIdx.map Prod.fst = n.children := List.zipIdx_map_fst 0 n.children
  rw [atDepth, preorder_eq, List.filter_cons, List.filter_flatMap]
  conv => rhs; rw [← hchildren, List.flatMap_map]
  simp [List.filter_map, List.map_flatMap, atDepth, Function.comp_def]

/-- The nodes of a depth are those with paths of that length. -/
theorem Node.length_atDepth (n : Node) (depth : Nat) :
    (n.atDepth depth).length = n.preorder.countP fun e => e.1.length = depth := by
  rw [atDepth, List.length_map, List.countP_eq_length_filter]

/-- The walk cuts the nodes one level below the limit, in their order. -/
theorem cuts_visitsFrom {limit depth below : Nat} (hlimit : 0 < limit)
    (h : depth + below = limit + 1) (document : Text) (n : Node) (s : Scope) (path : Path) :
    (n.visitsFrom limit document s depth path).filter Visit.isCut =
      (n.atDepth below).map Visit.cut := by
  -- on the levels that are left down to the cuts
  induction below generalizing n s depth path with
  | zero =>
    have hout : withinDepth limit depth = false := by
      rw [withinDepth_of_pos hlimit]
      exact decide_eq_false (by omega)
    rw [Node.visitsFrom_of_not_within hout, Node.atDepth_zero]
    rfl
  | succ below ih =>
    have hin : withinDepth limit depth = true := by
      rw [withinDepth_of_pos hlimit]
      exact decide_eq_true (by omega)
    have hchildren : n.children.zipIdx.map Prod.fst = n.children := List.zipIdx_map_fst 0 n.children
    rw [Node.visitsFrom_of_within hin, List.filter_cons, List.filter_flatMap, Node.atDepth_succ,
      List.map_flatMap]
    conv => rhs; rw [← hchildren, List.flatMap_map]
    refine List.flatMap_congr fun c _ => ?_
    rw [List.filter_append, cuts_opening, List.nil_append, ih (by omega)]

/-- Cuts are counted at the nodes just below the limit. -/
theorem Annotator.depthCuts_annotate {a : Annotator} (h : 0 < a.options.maxDepth) (root : Node) :
    (a.annotate (some root)).2.depthCuts = (root.atDepth (a.options.maxDepth + 1)).length := by
  have hcuts := cuts_visitsFrom h (Nat.zero_add _) a.document root .document []
  rw [← Node.visits] at hcuts
  rw [annotate, foldl_record, List.countP_eq_length_filter, hcuts, List.length_map]
  exact Nat.zero_add _

/-! ## What is logged -/

/-- A visit logs for debugging only. -/
theorem level_of_mem_messages {document : Text} {v : Visit} {m : Message}
    (h : m ∈ v.messages document) : m.level = .debug := by
  cases v with
  | cut n => cases h
  | entered path s n =>
    rw [Visit.messages] at h
    split at h
    · rw [List.mem_singleton.mp h]
    · cases h
  | opened owner value origin =>
    cases origin <;> rw [List.mem_singleton.mp h]

/-- Of all that is logged about a walk, the warning at its first cut is not for debugging. -/
theorem filter_walkMessages (limit : Nat) (document : Text) (warned : Bool)
    (visits : List Visit) :
    (walkMessages limit document warned visits).filter (fun m => m.level ≠ .debug) =
      if !warned && visits.any Visit.isCut then [depthWarning limit] else [] := by
  induction visits generalizing warned with
  | nil => simp [walkMessages]
  | cons v rest ih =>
    have hquiet : ∀ m ∈ v.messages document, m.level = .debug := fun m => level_of_mem_messages
    rw [walkMessages, List.filter_append, ih, List.any_cons]
    cases warned with
    | true => simpa using hquiet
    | false =>
      cases v.isCut with
      | true => simp [depthWarning]
      | false => simpa using hquiet

/-- The warning about the limit is logged once if there are cuts, and not at all without them. -/
theorem Annotator.filter_messages_annotate (a : Annotator) (root : Node) :
    (a.annotate (some root)).1.messages.filter (fun m => m.level ≠ .debug) =
      if 0 < (a.annotate (some root)).2.depthCuts then [depthWarning a.options.maxDepth]
      else [] := by
  have hcuts : (a.annotate (some root)).2.depthCuts =
      (root.visits a.options.maxDepth a.document).countP Visit.isCut := by
    rw [annotate, foldl_record]
    exact Nat.zero_add _
  rw [hcuts, annotate]
  dsimp only
  rw [List.filter_append, filter_walkMessages]
  simp [summary, List.countP_pos_iff]

/-- The warning is logged once if a sub-tree was cut. -/
theorem Annotator.count_messages_annotate (a : Annotator) (root : Node) :
    (a.annotate (some root)).1.messages.count (depthWarning a.options.maxDepth) =
      if 0 < (a.annotate (some root)).2.depthCuts then 1 else 0 := by
  let messages := (a.annotate (some root)).1.messages
  have hkept : (messages.filter fun m => m.level ≠ .debug).count (depthWarning a.options.maxDepth) =
      messages.count (depthWarning a.options.maxDepth) := List.count_filter rfl
  rw [← hkept, filter_messages_annotate]
  split
  · exact List.count_singleton_self
  · rfl

namespace Annotator

/-- **A depth limit takes away the deep nodes and changes nothing else.**  The table is that
without a limit, less the nodes below the limit; the nodes just below it are counted as cuts;
and if there are any, the log has one warning, which is written once if the default category
lets warnings through. -/
theorem annotate_within_limit (a : Annotator) (root : Node) (h : 0 < a.options.maxDepth) :
    let limit := a.options.maxDepth
    let limited := a.annotate (some root)
    let full := a.unlimited.annotate (some root)
    limited.1.table.entries = full.1.table.entries.filter (fun e => e.1.length ≤ limit) ∧
    (∀ path, limited.1.table.find? path =
      if path.length ≤ limit then full.1.table.find? path else none) ∧
    limited.2.depthCuts = root.preorder.countP (fun e => e.1.length = limit + 1) ∧
    ∀ l : Logger,
      (l.logAll limited.1.messages).store =
        (l.letThrough limited.1.messages).foldl l.appendLine l.store ∧
      (l.letThrough limited.1.messages).count (depthWarning limit) =
        if 0 < limited.2.depthCuts ∧ l.passes Level.warn.rank = true then 1 else 0 := by
  intro limit limited full
  refine ⟨entries_annotate_of_limit h root, find?_annotate_of_limit h root, ?_, fun l => ⟨?_, ?_⟩⟩
  · rw [← Node.length_atDepth]
    exact depthCuts_annotate h root
  · exact l.store_logAll limited.1.messages
  · have hlevel : (depthWarning limit).level = .warn := rfl
    rw [l.count_letThrough, a.count_messages_annotate root, hlevel]
    cases l.passes Level.warn.rank with
    | true => simp only [and_true, if_true, limited]
    | false => simp only [Bool.false_eq_true, and_false, if_false]

/-- A rule that ends with the comment in it. -/
def commentRule : Node where
  toPayload := ({ kind := .rule } : Payload).setStart ⟨1, 1⟩
  nodes :=
    [some { toPayload := ((Payload.comment (ascii "c") false).setStart ⟨1, 3⟩).setStop ⟨1, 7⟩ }]

/-- The rule and a declaration with a value of its own. -/
def commentSheet : Node where
  kind := .root
  nodes := [some commentRule, some {
    toPayload := (Payload.declaration (ascii "w") (ascii ":") (ascii "2")).setStart ⟨1, 9⟩
    parsedValue := some { toPayload := (Payload.valueRoot (ascii "2")).setIndex 0 } }]

/-- Within the limit 1 the rule still ends with its comment, which is cut, as is the value of the
declaration; the default category warns of it once. -/
theorem annotate_commentSheet :
    let a : Annotator := { document := ascii "a\x7b/*c*/\x7dw:2", options := { maxDepth := 1 } }
    let limited := a.annotate (some commentSheet)
    0 < a.options.maxDepth ∧
      (a.unlimited.annotate (some commentSheet)).1.table.entries.map Prod.fst =
        [[0], [0, 0], [1], [1, 0]] ∧
      limited.1.table.entries = [([0], ⟨some 0, some 7⟩), ([1], ⟨some 8, none⟩)] ∧
      limited.2.depthCuts = 2 ∧
      (Logger.letThrough {} limited.1.messages).count (depthWarning 1) = 1 := by
  intro a limited
  have hpos : 0 < a.options.maxDepth := by decide
  obtain ⟨hentries, -, hcuts, hlog⟩ := annotate_within_limit a commentSheet hpos
  have hfull : (a.unlimited.annotate (some commentSheet)).1.table.entries =
      [([0], ⟨some 0, some 7⟩), ([0, 0], ⟨some 2, some 7⟩), ([1], ⟨some 8, none⟩),
        ([1, 0], ⟨some 10, none⟩)] := by cbv
  have hdeep : commentSheet.preorder.countP (fun e => e.1.length = 2) = 2 := by cbv
  have hcount := (hlog {}).2
  have hcuts' : limited.2.depthCuts = 2 := hcuts.trans hdeep
  refine ⟨hpos, by rw [hfull]; rfl, by rw [hentries, hfull]; rfl, hcuts', ?_⟩
  rw [hcuts'] at hcount
  exact hcount

end Annotator

end StyleSpan
