import StyleSpan.Annotation.Annotator
import StyleSpan.Proofs.Node.Preorder

/-!
# StyleSpan.Proofs.Annotation.Scopes

The table of a tree, told by paths.  The walk carries its scope from a node to
the children; the scope that it has when it comes to a node is a matter of the
path to that node alone: the document as long as no value root was met below
the root of the tree (`InDocument`), otherwise the text of the outermost value
root, moved by what its owner says (`ScopeOf`).

* `entries_visitsFrom` — the entries of a walk, by the enumeration of the tree;
* `along_of_inDocument` / `along_of_scopeOf` — the scope at the end of a path;
* `mem_entries_annotate` — the table has the declared spans of the nodes with a source.
-/

namespace StyleSpan

open Text

/-! ## The scope at the end of a path -/

/-- The scope at the end of a path that leads down from `n`, if `n` is in scope `s`. -/
def Scope.along (document : Text) (n : Node) (s : Scope) : Path → Scope
  | [] => s
  | i :: rest =>
    match n.children[i]? with
    | some c => (s.below document n c).along document c rest
    | none => s

namespace Scope

variable {document : Text} {n c m : Node}

theorem along_cons {i : Nat} (h : n.children[i]? = some c) (s : Scope) (rest : Path) :
    s.along document n (i :: rest) = (s.below document n c).along document c rest := by
  rw [along, h]

/-- The scope at the end of two paths is that of the second, begun in that of the first. -/
theorem along_append {p : Path} (h : n.at? p = some m) (s : Scope) (q : Path) :
    s.along document n (p ++ q) = (s.along document n p).along document m q := by
  induction p generalizing n s with
  | nil =>
    cases h
    rfl
  | cons i rest ih =>
    obtain ⟨c, hc, hm⟩ := Option.bind_eq_some_iff.mp h
    rw [List.cons_append, along_cons hc, along_cons hc, ih hm]

/-- The scope of a value is kept in all that is below. -/
theorem along_value (n : Node) (text : Text) (origin : Option Nat) (path : Path) :
    (Scope.value text origin).along document n path = .value text origin := by
  induction path generalizing n with
  | nil => rfl
  | cons i rest ih =>
    rw [along]
    split
    · exact ih _
    · rfl

end Scope

/-! ## The entries of a walk -/

/-- Below a node that is too deep all nodes are. -/
theorem withinDepth_add {limit depth : Nat} (h : withinDepth limit depth = false) (k : Nat) :
    withinDepth limit (depth + k) = false := by
  simp only [withinDepth, Bool.or_eq_false_iff, decide_eq_false_iff_not] at h ⊢
  exact ⟨h.1, by omega⟩

@[simp] theorem withinDepth_zero (depth : Nat) : withinDepth 0 depth = true := rfl

private theorem entries_opening (document : Text) (owner child : Node) (s : Scope) :
    (s.opening document owner child).filterMap (Visit.entry? document) = [] := by
  rw [Scope.opening]
  split <;> rfl

/-- The entries of the nodes of a tree at a depth and a path: one for each node
with a source within the limit, in the order of the enumeration, with the span
in the scope at the end of the path to the node. -/
def Node.entriesBelow (limit : Nat) (document : Text) (n : Node) (s : Scope) (depth : Nat)
    (path : Path) : List (Path × Span) :=
  (n.preorder.filter fun e => withinDepth limit (depth + e.1.length) && e.2.source.isSome).map
    fun e => (path ++ e.1, (s.along document n e.1).spanOf document e.2)

/-- A node that is too deep has no entries below it. -/
theorem entriesBelow_of_not_within {limit depth : Nat} (h : withinDepth limit depth = false)
    (document : Text) (n : Node) (s : Scope) (path : Path) :
    n.entriesBelow limit document s depth path = [] := by
  rw [Node.entriesBelow, List.map_eq_nil_iff, List.filter_eq_nil_iff]
  intro e _
  rw [withinDepth_add h, Bool.false_and]
  exact Bool.false_ne_true

/-- Within the limit a node has its own entry and those below its children. -/
theorem entriesBelow_of_within {limit depth : Nat} (h : withinDepth limit depth = true)
    (document : Text) (n : Node) (s : Scope) (path : Path) :
    n.entriesBelow limit document s depth path =
      (if n.source.isSome then [(path, s.spanOf document n)] else []) ++
        n.children.zipIdx.flatMap fun c =>
          c.1.entriesBelow limit document (s.below document n c.1) (depth + 1) (path ++ [c.2]) := by
  -- the entries below a child, by the paths from the child on
  have hchild : ∀ c ∈ n.children.zipIdx,
      ((c.1.preorder.map fun e => (c.2 :: e.1, e.2)).filter fun e =>
          withinDepth limit (depth + e.1.length) && e.2.source.isSome).map
        (fun e => (path ++ e.1, (s.along document n e.1).spanOf document e.2)) =
      c.1.entriesBelow limit document (s.below document n c.1) (depth + 1) (path ++ [c.2]) := by
    intro c hc
    have hget : n.children[c.2]? = some c.1 := List.mem_zipIdx_iff_getElem?.mp hc
    have hdepth : ∀ e : Path × Node, depth + (e.1.length + 1) = depth + 1 + e.1.length := by
      intro e
      omega
    rw [Node.entriesBelow, List.filter_map, List.map_map]
    simp only [Function.comp_def, List.length_cons, hdepth, Scope.along_cons hget,
      List.append_assoc, List.singleton_append]
  rw [Node.entriesBelow, Node.preorder_eq, List.filter_cons, List.filter_flatMap]
  simp only [List.length_nil, Nat.add_zero, h, Bool.true_and]
  cases n.source.isSome with
  | false =>
    rw [if_neg Bool.false_ne_true, if_neg Bool.false_ne_true, List.nil_append, List.map_flatMap]
    exact List.flatMap_congr hchild
  | true =>
    rw [if_pos rfl, if_pos rfl, List.map_cons, List.append_nil, List.map_flatMap,
      List.flatMap_congr hchild]
    rfl

/-- A walk makes the entries below the node that it starts from. -/
theorem entries_visitsFrom (limit : Nat) (document : Text) (n : Node) (s : Scope) (depth : Nat)
    (path : Path) :
    (n.visitsFrom limit document s depth path).filterMap (Visit.entry? document) =
      n.entriesBelow limit document s depth path := by
  induction n using Node.induct generalizing s depth path with
  | step n ih =>
    cases hin : withinDepth limit depth with
    | false =>
      rw [Node.visitsFrom_of_not_within hin, entriesBelow_of_not_within hin]
      rfl
    | true =>
      have hbelow : ∀ c ∈ n.children.zipIdx,
          (s.opening document n c.1 ++ c.1.visitsFrom limit document (s.below document n c.1)
              (depth + 1) (path ++ [c.2])).filterMap (Visit.entry? document) =
            c.1.entriesBelow limit document (s.below document n c.1) (depth + 1)
              (path ++ [c.2]) := by
        intro c hc
        rw [List.filterMap_append, entries_opening, List.nil_append,
          ih c.1 (List.fst_mem_of_mem_zipIdx hc)]
      rw [Node.visitsFrom_of_within hin, entriesBelow_of_within hin, List.filterMap_cons,
        List.filterMap_flatMap, List.flatMap_congr hbelow, Visit.entry?]
      cases n.source.isSome with
      | false => rfl
      | true => rfl

/-- The table of a tree: an entry for each node with a source within the limit. -/
theorem Annotator.entries_annotate (a : Annotator) (root : Node) :
    (a.annotate (some root)).1.table.entries =
      (root.preorder.filter fun e =>
          withinDepth a.options.maxDepth e.1.length && e.2.source.isSome).map fun e =>
        (e.1, (Scope.document.along a.document root e.1).spanOf a.document e.2) := by
  have hentries := entries_visitsFrom a.options.maxDepth a.document root .document 0 []
  rw [Node.entriesBelow] at hentries
  simp only [Nat.zero_add, List.nil_append] at hentries
  exact hentries

/-! ## What a path leads through -/

namespace Node

variable {document : Text} {root n owner value : Node} {path : Path}

/-- No value root stands at the end of a path or on the way to it, the root of
the tree apart. -/
def InDocument (root : Node) (path : Path) : Prop :=
  ∀ front m, front ≠ [] → front <+: path → root.at? front = some m → m.isValueRoot = false

/-- `value` is the outermost value root on a path, the root of the tree apart,
and `owner` the node above it. -/
def ScopeOf (root : Node) (path : Path) (owner value : Node) : Prop :=
  ∃ above i below, path = above ++ i :: below ∧ root.InDocument above ∧
    root.at? above = some owner ∧ owner.children[i]? = some value ∧ value.isValueRoot = true

/-- The root is a node of the document. -/
theorem inDocument_nil (root : Node) : root.InDocument [] := by
  intro front m hne hpre
  exact absurd (List.prefix_nil.mp hpre) hne

/-- A node below a child is one of the document if the child opens no value and it is one below the
child. -/
theorem inDocument_cons {i : Nat} {rest : Path} {c : Node} (hc : n.children[i]? = some c) :
    n.InDocument (i :: rest) ↔ c.isValueRoot = false ∧ c.InDocument rest := by
  constructor
  · intro h
    refine ⟨h [i] c (by simp) (by simp) (by rw [at?_cons, hc]; rfl), fun front m hne hpre hm => ?_⟩
    refine h (i :: front) m (by simp) (List.cons_prefix_cons.mpr ⟨rfl, hpre⟩) ?_
    rw [at?_cons, hc]
    exact hm
  · rintro ⟨hroot, hrest⟩ front m hne hpre hm
    cases front with
    | nil => exact absurd rfl hne
    | cons k front =>
      obtain ⟨rfl, hpre'⟩ := List.cons_prefix_cons.mp hpre
      rw [at?_cons, hc, Option.bind_some] at hm
      by_cases hnil : front = []
      · subst hnil
        cases hm
        exact hroot
      · exact hrest front m hnil hpre' hm

/-- A step to a node that is no value root stays in the document. -/
theorem inDocument_concat {i : Nat} {c : Node} (hat : root.at? path = some n)
    (hc : n.children[i]? = some c) (hvalue : c.isValueRoot = false) (h : root.InDocument path) :
    root.InDocument (path ++ [i]) := by
  intro front m hne hpre hm
  rcases List.prefix_concat_iff.mp hpre with rfl | hpre
  · rw [at?_append, hat, Option.bind_some, at?_cons, hc] at hm
    cases hm
    exact hvalue
  · exact h front m hne hpre hm

/-- A path into a value stays in it. -/
theorem scopeOf_append (h : root.ScopeOf path owner value) (q : Path) :
    root.ScopeOf (path ++ q) owner value := by
  obtain ⟨above, i, below, rfl, habove, hat, hget, hvalue⟩ := h
  have hpath : (above ++ i :: below) ++ q = above ++ i :: (below ++ q) := by
    rw [List.append_assoc, List.cons_append]
  exact ⟨above, i, below ++ q, hpath, habove, hat, hget, hvalue⟩

/-- A path into a value has left the document. -/
theorem not_inDocument_of_scopeOf (h : root.ScopeOf path owner value) : ¬ root.InDocument path := by
  obtain ⟨above, i, below, rfl, -, hat, hget, hvalue⟩ := h
  intro hin
  have hfalse : value.isValueRoot = false := by
    refine hin (above ++ [i]) value (by simp) ⟨below, by simp⟩ ?_
    rw [at?_append, hat, Option.bind_some, at?_cons, hget]
    rfl
  rw [hvalue] at hfalse
  cases hfalse

/-- The root stands in no value. -/
theorem not_scopeOf_nil : ¬ root.ScopeOf [] owner value := by
  rintro ⟨above, i, below, h, -⟩
  cases above <;> cases h

/-- The first step of a path into a value leads to the value root, or to a node above it. -/
theorem scopeOf_cons {i : Nat} {rest : Path} {c : Node} (hc : n.children[i]? = some c) :
    n.ScopeOf (i :: rest) owner value ↔
      c.isValueRoot = true ∧ n = owner ∧ c = value ∨
        c.isValueRoot = false ∧ c.ScopeOf rest owner value := by
  constructor
  · rintro ⟨above, k, below, hpath, habove, hat, hget, hvalue⟩
    cases above with
    | nil =>
      cases hpath
      cases hat
      cases hc.symm.trans hget
      exact .inl ⟨hvalue, rfl, rfl⟩
    | cons j above =>
      cases hpath
      rw [at?_cons, hc] at hat
      obtain ⟨hroot, habove⟩ := (inDocument_cons hc).mp habove
      exact .inr ⟨hroot, above, k, below, rfl, habove, hat, hget, hvalue⟩
  · rintro (⟨hvalue, rfl, rfl⟩ | ⟨hroot, above, k, below, rfl, habove, hat, hget, hvalue⟩)
    · exact ⟨[], i, rest, rfl, inDocument_nil n, rfl, hc, hvalue⟩
    · refine ⟨i :: above, k, below, rfl, (inDocument_cons hc).mpr ⟨hroot, habove⟩, ?_, hget, hvalue⟩
      rw [at?_cons, hc]
      exact hat

/-- A path that leads somewhere stays in the document or comes to a value root. -/
theorem inDocument_or_scopeOf (h : root.at? path = some n) :
    root.InDocument path ∨ ∃ owner value, root.ScopeOf path owner value := by
  induction path generalizing root with
  | nil => exact .inl (inDocument_nil root)
  | cons i rest ih =>
    obtain ⟨c, hc, hn⟩ := Option.bind_eq_some_iff.mp h
    cases hv : c.isValueRoot with
    | true => exact .inr ⟨root, c, [], i, rest, rfl, inDocument_nil root, rfl, hc, hv⟩
    | false =>
      rcases ih hn with hin | ⟨owner, value, above, k, below, rfl, habove, hat, hget, hvalue⟩
      · exact .inl ((inDocument_cons hc).mpr ⟨hv, hin⟩)
      · refine .inr ⟨owner, value, i :: above, k, below, rfl, ?_, ?_, hget, hvalue⟩
        · exact (inDocument_cons hc).mpr ⟨hv, habove⟩
        · rw [at?_cons, hc]
          exact hat

end Node

namespace Scope

variable {document : Text} {root n owner value : Node} {path : Path}

/-- A value places its nodes in its own text. -/
theorem below_of_isValueRoot {c : Node} (hvalue : c.isValueRoot = true) (document : Text)
    (owner : Node) : Scope.document.below document owner c =
      .value c.valueText (originOf document owner) := by
  rw [below, opensAt, if_pos hvalue]

/-- Other nodes place theirs in the document. -/
theorem below_of_not_isValueRoot {c : Node} (hvalue : c.isValueRoot = false) (document : Text)
    (owner : Node) : Scope.document.below document owner c = .document := by
  rw [below, opensAt, hvalue, if_neg Bool.false_ne_true]

/-- On a path that stays in the document, so does the walk. -/
theorem along_of_inDocument (h : root.InDocument path) :
    Scope.document.along document root path = .document := by
  induction path generalizing root with
  | nil => rfl
  | cons i rest ih =>
    rw [along]
    split
    · rename_i c hc
      obtain ⟨hv, hrest⟩ := (Node.inDocument_cons hc).mp h
      rw [below_of_not_isValueRoot hv, ih hrest]
    · rfl

/-- At and below an outermost value root the walk is in the scope of that value. -/
theorem along_of_scopeOf (h : root.ScopeOf path owner value) :
    Scope.document.along document root path =
      .value value.valueText (originOf document owner) := by
  obtain ⟨above, i, below, rfl, habove, hat, hget, hvalue⟩ := h
  rw [along_append hat, along_of_inDocument habove, along_cons hget, below_of_isValueRoot hvalue,
    along_value]

end Scope

/-! ## The declared spans -/

/-- The span that the node `n` at `path` is to have: in the document its own
bounds; in a value its bounds in the text of the value, moved by the offset of
the value that the start of the owner gives; nothing is known in a value whose
owner has no start. -/
inductive DeclaredSpan (document : Text) (root : Node) (path : Path) (n : Node) : Span → Prop where
  | document (h : root.InDocument path) :
      DeclaredSpan document root path n ⟨n.startIn document, n.stopIn document⟩
  | value {owner value : Node} {start : Nat} (h : root.ScopeOf path owner value)
      (hstart : owner.startIn document = some start) :
      DeclaredSpan document root path n
        ⟨(n.startIn value.valueText).map fun o => (o + owner.valueOffset start) % Offset.modulus,
          (n.stopIn value.valueText).map fun o => (o + owner.valueOffset start) % Offset.modulus⟩
  | unknown {owner value : Node} (h : root.ScopeOf path owner value)
      (hstart : owner.startIn document = none) :
      DeclaredSpan document root path n ⟨none, none⟩

/-- The declared span of a node is its span in the scope at the end of its path, and it has no
other. -/
theorem declaredSpan_iff {document : Text} {root n : Node} {path : Path}
    (h : root.at? path = some n) {span : Span} :
    DeclaredSpan document root path n span ↔
      (Scope.document.along document root path).spanOf document n = span := by
  have sound : ∀ {span}, DeclaredSpan document root path n span →
      (Scope.document.along document root path).spanOf document n = span := by
    intro span hspan
    cases hspan with
    | document hin =>
      rw [Scope.along_of_inDocument hin]
      rfl
    | value hscope hstart =>
      rw [Scope.along_of_scopeOf hscope, Scope.originOf, hstart]
      rfl
    | unknown hscope hstart =>
      rw [Scope.along_of_scopeOf hscope, Scope.originOf, hstart]
      rfl
  refine ⟨sound, ?_⟩
  -- a path that leads to a node has a declared span, and by `sound` it is that of the walk
  have hexists : ∃ declared, DeclaredSpan document root path n declared := by
    rcases Node.inDocument_or_scopeOf h with hin | ⟨owner, value, hscope⟩
    · exact ⟨_, .document hin⟩
    · cases hstart : owner.startIn document with
      | none => exact ⟨_, .unknown hscope hstart⟩
      | some start => exact ⟨_, .value hscope hstart⟩
  rintro rfl
  obtain ⟨declared, hd⟩ := hexists
  rw [sound hd]
  exact hd

/-! ## The table -/

/-- In a table without repeated paths, looking up a path finds its entry. -/
theorem LocationTable.find?_eq_some_iff {t : LocationTable}
    (hnodup : (t.entries.map Prod.fst).Nodup) {path : Path} {span : Span} :
    t.find? path = some span ↔ (path, span) ∈ t.entries := by
  rw [LocationTable.find?, List.lookup_eq_some_iff]
  constructor
  · rintro ⟨front, back, heq, -⟩
    rw [heq]
    exact List.mem_append_right _ List.mem_cons_self
  · intro h
    obtain ⟨front, back, heq⟩ := List.append_of_mem h
    refine ⟨front, back, heq, fun e he => ?_⟩
    rw [heq, List.map_append, List.map_cons, List.nodup_append] at hnodup
    have hne : e.1 ≠ path := hnodup.2.2 e.1 (List.mem_map_of_mem he) path List.mem_cons_self
    exact bne_iff_ne.mpr (Ne.symm hne)

namespace Annotator

variable {a : Annotator} {root : Node} {path : Path}

/-- No path has two entries. -/
theorem nodup_entries_annotate (a : Annotator) (root : Node) :
    ((a.annotate (some root)).1.table.entries.map Prod.fst).Nodup := by
  rw [entries_annotate, List.map_map]
  exact (root.nodup_preorder_paths).sublist (List.filter_sublist.map Prod.fst)

/-- Without a depth limit the entries are the nodes with a source, each with its declared span. -/
theorem mem_entries_annotate (hdepth : a.options.maxDepth = 0) {span : Span} :
    (path, span) ∈ (a.annotate (some root)).1.table.entries ↔
      ∃ n, root.at? path = some n ∧ n.source.isSome = true ∧
        DeclaredSpan a.document root path n span := by
  rw [entries_annotate, hdepth, List.mem_map]
  constructor
  · rintro ⟨⟨p, n⟩, he, heq⟩
    obtain ⟨hmem, hsource⟩ := List.mem_filter.mp he
    obtain ⟨rfl, hspan⟩ := Prod.mk.inj heq
    have hat := Node.mem_preorder_iff.mp hmem
    exact ⟨n, hat, by simpa using hsource, (declaredSpan_iff hat).mpr hspan⟩
  · rintro ⟨n, hat, hsource, hspan⟩
    have hmem := Node.mem_preorder_iff.mpr hat
    refine ⟨(path, n), List.mem_filter.mpr ⟨hmem, by simpa using hsource⟩, ?_⟩
    rw [(declaredSpan_iff hat).mp hspan]

/-- What is found at a path is the declared span of the node there. -/
theorem find?_annotate (hdepth : a.options.maxDepth = 0) {span : Span} :
    (a.annotate (some root)).1.table.find? path = some span ↔
      ∃ n, root.at? path = some n ∧ n.source.isSome = true ∧
        DeclaredSpan a.document root path n span := by
  rw [LocationTable.find?_eq_some_iff (nodup_entries_annotate a root), mem_entries_annotate hdepth]

/-- Without a depth limit the paths of the entries are those of the nodes with a source. -/
theorem keys_annotate (hdepth : a.options.maxDepth = 0) :
    path ∈ (a.annotate (some root)).1.table.entries.map Prod.fst ↔
      ∃ n, root.at? path = some n ∧ n.source.isSome = true := by
  rw [List.mem_map]
  constructor
  · rintro ⟨⟨p, span⟩, he, rfl⟩
    obtain ⟨n, hat, hsource, -⟩ := (mem_entries_annotate hdepth).mp he
    exact ⟨n, hat, hsource⟩
  · rintro ⟨n, hat, hsource⟩
    have hspan : DeclaredSpan a.document root path n _ := (declaredSpan_iff hat).mpr rfl
    exact ⟨(path, _), (mem_entries_annotate hdepth).mpr ⟨n, hat, hsource, hspan⟩, rfl⟩

/-- Without a depth limit all nodes but those without a source have an entry. -/
theorem size_annotate (hdepth : a.options.maxDepth = 0) :
    (a.annotate (some root)).1.table.size + root.preorder.countP (fun e => e.2.source.isNone) =
      root.count := by
  have hsize : (a.annotate (some root)).1.table.size =
      root.preorder.countP fun e => e.2.source.isSome := by
    rw [LocationTable.size, entries_annotate, hdepth, List.length_map, List.countP_eq_length_filter]
    simp only [withinDepth_zero, Bool.true_and]
  rw [hsize, ← Node.length_preorder, List.length_eq_countP_add_countP fun e => e.2.source.isSome]
  congr 1
  refine List.countP_congr fun e _ => ?_
  simp

/-- Without a depth limit the table of a tree has one entry for each node with a
source, with the declared span. -/
theorem annotate_eq_declared (a : Annotator) (root : Node) (hdepth : a.options.maxDepth = 0) :
    let table := (a.annotate (some root)).1.table
    (table.entries.map Prod.fst).Nodup ∧
    (∀ path, path ∈ table.entries.map Prod.fst ↔
      ∃ n, root.at? path = some n ∧ n.source.isSome = true) ∧
    (∀ path span, table.find? path = some span ↔
      ∃ n, root.at? path = some n ∧ n.source.isSome = true ∧
        DeclaredSpan a.document root path n span) ∧
    table.size + root.preorder.countP (fun e => e.2.source.isNone) = root.count :=
  ⟨nodup_entries_annotate a root, fun _ => keys_annotate hdepth,
    fun _ _ => find?_annotate hdepth, size_annotate hdepth⟩

/-- A value that is placed in its own text. -/
def widthValue : Node where
  toPayload := ((Payload.valueRoot (ascii "2px")).setIndex 0).setStop ⟨1, 3⟩

/-- The second declaration of `a:1;w: 2px`. -/
def widthDeclaration : Node where
  toPayload := (Payload.declaration (ascii "w") (ascii ": ") (ascii "2px")).setStart ⟨1, 5⟩
  parsedValue := some widthValue

/-- The value in `a:1;w: 2px` stands at the bytes 7 to 9. -/
theorem annotate_widthDeclaration :
    ({ document := ascii "a:1;w: 2px" } : Annotator).options.maxDepth = 0 ∧
    (({ document := ascii "a:1;w: 2px" } : Annotator).annotate
      (some widthDeclaration)).1.table.find? [0] = some ⟨some 7, some 10⟩ := by
  refine ⟨rfl, ?_⟩
  obtain ⟨-, -, hfind, -⟩ :=
    annotate_eq_declared { document := ascii "a:1;w: 2px" } widthDeclaration rfl
  refine (hfind [0] _).mpr ⟨widthValue, rfl, rfl, ?_⟩
  have hscope : widthDeclaration.ScopeOf [0] widthDeclaration widthValue :=
    ⟨[], 0, [], rfl, Node.inDocument_nil _, rfl, rfl, rfl⟩
  have hstop : widthValue.stopIn widthValue.valueText = some 3 := by
    rw [Node.stopIn_of_stop rfl rfl rfl]
    decide
  have hstart : widthDeclaration.startIn (ascii "a:1;w: 2px") = some 4 := by decide
  have hspan := DeclaredSpan.value (n := widthValue) hscope hstart
  rw [hstop] at hspan
  exact hspan

end Annotator

end StyleSpan
