import Mathlib.Data.List.Basic
import StyleSpan.Node.Basic

/-!
# StyleSpan.Proofs.Node.Preorder

The enumeration of a tree, and the paths in it.  Enumerating a tree from a
path on differs from enumerating it as a tree of its own only by that path in
front, so that the facts below are about trees of their own, one level at a
time (`preorder_eq`).

* `mem_preorder_iff` — the enumeration holds the nodes of the tree, each at its path;
* `nodup_preorder_paths` — it holds every path once;
* `length_preorder` — it is as long as the tree has nodes.
-/

namespace StyleSpan

namespace Node

/-! ## One level at a time -/

/-- The preorder from a path on is that from the root, behind the path. -/
theorem preorderFrom_eq_map (n : Node) (path : Path) :
    n.preorderFrom path = n.preorder.map fun e => (path ++ e.1, e.2) := by
  induction n using induct generalizing path with
  | step n ih =>
    rw [preorder, preorderFrom_eq n path, preorderFrom_eq n [], List.map_cons, List.append_nil,
      List.map_flatMap]
    congr 1
    refine List.flatMap_congr fun c hc => ?_
    have hmem : c.1 ∈ n.children := List.fst_mem_of_mem_zipIdx hc
    rw [ih c.1 hmem, ih c.1 hmem, List.map_map]
    refine List.map_congr_left fun e _ => ?_
    simp only [Function.comp_apply, List.nil_append, List.append_assoc]

/-- The preorder of a tree: the root, and then the preorder of each child. -/
theorem preorder_eq (n : Node) :
    n.preorder = ([], n) ::
      n.children.zipIdx.flatMap fun c => c.1.preorder.map fun e => (c.2 :: e.1, e.2) := by
  rw [preorder, preorderFrom_eq]
  congr 1
  refine List.flatMap_congr fun c _ => ?_
  rw [preorderFrom_eq_map]
  rfl

/-- The enumeration begins with the root, and below it paths are not empty. -/
theorem exists_preorder_eq_cons (n : Node) :
    ∃ rest, n.preorder = ([], n) :: rest ∧ ∀ e ∈ rest, e.1 ≠ [] := by
  refine ⟨_, n.preorder_eq, fun e he => ?_⟩
  obtain ⟨c, -, hc⟩ := List.mem_flatMap.mp he
  obtain ⟨e', -, rfl⟩ := List.mem_map.mp hc
  exact List.cons_ne_nil c.2 e'.1

/-- A node below a child is one of the tree, behind the number of the child. -/
theorem mem_preorder_cons_iff {n m : Node} {i : Nat} {rest : Path} :
    (i :: rest, m) ∈ n.preorder ↔ ∃ c, n.children[i]? = some c ∧ (rest, m) ∈ c.preorder := by
  rw [preorder_eq, List.mem_cons, List.mem_flatMap]
  constructor
  · rintro (h | ⟨⟨c, k⟩, hc, h⟩)
    · cases h
    · obtain ⟨⟨p, m'⟩, he, heq⟩ := List.mem_map.mp h
      cases heq
      exact ⟨c, List.mk_mem_zipIdx_iff_getElem?.mp hc, he⟩
  · rintro ⟨c, hc, h⟩
    have hin := List.mk_mem_zipIdx_iff_getElem?.mpr hc
    exact .inr ⟨(c, i), hin, List.mem_map.mpr ⟨(rest, m), h, rfl⟩⟩

/-! ## Nodes and paths -/

/-- The enumeration holds what is found by going down the tree. -/
theorem mem_preorder_iff {n m : Node} {path : Path} :
    (path, m) ∈ n.preorder ↔ n.at? path = some m := by
  induction path generalizing n with
  | nil =>
    obtain ⟨below, hpreorder, hbelow⟩ := n.exists_preorder_eq_cons
    rw [hpreorder, List.mem_cons, at?_nil]
    constructor
    · rintro (h | h)
      · cases h
        rfl
      · exact absurd rfl (hbelow _ h)
    · intro h
      cases h
      exact .inl rfl
  | cons i rest ih =>
    rw [mem_preorder_cons_iff, at?_cons, Option.bind_eq_some_iff]
    constructor
    · rintro ⟨c, hc, h⟩
      exact ⟨c, hc, ih.mp h⟩
    · rintro ⟨c, hc, h⟩
      exact ⟨c, hc, ih.mpr h⟩

private theorem pairwise_ne_zipIdx {α : Type} (xs : List α) (k : Nat) :
    (xs.zipIdx k).Pairwise fun a b => a.2 ≠ b.2 := by
  induction xs generalizing k with
  | nil => exact .nil
  | cons x xs ih =>
    refine List.pairwise_cons.mpr ⟨fun b hb => ?_, ih (k + 1)⟩
    have hle : k + 1 ≤ b.2 := List.le_snd_of_mem_zipIdx hb
    exact Nat.ne_of_lt hle

/-- No two nodes of the enumeration have one path. -/
theorem nodup_preorder_paths (n : Node) : (n.preorder.map Prod.fst).Nodup := by
  induction n using induct with
  | step n ih =>
    rw [preorder_eq, List.map_cons, List.map_flatMap, List.nodup_cons]
    constructor
    · intro h
      obtain ⟨c, -, hc⟩ := List.mem_flatMap.mp h
      simp at hc
    · rw [List.Nodup, List.pairwise_flatMap]
      refine ⟨fun c hc => ?_, (pairwise_ne_zipIdx n.children 0).imp fun hne p hp q hq => ?_⟩
      · have hmem : c.1 ∈ n.children := List.fst_mem_of_mem_zipIdx hc
        have hbelow := ih c.1 hmem
        rw [List.Nodup, List.pairwise_map] at hbelow
        rw [List.map_map, List.pairwise_map]
        exact hbelow.imp fun h heq => h (List.cons.inj heq).2
      · -- paths through different children differ at their first index
        obtain ⟨e, he, rfl⟩ := List.mem_map.mp hp
        obtain ⟨e', he', rfl⟩ := List.mem_map.mp hq
        obtain ⟨d, -, rfl⟩ := List.mem_map.mp he
        obtain ⟨d', -, rfl⟩ := List.mem_map.mp he'
        exact fun heq => hne (List.cons.inj heq).1

/-- Counting node by node adds up the lengths of the enumerations. -/
private theorem foldl_count_eq {xs : List Node} (h : ∀ c ∈ xs, c.preorder.length = c.count)
    (k total : Nat) :
    xs.foldl (fun total c => total + c.count) total =
      total + ((xs.zipIdx k).flatMap fun c =>
        c.1.preorder.map fun e => (c.2 :: e.1, e.2)).length := by
  induction xs generalizing k total with
  | nil => rfl
  | cons x xs ih =>
    have hx : x.preorder.length = x.count := h x List.mem_cons_self
    have hrest := ih (fun c hc => h c (List.mem_cons_of_mem x hc)) (k + 1) (total + x.count)
    rw [List.foldl_cons, hrest, List.zipIdx_cons, List.flatMap_cons, List.length_append,
      List.length_map, hx, Nat.add_assoc]

/-- The preorder goes through every node. -/
theorem length_preorder (n : Node) : n.preorder.length = n.count := by
  induction n using induct with
  | step n ih => rw [preorder_eq, count_eq, foldl_count_eq ih 0, List.length_cons, Nat.add_comm]

end Node

end StyleSpan
