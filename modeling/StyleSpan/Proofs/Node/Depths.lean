import Mathlib.Data.List.Chain
import StyleSpan.Proofs.Node.Preorder

/-!
# StyleSpan.Proofs.Node.Depths

A tree told by the depths of its nodes, read in the order of the enumeration.
After the node at one path the next node of depth `d` has a path that is settled:
it is the child at index 0 if `d` is one level down, and otherwise the next sibling
of the node of depth `d` that the path runs through.

```
path        next depth 4    next depth 3    next depth 1
[1, 0, 2]   [1, 0, 2, 0]    [1, 0, 3]       [2]
```

So the depths alone lead through all paths, and what an enumeration says about
each node, with its depth, is said about each path.

* `isChain_preorder_paths` — each path of an enumeration is the next one of its depth;
* `preorder_paths_eq_of_depths` — depths tell the paths;
* `map_preorder_eq_iff` — equal by node is equal by path;
* `map_depth_preorder_eq_iff` — equal by node, with depths in place of paths.
-/

namespace StyleSpan

namespace Path

/-- The path of the first node of depth `depth` that comes after the node at a path. -/
def next : Path → Nat → Path
  | [], _ => [0]
  | i :: rest, depth =>
    match depth with
    | 0 | 1 => [i + 1]
    | depth + 2 => i :: next rest (depth + 1)

/-- Whether a path is the next one of its depth. -/
def Follows (p q : Path) : Prop := q = next p q.length

theorem next_nil (depth : Nat) : next [] depth = [0] := rfl

theorem next_cons_one (i : Nat) (rest : Path) : next (i :: rest) 1 = [i + 1] := rfl

/-- Below one child paths follow as they do in the tree of that child. -/
theorem Follows.cons {p q : Path} (h : Follows p q) (hq : q ≠ []) (i : Nat) :
    Follows (i :: p) (i :: q) := by
  obtain ⟨j, rest, rfl⟩ := List.exists_cons_of_ne_nil hq
  exact congrArg (i :: ·) h

/-- The paths after a path are told by their depths. -/
theorem eq_of_isChain_follows {p : Path} {qs qs' : List Path}
    (h : (p :: qs).IsChain Follows) (h' : (p :: qs').IsChain Follows)
    (hdepth : qs.map List.length = qs'.map List.length) : qs = qs' := by
  induction qs generalizing p qs' with
  | nil =>
    cases qs' with
    | nil => rfl
    | cons q' qs' => cases hdepth
  | cons q qs ih =>
    cases qs' with
    | nil => cases hdepth
    | cons q' qs' =>
      rw [List.map_cons, List.map_cons, List.cons.injEq] at hdepth
      obtain ⟨hq, hrest⟩ := List.isChain_cons_cons.mp h
      obtain ⟨hq', hrest'⟩ := List.isChain_cons_cons.mp h'
      obtain rfl : q = q' := by rw [hq, hq', hdepth.1]
      rw [ih hrest hrest' hdepth.2]

end Path

namespace Node

/-! ## The paths of an enumeration -/

/-- The paths of a tree: that of the root, and those below each child behind its number. -/
theorem paths_eq (n : Node) : n.preorder.map Prod.fst =
    [] :: n.children.zipIdx.flatMap fun c => (c.1.preorder.map Prod.fst).map (c.2 :: ·) := by
  rw [preorder_eq, List.map_cons, List.map_flatMap]
  simp only [List.map_map, Function.comp_def]

/-- The first path is that of the root, and only that. -/
theorem exists_paths_eq (n : Node) : ∃ below, n.preorder.map Prod.fst = [] :: below ∧
    ∀ p ∈ below, p ≠ [] := by
  obtain ⟨below, hpreorder, hbelow⟩ := n.exists_preorder_eq_cons
  exact ⟨below.map Prod.fst, congrArg (List.map Prod.fst) hpreorder, List.forall_mem_map.mpr hbelow⟩

/-- Under an index paths follow as they do without it. -/
theorem isChain_map_cons {ps : List Path} (h : ([] :: ps).IsChain Path.Follows)
    (hne : ∀ p ∈ ps, p ≠ []) (i : Nat) :
    (([] :: ps).map (i :: ·)).IsChain Path.Follows := by
  rw [List.isChain_map]
  exact h.imp_of_mem_tail_imp fun p q _ hq hpq => hpq.cons (hne q hq) i

/-- The paths through children numbered from `k` on follow each other, and the first of them is
that of the first child. -/
theorem isChain_children_paths {cs : List Node}
    (h : ∀ c ∈ cs, (c.preorder.map Prod.fst).IsChain Path.Follows) (k : Nat) :
    let paths := (cs.zipIdx k).flatMap fun c => (c.1.preorder.map Prod.fst).map (c.2 :: ·)
    paths.IsChain Path.Follows ∧ ∀ q ∈ paths.head?, q = [k] := by
  induction cs generalizing k with
  | nil => exact ⟨.nil, nofun⟩
  | cons c cs ih =>
    obtain ⟨below, hpaths, hbelow⟩ := exists_paths_eq c
    have hchild := h c List.mem_cons_self
    obtain ⟨hrest, hhead⟩ := ih (fun d hd => h d (List.mem_cons_of_mem c hd)) (k + 1)
    rw [List.zipIdx_cons, List.flatMap_cons, hpaths]
    rw [hpaths] at hchild
    refine ⟨(isChain_map_cons hchild hbelow k).append hrest fun p hp q hq => ?_, ?_⟩
    · -- the last path below a child goes through it, and its next sibling comes next
      obtain ⟨rest, -, rfl⟩ := List.mem_map.mp (List.mem_of_getLast? hp)
      rw [hhead q hq]
      exact (Path.next_cons_one k rest).symm
    · rw [List.map_cons, List.cons_append, List.head?_cons]
      rintro q ⟨⟩
      rfl

/-- Each path of an enumeration is the next one of its depth. -/
theorem isChain_preorder_paths (n : Node) :
    (n.preorder.map Prod.fst).IsChain Path.Follows := by
  induction n using induct with
  | step n ih =>
    obtain ⟨hbelow, hhead⟩ := isChain_children_paths ih 0
    rw [paths_eq, List.isChain_cons]
    refine ⟨fun q hq => ?_, hbelow⟩
    rw [hhead q hq]
    exact (Path.next_nil 1).symm

/-- Trees that have the same depths have the same paths. -/
theorem preorder_paths_eq_of_depths {n n' : Node}
    (h : (n.preorder.map Prod.fst).map List.length = (n'.preorder.map Prod.fst).map List.length) :
    n.preorder.map Prod.fst = n'.preorder.map Prod.fst := by
  obtain ⟨below, hpaths, -⟩ := exists_paths_eq n
  obtain ⟨below', hpaths', -⟩ := exists_paths_eq n'
  have hchain := isChain_preorder_paths n
  have hchain' := isChain_preorder_paths n'
  rw [hpaths] at hchain h
  rw [hpaths'] at hchain' h
  rw [List.map_cons, List.map_cons, List.cons.injEq] at h
  rw [hpaths, hpaths', Path.eq_of_isChain_follows hchain hchain' h.2]

/-! ## By node and by path -/

variable {α : Type}

/-- What is told about the nodes by path. -/
theorem mem_map_preorder_iff {n : Node} {f : Path → Node → α} {path : Path} {a : α} :
    (path, a) ∈ n.preorder.map (fun e => (e.1, f e.1 e.2)) ↔
      (n.at? path).map (f path) = some a := by
  rw [List.mem_map, Option.map_eq_some_iff]
  constructor
  · rintro ⟨⟨p, m⟩, hm, heq⟩
    cases heq
    exact ⟨m, mem_preorder_iff.mp hm, rfl⟩
  · rintro ⟨m, hm, rfl⟩
    exact ⟨(path, m), mem_preorder_iff.mpr hm, rfl⟩

theorem map_preorder_eq (n : Node) (f : Path → Node → α) :
    n.preorder.map (fun e => (e.1, f e.1 e.2)) =
      ([], f [] n) :: (n.children.zipIdx.map fun c =>
        (c.1.preorder.map fun e => (e.1, f (c.2 :: e.1) e.2)).map
          fun e => (c.2 :: e.1, e.2)).flatten := by
  rw [preorder_eq, List.map_cons, List.map_flatMap, List.flatMap_def]
  simp only [List.map_map, Function.comp_def]

/-- Enumerations that tell the same by path are equal. -/
theorem map_preorder_eq_of_at? {n n' : Node} {f f' : Path → Node → α}
    (h : ∀ path, (n.at? path).map (f path) = (n'.at? path).map (f' path)) :
    n.preorder.map (fun e => (e.1, f e.1 e.2)) = n'.preorder.map fun e => (e.1, f' e.1 e.2) := by
  induction n using induct generalizing n' f f' with
  | step n ih =>
    have hroot : f [] n = f' [] n' := Option.some.inj (h [])
    have hchildren : ∀ i path, ((n.children[i]?).bind (·.at? path)).map (f (i :: path)) =
        ((n'.children[i]?).bind (·.at? path)).map (f' (i :: path)) := fun i path => h (i :: path)
    rw [map_preorder_eq, map_preorder_eq, hroot]
    congr 2
    refine List.ext_getElem? fun i => ?_
    simp only [List.getElem?_map, List.getElem?_zipIdx, Option.map_map, Nat.zero_add]
    have hi := hchildren i
    cases hc : n.children[i]? with
    | none =>
      have hnone := hi []
      cases hc' : n'.children[i]? with
      | none => rfl
      | some c' => simp [hc, hc'] at hnone
    | some c =>
      cases hc' : n'.children[i]? with
      | none => simpa [hc, hc'] using hi []
      | some c' =>
        rw [hc, hc'] at hi
        have hbelow := ih c (List.mem_of_getElem? hc) hi
        simp only [Option.map_some, Function.comp_apply, hbelow]

/-- Two enumerations tell the same node by node just when they do path by path. -/
theorem map_preorder_eq_iff {n n' : Node} {f f' : Path → Node → α} :
    n.preorder.map (fun e => (e.1, f e.1 e.2)) = n'.preorder.map (fun e => (e.1, f' e.1 e.2)) ↔
      ∀ path, (n.at? path).map (f path) = (n'.at? path).map (f' path) := by
  refine ⟨fun h path => Option.ext fun a => ?_, map_preorder_eq_of_at?⟩
  rw [← mem_map_preorder_iff, h, mem_map_preorder_iff]

/-- Depths do in place of paths. -/
theorem map_depth_preorder_eq_iff {n n' : Node} (f f' : Path → Node → α) :
    n.preorder.map (fun e => (e.1.length, f e.1 e.2)) =
        n'.preorder.map (fun e => (e.1.length, f' e.1 e.2)) ↔
      ∀ path, (n.at? path).map (f path) = (n'.at? path).map (f' path) := by
  rw [← map_preorder_eq_iff]
  constructor
  · intro h
    have hdepth := congrArg (List.map Prod.fst) h
    have htold := congrArg (List.map Prod.snd) h
    simp only [List.map_map, Function.comp_def] at hdepth htold
    have hpaths : n.preorder.map Prod.fst = n'.preorder.map Prod.fst :=
      preorder_paths_eq_of_depths (by simpa only [List.map_map, Function.comp_def] using hdepth)
    rw [← List.zip_map', ← List.zip_map', htold]
    exact congrArg (List.zip · _) hpaths
  · intro h
    have hmap := congrArg (List.map fun e => (e.1.length, e.2)) h
    simpa only [List.map_map, Function.comp_def] using hmap

end Node

end StyleSpan
