import Relevance.Tree.Walk

namespace Relevance.Tree

theorem count_eq_countP (kind : CountKind) (t : Tree) :
    t.count kind = t.subtrees.countP kind.includes := by
  have hfold (subtrees : List Tree) (n : Nat) :
      subtrees.foldl (fun n t => if kind.includes t then n + 1 else n) n =
        n + subtrees.countP kind.includes := by
    induction subtrees generalizing n with
    | nil => rfl
    | cons s subtrees ih =>
      rw [List.foldl_cons, ih, List.countP_cons]
      split <;> omega
  rw [count, walk_singleton, hfold, Nat.zero_add]

theorem length_subtrees (t : Tree) : t.subtrees.length = t.size := by
  induction t with
  | leaf output => rfl
  | split feature threshold left right ihl ihr =>
    rw [subtrees, List.length_cons, List.length_append, ihl, ihr, size]

theorem count_leaves (t : Tree) : t.count .leaves = t.outputs.length := by
  rw [count_eq_countP]
  induction t with
  | leaf output => rfl
  | split feature threshold left right ihl ihr =>
    simp only [subtrees, outputs, List.countP_cons, List.countP_append, List.length_append, ihl,
      ihr]
    rfl

theorem count_splits (t : Tree) : t.count .splits = t.features.length := by
  rw [count_eq_countP]
  induction t with
  | leaf output => rfl
  | split feature threshold left right ihl ihr =>
    simp only [subtrees, features, List.countP_cons, List.countP_append, List.length_cons,
      List.length_append, ihl, ihr]
    rfl

theorem count_all (t : Tree) : t.count .all = t.size := by
  rw [count_eq_countP, ← length_subtrees]
  exact List.countP_eq_length.2 fun _ _ => rfl

theorem size_eq_counts (t : Tree) : t.size = t.count .splits + t.count .leaves := by
  rw [count_splits, count_leaves]
  induction t with
  | leaf output => rfl
  | split feature threshold left right ihl ihr =>
    rw [size, features, outputs, List.length_cons, List.length_append, List.length_append, ihl, ihr]
    omega

/-- A tree has one leaf more than splits. -/
theorem length_outputs (t : Tree) : t.outputs.length = t.features.length + 1 := by
  induction t with
  | leaf output => rfl
  | split feature threshold left right ihl ihr =>
    rw [outputs, features, List.length_append, List.length_cons, List.length_append, ihl, ihr]
    omega

theorem deepest_eq (acc : Nat) (stack : List (Tree × Nat)) :
    deepest acc stack = (stack.map fun (t, depth) => depth + t.height).foldl max acc := by
  fun_induction deepest acc stack with
  | case1 acc => rfl
  | case2 acc output depth rest ih => exact ih
  | case3 acc feature threshold left right depth rest ih =>
    have hsplit : max (max acc (depth + 1 + left.height)) (depth + 1 + right.height) =
        max acc (depth + (split feature threshold left right).height) := by
      rw [height]
      omega
    rw [ih, List.map_cons, List.map_cons, List.foldl_cons, List.foldl_cons, hsplit]
    rfl

theorem depth_eq_height (t : Tree) : t.depth = t.height := by
  calc
    t.depth = max 0 (0 + t.height) := deepest_eq 0 [(t, 0)]
    _ = t.height := by rw [Nat.zero_add, Nat.zero_max]

end Relevance.Tree
