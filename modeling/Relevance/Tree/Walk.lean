import Relevance.Binary32.Arith
import Relevance.Tree.Basic

namespace Relevance.Tree

def pending : List Tree → Nat
  | [] => 0
  | t :: rest => t.size + pending rest

/-- Visits every subtree of a stack before its children, which are stacked left above right. -/
def walk {β : Type} (visit : β → Tree → β) (acc : β) : List Tree → β
  | [] => acc
  | leaf output :: rest => walk visit (visit acc (leaf output)) rest
  | split feature threshold left right :: rest =>
    walk visit (visit acc (split feature threshold left right)) (left :: right :: rest)
termination_by stack => pending stack
decreasing_by
  all_goals
    simp only [pending, size]
    omega

theorem walk_eq_foldl {β : Type} (visit : β → Tree → β) (acc : β) (stack : List Tree) :
    walk visit acc stack = (stack.flatMap subtrees).foldl visit acc := by
  fun_induction walk visit acc stack with
  | case1 => rfl
  | case2 acc output rest ih => simpa [subtrees] using ih
  | case3 acc feature threshold left right rest ih => simpa [subtrees] using ih

theorem walk_singleton {β : Type} (visit : β → Tree → β) (acc : β) (t : Tree) :
    walk visit acc [t] = t.subtrees.foldl visit acc := by
  rw [walk_eq_foldl, List.flatMap_singleton]

def preorder (t : Tree) : List TreeNode :=
  (walk (fun (acc : Array TreeNode) t => acc.push t.root) #[] [t]).toList

inductive CountKind
  | leaves
  | splits
  | all

def CountKind.includes : CountKind → Tree → Bool
  | leaves, t => t.isLeaf
  | splits, t => !t.isLeaf
  | all, _ => true

def count (kind : CountKind) (t : Tree) : Nat :=
  walk (fun n t => if kind.includes t then n + 1 else n) 0 [t]

def splitAndLeafCounts (t : Tree) : Nat × Nat :=
  walk (fun n t => if t.isLeaf then (n.1, n.2 + 1) else (n.1 + 1, n.2)) (0, 0) [t]

/-- The smallest leaf output, which ignores NaNs and is infinity if there is nothing else. -/
def minLeaf (t : Tree) : Binary32 :=
  walk (fun (least : Binary32) t =>
    match t with
    | leaf output => min least output
    | split .. => least) .infinity [t]

def greater (greatest : Option Nat) : Tree → Option Nat
  | leaf _ => greatest
  | split feature .. => some (greatest.elim feature (max · feature))

def maxFeature (t : Tree) : Option Nat := walk greater none [t]

theorem foldl_greater_eq (t : Tree) (acc : Option Nat) :
    t.subtrees.foldl greater acc =
      t.features.foldl (fun acc feature => some (acc.elim feature (max · feature))) acc := by
  induction t generalizing acc with
  | leaf output => rfl
  | split feature threshold left right ihl ihr =>
    rw [subtrees, features, List.foldl_cons, List.foldl_cons, List.foldl_append, List.foldl_append,
      ihl, ihr, greater]

theorem maxFeature_eq (t : Tree) : t.maxFeature = t.features.max? := by
  have hfold (features : List Nat) (greatest : Nat) :
      features.foldl (fun acc feature => some (acc.elim feature (max · feature)))
        (some greatest) = some (features.foldl max greatest) := by
    induction features generalizing greatest with
    | nil => rfl
    | cons feature features ih => exact ih (max greatest feature)
  rw [maxFeature, walk_singleton, foldl_greater_eq]
  cases t.features with
  | nil => rfl
  | cons feature features => exact (hfold features feature).trans List.max?_cons'.symm

theorem le_maxFeature {t : Tree} {feature : Nat} (h : feature ∈ t.features) :
    ∃ m ∈ t.maxFeature, feature ≤ m := by
  rw [maxFeature_eq]
  cases hmax : t.features.max? with
  | none =>
    rw [List.max?_eq_none_iff.1 hmax] at h
    exact nomatch h
  | some largest => exact ⟨largest, rfl, (List.max?_eq_some_iff.1 hmax).2 feature h⟩

def pendingAt : List (Tree × Nat) → Nat
  | [] => 0
  | (t, _) :: rest => t.size + pendingAt rest

/-- The depth of the deepest leaf on a stack of subtrees that carry their depth. -/
def deepest (acc : Nat) : List (Tree × Nat) → Nat
  | [] => acc
  | (leaf _, depth) :: rest => deepest (max acc depth) rest
  | (split _ _ left right, depth) :: rest =>
    deepest acc ((left, depth + 1) :: (right, depth + 1) :: rest)
termination_by stack => pendingAt stack
decreasing_by
  all_goals
    simp only [pendingAt, size]
    omega

def depth (t : Tree) : Nat := deepest 0 [(t, 0)]

def children : Tree → List Tree
  | leaf _ => []
  | split _ _ left right => [left, right]

theorem pending_children (t : Tree) (rest : List Tree) :
    pending (t.children ++ rest) < pending (t :: rest) := by
  cases t with
  | leaf output => exact Nat.lt_add_of_pos_left Nat.one_pos
  | split feature threshold left right =>
    simp only [children, List.cons_append, List.nil_append, pending, size]
    omega

/-- Walks two stacks side by side: equal nodes give way to their children. -/
def sameNodes : List Tree → List Tree → Bool
  | [], [] => true
  | s :: stack, t :: others =>
    s.root == t.root && sameNodes (s.children ++ stack) (t.children ++ others)
  | _, _ => false
termination_by stack => pending stack
decreasing_by exact pending_children s stack

/-- Trees are equal when their nodes are, since every split is followed by two subtrees. -/
instance : BEq Tree := ⟨fun a b => sameNodes [a] [b]⟩

def fingerprint (t : Tree) : Fingerprint := t.preorder.flatMap TreeNode.fingerprint

end Relevance.Tree
