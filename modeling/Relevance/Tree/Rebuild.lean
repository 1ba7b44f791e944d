import Relevance.Tree.Walk

namespace Relevance.Tree

/-- A step of rebuilding a tree: go into a subtree, or join the two that are ready. -/
inductive RebuildStep
  | visit (t : Tree)
  | join (feature : Nat) (threshold : Binary32)

def RebuildStep.pending : List RebuildStep → Nat
  | [] => 0
  | visit t :: rest => 2 * t.size + pending rest
  | join .. :: rest => 1 + pending rest

def rebuild (built : List Tree) : List RebuildStep → Option (List Tree)
  | [] => some built
  | .visit (leaf output) :: rest => rebuild (leaf output :: built) rest
  | .visit (split feature threshold left right) :: rest =>
    rebuild built (.visit left :: .visit right :: .join feature threshold :: rest)
  | .join feature threshold :: rest =>
    match built with
    | right :: left :: built => rebuild (split feature threshold left right :: built) rest
    | _ => none
termination_by steps => RebuildStep.pending steps
decreasing_by
  all_goals
    simp only [RebuildStep.pending, size]
    omega

/-- A copy made node by node: the subtree on top of those that are left when the steps are done. -/
def copy? (t : Tree) : Option Tree := (rebuild [] [.visit t]).bind List.head?

def attach (node : TreeNode) (following : List Tree) : Option (List Tree) :=
  match node, following with
  | .leaf output, following => some (leaf output :: following)
  | .split feature threshold, left :: right :: following =>
    some (split feature threshold left right :: following)
  | .split .., _ => none

def ofPreorder? (nodes : List TreeNode) : Option Tree :=
  match nodes.foldr (fun node following => following.bind (attach node)) (some []) with
  | some [t] => some t
  | _ => none

/-- Where a subtree stands in the tree around it, with what is done and what is still to do. -/
inductive Frame
  | inLeft (feature : Nat) (threshold : Binary32) (right : Tree)
  | inRight (feature : Nat) (threshold : Binary32) (left : Tree)

inductive Position
  | before (t : Tree)
  | after (t : Tree)

def Frame.pending : List Frame → Nat
  | [] => 0
  | inLeft _ _ right :: frames => 3 * right.size + 2 + pending frames
  | inRight .. :: frames => 1 + pending frames

def Position.pending : Position → Nat
  | before t => 3 * t.size
  | after _ => 0

/-- Replaces the leaf outputs of a subtree and then those of the frames around it. -/
def replaceFrom {σ : Type} (f : σ → Binary32 → σ × Binary32) (state : σ) :
    Position → List Frame → σ × Tree
  | .before (leaf output), frames =>
    let next := f state output
    replaceFrom f next.1 (.after (leaf next.2)) frames
  | .before (split feature threshold left right), frames =>
    replaceFrom f state (.before left) (.inLeft feature threshold right :: frames)
  | .after t, [] => (state, t)
  | .after t, .inLeft feature threshold right :: frames =>
    replaceFrom f state (.before right) (.inRight feature threshold t :: frames)
  | .after t, .inRight feature threshold left :: frames =>
    replaceFrom f state (.after (split feature threshold left t)) frames
termination_by position frames => position.pending + Frame.pending frames
decreasing_by
  all_goals
    simp only [Position.pending, Frame.pending, size]
    omega

/-- Visits the leaves from left to right, threading a state, and stores what `f` makes of each. -/
def replaceOutputs {σ : Type} (f : σ → Binary32 → σ × Binary32) (state : σ) (t : Tree) : σ × Tree :=
  replaceFrom f state (.before t) []

def mapAccumOutputs {σ : Type} (f : σ → Binary32 → σ × Binary32) (state : σ) : Tree → σ × Tree
  | leaf output =>
    let next := f state output
    (next.1, leaf next.2)
  | split feature threshold left right =>
    let doneLeft := left.mapAccumOutputs f state
    let doneRight := right.mapAccumOutputs f doneLeft.1
    (doneRight.1, split feature threshold doneLeft.2 doneRight.2)

theorem replaceFrom_before {σ : Type} (f : σ → Binary32 → σ × Binary32) (state : σ) (t : Tree)
    (frames : List Frame) :
    replaceFrom f state (.before t) frames =
      replaceFrom f (t.mapAccumOutputs f state).1 (.after (t.mapAccumOutputs f state).2) frames := by
  induction t generalizing state frames with
  | leaf output => rw [replaceFrom, mapAccumOutputs]
  | split feature threshold left right ihl ihr =>
    rw [replaceFrom, ihl, replaceFrom, ihr, replaceFrom, mapAccumOutputs]

theorem replaceOutputs_eq {σ : Type} (f : σ → Binary32 → σ × Binary32) (state : σ) (t : Tree) :
    t.replaceOutputs f state = t.mapAccumOutputs f state := by
  rw [replaceOutputs, replaceFrom_before, replaceFrom]

theorem features_mapAccumOutputs {σ : Type} (f : σ → Binary32 → σ × Binary32) (state : σ)
    (t : Tree) : (t.mapAccumOutputs f state).2.features = t.features := by
  induction t generalizing state with
  | leaf output => rfl
  | split feature threshold left right ihl ihr => simp only [mapAccumOutputs, features, ihl, ihr]

end Relevance.Tree
