import Relevance.Ensemble.Layout
import Relevance.Proofs.CopiedTrees
import Relevance.Proofs.ReachedFloors
import Relevance.Proofs.TreeCounts
import Relevance.Proofs.TreePlaces

namespace Relevance.Tree

open Binary32

/-- A step of a walk: the subtree on top is visited, and its children take its place. -/
def next? : List Tree → Option (Tree × List Tree)
  | [] => none
  | t :: stack => some (t, t.children ++ stack)

/-- The subtrees that a walk visits, step by step, until there is nothing left to visit. -/
inductive Yields : List Tree → List Tree → Prop
  | finished {stack : List Tree} (hstep : next? stack = none) : Yields stack []
  | visit {stack rest visited : List Tree} {t : Tree} (hstep : next? stack = some (t, rest))
      (hrest : Yields rest visited) : Yields stack (t :: visited)

section PreorderWalk

variable {stack rest visited : List Tree} {t : Tree}

/-- A step takes the first of the subtrees that are still to be visited. -/
theorem flatMap_subtrees_of_next? (h : next? stack = some (t, rest)) :
    stack.flatMap subtrees = t :: rest.flatMap subtrees := by
  cases stack with
  | nil => exact nomatch h
  | cons s stack =>
    obtain ⟨rfl, rfl⟩ := Prod.mk.inj (Option.some.inj h)
    cases s with
    | leaf output => rfl
    | split feature threshold left right => simp [children, subtrees]

theorem Yields.eq_subtrees (h : Yields stack visited) : visited = stack.flatMap subtrees := by
  induction h with
  | @finished stack hstep =>
    cases stack with
    | nil => rfl
    | cons s stack => exact nomatch hstep
  | visit hstep _ ih => rw [ih, flatMap_subtrees_of_next? hstep]

theorem Yields.cons (h : Yields rest visited) (t : Tree) :
    Yields (t :: rest) (t.subtrees ++ visited) := by
  induction t generalizing rest visited with
  | leaf output => exact .visit rfl h
  | split feature threshold left right ihl ihr =>
    rw [subtrees, List.cons_append, List.append_assoc]
    exact .visit rfl (ihl (ihr h))

/-- A walk ends, and what it visits is settled by its stack. -/
theorem yields_iff : Yields stack visited ↔ visited = stack.flatMap subtrees := by
  constructor
  · exact Yields.eq_subtrees
  · rintro rfl
    induction stack with
    | nil => exact .finished rfl
    | cons t stack ih => exact ih.cons t

/-- The walk ends and visits what is at each place, once and in the order of places. -/
structure WalkedInPreorder (t : Tree) : Prop where
  visits : ∀ visited, Yields [t] visited ↔ visited.map some = t.places.map t.subtreeAt?
  complete : ∀ place, place ∈ t.places ↔ (t.subtreeAt? place).isSome = true
  ordered : t.places.Pairwise (· < ·)
  once : t.places.Nodup
  gathers : ∀ (β : Type) (visit : β → Tree → β) (acc : β) (visited : List Tree),
    Yields [t] visited → walk visit acc [t] = visited.foldl visit acc

theorem walkedInPreorder (t : Tree) : t.WalkedInPreorder where
  visits visited := by
    rw [yields_iff, List.flatMap_singleton, map_subtreeAt?_places]
    exact (List.map_inj_right fun _ _ => Option.some.inj).symm
  complete _ := mem_places_iff
  ordered := t.pairwise_places
  once := t.nodup_places
  gathers β visit acc visited hvisited := by
    rw [walk_eq_foldl, hvisited.eq_subtrees]

end PreorderWalk

structure CountedAlike (t : Tree) : Prop where
  leaves : t.count .leaves = t.outputs.length
  splits : t.count .splits = t.features.length
  leaves_eq : t.count .leaves = t.count .splits + 1
  all_eq : t.count .all = t.count .splits + t.count .leaves
  pair : t.splitAndLeafCounts = (t.count .splits, t.count .leaves)

theorem countedAlike (t : Tree) : t.CountedAlike where
  leaves := t.count_leaves
  splits := t.count_splits
  leaves_eq := by rw [count_leaves, count_splits, length_outputs]
  all_eq := by rw [count_all, size_eq_counts]
  pair := by rw [splitAndLeafCounts_eq, count_splits, count_leaves]

section LargestFeature

variable (t : Tree)

theorem maxFeature_eq_some_iff (largest : Nat) :
    t.maxFeature = some largest ↔
      largest ∈ t.features ∧ ∀ feature ∈ t.features, feature ≤ largest := by
  rw [maxFeature_eq, List.max?_eq_some_iff]

theorem maxFeature_eq_none_iff : t.maxFeature = none ↔ ∃ output, t = leaf output := by
  rw [maxFeature_eq, List.max?_eq_none_iff]
  cases t with
  | leaf output => exact iff_of_true rfl ⟨output, rfl⟩
  | split feature threshold left right =>
    refine iff_of_false (List.cons_ne_nil _ _) ?_
    rintro ⟨_, h⟩
    cases h

end LargestFeature

section SmallestLeaf

variable {t : Tree}

theorem minLeaf_mem_of_number {output : Binary32} (h : output ∈ t.outputs)
    (hn : output.isNaN = false) : t.minLeaf ∈ t.outputs := by
  rcases t.minLeaf_mem with htop | hmem
  · have hle : infinity ≤ output := htop ▸ minLeaf_le h hn
    have hfinite : output.isFinite = false := by
      apply eq_false_of_ne_true
      intro hfinite
      exact not_lt_of_le hle (lt_infinity hfinite)
    have hzero : zero ≤ infinity := by decide
    rw [htop, ← eq_infinity (le_trans hzero hle) hfinite]
    exact h
  · exact hmem

theorem minLeaf_eq_infinity (h : ∀ output ∈ t.outputs, output.isNaN = true) :
    t.minLeaf = infinity := by
  apply t.minLeaf_mem.resolve_right
  intro hmem
  exact ne_true_of_eq_false t.isNaN_minLeaf (h _ hmem)

end SmallestLeaf

/-- The places still to be visited, the state that the visits so far have left, and the tree. -/
structure Replacing (σ : Type) where
  pending : List Place
  state : σ
  tree : Tree

section ReplacedOutputs

variable {σ : Type} (f : σ → Binary32 → σ × Binary32)

/-- A round of replacing takes the place on top; a split gives way to its children. -/
inductive Replacing.Advances : Replacing σ → Replacing σ → Prop
  | leaf {place : Place} {pending : List Place} {state : σ} {t : Tree} {output : Binary32}
      (hleaf : t.subtreeAt? place = some (.leaf output)) :
      Advances ⟨place :: pending, state, t⟩
        ⟨pending, (f state output).1, t.putAt place (.leaf (f state output).2)⟩
  | split {place : Place} {pending : List Place} {state : σ} {t left right : Tree} {feature : Nat}
      {threshold : Binary32}
      (hsplit : t.subtreeAt? place = some (.split feature threshold left right)) :
      Advances ⟨place :: pending, state, t⟩
        ⟨(place ++ [.left]) :: (place ++ [.right]) :: pending, state, t⟩

theorem Replacing.Advances.unique {s next next' : Replacing σ} (h : Advances f s next)
    (h' : Advances f s next') : next = next' := by
  cases h with
  | leaf hleaf =>
    cases h' with
    | leaf hleaf' =>
      cases hleaf.symm.trans hleaf'
      rfl
    | split hsplit => cases hleaf.symm.trans hsplit
  | split hsplit =>
    cases h' with
    | leaf hleaf => cases hsplit.symm.trans hleaf
    | split hsplit' => rfl

/-- The subtree at a place is replaced as a whole before the places behind it are visited. -/
theorem rounds_replacing {place : Place} {s t : Tree} (h : t.subtreeAt? place = some s)
    (pending : List Place) (state : σ) :
    Rounds (Replacing.Advances f) s.size ⟨place :: pending, state, t⟩
      ⟨pending, (s.mapAccumOutputs f state).1, t.putAt place (s.mapAccumOutputs f state).2⟩ := by
  induction s generalizing place t pending state with
  | leaf output => exact .more (.leaf h) (.none _)
  | split feature threshold left right ihl ihr =>
    let doneLeft := left.mapAccumOutputs f state
    obtain ⟨hleft, hputLeft⟩ := at_append h [.left] doneLeft.2
    -- With its left subtree done, the split at the place still has its right one.
    obtain ⟨hsplit, hput⟩ := at_putAt h (split feature threshold doneLeft.2 right)
      (split feature threshold doneLeft.2 (right.mapAccumOutputs f doneLeft.1).2)
    obtain ⟨hright, hputRight⟩ := at_append hsplit [.right] (right.mapAccumOutputs f doneLeft.1).2
    simp only [subtreeAt?, subtreeAt?_nil] at hleft hright
    simp only [putAt, putAt_nil] at hputLeft hputRight
    have hrunLeft := ihl hleft ((place ++ [.right]) :: pending) state
    have hrunRight := ihr hright pending doneLeft.1
    rw [hputLeft] at hrunLeft
    rw [hputRight, hput] at hrunRight
    exact .more (.split h) (hrunLeft.trans hrunRight)

/-- Numbers visited in turn: each is given to `f` with the state that the one before has left. -/
def inTurn (state : σ) : List Binary32 → σ × List Binary32
  | [] => (state, [])
  | output :: outputs =>
    let next := f state output
    let done := inTurn next.1 outputs
    (done.1, next.2 :: done.2)

theorem inTurn_append (state : σ) (front back : List Binary32) :
    inTurn f state (front ++ back) =
      ((inTurn f (inTurn f state front).1 back).1,
        (inTurn f state front).2 ++ (inTurn f (inTurn f state front).1 back).2) := by
  induction front generalizing state with
  | nil => rfl
  | cons output front ih => simp only [List.cons_append, inTurn, ih]

theorem inTurn_outputs (state : σ) (t : Tree) :
    inTurn f state t.outputs =
      ((t.mapAccumOutputs f state).1, (t.mapAccumOutputs f state).2.outputs) := by
  induction t generalizing state with
  | leaf output => rfl
  | split feature threshold left right ihl ihr =>
    rw [outputs, inTurn_append, ihl, ihr, mapAccumOutputs, outputs]

/-- Replacing leaf outputs is the loop that replaces them in place, one after the other. -/
structure ReplacedInTurn (state : σ) (t : Tree) : Prop where
  in_turn : inTurn f state t.outputs =
    ((t.replaceOutputs f state).1, (t.replaceOutputs f state).2.outputs)
  same_splits : t.SameSplits (t.replaceOutputs f state).2
  in_place : EndsAfter (Replacing.Advances f) t.size ⟨[[]], state, t⟩
    ⟨[], (t.replaceOutputs f state).1, (t.replaceOutputs f state).2⟩

theorem replacedInTurn (state : σ) (t : Tree) : t.ReplacedInTurn f state where
  in_turn := by rw [replaceOutputs_eq, inTurn_outputs]
  same_splits := by
    rw [replaceOutputs_eq]
    exact t.sameSplits_mapAccumOutputs f state
  in_place := by
    have hrun := rounds_replacing f t.subtreeAt?_nil [] state
    rw [putAt_nil, ← replaceOutputs_eq] at hrun
    exact hrun.endsAfter (Replacing.Advances.unique f) fun _ h => nomatch h

end ReplacedOutputs

/-- What the walks over a stack come to is what recursion over the tree says. -/
theorem walks_follow_recursion (t : Tree) :
    t.WalkedInPreorder ∧ t.CountedAlike ∧ t.depth = t.height ∧
      (∀ largest, t.maxFeature = some largest ↔
        largest ∈ t.features ∧ ∀ feature ∈ t.features, feature ≤ largest) ∧
      (t.maxFeature = none ↔ ∃ output, t = leaf output) ∧
      (∀ output ∈ t.outputs, output.isNaN = false →
        t.minLeaf ≤ output ∧ t.minLeaf ∈ t.outputs) ∧
      ((∀ output ∈ t.outputs, output.isNaN = true) → t.minLeaf = infinity) ∧
      ∀ (σ : Type) (f : σ → Binary32 → σ × Binary32) (state : σ), t.ReplacedInTurn f state := by
  apply And.intro t.walkedInPreorder
  apply And.intro t.countedAlike
  apply And.intro t.depth_eq_height
  apply And.intro t.maxFeature_eq_some_iff
  apply And.intro t.maxFeature_eq_none_iff
  constructor
  · intro output houtput hn
    exact ⟨minLeaf_le houtput hn, minLeaf_mem_of_number houtput hn⟩
  · exact ⟨minLeaf_eq_infinity, fun σ f state => t.replacedInTurn f state⟩

theorem walks_follow_recursion_lopsided :
    let visited : List Tree :=
      [lopsided, .leaf ⟨0x7fc00001⟩, .split 1 .nan (.leaf ⟨0x80000000⟩) (.leaf .infinity),
        .leaf ⟨0x80000000⟩, .leaf .infinity]
    Yields [lopsided] visited ∧ walk (fun n _ => n + 1) 0 [lopsided] = visited.length ∧
      lopsided.minLeaf ≤ ⟨0x80000000⟩ ∧ lopsided.minLeaf ∈ lopsided.outputs ∧
      (leaf .nan).minLeaf = infinity ∧
      (lopsided.replaceOutputs (fun seen _ => (seen + 1, .ofNat seen)) 0).2.outputs =
        [.ofNat 0, .ofNat 1, .ofNat 2] := by
  intro visited
  obtain ⟨hwalked, _, _, _, _, hleast, _, hreplaced⟩ := walks_follow_recursion lopsided
  obtain ⟨_, _, _, _, _, _, hnone, _⟩ := walks_follow_recursion (leaf .nan)
  have hvisits : Yields [lopsided] visited := (hwalked.visits visited).2 rfl
  obtain ⟨hle, hmem⟩ := hleast ⟨0x80000000⟩ (by decide) (by decide)
  have hnan : (leaf .nan).minLeaf = infinity := hnone (by decide)
  have hturn := (hreplaced Nat (fun seen _ => (seen + 1, .ofNat seen)) 0).in_turn
  exact ⟨hvisits, hwalked.gathers Nat (fun n _ => n + 1) 0 visited hvisits, hle, hmem, hnan,
    (congrArg Prod.snd hturn).symm⟩

end Relevance.Tree
