import Relevance.Ensemble.Layout

namespace Relevance

/-- Storage that takes the nodes of trees in preorder; a write outside of it has no result. -/
class NodeStore (σ : Type) where
  cursor : σ → Int32
  /-- Puts a split behind the nodes stored, with a handle to its right child. -/
  putSplit? : Int16 → Binary32 → σ → Option (Nat × σ)
  putLeaf? : Binary32 → σ → Option σ
  setRight? : Nat → Int32 → σ → Option σ

/-- A step of flattening a tree: store a subtree, or let a split point to the next node. -/
inductive FlattenStep
  | visit (t : Tree)
  | setRight (handle : Nat)

def FlattenStep.pending : List FlattenStep → Nat
  | [] => 0
  | visit t :: rest => 2 * t.size + pending rest
  | setRight _ :: rest => 1 + pending rest

namespace NodeStore

variable {σ : Type} [NodeStore σ]

/-- Runs a stack of steps. Leaf outputs are multiplied by the weight. -/
def run? (weight : Binary32) : List FlattenStep → σ → Option σ
  | [], store => some store
  | .visit (.leaf output) :: rest, store =>
    match putLeaf? (output * weight) store with
    | none => none
    | some store => run? weight rest store
  | .visit (.split feature threshold left right) :: rest, store =>
    match putSplit? (.ofNat feature) threshold store with
    | none => none
    | some (handle, store) =>
      run? weight (.visit left :: .setRight handle :: .visit right :: rest) store
  | .setRight handle :: rest, store =>
    match setRight? handle (cursor store) store with
    | none => none
    | some store => run? weight rest store
termination_by steps => FlattenStep.pending steps
decreasing_by
  all_goals
    simp only [FlattenStep.pending, Tree.size]
    omega

def addTree? : Array Int32 × σ → WeightedTree → Option (Array Int32 × σ)
  | (roots, store), term =>
    let root := cursor store
    (run? term.weight [.visit term.tree] store).map fun store => (roots.push root, store)

def fill? (terms : List WeightedTree) (store : σ) : Option (Array Int32 × σ) :=
  terms.foldlM addTree? (#[], store)

end NodeStore

/-- What storage does with nodes, said of the list of the nodes stored. -/
structure StoreLaws (σ : Type) [NodeStore σ] (widths : NodeWidths) where
  /-- Storage that holds the given nodes and has room left. -/
  Holds : List StoredNode → Nat → σ → Prop
  handle : List StoredNode → Nat
  cursor_eq {nodes room store} (h : Holds nodes room store) :
    NodeStore.cursor store = .ofNat (StoredNode.extent widths nodes)
  putSplit {nodes room store} (feature : Nat) (threshold : Binary32)
    (h : Holds nodes (widths.split + room) store) :
    ∃ filled, NodeStore.putSplit? (.ofNat feature) threshold store = some (handle nodes, filled) ∧
      Holds (nodes ++ [.split feature threshold 0]) room filled
  putLeaf {nodes room store} (output : Binary32) (h : Holds nodes (widths.leaf + room) store) :
    ∃ filled, NodeStore.putLeaf? output store = some filled ∧
      Holds (nodes ++ [.leaf output]) room filled
  setRight {nodes feature threshold others room store} (right : Nat)
    (h : Holds (nodes ++ .split feature threshold 0 :: others) room store) :
    ∃ filled, NodeStore.setRight? (handle nodes) (.ofNat right) store = some filled ∧
      Holds (nodes ++ .split feature threshold right :: others) room filled

namespace StoreLaws

variable {σ : Type} [NodeStore σ] {widths : NodeWidths}

/-- Visiting a tree puts its nodes behind those stored, and the steps that wait are run next. -/
theorem run?_visit (laws : StoreLaws σ widths) (weight : Binary32) (t : Tree)
    {nodes : List StoredNode} {room : Nat} {store : σ}
    (h : laws.Holds nodes (t.extent widths + room) store) :
    ∃ filled,
      (∀ rest, NodeStore.run? weight (.visit t :: rest) store =
        NodeStore.run? weight rest filled) ∧
      laws.Holds (nodes ++ t.stored widths weight (StoredNode.extent widths nodes)) room filled := by
  induction t generalizing nodes room store with
  | leaf output =>
    obtain ⟨filled, hput, hfilled⟩ := laws.putLeaf (output * weight) h
    exact ⟨filled, fun rest => by rw [NodeStore.run?, hput], hfilled⟩
  | split feature threshold left right ihl ihr =>
    rw [Tree.extent, Nat.add_assoc, Nat.add_assoc] at h
    obtain ⟨opened, hopen, hopened⟩ := laws.putSplit feature threshold h
    obtain ⟨halfway, hleft, hhalfway⟩ := ihl hopened
    -- The left subtree stands behind its split, which does not know its right child yet.
    simp only [StoredNode.extent_append, StoredNode.extent, StoredNode.width, Nat.add_zero,
      List.append_assoc, List.singleton_append] at hhalfway
    have hcursor := laws.cursor_eq hhalfway
    obtain ⟨joined, hset, hjoined⟩ := laws.setRight
      (StoredNode.extent widths nodes + widths.split + left.extent widths) hhalfway
    obtain ⟨filled, hright, hfilled⟩ := ihr hjoined
    simp only [StoredNode.extent_append, StoredNode.extent, StoredNode.width, Tree.extent_stored,
      ← Nat.add_assoc] at hcursor hfilled
    refine ⟨filled, fun rest => ?_, ?_⟩
    · rw [NodeStore.run?, hopen]
      simp only [hleft]
      rw [NodeStore.run?, hcursor, hset]
      simp only [hright]
    · simpa only [Tree.stored, List.append_assoc, List.cons_append] using hfilled

theorem foldlM_fill (laws : StoreLaws σ widths) (terms : List WeightedTree)
    {nodes : List StoredNode} {store : σ} (roots : Array Int32)
    (h : laws.Holds nodes (Ensemble.widthOf widths terms) store) :
    ∃ filled,
      terms.foldlM NodeStore.addTree? (roots, store) = some
        (roots ++ ((Ensemble.rootsFrom widths (StoredNode.extent widths nodes) terms).map
          Int32.ofNat).toArray, filled) ∧
      laws.Holds (nodes ++ Ensemble.storedFrom widths (StoredNode.extent widths nodes) terms) 0
        filled := by
  induction terms generalizing nodes store roots with
  | nil => exact ⟨store, by simp [Ensemble.rootsFrom], by
      simpa [Ensemble.storedFrom, Ensemble.widthOf] using h⟩
  | cons term rest ih =>
    rw [Ensemble.widthOf, WeightedTree.width_eq] at h
    obtain ⟨added, hrun, hadded⟩ := laws.run?_visit term.weight term.tree h
    obtain ⟨filled, hrest, hfilled⟩ := ih (roots.push (NodeStore.cursor store)) hadded
    rw [StoredNode.extent_append, Tree.extent_stored, ← WeightedTree.width_eq] at hrest hfilled
    refine ⟨filled, ?_, by simpa only [Ensemble.storedFrom, List.append_assoc] using hfilled⟩
    have hadd : NodeStore.addTree? (roots, store) term =
        some (roots.push (NodeStore.cursor store), added) := by
      rw [NodeStore.addTree?, hrun, NodeStore.run?, Option.map_some]
    rw [List.foldlM_cons, hadd]
    simpa [Ensemble.rootsFrom, laws.cursor_eq h] using hrest

theorem fill?_eq (laws : StoreLaws σ widths) (e : Ensemble) (store : σ)
    (h : laws.Holds [] (e.width widths) store) :
    ∃ filled,
      NodeStore.fill? e.terms store = some
        (((Ensemble.rootsFrom widths 0 e.terms).map Int32.ofNat).toArray, filled) ∧
      laws.Holds (Ensemble.storedFrom widths 0 e.terms) 0 filled := by
  simpa [NodeStore.fill?] using laws.foldlM_fill e.terms #[] h

end StoreLaws

end Relevance
