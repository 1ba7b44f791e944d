import Relevance.Proofs.SlotAddresses

namespace Relevance

theorem Tree.size_pos (t : Tree) : 0 < t.size := by
  cases t with
  | leaf output => exact Nat.one_pos
  | split feature threshold left right => exact Nat.succ_pos _

namespace Ensemble

theorem nodeCount_eq (e : Ensemble) : e.nodeCount = (e.trees.map Tree.size).sum := by
  have hfold (terms : List WeightedTree) (n : Nat) :
      terms.foldl (fun n term => n + term.tree.count .all) n =
        n + ((terms.map (·.tree)).map Tree.size).sum := by
    induction terms generalizing n with
    | nil => rfl
    | cons term rest ih =>
      rw [List.foldl_cons, ih, Tree.count_all, Nat.add_assoc]
      rfl
  rw [nodeCount, hfold, Nat.zero_add, trees]

theorem nodeCount_eq_counts (e : Ensemble) :
    e.nodeCount = (e.trees.map (·.count .splits)).sum + (e.trees.map (·.count .leaves)).sum := by
  rw [nodeCount_eq]
  induction e.trees with
  | nil => rfl
  | cons t rest ih =>
    simp only [List.map_cons, List.sum_cons]
    rw [ih, Tree.size_eq_counts]
    omega

theorem treeCount_le_nodeCount (e : Ensemble) : e.treeCount ≤ e.nodeCount := by
  rw [nodeCount_eq, treeCount, trees]
  induction e.terms with
  | nil => exact Nat.le_refl 0
  | cons term rest ih =>
    have hpos := term.tree.size_pos
    simp only [List.length_cons, List.map_cons, List.sum_cons]
    omega

theorem nodeCount_flat {e : Ensemble} {f : FlatEnsemble} (h : FlatEnsemble.ofEnsemble e = .ok f) :
    f.nodeCount = e.nodeCount := by
  rw [FlatEnsemble.nodeCount_eq h, width, widthOf_flat, nodeCount_eq, trees]
  congr 2
  funext t
  exact t.count_all

/-- The memory figures of the encodings, and how they compare. -/
theorem encodings_save_memory {e : Ensemble} {f : FlatEnsemble} {p : PackedEnsemble}
    (hf : FlatEnsemble.ofEnsemble e = .ok f) (hp : PackedEnsemble.ofEnsemble e = .ok p) :
    let splits := (e.trees.map (·.count .splits)).sum
    let leaves := (e.trees.map (·.count .leaves)).sum
    e.memory = 64 + 32 * (splits + leaves) + 4 * e.weights.length ∧
      f.memory = 80 + 4 * e.treeCount + 10 * (splits + leaves) ∧
      p.memory = 48 + (10 * splits + 6 * leaves) + 4 * e.treeCount ∧
      p.memory ≤ f.memory ∧ p.memory ≤ e.memory ∧ (f.memory ≤ e.memory ↔ 0 < e.treeCount) := by
  intro splits leaves
  have hnodes : e.nodeCount = splits + leaves := e.nodeCount_eq_counts
  have hnaive : e.memory = 64 + 32 * (splits + leaves) + 4 * e.treeCount := by
    rw [memory, hnodes]
  have hflat : f.memory = 80 + 4 * e.treeCount + 10 * (splits + leaves) := by
    rw [FlatEnsemble.memory, FlatEnsemble.treeCount, FlatEnsemble.size_roots hf, nodeCount_flat hf,
      hnodes]
  have hpacked : p.memory = 48 + (10 * splits + 6 * leaves) + 4 * e.treeCount := by
    rw [PackedEnsemble.memory, PackedEnsemble.treeCount, PackedEnsemble.size_roots hp,
      PackedEnsemble.byteCount_eq_counts hp]
  have hweights : e.weights.length = e.treeCount := List.length_map _
  have hle := e.treeCount_le_nodeCount
  -- Without trees there are no nodes, and only the fixed parts of the figures are left.
  have hnone : e.treeCount = 0 → splits + leaves = 0 := by
    intro hzero
    rw [← hnodes, nodeCount, List.eq_nil_of_length_eq_zero hzero]
    rfl
  refine ⟨by rw [hweights, hnaive], hflat, hpacked, ?_, ?_, ?_⟩ <;> omega

theorem encodings_save_memory_mixed :
    FlatEnsemble.ofEnsemble mixedEnsemble = .ok .mixed ∧
      PackedEnsemble.ofEnsemble mixedEnsemble = .ok .mixed ∧
      PackedEnsemble.mixed.memory ≤ FlatEnsemble.mixed.memory ∧
      FlatEnsemble.mixed.memory ≤ mixedEnsemble.memory := by
  have hf : FlatEnsemble.ofEnsemble mixedEnsemble = .ok .mixed := by decide +kernel
  have hp : PackedEnsemble.ofEnsemble mixedEnsemble = .ok .mixed := by decide +kernel
  obtain ⟨_, _, _, hle, _, hiff⟩ := encodings_save_memory hf hp
  exact ⟨hf, hp, hle, hiff.2 (by decide)⟩

def withoutTrees : Ensemble where
  terms := []
  featureCount := 0
  objective := .identity
  features_lt := by decide

/-- Without trees the flat encoding needs more memory than the list of no trees. -/
theorem flat_needs_more_without_trees :
    ∃ f p, FlatEnsemble.ofEnsemble withoutTrees = .ok f ∧
      PackedEnsemble.ofEnsemble withoutTrees = .ok p ∧ withoutTrees.memory = 64 ∧
      f.memory = 80 ∧ p.memory = 48 ∧ ¬f.memory ≤ withoutTrees.memory :=
  ⟨⟨#[], #[], 0, .identity⟩, ⟨#[], ⟨#[]⟩, 0, .identity⟩, by decide +kernel, by decide +kernel,
    by decide, by decide, by decide, by decide⟩

end Ensemble

end Relevance
