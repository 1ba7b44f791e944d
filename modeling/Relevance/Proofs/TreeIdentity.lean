import Relevance.Ensemble.Basic

namespace Relevance

/-- A feed that cannot be mistaken for the beginning of another one, whatever is fed after it. -/
def Fingerprint.PrefixFree {α : Type} (feed : α → Fingerprint) : Prop :=
  ∀ a b rest rest', feed a ++ rest = feed b ++ rest' → a = b ∧ rest = rest'

namespace Fingerprint

theorem PrefixFree.eq_of_feed_eq {α : Type} {feed : α → Fingerprint} (h : PrefixFree feed) {a b : α}
    (hab : feed a = feed b) : a = b :=
  (h a b [] [] (by rw [hab])).1

theorem PrefixFree.flatMap {α : Type} {feed : α → Fingerprint} (h : PrefixFree feed) {xs ys : List α}
    (hlength : xs.length = ys.length) (hfeed : xs.flatMap feed = ys.flatMap feed) : xs = ys := by
  induction xs generalizing ys with
  | nil => exact (List.eq_nil_of_length_eq_zero hlength.symm).symm
  | cons x xs ih =>
    cases ys with
    | nil => cases hlength
    | cons y ys =>
      rw [List.flatMap_cons, List.flatMap_cons] at hfeed
      obtain ⟨rfl, hrest⟩ := h x y _ _ hfeed
      rw [ih (Nat.succ.inj hlength) hrest]

/-- The length fed first tells where a sequence ends. -/
theorem prefixFree_sequence {α : Type} {item : α → HashItem} (h : ∀ {a b}, item a = item b → a = b) :
    PrefixFree (sequence item) := by
  intro xs ys rest rest' hfeed
  rw [sequence, sequence, List.cons_append, List.cons_append, List.cons.injEq,
    HashItem.size.injEq] at hfeed
  obtain ⟨hlength, hfeed⟩ := hfeed
  obtain ⟨hitems, hrest⟩ := List.append_inj hfeed (by rw [List.length_map, List.length_map, hlength])
  exact ⟨(List.map_inj_right fun _ _ => h).1 hitems, hrest⟩

end Fingerprint

open Fingerprint

theorem HashItem.eq_of_number_eq {x y : Binary32} (h : number x = number y) : x = y := by
  cases x
  cases y
  cases h
  rfl

theorem Objective.prefixFree_fingerprint : PrefixFree Objective.fingerprint := by
  intro a b rest rest' hfeed
  cases a with
  | identity =>
    cases b with
    | identity => exact ⟨rfl, (List.cons.inj hfeed).2⟩
    | logistic => cases hfeed
  | logistic =>
    cases b with
    | identity => cases hfeed
    | logistic => exact ⟨rfl, (List.cons.inj hfeed).2⟩

namespace Tree

theorem preorder_eq_nodes (t : Tree) : t.preorder = t.nodes := by
  have hpush (subtrees : List Tree) (acc : Array TreeNode) :
      (subtrees.foldl (fun acc t => acc.push t.root) acc).toList =
        acc.toList ++ subtrees.map root := by
    induction subtrees generalizing acc with
    | nil => exact (List.append_nil _).symm
    | cons s subtrees ih => rw [List.foldl_cons, ih, Array.toList_push, List.map_cons,
        List.append_assoc, List.singleton_append]
  rw [preorder, walk_singleton, hpush, nodes]
  rfl

theorem fingerprint_leaf (output : Binary32) :
    (leaf output).fingerprint = [.byte 1, .number output] := by
  rw [fingerprint, preorder_eq_nodes]
  rfl

theorem fingerprint_split (feature : Nat) (threshold : Binary32) (left right : Tree) :
    (split feature threshold left right).fingerprint =
      [.byte 0, .size feature, .number threshold] ++ (left.fingerprint ++ right.fingerprint) := by
  simp only [fingerprint, preorder_eq_nodes]
  simp only [nodes, subtrees, List.map_cons, List.map_append, List.flatMap_cons,
    List.flatMap_append]
  rfl

/-- Every split is followed by exactly two subtrees, so a tree ends where its nodes say. -/
theorem prefixFree_fingerprint : PrefixFree fingerprint := by
  intro s
  induction s with
  | leaf output =>
    intro t rest rest' hfeed
    cases t with
    | leaf output' =>
      rw [fingerprint_leaf, fingerprint_leaf] at hfeed
      simp only [List.cons_append, List.nil_append, List.cons.injEq, true_and] at hfeed
      obtain ⟨houtput, hrest⟩ := hfeed
      rw [HashItem.eq_of_number_eq houtput]
      exact ⟨rfl, hrest⟩
    | split feature threshold left right =>
      rw [fingerprint_leaf, fingerprint_split] at hfeed
      cases hfeed
  | split feature threshold left right ihl ihr =>
    intro t rest rest' hfeed
    cases t with
    | leaf output =>
      rw [fingerprint_leaf, fingerprint_split] at hfeed
      cases hfeed
    | split feature' threshold' left' right' =>
      rw [fingerprint_split, fingerprint_split] at hfeed
      simp only [List.cons_append, List.nil_append, List.append_assoc, List.cons.injEq, true_and,
        HashItem.size.injEq] at hfeed
      obtain ⟨rfl, hthreshold, hfeed⟩ := hfeed
      rw [HashItem.eq_of_number_eq hthreshold]
      obtain ⟨rfl, hright⟩ := ihl _ _ _ hfeed
      obtain ⟨rfl, hrest⟩ := ihr _ _ _ hright
      exact ⟨rfl, hrest⟩

theorem sameNodes_iff (stack others : List Tree) :
    sameNodes stack others = true ↔ stack = others := by
  fun_induction sameNodes stack others with
  | case1 => simp
  | case2 s stack t others ih =>
    rw [Bool.and_eq_true, beq_iff_eq, ih]
    cases s with
    | leaf output =>
      cases t with
      | leaf output' => simp [root, children]
      | split feature threshold left right => simp [root]
    | split feature threshold left right =>
      cases t with
      | leaf output => simp [root]
      | split feature' threshold' left' right' => simp [root, children, and_assoc]
  | case3 stack others hnil hcons =>
    cases stack with
    | nil =>
      cases others with
      | nil => exact absurd rfl (hnil rfl)
      | cons t others => simp
    | cons s stack =>
      cases others with
      | nil => simp
      | cons t others => exact absurd rfl (hcons s stack t others rfl)

instance : LawfulBEq Tree where
  eq_of_beq {s t} h := by
    have hsame : [s] = [t] := (sameNodes_iff [s] [t]).1 h
    exact List.singleton_inj.1 hsame
  rfl {t} := (sameNodes_iff [t] [t]).2 rfl

end Tree

namespace Ensemble

structure Identical (a b : Ensemble) : Prop where
  featureCount : a.featureCount = b.featureCount
  objective : a.objective = b.objective
  weights : a.weights = b.weights
  trees : a.trees = b.trees

theorem length_trees (e : Ensemble) : e.trees.length = e.treeCount := List.length_map _

variable {a b : Ensemble}

theorem identical_of_fingerprint (h : a.fingerprint = b.fingerprint) : a.Identical b := by
  simp only [fingerprint, List.append_assoc, List.cons_append, List.cons.injEq,
    HashItem.size.injEq] at h
  obtain ⟨hcount, h⟩ := h
  obtain ⟨hobjective, h⟩ := Objective.prefixFree_fingerprint _ _ _ _ h
  obtain ⟨hweights, h⟩ := prefixFree_sequence HashItem.eq_of_number_eq _ _ _ _ h
  simp only [List.cons.injEq, HashItem.size.injEq] at h
  obtain ⟨hlength, htrees⟩ := h
  have hlength : a.trees.length = b.trees.length := by
    rwa [length_trees, length_trees]
  exact ⟨hcount, hobjective, hweights, Tree.prefixFree_fingerprint.flatMap hlength htrees⟩

theorem Identical.fingerprint (h : a.Identical b) : a.fingerprint = b.fingerprint := by
  have hlength : a.treeCount = b.treeCount := by
    rw [← length_trees, h.trees, length_trees]
  rw [Ensemble.fingerprint, Ensemble.fingerprint, h.featureCount, h.objective, h.weights, h.trees,
    hlength]

theorem beq_iff : (a == b) = true ↔ a.Identical b := by
  change (a.featureCount == b.featureCount && a.objective == b.objective && a.weights == b.weights
    && a.trees == b.trees) = true ↔ _
  simp only [Bool.and_eq_true, beq_iff_eq]
  constructor
  · rintro ⟨⟨⟨hcount, hobjective⟩, hweights⟩, htrees⟩
    exact ⟨hcount, hobjective, hweights, htrees⟩
  · rintro ⟨hcount, hobjective, hweights, htrees⟩
    exact ⟨⟨⟨hcount, hobjective⟩, hweights⟩, htrees⟩

/-- Trees and ensembles are equal, and feed a hasher the same, just if they are the same. -/
theorem equality_is_identity :
    (∀ s t : Tree, ((s == t) = true ↔ s = t) ∧ (s = t ↔ s.fingerprint = t.fingerprint)) ∧
      ∀ a b : Ensemble, ((a == b) = true ↔ a.Identical b) ∧
        (a.Identical b ↔ a.fingerprint = b.fingerprint) := by
  constructor
  · intro s t
    exact ⟨beq_iff_eq, congrArg Tree.fingerprint, Tree.prefixFree_fingerprint.eq_of_feed_eq⟩
  · intro a b
    exact ⟨beq_iff, Identical.fingerprint, identical_of_fingerprint⟩

end Ensemble

end Relevance
