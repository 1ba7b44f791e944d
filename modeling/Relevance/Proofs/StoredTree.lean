import Relevance.Ensemble.Layout
import Relevance.Proofs.SameNumber

namespace Relevance

theorem Tree.height_lt_extent {widths : NodeWidths} (hsplit : 0 < widths.split)
    (hleaf : 0 < widths.leaf) (t : Tree) : t.height < t.extent widths := by
  induction t with
  | leaf output => exact hleaf
  | split feature threshold left right ihl ihr =>
    simp only [Tree.height, Tree.extent]
    omega

theorem Tree.eval_mapOutputs (f : Binary32 → Binary32) (source : FeatureSource) (t : Tree) :
    (t.mapOutputs f).eval source = (t.eval source).map f := by
  induction t with
  | leaf output => rfl
  | split feature threshold left right ihl ihr =>
    rw [Tree.mapOutputs, Tree.eval, Tree.eval]
    cases source feature with
    | none => rfl
    | some score =>
      simp only
      split
      · exact ihl
      · exact ihr

@[simp] theorem Tree.extent_mapOutputs (f : Binary32 → Binary32) (widths : NodeWidths) (t : Tree) :
    (t.mapOutputs f).extent widths = t.extent widths := by
  induction t with
  | leaf output => rfl
  | split feature threshold left right ihl ihr => simp only [Tree.mapOutputs, Tree.extent, ihl, ihr]

@[simp] theorem Tree.height_mapOutputs (f : Binary32 → Binary32) (t : Tree) :
    (t.mapOutputs f).height = t.height := by
  induction t with
  | leaf output => rfl
  | split feature threshold left right ihl ihr => simp only [Tree.mapOutputs, Tree.height, ihl, ihr]

theorem Ensemble.width_le_widthOf {widths : NodeWidths} {terms : List WeightedTree}
    {term : WeightedTree} (h : term ∈ terms) : term.width widths ≤ widthOf widths terms := by
  induction terms with
  | nil => exact absurd h List.not_mem_nil
  | cons first rest ih =>
    rw [widthOf]
    rcases List.mem_cons.1 h with rfl | h
    · exact Nat.le_add_right _ _
    · exact Nat.le_add_left_of_le (ih h)

theorem Ensemble.height_lt_width {widths : NodeWidths} (hsplit : 0 < widths.split)
    (hleaf : 0 < widths.leaf) (e : Ensemble) {term : WeightedTree} (hterm : term ∈ e.terms) :
    term.tree.height < e.width widths :=
  calc
    term.tree.height < term.tree.extent widths := term.tree.height_lt_extent hsplit hleaf
    _ = term.width widths := (term.width_eq widths).symm
    _ ≤ e.width widths := width_le_widthOf hterm

def WeightedTree.folded (term : WeightedTree) : Tree := term.tree.mapOutputs (· * term.weight)

/-- A walk ends as evaluation does: with the same number, or at a missing feature. -/
def Walked (source : FeatureSource) (answer : Option Binary32)
    (walk : Except WalkFault Binary32) : Prop :=
  match answer with
  | some x => ∃ y, walk = .ok y ∧ x.Same y
  | none => ∃ ordinal, source ordinal = none ∧ walk = .error (.missingFeature ordinal)

namespace StoredNode

variable {node? : Nat → Option StoredNode} {widths : NodeWidths}

/-- A tree stands at an address: split, left subtree and right subtree one behind the other. -/
def StoredAt (node? : Nat → Option StoredNode) (widths : NodeWidths) (address : Nat) : Tree → Prop
  | .leaf output => node? address = some (.leaf output)
  | .split feature threshold left right =>
    let leftStart := address + widths.split
    let rightStart := leftStart + left.extent widths
    node? address = some (.split feature threshold rightStart) ∧
      StoredAt node? widths leftStart left ∧ StoredAt node? widths rightStart right

/-- Consecutive trees stand from an address on, each with its weight in its leaves. -/
def StoredFrom (node? : Nat → Option StoredNode) (widths : NodeWidths) :
    Nat → List WeightedTree → Prop
  | _, [] => True
  | start, term :: rest =>
    StoredAt node? widths start term.folded ∧
      StoredFrom node? widths (start + term.width widths) rest

/-- Every node of a list is read where the nodes before it end. -/
def Reads (node? : Nat → Option StoredNode) (widths : NodeWidths) (nodes : List StoredNode) :
    Prop :=
  ∀ before node after, nodes = before ++ node :: after → node? (extent widths before) = some node

theorem Reads.storedAt (before : List StoredNode) {weight : Binary32} {t : Tree}
    (after : List StoredNode) (h : Reads node? widths
      (before ++ t.stored widths weight (extent widths before) ++ after)) :
    StoredAt node? widths (extent widths before) (t.mapOutputs (· * weight)) := by
  induction t generalizing before after with
  | leaf output => exact h before _ after (by simp [Tree.stored])
  | split feature threshold left right ihl ihr =>
    let leftStart := extent widths before + widths.split
    let rightStart := leftStart + left.extent widths
    let node := StoredNode.split feature threshold rightStart
    have hnodes : before ++ (Tree.split feature threshold left right).stored widths weight
        (extent widths before) ++ after =
        before ++ node ::
          (left.stored widths weight leftStart ++
            (right.stored widths weight rightStart ++ after)) := by
      simp [Tree.stored, node, rightStart, leftStart]
    have hleft : extent widths (before ++ [node]) = leftStart := by
      simp [node, width, leftStart]
    have hright : extent widths (before ++ node :: left.stored widths weight leftStart) =
        rightStart := by
      simp [node, width, rightStart, leftStart, Nat.add_assoc]
    rw [hnodes] at h
    -- For either subtree, the split and the other subtree are among the nodes around it.
    have ihl := ihl (before ++ [node]) (right.stored widths weight rightStart ++ after)
    have ihr := ihr (before ++ node :: left.stored widths weight leftStart) after
    rw [hleft] at ihl
    rw [hright] at ihr
    rw [Tree.mapOutputs, StoredAt, Tree.extent_mapOutputs]
    refine ⟨h before node _ rfl, ihl ?_, ihr ?_⟩
    · simpa using h
    · simpa using h

theorem Reads.storedFrom (before : List StoredNode) {terms : List WeightedTree}
    (h : Reads node? widths (before ++ Ensemble.storedFrom widths (extent widths before) terms)) :
    StoredFrom node? widths (extent widths before) terms := by
  induction terms generalizing before with
  | nil => trivial
  | cons term rest ih =>
    rw [Ensemble.storedFrom, ← List.append_assoc] at h
    refine ⟨Reads.storedAt before _ h, ?_⟩
    have ih := ih (before ++ term.tree.stored widths term.weight (extent widths before))
    rw [extent_append, Tree.extent_stored, ← WeightedTree.width_eq] at ih
    exact ih h

/-- Following the stored nodes reaches the leaf that evaluation reaches. -/
theorem StoredAt.walked {t : Tree} {address : Nat} (h : StoredAt node? widths address t)
    (source : FeatureSource) (fuel : Nat) (hfuel : t.height < fuel) :
    Walked source (t.eval source) (follow node? widths source fuel address) := by
  induction t generalizing address fuel with
  | leaf output =>
    obtain ⟨fuel, rfl⟩ := Nat.exists_eq_succ_of_ne_zero (Nat.ne_zero_of_lt hfuel)
    rw [follow, show node? address = _ from h]
    exact ⟨output, rfl, .refl _⟩
  | split feature threshold left right ihl ihr =>
    obtain ⟨fuel, rfl⟩ := Nat.exists_eq_succ_of_ne_zero (Nat.ne_zero_of_lt hfuel)
    obtain ⟨hnode, hleft, hright⟩ := h
    rw [Tree.height] at hfuel
    rw [follow, Tree.eval]
    simp only [hnode]
    cases hsource : source feature with
    | none => exact ⟨feature, hsource, rfl⟩
    | some score =>
      by_cases hlt : score < threshold
      · simp only [if_pos hlt]
        exact ihl hleft fuel (by omega)
      · simp only [if_neg hlt]
        exact ihr hright fuel (by omega)

theorem StoredFrom.walked_foldlM {start fuel : Nat} {terms : List WeightedTree}
    (h : StoredFrom node? widths start terms) (source : FeatureSource)
    (hend : start + Ensemble.widthOf widths terms < 0x80000000)
    (hfuel : ∀ term ∈ terms, term.tree.height < fuel) {sum sum' : Binary32} (hsum : sum.Same sum') :
    Walked source
      (terms.foldlM (fun sum term =>
        (term.tree.eval source).map fun output => sum + term.weight * output) sum)
      (((Ensemble.rootsFrom widths start terms).map Int32.ofNat).foldlM (fun sum root =>
        (follow node? widths source fuel root.toNatClampNeg).map (sum + ·)) sum') := by
  induction terms generalizing start sum sum' with
  | nil => exact ⟨sum', rfl, hsum⟩
  | cons term rest ih =>
    obtain ⟨hterm, hrest⟩ := h
    rw [Ensemble.widthOf] at hend
    have hroot : (Int32.ofNat start).toNatClampNeg = start :=
      Int32.toNatClampNeg_ofNat_of_lt (by omega)
    have hwalked := hterm.walked source fuel (by
      rw [WeightedTree.folded, Tree.height_mapOutputs]
      exact hfuel term List.mem_cons_self)
    rw [WeightedTree.folded, Tree.eval_mapOutputs] at hwalked
    rw [Ensemble.rootsFrom, List.map_cons, List.foldlM_cons, List.foldlM_cons, hroot]
    cases heval : term.tree.eval source with
    | none =>
      rw [heval] at hwalked
      obtain ⟨ordinal, hsource, hfollow⟩ := hwalked
      exact ⟨ordinal, hsource, by rw [hfollow]; rfl⟩
    | some output =>
      rw [heval] at hwalked
      obtain ⟨found, hfollow, hfound⟩ := hwalked
      rw [hfollow]
      -- Evaluation takes weight times output where output times weight is stored.
      exact ih hrest (by omega) (fun term hmem => hfuel term (List.mem_cons_of_mem _ hmem))
        (hsum.add ((Binary32.Same.mul_comm _ _).trans hfound))

theorem StoredFrom.walked_sum {e : Ensemble} (h : StoredFrom node? widths 0 e.terms)
    (hsplit : 0 < widths.split) (hleaf : 0 < widths.leaf) (hwidth : e.width widths < 0x80000000)
    (source : FeatureSource) :
    Walked source (e.rawScore source)
      (sumFrom node? widths source (e.width widths)
        ((Ensemble.rootsFrom widths 0 e.terms).map Int32.ofNat).toArray) := by
  exact h.walked_foldlM source (by rwa [Nat.zero_add])
    (fun term hterm => e.height_lt_width hsplit hleaf hterm) (.refl _)

end StoredNode

end Relevance
