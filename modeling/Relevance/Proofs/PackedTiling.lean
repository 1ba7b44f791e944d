import Mathlib.Algebra.Ring.Nat
import Relevance.Proofs.EncodedScores
import Relevance.Proofs.TreeCounts

namespace Relevance

/-- The addresses that a node takes, the last of them excluded. -/
structure NodeSpan where
  start : Nat
  stop : Nat
  deriving DecidableEq

/-- A tree read back from storage, with the spans of its nodes in preorder. -/
structure TreeReading where
  tree : Tree
  spans : List NodeSpan

def NodeSpan.Tiles : Nat → Nat → List NodeSpan → Prop
  | start, stop, [] => start = stop
  | start, stop, span :: rest => span.start = start ∧ start < span.stop ∧ Tiles span.stop stop rest

theorem NodeSpan.Tiles.append {start middle stop : Nat} {spans others : List NodeSpan}
    (h : Tiles start middle spans) (hothers : Tiles middle stop others) :
    Tiles start stop (spans ++ others) := by
  induction spans generalizing start with
  | nil =>
    cases h
    exact hothers
  | cons span rest ih =>
    obtain ⟨hstart, hlt, hrest⟩ := h
    exact ⟨hstart, hlt, ih hrest⟩

namespace StoredNode

/-- Reads the tree at an address, no more than `fuel` nodes deep. -/
def readTree? (node? : Nat → Option StoredNode) (widths : NodeWidths) :
    Nat → Nat → Option TreeReading
  | 0, _ => none
  | fuel + 1, address =>
    match node? address with
    | none => none
    | some (leaf output) => some ⟨.leaf output, [⟨address, address + widths.leaf⟩]⟩
    | some (split feature threshold right) => do
      let leftReading ← readTree? node? widths fuel (address + widths.split)
      let rightReading ← readTree? node? widths fuel right
      return ⟨.split feature threshold leftReading.tree rightReading.tree,
        ⟨address, address + widths.split⟩ :: (leftReading.spans ++ rightReading.spans)⟩

variable {node? : Nat → Option StoredNode} {widths : NodeWidths}

theorem StoredAt.readTree? {t : Tree} {address : Nat} (h : StoredAt node? widths address t)
    (hsplit : 0 < widths.split) (hleaf : 0 < widths.leaf) (fuel : Nat) (hfuel : t.height < fuel) :
    ∃ spans, StoredNode.readTree? node? widths fuel address = some ⟨t, spans⟩ ∧
      NodeSpan.Tiles address (address + t.extent widths) spans := by
  induction t generalizing address fuel with
  | leaf output =>
    obtain ⟨fuel, rfl⟩ := Nat.exists_eq_succ_of_ne_zero (Nat.ne_zero_of_lt hfuel)
    refine ⟨[⟨address, address + widths.leaf⟩], ?_, rfl, Nat.lt_add_of_pos_right hleaf, rfl⟩
    rw [StoredNode.readTree?, show node? address = _ from h]
  | split feature threshold left right ihl ihr =>
    obtain ⟨fuel, rfl⟩ := Nat.exists_eq_succ_of_ne_zero (Nat.ne_zero_of_lt hfuel)
    obtain ⟨hnode, hleft, hright⟩ := h
    rw [Tree.height] at hfuel
    obtain ⟨leftSpans, hreadLeft, htilesLeft⟩ := ihl hleft fuel (by omega)
    obtain ⟨rightSpans, hreadRight, htilesRight⟩ := ihr hright fuel (by omega)
    refine ⟨⟨address, address + widths.split⟩ :: (leftSpans ++ rightSpans), ?_, rfl,
      Nat.lt_add_of_pos_right hsplit, ?_⟩
    · rw [StoredNode.readTree?, hnode]
      simp only [hreadLeft, hreadRight]
      rfl
    · rw [Tree.extent, ← Nat.add_assoc, ← Nat.add_assoc]
      exact htilesLeft.append htilesRight

theorem StoredFrom.storedAt_root {start : Nat} {terms : List WeightedTree}
    (h : StoredFrom node? widths start terms) {i : Nat} (hi : i < terms.length) :
    ∃ root, (Ensemble.rootsFrom widths start terms)[i]? = some root ∧
      StoredAt node? widths root terms[i].folded ∧
      root + terms[i].width widths ≤ start + Ensemble.widthOf widths terms ∧
      ((Ensemble.rootsFrom widths start terms)[i + 1]?).getD
        (start + Ensemble.widthOf widths terms) = root + terms[i].width widths := by
  induction terms generalizing start i with
  | nil => exact absurd hi (Nat.not_lt_zero i)
  | cons term rest ih =>
    obtain ⟨hterm, hrest⟩ := h
    rw [Ensemble.widthOf, ← Nat.add_assoc]
    cases i with
    | zero =>
      refine ⟨start, rfl, hterm, Nat.le_add_right _ _, ?_⟩
      cases rest with
      | nil => rfl
      | cons next rest => rfl
    | succ i => exact ih hrest (Nat.lt_of_succ_lt_succ hi)

theorem StoredFrom.exists_root {e : Ensemble} (h : StoredFrom node? widths 0 e.terms)
    (hwidth : e.width widths < 0x80000000) {i : Nat} (hi : i < e.terms.length) {roots : Array Int32}
    (hroots : roots = ((Ensemble.rootsFrom widths 0 e.terms).map Int32.ofNat).toArray) :
    ∃ root, roots[i]? = some (.ofNat root) ∧ root < 0x80000000 ∧
      StoredAt node? widths root e.terms[i].folded ∧
      (roots[i + 1]?.map Int32.toNatClampNeg).getD (e.width widths) =
        root + e.terms[i].width widths := by
  obtain ⟨root, hroot, hstored, hle, hend⟩ := h.storedAt_root hi
  rw [Nat.zero_add] at hle hend
  rw [Ensemble.width] at hwidth ⊢
  have hentry (j : Nat) :
      roots[j]? = ((Ensemble.rootsFrom widths 0 e.terms)[j]?).map Int32.ofNat := by
    rw [hroots, List.getElem?_toArray, List.getElem?_map]
  refine ⟨root, by rw [hentry, hroot, Option.map_some], by omega, hstored, ?_⟩
  rw [← hend, hentry]
  cases hnext : (Ensemble.rootsFrom widths 0 e.terms)[i + 1]? with
  | none => rfl
  | some next =>
    rw [hnext, Option.getD_some] at hend
    exact Int32.toNatClampNeg_ofNat_of_lt (by omega)

end StoredNode

namespace PackedEnsemble

def readTree? (p : PackedEnsemble) (offset : Nat) : Option TreeReading :=
  StoredNode.readTree? p.node? PackedStore.widths p.byteCount offset

def treeEnd (p : PackedEnsemble) (i : Nat) : Nat :=
  (p.roots[i + 1]?.map Int32.toNatClampNeg).getD p.byteCount

open StoredNode

theorem width_eq_counts (term : WeightedTree) :
    term.width PackedStore.widths =
      10 * term.tree.count .splits + 6 * term.tree.count .leaves := by
  rw [WeightedTree.width_eq, Tree.extent_eq, Tree.count_splits, Tree.count_leaves, Nat.mul_comm 10,
    Nat.mul_comm 6]
  rfl

theorem byteCount_eq_counts {e : Ensemble} {p : PackedEnsemble} (h : ofEnsemble e = .ok p) :
    p.byteCount = 10 * (e.trees.map (·.count .splits)).sum
      + 6 * (e.trees.map (·.count .leaves)).sum := by
  rw [byteCount_eq h, Ensemble.width, Ensemble.trees]
  induction e.terms with
  | nil => rfl
  | cons term rest ih =>
    simp only [List.map_cons, List.sum_cons]
    rw [Ensemble.widthOf, ih, width_eq_counts]
    omega

theorem roots_getElem? {e : Ensemble} {p : PackedEnsemble} (h : ofEnsemble e = .ok p) (i : Nat) :
    p.roots[i]? = ((Ensemble.rootsFrom PackedStore.widths 0 e.terms)[i]?).map Int32.ofNat := by
  obtain ⟨_, _, rfl⟩ := ofEnsemble_ok h
  simp

theorem size_roots {e : Ensemble} {p : PackedEnsemble} (h : ofEnsemble e = .ok p) :
    p.roots.size = e.treeCount := by
  obtain ⟨_, _, rfl⟩ := ofEnsemble_ok h
  rw [List.size_toArray, List.length_map, Ensemble.length_rootsFrom, Ensemble.treeCount]

theorem exists_root {e : Ensemble} {p : PackedEnsemble} (h : ofEnsemble e = .ok p) {i : Nat}
    (hi : i < e.terms.length) :
    ∃ root, p.roots[i]? = some (.ofNat root) ∧ root < 0x80000000 ∧
      StoredAt p.node? PackedStore.widths root e.terms[i].folded ∧
      p.treeEnd i = root + e.terms[i].width PackedStore.widths := by
  obtain ⟨_, hwidth, hp⟩ := ofEnsemble_ok h
  obtain ⟨root, hroot, hlt, hstored, hend⟩ :=
    (storedFrom h).exists_root hwidth hi (congrArg PackedEnsemble.roots hp)
  rw [← byteCount_eq h] at hend
  exact ⟨root, hroot, hlt, hstored, hend⟩

/-- The nodes of the trees take the whole packed buffer, and each tree is read at its root. -/
theorem packed_trees_tile {e : Ensemble} {p : PackedEnsemble} (h : ofEnsemble e = .ok p) :
    p.roots.size = e.treeCount ∧
      (0 < e.treeCount → p.roots[0]? = some 0) ∧
      p.byteCount = 10 * (e.trees.map (·.count .splits)).sum
        + 6 * (e.trees.map (·.count .leaves)).sum ∧
      ∀ i (hi : i < e.terms.length), ∃ root spans,
        p.roots[i]? = some root ∧ 0 ≤ root ∧
        p.readTree? root.toNatClampNeg = some ⟨e.terms[i].folded, spans⟩ ∧
        NodeSpan.Tiles root.toNatClampNeg (p.treeEnd i) spans ∧
        p.treeEnd i = root.toNatClampNeg + (10 * e.terms[i].tree.count .splits
          + 6 * e.terms[i].tree.count .leaves) := by
  refine ⟨size_roots h, ?_, byteCount_eq_counts h, ?_⟩
  · intro hpos
    obtain ⟨term, rest, hterms⟩ := List.exists_cons_of_length_pos hpos
    rw [roots_getElem? h, hterms]
    rfl
  · intro i hi
    obtain ⟨root, hroot, hlt, hstored, hend⟩ := exists_root h hi
    -- A buffer longer than every path is fuel enough.
    have hheight : e.terms[i].folded.height < p.byteCount := by
      rw [WeightedTree.folded, Tree.height_mapOutputs, byteCount_eq h]
      exact e.height_lt_width (by decide) (by decide) (List.getElem_mem hi)
    obtain ⟨spans, hread, htiles⟩ := hstored.readTree? (by decide) (by decide) p.byteCount hheight
    rw [WeightedTree.folded, Tree.extent_mapOutputs, ← WeightedTree.width_eq, ← hend] at htiles
    refine ⟨.ofNat root, spans, hroot, Int32.not_lt.1 (int32_not_neg hlt), ?_⟩
    rw [Int32.toNatClampNeg_ofNat_of_lt hlt, ← width_eq_counts]
    exact ⟨hread, htiles, hend⟩

theorem packed_trees_tile_mixed :
    ofEnsemble mixedEnsemble = .ok mixed ∧
      mixed.roots.size = 2 ∧ (0 < 2 → mixed.roots[0]? = some 0) ∧
      mixed.byteCount = 10 * (mixedEnsemble.trees.map (·.count .splits)).sum
        + 6 * (mixedEnsemble.trees.map (·.count .leaves)).sum ∧
      ∀ i (hi : i < mixedEnsemble.terms.length), ∃ root spans,
        mixed.roots[i]? = some root ∧ 0 ≤ root ∧
        mixed.readTree? root.toNatClampNeg = some ⟨mixedEnsemble.terms[i].folded, spans⟩ ∧
        NodeSpan.Tiles root.toNatClampNeg (mixed.treeEnd i) spans ∧
        mixed.treeEnd i = root.toNatClampNeg + (10 * mixedEnsemble.terms[i].tree.count .splits
          + 6 * mixedEnsemble.terms[i].tree.count .leaves) :=
  have h : ofEnsemble mixedEnsemble = .ok mixed := by decide +kernel
  ⟨h, packed_trees_tile h⟩

end PackedEnsemble

end Relevance
