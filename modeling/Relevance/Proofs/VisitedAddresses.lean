import Relevance.Proofs.PackedTiling

namespace Relevance

open StoredNode

namespace Tree

/-- Where the nodes of a tree start in preorder, if the first of them is at `start`. -/
def starts (widths : NodeWidths) (start : Nat) : Tree → List Nat
  | leaf _ => [start]
  | split _ _ left right =>
    let leftStart := start + widths.split
    start :: (left.starts widths leftStart ++
      right.starts widths (leftStart + left.extent widths))

/-- Where the nodes start that evaluation passes on its way to a leaf or to a missing feature. -/
def trace (widths : NodeWidths) (source : FeatureSource) (start : Nat) : Tree → List Nat
  | leaf _ => [start]
  | split feature threshold left right =>
    let leftStart := start + widths.split
    start ::
      match source feature with
      | none => []
      | some score =>
        if score < threshold then left.trace widths source leftStart
        else right.trace widths source (leftStart + left.extent widths)

variable {widths : NodeWidths}

theorem starts_mapOutputs (f : Binary32 → Binary32) (start : Nat) (t : Tree) :
    (t.mapOutputs f).starts widths start = t.starts widths start := by
  induction t generalizing start with
  | leaf output => rfl
  | split feature threshold left right ihl ihr =>
    simp only [mapOutputs, starts, extent_mapOutputs, ihl, ihr]

theorem starts_within (hsplit : 0 < widths.split) (hleaf : 0 < widths.leaf) {start address : Nat}
    {t : Tree} (h : address ∈ t.starts widths start) :
    start ≤ address ∧ address < start + t.extent widths := by
  induction t generalizing start with
  | leaf output =>
    rw [List.mem_singleton.1 h]
    exact ⟨Nat.le_refl _, Nat.lt_add_of_pos_right hleaf⟩
  | split feature threshold left right ihl ihr =>
    simp only [starts, List.mem_cons, List.mem_append] at h
    rw [extent]
    rcases h with rfl | h | h
    · omega
    · have := ihl h
      omega
    · have := ihr h
      omega

variable (source : FeatureSource)

theorem trace_starts {start address : Nat} {t : Tree}
    (h : address ∈ t.trace widths source start) : address ∈ t.starts widths start := by
  induction t generalizing start with
  | leaf output => exact h
  | split feature threshold left right ihl ihr =>
    rw [trace, List.mem_cons] at h
    rcases h with rfl | h
    · exact List.mem_cons_self
    · apply List.mem_cons_of_mem
      rw [List.mem_append]
      split at h
      · exact absurd h List.not_mem_nil
      · split at h
        · exact .inl (ihl h)
        · exact .inr (ihr h)

/-- Evaluation goes ahead only. -/
theorem trace_ascending (hsplit : 0 < widths.split) (hleaf : 0 < widths.leaf) (start : Nat)
    (t : Tree) : (t.trace widths source start).Pairwise (· < ·) := by
  induction t generalizing start with
  | leaf output => exact List.pairwise_singleton _ start
  | split feature threshold left right ihl ihr =>
    rw [trace]
    cases source feature with
    | none => exact List.pairwise_singleton _ start
    | some score =>
      simp only
      split
      · apply List.pairwise_cons.2 ⟨_, ihl _⟩
        intro address haddress
        have := (starts_within hsplit hleaf (trace_starts source haddress)).1
        omega
      · apply List.pairwise_cons.2 ⟨_, ihr _⟩
        intro address haddress
        have := (starts_within hsplit hleaf (trace_starts source haddress)).1
        omega

theorem length_trace_le (start : Nat) (t : Tree) :
    (t.trace widths source start).length ≤ t.height + 1 := by
  induction t generalizing start with
  | leaf output => exact Nat.le_refl 1
  | split feature threshold left right ihl ihr =>
    rw [trace, height, List.length_cons]
    apply Nat.succ_le_succ
    cases source feature with
    | none => exact Nat.zero_le _
    | some score =>
      simp only
      split
      · exact Nat.le_trans (ihl _) (Nat.succ_le_succ (Nat.le_max_left ..))
      · exact Nat.le_trans (ihr _) (Nat.succ_le_succ (Nat.le_max_right ..))

end Tree

theorem Walked.stops {source : FeatureSource} {answer : Option Binary32}
    {walk : Except WalkFault Binary32} (h : Walked source answer walk) :
    (∃ output, walk = .ok output) ∨
      ∃ ordinal, source ordinal = none ∧ walk = .error (.missingFeature ordinal) := by
  cases answer with
  | none => exact .inr h
  | some x =>
    obtain ⟨y, hy, _⟩ := h
    exact .inl ⟨y, hy⟩

namespace StoredNode

/-- What a round of the loop ends in: an answer, or an address to go on from. -/
inductive Round
  | stop (answer : Except WalkFault Binary32)
  | goOn (next : Nat)

def round (node? : Nat → Option StoredNode) (widths : NodeWidths) (source : FeatureSource)
    (address : Nat) : Round :=
  match node? address with
  | none => .stop (.error (.missingNode address))
  | some (leaf output) => .stop (.ok output)
  | some (split feature threshold right) =>
    match source feature with
    | none => .stop (.error (.missingFeature feature))
    | some score => .goOn (if score < threshold then address + widths.split else right)

/-- The loop with no limit on its rounds, with the addresses it visits. -/
inductive Visits (node? : Nat → Option StoredNode) (widths : NodeWidths) (source : FeatureSource) :
    Nat → List Nat → Except WalkFault Binary32 → Prop
  | stop {address : Nat} {answer : Except WalkFault Binary32}
      (hround : round node? widths source address = .stop answer) :
      Visits node? widths source address [address] answer
  | goOn {address next : Nat} {path : List Nat} {answer : Except WalkFault Binary32}
      (hround : round node? widths source address = .goOn next)
      (hrest : Visits node? widths source next path answer) :
      Visits node? widths source address (address :: path) answer

variable {node? : Nat → Option StoredNode} {widths : NodeWidths} {source : FeatureSource}
  {address : Nat} {path path' : List Nat} {answer answer' : Except WalkFault Binary32}

theorem follow_succ (fuel address : Nat) :
    follow node? widths source (fuel + 1) address =
      match round node? widths source address with
      | .stop answer => answer
      | .goOn next => follow node? widths source fuel next := by
  rw [follow, round]
  cases node? address with
  | none => rfl
  | some node =>
    cases node with
    | leaf output => rfl
    | split feature threshold right =>
      simp only
      cases source feature with
      | none => rfl
      | some score => rfl

theorem Visits.unique (h : Visits node? widths source address path answer)
    (h' : Visits node? widths source address path' answer') : path' = path ∧ answer' = answer := by
  induction h generalizing path' with
  | stop hround =>
    cases h' with
    | stop hround' =>
      cases hround.symm.trans hround'
      exact ⟨rfl, rfl⟩
    | goOn hround' => cases hround.symm.trans hround'
  | goOn hround _ ih =>
    cases h' with
    | stop hround' => cases hround.symm.trans hround'
    | goOn hround' hrest' =>
      cases hround.symm.trans hround'
      obtain ⟨rfl, rfl⟩ := ih hrest'
      exact ⟨rfl, rfl⟩

/-- A limit that the loop does not reach makes no difference. -/
theorem Visits.follow_eq (h : Visits node? widths source address path answer) {fuel : Nat}
    (hfuel : path.length ≤ fuel) : follow node? widths source fuel address = answer := by
  induction h generalizing fuel with
  | stop hround =>
    obtain ⟨fuel, rfl⟩ := Nat.exists_eq_add_of_le' hfuel
    rw [List.length_singleton, follow_succ, hround]
  | goOn hround _ ih =>
    obtain ⟨fuel, rfl⟩ := Nat.exists_eq_add_of_le' hfuel
    rw [List.length_cons, ← Nat.add_assoc, follow_succ, hround]
    exact ih (Nat.le_add_left ..)

theorem StoredAt.visits {t : Tree} (h : StoredAt node? widths address t) (source : FeatureSource) :
    ∃ answer, Visits node? widths source address (t.trace widths source address) answer ∧
      Walked source (t.eval source) answer := by
  induction t generalizing address with
  | leaf output =>
    have hround : round node? widths source address = .stop (.ok output) := by
      rw [round, show node? address = some (.leaf output) from h]
    exact ⟨.ok output, .stop hround, output, rfl, .refl _⟩
  | split feature threshold left right ihl ihr =>
    obtain ⟨hnode, hleft, hright⟩ := h
    rw [Tree.trace, Tree.eval]
    cases hsource : source feature with
    | none =>
      have hround : round node? widths source address =
          .stop (.error (.missingFeature feature)) := by
        simp only [round, hnode, hsource]
      exact ⟨_, .stop hround, feature, hsource, rfl⟩
    | some score =>
      by_cases hlt : score < threshold
      · obtain ⟨answer, hvisits, hwalked⟩ := ihl hleft
        have hround : round node? widths source address = .goOn (address + widths.split) := by
          simp only [round, hnode, hsource, if_pos hlt]
        simp only [if_pos hlt]
        exact ⟨answer, .goOn hround hvisits, hwalked⟩
      · obtain ⟨answer, hvisits, hwalked⟩ := ihr hright
        have hround : round node? widths source address =
            .goOn (address + widths.split + left.extent widths) := by
          simp only [round, hnode, hsource, if_neg hlt]
        simp only [if_neg hlt]
        exact ⟨answer, .goOn hround hvisits, hwalked⟩

/-- The loop for a tree goes ahead through its nodes and stops within depth plus one rounds. -/
def EndsInside (node? : Nat → Option StoredNode) (widths : NodeWidths) (source : FeatureSource)
    (limit : Nat) (t : Tree) (root stop : Nat) : Prop :=
  ∃ path answer,
    (∀ path' answer', Visits node? widths source root path' answer' ↔
      path' = path ∧ answer' = answer) ∧
    path.Pairwise (· < ·) ∧
    (∀ address ∈ path, address ∈ t.starts widths root ∧ root ≤ address ∧ address < stop) ∧
    path.length ≤ t.depth + 1 ∧
    ((∃ output, answer = .ok output) ∨
      ∃ ordinal, source ordinal = none ∧ answer = .error (.missingFeature ordinal)) ∧
    follow node? widths source limit root = answer

theorem StoredAt.endsInside {term : WeightedTree} {root limit : Nat}
    (h : StoredAt node? widths root term.folded) (hsplit : 0 < widths.split)
    (hleaf : 0 < widths.leaf) (hlimit : term.tree.height < limit) (source : FeatureSource) :
    EndsInside node? widths source limit term.tree root (root + term.width widths) := by
  obtain ⟨answer, hvisits, hwalked⟩ := h.visits source
  have hlength : (term.folded.trace widths source root).length ≤ term.tree.height + 1 := by
    rw [← Tree.height_mapOutputs (· * term.weight) term.tree]
    exact term.folded.length_trace_le source root
  refine ⟨term.folded.trace widths source root, answer, ?_,
    Tree.trace_ascending source hsplit hleaf root _, ?_, ?_, hwalked.stops, ?_⟩
  · intro path' answer'
    constructor
    · exact fun h' => hvisits.unique h'
    · rintro ⟨rfl, rfl⟩
      exact hvisits
  · intro address haddress
    have hstart := Tree.trace_starts source haddress
    rw [WeightedTree.folded, Tree.starts_mapOutputs] at hstart
    rw [WeightedTree.width_eq]
    exact ⟨hstart, Tree.starts_within hsplit hleaf hstart⟩
  · rwa [Tree.depth_eq_height]
  · exact hvisits.follow_eq (Nat.le_trans hlength hlimit)

end StoredNode

def FlatEnsemble.treeEnd (f : FlatEnsemble) (i : Nat) : Nat :=
  (f.roots[i + 1]?.map Int32.toNatClampNeg).getD f.nodeCount

namespace Ensemble

variable {e : Ensemble} {i : Nat}

theorem endsInside_root {node? : Nat → Option StoredNode} {widths : NodeWidths}
    (h : StoredFrom node? widths 0 e.terms) (hsplit : 0 < widths.split) (hleaf : 0 < widths.leaf)
    (hwidth : e.width widths < 0x80000000) {roots : Array Int32}
    (hroots : roots = ((rootsFrom widths 0 e.terms).map Int32.ofNat).toArray)
    (hi : i < e.terms.length) (source : FeatureSource) :
    ∃ root, roots[i]? = some root ∧ 0 ≤ root ∧
      EndsInside node? widths source (e.width widths) e.terms[i].tree root.toNatClampNeg
        ((roots[i + 1]?.map Int32.toNatClampNeg).getD (e.width widths)) := by
  obtain ⟨root, hroot, hlt, hstored, hend⟩ := h.exists_root hwidth hi hroots
  have hheight := e.height_lt_width hsplit hleaf (List.getElem_mem hi)
  have hplace : (Int32.ofNat root).toNatClampNeg = root := Int32.toNatClampNeg_ofNat_of_lt hlt
  refine ⟨.ofNat root, hroot, Int32.not_lt.1 (int32_not_neg hlt), ?_⟩
  rw [hend, hplace]
  exact hstored.endsInside hsplit hleaf hheight source

/-- In either encoding the loop for a tree ends inside of that tree, whatever the candidate. -/
theorem loops_end_inside {t : Tree} (ht : e.trees[i]? = some t) (source : FeatureSource) :
    (∀ f, FlatEnsemble.ofEnsemble e = .ok f →
      ∃ root, f.roots[i]? = some root ∧ 0 ≤ root ∧
        EndsInside f.node? FlatSlot.widths source f.nodeCount t root.toNatClampNeg
          (f.treeEnd i)) ∧
      ∀ p, PackedEnsemble.ofEnsemble e = .ok p →
        ∃ root, p.roots[i]? = some root ∧ 0 ≤ root ∧
          EndsInside p.node? PackedStore.widths source p.byteCount t root.toNatClampNeg
            (p.treeEnd i) := by
  obtain ⟨hi, rfl⟩ := List.getElem?_eq_some_iff.1 ht
  rw [trees, List.length_map] at hi
  simp only [trees, List.getElem_map]
  constructor
  · intro f hf
    obtain ⟨_, hwidth, hparts⟩ := FlatEnsemble.ofEnsemble_ok hf
    rw [FlatEnsemble.treeEnd, FlatEnsemble.nodeCount_eq hf]
    exact endsInside_root (FlatEnsemble.storedFrom hf) Nat.one_pos Nat.one_pos hwidth
      (congrArg FlatEnsemble.roots hparts) hi source
  · intro p hp
    obtain ⟨_, hwidth, hparts⟩ := PackedEnsemble.ofEnsemble_ok hp
    rw [PackedEnsemble.treeEnd, PackedEnsemble.byteCount_eq hp]
    exact endsInside_root (PackedEnsemble.storedFrom hp) (by decide) (by decide) hwidth
      (congrArg PackedEnsemble.roots hparts) hi source

theorem loops_end_inside_mixed :
    FlatEnsemble.ofEnsemble mixedEnsemble = .ok FlatEnsemble.mixed ∧
      PackedEnsemble.ofEnsemble mixedEnsemble = .ok PackedEnsemble.mixed ∧
      EndsInside FlatEnsemble.mixed.node? FlatSlot.widths (.ofRow #[.nan, .zero]) 6
        (.split 1 ⟨0x3f000000⟩ (.split 0 .nan (.leaf ⟨0xc0000000⟩) (.leaf ⟨0x80000000⟩))
          (.leaf ⟨0x40400000⟩)) 0 5 ∧
      EndsInside PackedEnsemble.mixed.node? PackedStore.widths (.ofRow #[]) 44
        (.leaf .infinity) 38 44 := by
  have hf : FlatEnsemble.ofEnsemble mixedEnsemble = .ok FlatEnsemble.mixed := by decide +kernel
  have hp : PackedEnsemble.ofEnsemble mixedEnsemble = .ok PackedEnsemble.mixed := by
    decide +kernel
  obtain ⟨root, hroot, _, hflat⟩ :=
    (loops_end_inside (i := 0) rfl (.ofRow #[.nan, .zero])).1 _ hf
  obtain ⟨root', hroot', _, hpacked⟩ := (loops_end_inside (i := 1) rfl (.ofRow #[])).2 _ hp
  cases hroot
  cases hroot'
  exact ⟨hf, hp, hflat, hpacked⟩

end Ensemble

end Relevance
