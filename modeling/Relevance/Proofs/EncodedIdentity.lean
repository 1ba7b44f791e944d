import Relevance.Proofs.SlotAddresses

namespace Relevance

open StoredNode

theorem WeightedTree.width_folded (widths : NodeWidths) (term : WeightedTree) :
    term.folded.extent widths = term.width widths := by
  rw [folded, Tree.extent_mapOutputs, width_eq]

theorem WeightedTree.width_congr (widths : NodeWidths) {term other : WeightedTree}
    (h : term.folded = other.folded) : term.width widths = other.width widths := by
  rw [← width_folded, h, width_folded]

namespace StoredNode

variable {node? : Nat → Option StoredNode} {widths : NodeWidths}

/-- No two trees stand at one address. -/
theorem StoredAt.unique {s t : Tree} {address : Nat} (hs : StoredAt node? widths address s)
    (ht : StoredAt node? widths address t) : s = t := by
  induction s generalizing address t with
  | leaf output =>
    have hnode : node? address = some (.leaf output) := hs
    cases t with
    | leaf output' =>
      cases hnode.symm.trans ht
      rfl
    | split feature threshold left right => cases hnode.symm.trans ht.1
  | split feature threshold left right ihl ihr =>
    obtain ⟨hnode, hleft, hright⟩ := hs
    cases t with
    | leaf output => cases hnode.symm.trans ht
    | split feature' threshold' left' right' =>
      obtain ⟨hnode', hleft', hright'⟩ := ht
      obtain rfl := ihl hleft hleft'
      obtain rfl := ihr hright hright'
      cases hnode.symm.trans hnode'
      rfl

theorem StoredFrom.folded_eq {start : Nat} {terms others : List WeightedTree}
    (h : StoredFrom node? widths start terms) (hothers : StoredFrom node? widths start others)
    (hlength : terms.length = others.length) :
    terms.map WeightedTree.folded = others.map WeightedTree.folded := by
  induction terms generalizing start others with
  | nil =>
    rw [List.eq_nil_of_length_eq_zero hlength.symm]
  | cons term rest ih =>
    cases others with
    | nil => cases hlength
    | cons other others =>
      obtain ⟨hterm, hrest⟩ := h
      obtain ⟨hother, hothers⟩ := hothers
      have hfolded : term.folded = other.folded := hterm.unique hother
      rw [WeightedTree.width_congr widths hfolded] at hrest
      rw [List.map_cons, List.map_cons, hfolded, ih hrest hothers (Nat.succ.inj hlength)]

end StoredNode

/-- A tree is stored with its weight folded in, and nothing else of the weight is kept. -/
theorem Tree.stored_congr {widths : NodeWidths} {v w : Binary32} {s t : Tree}
    (h : s.mapOutputs (· * v) = t.mapOutputs (· * w)) (start : Nat) :
    s.stored widths v start = t.stored widths w start := by
  induction s generalizing t start with
  | leaf output =>
    cases t with
    | leaf output' =>
      have houtput : output * v = output' * w := leaf.inj h
      rw [stored, stored, houtput]
    | split feature threshold left right => cases h
  | split feature threshold left right ihl ihr =>
    cases t with
    | leaf output => cases h
    | split feature' threshold' left' right' =>
      obtain ⟨rfl, rfl, hleft, hright⟩ := split.inj h
      have hextent : left.extent widths = left'.extent widths := by
        rw [← extent_mapOutputs (· * v), hleft, extent_mapOutputs]
      rw [stored, stored, ihl hleft, ihr hright, hextent]

namespace Ensemble

theorem storedFrom_congr (widths : NodeWidths) {terms others : List WeightedTree}
    (h : terms.map WeightedTree.folded = others.map WeightedTree.folded) (start : Nat) :
    rootsFrom widths start terms = rootsFrom widths start others ∧
      storedFrom widths start terms = storedFrom widths start others := by
  induction terms generalizing others start with
  | nil =>
    rw [List.map_eq_nil_iff.1 h.symm]
    exact ⟨rfl, rfl⟩
  | cons term rest ih =>
    cases others with
    | nil => cases h
    | cons other others =>
      obtain ⟨hfolded, hrest⟩ := List.cons.inj h
      have hwidth := WeightedTree.width_congr widths hfolded
      obtain ⟨hroots, hstored⟩ := ih hrest (start + other.width widths)
      rw [rootsFrom, rootsFrom, storedFrom, storedFrom, hwidth, hroots, hstored,
        Tree.stored_congr hfolded]
      exact ⟨rfl, rfl⟩

/-- Ensembles that differ at most in how outputs are parted between leaves and weights. -/
structure FoldedAlike (a b : Ensemble) : Prop where
  featureCount : a.featureCount = b.featureCount
  objective : a.objective = b.objective
  trees : a.terms.map WeightedTree.folded = b.terms.map WeightedTree.folded

end Ensemble

theorem FlatEnsemble.slots_congr {a b : FlatEnsemble} (hfeatures : a.features = b.features)
    (hvalues : a.values = b.values) (hrights : a.rights = b.rights) : a.slots = b.slots := by
  have hsize : a.slots.size = b.slots.size := by
    simpa [features] using congrArg Array.size hfeatures
  apply Array.ext hsize
  intro i ha hb
  have hfeature : a.slots[i].feature = b.slots[i].feature := by
    simpa [features, ha, hb] using congrArg (·[i]?) hfeatures
  have hvalue : a.slots[i].value = b.slots[i].value := by
    simpa [values, ha, hb] using congrArg (·[i]?) hvalues
  have hright : a.slots[i].right = b.slots[i].right := by
    simpa [rights, ha, hb] using congrArg (·[i]?) hrights
  calc
    a.slots[i] = ⟨b.slots[i].feature, b.slots[i].value, b.slots[i].right⟩ := by
      rw [← hfeature, ← hvalue, ← hright]
    _ = b.slots[i] := rfl

theorem FlatEnsemble.beq_iff {a b : FlatEnsemble} : (a == b) = true ↔ a = b := by
  change (a.featureCount == b.featureCount && a.objective == b.objective && a.roots == b.roots
    && a.features == b.features && a.rights == b.rights
    && Binary32.sameBits a.values b.values) = true ↔ _
  simp only [Bool.and_eq_true, beq_iff_eq, Binary32.sameBits_iff]
  constructor
  · rintro ⟨⟨⟨⟨⟨hcount, hobjective⟩, hroots⟩, hfeatures⟩, hrights⟩, hvalues⟩
    have hslots : a.slots = b.slots := slots_congr hfeatures hvalues hrights
    cases a
    cases b
    cases hcount
    cases hobjective
    cases hroots
    cases hslots
    rfl
  · rintro rfl
    simp only [and_self]

theorem PackedEnsemble.beq_iff {a b : PackedEnsemble} : (a == b) = true ↔ a = b := by
  change (a.featureCount == b.featureCount && a.objective == b.objective && a.roots == b.roots
    && a.buffer.data == b.buffer.data) = true ↔ _
  simp only [Bool.and_eq_true, beq_iff_eq]
  constructor
  · rintro ⟨⟨⟨hcount, hobjective⟩, hroots⟩, hbuffer⟩
    cases a
    cases b
    cases hcount
    cases hobjective
    cases hroots
    cases ByteArray.ext hbuffer
    rfl
  · rintro rfl
    simp only [and_self]

instance : LawfulBEq FlatEnsemble where
  eq_of_beq := FlatEnsemble.beq_iff.1
  rfl := FlatEnsemble.beq_iff.2 rfl

instance : LawfulBEq PackedEnsemble where
  eq_of_beq := PackedEnsemble.beq_iff.1
  rfl := PackedEnsemble.beq_iff.2 rfl

theorem FlatEnsemble.eq_iff_foldedAlike {a b : Ensemble} {f g : FlatEnsemble}
    (hf : ofEnsemble a = .ok f) (hg : ofEnsemble b = .ok g) : f = g ↔ a.FoldedAlike b := by
  constructor
  · rintro rfl
    have hlength : a.terms.length = b.terms.length := (size_roots hf).symm.trans (size_roots hg)
    exact ⟨(featureCount_eq hf).symm.trans (featureCount_eq hg),
      (objective_eq hf).symm.trans (objective_eq hg),
      (storedFrom hf).folded_eq (storedFrom hg) hlength⟩
  · rintro ⟨hcount, hobjective, htrees⟩
    obtain ⟨hroots, hstored⟩ := Ensemble.storedFrom_congr FlatSlot.widths htrees 0
    obtain ⟨_, _, rfl⟩ := ofEnsemble_ok hf
    obtain ⟨_, _, rfl⟩ := ofEnsemble_ok hg
    rw [hcount, hobjective, hroots, hstored]

theorem PackedEnsemble.eq_iff_foldedAlike {a b : Ensemble} {p q : PackedEnsemble}
    (hp : ofEnsemble a = .ok p) (hq : ofEnsemble b = .ok q) : p = q ↔ a.FoldedAlike b := by
  constructor
  · rintro rfl
    have hlength : a.terms.length = b.terms.length := (size_roots hp).symm.trans (size_roots hq)
    exact ⟨(featureCount_eq hp).symm.trans (featureCount_eq hq),
      (objective_eq hp).symm.trans (objective_eq hq),
      (storedFrom hp).folded_eq (storedFrom hq) hlength⟩
  · rintro ⟨hcount, hobjective, htrees⟩
    obtain ⟨hroots, hstored⟩ := Ensemble.storedFrom_congr PackedStore.widths htrees 0
    obtain ⟨_, _, rfl⟩ := ofEnsemble_ok hp
    obtain ⟨_, _, rfl⟩ := ofEnsemble_ok hq
    rw [hcount, hobjective, hroots, hstored]

namespace Ensemble

/-- Encoded ensembles are equal just if the ensembles are but for where the weights are. -/
theorem encodings_identify_alike {a b : Ensemble} {f g : FlatEnsemble} {p q : PackedEnsemble}
    (hf : FlatEnsemble.ofEnsemble a = .ok f) (hg : FlatEnsemble.ofEnsemble b = .ok g)
    (hp : PackedEnsemble.ofEnsemble a = .ok p) (hq : PackedEnsemble.ofEnsemble b = .ok q) :
    ((f == g) = true ↔ (p == q) = true) ∧ ((p == q) = true ↔ a.FoldedAlike b) := by
  have hflat := FlatEnsemble.eq_iff_foldedAlike hf hg
  have hpacked := PackedEnsemble.eq_iff_foldedAlike hp hq
  rw [beq_iff_eq, beq_iff_eq]
  exact ⟨hflat.trans hpacked.symm, hpacked⟩

def mixedFolded : Ensemble where
  terms :=
    [⟨.split 1 ⟨0x3f000000⟩ (.split 0 .nan (.leaf ⟨0xc0800000⟩) (.leaf ⟨0x80000000⟩))
        (.leaf ⟨0x40c00000⟩), ⟨0x3f800000⟩⟩,
      ⟨.leaf .infinity, ⟨0x3f800000⟩⟩]
  featureCount := 2
  objective := .logistic
  features_lt := by decide

theorem encodings_identify_alike_mixed :
    FlatEnsemble.ofEnsemble mixedFolded = .ok FlatEnsemble.mixed ∧
      PackedEnsemble.ofEnsemble mixedFolded = .ok PackedEnsemble.mixed ∧
      mixedEnsemble.FoldedAlike mixedFolded := by
  have hf : FlatEnsemble.ofEnsemble mixedEnsemble = .ok FlatEnsemble.mixed := by decide +kernel
  have hg : FlatEnsemble.ofEnsemble mixedFolded = .ok FlatEnsemble.mixed := by decide +kernel
  have hp : PackedEnsemble.ofEnsemble mixedEnsemble = .ok PackedEnsemble.mixed := by
    decide +kernel
  have hq : PackedEnsemble.ofEnsemble mixedFolded = .ok PackedEnsemble.mixed := by decide +kernel
  obtain ⟨_, halike⟩ := encodings_identify_alike hf hg hp hq
  exact ⟨hg, hq, halike.1 (beq_self_eq_true _)⟩

end Ensemble

end Relevance
