import Relevance.Ensemble.Flat
import Relevance.Ensemble.Packed
import Relevance.Proofs.StoredTree

namespace Relevance

namespace StoredNode

def Fits : StoredNode → Prop
  | leaf _ => True
  | split feature _ right => feature < 0x8000 ∧ right < 0x80000000

theorem int16_ne_neg_one {n : Nat} (h : n < 0x8000) : Int16.ofNat n ≠ -1 := by
  intro heq
  have hint := Int16.toInt_ofNat_of_lt h
  rw [heq, show (-1 : Int16).toInt = -1 from rfl] at hint
  omega

theorem int16_not_neg {n : Nat} (h : n < 0x8000) : ¬ Int16.ofNat n < 0 := by
  rw [Int16.lt_iff_toInt_lt, Int16.toInt_ofNat_of_lt h, Int16.toInt_zero]
  omega

theorem int32_not_neg {n : Nat} (h : n < 0x80000000) : ¬ Int32.ofNat n < 0 := by
  rw [Int32.lt_iff_toInt_lt, Int32.toInt_ofNat_of_lt h, Int32.toInt_zero]
  omega

end StoredNode

open StoredNode

theorem Tree.fits_stored {widths : NodeWidths} {weight : Binary32} {start : Nat} {t : Tree}
    (hfeatures : ∀ feature ∈ t.features, feature < 0x8000)
    (hend : start + t.extent widths < 0x80000000) :
    ∀ node ∈ t.stored widths weight start, node.Fits := by
  induction t generalizing start with
  | leaf output =>
    intro node hnode
    rw [List.mem_singleton.1 hnode]
    trivial
  | split feature threshold left right ihl ihr =>
    simp only [Tree.features, List.forall_mem_cons, List.forall_mem_append] at hfeatures
    obtain ⟨hfeature, hleft, hright⟩ := hfeatures
    rw [Tree.extent] at hend
    simp only [Tree.stored, List.forall_mem_cons, List.forall_mem_append]
    exact ⟨⟨hfeature, by omega⟩, ihl hleft (by omega), ihr hright (by omega)⟩

theorem Ensemble.compact_of_ok {α : Type} {widths : NodeWidths} {e : Ensemble}
    {wide long : ModelError} {made found : α}
    (h : (if e.hasWideOrdinal then Except.error wide
      else if 0x80000000 ≤ e.width widths then .error long else .ok made) = .ok found) :
    e.hasWideOrdinal = false ∧ e.width widths < 0x80000000 ∧ found = made := by
  split at h
  · exact nomatch h
  · rename_i hwide
    split at h
    · exact nomatch h
    · rename_i hwidth
      exact ⟨eq_false_of_ne_true hwide, Nat.lt_of_not_le hwidth, (Except.ok.inj h).symm⟩

theorem Ensemble.feature_lt_of_not_wide {e : Ensemble} (h : e.hasWideOrdinal = false)
    {term : WeightedTree} (hterm : term ∈ e.terms) {feature : Nat}
    (hfeature : feature ∈ term.tree.features) : feature < 0x8000 := by
  obtain ⟨greatest, hgreatest, hle⟩ := Tree.le_maxFeature hfeature
  have hwide := List.any_eq_false.1 h term hterm
  rw [Option.mem_def.1 hgreatest] at hwide
  simp only [Option.any_some, decide_eq_true_eq] at hwide
  omega

theorem Ensemble.fits_storedFrom {widths : NodeWidths} {start : Nat} {terms : List WeightedTree}
    (hfeatures : ∀ term ∈ terms, ∀ feature ∈ term.tree.features, feature < 0x8000)
    (hend : start + widthOf widths terms < 0x80000000) :
    ∀ node ∈ storedFrom widths start terms, node.Fits := by
  induction terms generalizing start with
  | nil =>
    intro node hnode
    exact absurd hnode List.not_mem_nil
  | cons term rest ih =>
    rw [widthOf] at hend
    obtain ⟨hterm, hrest⟩ := List.forall_mem_cons.1 hfeatures
    rw [storedFrom, List.forall_mem_append]
    refine ⟨Tree.fits_stored hterm ?_, ih hrest (by omega)⟩
    rw [← WeightedTree.width_eq]
    omega

theorem Ensemble.fits_stored {widths : NodeWidths} {e : Ensemble} (hwide : e.hasWideOrdinal = false)
    (hwidth : e.width widths < 0x80000000) : ∀ node ∈ storedFrom widths 0 e.terms, node.Fits :=
  fits_storedFrom (fun _ hterm _ => feature_lt_of_not_wide hwide hterm) (by rwa [Nat.zero_add])

theorem FlatSlot.node?_ofNode {node : StoredNode} (h : node.Fits) :
    (ofNode node).node? = some node := by
  cases node with
  | leaf output => rfl
  | split feature threshold right =>
    obtain ⟨hfeature, hright⟩ := h
    simp [FlatSlot.node?, ofNode, int16_ne_neg_one hfeature, int16_not_neg hfeature,
      int32_not_neg hright, Int16.toNatClampNeg_ofNat_of_lt hfeature,
      Int32.toNatClampNeg_ofNat_of_lt hright]

namespace FlatEnsemble

theorem ofEnsemble_ok {e : Ensemble} {f : FlatEnsemble} (h : ofEnsemble e = .ok f) :
    e.hasWideOrdinal = false ∧ e.width FlatSlot.widths < 0x80000000 ∧
      f =
        { roots := ((Ensemble.rootsFrom FlatSlot.widths 0 e.terms).map Int32.ofNat).toArray
          slots := ((Ensemble.storedFrom FlatSlot.widths 0 e.terms).map FlatSlot.ofNode).toArray
          featureCount := e.featureCount
          objective := e.objective } := by
  rw [ofEnsemble_eq] at h
  exact Ensemble.compact_of_ok h

theorem reads {f : FlatEnsemble} {nodes : List StoredNode}
    (hslots : f.slots = (nodes.map FlatSlot.ofNode).toArray) (hfits : ∀ node ∈ nodes, node.Fits) :
    Reads f.node? FlatSlot.widths nodes := by
  intro before node after hnodes
  have hmem : node ∈ nodes := by
    rw [hnodes]
    exact List.mem_append_right _ List.mem_cons_self
  have hslot : f.slots[before.length]? = some (FlatSlot.ofNode node) := by
    simp [hslots, hnodes]
  rw [FlatEnsemble.node?, FlatSlot.extent_widths, hslot]
  exact FlatSlot.node?_ofNode (hfits node hmem)

theorem featureCount_eq {e : Ensemble} {f : FlatEnsemble} (h : ofEnsemble e = .ok f) :
    f.featureCount = e.featureCount := by
  obtain ⟨_, _, rfl⟩ := ofEnsemble_ok h
  rfl

theorem objective_eq {e : Ensemble} {f : FlatEnsemble} (h : ofEnsemble e = .ok f) :
    f.objective = e.objective := by
  obtain ⟨_, _, rfl⟩ := ofEnsemble_ok h
  rfl

theorem storedFrom {e : Ensemble} {f : FlatEnsemble} (h : ofEnsemble e = .ok f) :
    StoredFrom f.node? FlatSlot.widths 0 e.terms := by
  obtain ⟨hwide, hwidth, rfl⟩ := ofEnsemble_ok h
  exact Reads.storedFrom [] (reads rfl (Ensemble.fits_stored hwide hwidth))

theorem nodeCount_eq {e : Ensemble} {f : FlatEnsemble} (h : ofEnsemble e = .ok f) :
    f.nodeCount = e.width FlatSlot.widths := by
  obtain ⟨_, _, rfl⟩ := ofEnsemble_ok h
  rw [nodeCount, List.size_toArray, List.length_map, ← FlatSlot.extent_widths,
    Ensemble.extent_storedFrom, Ensemble.width]

theorem walked_leafSum {e : Ensemble} {f : FlatEnsemble} (h : ofEnsemble e = .ok f)
    (source : FeatureSource) : Walked source (e.rawScore source) (f.leafSum source) := by
  have hsum := (storedFrom h).walked_sum Nat.one_pos Nat.one_pos (ofEnsemble_ok h).2.1 source
  rw [← nodeCount_eq h] at hsum
  obtain ⟨_, _, rfl⟩ := ofEnsemble_ok h
  exact hsum

end FlatEnsemble

namespace PackedEnsemble

theorem ofEnsemble_ok {e : Ensemble} {p : PackedEnsemble} (h : ofEnsemble e = .ok p) :
    e.hasWideOrdinal = false ∧ e.width PackedStore.widths < 0x80000000 ∧
      p =
        { roots := ((Ensemble.rootsFrom PackedStore.widths 0 e.terms).map Int32.ofNat).toArray
          buffer :=
            ⟨((Ensemble.storedFrom PackedStore.widths 0 e.terms).flatMap StoredNode.bytes).toArray⟩
          featureCount := e.featureCount
          objective := e.objective } := by
  rw [ofEnsemble_eq] at h
  exact Ensemble.compact_of_ok h

section Fields

variable {buffer : ByteArray} {front back : List UInt8} {node : StoredNode}

theorem read?_field (h : buffer.data.toList = front ++ node.bytes ++ back)
    (before after : List UInt8) {width n : Nat} (hlt : n < 1 <<< (8 * width))
    (hfield : node.bytes = before ++ BigEndian.bytes width n ++ after) :
    BigEndian.read? buffer (front.length + before.length) width = some n := by
  have hbuffer : buffer.data.toList =
      (front ++ before) ++ BigEndian.bytes width n ++ (after ++ back) := by
    simp [h, hfield]
  have hread := BigEndian.read?_append hbuffer
  rwa [List.length_append, Nat.mod_eq_of_lt hlt] at hread

theorem read?_leaf {output : Binary32}
    (h : buffer.data.toList = front ++ (StoredNode.leaf output).bytes ++ back) :
    BigEndian.read? buffer front.length 2 = some 0xffff ∧
      BigEndian.read? buffer (front.length + 2) 4 = some output.bits.toNat := by
  constructor
  · exact read?_field h [] (BigEndian.bytes 4 output.bits.toNat) (by decide) rfl
  · exact read?_field h (BigEndian.bytes 2 0xffff) [] output.bits.toNat_lt
      (List.append_nil _).symm

theorem read?_split {feature right : Nat} {threshold : Binary32}
    (h : buffer.data.toList = front ++ (StoredNode.split feature threshold right).bytes ++ back)
    (hfits : (StoredNode.split feature threshold right).Fits) :
    BigEndian.read? buffer front.length 2 = some feature ∧
      BigEndian.read? buffer (front.length + 2) 4 = some threshold.bits.toNat ∧
      BigEndian.read? buffer (front.length + PackedStore.rightOffset) 4 = some right := by
  obtain ⟨hfeature, hright⟩ := hfits
  refine ⟨?_, ?_, ?_⟩
  · exact read?_field h [] (BigEndian.bytes 4 threshold.bits.toNat ++ BigEndian.bytes 4 right)
      (Nat.lt_trans hfeature (by decide)) (by simp [StoredNode.bytes])
  · exact read?_field h (BigEndian.bytes 2 feature) (BigEndian.bytes 4 right)
      threshold.bits.toNat_lt rfl
  · exact read?_field h (BigEndian.bytes 2 feature ++ BigEndian.bytes 4 threshold.bits.toNat) []
      (Nat.lt_trans hright (by decide)) (List.append_nil _).symm

end Fields

theorem node?_append {p : PackedEnsemble} {front back : List UInt8} {node : StoredNode}
    (h : p.buffer.data.toList = front ++ node.bytes ++ back) (hfits : node.Fits) :
    p.node? front.length = some node := by
  cases node with
  | leaf output =>
    obtain ⟨hfeature, hvalue⟩ := read?_leaf h
    simp [node?, hfeature, hvalue]
  | split feature threshold right =>
    obtain ⟨hfeature, hvalue, haddress⟩ := read?_split h hfits
    obtain ⟨hlt, hright⟩ := hfits
    simp [node?, hfeature, hvalue, haddress, int16_ne_neg_one hlt, int16_not_neg hlt,
      int32_not_neg hright, Int16.toNatClampNeg_ofNat_of_lt hlt,
      Int32.toNatClampNeg_ofNat_of_lt hright]

theorem reads {p : PackedEnsemble} {nodes : List StoredNode}
    (hbuffer : p.buffer = ⟨(nodes.flatMap StoredNode.bytes).toArray⟩)
    (hfits : ∀ node ∈ nodes, node.Fits) : Reads p.node? PackedStore.widths nodes := by
  intro before node after hnodes
  have hmem : node ∈ nodes := by
    rw [hnodes]
    exact List.mem_append_right _ List.mem_cons_self
  rw [← PackedStore.length_flatMap_bytes]
  have hbytes : p.buffer.data.toList =
      before.flatMap StoredNode.bytes ++ node.bytes ++ after.flatMap StoredNode.bytes := by
    rw [hbuffer, hnodes]
    simp
  exact node?_append hbytes (hfits node hmem)

theorem featureCount_eq {e : Ensemble} {p : PackedEnsemble} (h : ofEnsemble e = .ok p) :
    p.featureCount = e.featureCount := by
  obtain ⟨_, _, rfl⟩ := ofEnsemble_ok h
  rfl

theorem objective_eq {e : Ensemble} {p : PackedEnsemble} (h : ofEnsemble e = .ok p) :
    p.objective = e.objective := by
  obtain ⟨_, _, rfl⟩ := ofEnsemble_ok h
  rfl

theorem storedFrom {e : Ensemble} {p : PackedEnsemble} (h : ofEnsemble e = .ok p) :
    StoredFrom p.node? PackedStore.widths 0 e.terms := by
  obtain ⟨hwide, hwidth, rfl⟩ := ofEnsemble_ok h
  exact Reads.storedFrom [] (reads rfl (Ensemble.fits_stored hwide hwidth))

theorem byteCount_eq {e : Ensemble} {p : PackedEnsemble} (h : ofEnsemble e = .ok p) :
    p.byteCount = e.width PackedStore.widths := by
  obtain ⟨_, _, rfl⟩ := ofEnsemble_ok h
  rw [byteCount, ByteArray.size, List.size_toArray, PackedStore.length_flatMap_bytes,
    Ensemble.extent_storedFrom, Ensemble.width]

theorem walked_leafSum {e : Ensemble} {p : PackedEnsemble} (h : ofEnsemble e = .ok p)
    (source : FeatureSource) : Walked source (e.rawScore source) (p.leafSum source) := by
  have hsum := (storedFrom h).walked_sum (by decide) (by decide) (ofEnsemble_ok h).2.1 source
  rw [← byteCount_eq h] at hsum
  obtain ⟨_, _, rfl⟩ := ofEnsemble_ok h
  exact hsum

end PackedEnsemble

end Relevance
