import Relevance.Ensemble.Flatten

namespace Relevance

/-- One place of the flat encoding. A leaf has the feature -1 and no right child. -/
structure FlatSlot where
  feature : Int16
  value : Binary32
  right : Int32
  deriving DecidableEq

namespace FlatSlot

def ofNode : StoredNode → FlatSlot
  | .leaf output => ⟨-1, output, 0⟩
  | .split feature threshold right => ⟨.ofNat feature, threshold, .ofNat right⟩

def node? (slot : FlatSlot) : Option StoredNode :=
  if slot.feature = -1 then some (.leaf slot.value)
  else if slot.feature < 0 || slot.right < 0 then none
  else some (.split slot.feature.toNatClampNeg slot.value slot.right.toNatClampNeg)

def widths : NodeWidths := ⟨1, 1⟩

@[simp] theorem extent_widths (nodes : List StoredNode) :
    StoredNode.extent widths nodes = nodes.length := by
  induction nodes with
  | nil => rfl
  | cons node nodes ih =>
    have hwidth : node.width widths = 1 := by cases node <;> rfl
    rw [StoredNode.extent, ih, hwidth, List.length_cons, Nat.add_comm]

instance : NodeStore (Array FlatSlot) where
  cursor slots := .ofNat slots.size
  putSplit? feature threshold slots := some (slots.size, slots.push ⟨feature, threshold, 0⟩)
  putLeaf? output slots := some (slots.push ⟨-1, output, 0⟩)
  setRight? handle target slots :=
    if h : handle < slots.size then some (slots.set handle { slots[handle] with right := target })
    else none

theorem size_eq_length {slots : Array FlatSlot} {nodes : List StoredNode}
    (h : slots.toList = nodes.map ofNode) : slots.size = nodes.length := by
  rw [← Array.length_toList, h, List.length_map]

def laws : StoreLaws (Array FlatSlot) widths where
  Holds nodes _ slots := slots.toList = nodes.map ofNode
  handle nodes := nodes.length
  cursor_eq {nodes _ slots} h := by
    rw [extent_widths, ← size_eq_length h]
    rfl
  putSplit {nodes _ slots} feature threshold h := by
    refine ⟨slots.push ⟨.ofNat feature, threshold, 0⟩, ?_, by simp [h, ofNode]⟩
    rw [← size_eq_length h]
    rfl
  putLeaf {nodes _ slots} output h := ⟨slots.push ⟨-1, output, 0⟩, rfl, by simp [h, ofNode]⟩
  setRight {nodes feature threshold others _ slots} right h := by
    have hlt : nodes.length < slots.size := by
      rw [size_eq_length h, List.length_append, List.length_cons]
      omega
    have hslot : slots[nodes.length] = ofNode (.split feature threshold 0) := by
      simp [← Array.getElem_toList, h]
    refine ⟨slots.set nodes.length { slots[nodes.length] with right := .ofNat right }, ?_, ?_⟩
    · exact dif_pos hlt
    · simp [h, hslot, ofNode]

end FlatSlot

/-- All nodes of an ensemble in one array, with the weights multiplied into the leaves. -/
structure FlatEnsemble where
  roots : Array Int32
  slots : Array FlatSlot
  featureCount : Nat
  objective : Objective
  deriving DecidableEq

namespace FlatEnsemble

theorem fill?_isSome (e : Ensemble) :
    (NodeStore.fill? e.terms (#[] : Array FlatSlot)).isSome := by
  obtain ⟨slots, hfill, _⟩ := FlatSlot.laws.fill?_eq e #[] rfl
  rw [hfill]
  rfl

def ofEnsemble (e : Ensemble) : Except ModelError FlatEnsemble :=
  if e.hasWideOrdinal then .error (.capacity .featureOrdinal)
  else if 0x80000000 ≤ e.width FlatSlot.widths then .error (.capacity .nodeCount)
  else
    let filled := (NodeStore.fill? e.terms (#[] : Array FlatSlot)).get (fill?_isSome e)
    .ok
      { roots := filled.1
        slots := filled.2
        featureCount := e.featureCount
        objective := e.objective }

theorem ofEnsemble_eq (e : Ensemble) :
    ofEnsemble e =
      if e.hasWideOrdinal then .error (.capacity .featureOrdinal)
      else if 0x80000000 ≤ e.width FlatSlot.widths then .error (.capacity .nodeCount)
      else
        .ok
          { roots := ((Ensemble.rootsFrom FlatSlot.widths 0 e.terms).map Int32.ofNat).toArray
            slots := ((Ensemble.storedFrom FlatSlot.widths 0 e.terms).map FlatSlot.ofNode).toArray
            featureCount := e.featureCount
            objective := e.objective } := by
  obtain ⟨slots, hfill, hslots⟩ := FlatSlot.laws.fill?_eq e #[] rfl
  have hlist : slots = (slots.toList).toArray := rfl
  simp only [ofEnsemble, hfill, Option.get_some]
  rw [hlist, show slots.toList = _ from hslots]

def treeCount (e : FlatEnsemble) : Nat := e.roots.size

def nodeCount (e : FlatEnsemble) : Nat := e.slots.size

def node? (e : FlatEnsemble) (slot : Nat) : Option StoredNode := e.slots[slot]?.bind FlatSlot.node?

def leafSum (e : FlatEnsemble) (source : FeatureSource) : Except WalkFault Binary32 :=
  StoredNode.sumFrom e.node? FlatSlot.widths source e.nodeCount e.roots

def rawScore (e : FlatEnsemble) (source : FeatureSource) : Option Binary32 :=
  (e.leafSum source).toOption

def predict (e : FlatEnsemble) (source : FeatureSource) : Option Binary32 :=
  (e.rawScore source).map e.objective.transform

def memory (e : FlatEnsemble) : Nat := 80 + 4 * e.treeCount + 10 * e.nodeCount

def features (e : FlatEnsemble) : Array Int16 := e.slots.map (·.feature)

def values (e : FlatEnsemble) : Array Binary32 := e.slots.map (·.value)

def rights (e : FlatEnsemble) : Array Int32 := e.slots.map (·.right)

instance : BEq FlatEnsemble where
  beq a b :=
    a.featureCount == b.featureCount && a.objective == b.objective && a.roots == b.roots
      && a.features == b.features && a.rights == b.rights && Binary32.sameBits a.values b.values

def fingerprint (e : FlatEnsemble) : Fingerprint :=
  .size e.featureCount :: e.objective.fingerprint ++ .sequence .long e.roots.toList
    ++ .sequence (fun slot => .short slot.feature) e.slots.toList
    ++ .sequence (fun slot => .long slot.right) e.slots.toList
    ++ .sequence (fun slot => .number slot.value) e.slots.toList

end FlatEnsemble

end Relevance
