import Relevance.Ensemble.Bytes
import Relevance.Ensemble.Flatten

namespace Relevance

/-- The bytes of a node: feature, number and, for a split, the offset of the right child. -/
def StoredNode.bytes : StoredNode → List UInt8
  | leaf output => BigEndian.bytes 2 0xffff ++ BigEndian.bytes 4 output.bits.toNat
  | split feature threshold right =>
    BigEndian.bytes 2 feature ++ BigEndian.bytes 4 threshold.bits.toNat ++ BigEndian.bytes 4 right

structure PackedStore where
  buffer : ByteArray
  position : Nat

namespace PackedStore

def widths : NodeWidths := ⟨10, 6⟩

def rightOffset : Nat := 6

def zeros (size : Nat) : PackedStore := ⟨⟨Array.replicate size 0⟩, 0⟩

def putNode? (width : Nat) (feature : Int16) (value : Binary32) (store : PackedStore) :
    Option PackedStore :=
  if store.position + width ≤ store.buffer.size then
    (BigEndian.write? store.buffer store.position
      (BigEndian.bytes 2 feature.toUInt16.toNat ++ BigEndian.bytes 4 value.bits.toNat)).map
        fun buffer => ⟨buffer, store.position + width⟩
  else none

instance : NodeStore PackedStore where
  cursor store := .ofNat store.position
  putSplit? feature threshold store :=
    (store.putNode? widths.split feature threshold).map fun filled =>
      (store.position + rightOffset, filled)
  putLeaf? output store := store.putNode? widths.leaf (-1) output
  setRight? handle target store :=
    (BigEndian.write? store.buffer handle (BigEndian.bytes 4 target.toUInt32.toNat)).map
      fun buffer => { store with buffer }

theorem length_bytes (node : StoredNode) : node.bytes.length = node.width widths := by
  cases node <;> simp [StoredNode.bytes, StoredNode.width, widths]

theorem length_flatMap_bytes (nodes : List StoredNode) :
    (nodes.flatMap StoredNode.bytes).length = StoredNode.extent widths nodes := by
  induction nodes with
  | nil => rfl
  | cons node nodes ih =>
    rw [List.flatMap_cons, List.length_append, length_bytes, ih, StoredNode.extent]

theorem bytes_int16 (n : Nat) :
    BigEndian.bytes 2 (Int16.ofNat n).toUInt16.toNat = BigEndian.bytes 2 n := by
  rw [Int16.toUInt16_ofNat', UInt16.toNat_ofNat']
  exact BigEndian.bytes_mod (Nat.le_refl (8 * 2)) n

theorem bytes_int32 (n : Nat) :
    BigEndian.bytes 4 (Int32.ofNat n).toUInt32.toNat = BigEndian.bytes 4 n := by
  rw [Int32.toUInt32_ofNat', UInt32.toNat_ofNat']
  exact BigEndian.bytes_mod (Nat.le_refl (8 * 4)) n

structure Holds (nodes : List StoredNode) (room : Nat) (store : PackedStore) : Prop where
  buffer_eq : store.buffer.data.toList = nodes.flatMap StoredNode.bytes ++ List.replicate room 0
  position_eq : store.position = StoredNode.extent widths nodes

theorem holds_zeros (size : Nat) : Holds [] size (zeros size) := ⟨by simp [zeros], rfl⟩

theorem Holds.putNode {nodes : List StoredNode} {room : Nat} {store : PackedStore}
    {width : Nat} (h : Holds nodes (width + room) store) (feature : Int16) (value : Binary32)
    (unwritten : Nat) (hwidth : width = 6 + unwritten) :
    ∃ filled, store.putNode? width feature value = some filled ∧
      filled.position = store.position + width ∧
      filled.buffer.data.toList = nodes.flatMap StoredNode.bytes ++
        (BigEndian.bytes 2 feature.toUInt16.toNat ++ BigEndian.bytes 4 value.bits.toNat) ++
        (List.replicate unwritten 0 ++ List.replicate room 0) := by
  have hbuffer : store.buffer.data.toList = nodes.flatMap StoredNode.bytes ++
      List.replicate 6 0 ++ (List.replicate unwritten 0 ++ List.replicate room 0) := by
    rw [h.buffer_eq, hwidth, ← List.replicate_append_replicate, ← List.replicate_append_replicate]
    simp only [List.append_assoc]
  have hsize : store.buffer.size = StoredNode.extent widths nodes + (width + room) := by
    rw [← length_flatMap_bytes, ← @List.length_replicate UInt8 (width + room) 0,
      ← List.length_append, ← h.buffer_eq]
    rfl
  obtain ⟨buffer, hwrite, hwritten⟩ := BigEndian.write?_append
    (BigEndian.bytes 2 feature.toUInt16.toNat ++ BigEndian.bytes 4 value.bits.toNat) hbuffer
    (by simp)
  rw [length_flatMap_bytes, ← h.position_eq] at hwrite
  refine ⟨⟨buffer, store.position + width⟩, ?_, rfl, hwritten⟩
  rw [putNode?, if_pos (by rw [hsize, h.position_eq]; omega), hwrite]
  rfl

def laws : StoreLaws PackedStore widths where
  Holds := Holds
  handle nodes := StoredNode.extent widths nodes + rightOffset
  cursor_eq h := congrArg Int32.ofNat h.position_eq
  putSplit {nodes room store} feature threshold h := by
    obtain ⟨filled, hput, hposition, hbuffer⟩ :=
      h.putNode (.ofNat feature) threshold 4 rfl
    refine ⟨filled, ?_, ?_, ?_⟩
    · simp only [NodeStore.putSplit?, hput, Option.map_some, h.position_eq]
    · rw [hbuffer, bytes_int16]
      simp [StoredNode.bytes, BigEndian.bytes]
    · rw [hposition, h.position_eq, StoredNode.extent_append]
      rfl
  putLeaf {nodes room store} output h := by
    obtain ⟨filled, hput, hposition, hbuffer⟩ := h.putNode (-1) output 0 rfl
    refine ⟨filled, hput, ?_, ?_⟩
    · rw [hbuffer, show (-1 : Int16).toUInt16.toNat = 0xffff from rfl]
      simp [StoredNode.bytes]
    · rw [hposition, h.position_eq, StoredNode.extent_append]
      rfl
  setRight {nodes feature threshold others room store} right h := by
    have hbuffer : store.buffer.data.toList =
        (nodes.flatMap StoredNode.bytes ++
          (BigEndian.bytes 2 feature ++ BigEndian.bytes 4 threshold.bits.toNat)) ++
        BigEndian.bytes 4 0 ++ (others.flatMap StoredNode.bytes ++ List.replicate room 0) := by
      rw [h.buffer_eq]
      simp [StoredNode.bytes]
    obtain ⟨buffer, hwrite, hwritten⟩ := BigEndian.write?_append
      (BigEndian.bytes 4 (Int32.ofNat right).toUInt32.toNat) hbuffer (by simp)
    rw [List.length_append, length_flatMap_bytes, List.length_append, BigEndian.length_bytes,
      BigEndian.length_bytes] at hwrite
    refine ⟨{ store with buffer }, ?_, ?_, ?_⟩
    · exact congrArg (Option.map _) hwrite
    · rw [hwritten, bytes_int32]
      simp [StoredNode.bytes]
    · rw [h.position_eq]
      simp [StoredNode.width]

end PackedStore

/-- All nodes of an ensemble in one buffer, with the weights multiplied into the leaves. -/
structure PackedEnsemble where
  roots : Array Int32
  buffer : ByteArray
  featureCount : Nat
  objective : Objective

namespace PackedEnsemble

instance : DecidableEq PackedEnsemble := fun p q =>
  decidable_of_decidable_of_iff (p := p.roots = q.roots ∧ p.buffer.data = q.buffer.data ∧
    p.featureCount = q.featureCount ∧ p.objective = q.objective) (by
      obtain ⟨roots, buffer, featureCount, objective⟩ := p
      obtain ⟨roots', buffer', featureCount', objective'⟩ := q
      rw [PackedEnsemble.mk.injEq, ByteArray.ext_iff])

theorem fill?_isSome (e : Ensemble) :
    (NodeStore.fill? e.terms (PackedStore.zeros (e.width PackedStore.widths))).isSome := by
  obtain ⟨store, hfill, _⟩ := PackedStore.laws.fill?_eq e _ (PackedStore.holds_zeros _)
  rw [hfill]
  rfl

def ofEnsemble (e : Ensemble) : Except ModelError PackedEnsemble :=
  if e.hasWideOrdinal then .error (.capacity .featureOrdinal)
  else if 0x80000000 ≤ e.width PackedStore.widths then .error (.capacity .byteCount)
  else
    let filled := (NodeStore.fill? e.terms (PackedStore.zeros (e.width PackedStore.widths))).get
      (fill?_isSome e)
    .ok
      { roots := filled.1
        buffer := filled.2.buffer
        featureCount := e.featureCount
        objective := e.objective }

theorem ofEnsemble_eq (e : Ensemble) :
    ofEnsemble e =
      if e.hasWideOrdinal then .error (.capacity .featureOrdinal)
      else if 0x80000000 ≤ e.width PackedStore.widths then .error (.capacity .byteCount)
      else
        .ok
          { roots := ((Ensemble.rootsFrom PackedStore.widths 0 e.terms).map Int32.ofNat).toArray
            buffer :=
              ⟨((Ensemble.storedFrom PackedStore.widths 0 e.terms).flatMap StoredNode.bytes).toArray⟩
            featureCount := e.featureCount
            objective := e.objective } := by
  obtain ⟨store, hfill, hstore⟩ := PackedStore.laws.fill?_eq e _ (PackedStore.holds_zeros _)
  have hbuffer : store.buffer = ⟨store.buffer.data.toList.toArray⟩ := rfl
  simp only [ofEnsemble, hfill, Option.get_some]
  rw [hbuffer, PackedStore.Holds.buffer_eq hstore, List.replicate_zero, List.append_nil]

def treeCount (e : PackedEnsemble) : Nat := e.roots.size

def byteCount (e : PackedEnsemble) : Nat := e.buffer.size

def node? (e : PackedEnsemble) (offset : Nat) : Option StoredNode := do
  let feature := Int16.ofNat (← BigEndian.read? e.buffer offset 2)
  let value : Binary32 := ⟨.ofNat (← BigEndian.read? e.buffer (offset + 2) 4)⟩
  if feature = -1 then
    return .leaf value
  else
    let right := Int32.ofNat (← BigEndian.read? e.buffer (offset + PackedStore.rightOffset) 4)
    if feature < 0 || right < 0 then none
    else return .split feature.toNatClampNeg value right.toNatClampNeg

def leafSum (e : PackedEnsemble) (source : FeatureSource) : Except WalkFault Binary32 :=
  StoredNode.sumFrom e.node? PackedStore.widths source e.byteCount e.roots

def rawScore (e : PackedEnsemble) (source : FeatureSource) : Option Binary32 :=
  (e.leafSum source).toOption

def predict (e : PackedEnsemble) (source : FeatureSource) : Option Binary32 :=
  (e.rawScore source).map e.objective.transform

def memory (e : PackedEnsemble) : Nat := 48 + e.byteCount + 4 * e.treeCount

instance : BEq PackedEnsemble where
  beq a b :=
    a.featureCount == b.featureCount && a.objective == b.objective && a.roots == b.roots
      && a.buffer.data == b.buffer.data

def fingerprint (e : PackedEnsemble) : Fingerprint :=
  .size e.featureCount :: e.objective.fingerprint ++ .sequence .long e.roots.toList
    ++ .sequence .byte e.buffer.data.toList

end PackedEnsemble

end Relevance
