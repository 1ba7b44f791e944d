import Mathlib.Algebra.Ring.Nat
import Relevance.Proofs.PackedTiling

namespace Relevance

open StoredNode

theorem Tree.extent_flat (t : Tree) : t.extent FlatSlot.widths = t.size := by
  induction t with
  | leaf output => rfl
  | split feature threshold left right ihl ihr =>
    rw [extent, ihl, ihr, size]
    change 1 + left.size + right.size = _
    omega

namespace StoredNode

def relocate (place : Nat → Nat) : StoredNode → StoredNode
  | leaf output => leaf output
  | split feature threshold right => split feature threshold (place right)

/-- The address of a node by its index: the space that the nodes before it take. -/
def address (widths : NodeWidths) (nodes : List StoredNode) (i : Nat) : Nat :=
  extent widths (nodes.take i)

theorem address_length (widths : NodeWidths) (front back : List StoredNode) :
    address widths (front ++ back) front.length = extent widths front := by
  rw [address, List.take_left]

theorem address_le_extent (widths : NodeWidths) (nodes : List StoredNode) (i : Nat) :
    address widths nodes i ≤ extent widths nodes := by
  conv => rhs; rw [← List.take_append_drop i nodes, extent_append]
  exact Nat.le_add_right ..

theorem width_relocate (widths : NodeWidths) (place : Nat → Nat) (node : StoredNode) :
    (node.relocate place).width widths = node.width widths := by
  cases node <;> rfl

theorem extent_relocate (widths : NodeWidths) (place : Nat → Nat) (nodes : List StoredNode) :
    extent widths (nodes.map (relocate place)) = extent widths nodes := by
  induction nodes with
  | nil => rfl
  | cons node rest ih => rw [List.map_cons, extent, extent, width_relocate, ih]

end StoredNode

/-- A tree stands in any layout as it does in slots, with addresses in the place of slot numbers. -/
theorem Tree.stored_eq_relocate (widths : NodeWidths) {weight : Binary32} {t : Tree}
    {nodes : List StoredNode} (front back : List StoredNode)
    (h : nodes = front ++ t.stored FlatSlot.widths weight front.length ++ back) :
    t.stored widths weight (StoredNode.extent widths front) =
      (t.stored FlatSlot.widths weight front.length).map (relocate (address widths nodes)) := by
  induction t generalizing front back with
  | leaf output => rfl
  | split feature threshold left right ihl ihr =>
    let leftNodes := left.stored FlatSlot.widths weight (front.length + 1)
    let rightStart := front.length + 1 + left.size
    let rightNodes := right.stored FlatSlot.widths weight rightStart
    let node := StoredNode.split feature threshold rightStart
    have hstored : (split feature threshold left right).stored FlatSlot.widths weight front.length =
        node :: (leftNodes ++ rightNodes) := by
      rw [stored, extent_flat]
      rfl
    have hleftLength : leftNodes.length = left.size := by
      rw [← FlatSlot.extent_widths, extent_stored, extent_flat]
    have hright : (front ++ node :: leftNodes).length = rightStart := by
      rw [List.length_append, List.length_cons, hleftLength]
      omega
    have hextentLeft : StoredNode.extent widths (front ++ [node]) =
        StoredNode.extent widths front + widths.split := by
      rw [extent_append, StoredNode.extent, StoredNode.extent, Nat.add_zero]
      rfl
    have hextentRight : StoredNode.extent widths (front ++ node :: leftNodes) =
        StoredNode.extent widths front + widths.split + left.extent widths := by
      rw [extent_append, StoredNode.extent, extent_stored, ← Nat.add_assoc]
      rfl
    rw [hstored] at h
    -- The nodes of the left subtree are behind the split, those of the right one behind both.
    have ihl := ihl (front ++ [node]) (rightNodes ++ back) (by simp [h, leftNodes])
    have ihr := ihr (front ++ node :: leftNodes) back (by rw [hright]; simp [h, rightNodes])
    have hplace : address widths nodes rightStart =
        StoredNode.extent widths front + widths.split + left.extent widths := by
      rw [← hextentRight, ← hright, ← address_length widths _ (rightNodes ++ back), h]
      simp
    rw [hextentLeft, List.length_append, List.length_singleton] at ihl
    rw [hextentRight, hright] at ihr
    rw [hstored, stored, ihl, ihr, List.map_cons, List.map_append, relocate, hplace]

namespace Ensemble

theorem storedFrom_eq_relocate (widths : NodeWidths) {terms : List WeightedTree}
    {nodes : List StoredNode} (front : List StoredNode)
    (h : nodes = front ++ storedFrom FlatSlot.widths front.length terms) :
    storedFrom widths (extent widths front) terms =
        (storedFrom FlatSlot.widths front.length terms).map (relocate (address widths nodes)) ∧
      rootsFrom widths (extent widths front) terms =
        (rootsFrom FlatSlot.widths front.length terms).map (address widths nodes) := by
  induction terms generalizing front with
  | nil => exact ⟨rfl, rfl⟩
  | cons term rest ih =>
    let treeNodes := term.tree.stored FlatSlot.widths term.weight front.length
    have hlength : (front ++ treeNodes).length = front.length + term.width FlatSlot.widths := by
      rw [List.length_append, ← FlatSlot.extent_widths treeNodes, Tree.extent_stored,
        WeightedTree.width_eq]
    have hextent : extent widths (front ++ treeNodes) =
        extent widths front + term.width widths := by
      rw [extent_append, Tree.extent_stored, WeightedTree.width_eq]
    rw [storedFrom] at h
    obtain ⟨hrest, hroots⟩ := ih (front ++ treeNodes) (by rw [hlength, h, List.append_assoc])
    have htree := Tree.stored_eq_relocate widths front
      (storedFrom FlatSlot.widths (front.length + term.width FlatSlot.widths) rest)
      (h.trans (List.append_assoc ..).symm)
    have hroot : address widths nodes front.length = extent widths front := by
      rw [h, address_length]
    rw [hlength, hextent] at hrest hroots
    constructor
    · rw [storedFrom, storedFrom, htree, hrest, List.map_append]
    · rw [rootsFrom, rootsFrom, hroots, List.map_cons, hroot]

theorem stored_eq_relocate (widths : NodeWidths) (e : Ensemble) :
    storedFrom widths 0 e.terms = (storedFrom FlatSlot.widths 0 e.terms).map
        (relocate (address widths (storedFrom FlatSlot.widths 0 e.terms))) ∧
      rootsFrom widths 0 e.terms = (rootsFrom FlatSlot.widths 0 e.terms).map
        (address widths (storedFrom FlatSlot.widths 0 e.terms)) :=
  storedFrom_eq_relocate widths [] (List.nil_append _).symm

def subtrees (e : Ensemble) : List WeightedTree :=
  e.terms.flatMap fun term => term.tree.subtrees.map (⟨·, term.weight⟩)

end Ensemble

/-- The node of a subtree in slots: its left subtree lies between it and its right child. -/
def WeightedTree.slotNode (i : Nat) : WeightedTree → StoredNode
  | ⟨.leaf output, weight⟩ => .leaf (output * weight)
  | ⟨.split feature threshold left _, _⟩ => .split feature threshold (i + 1 + left.size)

theorem Tree.stored_flat (weight : Binary32) (start : Nat) (t : Tree) :
    t.stored FlatSlot.widths weight start =
      (t.subtrees.zipIdx start).map fun (s, i) => WeightedTree.slotNode i ⟨s, weight⟩ := by
  induction t generalizing start with
  | leaf output => rfl
  | split feature threshold left right ihl ihr =>
    have hright : start + 1 + left.subtrees.length = start + 1 + left.size := by
      rw [length_subtrees]
    rw [stored, extent_flat, subtrees, List.zipIdx_cons, List.zipIdx_append, List.map_cons,
      List.map_append, hright, ← ihl, ← ihr]
    rfl

theorem Ensemble.storedFrom_flat (start : Nat) (terms : List WeightedTree) :
    storedFrom FlatSlot.widths start terms =
      ((terms.flatMap fun term => term.tree.subtrees.map (WeightedTree.mk · term.weight)).zipIdx
        start).map fun (s, i) => s.slotNode i := by
  induction terms generalizing start with
  | nil => rfl
  | cons term rest ih =>
    have hlength : start + (term.tree.subtrees.map (WeightedTree.mk · term.weight)).length =
        start + term.width FlatSlot.widths := by
      rw [List.length_map, Tree.length_subtrees, WeightedTree.width_eq, Tree.extent_flat]
    rw [storedFrom, List.flatMap_cons, List.zipIdx_append, List.map_append, hlength, ← ih,
      Tree.stored_flat, List.zipIdx_map, List.map_map]
    rfl

theorem Ensemble.stored_getElem? (e : Ensemble) (i : Nat) :
    (storedFrom FlatSlot.widths 0 e.terms)[i]? =
      e.subtrees[i]?.map (WeightedTree.slotNode i) := by
  rw [storedFrom_flat, List.getElem?_map, List.getElem?_zipIdx, Option.map_map, Nat.zero_add]
  rfl

theorem Ensemble.getElem?_rootsFrom (widths : NodeWidths) (start : Nat)
    {terms : List WeightedTree} {i : Nat} (h : i < terms.length) :
    (rootsFrom widths start terms)[i]? = some (start + widthOf widths (terms.take i)) := by
  induction terms generalizing start i with
  | nil => exact absurd h (Nat.not_lt_zero i)
  | cons term rest ih =>
    cases i with
    | zero => rfl
    | succ i =>
      rw [rootsFrom, List.getElem?_cons_succ, ih _ (Nat.lt_of_succ_lt_succ h), List.take_succ_cons,
        widthOf, Nat.add_assoc]

theorem Ensemble.widthOf_flat (terms : List WeightedTree) :
    widthOf FlatSlot.widths terms = ((terms.map (·.tree)).map (·.count .all)).sum := by
  induction terms with
  | nil => rfl
  | cons term rest ih =>
    rw [widthOf, ih, WeightedTree.width_eq, Tree.extent_flat, ← Tree.count_all]
    rfl

theorem StoredNode.extent_eq_sum (widths : NodeWidths) (nodes : List StoredNode) :
    extent widths nodes = (nodes.map (width widths)).sum := by
  induction nodes with
  | nil => rfl
  | cons node rest ih => rw [extent, ih, List.map_cons, List.sum_cons]

def FlatSlot.packedWidth (slot : FlatSlot) : Nat := if 0 ≤ slot.feature then 10 else 6

theorem FlatSlot.packedWidth_ofNode {node : StoredNode} (h : node.Fits) :
    (ofNode node).packedWidth = node.width PackedStore.widths := by
  cases node with
  | leaf output => rfl
  | split feature threshold right => exact if_pos (Int16.not_lt.1 (int16_not_neg h.1))

def FlatSlot.HoldsSubtree (slot : FlatSlot) (i : Nat) : WeightedTree → Prop
  | ⟨.leaf output, weight⟩ => slot.feature = -1 ∧ slot.value = output * weight ∧ slot.right = 0
  | ⟨.split feature threshold left _, _⟩ =>
    slot.feature.toInt = feature ∧ slot.value = threshold ∧
      slot.right.toInt = i + 1 + left.count .all

theorem FlatSlot.holdsSubtree_ofNode {term : WeightedTree} {i : Nat}
    (h : (term.slotNode i).Fits) : (ofNode (term.slotNode i)).HoldsSubtree i term := by
  obtain ⟨tree, weight⟩ := term
  cases tree with
  | leaf output => exact ⟨rfl, rfl, rfl⟩
  | split feature threshold left right =>
    obtain ⟨hfeature, hright⟩ := h
    refine ⟨Int16.toInt_ofNat_of_lt hfeature, rfl, ?_⟩
    rw [Tree.count_all]
    exact Int32.toInt_ofNat_of_lt hright

namespace FlatEnsemble

def byteOffset (f : FlatEnsemble) (i : Nat) : Nat :=
  ((f.slots.toList.take i).map FlatSlot.packedWidth).sum

variable {e : Ensemble} {f : FlatEnsemble}

theorem slots_eq (h : ofEnsemble e = .ok f) :
    f.slots = ((Ensemble.storedFrom FlatSlot.widths 0 e.terms).map FlatSlot.ofNode).toArray ∧
      ∀ node ∈ Ensemble.storedFrom FlatSlot.widths 0 e.terms, node.Fits := by
  obtain ⟨hwide, hwidth, rfl⟩ := ofEnsemble_ok h
  exact ⟨rfl, Ensemble.fits_stored hwide hwidth⟩

theorem byteOffset_eq (h : ofEnsemble e = .ok f) :
    f.byteOffset = address PackedStore.widths (Ensemble.storedFrom FlatSlot.widths 0 e.terms) := by
  obtain ⟨hslots, hfits⟩ := slots_eq h
  funext i
  rw [byteOffset, hslots, address, extent_eq_sum, ← List.map_take, List.map_map]
  congr 1
  apply List.map_congr_left
  intro node hnode
  exact FlatSlot.packedWidth_ofNode (hfits node (List.mem_of_mem_take hnode))

theorem size_slots (h : ofEnsemble e = .ok f) : f.slots.size = e.subtrees.length := by
  rw [(slots_eq h).1, List.size_toArray, List.length_map, Ensemble.storedFrom_flat,
    List.length_map, List.length_zipIdx]
  rfl

theorem roots_getElem? (h : ofEnsemble e = .ok f) (i : Nat) :
    f.roots[i]? = ((Ensemble.rootsFrom FlatSlot.widths 0 e.terms)[i]?).map Int32.ofNat := by
  obtain ⟨_, _, rfl⟩ := ofEnsemble_ok h
  simp

theorem size_roots (h : ofEnsemble e = .ok f) : f.roots.size = e.treeCount := by
  obtain ⟨_, _, rfl⟩ := ofEnsemble_ok h
  rw [List.size_toArray, List.length_map, Ensemble.length_rootsFrom, Ensemble.treeCount]

variable {p : PackedEnsemble}

theorem packed_eq (hf : ofEnsemble e = .ok f) (hp : PackedEnsemble.ofEnsemble e = .ok p) :
    p.buffer = ⟨(((Ensemble.storedFrom FlatSlot.widths 0 e.terms).map
        (relocate f.byteOffset)).flatMap StoredNode.bytes).toArray⟩ ∧
      p.roots = (((Ensemble.rootsFrom FlatSlot.widths 0 e.terms).map f.byteOffset).map
        Int32.ofNat).toArray ∧
      ∀ node ∈ (Ensemble.storedFrom FlatSlot.widths 0 e.terms).map (relocate f.byteOffset),
        node.Fits := by
  obtain ⟨hwide, hwidth, rfl⟩ := PackedEnsemble.ofEnsemble_ok hp
  have hfits := Ensemble.fits_stored hwide hwidth
  obtain ⟨hstored, hroots⟩ := e.stored_eq_relocate PackedStore.widths
  rw [byteOffset_eq hf, ← hstored, ← hroots]
  exact ⟨rfl, rfl, hfits⟩

theorem bytes_at (hf : ofEnsemble e = .ok f) (hp : PackedEnsemble.ofEnsemble e = .ok p) {i : Nat}
    {node : StoredNode} (hnode : (Ensemble.storedFrom FlatSlot.widths 0 e.terms)[i]? = some node) :
    ∃ front back, front.length = f.byteOffset i ∧
      p.buffer.data.toList = front ++ (node.relocate f.byteOffset).bytes ++ back ∧
      (node.relocate f.byteOffset).Fits := by
  obtain ⟨hbuffer, _, hfits⟩ := packed_eq hf hp
  let nodes := Ensemble.storedFrom FlatSlot.widths 0 e.terms
  obtain ⟨hi, hget⟩ := List.getElem?_eq_some_iff.1 hnode
  have hnodes : nodes = nodes.take i ++ node :: nodes.drop (i + 1) := by
    rw [← hget, List.getElem_cons_drop, List.take_append_drop]
  refine ⟨((nodes.take i).map (relocate f.byteOffset)).flatMap StoredNode.bytes,
    ((nodes.drop (i + 1)).map (relocate f.byteOffset)).flatMap StoredNode.bytes, ?_, ?_, ?_⟩
  · rw [PackedStore.length_flatMap_bytes, extent_relocate, byteOffset_eq hf]
    rfl
  · rw [hbuffer]
    change (nodes.map (relocate f.byteOffset)).flatMap StoredNode.bytes = _
    conv => lhs; rw [hnodes]
    simp
  · exact hfits _ (List.mem_map_of_mem (List.mem_of_getElem? hnode))

theorem read?_slot (hf : ofEnsemble e = .ok f) (hp : PackedEnsemble.ofEnsemble e = .ok p)
    {i : Nat} {slot : FlatSlot} (hslot : f.slots[i]? = some slot) :
    (∃ term, e.subtrees[i]? = some term ∧ slot.HoldsSubtree i term) ∧
      BigEndian.read? p.buffer (f.byteOffset i) 2 = some slot.feature.toUInt16.toNat ∧
      BigEndian.read? p.buffer (f.byteOffset i + 2) 4 = some slot.value.bits.toNat ∧
      (0 ≤ slot.feature → BigEndian.read? p.buffer (f.byteOffset i + 6) 4 =
        some (f.byteOffset slot.right.toNatClampNeg)) := by
  obtain ⟨hslots, hfits⟩ := slots_eq hf
  rw [hslots, List.getElem?_toArray, List.getElem?_map] at hslot
  obtain ⟨node, hnode, rfl⟩ := Option.map_eq_some_iff.1 hslot
  obtain ⟨front, back, hfront, hbytes, hfitsPacked⟩ := bytes_at hf hp hnode
  have hfitsSlot := hfits node (List.mem_of_getElem? hnode)
  rw [Ensemble.stored_getElem?] at hnode
  obtain ⟨term, hterm, rfl⟩ := Option.map_eq_some_iff.1 hnode
  refine ⟨⟨term, hterm, FlatSlot.holdsSubtree_ofNode hfitsSlot⟩, ?_⟩
  rw [← hfront]
  obtain ⟨tree, weight⟩ := term
  cases tree with
  | leaf output =>
    obtain ⟨hfeature, hvalue⟩ := PackedEnsemble.read?_leaf hbytes
    have hneg : ¬(0 : Int16) ≤ -1 := by decide
    exact ⟨hfeature, hvalue, fun h => absurd h hneg⟩
  | split feature threshold left right =>
    obtain ⟨hfeature, hvalue, hright⟩ := PackedEnsemble.read?_split hbytes hfitsPacked
    have hbits : (Int16.ofNat feature).toUInt16.toNat = feature := by
      rw [Int16.toUInt16_ofNat', UInt16.toNat_ofNat']
      exact Nat.mod_eq_of_lt (Nat.lt_trans hfitsSlot.1 (by decide))
    have hplace := Int32.toNatClampNeg_ofNat_of_lt hfitsSlot.2
    exact ⟨hfeature.trans (congrArg some hbits.symm), hvalue,
      fun _ => hright.trans (congrArg (some <| f.byteOffset ·) hplace.symm)⟩

theorem byteCount_packed (hf : ofEnsemble e = .ok f) (hp : PackedEnsemble.ofEnsemble e = .ok p) :
    p.byteCount = f.byteOffset f.nodeCount := by
  rw [PackedEnsemble.byteCount_eq hp, nodeCount, size_slots hf, byteOffset_eq hf, address,
    List.take_of_length_le, Ensemble.extent_storedFrom, Ensemble.width]
  rw [Ensemble.storedFrom_flat, List.length_map, List.length_zipIdx]
  exact Nat.le_refl _

theorem byteOffset_lt (hf : ofEnsemble e = .ok f) (hp : PackedEnsemble.ofEnsemble e = .ok p)
    (i : Nat) : f.byteOffset i < 0x80000000 := by
  rw [byteOffset_eq hf]
  apply Nat.lt_of_le_of_lt (address_le_extent ..)
  rw [Ensemble.extent_storedFrom]
  exact (PackedEnsemble.ofEnsemble_ok hp).2.1

theorem roots_packed (hf : ofEnsemble e = .ok f) (hp : PackedEnsemble.ofEnsemble e = .ok p) {i : Nat}
    (hi : i < e.treeCount) :
    let start : Nat := ((e.trees.take i).map (·.count .all)).sum
    f.roots[i]?.map Int32.toInt = some (start : Int) ∧
      p.roots[i]?.map Int32.toInt = some (f.byteOffset start : Int) := by
  intro start
  have hroot : (Ensemble.rootsFrom FlatSlot.widths 0 e.terms)[i]? = some start := by
    rw [Ensemble.getElem?_rootsFrom _ _ hi, Nat.zero_add, Ensemble.widthOf_flat, List.map_take]
    rfl
  have hstart : start < 0x80000000 := by
    refine Nat.lt_of_le_of_lt ?_ (ofEnsemble_ok hf).2.1
    rw [Ensemble.width, Ensemble.widthOf_flat, ← Ensemble.trees, ← List.take_append_drop i e.trees,
      List.map_append, List.sum_append_nat]
    exact Nat.le_add_right ..
  obtain ⟨_, hroots, _⟩ := packed_eq hf hp
  constructor
  · rw [roots_getElem? hf, hroot, Option.map_some, Option.map_some, Int32.toInt_ofNat_of_lt hstart]
  · rw [hroots, List.getElem?_toArray, List.getElem?_map, List.getElem?_map, hroot, Option.map_some,
      Option.map_some, Option.map_some, Int32.toInt_ofNat_of_lt (byteOffset_lt hf hp start)]

/-- The packed encoding is the flat one with each slot number changed into an offset. -/
theorem packed_is_flat_relocated (hf : ofEnsemble e = .ok f)
    (hp : PackedEnsemble.ofEnsemble e = .ok p) :
    f.slots.size = e.subtrees.length ∧ p.byteCount = f.byteOffset f.nodeCount ∧
      f.roots.size = e.treeCount ∧ p.roots.size = e.treeCount ∧
      (∀ i < e.treeCount, ∃ start : Nat, start = ((e.trees.take i).map (·.count .all)).sum ∧
        f.roots[i]?.map Int32.toInt = some (start : Int) ∧
        p.roots[i]?.map Int32.toInt = some (f.byteOffset start : Int)) ∧
      ∀ i slot, f.slots[i]? = some slot →
        (∃ term, e.subtrees[i]? = some term ∧ slot.HoldsSubtree i term) ∧
        BigEndian.read? p.buffer (f.byteOffset i) 2 = some slot.feature.toUInt16.toNat ∧
        BigEndian.read? p.buffer (f.byteOffset i + 2) 4 = some slot.value.bits.toNat ∧
        (0 ≤ slot.feature → BigEndian.read? p.buffer (f.byteOffset i + 6) 4 =
          some (f.byteOffset slot.right.toNatClampNeg)) := by
  refine ⟨size_slots hf, byteCount_packed hf hp, size_roots hf, PackedEnsemble.size_roots hp, ?_, ?_⟩
  · intro i hi
    exact ⟨_, rfl, roots_packed hf hp hi⟩
  · intro i slot hslot
    exact read?_slot hf hp hslot

theorem packed_is_flat_relocated_mixed :
    ofEnsemble mixedEnsemble = .ok mixed ∧
      PackedEnsemble.ofEnsemble mixedEnsemble = .ok PackedEnsemble.mixed ∧
      mixed.slots[1]? = some ⟨0, .nan, 3⟩ ∧ mixed.byteOffset 1 = 10 ∧ mixed.byteOffset 3 = 26 ∧
      BigEndian.read? PackedEnsemble.mixed.buffer (mixed.byteOffset 1 + 6) 4 =
        some (mixed.byteOffset 3) ∧
      PackedEnsemble.mixed.byteCount = mixed.byteOffset 6 := by
  have hf : ofEnsemble mixedEnsemble = .ok mixed := by decide +kernel
  have hp : PackedEnsemble.ofEnsemble mixedEnsemble = .ok PackedEnsemble.mixed := by decide +kernel
  have h := packed_is_flat_relocated hf hp
  exact ⟨hf, hp, rfl, rfl, rfl, (h.2.2.2.2.2 1 _ rfl).2.2.2 (by decide), h.2.1⟩

end FlatEnsemble

end Relevance
