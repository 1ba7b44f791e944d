import Relevance.Proofs.FlooredTrees
import Relevance.Proofs.RoundingError
import Relevance.Proofs.SignedZero

namespace Relevance

open Binary32

namespace Binary32

theorem min_eq_or (x y : Binary32) : min x y = x ∨ min x y = y := by
  change Binary32.min x y = x ∨ Binary32.min x y = y
  rw [Binary32.min]
  split
  · exact .inl rfl
  · exact .inr rfl

theorem max_eq_or (x y : Binary32) : max x y = x ∨ max x y = y := by
  change Binary32.max x y = x ∨ Binary32.max x y = y
  rw [Binary32.max]
  split
  · exact .inl rfl
  · exact .inr rfl

theorem max_of_lt {x y : Binary32} (h : y < x) : max x y = x := if_pos (.inr h)

theorem max_of_le {x y : Binary32} (h : x ≤ y) : max x y = y := by
  have hy : y.isNaN = false := (le_iff.1 h).2.1
  exact if_neg fun hor => hor.elim (ne_true_of_eq_false hy) (not_lt_of_le h)

theorem max_of_isNaN {x : Binary32} (hx : x.isNaN = true) {y : Binary32} (hy : y.isNaN = false) :
    max x y = y := by
  apply if_neg
  rintro (hn | hlt)
  · exact ne_true_of_eq_false hy hn
  · exact ne_true_of_eq_false (lt_iff.1 hlt).2.1 hx

theorem lt_infinity {x : Binary32} (h : x.isFinite = true) : x < infinity := by
  have htop : infinity.key = FloatFormat.binary32.infinity := by decide
  apply lt_iff.2 ⟨isNaN_of_isFinite h, rfl, _⟩
  rw [isFinite_iff] at h
  rw [htop]
  omega

theorem eq_infinity {x : Binary32} (h : zero ≤ x) (hfinite : x.isFinite = false) :
    x = infinity := by
  obtain ⟨hinfinite, hnegative⟩ :=
    (isFinite_or_infinite h).resolve_left (ne_true_of_eq_false hfinite)
  rw [← ofMagnitude_self x, hnegative, of_decide_eq_true hinfinite]
  rfl

theorem add_infinity {x : Binary32} (h : x.isFinite = true) : x + infinity = infinity := by
  have htop : infinity.isNaN = false := by decide
  change Binary32.add x infinity = infinity
  simp only [Binary32.add, isNaN_of_isFinite h, isInfinite_of_isFinite h, htop, Bool.false_eq_true,
    ↓reduceIte]
  rfl

/-- The floor itself or a number above it, of the zeros above it only the positive one. -/
def RaisedTo (floor x : Binary32) : Prop := x = floor ∨ floor < x ∧ x ≠ negativeZero

theorem RaisedTo.antisymm {floor x y : Binary32} (hx : floor.RaisedTo x) (hy : floor.RaisedTo y)
    (hxy : x ≤ y) (hyx : y ≤ x) : x = y := by
  rcases hx with rfl | ⟨hlt, hx⟩
  · rcases hy with rfl | ⟨hlt, _⟩
    · rfl
    · exact absurd hlt (not_lt_of_le hyx)
  · rcases hy with rfl | ⟨_, hy⟩
    · exact absurd hlt (not_lt_of_le hxy)
    · exact le_antisymm hxy hyx hx hy

end Binary32

theorem foldl_min_mem (outputs : List Binary32) (least : Binary32) :
    outputs.foldl min least ∈ least :: outputs := by
  induction outputs generalizing least with
  | nil => exact List.mem_singleton_self least
  | cons output outputs ih =>
    rw [List.foldl_cons]
    rcases List.mem_cons.1 (ih (min least output)) with heq | hmem
    · rw [heq]
      rcases min_eq_or least output with h | h
      · rw [h]
        exact List.mem_cons_self
      · rw [h]
        exact List.mem_cons_of_mem _ List.mem_cons_self
    · exact List.mem_cons_of_mem _ (List.mem_cons_of_mem _ hmem)

namespace Tree

theorem minLeaf_mem (t : Tree) : t.minLeaf = infinity ∨ t.minLeaf ∈ t.outputs := by
  rw [minLeaf_eq]
  exact List.mem_cons.1 (foldl_min_mem t.outputs infinity)

variable {t : Tree} {floor : Binary32}

theorem minLeaf_mem_of_lt (h : t.minLeaf < floor) (hfloor : floor.isFinite = true) :
    t.minLeaf ∈ t.outputs := by
  apply t.minLeaf_mem.resolve_left
  intro htop
  rw [htop] at h
  exact not_lt_of_le (le_of_lt (lt_infinity hfloor)) h

theorem raisedTo_raisedOutput (h : t.minLeaf < floor) (hfloor : floor.isFinite = true)
    (hmin : t.minLeaf.isFinite = true) (x : Binary32) :
    floor.RaisedTo (t.raisedOutput floor x) := by
  have hfloorn := isNaN_of_isFinite hfloor
  rw [raisedOutput]
  cases hsum : (x + (floor - t.minLeaf)).isNaN with
  | true => exact .inl (max_of_isNaN hsum hfloorn)
  | false =>
    by_cases hlt : floor < x + (floor - t.minLeaf)
    · have hoffset : floor - t.minLeaf ≠ negativeZero := by
        intro hzero
        have hpos := sub_pos hfloor hmin h
        rw [hzero] at hpos
        exact absurd hpos (by decide)
      rw [max_of_lt hlt]
      exact .inr ⟨hlt, add_ne_negativeZero_right x hoffset⟩
    · exact .inl (max_of_le (le_of_not_lt hsum hfloorn hlt))

theorem minLeaf_raise (h : t.minLeaf < floor) (hfloor : floor.isFinite = true)
    (hfinite : ∀ output ∈ t.outputs, output.isFinite = true) :
    (t.raise floor).minLeaf = t.raisedOutput floor t.minLeaf := by
  have hmem : t.minLeaf ∈ t.outputs := minLeaf_mem_of_lt h hfloor
  have hraised := raisedTo_raisedOutput h hfloor (hfinite _ hmem)
  have hself : t.raisedOutput floor t.minLeaf ≤ t.raisedOutput floor t.minLeaf :=
    raisedOutput_mono h (le_refl t.isNaN_minLeaf)
  have hn : (t.raisedOutput floor t.minLeaf).isNaN = false := (le_iff.1 hself).1
  have hle : (t.raise floor).minLeaf ≤ t.raisedOutput floor t.minLeaf := by
    apply minLeaf_le _ hn
    rw [outputs_raise h]
    exact List.mem_map_of_mem hmem
  have hge : t.raisedOutput floor t.minLeaf ≤ (t.raise floor).minLeaf := by
    rw [le_minLeaf_iff hn, outputs_raise h]
    intro output houtput
    obtain ⟨before, hbefore, rfl⟩ := List.mem_map.1 houtput
    have hlow : t.minLeaf ≤ before := minLeaf_le hbefore (isNaN_of_isFinite (hfinite _ hbefore))
    exact .inr (raisedOutput_mono h hlow)
  have hleast : floor.RaisedTo (t.raise floor).minLeaf := by
    rcases (t.raise floor).minLeaf_mem with htop | hmem'
    · rw [htop]
      exact .inr ⟨lt_infinity hfloor, by decide⟩
    · rw [outputs_raise h] at hmem'
      obtain ⟨output, _, heq⟩ := List.mem_map.1 hmem'
      rw [← heq]
      exact hraised output
  exact hleast.antisymm (hraised t.minLeaf) hle hge

/-- The floor is reached exactly if the rounded sum with the offset is not above it. -/
theorem raisedOutput_eq_floor_iff (h : t.minLeaf < floor) (hmin : t.minLeaf.isFinite = true) :
    t.raisedOutput floor t.minLeaf = floor ↔ t.minLeaf + (floor - t.minLeaf) ≤ floor := by
  constructor
  · intro heq
    have hoffset := zero_le_iff.1 (sub_nonneg h)
    have hsum : (t.minLeaf + (floor - t.minLeaf)).isNaN = false := by
      apply eq_false_of_ne_true
      rw [isNaN_add_iff t.isNaN_minLeaf hoffset.1, isInfinite_of_isFinite hmin]
      exact fun h => Bool.false_ne_true h.1
    calc
      t.minLeaf + (floor - t.minLeaf) ≤ t.raisedOutput floor t.minLeaf := le_max_left hsum floor
      _ = floor := heq
  · exact max_of_le

theorem raisedOutput_of_offset_le (h : t.minLeaf < floor) (hfloor : floor.isFinite = true)
    (hmin : t.minLeaf.isFinite = true) (hoffset : (floor - t.minLeaf).isFinite = true)
    (hle : (floor - t.minLeaf).units ≤ floor.units - t.minLeaf.units) :
    t.raisedOutput floor t.minLeaf = floor := by
  rw [raisedOutput_eq_floor_iff h hmin, le_iff]
  apply And.intro (isNaN_add_of_isFinite hmin hoffset)
  apply And.intro (isNaN_of_isFinite hfloor)
  rw [key_add hmin hoffset, key_eq_nearest hfloor]
  apply oddExtension_mono fun hle => FloatFormat.nearest_mono hle 1
  omega

theorem raisedOutput_of_infinite_offset (h : t.minLeaf < floor) (hfloor : floor.isFinite = true)
    (hmin : t.minLeaf.isFinite = true) (hoffset : (floor - t.minLeaf).isFinite = false) :
    t.raisedOutput floor t.minLeaf = infinity := by
  have htop : floor - t.minLeaf = infinity := eq_infinity (sub_nonneg h) hoffset
  rw [raisedOutput, htop, add_infinity hmin, max_of_lt (lt_infinity hfloor)]

/-- The floor is missed by no more than one part in `2 ^ 23` of the distance to it. -/
theorem raisedOutput_units_le (h : t.minLeaf < floor) (hfloor : floor.isFinite = true)
    (hmin : t.minLeaf.isFinite = true)
    (hraised : (t.raisedOutput floor t.minLeaf).isFinite = true) :
    2 ^ 23 * ((t.raisedOutput floor t.minLeaf).units - floor.units) ≤
      floor.units - t.minLeaf.units := by
  have hoffset : (floor - t.minLeaf).isFinite = true := by
    apply Bool.of_not_eq_false
    intro hoffset
    rw [raisedOutput_of_infinite_offset h hfloor hmin hoffset] at hraised
    exact absurd hraised (by decide)
  have hunits : t.minLeaf.units < floor.units := units_lt_units hmin hfloor (lt_iff.1 h).2.2
  by_cases hle : (floor - t.minLeaf).units ≤ floor.units - t.minLeaf.units
  · rw [raisedOutput_of_offset_le h hfloor hmin hoffset hle]
    omega
  · have hoffsetUp := rounded_sub_le (s := floor.units - t.minLeaf.units) (by omega)
    have hsumUp := rounded_add_units_le (s := t.minLeaf.units + (floor - t.minLeaf).units) hfloor
      (by omega)
    rw [← units_sub hfloor hmin] at hoffsetUp
    rw [← units_add hmin hoffset] at hsumUp
    rcases max_eq_or (t.minLeaf + (floor - t.minLeaf)) floor with heq | heq
    · rw [raisedOutput, heq]
      omega
    · rw [raisedOutput, heq]
      omega

end Tree

namespace Ensemble

/-- The smallest leaf of a raised tree is the floor, up to what is rounded on the way to it. -/
theorem raise_reaches_floor (e : Ensemble)
    (hfinite : ∀ t ∈ e.trees, ∀ output ∈ t.outputs, output.isFinite = true) {floor : Binary32}
    (hfloor : floor.isFinite = true) (i : Nat) {t : Tree} (ht : e.trees[i]? = some t)
    (hlt : t.minLeaf < floor) :
    ∃ raised : Tree, (e.raise floor).trees[i]? = some raised ∧
      raised.minLeaf = max (t.minLeaf + (floor - t.minLeaf)) floor ∧
      (raised.minLeaf = floor ↔ t.minLeaf + (floor - t.minLeaf) ≤ floor) ∧
      ((floor - t.minLeaf).isFinite = true →
        (floor - t.minLeaf).units ≤ floor.units - t.minLeaf.units → raised.minLeaf = floor) ∧
      ((floor - t.minLeaf).isFinite = false → raised.minLeaf = .infinity) ∧
      floor ≤ raised.minLeaf ∧
      (raised.minLeaf.isFinite = true →
        2 ^ 23 * (raised.minLeaf.units - floor.units) ≤ floor.units - t.minLeaf.units) := by
  have houtputs := hfinite t (List.mem_of_getElem? ht)
  have hmin : t.minLeaf.isFinite = true := houtputs _ (Tree.minLeaf_mem_of_lt hlt hfloor)
  have hraised : (t.raise floor).minLeaf = t.raisedOutput floor t.minLeaf :=
    Tree.minLeaf_raise hlt hfloor houtputs
  apply Exists.intro (t.raise floor)
  rw [trees_raise, List.getElem?_map, ht, hraised]
  apply And.intro rfl
  apply And.intro rfl
  apply And.intro (Tree.raisedOutput_eq_floor_iff hlt hmin)
  apply And.intro (Tree.raisedOutput_of_offset_le hlt hfloor hmin)
  apply And.intro (Tree.raisedOutput_of_infinite_offset hlt hfloor hmin)
  apply And.intro (le_max_right _ (isNaN_of_isFinite hfloor))
  exact Tree.raisedOutput_units_le hlt hfloor hmin

/-- The first tree lies 1.1 below the floor 0.1, and this distance is rounded up. -/
def roundedOffset : Ensemble where
  terms :=
    [⟨.leaf ⟨0xbf800000⟩, ⟨0x3f800000⟩⟩,
      ⟨.split 0 .zero (.leaf ⟨0x40400000⟩) (.leaf ⟨0x80000000⟩), ⟨0x3f000000⟩⟩]
  featureCount := 1
  objective := .identity
  features_lt := by decide

theorem raise_reaches_floor_roundedOffset :
    ∃ above reached : Tree, (roundedOffset.raise ⟨0x3dcccccd⟩).trees[0]? = some above ∧
      ⟨0x3dcccccd⟩ ≤ above.minLeaf ∧
      (roundedOffset.raise ⟨0x3dcccccd⟩).trees[1]? = some reached ∧
      reached.minLeaf = ⟨0x3dcccccd⟩ := by
  have hfinite : ∀ t ∈ roundedOffset.trees, ∀ output ∈ t.outputs, output.isFinite = true := by
    decide
  have hfloor : (⟨0x3dcccccd⟩ : Binary32).isFinite = true := by decide
  obtain ⟨above, habove, _, _, _, _, hle, _⟩ :=
    raise_reaches_floor roundedOffset hfinite hfloor 0 rfl (by decide +kernel)
  obtain ⟨reached, hreached, _, _, hexact, _⟩ :=
    raise_reaches_floor roundedOffset hfinite hfloor 1 rfl (by decide +kernel)
  exact ⟨above, reached, habove, hle, hreached, hexact (by decide +kernel) (by decide +kernel)⟩

/-- The smallest leaf of the first tree ends three units in the last place above the floor. -/
theorem roundedOffset_misses_floor :
    (∀ t ∈ roundedOffset.trees, ∀ output ∈ t.outputs, output.isFinite = true) ∧
      (⟨0x3dcccccd⟩ : Binary32).isFinite = true ∧
      roundedOffset.trees[0]? = some (.leaf ⟨0xbf800000⟩) ∧
      (Tree.leaf ⟨0xbf800000⟩).minLeaf < ⟨0x3dcccccd⟩ ∧
      (roundedOffset.raise ⟨0x3dcccccd⟩).trees[0]? = some (.leaf ⟨0x3dccccd0⟩) ∧
      (Tree.leaf ⟨0x3dccccd0⟩).minLeaf ≠ ⟨0x3dcccccd⟩ := by
  have hlt : (Tree.leaf ⟨0xbf800000⟩).minLeaf < ⟨0x3dcccccd⟩ := by decide +kernel
  have hraise : (Tree.leaf ⟨0xbf800000⟩).raise ⟨0x3dcccccd⟩ = .leaf ⟨0x3dccccd0⟩ := by
    rw [Tree.raise_of_lt hlt]
    exact congrArg Tree.leaf (by decide +kernel)
  exact ⟨by decide, by decide, rfl, hlt, congrArg some hraise, by decide +kernel⟩

end Ensemble

end Relevance
