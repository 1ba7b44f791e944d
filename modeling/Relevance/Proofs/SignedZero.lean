import Relevance.Proofs.NumberQuotient

namespace Relevance.Binary32

open FloatFormat

def negativeZero : Binary32 := ⟨0x80000000⟩

theorem ofMagnitude_self (x : Binary32) : ofMagnitude x.negative x.magnitude = x := by
  have hbits : x.bits.toNat < 2 ^ 32 := x.bits.toNat_lt
  have hnat : (if x.negative then 0x80000000 + x.magnitude else x.magnitude) = x.bits.toNat := by
    rw [magnitude]
    split
    · rename_i hnegative
      have hhigh : 0x80000000 ≤ x.bits.toNat := of_decide_eq_true hnegative
      omega
    · rename_i hpositive
      have hlow : ¬0x80000000 ≤ x.bits.toNat := fun h => hpositive (decide_eq_true h)
      omega
  rw [ofMagnitude, hnat, UInt32.ofNat_toNat]

theorem isZero_iff {x : Binary32} : x.isZero = true ↔ x.key = 0 := by
  have hkey := natAbs_key x
  rw [isZero, decide_eq_true_iff]
  omega

theorem isFinite_of_isZero {x : Binary32} (h : x.isZero = true) : x.isFinite = true := by
  rw [isZero_iff] at h
  rw [isFinite_iff, h]
  decide

theorem eq_zero_or {x : Binary32} (h : x.isZero = true) : x = zero ∨ x = negativeZero := by
  rw [← ofMagnitude_self x, of_decide_eq_true h]
  cases x.negative with
  | false => exact .inl rfl
  | true => exact .inr rfl

theorem eq_of_key_eq {x y : Binary32} (h : x.key = y.key) (hx : x.isZero = false) : x = y := by
  have hmagnitude : x.magnitude = y.magnitude := by rw [← natAbs_key, h, natAbs_key]
  have hne : y.magnitude ≠ 0 := hmagnitude ▸ of_decide_eq_false hx
  have hnegative : x.negative = y.negative := by
    rw [key, key, hmagnitude] at h
    cases hxn : x.negative <;> cases hyn : y.negative
    case false.false => rfl
    case true.true => rfl
    all_goals
      simp only [hxn, hyn, Bool.false_eq_true, ↓reduceIte] at h
      omega
  rw [← ofMagnitude_self x, hnegative, hmagnitude, ofMagnitude_self]

theorem le_antisymm {x y : Binary32} (hxy : x ≤ y) (hyx : y ≤ x) (hx : x ≠ negativeZero)
    (hy : y ≠ negativeZero) : x = y := by
  have hkey : x.key = y.key := Int.le_antisymm (le_iff.1 hxy).2.2 (le_iff.1 hyx).2.2
  cases hzero : x.isZero with
  | false => exact eq_of_key_eq hkey hzero
  | true =>
    have hzero' : y.isZero = true := isZero_iff.2 (hkey ▸ isZero_iff.1 hzero)
    rw [(eq_zero_or hzero).resolve_right hx, (eq_zero_or hzero').resolve_right hy]

theorem nearest_pos {n : Nat} (h : 0 < n) : 0 < binary32.nearest n 1 :=
  calc
    0 < binary32.nearest 1 1 := by decide
    _ ≤ binary32.nearest n 1 := nearest_mono h 1

theorem oddExtension_nearest_eq_zero {s : Int}
    (h : oddExtension (fun n => binary32.nearest n 1) s = 0) : s = 0 := by
  apply Classical.byContradiction
  intro hne
  have hpos : 0 < binary32.nearest s.natAbs 1 := nearest_pos (Int.natAbs_pos.2 hne)
  rw [oddExtension] at h
  split at h <;> omega

theorem units_eq_zero_iff {x : Binary32} (h : x.isFinite = true) :
    x.units = 0 ↔ x.isZero = true := by
  rw [isZero_iff, key_eq_nearest h]
  constructor
  · intro hunits
    rw [hunits]
    decide
  · exact oddExtension_nearest_eq_zero

theorem add_of_isFinite {x y : Binary32} (hx : x.isFinite = true) (hy : y.isFinite = true) :
    x + y = ofQuotient
      (if x.units + y.units = 0 then x.negative && y.negative else x.units + y.units < 0)
      (x.units + y.units).natAbs 1 := by
  change Binary32.add x y = _
  simp only [Binary32.add, isNaN_of_isFinite hx, isNaN_of_isFinite hy, isInfinite_of_isFinite hx,
    isInfinite_of_isFinite hy, Bool.false_eq_true, ↓reduceIte]

theorem ofQuotient_units {x : Binary32} (h : x.isFinite = true) (hne : x.units ≠ 0) :
    ofQuotient (x.units < 0) x.units.natAbs 1 = x := by
  have hmagnitude : binary32.nearest (binary32.units x.magnitude) 1 = x.magnitude :=
    nearest_units (Nat.le_of_lt (of_decide_eq_true h))
  have hsign : decide (x.units < 0) = x.negative := by
    rw [units] at hne ⊢
    cases x.negative with
    | false => simp
    | true =>
      simp only [↓reduceIte] at hne ⊢
      exact decide_eq_true (by omega)
  have habs : x.units.natAbs = binary32.units x.magnitude := by
    rw [units]
    split <;> omega
  rw [ofQuotient, hsign, habs, hmagnitude, ofMagnitude_self]

/-- A zero of either sign adds nothing to a number that is not negative zero. -/
theorem add_zero_same {x z : Binary32} (hx : x ≠ negativeZero) (hz : z.isZero = true) :
    (x + z).Same x := by
  have hzfinite := isFinite_of_isZero hz
  cases hn : x.isNaN with
  | true => exact .inr ⟨isNaN_add_left hn z, hn⟩
  | false =>
    left
    cases hinfinite : x.isInfinite with
    | true =>
      change Binary32.add x z = x
      simp only [Binary32.add, hn, isNaN_of_isFinite hzfinite, hinfinite,
        isInfinite_of_isFinite hzfinite, Bool.false_and, Bool.false_eq_true, ↓reduceIte]
    | false =>
      have hfinite := isFinite_of_not_infinite hn hinfinite
      by_cases hunits : x.units = 0
      · obtain rfl : x = zero :=
          (eq_zero_or ((units_eq_zero_iff hfinite).1 hunits)).resolve_right hx
        rcases eq_zero_or hz with rfl | rfl <;> decide
      · rw [add_of_isFinite hfinite hzfinite, (units_eq_zero_iff hzfinite).2 hz, Int.add_zero,
          if_neg hunits, ofQuotient_units hfinite hunits]

theorem isFinite_of_add {x y : Binary32} (h : (x + y).isFinite = true) :
    x.isFinite = true ∧ y.isFinite = true := by
  have hn := isNaN_of_isFinite h
  have hx : x.isNaN = false :=
    eq_false_of_ne_true fun hx => ne_true_of_eq_false hn (isNaN_add_left hx y)
  have hy : y.isNaN = false :=
    eq_false_of_ne_true fun hy => ne_true_of_eq_false hn (isNaN_add_right x hy)
  rw [isFinite_iff] at h
  constructor
  · apply isFinite_of_not_infinite hx
    apply eq_false_of_ne_true
    intro hinfinite
    rw [key_add_left hinfinite hn, isInfinite_iff.1 hinfinite] at h
    exact Nat.lt_irrefl _ h
  · apply isFinite_of_not_infinite hy
    apply eq_false_of_ne_true
    intro hinfinite
    rw [key_add_right hinfinite hn, isInfinite_iff.1 hinfinite] at h
    exact Nat.lt_irrefl _ h

/-- Only two negative zeros have the sum negative zero. -/
theorem add_ne_negativeZero {x : Binary32} (hx : x ≠ negativeZero) (y : Binary32) :
    x + y ≠ negativeZero := by
  intro hsum
  have hkey : (x + y).key = 0 := by
    rw [hsum]
    decide
  obtain ⟨hxfinite, hyfinite⟩ := isFinite_of_add (x := x) (y := y) (by rw [hsum]; decide)
  rw [key_add hxfinite hyfinite] at hkey
  have hunits := oddExtension_nearest_eq_zero hkey
  rw [add_of_isFinite hxfinite hyfinite, if_pos hunits, hunits] at hsum
  have hnegative : x.negative = true ∧ y.negative = true := by
    rw [← Bool.and_eq_true]
    cases hand : x.negative && y.negative with
    | false => rw [hand] at hsum; exact absurd hsum (by decide)
    | true => rfl
  -- Two values that are not above zero have the sum zero only if both are zero.
  have hxunits : x.units = 0 := by
    rw [units, units, if_pos hnegative.1, if_pos hnegative.2] at hunits
    rw [units, if_pos hnegative.1]
    omega
  rcases eq_zero_or ((units_eq_zero_iff hxfinite).1 hxunits) with rfl | rfl
  · exact absurd hnegative.1 (by decide)
  · exact hx rfl

theorem add_ne_negativeZero_right (x : Binary32) {y : Binary32} (hy : y ≠ negativeZero) :
    x + y ≠ negativeZero := by
  intro hsum
  obtain ⟨hxfinite, hyfinite⟩ := isFinite_of_add (x := x) (y := y) (by rw [hsum]; decide)
  have hcomm : y + x = x + y := by
    rw [add_of_isFinite hyfinite hxfinite, add_of_isFinite hxfinite hyfinite,
      Int.add_comm y.units, Bool.and_comm]
  exact add_ne_negativeZero hy x (hcomm.trans hsum)

theorem isZero_mul_zero {x : Binary32} (h : x.isFinite = true) : (x * zero).isZero = true := by
  have hunits : zero.units = 0 := by decide
  rw [isZero_iff, key_mul h (by decide), hunits, Int.mul_zero, oddExtension, if_neg (by decide)]
  exact congrArg Int.ofNat (nearest_zero ..)

end Relevance.Binary32
