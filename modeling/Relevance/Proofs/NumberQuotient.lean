import Relevance.Proofs.NumberDifference

namespace Relevance.Binary32

open FloatFormat

def one : Binary32 := ⟨0x3f800000⟩

theorem zero_lt_iff {x : Binary32} : zero < x ↔ x.isNaN = false ∧ 0 < x.key := by
  rw [lt_iff]
  exact ⟨fun h => h.2, fun h => ⟨rfl, h⟩⟩

theorem not_le_iff_lt {x y : Binary32} (hx : x.isNaN = false) (hy : y.isNaN = false) :
    ¬y ≤ x ↔ x < y := by
  rw [le_iff, lt_iff]
  simp only [hx, hy, true_and, Int.not_le]

theorem negative_of_pos {x : Binary32} (h : zero < x) : x.negative = false :=
  negative_of_key_pos (zero_lt_iff.1 h).2

theorem magnitude_pos {x : Binary32} (h : zero < x) : 0 < x.magnitude := by
  have hkey := (zero_lt_iff.1 h).2
  rw [← natAbs_key]
  omega

theorem negative_ofMagnitude (negative : Bool) {magnitude : Nat} (h : magnitude < 0x80000000) :
    (ofMagnitude negative magnitude).negative = negative := by
  rw [Binary32.negative, toNat_ofMagnitude negative h]
  cases negative with
  | false => simpa using h
  | true => simp

theorem negative_neg (x : Binary32) : (-x).negative = !x.negative :=
  negative_ofMagnitude _ (Nat.mod_lt _ (by decide))

theorem isFinite_neg (x : Binary32) : (-x).isFinite = x.isFinite := by
  rw [Bool.eq_iff_iff, isFinite_iff, isFinite_iff, key_neg, Int.natAbs_neg]

theorem isNaN_sub_of_isFinite {x y : Binary32} (hx : x.isFinite = true) (hy : y.isFinite = true) :
    (x - y).isNaN = false := by
  rw [sub_eq_add_neg (isNaN_of_isFinite hx) (isNaN_of_isFinite hy)]
  exact isNaN_add_of_isFinite hx ((isFinite_neg y).trans hy)

theorem key_sub {x y : Binary32} (hx : x.isFinite = true) (hy : y.isFinite = true) :
    (x - y).key = oddExtension (fun n => binary32.nearest n 1) (x.units - y.units) := by
  rw [sub_eq_add_neg (isNaN_of_isFinite hx) (isNaN_of_isFinite hy),
    key_add hx ((isFinite_neg y).trans hy), units_neg, Int.sub_eq_add_neg]

theorem sub_le_sub_right {x y z : Binary32} (hx : x.isFinite = true) (hy : y.isFinite = true)
    (hz : z.isFinite = true) (h : x ≤ y) : x - z ≤ y - z := by
  have hunits : x.units ≤ y.units := units_le_units (le_iff.1 h).2.2
  rw [le_iff, key_sub hx hz, key_sub hy hz]
  refine ⟨isNaN_sub_of_isFinite hx hz, isNaN_sub_of_isFinite hy hz, ?_⟩
  exact oddExtension_mono (fun hle => nearest_mono hle 1) (Int.sub_le_sub_right hunits _)

theorem units_lt_units {x y : Binary32} (hx : x.isFinite = true) (hy : y.isFinite = true)
    (h : x.key < y.key) : x.units < y.units := by
  apply Int.lt_iff_le_and_ne.2 ⟨units_le_units (Int.le_of_lt h), ?_⟩
  intro hunits
  rw [key_eq_nearest hx, key_eq_nearest hy, hunits] at h
  exact Int.lt_irrefl _ h

/-- The difference of different numbers does not vanish in rounding. -/
theorem sub_pos {x y : Binary32} (hx : x.isFinite = true) (hy : y.isFinite = true) (h : y < x) :
    zero < x - y := by
  have hunits : y.units < x.units := units_lt_units hy hx (lt_iff.1 h).2.2
  rw [zero_lt_iff, key_sub hx hy]
  refine ⟨isNaN_sub_of_isFinite hx hy, ?_⟩
  calc
    0 < oddExtension (fun n => binary32.nearest n 1) 1 := by decide
    _ ≤ oddExtension (fun n => binary32.nearest n 1) (x.units - y.units) :=
      oddExtension_mono (fun hle => nearest_mono hle 1) (by omega)

theorem sub_self {x : Binary32} (h : x.isFinite = true) : x - x = zero := by
  have hn := isNaN_of_isFinite h
  have hneg : (-x).isFinite = true := (isFinite_neg x).trans h
  rw [sub_eq_add_neg hn hn]
  change Binary32.add x (-x) = zero
  simp only [Binary32.add, hn, isNaN_of_isFinite hneg, isInfinite_of_isFinite h,
    isInfinite_of_isFinite hneg, units_neg, Int.add_right_neg, negative_neg, Bool.and_not_self,
    Bool.false_eq_true, ↓reduceIte]
  decide

section

variable {x y d : Binary32}

theorem zero_div (hd : zero < d) : zero / d = zero := by
  obtain ⟨hn, _⟩ := zero_lt_iff.1 hd
  have hne : d.isZero = false := decide_eq_false (Nat.ne_of_gt (magnitude_pos hd))
  have hzero : binary32.div zero.magnitude d.magnitude = 0 := by
    have hunits : binary32.units zero.magnitude = 0 := by decide
    rw [FloatFormat.div, hunits, Nat.zero_shiftLeft, nearest_zero]
  change Binary32.div zero d = zero
  simp only [Binary32.div, hn, hne, negative_of_pos hd, hzero, Bool.false_eq_true, ↓reduceIte]
  cases d.isInfinite <;> decide

theorem div_self (hfinite : d.isFinite = true) (hd : zero < d) : d / d = one := by
  have hne : d.isZero = false := decide_eq_false (Nat.ne_of_gt (magnitude_pos hd))
  have hunits : 0 < binary32.units d.magnitude :=
    units_pos (magnitude_pos hd) (Nat.le_of_lt (of_decide_eq_true hfinite))
  have hquotient : binary32.div d.magnitude d.magnitude = 0x3f800000 := by
    rw [FloatFormat.div, Nat.shiftLeft_eq, Nat.mul_comm, nearest_mul _ hunits]
    decide +kernel
  change Binary32.div d d = one
  simp only [Binary32.div, isNaN_of_isFinite hfinite, isInfinite_of_isFinite hfinite, hne,
    negative_of_pos hd, hquotient, Bool.false_eq_true, ↓reduceIte]
  decide

theorem key_div (hx : x.isFinite = true) (hfinite : d.isFinite = true) (hd : zero < d) :
    (x / d).key =
      oddExtension (fun n => binary32.nearest (n <<< binary32.unitExponent)
        (binary32.units d.magnitude)) x.units := by
  have hne : d.isZero = false := decide_eq_false (Nat.ne_of_gt (magnitude_pos hd))
  have hsign : (x.negative != d.negative) = x.negative := by
    rw [negative_of_pos hd, Bool.bne_false]
  rw [units, oddExtension_signed (by rw [Nat.zero_shiftLeft, nearest_zero])]
  change (Binary32.div x d).key = _
  simp only [Binary32.div, isNaN_of_isFinite hx, isNaN_of_isFinite hfinite,
    isInfinite_of_isFinite hx, isInfinite_of_isFinite hfinite, hne, hsign, Bool.false_eq_true,
    ↓reduceIte]
  exact key_ofMagnitude _ (nearest_lt ..)

theorem key_div_of_infinite (hx : x.isInfinite = true) (hfinite : d.isFinite = true)
    (hd : zero < d) : (x / d).key = x.key := by
  have hsign : (x.negative != d.negative) = x.negative := by
    rw [negative_of_pos hd, Bool.bne_false]
  rw [key_of_isInfinite hx]
  change (Binary32.div x d).key = _
  simp only [Binary32.div, isNaN_of_isInfinite hx, isNaN_of_isFinite hfinite, hx,
    isInfinite_of_isFinite hfinite, hsign, Bool.false_eq_true, ↓reduceIte]
  exact key_ofMagnitude _ infinity_lt

theorem isNaN_div (hx : x.isNaN = false) (hfinite : d.isFinite = true) (hd : zero < d) :
    (x / d).isNaN = false := by
  rw [isNaN_eq_false_iff]
  cases hinfinite : x.isInfinite with
  | true =>
    rw [key_div_of_infinite hinfinite hfinite hd]
    exact isNaN_eq_false_iff.1 hx
  | false =>
    rw [key_div (isFinite_of_not_infinite hx hinfinite) hfinite hd, natAbs_oddExtension]
    exact nearest_le_infinity ..

/-- Division by a positive finite number keeps order, also up to the infinities. -/
theorem div_le_div (hfinite : d.isFinite = true) (hd : zero < d) (h : x ≤ y) : x / d ≤ y / d := by
  obtain ⟨hx, hy, hkey⟩ := le_iff.1 h
  have hxd := isNaN_div hx hfinite hd
  have hyd := isNaN_div hy hfinite hd
  rw [isNaN_eq_false_iff] at hx hy
  by_cases htop : y.key = binary32.infinity
  · apply le_of_key_eq hxd
    rw [key_div_of_infinite (isInfinite_iff.2 (by omega)) hfinite hd, htop]
  by_cases hbottom : x.key = -(binary32.infinity : Int)
  · apply le_of_key_eq_neg _ hyd
    rw [key_div_of_infinite (isInfinite_iff.2 (by omega)) hfinite hd, hbottom]
  rw [le_iff, key_div (isFinite_iff.2 (by omega)) hfinite hd,
    key_div (isFinite_iff.2 (by omega)) hfinite hd]
  refine ⟨hxd, hyd, oddExtension_mono (fun hle => nearest_mono ?_ _) (units_le_units hkey)⟩
  rw [Nat.shiftLeft_eq, Nat.shiftLeft_eq]
  exact Nat.mul_le_mul_right _ hle

theorem key_div_infinite (hx : x.isFinite = true) (hd : d.isInfinite = true) :
    (x / d).key = 0 := by
  change (Binary32.div x d).key = 0
  simp only [Binary32.div, isNaN_of_isFinite hx, isNaN_of_isInfinite hd,
    isInfinite_of_isFinite hx, hd, Bool.false_eq_true, ↓reduceIte]
  rw [key_ofMagnitude _ (by decide)]
  cases x.negative != d.negative <;> rfl

theorem isNaN_div_infinite (hx : x.isInfinite = true) (hd : d.isInfinite = true) :
    (x / d).isNaN = true := by
  change (Binary32.div x d).isNaN = true
  simp only [Binary32.div, isNaN_of_isInfinite hx, isNaN_of_isInfinite hd, hx, hd,
    Bool.false_eq_true, ↓reduceIte]
  decide

end

end Relevance.Binary32
