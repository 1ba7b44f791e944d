import Relevance.Proofs.NumberOrder

namespace Relevance

theorem oddExtension_neg {g : Nat → Nat} (hg : g 0 = 0) (s : Int) :
    oddExtension g (-s) = -oddExtension g s := by
  rw [oddExtension, oddExtension, Int.natAbs_neg]
  rcases Int.lt_trichotomy s 0 with hneg | rfl | hpos
  · rw [if_neg (by omega), if_pos hneg, Int.neg_neg]
  · simp [hg]
  · rw [if_pos (by omega), if_neg (by omega)]

namespace Binary32

open FloatFormat

theorem key_neg (x : Binary32) : (-x).key = -x.key := by
  have hmagnitude : x.magnitude < 0x80000000 := Nat.mod_lt _ (by decide)
  change (ofMagnitude (!x.negative) x.magnitude).key = _
  rw [key_ofMagnitude _ hmagnitude, key]
  cases x.negative with
  | false => rfl
  | true => exact (Int.neg_neg _).symm

theorem isNaN_neg (x : Binary32) : (-x).isNaN = x.isNaN := by
  rw [Bool.eq_iff_iff, isNaN_iff, isNaN_iff, key_neg, Int.natAbs_neg]

theorem units_neg (x : Binary32) : (-x).units = -x.units := by
  rw [units_eq_key, units_eq_key, key_neg, oddExtension_neg rfl]

theorem sub_eq_add_neg {x y : Binary32} (hx : x.isNaN = false) (hy : y.isNaN = false) :
    x - y = x + -y := by
  change Binary32.sub x y = _
  rw [Binary32.sub, if_neg (ne_true_of_eq_false hx), if_neg (ne_true_of_eq_false hy)]
  rfl

theorem key_eq_nearest {x : Binary32} (h : x.isFinite = true) :
    x.key = oddExtension (fun n => binary32.nearest n 1) x.units := by
  have hmagnitude : x.magnitude ≤ binary32.infinity := Nat.le_of_lt (of_decide_eq_true h)
  rw [units, oddExtension_signed (nearest_zero binary32 1), nearest_units hmagnitude, key]

/-- A smaller number can be taken from a larger one, and the difference is not negative. -/
theorem sub_nonneg {x y : Binary32} (h : y < x) : zero ≤ x - y := by
  obtain ⟨hy, hx, hkey⟩ := lt_iff.1 h
  have hneg : (-y).isNaN = false := (isNaN_neg y).trans hy
  have hnumber : (x + -y).isNaN = false := by
    rw [← Bool.not_eq_true, isNaN_add_iff hx hneg, key_neg]
    omega
  rw [sub_eq_add_neg hx hy, zero_le_iff]
  apply And.intro hnumber
  cases hinfinite : x.isInfinite with
  | true =>
    have htop := isInfinite_iff.1 hinfinite
    rw [isNaN_eq_false_iff] at hy
    rw [key_add_left hinfinite hnumber]
    omega
  | false =>
    cases hinfinite' : (-y).isInfinite with
    | true =>
      have hbottom := isInfinite_iff.1 hinfinite'
      rw [isNaN_eq_false_iff] at hx
      rw [key_neg] at hbottom
      rw [key_add_right hinfinite' hnumber, key_neg]
      omega
    | false =>
      have hunits : y.units ≤ x.units := units_le_units (Int.le_of_lt hkey)
      rw [key_add (isFinite_of_not_infinite hx hinfinite)
        (isFinite_of_not_infinite hneg hinfinite'), units_neg]
      apply oddExtension_nonneg
      omega

theorem le_add_of_nonneg {x y : Binary32} (hx : x.isNaN = false) (hy : zero ≤ y)
    (h : (x + y).isNaN = false) : x ≤ x + y := by
  apply le_iff.2 ⟨hx, h, _⟩
  cases hinfinite : x.isInfinite with
  | true => exact Int.le_of_eq (key_add_left hinfinite h).symm
  | false =>
    have hfinite := isFinite_of_not_infinite hx hinfinite
    rcases isFinite_or_infinite hy with hfinite' | ⟨hinfinite', _⟩
    · rw [key_add hfinite hfinite', key_eq_nearest hfinite]
      apply oddExtension_mono (fun hle => nearest_mono hle 1)
      exact Int.le_add_of_nonneg_right (units_nonneg hy)
    · have htop := isInfinite_iff.1 hinfinite'
      have hpos := (zero_le_iff.1 hy).2
      rw [isNaN_eq_false_iff] at hx
      rw [key_add_right hinfinite' h]
      omega

theorem isNaN_add_of_le {x x' y : Binary32} (hx : x ≤ x') (hy : zero ≤ y)
    (h : (x + y).isNaN = false) : (x' + y).isNaN = false := by
  obtain ⟨hxn, hxn', hkey⟩ := le_iff.1 hx
  obtain ⟨hyn, hpos⟩ := zero_le_iff.1 hy
  rw [← Bool.not_eq_true, isNaN_add_iff hxn hyn, isInfinite_iff] at h
  rw [← Bool.not_eq_true, isNaN_add_iff hxn' hyn, isInfinite_iff]
  have hinfinity := infinity_pos
  rw [isNaN_eq_false_iff] at hxn
  omega

theorem key_of_isNaN_add {x y : Binary32} (hx : x.isNaN = false) (hy : zero ≤ y)
    (h : (x + y).isNaN = true) : x.key = -(binary32.infinity : Int) := by
  obtain ⟨hyn, hpos⟩ := zero_le_iff.1 hy
  obtain ⟨hinfinite, hkey⟩ := (isNaN_add_iff hx hyn).1 h
  rw [isInfinite_iff] at hinfinite
  omega

end Binary32

end Relevance
