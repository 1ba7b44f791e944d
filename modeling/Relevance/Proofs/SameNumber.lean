import Relevance.Objective

namespace Relevance

namespace Binary32

open FloatFormat

/-- The same number, all NaNs counting as one. -/
def Same (x y : Binary32) : Prop := x = y ∨ x.isNaN = true ∧ y.isNaN = true

theorem Same.refl (x : Binary32) : x.Same x := .inl rfl

theorem Same.symm {x y : Binary32} (h : x.Same y) : y.Same x := h.imp Eq.symm And.symm

theorem Same.trans {x y z : Binary32} (hxy : x.Same y) (hyz : y.Same z) : x.Same z := by
  rcases hxy with rfl | ⟨hx, hy⟩
  · exact hyz
  · rcases hyz with rfl | ⟨_, hz⟩
    · exact .inr ⟨hx, hy⟩
    · exact .inr ⟨hx, hz⟩

theorem isNaN_quiet {x : Binary32} (h : x.isNaN = true) : x.quiet.isNaN = true := by
  apply decide_eq_true
  calc
    binary32.infinity < x.magnitude := of_decide_eq_true h
    _ ≤ x.bits.toNat % 2 ^ 31 ||| 0x00400000 % 2 ^ 31 := Nat.left_le_or
    _ = (x.bits.toNat ||| 0x00400000) % 2 ^ 31 := Nat.or_mod_two_pow.symm
    _ = x.quiet.magnitude := by
      rw [magnitude, quiet, UInt32.toNat_or]
      rfl

theorem isNaN_add_left {x : Binary32} (h : x.isNaN = true) (y : Binary32) :
    (x + y).isNaN = true := by
  change (Binary32.add x y).isNaN = true
  rw [Binary32.add, if_pos h]
  exact isNaN_quiet h

theorem isNaN_add_right (x : Binary32) {y : Binary32} (h : y.isNaN = true) :
    (x + y).isNaN = true := by
  cases hx : x.isNaN with
  | true => exact isNaN_add_left hx y
  | false =>
    change (Binary32.add x y).isNaN = true
    rw [Binary32.add, if_neg (by simp [hx]), if_pos h]
    exact isNaN_quiet h

theorem Same.add {x x' y y' : Binary32} (hx : x.Same x') (hy : y.Same y') :
    (x + y).Same (x' + y') := by
  rcases hx with rfl | ⟨hx, hx'⟩
  · rcases hy with rfl | ⟨hy, hy'⟩
    · exact .refl _
    · exact .inr ⟨isNaN_add_right x hy, isNaN_add_right x hy'⟩
  · exact .inr ⟨isNaN_add_left hx y, isNaN_add_left hx' y'⟩

theorem isNaN_mul_left {x : Binary32} (h : x.isNaN = true) (y : Binary32) :
    (x * y).isNaN = true := by
  change (Binary32.mul x y).isNaN = true
  rw [Binary32.mul, if_pos h]
  exact isNaN_quiet h

theorem isNaN_mul_right (x : Binary32) {y : Binary32} (h : y.isNaN = true) :
    (x * y).isNaN = true := by
  cases hx : x.isNaN with
  | true => exact isNaN_mul_left hx y
  | false =>
    change (Binary32.mul x y).isNaN = true
    rw [Binary32.mul, if_neg (by simp [hx]), if_pos h]
    exact isNaN_quiet h

/-- Multiplication commutes but for the NaN it returns. -/
theorem Same.mul_comm (x y : Binary32) : (x * y).Same (y * x) := by
  cases hx : x.isNaN with
  | true => exact .inr ⟨isNaN_mul_left hx y, isNaN_mul_right y hx⟩
  | false =>
    cases hy : y.isNaN with
    | true => exact .inr ⟨isNaN_mul_right x hy, isNaN_mul_left hy x⟩
    | false =>
      left
      change Binary32.mul x y = Binary32.mul y x
      simp only [Binary32.mul, hx, hy, Bool.false_eq_true, ↓reduceIte, FloatFormat.mul]
      rw [Bool.or_comm x.isInfinite, Bool.or_comm x.isZero,
        Nat.mul_comm (binary32.units x.magnitude), bne_comm]

end Binary32

theorem Objective.transform_same (objective : Objective) {x y : Binary32} (h : x.Same y) :
    (objective.transform x).Same (objective.transform y) := by
  rcases h with rfl | ⟨hx, hy⟩
  · exact .refl _
  · cases objective with
    | identity => exact .inr ⟨hx, hy⟩
    | logistic =>
      right
      simp only [transform, Binary32.logistic, hx, hy, ↓reduceIte]
      exact ⟨Binary32.isNaN_quiet hx, Binary32.isNaN_quiet hy⟩

end Relevance
