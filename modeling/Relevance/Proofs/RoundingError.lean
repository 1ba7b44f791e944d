import Mathlib.Algebra.Group.Int.Defs
import Relevance.Proofs.NumberQuotient

namespace Relevance

namespace FloatFormat

theorem roundQuotient_mul_add_le {n m d : Nat} (hd : 0 < d) (h : m * d ≤ n) :
    roundQuotient n d * d + m * d ≤ 2 * n := by
  rcases roundQuotient_cases n d with ⟨_, hdown, _⟩ | ⟨_, hup, hhalf⟩
  · omega
  · have hn : n / d * d + n % d = n := Nat.div_add_mod' n d
    have hm : m * d ≤ n / d * d := Nat.mul_le_mul_right d ((Nat.le_div_iff_mul_le hd).2 h)
    omega

theorem le_roundQuotient_mul_add {n m d : Nat} (hd : 0 < d) (h : n ≤ m * d) :
    2 * n ≤ roundQuotient n d * d + m * d := by
  rcases roundQuotient_cases n d with ⟨hdown, hproduct, hhalf⟩ | ⟨_, hup, _⟩
  · rw [hdown] at hproduct ⊢
    rcases Nat.lt_or_ge (n / d) m with hm | hm
    · have hmultiple : (n / d + 1) * d ≤ m * d := Nat.mul_le_mul_right d hm
      rw [Nat.succ_mul] at hmultiple
      omega
    · -- Only a multiple has no other between itself and a multiple above it.
      have hmultiple : m * d ≤ n / d * d := Nat.mul_le_mul_right d hm
      omega
  · have hlt : n % d < d := Nat.mod_lt n hd
    omega

theorem two_roundQuotient_mul_le (n d : Nat) : 2 * (roundQuotient n d * d) ≤ 2 * n + d := by
  rcases roundQuotient_cases n d with ⟨_, hdown, _⟩ | ⟨_, hup, hhalf⟩
  · omega
  · omega

variable {f : FloatFormat}

theorem units_shift_add {shift significand : Nat}
    (hlow : 0 < shift → 2 ^ f.fractionBits ≤ significand)
    (hhigh : significand ≤ 2 * 2 ^ f.fractionBits) :
    f.units (shift * 2 ^ f.fractionBits + significand) = significand * 2 ^ shift := by
  have hpos : 0 < 2 ^ f.fractionBits := Nat.two_pow_pos _
  rw [units_eq]
  rcases Nat.lt_or_ge significand (2 ^ f.fractionBits) with hsmall | hfull
  · obtain rfl : shift = 0 := by
      apply Nat.eq_zero_of_not_pos
      intro hshift
      exact Nat.not_le_of_lt hsmall (hlow hshift)
    rw [Nat.zero_mul, Nat.zero_add, Nat.div_eq_of_lt hsmall, if_pos rfl, Nat.mod_eq_of_lt hsmall,
      Nat.pow_zero, Nat.mul_one]
  · obtain ⟨fraction, rfl⟩ := Nat.exists_eq_add_of_le hfull
    have hmagnitude : shift * 2 ^ f.fractionBits + (2 ^ f.fractionBits + fraction) =
        fraction + (shift + 1) * 2 ^ f.fractionBits := by
      have hnext : (shift + 1) * 2 ^ f.fractionBits =
          shift * 2 ^ f.fractionBits + 2 ^ f.fractionBits := Nat.succ_mul ..
      omega
    have hfield : fraction / 2 ^ f.fractionBits + (shift + 1) ≠ 0 := Nat.succ_ne_zero _
    rw [hmagnitude, Nat.add_mul_div_right _ _ hpos, Nat.add_mul_mod_self_right, if_neg hfield]
    rcases Nat.eq_or_lt_of_le hhigh with hcarry | hlt
    · obtain rfl : fraction = 2 ^ f.fractionBits := by omega
      rw [Nat.div_self hpos, Nat.mod_self, Nat.add_zero, Nat.add_sub_cancel_left, Nat.pow_succ',
        ← Nat.two_mul, ← Nat.mul_assoc, Nat.mul_comm (2 ^ f.fractionBits)]
    · have hfraction : fraction < 2 ^ f.fractionBits := by omega
      rw [Nat.div_eq_of_lt hfraction, Nat.mod_eq_of_lt hfraction, Nat.zero_add, Nat.succ_sub_one]

theorem units_rounded (f : FloatFormat) (n : Nat) :
    f.units (f.excess n * 2 ^ f.fractionBits + roundQuotient n (2 ^ f.excess n)) =
      roundQuotient n (2 ^ f.excess n) * 2 ^ f.excess n := by
  have hlow : 0 < f.excess n → 2 ^ f.fractionBits ≤ roundQuotient n (2 ^ f.excess n) := by
    intro hexcess
    have hle := le_significand (f := f) (n := n) (d := 1) (by rwa [Nat.div_one])
    rwa [Nat.div_one, Nat.one_mul] at hle
  have hhigh := significand_le (f := f) n 1
  rw [Nat.div_one, Nat.one_mul] at hhigh
  exact units_shift_add hlow hhigh

theorem units_nearest_le (f : FloatFormat) (n : Nat) :
    f.units (f.nearest n 1) ≤ roundQuotient n (2 ^ f.excess n) * 2 ^ f.excess n := by
  rw [nearest_eq, Nat.div_one, Nat.one_mul, ← units_rounded]
  exact units_mono (Nat.min_le_right ..)

theorem units_nearest {n : Nat} (h : f.nearest n 1 < f.infinity) :
    f.units (f.nearest n 1) = roundQuotient n (2 ^ f.excess n) * 2 ^ f.excess n := by
  rw [nearest_eq, Nat.div_one, Nat.one_mul] at h ⊢
  rw [Nat.min_eq_right (by omega), units_rounded]

theorem exists_units_eq_mul {a : Nat} (h : a < f.infinity) :
    ∃ m, f.units a = m * 2 ^ f.excess (f.units a) := by
  have hround : f.nearest (f.units a) 1 = a := nearest_units (Nat.le_of_lt h)
  have hunits := units_nearest (f := f) (n := f.units a) (by rwa [hround])
  rw [hround] at hunits
  exact ⟨_, hunits⟩

/-- Between a finite value and a larger number lies a multiple of the last place of that number. -/
theorem exists_multiple_between {a n : Nat} (ha : a < f.infinity) (h : f.units a ≤ n) :
    ∃ m, f.units a ≤ m * 2 ^ f.excess n ∧ m * 2 ^ f.excess n ≤ n := by
  rcases Nat.eq_zero_or_pos (f.excess n) with hzero | hexcess
  · rw [hzero, Nat.pow_zero]
    exact ⟨n, by omega, by omega⟩
  · rcases Nat.lt_or_ge (f.excess (f.units a)) (f.excess n) with hlt | hge
    · -- The smallest number with as many bits is such a multiple, and longer than the value.
      refine ⟨2 ^ f.fractionBits, ?_, two_pow_excess_le hexcess⟩
      apply Nat.le_trans (Nat.le_of_lt (f.lt_two_pow_excess (f.units a)))
      rw [Nat.mul_comm 2, Nat.mul_assoc, ← Nat.pow_succ']
      exact Nat.mul_le_mul_left _ (Nat.pow_le_pow_right Nat.two_pos hlt)
    · have hsame : f.excess (f.units a) = f.excess n := Nat.le_antisymm (excess_mono h) hge
      obtain ⟨m, hm⟩ := exists_units_eq_mul ha
      rw [hsame] at hm
      exact ⟨m, Nat.le_of_eq hm, by rwa [← hm]⟩

theorem units_nearest_add_le {a n : Nat} (ha : a < f.infinity) (h : f.units a ≤ n) :
    f.units (f.nearest n 1) + f.units a ≤ 2 * n := by
  obtain ⟨m, hlow, hhigh⟩ := exists_multiple_between ha h
  calc
    f.units (f.nearest n 1) + f.units a ≤
        roundQuotient n (2 ^ f.excess n) * 2 ^ f.excess n + m * 2 ^ f.excess n :=
      Nat.add_le_add (units_nearest_le f n) hlow
    _ ≤ 2 * n := roundQuotient_mul_add_le (Nat.two_pow_pos _) hhigh

theorem le_units_nearest_add {a n : Nat} (ha : a < f.infinity) (h : n ≤ f.units a) :
    2 * n ≤ f.units (f.nearest n 1) + f.units a := by
  have hfinite : f.nearest n 1 < f.infinity := by
    have hle := nearest_mono (f := f) h 1
    rw [nearest_units (Nat.le_of_lt ha)] at hle
    exact Nat.lt_of_le_of_lt hle ha
  obtain ⟨m, hm⟩ := exists_units_eq_mul ha
  obtain ⟨k, hk⟩ := Nat.exists_eq_add_of_le (excess_mono (f := f) h)
  have hmultiple : f.units a = m * 2 ^ k * 2 ^ f.excess n := by
    rw [hm, hk, Nat.pow_add, Nat.mul_comm (2 ^ f.excess n), Nat.mul_assoc]
  rw [units_nearest hfinite, hmultiple]
  rw [hmultiple] at h
  exact le_roundQuotient_mul_add (Nat.two_pow_pos _) h

/-- A number is rounded up by no more than one part in as many as a significand can count. -/
theorem units_nearest_mul_le (f : FloatFormat) (n : Nat) :
    2 * 2 ^ f.fractionBits * f.units (f.nearest n 1) ≤ (2 * 2 ^ f.fractionBits + 1) * n := by
  have hround : 2 ^ f.fractionBits * (2 * (roundQuotient n (2 ^ f.excess n) * 2 ^ f.excess n)) ≤
      2 ^ f.fractionBits * (2 * n) + n := by
    rcases Nat.eq_zero_or_pos (f.excess n) with hzero | hexcess
    · have hexact := roundQuotient_mul n Nat.one_pos
      rw [Nat.mul_one] at hexact
      rw [hzero, Nat.pow_zero, hexact, Nat.mul_one]
      exact Nat.le_add_right ..
    · calc
        2 ^ f.fractionBits * (2 * (roundQuotient n (2 ^ f.excess n) * 2 ^ f.excess n)) ≤
            2 ^ f.fractionBits * (2 * n + 2 ^ f.excess n) :=
          Nat.mul_le_mul_left _ (two_roundQuotient_mul_le ..)
        _ = 2 ^ f.fractionBits * (2 * n) + 2 ^ f.fractionBits * 2 ^ f.excess n := Nat.mul_add ..
        _ ≤ 2 ^ f.fractionBits * (2 * n) + n := Nat.add_le_add_left (two_pow_excess_le hexcess) _
  calc
    2 * 2 ^ f.fractionBits * f.units (f.nearest n 1) =
        2 ^ f.fractionBits * (2 * f.units (f.nearest n 1)) := by
      rw [Nat.mul_comm 2, Nat.mul_assoc]
    _ ≤ 2 ^ f.fractionBits * (2 * (roundQuotient n (2 ^ f.excess n) * 2 ^ f.excess n)) :=
      Nat.mul_le_mul_left _ (Nat.mul_le_mul_left _ (f.units_nearest_le n))
    _ ≤ 2 ^ f.fractionBits * (2 * n) + n := hround
    _ = (2 * 2 ^ f.fractionBits + 1) * n := by
      rw [Nat.add_mul, Nat.one_mul, Nat.mul_comm 2 (2 ^ f.fractionBits), Nat.mul_assoc]

end FloatFormat

namespace Binary32

open FloatFormat

theorem natAbs_units (x : Binary32) : x.units.natAbs = binary32.units x.magnitude := by
  rw [units_eq_key, natAbs_oddExtension, natAbs_key]

/-- The value that an exact sum is rounded to, both in units. -/
def rounded (s : Int) : Int := oddExtension (fun n => binary32.units (binary32.nearest n 1)) s

theorem units_eq_rounded {x : Binary32} {s : Int}
    (h : x.key = oddExtension (fun n => binary32.nearest n 1) s) : x.units = rounded s := by
  have hsigned := oddExtension_signed (g := binary32.units) rfl (s < 0)
    (binary32.nearest s.natAbs 1)
  simp only [decide_eq_true_eq] at hsigned
  rw [units_eq_key, h]
  exact hsigned

theorem units_add {x y : Binary32} (hx : x.isFinite = true) (hy : y.isFinite = true) :
    (x + y).units = rounded (x.units + y.units) :=
  units_eq_rounded (key_add hx hy)

theorem units_sub {x y : Binary32} (hx : x.isFinite = true) (hy : y.isFinite = true) :
    (x - y).units = rounded (x.units - y.units) :=
  units_eq_rounded (key_sub hx hy)

theorem rounded_add_units_le {x : Binary32} {s : Int} (hx : x.isFinite = true) (h : x.units ≤ s) :
    rounded s + x.units ≤ 2 * s := by
  have hmagnitude : x.magnitude < binary32.infinity := of_decide_eq_true hx
  have habs := natAbs_units x
  rw [rounded, oddExtension]
  split
  · have hle : s.natAbs ≤ binary32.units x.magnitude := by omega
    have hlost := le_units_nearest_add hmagnitude hle
    omega
  · by_cases hneg : x.units < 0
    · -- Already zero is a finite number between the two.
      have hadded := units_nearest_add_le (n := s.natAbs) infinity_pos (Nat.zero_le _)
      omega
    · have hle : binary32.units x.magnitude ≤ s.natAbs := by omega
      have hadded := units_nearest_add_le hmagnitude hle
      omega

/-- What is rounded up adds no more than one part in `2 ^ 24`. -/
theorem rounded_sub_le {s : Int} (h : 0 ≤ s) : 2 ^ 24 * (rounded s - s) ≤ s := by
  have hle : 2 * 2 ^ 23 * binary32.units (binary32.nearest s.natAbs 1) ≤
      (2 * 2 ^ 23 + 1) * s.natAbs := binary32.units_nearest_mul_le s.natAbs
  rw [rounded, oddExtension, if_neg (Int.not_lt.2 h)]
  omega

end Binary32

end Relevance
