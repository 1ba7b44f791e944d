import Mathlib.Algebra.Group.Nat.Defs
import Relevance.FloatFormat

namespace Relevance.FloatFormat

theorem roundQuotient_cases (n d : Nat) :
    roundQuotient n d = n / d ∧ roundQuotient n d * d + n % d = n ∧ 2 * (n % d) ≤ d ∨
      roundQuotient n d = n / d + 1 ∧ roundQuotient n d * d + n % d = n + d ∧
        d ≤ 2 * (n % d) := by
  have hn : n / d * d + n % d = n := Nat.div_add_mod' n d
  have hnext : (n / d + 1) * d + n % d = n + d := by
    rw [Nat.succ_mul, Nat.add_right_comm, hn]
  have hcases : roundQuotient n d = n / d ∧ 2 * (n % d) ≤ d ∨
      roundQuotient n d = n / d + 1 ∧ d ≤ 2 * (n % d) := by
    simp only [roundQuotient]
    split
    · omega
    · split
      · omega
      · rcases Nat.mod_two_eq_zero_or_one (n / d) with heven | hodd <;> omega
  rcases hcases with ⟨hdown, hhalf⟩ | ⟨hup, hhalf⟩
  · exact .inl ⟨hdown, hdown.symm ▸ hn, hhalf⟩
  · exact .inr ⟨hup, hup.symm ▸ hnext, hhalf⟩

theorem div_le_roundQuotient (n d : Nat) : n / d ≤ roundQuotient n d := by
  rcases roundQuotient_cases n d with ⟨hdown, _⟩ | ⟨hup, _⟩
  · exact Nat.le_of_eq hdown.symm
  · exact Nat.le_of_lt (Nat.lt_of_succ_le (Nat.le_of_eq hup.symm))

theorem roundQuotient_le (n d : Nat) : roundQuotient n d ≤ n / d + 1 := by
  rcases roundQuotient_cases n d with ⟨hdown, _⟩ | ⟨hup, _⟩
  · exact Nat.le_succ_of_le (Nat.le_of_eq hdown)
  · exact Nat.le_of_eq hup

theorem roundQuotient_mono {n m : Nat} (h : n ≤ m) (d : Nat) :
    roundQuotient n d ≤ roundQuotient m d := by
  have hquotient : n / d ≤ m / d := Nat.div_le_div_right h
  rcases Nat.lt_or_ge (2 * (n % d)) d with hlow | hlow
  · calc
      roundQuotient n d = n / d := if_pos hlow
      _ ≤ m / d := hquotient
      _ ≤ roundQuotient m d := div_le_roundQuotient m d
  · rcases Nat.eq_or_lt_of_le hquotient with heq | hlt
    · have hn := Nat.div_add_mod n d
      have hm := Nat.div_add_mod m d
      rw [heq] at hn
      rcases Nat.lt_or_ge d (2 * (m % d)) with hhigh | hhigh
      · calc
          roundQuotient n d ≤ n / d + 1 := roundQuotient_le n d
          _ = m / d + 1 := by rw [heq]
          _ = roundQuotient m d := by
            simp only [roundQuotient]
            rw [if_neg (Nat.lt_asymm hhigh), if_pos hhigh]
      · -- Both are the one half between the same two integers.
        obtain rfl : n = m := by omega
        exact Nat.le_refl _
    · calc
        roundQuotient n d ≤ n / d + 1 := roundQuotient_le n d
        _ ≤ m / d := hlt
        _ ≤ roundQuotient m d := div_le_roundQuotient m d

variable {f : FloatFormat}

/-- By how many bits a quotient is too long for a significand. -/
def excess (f : FloatFormat) (quotient : Nat) : Nat := quotient.log2 - f.fractionBits

theorem excess_mono {q r : Nat} (h : q ≤ r) : f.excess q ≤ f.excess r := by
  apply Nat.sub_le_sub_right
  rcases Nat.eq_zero_or_pos q with rfl | hq
  · exact Nat.zero_le _
  · rw [Nat.le_log2 (by omega)]
    exact Nat.le_trans (Nat.log2_self_le (by omega)) h

theorem excess_of_lt {quotient : Nat} (h : quotient < 2 ^ f.fractionBits) :
    f.excess quotient = 0 := by
  rcases Nat.eq_zero_or_pos quotient with rfl | hpos
  · rw [excess, Nat.log2_zero, Nat.zero_sub]
  · have hlog : quotient.log2 < f.fractionBits := (Nat.log2_lt (Nat.ne_of_gt hpos)).2 h
    exact Nat.sub_eq_zero_of_le (Nat.le_of_lt hlog)

theorem nearest_eq (f : FloatFormat) (n d : Nat) :
    f.nearest n d = min f.infinity (f.excess (n / d) * 2 ^ f.fractionBits +
      roundQuotient n (d * 2 ^ f.excess (n / d))) := by
  simp only [nearest, excess, Nat.shiftLeft_eq]

theorem lt_two_pow_excess (f : FloatFormat) (quotient : Nat) :
    quotient < 2 * 2 ^ f.fractionBits * 2 ^ f.excess quotient := by
  rw [← Nat.pow_succ', ← Nat.pow_add]
  apply Nat.lt_of_lt_of_le Nat.lt_log2_self
  exact Nat.pow_le_pow_right Nat.two_pos (by rw [excess]; omega)

theorem two_pow_excess_le {quotient : Nat} (h : 0 < f.excess quotient) :
    2 ^ f.fractionBits * 2 ^ f.excess quotient ≤ quotient := by
  have hlog : f.fractionBits + f.excess quotient = quotient.log2 := by
    rw [excess] at h ⊢
    omega
  have hne : quotient ≠ 0 := by
    rintro rfl
    rw [excess, Nat.log2_zero, Nat.zero_sub] at h
    exact Nat.lt_irrefl 0 h
  rw [← Nat.pow_add, hlog]
  exact Nat.log2_self_le hne

/-- A significand has one bit before its fraction; rounding may carry into the next one. -/
theorem significand_le (n d : Nat) :
    roundQuotient n (d * 2 ^ f.excess (n / d)) ≤ 2 * 2 ^ f.fractionBits := by
  have hlt := Nat.div_lt_of_lt_mul (Nat.mul_comm .. ▸ f.lt_two_pow_excess (n / d))
  rw [Nat.div_div_eq_div_mul] at hlt
  exact Nat.le_trans (roundQuotient_le ..) hlt

theorem le_significand {n d : Nat} (h : 0 < f.excess (n / d)) :
    2 ^ f.fractionBits ≤ roundQuotient n (d * 2 ^ f.excess (n / d)) := by
  apply Nat.le_trans _ (div_le_roundQuotient ..)
  rw [← Nat.div_div_eq_div_mul, Nat.le_div_iff_mul_le (Nat.two_pow_pos _)]
  exact two_pow_excess_le h

/-- Rounding keeps order, also where the larger quotient has a larger exponent. -/
theorem nearest_mono {n m : Nat} (h : n ≤ m) (d : Nat) : f.nearest n d ≤ f.nearest m d := by
  have hquotient : n / d ≤ m / d := Nat.div_le_div_right h
  rw [nearest_eq, nearest_eq]
  apply Nat.le_min_of_le_of_le (Nat.min_le_left ..)
  apply Nat.le_trans (Nat.min_le_right ..)
  rcases Nat.eq_or_lt_of_le (excess_mono (f := f) hquotient) with heq | hlt
  · rw [heq]
    exact Nat.add_le_add_left (roundQuotient_mono h _) _
  · calc
      f.excess (n / d) * 2 ^ f.fractionBits + roundQuotient n (d * 2 ^ f.excess (n / d)) ≤
          f.excess (n / d) * 2 ^ f.fractionBits + 2 * 2 ^ f.fractionBits :=
        Nat.add_le_add_left (significand_le n d) _
      _ = (f.excess (n / d) + 1) * 2 ^ f.fractionBits + 2 ^ f.fractionBits := by
        rw [Nat.add_mul]
        omega
      _ ≤ f.excess (m / d) * 2 ^ f.fractionBits + roundQuotient m (d * 2 ^ f.excess (m / d)) :=
        Nat.add_le_add (Nat.mul_le_mul_right _ hlt) (le_significand (Nat.zero_lt_of_lt hlt))

theorem nearest_zero (f : FloatFormat) (d : Nat) : f.nearest 0 d = 0 := by
  have hexcess : f.excess 0 = 0 := excess_of_lt (Nat.two_pow_pos _)
  rw [nearest_eq, Nat.zero_div, hexcess, Nat.zero_mul, Nat.zero_add]
  simp only [roundQuotient, Nat.zero_div, Nat.zero_mod, Nat.mul_zero, Nat.add_zero, ite_self,
    Nat.not_lt_zero, ↓reduceIte, Nat.min_zero]

theorem nearest_le_infinity (f : FloatFormat) (n d : Nat) : f.nearest n d ≤ f.infinity :=
  Nat.min_le_left ..

theorem units_eq (f : FloatFormat) (a : Nat) :
    f.units a =
      if a / 2 ^ f.fractionBits = 0 then a % 2 ^ f.fractionBits
      else (2 ^ f.fractionBits + a % 2 ^ f.fractionBits) * 2 ^ (a / 2 ^ f.fractionBits - 1) := by
  simp only [units, Nat.shiftRight_eq_div_pow, Nat.shiftLeft_eq, Nat.one_mul]

theorem units_lt (f : FloatFormat) (a : Nat) :
    f.units a < 2 ^ f.fractionBits * 2 ^ (a / 2 ^ f.fractionBits) := by
  have hfraction : a % 2 ^ f.fractionBits < 2 ^ f.fractionBits :=
    Nat.mod_lt a (Nat.two_pow_pos _)
  rw [units_eq]
  split
  · rename_i hfield
    rwa [hfield, Nat.pow_zero, Nat.mul_one]
  · rename_i hfield
    obtain ⟨k, hk⟩ := Nat.exists_eq_succ_of_ne_zero hfield
    rw [hk, Nat.succ_sub_one, Nat.pow_succ, Nat.mul_comm (2 ^ k), ← Nat.mul_assoc]
    exact Nat.mul_lt_mul_of_pos_right (by omega) (Nat.two_pow_pos k)

theorem units_mono {a b : Nat} (h : a ≤ b) : f.units a ≤ f.units b := by
  have hfield : a / 2 ^ f.fractionBits ≤ b / 2 ^ f.fractionBits := Nat.div_le_div_right h
  rcases Nat.eq_or_lt_of_le hfield with heq | hlt
  · have hfraction : a % 2 ^ f.fractionBits ≤ b % 2 ^ f.fractionBits := by
      have ha := Nat.div_add_mod a (2 ^ f.fractionBits)
      have hb := Nat.div_add_mod b (2 ^ f.fractionBits)
      rw [heq] at ha
      omega
    rw [units_eq, units_eq, heq]
    split
    · exact hfraction
    · exact Nat.mul_le_mul_right _ (Nat.add_le_add_left hfraction _)
  · have hpower : a / 2 ^ f.fractionBits ≤ b / 2 ^ f.fractionBits - 1 := Nat.le_sub_one_of_lt hlt
    rw [units_eq f b, if_neg (Nat.ne_zero_of_lt hlt)]
    calc
      f.units a ≤ 2 ^ f.fractionBits * 2 ^ (a / 2 ^ f.fractionBits) :=
        Nat.le_of_lt (f.units_lt a)
      _ ≤ 2 ^ f.fractionBits * 2 ^ (b / 2 ^ f.fractionBits - 1) :=
        Nat.mul_le_mul_left _ (Nat.pow_le_pow_right Nat.two_pos hpower)
      _ ≤ (2 ^ f.fractionBits + b % 2 ^ f.fractionBits) * 2 ^ (b / 2 ^ f.fractionBits - 1) :=
        Nat.mul_le_mul_right _ (Nat.le_add_right ..)

theorem roundQuotient_mul (n : Nat) {d : Nat} (h : 0 < d) : roundQuotient (n * d) d = n := by
  have hexact : 2 * (n * d % d) < d := by rwa [Nat.mul_mod_left]
  calc
    roundQuotient (n * d) d = n * d / d := if_pos hexact
    _ = n := Nat.mul_div_cancel n h

theorem excess_mul {significand : Nat} (shift : Nat) (hlow : 2 ^ f.fractionBits ≤ significand)
    (hhigh : significand < 2 * 2 ^ f.fractionBits) :
    f.excess (significand * 2 ^ shift) = shift := by
  have hpos : 0 < significand := Nat.lt_of_lt_of_le (Nat.two_pow_pos _) hlow
  have hlog : (significand * 2 ^ shift).log2 = f.fractionBits + shift := by
    rw [Nat.log2_eq_iff (Nat.ne_of_gt (Nat.mul_pos hpos (Nat.two_pow_pos _)))]
    constructor
    · rw [Nat.pow_add]
      exact Nat.mul_le_mul_right _ hlow
    · rw [Nat.add_right_comm, Nat.pow_add, Nat.pow_succ']
      exact Nat.mul_lt_mul_of_pos_right hhigh (Nat.two_pow_pos _)
  rw [excess, hlog, Nat.add_sub_cancel_left]

/-- The value of a magnitude is rounded to that magnitude. -/
theorem nearest_units {a : Nat} (h : a ≤ f.infinity) : f.nearest (f.units a) 1 = a := by
  have hfraction : a % 2 ^ f.fractionBits < 2 ^ f.fractionBits := Nat.mod_lt a (Nat.two_pow_pos _)
  have ha := Nat.div_add_mod a (2 ^ f.fractionBits)
  rw [nearest_eq, Nat.div_one, Nat.one_mul, units_eq]
  split
  · rename_i hfield
    have hround := roundQuotient_mul a Nat.one_pos
    rw [hfield, Nat.mul_zero, Nat.zero_add] at ha
    rw [Nat.mul_one] at hround
    rw [excess_of_lt hfraction, Nat.zero_mul, Nat.zero_add, Nat.pow_zero, ha, hround,
      Nat.min_eq_right h]
  · rename_i hfield
    obtain ⟨shift, hshift⟩ := Nat.exists_eq_succ_of_ne_zero hfield
    rw [hshift, Nat.mul_succ, Nat.mul_comm, Nat.add_assoc] at ha
    rw [hshift, Nat.succ_sub_one, excess_mul shift (Nat.le_add_right ..) (by omega),
      roundQuotient_mul _ (Nat.two_pow_pos _), ha, Nat.min_eq_right h]

theorem roundQuotient_mul_mul (n d : Nat) {c : Nat} (h : 0 < c) :
    roundQuotient (n * c) (d * c) = roundQuotient n d := by
  have hlow : 2 * (n % d * c) < d * c ↔ 2 * (n % d) < d := by
    rw [← Nat.mul_assoc, Nat.mul_lt_mul_right h]
  have hhigh : d * c < 2 * (n % d * c) ↔ d < 2 * (n % d) := by
    rw [← Nat.mul_assoc, Nat.mul_lt_mul_right h]
  simp only [roundQuotient, Nat.mul_div_mul_right n d h, Nat.mul_mod_mul_right, hlow, hhigh]

theorem nearest_mul (n : Nat) {d : Nat} (h : 0 < d) : f.nearest (n * d) d = f.nearest n 1 := by
  rw [nearest_eq, nearest_eq, Nat.mul_div_cancel n h, Nat.div_one, Nat.mul_comm d,
    roundQuotient_mul_mul _ _ h, Nat.one_mul]

theorem units_pos {a : Nat} (h : 0 < a) (ha : a ≤ f.infinity) : 0 < f.units a := by
  apply Nat.pos_of_ne_zero
  intro hzero
  have hround := nearest_units ha
  rw [hzero, nearest_zero] at hround
  omega

end Relevance.FloatFormat
