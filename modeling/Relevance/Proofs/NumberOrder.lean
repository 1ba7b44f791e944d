import Relevance.Proofs.Rounding
import Relevance.Proofs.SameNumber

namespace Relevance

/-- A function on magnitudes carried over to signed numbers. -/
def oddExtension (g : Nat → Nat) (s : Int) : Int := if s < 0 then -(g s.natAbs : Int) else g s.natAbs

theorem oddExtension_mono {g : Nat → Nat} (hg : ∀ {n m : Nat}, n ≤ m → g n ≤ g m) {s t : Int}
    (h : s ≤ t) : oddExtension g s ≤ oddExtension g t := by
  rw [oddExtension, oddExtension]
  split
  · split
    · exact Int.neg_le_neg (Int.ofNat_le.2 (hg (by omega)))
    · omega
  · rw [if_neg (by omega)]
    exact Int.ofNat_le.2 (hg (by omega))

theorem natAbs_oddExtension (g : Nat → Nat) (s : Int) : (oddExtension g s).natAbs = g s.natAbs := by
  rw [oddExtension]
  split
  · rw [Int.natAbs_neg, Int.natAbs_natCast]
  · rw [Int.natAbs_natCast]

theorem oddExtension_nonneg (g : Nat → Nat) {s : Int} (h : 0 ≤ s) : 0 ≤ oddExtension g s := by
  rw [oddExtension, if_neg (by omega)]
  exact Int.natCast_nonneg _

namespace Binary32

open FloatFormat

theorem lt_iff {x y : Binary32} :
    x < y ↔ x.isNaN = false ∧ y.isNaN = false ∧ x.key < y.key := by
  change x.lt y = true ↔ _
  simp [lt, and_assoc]

theorem le_iff {x y : Binary32} :
    x ≤ y ↔ x.isNaN = false ∧ y.isNaN = false ∧ x.key ≤ y.key := by
  change x.le y = true ↔ _
  simp [le, and_assoc]

theorem le_trans {x y z : Binary32} (hxy : x ≤ y) (hyz : y ≤ z) : x ≤ z := by
  rw [le_iff] at *
  exact ⟨hxy.1, hyz.2.1, Int.le_trans hxy.2.2 hyz.2.2⟩

theorem le_of_lt {x y : Binary32} (h : x < y) : x ≤ y := by
  rw [lt_iff] at h
  exact le_iff.2 ⟨h.1, h.2.1, Int.le_of_lt h.2.2⟩

theorem not_lt_of_le {x y : Binary32} (h : x ≤ y) : ¬y < x := by
  rw [le_iff] at h
  rw [lt_iff]
  rintro ⟨_, _, hlt⟩
  exact Int.not_lt.2 h.2.2 hlt

theorem le_of_not_lt {x y : Binary32} (hx : x.isNaN = false) (hy : y.isNaN = false)
    (h : ¬y < x) : x ≤ y := by
  rw [lt_iff] at h
  exact le_iff.2 ⟨hx, hy, Int.not_lt.1 fun hlt => h ⟨hy, hx, hlt⟩⟩

theorem le_refl {x : Binary32} (h : x.isNaN = false) : x ≤ x := le_iff.2 ⟨h, h, Int.le_refl _⟩

theorem natAbs_key (x : Binary32) : x.key.natAbs = x.magnitude := by
  rw [key]
  split
  · rw [Int.natAbs_neg, Int.natAbs_natCast]
  · rw [Int.natAbs_natCast]

theorem isNaN_iff {x : Binary32} : x.isNaN = true ↔ binary32.infinity < x.key.natAbs := by
  rw [natAbs_key]
  exact decide_eq_true_iff

theorem isNaN_eq_false_iff {x : Binary32} :
    x.isNaN = false ↔ x.key.natAbs ≤ binary32.infinity := by
  rw [← Nat.not_lt, ← isNaN_iff, Bool.not_eq_true]

theorem isInfinite_iff {x : Binary32} :
    x.isInfinite = true ↔ x.key.natAbs = binary32.infinity := by
  rw [natAbs_key]
  exact decide_eq_true_iff

theorem isFinite_iff {x : Binary32} : x.isFinite = true ↔ x.key.natAbs < binary32.infinity := by
  rw [natAbs_key]
  exact decide_eq_true_iff

theorem toNat_ofMagnitude (negative : Bool) {magnitude : Nat} (h : magnitude < 0x80000000) :
    (ofMagnitude negative magnitude).bits.toNat =
      if negative then 0x80000000 + magnitude else magnitude := by
  apply UInt32.toNat_ofNat_of_lt'
  change _ < 4294967296
  split <;> omega

theorem key_ofMagnitude (negative : Bool) {magnitude : Nat} (h : magnitude < 0x80000000) :
    (ofMagnitude negative magnitude).key = if negative then -(magnitude : Int) else magnitude := by
  rw [key, Binary32.negative, Binary32.magnitude, toNat_ofMagnitude negative h]
  cases negative with
  | false => simp [Nat.mod_eq_of_lt h, Nat.not_le_of_lt h]
  | true => simp [Nat.mod_eq_of_lt h]

theorem infinity_pos : 0 < binary32.infinity := by decide

theorem infinity_lt : binary32.infinity < 0x80000000 := by decide

theorem nearest_lt (n d : Nat) : binary32.nearest n d < 0x80000000 :=
  Nat.lt_of_le_of_lt (nearest_le_infinity ..) infinity_lt

theorem units_eq_key (x : Binary32) : x.units = oddExtension binary32.units x.key := by
  rw [units, oddExtension, natAbs_key, key]
  split
  · rcases Nat.eq_zero_or_pos x.magnitude with hzero | hpos
    · rw [hzero]
      rfl
    · rw [if_pos (by omega)]
  · rw [if_neg (by omega)]

theorem units_le_units {x y : Binary32} (h : x.key ≤ y.key) : x.units ≤ y.units := by
  rw [units_eq_key, units_eq_key]
  exact oddExtension_mono units_mono h

theorem isNaN_of_isFinite {x : Binary32} (h : x.isFinite = true) : x.isNaN = false := by
  rw [isFinite_iff] at h
  exact isNaN_eq_false_iff.2 (Nat.le_of_lt h)

theorem isInfinite_of_isFinite {x : Binary32} (h : x.isFinite = true) : x.isInfinite = false := by
  rw [isFinite_iff] at h
  rw [← Bool.not_eq_true, isInfinite_iff]
  exact Nat.ne_of_lt h

theorem isNaN_of_isInfinite {x : Binary32} (h : x.isInfinite = true) : x.isNaN = false := by
  rw [isInfinite_iff] at h
  exact isNaN_eq_false_iff.2 (Nat.le_of_eq h)

theorem key_ofQuotient (negative : Bool) (n d : Nat) :
    (ofQuotient negative n d).key =
      if negative then -(binary32.nearest n d : Int) else binary32.nearest n d :=
  key_ofMagnitude negative (nearest_lt n d)

theorem key_add {x y : Binary32} (hx : x.isFinite = true) (hy : y.isFinite = true) :
    (x + y).key = oddExtension (fun n => binary32.nearest n 1) (x.units + y.units) := by
  change (Binary32.add x y).key = _
  simp only [Binary32.add, isNaN_of_isFinite hx, isNaN_of_isFinite hy, isInfinite_of_isFinite hx,
    isInfinite_of_isFinite hy, Bool.false_eq_true, ↓reduceIte, key_ofQuotient, oddExtension]
  rcases Int.lt_trichotomy (x.units + y.units) 0 with hneg | hzero | hpos
  · simp [hneg, Int.ne_of_lt hneg]
  · simp [hzero, nearest_zero]
  · simp [Int.lt_asymm hpos, Int.ne_of_gt hpos]

theorem oddExtension_signed {g : Nat → Nat} (hg : g 0 = 0) (negative : Bool) (n : Nat) :
    oddExtension g (if negative then -(n : Int) else n) = if negative then -(g n : Int) else g n := by
  rw [oddExtension]
  cases negative with
  | false => simp [Int.not_lt.2 (Int.natCast_nonneg n)]
  | true =>
    rcases Nat.eq_zero_or_pos n with rfl | hpos
    · simp [hg]
    · simp [hpos]

theorem units_mul_units (x y : Binary32) :
    x.units * y.units =
      if x.negative != y.negative then
        -((binary32.units x.magnitude * binary32.units y.magnitude : Nat) : Int)
      else (binary32.units x.magnitude * binary32.units y.magnitude : Nat) := by
  rw [units, units]
  cases x.negative with
  | false =>
    cases y.negative with
    | false => exact (Int.natCast_mul ..).symm
    | true => exact (Int.mul_neg ..).trans (congrArg (- ·) (Int.natCast_mul ..).symm)
  | true =>
    cases y.negative with
    | false => exact (Int.neg_mul ..).trans (congrArg (- ·) (Int.natCast_mul ..).symm)
    | true => exact (Int.neg_mul_neg ..).trans (Int.natCast_mul ..).symm

theorem key_mul {x y : Binary32} (hx : x.isFinite = true) (hy : y.isFinite = true) :
    (x * y).key =
      oddExtension (fun n => binary32.nearest n (1 <<< binary32.unitExponent))
        (x.units * y.units) := by
  rw [units_mul_units, oddExtension_signed (nearest_zero binary32 (1 <<< binary32.unitExponent))]
  change (Binary32.mul x y).key = _
  simp only [Binary32.mul, isNaN_of_isFinite hx, isNaN_of_isFinite hy, isInfinite_of_isFinite hx,
    isInfinite_of_isFinite hy, Bool.or_self, Bool.false_eq_true, ↓reduceIte]
  exact key_ofMagnitude _ (nearest_lt ..)

theorem le_of_key_eq {x y : Binary32} (hx : x.isNaN = false) (hy : y.key = binary32.infinity) :
    x ≤ y := by
  rw [isNaN_eq_false_iff] at hx
  exact le_iff.2 ⟨isNaN_eq_false_iff.2 hx, isNaN_eq_false_iff.2 (by omega), by omega⟩

theorem le_of_key_eq_neg {x y : Binary32} (hx : x.key = -(binary32.infinity : Int))
    (hy : y.isNaN = false) : x ≤ y := by
  rw [isNaN_eq_false_iff] at hy
  exact le_iff.2 ⟨isNaN_eq_false_iff.2 (by omega), isNaN_eq_false_iff.2 hy, by omega⟩

theorem key_add_left {x y : Binary32} (hx : x.isInfinite = true) (h : (x + y).isNaN = false) :
    (x + y).key = x.key := by
  have hy : y.isNaN = false :=
    eq_false_of_ne_true fun hy => ne_true_of_eq_false h (isNaN_add_right x hy)
  change (Binary32.add x y).isNaN = false at h
  change (Binary32.add x y).key = x.key
  simp only [Binary32.add, isNaN_of_isInfinite hx, hy, hx, Bool.false_eq_true, ↓reduceIte] at h ⊢
  split
  · rename_i hopposite
    rw [if_pos hopposite] at h
    exact absurd h (by decide)
  · rfl

theorem key_add_right {x y : Binary32} (hy : y.isInfinite = true) (h : (x + y).isNaN = false) :
    (x + y).key = y.key := by
  have hx : x.isNaN = false :=
    eq_false_of_ne_true fun hx => ne_true_of_eq_false h (isNaN_add_left hx y)
  cases hinfinite : x.isInfinite with
  | false =>
    change (Binary32.add x y).key = y.key
    simp only [Binary32.add, hx, isNaN_of_isInfinite hy, hinfinite, hy, Bool.false_eq_true,
      ↓reduceIte]
  | true =>
    rw [key_add_left hinfinite h]
    change (Binary32.add x y).isNaN = false at h
    simp only [Binary32.add, hx, isNaN_of_isInfinite hy, hinfinite, hy, Bool.false_eq_true,
      ↓reduceIte, Bool.true_and] at h
    split at h
    · exact absurd h (by decide)
    · rename_i hsign
      rw [key, key, of_decide_eq_true hinfinite, of_decide_eq_true hy]
      simp [bne_eq_false_iff_eq.1 (eq_false_of_ne_true hsign)]

theorem isFinite_of_not_infinite {x : Binary32} (hx : x.isNaN = false)
    (h : x.isInfinite = false) : x.isFinite = true := by
  rw [isNaN_eq_false_iff] at hx
  rw [← Bool.not_eq_true, isInfinite_iff] at h
  exact isFinite_iff.2 (Nat.lt_of_le_of_ne hx h)

theorem isNaN_add_of_isFinite {x y : Binary32} (hx : x.isFinite = true) (hy : y.isFinite = true) :
    (x + y).isNaN = false := by
  rw [isNaN_eq_false_iff, key_add hx hy, natAbs_oddExtension]
  exact nearest_le_infinity ..

theorem key_of_isInfinite {x : Binary32} (h : x.isInfinite = true) :
    x.key = if x.negative then -(binary32.infinity : Int) else binary32.infinity := by
  rw [key, of_decide_eq_true h]

/-- Only opposite infinities have no sum. -/
theorem isNaN_add_iff {x y : Binary32} (hx : x.isNaN = false) (hy : y.isNaN = false) :
    (x + y).isNaN = true ↔ x.isInfinite = true ∧ y.key = -x.key := by
  change (Binary32.add x y).isNaN = true ↔ _
  cases hinfinite : x.isInfinite with
  | false =>
    have hnumber : (Binary32.add x y).isNaN = false := by
      cases hinfinite' : y.isInfinite with
      | false =>
        exact isNaN_add_of_isFinite (isFinite_of_not_infinite hx hinfinite)
          (isFinite_of_not_infinite hy hinfinite')
      | true =>
        simp only [Binary32.add, hx, hy, hinfinite, hinfinite', Bool.false_eq_true, ↓reduceIte]
    simp only [hnumber, Bool.false_eq_true, false_and]
  | true =>
    simp only [Binary32.add, hx, hy, hinfinite, Bool.false_eq_true, ↓reduceIte, true_and]
    cases hinfinite' : y.isInfinite with
    | false =>
      have hlt := isFinite_iff.1 (isFinite_of_not_infinite hy hinfinite')
      rw [isInfinite_iff] at hinfinite
      simp only [Bool.false_and, Bool.false_eq_true, ↓reduceIte, hx, false_iff]
      omega
    | true =>
      have hopposite : (x.negative != y.negative) = true ↔ y.key = -x.key := by
        rw [key_of_isInfinite hinfinite, key_of_isInfinite hinfinite']
        cases x.negative <;> cases y.negative <;> decide
      rw [Bool.true_and, ← hopposite]
      split
      · rename_i h
        exact iff_of_true rfl h
      · rename_i h
        exact iff_of_false (ne_true_of_eq_false hx) h

/-- Addition keeps order where both sums are numbers. -/
theorem add_le_add {x x' y y' : Binary32} (hx : x ≤ x') (hy : y ≤ y')
    (h : (x + y).isNaN = false) (h' : (x' + y').isNaN = false) : x + y ≤ x' + y' := by
  obtain ⟨hxn, hxn', hxle⟩ := le_iff.1 hx
  obtain ⟨hyn, hyn', hyle⟩ := le_iff.1 hy
  rw [isNaN_eq_false_iff] at hxn hxn' hyn hyn'
  by_cases htop : x'.key = binary32.infinity
  · apply le_of_key_eq h
    rw [key_add_left (isInfinite_iff.2 (by omega)) h', htop]
  by_cases htop' : y'.key = binary32.infinity
  · apply le_of_key_eq h
    rw [key_add_right (isInfinite_iff.2 (by omega)) h', htop']
  by_cases hbottom : x.key = -(binary32.infinity : Int)
  · apply le_of_key_eq_neg _ h'
    rw [key_add_left (isInfinite_iff.2 (by omega)) h, hbottom]
  by_cases hbottom' : y.key = -(binary32.infinity : Int)
  · apply le_of_key_eq_neg _ h'
    rw [key_add_right (isInfinite_iff.2 (by omega)) h, hbottom']
  -- Between the infinities all four are finite.
  rw [le_iff, key_add (isFinite_iff.2 (by omega)) (isFinite_iff.2 (by omega)),
    key_add (isFinite_iff.2 (by omega)) (isFinite_iff.2 (by omega))]
  refine ⟨h, h', oddExtension_mono (fun hle => nearest_mono hle 1) ?_⟩
  exact Int.add_le_add (units_le_units hxle) (units_le_units hyle)

theorem zero_le_iff {x : Binary32} : zero ≤ x ↔ x.isNaN = false ∧ 0 ≤ x.key := by
  rw [le_iff]
  exact ⟨fun h => h.2, fun h => ⟨rfl, h⟩⟩

theorem negative_of_key_pos {x : Binary32} (h : 0 < x.key) : x.negative = false := by
  rw [← Bool.not_eq_true]
  intro hnegative
  rw [key, if_pos hnegative] at h
  omega

theorem isFinite_or_infinite {x : Binary32} (h : zero ≤ x) :
    x.isFinite = true ∨ x.isInfinite = true ∧ x.negative = false := by
  obtain ⟨hn, hkey⟩ := zero_le_iff.1 h
  rw [isNaN_eq_false_iff] at hn
  rcases Nat.eq_or_lt_of_le hn with heq | hlt
  · have hpos := infinity_pos
    exact .inr ⟨isInfinite_iff.2 heq, negative_of_key_pos (by omega)⟩
  · exact .inl (isFinite_iff.2 hlt)

theorem isNaN_add_of_nonneg {x y : Binary32} (hx : zero ≤ x) (hy : zero ≤ y) :
    (x + y).isNaN = false := by
  obtain ⟨hxn, hxkey⟩ := zero_le_iff.1 hx
  obtain ⟨hyn, hykey⟩ := zero_le_iff.1 hy
  have hpos := infinity_pos
  rw [← Bool.not_eq_true, isNaN_add_iff hxn hyn, isInfinite_iff]
  omega

theorem zero_add_zero : zero + zero = zero := by decide

theorem add_nonneg {x y : Binary32} (hx : zero ≤ x) (hy : zero ≤ y) : zero ≤ x + y := by
  have hle := add_le_add hx hy (isNaN_add_of_nonneg (by decide) (by decide))
    (isNaN_add_of_nonneg hx hy)
  rwa [zero_add_zero] at hle

theorem units_nonneg {x : Binary32} (h : zero ≤ x) : 0 ≤ x.units :=
  units_le_units (le_iff.1 h).2.2

theorem isNaN_mul_of_isFinite {x y : Binary32} (hx : x.isFinite = true) (hy : y.isFinite = true) :
    (x * y).isNaN = false := by
  rw [isNaN_eq_false_iff, key_mul hx hy, natAbs_oddExtension]
  exact nearest_le_infinity ..

theorem negative_of_not_zero {x : Binary32} (h : zero ≤ x) (hzero : x.isZero = false) :
    x.negative = false := by
  have hpos := (zero_le_iff.1 h).2
  have hne : x.magnitude ≠ 0 := of_decide_eq_false hzero
  rw [← natAbs_key] at hne
  exact negative_of_key_pos (by omega)

theorem key_mul_infinite {x y : Binary32} (hx : zero ≤ x) (hy : zero ≤ y)
    (hinfinite : x.isInfinite = true ∨ y.isInfinite = true) (h : (x * y).isNaN = false) :
    (x * y).key = binary32.infinity := by
  change (Binary32.mul x y).isNaN = false at h
  change (Binary32.mul x y).key = _
  simp only [Binary32.mul, (zero_le_iff.1 hx).1, (zero_le_iff.1 hy).1, Bool.or_eq_true, hinfinite,
    Bool.false_eq_true, ↓reduceIte] at h ⊢
  split
  · rename_i hzero
    rw [if_pos hzero] at h
    exact absurd h (by decide)
  · rename_i hzero
    rw [not_or, Bool.not_eq_true, Bool.not_eq_true] at hzero
    rw [key_ofMagnitude _ infinity_lt, negative_of_not_zero hx hzero.1,
      negative_of_not_zero hy hzero.2]
    rfl

theorem mul_nonneg {x y : Binary32} (hx : zero ≤ x) (hy : zero ≤ y) (h : (x * y).isNaN = false) :
    zero ≤ x * y := by
  have hxy : 0 ≤ x.units * y.units := Int.mul_nonneg (units_nonneg hx) (units_nonneg hy)
  apply zero_le_iff.2 ⟨h, _⟩
  rcases isFinite_or_infinite hx with hfinite | ⟨hinfinite, _⟩
  · rcases isFinite_or_infinite hy with hfinite' | ⟨hinfinite, _⟩
    · rw [key_mul hfinite hfinite']
      exact oddExtension_nonneg _ hxy
    · rw [key_mul_infinite hx hy (.inr hinfinite) h]
      exact Int.natCast_nonneg _
  · rw [key_mul_infinite hx hy (.inl hinfinite) h]
    exact Int.natCast_nonneg _

theorem mul_le_mul_left {w x y : Binary32} (hw : zero ≤ w) (hx : zero ≤ x) (hxy : x ≤ y)
    (h : (w * x).isNaN = false) (h' : (w * y).isNaN = false) : w * x ≤ w * y := by
  have hy := le_trans hx hxy
  rcases isFinite_or_infinite hw with hfinite | ⟨hinfinite, _⟩
  · rcases isFinite_or_infinite hy with hfinite' | ⟨hinfinite, _⟩
    · have hkey := (le_iff.1 hxy).2.2
      have hfinitex : x.isFinite = true := by
        have hpos := (zero_le_iff.1 hx).2
        rw [isFinite_iff] at hfinite' ⊢
        omega
      rw [le_iff, key_mul hfinite hfinitex, key_mul hfinite hfinite']
      refine ⟨h, h', oddExtension_mono (fun hle => nearest_mono hle _) ?_⟩
      exact Int.mul_le_mul_of_nonneg_left (units_le_units hkey) (units_nonneg hw)
    · exact le_of_key_eq h (key_mul_infinite hw hy (.inr hinfinite) h')
  · exact le_of_key_eq h (key_mul_infinite hw hy (.inl hinfinite) h')

/-- A number that is not below a bound, or a NaN. -/
def AtLeast (bound x : Binary32) : Prop := x.isNaN = true ∨ bound ≤ x

theorem AtLeast.of_not_nan {bound x : Binary32} (h : bound.AtLeast x) (hx : x.isNaN = false) :
    bound ≤ x :=
  h.resolve_left (by simp [hx])

theorem atLeast_iff {bound x : Binary32} (h : bound.isNaN = false) :
    bound.AtLeast x ↔ ¬x < bound := by
  constructor
  · rintro (hx | hle)
    · intro hlt
      exact ne_true_of_eq_false (lt_iff.1 hlt).1 hx
    · exact not_lt_of_le hle
  · intro hlt
    cases hx : x.isNaN with
    | true => exact .inl hx
    | false => exact .inr (le_of_not_lt h hx hlt)

theorem AtLeast.trans {low bound x : Binary32} (hlow : low ≤ bound) (h : bound.AtLeast x) :
    low.AtLeast x :=
  h.imp_right (le_trans hlow)

theorem AtLeast.same {bound x y : Binary32} (h : bound.AtLeast x) (hxy : x.Same y) :
    bound.AtLeast y := by
  rcases hxy with rfl | ⟨_, hy⟩
  · exact h
  · exact .inl hy

theorem AtLeast.add {low bound x y : Binary32} (hx : low.AtLeast x) (hy : bound.AtLeast y)
    (h : (low + bound).isNaN = false) : (low + bound).AtLeast (x + y) := by
  rcases hx with hx | hx
  · exact .inl (isNaN_add_left hx y)
  · rcases hy with hy | hy
    · exact .inl (isNaN_add_right x hy)
    · cases hsum : (x + y).isNaN with
      | true => exact .inl hsum
      | false => exact .inr (add_le_add hx hy h hsum)

theorem AtLeast.add_nonneg {x y : Binary32} (hx : zero.AtLeast x) (hy : zero.AtLeast y) :
    zero.AtLeast (x + y) := by
  have hsum := hx.add hy (isNaN_add_of_nonneg (by decide) (by decide))
  rwa [zero_add_zero] at hsum

theorem AtLeast.mul_left {w bound x : Binary32} (hw : zero ≤ w) (hbound : zero ≤ bound)
    (hx : bound.AtLeast x) (h : (w * bound).isNaN = false) : (w * bound).AtLeast (w * x) := by
  rcases hx with hx | hx
  · exact .inl (isNaN_mul_right w hx)
  · cases hproduct : (w * x).isNaN with
    | true => exact .inl hproduct
    | false => exact .inr (mul_le_mul_left hw hbound hx h hproduct)

theorem AtLeast.mul_nonneg {w x : Binary32} (hw : zero.AtLeast w) (hx : zero.AtLeast x) :
    zero.AtLeast (w * x) := by
  rcases hw with hw | hw
  · exact .inl (isNaN_mul_left hw x)
  · rcases hx with hx | hx
    · exact .inl (isNaN_mul_right w hx)
    · cases hproduct : (w * x).isNaN with
      | true => exact .inl hproduct
      | false => exact .inr (Binary32.mul_nonneg hw hx hproduct)

theorem le_infinity {x : Binary32} (h : x.isNaN = false) : x ≤ infinity :=
  le_of_key_eq h (by decide)

theorem isNaN_min {x : Binary32} (hx : x.isNaN = false) (y : Binary32) :
    (min x y).isNaN = false := by
  change (Binary32.min x y).isNaN = false
  rw [Binary32.min]
  split
  · exact hx
  · rename_i hy
    rw [not_or, Bool.not_eq_true] at hy
    exact hy.1

/-- A NaN puts no bound on a minimum. -/
theorem le_min_iff {bound x y : Binary32} (hx : x.isNaN = false) :
    bound ≤ min x y ↔ bound ≤ x ∧ bound.AtLeast y := by
  change bound ≤ Binary32.min x y ↔ _
  rw [Binary32.min]
  split
  · rename_i hy
    refine ⟨fun hle => ⟨hle, ?_⟩, And.left⟩
    exact hy.imp_right fun hlt => le_trans hle (le_of_lt hlt)
  · rename_i hy
    rw [not_or, Bool.not_eq_true] at hy
    have hle : y ≤ x := le_of_not_lt hy.1 hx hy.2
    exact ⟨fun h => ⟨le_trans h hle, .inr h⟩, fun h => h.2.of_not_nan hy.1⟩

theorem le_max_right (x : Binary32) {y : Binary32} (hy : y.isNaN = false) : y ≤ max x y := by
  change y ≤ Binary32.max x y
  rw [Binary32.max]
  split
  · rename_i h
    exact le_of_lt (h.resolve_left (by simp [hy]))
  · exact le_refl hy

theorem le_max_left {x : Binary32} (hx : x.isNaN = false) (y : Binary32) : x ≤ max x y := by
  change x ≤ Binary32.max x y
  rw [Binary32.max]
  split
  · exact le_refl hx
  · rename_i h
    rw [not_or, Bool.not_eq_true] at h
    exact le_of_not_lt hx h.1 h.2

theorem max_le {x y bound : Binary32} (hx : x.isNaN = false → x ≤ bound) (hy : y ≤ bound) :
    max x y ≤ bound := by
  change Binary32.max x y ≤ bound
  rw [Binary32.max]
  split
  · rename_i h
    have hlt : y < x := h.resolve_left (ne_true_of_eq_false (le_iff.1 hy).1)
    exact hx (lt_iff.1 hlt).2.1
  · exact hy

end Binary32

end Relevance
