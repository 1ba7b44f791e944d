import Relevance.Normalizer.Basic
import Relevance.Proofs.NumberQuotient

namespace Relevance.Normalizer

open Binary32

def Accepted : Normalizer → Prop
  | identity | logistic => True
  | minMax min max => min.isFinite = true ∧ max.isFinite = true ∧ min < max
  | standard mean deviation =>
    mean.isFinite = true ∧ deviation.isFinite = true ∧ zero < deviation

instance : (n : Normalizer) → Decidable n.Accepted
  | identity | logistic => .isTrue trivial
  | minMax .. | standard .. => inferInstanceAs (Decidable (_ ∧ _ ∧ _))

theorem ofBounds_ok_iff {min max : Binary32} {n : Normalizer} :
    ofBounds min max = .ok n ↔ n = .minMax min max ∧ n.Accepted := by
  rw [ofBounds]
  split
  · rename_i h
    constructor
    · exact nofun
    · rintro ⟨rfl, hmin, hmax, _⟩
      simp [hmin, hmax] at h
  · rename_i hfinite
    obtain ⟨hmin, hmax⟩ : min.isFinite = true ∧ max.isFinite = true := by
      simpa using hfinite
    have horder := not_le_iff_lt (isNaN_of_isFinite hmin) (isNaN_of_isFinite hmax)
    split
    · rename_i hle
      constructor
      · exact nofun
      · rintro ⟨rfl, _, _, hlt⟩
        exact absurd hle (horder.2 hlt)
    · rename_i hle
      constructor
      · rintro ⟨⟩
        exact ⟨rfl, hmin, hmax, horder.1 hle⟩
      · rintro ⟨rfl, _⟩
        rfl

theorem ofDeviation_ok_iff {mean deviation : Binary32} {n : Normalizer} :
    ofDeviation mean deviation = .ok n ↔ n = .standard mean deviation ∧ n.Accepted := by
  rw [ofDeviation]
  split
  · rename_i h
    constructor
    · exact nofun
    · rintro ⟨rfl, hmean, hdeviation, hpos⟩
      have hle := (not_le_iff_lt rfl (isNaN_of_isFinite hdeviation)).2 hpos
      simp [hmean, hdeviation, hle] at h
  · rename_i hfinite
    obtain ⟨⟨hmean, hdeviation⟩, hle⟩ :
        (mean.isFinite = true ∧ deviation.isFinite = true) ∧ ¬deviation ≤ zero := by
      simpa using hfinite
    constructor
    · rintro ⟨⟩
      exact ⟨rfl, hmean, hdeviation, (not_le_iff_lt rfl (isNaN_of_isFinite hdeviation)).1 hle⟩
    · rintro ⟨rfl, _⟩
      rfl

/-- Finite scores keep their order; none of them becomes a NaN. -/
def KeepsOrder (n : Normalizer) : Prop :=
  ∀ raw other, raw.isFinite = true → other.isFinite = true → raw ≤ other →
    n.normalize raw ≤ n.normalize other

/-- Scores moved by a finite number and scaled by a positive one keep their order. -/
theorem scaled_le {origin scale raw other : Binary32} (horigin : origin.isFinite = true)
    (hscale : scale.isFinite = true) (hpos : zero < scale) (hraw : raw.isFinite = true)
    (hother : other.isFinite = true) (h : raw ≤ other) :
    (raw - origin) / scale ≤ (other - origin) / scale :=
  div_le_div hscale hpos (sub_le_sub_right hraw hother horigin h)

theorem isFinite_between {min max raw : Binary32} (hmin : min.isFinite = true)
    (hmax : max.isFinite = true) (hlow : min ≤ raw) (hhigh : raw ≤ max) :
    raw.isFinite = true := by
  have hbelow := (le_iff.1 hlow).2.2
  have habove := (le_iff.1 hhigh).2.2
  rw [isFinite_iff] at *
  omega

/-- Where the distance of the bounds overflows, scores are normalized to zeros and NaNs. -/
theorem normalize_overflowing {min max raw : Binary32} (hmin : min.isFinite = true)
    (hmax : max.isFinite = true) (hrange : (max - min).isFinite = false)
    (hraw : raw.isFinite = true) :
    if (raw - min).isFinite then ((minMax min max).normalize raw).isZero = true
    else ((minMax min max).normalize raw).isNaN = true := by
  have hinfinite {x : Binary32} (hx : x.isFinite = true) (h : (x - min).isFinite = false) :
      (x - min).isInfinite = true := by
    have hn := isNaN_sub_of_isFinite hx hmin
    rw [isNaN_eq_false_iff] at hn
    rw [← Bool.not_eq_true, isFinite_iff] at h
    rw [isInfinite_iff]
    omega
  have hwide := hinfinite hmax hrange
  split
  · rename_i hfinite
    apply decide_eq_true
    change ((raw - min) / (max - min)).magnitude = 0
    rw [← natAbs_key, key_div_infinite hfinite hwide]
    rfl
  · rename_i hfinite
    exact isNaN_div_infinite (hinfinite hraw (eq_false_of_ne_true hfinite)) hwide

/-- The bounds are normalized to zero and one, and what is between them to something between. -/
structure MapsBounds (n : Normalizer) (min max : Binary32) : Prop where
  min_eq : n.normalize min = zero
  max_eq : n.normalize max = one
  between : ∀ raw, min ≤ raw → raw ≤ max → zero ≤ n.normalize raw ∧ n.normalize raw ≤ one

/-- A normalizer keeps the order of finite scores unless the distance of its bounds overflows. -/
theorem accepted_keeps_order (min max mean deviation : Binary32) (n : Normalizer) :
    (ofBounds min max = .ok n →
      (n.KeepsOrder ∧ n.MapsBounds min max ↔ (max - min).isFinite = true) ∧
        n.normalize min = zero ∧
        ((max - min).isFinite = false → ∀ raw, raw.isFinite = true →
          if (raw - min).isFinite then (n.normalize raw).isZero = true
          else (n.normalize raw).isNaN = true)) ∧
      (ofDeviation mean deviation = .ok n → n.KeepsOrder) := by
  constructor
  · intro h
    obtain ⟨rfl, hmin, hmax, hlt⟩ := ofBounds_ok_iff.1 h
    have hpos : zero < max - min := sub_pos hmax hmin hlt
    have hzero : (minMax min max).normalize min = zero := by
      rw [normalize, sub_self hmin, zero_div hpos]
    refine ⟨⟨?_, ?_⟩, hzero, fun hrange _ => normalize_overflowing hmin hmax hrange⟩
    · rintro ⟨_, hbounds⟩
      rw [← Bool.not_eq_false]
      intro hrange
      -- The higher bound would be a NaN, and not one.
      have hnan := normalize_overflowing hmin hmax hrange hmax
      rw [hrange, hbounds.max_eq] at hnan
      exact nomatch hnan
    · intro hrange
      have hone : (minMax min max).normalize max = one := div_self hrange hpos
      have horder : (minMax min max).KeepsOrder := fun _ _ => scaled_le hmin hrange hpos
      refine ⟨horder, hzero, hone, ?_⟩
      intro raw hlow hhigh
      have hraw := isFinite_between hmin hmax hlow hhigh
      constructor
      · rw [← hzero]
        exact horder min raw hmin hraw hlow
      · rw [← hone]
        exact horder raw max hraw hmax hhigh
  · intro h
    obtain ⟨rfl, hmean, hdeviation, hpos⟩ := ofDeviation_ok_iff.1 h
    exact fun _ _ => scaled_le hmean hdeviation hpos

theorem accepted_keeps_order_bounds :
    ((minMax ⟨0xff7fffff⟩ ⟨0x7f7fffff⟩).normalize ⟨0xff7fffff⟩ = zero ∧
      ((minMax ⟨0xff7fffff⟩ ⟨0x7f7fffff⟩).normalize .zero).isZero = true) ∧
      ((minMax ⟨0x80000001⟩ ⟨1⟩).KeepsOrder ∧
        (minMax ⟨0x80000001⟩ ⟨1⟩).MapsBounds ⟨0x80000001⟩ ⟨1⟩) ∧
      (standard ⟨0x3f800000⟩ ⟨1⟩).KeepsOrder := by
  obtain ⟨hwidest, _⟩ := accepted_keeps_order ⟨0xff7fffff⟩ ⟨0x7f7fffff⟩ zero one _
  obtain ⟨hclose, _⟩ := accepted_keeps_order ⟨0x80000001⟩ ⟨1⟩ zero one _
  obtain ⟨_, hdeviation⟩ := accepted_keeps_order zero one ⟨0x3f800000⟩ ⟨1⟩ _
  obtain ⟨_, hzero, hoverflow⟩ := hwidest rfl
  exact ⟨⟨hzero, hoverflow (by decide) .zero (by decide)⟩, (hclose rfl).1.2 (by decide),
    hdeviation rfl⟩

/-- Between the lowest and the highest finite number, the higher bound is normalized to a NaN. -/
theorem widest_bounds_give_nan :
    ofBounds ⟨0xff7fffff⟩ ⟨0x7f7fffff⟩ = .ok (minMax ⟨0xff7fffff⟩ ⟨0x7f7fffff⟩) ∧
      ((minMax ⟨0xff7fffff⟩ ⟨0x7f7fffff⟩).normalize ⟨0x7f7fffff⟩).isNaN = true ∧
      ¬(minMax ⟨0xff7fffff⟩ ⟨0x7f7fffff⟩).KeepsOrder := by
  have hnan : ((minMax ⟨0xff7fffff⟩ ⟨0x7f7fffff⟩).normalize ⟨0x7f7fffff⟩).isNaN = true := by
    decide
  refine ⟨rfl, hnan, ?_⟩
  intro horder
  have hle := horder ⟨0xff7fffff⟩ ⟨0x7f7fffff⟩ (by decide) (by decide) (by decide)
  exact ne_true_of_eq_false (le_iff.1 hle).2.1 hnan

end Relevance.Normalizer
