import Relevance.Proofs.NormalizedRows

namespace Relevance

open Normalizer

namespace FeatureMatrix

theorem place_inj {cols row other col next : Nat} (hcol : col < cols) (hnext : next < cols)
    (h : row * cols + col = other * cols + next) : row = other ∧ col = next := by
  have hcols : 0 < cols := Nat.lt_of_le_of_lt (Nat.zero_le col) hcol
  have hrow : row = other := by
    have hdiv := congrArg (· / cols) h
    simpa [Nat.mul_comm row, Nat.mul_comm other, Nat.mul_add_div hcols, Nat.div_eq_of_lt hcol,
      Nat.div_eq_of_lt hnext] using hdiv
  rw [hrow] at h
  exact ⟨hrow, Nat.add_left_cancel h⟩

variable {m after : FeatureMatrix} {row col : Nat}

theorem get?_of_lt (hrow : row < m.rows) (hcol : col < m.cols) :
    m.get? row col = m.entries.toArray[row * m.cols + col]? := by
  have hplace : row * m.cols + col < m.entries.toArray.size := by
    rw [Vector.size_toArray]
    exact place_lt hrow hcol
  rw [get?, dif_pos ⟨hrow, hcol⟩, Array.getElem?_eq_getElem hplace]
  rfl

theorem get?_of_not_lt (h : ¬(row < m.rows ∧ col < m.cols)) : m.get? row col = none := dif_neg h

theorem get?_eq_some (hrow : row < m.rows) (hcol : col < m.cols) :
    ∃ raw, m.get? row col = some raw :=
  ⟨_, dif_pos ⟨hrow, hcol⟩⟩

theorem set?_eq_some {score : Binary32} (h : m.set? row col score = some after) :
    (row < m.rows ∧ col < m.cols) ∧ after.rows = m.rows ∧ after.cols = m.cols ∧
      after.entries.toArray =
        m.entries.toArray.setIfInBounds (row * m.cols + col) score := by
  rw [set?] at h
  split at h
  · rename_i hin
    obtain rfl := Option.some.inj h
    refine ⟨hin, rfl, rfl, ?_⟩
    rw [Vector.toArray_set, Array.setIfInBounds, dif_pos]
  · exact nomatch h

theorem get?_set? {score : Binary32} (h : m.set? row col score = some after) (other next : Nat) :
    after.get? other next =
      if other = row ∧ next = col then some score else m.get? other next := by
  obtain ⟨⟨hrow, hcol⟩, hrows, hcols, hentries⟩ := set?_eq_some h
  by_cases hin : other < m.rows ∧ next < m.cols
  · have hplace : row * m.cols + col < m.entries.toArray.size := by
      rw [Vector.size_toArray]
      exact place_lt hrow hcol
    rw [get?_of_lt (by omega) (by omega), get?_of_lt hin.1 hin.2, hentries, hcols,
      Array.getElem?_setIfInBounds]
    by_cases heq : other = row ∧ next = col
    · rw [if_pos heq, heq.1, heq.2, if_pos rfl, if_pos hplace]
    · rw [if_neg heq, if_neg]
      intro hsame
      obtain ⟨rfl, rfl⟩ := place_inj hcol hin.2 hsame
      exact heq ⟨rfl, rfl⟩
  · rw [get?_of_not_lt (by omega), get?_of_not_lt hin, if_neg]
    rintro ⟨rfl, rfl⟩
    exact hin ⟨hrow, hcol⟩

theorem set?_total (hrow : row < m.rows) (hcol : col < m.cols) (score : Binary32) :
    ∃ after, m.set? row col score = some after :=
  ⟨_, dif_pos ⟨hrow, hcol⟩⟩

theorem row?_of_le (h : m.rows ≤ row) : m.row? row = none := if_neg (Nat.not_lt_of_le h)

theorem row?_of_lt (h : row < m.rows) :
    ∃ scores, m.row? row = some scores ∧ scores.size = m.cols ∧
      ∀ col : Nat, scores[col]? = m.get? row col := by
  have hstop : (row + 1) * m.cols ≤ m.entries.toArray.size := by
    rw [Vector.size_toArray]
    exact Nat.mul_le_mul_right m.cols h
  have hwidth : (row + 1) * m.cols - row * m.cols = m.cols := by
    rw [Nat.succ_mul, Nat.add_sub_cancel_left]
  refine ⟨_, if_pos h, ?_, ?_⟩
  · rw [Array.size_extract, Nat.min_eq_left hstop, hwidth]
  · intro col
    rw [Array.getElem?_extract, Nat.min_eq_left hstop, hwidth]
    by_cases hcol : col < m.cols
    · rw [if_pos hcol, get?_of_lt h hcol]
    · rw [if_neg hcol, get?_of_not_lt fun hin => hcol hin.2]

structure SameOutside (row : Nat) (m after : FeatureMatrix) : Prop where
  rows : after.rows = m.rows
  cols : after.cols = m.cols
  get? : ∀ other, other ≠ row → ∀ col, after.get? other col = m.get? other col

theorem replacesSlot (row : Nat) :
    ReplacesSlot (FeatureMatrix.get? · row) (SameOutside row) fun m (ordinal, normalizer) => do
      let raw ← m.get? row ordinal
      m.set? row ordinal (normalizer.normalize raw) where
  refl _ := ⟨rfl, rfl, fun _ _ _ => rfl⟩
  trans hst htu :=
    ⟨htu.rows.trans hst.rows, htu.cols.trans hst.cols,
      fun other hother col => (htu.get? other hother col).trans (hst.get? other hother col)⟩
  missing h := by
    change Option.bind (FeatureMatrix.get? _ _ _) _ = none
    rw [h, Option.bind_none]
  present {m entry raw} h := by
    have hin : row < m.rows ∧ entry.1 < m.cols := by
      by_contra hout
      rw [get?_of_not_lt hout] at h
      exact nomatch h
    obtain ⟨after, hset⟩ := set?_total hin.1 hin.2 (entry.2.normalize raw)
    obtain ⟨_, hrows, hcols, _⟩ := set?_eq_some hset
    refine ⟨after, ?_, ⟨hrows, hcols, ?_⟩, ?_⟩
    · change Option.bind (FeatureMatrix.get? _ _ _) _ = _
      rw [h, Option.bind_some, hset]
    · intro other hother col
      rw [get?_set? hset, if_neg fun heq => hother heq.1]
    · intro ordinal
      simpa using get?_set? hset row ordinal

end FeatureMatrix

open FeatureMatrix

namespace NormalizerTable

variable {table : NormalizerTable}

theorem normalizeMatrixRow?_present {m : FeatureMatrix} {row : Nat} (hrow : row < m.rows)
    (h : ∀ entry ∈ table.entries, entry.1 < m.cols) :
    ∃ after, table.normalizeMatrixRow? m row = some after ∧ SameOutside row m after ∧ ∀ col,
      after.get? row col = (m.get? row col).map (normalizedBy (table.find? col)) :=
  (replacesSlot row).foldlM_present table.ascending
    fun entry hentry => get?_eq_some hrow (h entry hentry)

theorem normalizeRows?_present {m : FeatureMatrix} {start count : Nat}
    (hstop : start + count ≤ m.rows) (h : ∀ entry ∈ table.entries, entry.1 < m.cols) :
    ∃ after, table.normalizeRows? start count m = some after ∧
      after.rows = m.rows ∧ after.cols = m.cols ∧ ∀ row col,
        after.get? row col =
          if start ≤ row ∧ row < start + count then
            (m.get? row col).map (normalizedBy (table.find? col))
          else m.get? row col := by
  induction count generalizing start m with
  | zero =>
    refine ⟨m, rfl, rfl, rfl, ?_⟩
    intro row col
    rw [if_neg (by omega)]
  | succ count ih =>
    have hstart : start < m.rows := by omega
    obtain ⟨next, hnext, hsame, hfirst⟩ := normalizeMatrixRow?_present hstart h
    have hstop' : start + 1 + count ≤ next.rows := by
      rw [hsame.rows]
      omega
    have hcols : ∀ entry ∈ table.entries, entry.1 < next.cols := by
      rwa [hsame.cols]
    obtain ⟨after, hafter, hrows', hcols', hrest⟩ := ih hstop' hcols
    refine ⟨after, ?_, hrows'.trans hsame.rows, hcols'.trans hsame.cols, ?_⟩
    · rw [normalizeRows?, hnext]
      exact hafter
    · intro row col
      rw [hrest]
      by_cases hrow : row = start
      · rw [if_neg (by omega), if_pos (by omega), hrow, hfirst]
      · rw [hsame.get? row hrow]
        by_cases hin : start + 1 ≤ row ∧ row < start + 1 + count
        · rw [if_pos hin, if_pos (by omega)]
        · rw [if_neg hin, if_neg (by omega)]

end NormalizerTable

end Relevance
