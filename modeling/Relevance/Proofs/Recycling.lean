import Relevance.Proofs.BulkScores
import Relevance.Proofs.RecycledVectors

namespace Relevance

namespace FeatureMatrix

/-- Two matrices have the same columns, and the same entries in the first rows. -/
structure AgreeBelow (count : Nat) (m w : FeatureMatrix) : Prop where
  rows : count ≤ m.rows
  twinRows : count ≤ w.rows
  cols : w.cols = m.cols
  get? : ∀ row < count, ∀ col, w.get? row col = m.get? row col

structure Zeroed (rows cols : Nat) (m : FeatureMatrix) : Prop where
  rows : rows ≤ m.rows
  cols : m.cols = cols
  get? : ∀ row col, row < m.rows → col < m.cols → m.get? row col = some .zero

theorem Zeroed.agree {rows cols : Nat} {m w : FeatureMatrix} (hm : m.Zeroed rows cols)
    (hw : w.Zeroed rows cols) : m.AgreeBelow rows w where
  rows := hm.rows
  twinRows := hw.rows
  cols := hw.cols.trans hm.cols.symm
  get? row hrow col := by
    have hcols : w.cols = m.cols := hw.cols.trans hm.cols.symm
    have hrowM : row < m.rows := Nat.lt_of_lt_of_le hrow hm.rows
    have hrowW : row < w.rows := Nat.lt_of_lt_of_le hrow hw.rows
    by_cases hcol : col < m.cols
    · rw [hm.get? row col hrowM hcol, hw.get? row col hrowW (by omega)]
    · rw [get?_of_not_lt (by omega), get?_of_not_lt (by omega)]

theorem get?_replicate {rows cols row col : Nat} {h : MatrixFits rows cols} (hrow : row < rows)
    (hcol : col < cols) :
    get? ⟨rows, cols, .replicate (rows * cols) .zero, h⟩ row col = some .zero := by
  rw [get?, dif_pos ⟨hrow, hcol⟩]
  congr 1
  exact Vector.getElem_replicate (place_lt hrow hcol)

theorem zeroed_reset (m : FeatureMatrix) : m.reset.Zeroed m.rows m.cols :=
  ⟨Nat.le_refl m.rows, rfl, fun _ _ hrow hcol => get?_replicate hrow hcol⟩

theorem zero?_zeroed {rows cols : Nat} (h : MatrixFits rows cols) :
    ∃ m, zero? rows cols = some m ∧ m.Zeroed rows cols := by
  refine ⟨⟨rows, cols, .replicate _ .zero, h⟩, ?_, ?_⟩
  · rw [zero?, if_pos h, zero, dif_pos h]
  · exact ⟨Nat.le_refl rows, rfl, fun _ _ hrow hcol => get?_replicate hrow hcol⟩

theorem recycle?_zeroed (reuse : Option FeatureMatrix) {rows cols : Nat}
    (h : MatrixFits rows cols) :
    ∃ m, recycle? reuse rows cols = some m ∧ m.Zeroed rows cols := by
  cases reuse with
  | none => exact zero?_zeroed h
  | some old =>
    by_cases hfits : old.fits rows cols = true
    · obtain ⟨hrows, hcols⟩ : rows ≤ old.rows ∧ old.cols = cols := by
        simpa [fits] using hfits
      obtain ⟨_, _, hget⟩ := old.zeroed_reset
      exact ⟨old.reset, if_pos hfits, hrows, hcols, hget⟩
    · obtain ⟨m, hm, hzeroed⟩ := zero?_zeroed h
      exact ⟨m, (if_neg hfits).trans hm, hzeroed⟩

theorem recycle?_tooLarge (reuse : Option FeatureMatrix) {rows cols : Nat}
    (h : ¬MatrixFits rows cols) : recycle? reuse rows cols = none := by
  have hzero : zero? rows cols = none := if_neg h
  cases reuse with
  | none => exact hzero
  | some old =>
    have hfits : ¬old.fits rows cols = true := by
      intro hfits
      obtain ⟨hrows, rfl⟩ : rows ≤ old.rows ∧ old.cols = cols := by
        simpa [fits] using hfits
      obtain ⟨hentries, hsides⟩ := old.fitsMemory
      apply h
      constructor
      · exact Nat.lt_of_le_of_lt (Nat.mul_le_mul_right old.cols hrows) hentries
      · omega
    exact (if_neg hfits).trans hzero

def setAll? (m : FeatureMatrix) (writes : List (Nat × FeatureWrite)) : Option FeatureMatrix :=
  writes.foldlM (fun m write => m.set? write.1 write.2.ordinal write.2.score) m

theorem set?_agree {count row col : Nat} {m w : FeatureMatrix} (h : m.AgreeBelow count w)
    (hrow : row < count) (hcol : col < m.cols) (score : Binary32) :
    ∃ after twin, m.set? row col score = some after ∧ w.set? row col score = some twin ∧
      after.cols = m.cols ∧ after.AgreeBelow count twin := by
  obtain ⟨hrows, hrowsW, hcols, hget⟩ := h
  obtain ⟨after, hafter⟩ := set?_total (Nat.lt_of_lt_of_le hrow hrows) hcol score
  have hcolW : col < w.cols := by rwa [hcols]
  obtain ⟨twin, htwin⟩ := set?_total (Nat.lt_of_lt_of_le hrow hrowsW) hcolW score
  obtain ⟨_, hrows', hcols', _⟩ := set?_eq_some hafter
  obtain ⟨_, hrowsW', hcolsW', _⟩ := set?_eq_some htwin
  refine ⟨after, twin, hafter, htwin, hcols', ?_⟩
  constructor
  · rwa [hrows']
  · rwa [hrowsW']
  · rw [hcolsW', hcols', hcols]
  · intro other hother next
    rw [get?_set? hafter, get?_set? htwin, hget other hother]

theorem setAll?_agree {count : Nat} {writes : List (Nat × FeatureWrite)} {m w : FeatureMatrix}
    (h : m.AgreeBelow count w)
    (hwrites : ∀ write ∈ writes, write.1 < count ∧ write.2.ordinal < m.cols) :
    ∃ after twin, m.setAll? writes = some after ∧ w.setAll? writes = some twin ∧
      after.cols = m.cols ∧ after.AgreeBelow count twin := by
  apply foldlM_related (fun after twin : FeatureMatrix =>
    after.cols = m.cols ∧ after.AgreeBelow count twin) _ ⟨rfl, h⟩
  rintro write hwrite next other ⟨hcols, hagree⟩
  obtain ⟨hrow, hcol⟩ := hwrites write hwrite
  rw [← hcols] at hcol
  obtain ⟨after, twin, hafter, htwin, hcols', hagree'⟩ := set?_agree hagree hrow hcol write.2.score
  exact ⟨after, twin, hafter, htwin, hcols'.trans hcols, hagree'⟩

theorem AgreeBelow.row?_eq {count row : Nat} {m w : FeatureMatrix} (h : m.AgreeBelow count w)
    (hrow : row < count) : ∃ scores, m.row? row = some scores ∧ w.row? row = some scores ∧
      scores.size = m.cols := by
  obtain ⟨scores, hscores, hsize, hget⟩ := row?_of_lt (Nat.lt_of_lt_of_le hrow h.rows)
  obtain ⟨others, hothers, _, hgetW⟩ := row?_of_lt (Nat.lt_of_lt_of_le hrow h.twinRows)
  have heq : others = scores := by
    apply Array.ext_getElem?
    intro col
    rw [hget, hgetW, h.get? row hrow]
  exact ⟨scores, hscores, by rw [hothers, heq], hsize⟩

end FeatureMatrix

namespace Ranker

variable {kind : VectorKind}

/-- Rows written into a matrix that was taken over score as in a new one. -/
theorem newMatrix?_agree {r : Ranker kind} (h : r.Built) (reuse : Option FeatureMatrix)
    {candidates : Nat} (hfits : MatrixFits (r.batchSize candidates) r.featureCount) :
    ∃ handed fresh, r.newMatrix? reuse candidates = some handed ∧
      r.newMatrix? none candidates = some fresh ∧
      handed.Zeroed (r.batchSize candidates) r.featureCount ∧
      ∀ writes : List (Nat × FeatureWrite),
        (∀ write ∈ writes, write.1 < r.batchSize candidates ∧ write.2.ordinal < r.featureCount) →
        ∃ after twin, handed.setAll? writes = some after ∧ fresh.setAll? writes = some twin ∧
          ∀ row < r.batchSize candidates, ∃ score,
            r.rowScore? after row = some score ∧ r.rowScore? twin row = some score := by
  obtain ⟨handed, hhanded, hzeroed⟩ := FeatureMatrix.recycle?_zeroed reuse hfits
  obtain ⟨fresh, hfresh, hzeroedFresh⟩ := FeatureMatrix.recycle?_zeroed none hfits
  refine ⟨handed, fresh, hhanded, hfresh, hzeroed, ?_⟩
  intro writes hwrites
  rw [← hzeroed.cols] at hwrites
  obtain ⟨after, twin, hafter, htwin, hcols, hagree⟩ :=
    FeatureMatrix.setAll?_agree (hzeroed.agree hzeroedFresh) hwrites
  refine ⟨after, twin, hafter, htwin, ?_⟩
  intro row hrow
  obtain ⟨scores, hscores, hscoresTwin, hsize⟩ := hagree.row?_eq hrow
  have hcovers : r.featureCount ≤ scores.size :=
    Nat.le_of_eq ((hsize.trans hcols).trans hzeroed.cols).symm
  obtain ⟨score, hscore⟩ := h.total.2 scores hcovers
  refine ⟨score, ?_, ?_⟩
  · rw [rowScore?, hscores, Option.bind_some, hscore]
  · rw [rowScore?, hscoresTwin, Option.bind_some, hscore]

/-- A vector or matrix that was used before is handed out as a new one would be. -/
theorem recycling_never_leaks (kind : VectorKind) :
    (∀ (r : Ranker kind) (reuse : Option (FeatureVector kind)), (∀ old ∈ reuse, old.InMemory) →
      r.featureCount < slotBound →
      ∃ handed, r.newVector? reuse = some handed ∧ handed.Blank r.featureCount) ∧
    (∀ (r : Ranker kind) (reuse : Option (FeatureVector kind)), (∀ old ∈ reuse, old.InMemory) →
      slotBound ≤ r.featureCount → r.newVector? reuse = none) ∧
    (∀ (r : Ranker kind) (old : FeatureVector kind) (writes : List FeatureWrite), r.Built →
      old.InMemory → r.featureCount < slotBound →
      (∀ write ∈ writes, write.ordinal < r.featureCount) →
      ∃ score v w, r.scoreAnew (some old) writes = some (score, v) ∧
        r.scoreAnew none writes = some (score, w)) ∧
    (∀ (reuse : Option (FeatureVector kind)) (candidates : List (Ranker kind × List FeatureWrite)),
      (∀ old ∈ reuse, old.InMemory) →
      (∀ candidate ∈ candidates, candidate.1.Built ∧
        ∀ write ∈ candidate.2, write.ordinal < candidate.1.featureCount) →
      scoreRecycling reuse candidates =
        candidates.mapM fun candidate => (candidate.1.scoreAnew none candidate.2).map (·.1)) ∧
    (∀ (r : Ranker kind) (reuse : Option FeatureMatrix) (candidates : Nat), r.Built →
      MatrixFits (r.batchSize candidates) r.featureCount →
      ∃ handed fresh, r.newMatrix? reuse candidates = some handed ∧
        r.newMatrix? none candidates = some fresh ∧
        handed.Zeroed (r.batchSize candidates) r.featureCount ∧
        ∀ writes : List (Nat × FeatureWrite),
          (∀ write ∈ writes, write.1 < r.batchSize candidates ∧ write.2.ordinal < r.featureCount) →
          ∃ after twin, handed.setAll? writes = some after ∧ fresh.setAll? writes = some twin ∧
            ∀ row < r.batchSize candidates, ∃ score,
              r.rowScore? after row = some score ∧ r.rowScore? twin row = some score) ∧
    ∀ (r : Ranker kind) (reuse : Option FeatureMatrix) (candidates : Nat),
      ¬MatrixFits (r.batchSize candidates) r.featureCount → r.newMatrix? reuse candidates = none := by
  refine ⟨?_, ?_, ?_, ?_, ?_, ?_⟩
  · intro r reuse hreuse hcount
    exact newVector?_blank hreuse hcount
  · intro r reuse hreuse hcount
    exact newVector?_tooLarge hreuse hcount
  · intro r old writes h hold hcount hwrites
    obtain ⟨score, v, w, hscore, htwin, _⟩ :=
      scoreAnew_agree h hcount hwrites hold.some FeatureVector.inMemory_none
    exact ⟨score, v, w, hscore, htwin⟩
  · intro reuse candidates hreuse h
    exact scoreRecycling_eq h hreuse
  · intro r reuse candidates h hfits
    exact newMatrix?_agree h reuse hfits
  · intro r reuse candidates hfits
    exact FeatureMatrix.recycle?_tooLarge reuse hfits

def oneWeight : Ranker (.plain .dense) := .linear #[⟨0x3f800000⟩]

def usedVector : FeatureVector (.plain .dense) := .plain #[.nan, .infinity, .nan]

theorem recycling_never_leaks_alternating :
    scoreRecycling (some usedVector)
        [(halvedWeights, [⟨1, ⟨0x40000000⟩⟩]), (oneWeight, []), (halvedWeights, [⟨0, .infinity⟩])] =
      some [⟨0x40000000⟩, .zero, .infinity] := by
  have hone : oneWeight.Built := .linear _
  have hnormalize : (linear #[⟨0x3f800000⟩, ⟨0x40000000⟩]).normalize halvedTable =
      .ok halvedWeights := rfl
  have hhalved : halvedWeights.Built := .normalizing (.linear _) hnormalize
  have hused : usedVector.InMemory := by decide
  rw [(recycling_never_leaks (.plain .dense)).2.2.2.1 (some usedVector) _ hused.some]
  · decide +kernel
  · simp only [List.forall_mem_cons, List.not_mem_nil, IsEmpty.forall_iff, implies_true, and_true]
    refine ⟨⟨hhalved, by decide⟩, hone, hhalved, by decide⟩

end Ranker

end Relevance
