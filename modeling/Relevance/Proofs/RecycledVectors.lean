import Relevance.Proofs.DeclaredFeatures

namespace Relevance

namespace FeatureVector

variable {kind : VectorKind}

/-- Memory has room for a vector, as it has for every vector that there is. -/
def InMemory (v : FeatureVector kind) : Prop := v.size < slotBound

instance (v : FeatureVector kind) : Decidable v.InMemory :=
  inferInstanceAs (Decidable (_ < _))

theorem inMemory_none : ∀ old ∈ (none : Option (FeatureVector kind)), old.InMemory := by
  intro old hold
  exact nomatch hold

theorem InMemory.some {v : FeatureVector kind} (h : v.InMemory) : ∀ old ∈ some v, old.InMemory := by
  intro old hold
  rwa [← Option.some.inj hold]

structure Blank (count : Nat) (v : FeatureVector kind) : Prop where
  inMemory : v.InMemory
  covers : count ≤ v.size
  unset : ∀ ordinal, ordinal < v.size → v.get? ordinal = some kind.unset

theorem get?_reset (v : FeatureVector kind) {ordinal : Nat} (h : ordinal < v.size) :
    v.reset.get? ordinal = some kind.unset := by
  induction v with
  | plain scores => exact (Array.getElem?_replicate ..).trans (if_pos h)
  | logged inner log ih => exact ih h

theorem Blank.agree {count : Nat} {v w : FeatureVector kind} (hv : v.Blank count)
    (hw : w.Blank count) : v.get?.AgreeBelow count w.get? := by
  intro ordinal hlt
  exact ⟨kind.unset, hv.unset ordinal (Nat.lt_of_lt_of_le hlt hv.covers),
    hw.unset ordinal (Nat.lt_of_lt_of_le hlt hw.covers)⟩

theorem blank?_blank (storage : Storage) {size : Nat} (h : size < slotBound) :
    ∃ v, blank? storage size = some v ∧ v.Blank size := by
  have hblank := blank?_of_lt storage h
  obtain ⟨hsize, hunset⟩ := blank?_unset hblank
  apply Exists.intro _
  apply And.intro hblank
  constructor
  · rwa [InMemory, hsize]
  · exact Nat.le_of_eq hsize.symm
  · rwa [hsize]

theorem recycle?_blank {storage : Storage} {reuse : Option (FeatureVector (.plain storage))}
    {size : Nat} (hreuse : ∀ old ∈ reuse, old.InMemory) (h : size < slotBound) :
    ∃ v, recycle? reuse size = some v ∧ v.Blank size := by
  cases reuse with
  | none => exact blank?_blank storage h
  | some old =>
    by_cases hsize : size ≤ old.size
    · refine ⟨old.reset, if_pos hsize, ?_⟩
      constructor
      · rw [InMemory, size_reset]
        exact hreuse old rfl
      · rwa [size_reset]
      · intro ordinal hlt
        rw [size_reset] at hlt
        exact old.get?_reset hlt
    · obtain ⟨v, hv, hblank⟩ := blank?_blank storage h
      exact ⟨v, (if_neg hsize).trans hv, hblank⟩

theorem recycle?_tooLarge {storage : Storage} {reuse : Option (FeatureVector (.plain storage))}
    {size : Nat} (hreuse : ∀ old ∈ reuse, old.InMemory) (h : slotBound ≤ size) :
    recycle? reuse size = none := by
  have hblank : blank? storage size = none := blank?_of_le storage h
  cases reuse with
  | none => exact hblank
  | some old =>
    have hsize : ¬size ≤ old.size := by
      intro hle
      exact Nat.not_lt_of_le (Nat.le_trans h hle) (hreuse old rfl)
    exact (if_neg hsize).trans hblank

def setAll? (v : FeatureVector kind) (writes : List FeatureWrite) : Option (FeatureVector kind) :=
  writes.foldlM (fun v write => v.set? write) v

theorem set?_agree {count : Nat} {v w : FeatureVector kind}
    (h : v.get?.AgreeBelow count w.get?) {write : FeatureWrite} (hlt : write.ordinal < count) :
    ∃ after twin, v.set? write = some after ∧ w.set? write = some twin ∧
      after.size = v.size ∧ after.get?.AgreeBelow count twin.get? := by
  obtain ⟨raw, hv, hw⟩ := h write.ordinal hlt
  obtain ⟨after, hafter, hsize⟩ := v.set?_total write (lt_size_of_get? hv)
  obtain ⟨twin, htwin, _⟩ := w.set?_total write (lt_size_of_get? hw)
  refine ⟨after, twin, hafter, htwin, hsize, ?_⟩
  intro ordinal hordinal
  rw [get?_set? hafter, get?_set? htwin]
  by_cases heq : ordinal = write.ordinal
  · rw [if_pos heq, if_pos heq]
    exact ⟨write.score, rfl, rfl⟩
  · rw [if_neg heq, if_neg heq]
    exact h ordinal hordinal

theorem setAll?_agree {count : Nat} {writes : List FeatureWrite}
    (hwrites : ∀ write ∈ writes, write.ordinal < count) {v w : FeatureVector kind}
    (h : v.get?.AgreeBelow count w.get?) :
    ∃ after twin, v.setAll? writes = some after ∧ w.setAll? writes = some twin ∧
      after.size = v.size ∧ after.get?.AgreeBelow count twin.get? := by
  apply foldlM_related (fun after twin : FeatureVector kind =>
    after.size = v.size ∧ after.get?.AgreeBelow count twin.get?) _ ⟨rfl, h⟩
  rintro write hwrite next other ⟨hsize, hagree⟩
  obtain ⟨after, twin, hafter, htwin, hsize', hagree'⟩ := set?_agree hagree (hwrites write hwrite)
  exact ⟨after, twin, hafter, htwin, hsize'.trans hsize, hagree'⟩

end FeatureVector

namespace Ranker

variable {kind : VectorKind}

theorem newVector?_logging (inner : Ranker kind) (log : WriteLog)
    {reuse : Option (FeatureVector (.logged kind))} (hreuse : ∀ old ∈ reuse, old.InMemory) :
    ∃ (innerReuse : Option (FeatureVector kind)) (used : WriteLog),
      (∀ old ∈ innerReuse, old.InMemory) ∧
        (logging inner log).newVector? reuse =
          (inner.newVector? innerReuse).map (.logged · used.reset) := by
  cases reuse with
  | none =>
    exact ⟨none, log, FeatureVector.inMemory_none, by rw [newVector?]⟩
  | some old =>
    cases old with
    | logged old oldLog =>
      have hold : old.InMemory := hreuse (.logged old oldLog) rfl
      exact ⟨some old, oldLog, hold.some, by rw [newVector?]⟩

theorem newVector?_blank {r : Ranker kind} {reuse : Option (FeatureVector kind)}
    (hreuse : ∀ old ∈ reuse, old.InMemory) (h : r.featureCount < slotBound) :
    ∃ handed, r.newVector? reuse = some handed ∧ handed.Blank r.featureCount := by
  induction r with
  | linear weights => exact FeatureVector.recycle?_blank hreuse h
  | null storage featureCount => exact FeatureVector.recycle?_blank hreuse h
  | tree model => exact FeatureVector.recycle?_blank hreuse h
  | normalizing inner table ih => exact ih hreuse h
  | logging inner log ih =>
    obtain ⟨innerReuse, used, hinner, hnew⟩ := newVector?_logging inner log hreuse
    obtain ⟨handed, hhanded, hblank⟩ := ih hinner h
    refine ⟨.logged handed used.reset, by rw [hnew, hhanded, Option.map_some], ?_⟩
    exact ⟨hblank.inMemory, hblank.covers, hblank.unset⟩

theorem newVector?_tooLarge {r : Ranker kind} {reuse : Option (FeatureVector kind)}
    (hreuse : ∀ old ∈ reuse, old.InMemory) (h : slotBound ≤ r.featureCount) :
    r.newVector? reuse = none := by
  induction r with
  | linear weights => exact FeatureVector.recycle?_tooLarge hreuse h
  | null storage featureCount => exact FeatureVector.recycle?_tooLarge hreuse h
  | tree model => exact FeatureVector.recycle?_tooLarge hreuse h
  | normalizing inner table ih => exact ih hreuse h
  | logging inner log ih =>
    obtain ⟨innerReuse, used, hinner, hnew⟩ := newVector?_logging inner log hreuse
    rw [hnew, ih hinner h, Option.map_none]

def scoreAnew (r : Ranker kind) (reuse : Option (FeatureVector kind)) (writes : List FeatureWrite) :
    Option (Binary32 × FeatureVector kind) := do
  let v ← r.newVector? reuse
  let v ← v.setAll? writes
  r.score v

/-- What a vector was before does not show in the score. -/
theorem scoreAnew_agree {r : Ranker kind} (h : r.Built) (hcount : r.featureCount < slotBound)
    {writes : List FeatureWrite} (hwrites : ∀ write ∈ writes, write.ordinal < r.featureCount)
    {reuse other : Option (FeatureVector kind)} (hreuse : ∀ old ∈ reuse, old.InMemory)
    (hother : ∀ old ∈ other, old.InMemory) :
    ∃ score v w, r.scoreAnew reuse writes = some (score, v) ∧
      r.scoreAnew other writes = some (score, w) ∧ v.InMemory := by
  obtain ⟨handed, hhanded, hblank⟩ := newVector?_blank hreuse hcount
  obtain ⟨fresh, hfresh, hblankFresh⟩ := newVector?_blank hother hcount
  obtain ⟨written, twin, hwritten, htwin, hsize, hagree⟩ :=
    FeatureVector.setAll?_agree hwrites (hblank.agree hblankFresh)
  have hcovers : r.featureCount ≤ written.size := by
    rw [hsize]
    exact hblank.covers
  obtain ⟨score, v, hscore, hsizeScored⟩ := h.total.1 written hcovers
  -- The slots beyond the declared features may differ; they are not read.
  have hscores := h.score_congr hagree
  rw [hscore, Option.map_some] at hscores
  obtain ⟨⟨score', w⟩, hscore', rfl⟩ := Option.map_eq_some_iff.1 hscores.symm
  refine ⟨score', v, w, ?_, ?_, ?_⟩
  · rw [scoreAnew, hhanded]
    change (handed.setAll? writes).bind r.score = _
    rw [hwritten, Option.bind_some, hscore]
  · rw [scoreAnew, hfresh]
    change (fresh.setAll? writes).bind r.score = _
    rw [htwin, Option.bind_some, hscore']
  · rw [FeatureVector.InMemory, hsizeScored, hsize]
    exact hblank.inMemory

theorem scoreAnew_tooLarge {r : Ranker kind} (h : slotBound ≤ r.featureCount)
    {reuse : Option (FeatureVector kind)} (hreuse : ∀ old ∈ reuse, old.InMemory)
    (writes : List FeatureWrite) : r.scoreAnew reuse writes = none := by
  rw [scoreAnew, newVector?_tooLarge hreuse h]
  rfl

/-- Scores candidates one after the other, each vector being taken over from the one before. -/
def scoreRecycling :
    Option (FeatureVector kind) → List (Ranker kind × List FeatureWrite) → Option (List Binary32)
  | _, [] => some []
  | reuse, (r, writes) :: rest => do
    let (score, v) ← r.scoreAnew reuse writes
    let scores ← scoreRecycling (some v) rest
    return score :: scores

theorem scoreRecycling_eq {candidates : List (Ranker kind × List FeatureWrite)}
    (h : ∀ candidate ∈ candidates, candidate.1.Built ∧
      ∀ write ∈ candidate.2, write.ordinal < candidate.1.featureCount)
    {reuse : Option (FeatureVector kind)} (hreuse : ∀ old ∈ reuse, old.InMemory) :
    scoreRecycling reuse candidates =
      candidates.mapM fun candidate => (candidate.1.scoreAnew none candidate.2).map (·.1) := by
  induction candidates generalizing reuse with
  | nil => rfl
  | cons candidate rest ih =>
    obtain ⟨⟨hbuilt, hwrites⟩, hrest⟩ := List.forall_mem_cons.1 h
    obtain ⟨r, writes⟩ := candidate
    rw [scoreRecycling, List.mapM_cons]
    rcases Nat.lt_or_ge r.featureCount slotBound with hcount | hcount
    · obtain ⟨score, v, w, hscore, htwin, hv⟩ :=
        scoreAnew_agree hbuilt hcount hwrites hreuse FeatureVector.inMemory_none
      -- What is left in the vector goes on to the next candidate, where it does not show either.
      rw [hscore, htwin, ← ih hrest hv.some]
      rfl
    · rw [scoreAnew_tooLarge hcount hreuse, scoreAnew_tooLarge hcount FeatureVector.inMemory_none]
      rfl

end Ranker

end Relevance
