import Relevance.Proofs.BuildRuns
import Relevance.Proofs.EncodedScores
import Relevance.Ranker.Basic

namespace Relevance

/-- A fold comes to its end if every step keeps a property and has a result under it. -/
theorem foldlM_total {α β : Type} {step : β → α → Option β} (P : β → Prop) {xs : List α}
    (h : ∀ x ∈ xs, ∀ b, P b → ∃ next, step b x = some next ∧ P next) {b : β} (hb : P b) :
    ∃ last, xs.foldlM step b = some last ∧ P last := by
  induction xs generalizing b with
  | nil => exact ⟨b, rfl, hb⟩
  | cons x xs ih =>
    obtain ⟨hx, hxs⟩ := List.forall_mem_cons.1 h
    obtain ⟨next, hnext, hP⟩ := hx b hb
    rw [List.foldlM_cons, hnext]
    exact ih hxs hP

theorem foldlM_related {α β : Type} {step : β → α → Option β} (R : β → β → Prop) {xs : List α}
    (h : ∀ x ∈ xs, ∀ b c, R b c →
      ∃ next other, step b x = some next ∧ step c x = some other ∧ R next other)
    {b c : β} (hR : R b c) :
    ∃ last twin, xs.foldlM step b = some last ∧ xs.foldlM step c = some twin ∧ R last twin := by
  induction xs generalizing b c with
  | nil => exact ⟨b, c, rfl, rfl, hR⟩
  | cons x xs ih =>
    obtain ⟨hx, hxs⟩ := List.forall_mem_cons.1 h
    obtain ⟨next, other, hnext, hother, hR'⟩ := hx b c hR
    rw [List.foldlM_cons, List.foldlM_cons, hnext, hother]
    exact ih hxs hR'

theorem foldlM_congr {α β : Type} {step other : β → α → Option β} {xs : List α}
    (h : ∀ x ∈ xs, ∀ b, step b x = other b x) (b : β) : xs.foldlM step b = xs.foldlM other b := by
  induction xs generalizing b with
  | nil => rfl
  | cons x xs ih =>
    obtain ⟨hx, hxs⟩ := List.forall_mem_cons.1 h
    rw [List.foldlM_cons, List.foldlM_cons, hx]
    congr 1
    funext next
    exact ih hxs next

def FeatureSource.Covers (source : FeatureSource) (count : Nat) : Prop :=
  ∀ ordinal < count, ∃ score, source ordinal = some score

theorem FeatureSource.covers_ofRow {row : Array Binary32} {count : Nat} (h : count ≤ row.size) :
    (ofRow row).Covers count := by
  intro ordinal hlt
  exact ⟨row[ordinal], Array.getElem?_eq_getElem (by omega)⟩

theorem Tree.eval_total {source : FeatureSource} {count : Nat} (hsource : source.Covers count)
    {t : Tree} (h : ∀ feature ∈ t.features, feature < count) :
    ∃ output, t.eval source = some output := by
  induction t with
  | leaf output => exact ⟨output, rfl⟩
  | split feature threshold left right ihl ihr =>
    simp only [features, List.forall_mem_cons, List.forall_mem_append] at h
    obtain ⟨hfeature, hleft, hright⟩ := h
    obtain ⟨score, hscore⟩ := hsource feature hfeature
    simp only [eval, hscore]
    split
    · exact ihl hleft
    · exact ihr hright

theorem Ensemble.rawScore_total {e : Ensemble} {source : FeatureSource}
    (hsource : source.Covers e.featureCount) : ∃ score, e.rawScore source = some score := by
  have hstep : ∀ term ∈ e.terms, ∀ sum, True → ∃ next,
      ((term.tree.eval source).map fun output => sum + term.weight * output) = some next ∧
        True := by
    intro term hterm sum _
    obtain ⟨output, houtput⟩ := Tree.eval_total hsource (e.features_lt term hterm)
    refine ⟨sum + term.weight * output, ?_, trivial⟩
    rw [houtput, Option.map_some]
  obtain ⟨score, hscore, _⟩ := foldlM_total (fun _ => True) hstep trivial
  exact ⟨score, hscore⟩

theorem Ensemble.predict_total {e : Ensemble} {source : FeatureSource}
    (hsource : source.Covers e.featureCount) : ∃ score, e.predict source = some score := by
  obtain ⟨raw, hraw⟩ := rawScore_total hsource
  exact ⟨e.objective.transform raw, by rw [predict, hraw, Option.map_some]⟩

theorem TreeModel.Converted.predict_total {model : TreeModel} (h : model.Converted)
    {source : FeatureSource} (hsource : source.Covers model.featureCount) :
    ∃ score, model.predict source = some score := by
  obtain ⟨e, hfrom⟩ := h.convertedFrom
  rw [hfrom.featureCount_eq] at hsource
  obtain ⟨score, hscore⟩ := Ensemble.predict_total hsource
  obtain ⟨found, hfound, _⟩ := hfrom.predict_of_ensemble hscore
  exact ⟨found, hfound⟩

namespace NormalizerTable

theorem le_last (table : NormalizerTable) {last : Nat} (h : table.last? = some last)
    {entry : Nat × Normalizer} (hentry : entry ∈ table.entries) : entry.1 ≤ last := by
  obtain ⟨others, hordinals⟩ := List.getLast?_eq_some_iff.1 h
  have hascending : table.ordinals.Pairwise (· < ·) := List.pairwise_map.2 table.ascending
  have hmem : entry.1 ∈ table.ordinals := List.mem_map_of_mem hentry
  rw [hordinals] at hascending hmem
  rcases List.mem_append.1 hmem with hmem | hmem
  · exact Nat.le_of_lt ((List.pairwise_append.1 hascending).2.2 _ hmem _ List.mem_cons_self)
  · exact Nat.le_of_eq (List.mem_singleton.1 hmem)

variable {table : NormalizerTable} {count : Nat}

theorem normalizeRow?_total (h : ∀ entry ∈ table.entries, entry.1 < count) {row : Array Binary32}
    (hrow : count ≤ row.size) :
    ∃ normalized, table.normalizeRow? row = some normalized ∧ count ≤ normalized.size := by
  apply foldlM_total (fun row : Array Binary32 => count ≤ row.size) _ hrow
  intro entry hentry row hrow
  have hlt : entry.1 < row.size := Nat.lt_of_lt_of_le (h entry hentry) hrow
  exact ⟨row.set entry.1 (entry.2.normalize row[entry.1]), dif_pos hlt,
    by rwa [Array.size_set]⟩

end NormalizerTable

namespace FeatureVector

variable {kind : VectorKind}

theorem set?_total (v : FeatureVector kind) (write : FeatureWrite) (h : write.ordinal < v.size) :
    ∃ after, v.set? write = some after ∧ after.size = v.size := by
  induction v with
  | plain scores =>
    refine ⟨.plain (scores.set write.ordinal write.score h), dif_pos h, ?_⟩
    exact Array.size_set h
  | logged inner log ih =>
    obtain ⟨after, hset, hsize⟩ := ih h
    exact ⟨.logged after (log.accept write), by rw [set?, hset, Option.map_some], hsize⟩

theorem covers_get? {v : FeatureVector kind} {count : Nat} (h : count ≤ v.size) :
    v.get?.Covers count :=
  FeatureSource.covers_ofRow h

theorem size_reset (v : FeatureVector kind) : v.reset.size = v.size := by
  induction v with
  | plain scores => exact Array.size_replicate
  | logged inner log ih => exact ih

theorem blank?_of_lt (storage : Storage) {size : Nat} (h : size < slotBound) :
    blank? storage size = some (.plain (Array.replicate size storage.unset)) := by
  rw [blank?, slots?, if_pos h, Option.map_some]

theorem blank?_of_le (storage : Storage) {size : Nat} (h : slotBound ≤ size) :
    blank? storage size = none := by
  rw [blank?, slots?, if_neg (Nat.not_lt_of_le h), Option.map_none]

theorem blank?_unset {storage : Storage} {size : Nat} {v : FeatureVector (.plain storage)}
    (h : blank? storage size = some v) :
    v.size = size ∧ ∀ ordinal < size, v.get? ordinal = some storage.unset := by
  rcases Nat.lt_or_ge size slotBound with hlt | hge
  · rw [blank?_of_lt storage hlt] at h
    cases h
    apply And.intro Array.size_replicate
    intro ordinal hordinal
    exact (Array.getElem?_replicate ..).trans (if_pos hordinal)
  · rw [blank?_of_le storage hge] at h
    cases h

theorem size_recycle? {storage : Storage} {reuse : Option (FeatureVector (.plain storage))}
    {count : Nat} {v : FeatureVector (.plain storage)} (h : recycle? reuse count = some v) :
    count ≤ v.size := by
  have hblank (h : blank? storage count = some v) : count ≤ v.size :=
    Nat.le_of_eq (blank?_unset h).1.symm
  cases reuse with
  | none => exact hblank h
  | some old =>
    rw [recycle?] at h
    split at h
    · cases h
      rwa [size_reset]
    · exact hblank h

end FeatureVector

theorem NormalizerTable.normalizeVector?_total {table : NormalizerTable} {count : Nat}
    (h : ∀ entry ∈ table.entries, entry.1 < count) {kind : VectorKind} {v : FeatureVector kind}
    (hv : count ≤ v.size) :
    ∃ normalized, table.normalizeVector? v = some normalized ∧ normalized.size = v.size := by
  apply foldlM_total (fun normalized : FeatureVector kind => normalized.size = v.size) _ rfl
  intro entry hentry current hsize
  have hlt : entry.1 < current.size := by
    rw [hsize]
    exact Nat.lt_of_lt_of_le (h entry hentry) hv
  obtain ⟨raw, hraw⟩ := FeatureVector.covers_get? (Nat.le_refl current.size) entry.1 hlt
  obtain ⟨after, hset, hafter⟩ := current.set?_total ⟨entry.1, entry.2.normalize raw⟩ hlt
  refine ⟨after, ?_, hafter.trans hsize⟩
  change (current.get? entry.1).bind _ = _
  rw [hraw, Option.bind_some, hset]

namespace Ranker

/-- Rankers that the public constructors build. -/
inductive Built : {kind : VectorKind} → Ranker kind → Prop
  | linear (weights : Array Binary32) : Built (.linear weights)
  | null (storage : Storage) (featureCount : Nat) : Built (.null storage featureCount)
  | naive (e : Ensemble) : Built (.tree (.naive e))
  | flat {e : Ensemble} {f : FlatEnsemble} (h : FlatEnsemble.ofEnsemble e = .ok f) :
      Built (.tree (.flat f))
  | packed {e : Ensemble} {p : PackedEnsemble} (h : PackedEnsemble.ofEnsemble e = .ok p) :
      Built (.tree (.packed p))
  | loaded {trees : List Tree} {weights : List Binary32} {featureCount : Nat} {config : ModelConfig}
      {model : TreeModel}
      (h : (TreeModel.load trees weights featureCount config).outcome.1 = .ok model) :
      Built (.tree model)
  | normalizing {kind : VectorKind} {inner r : Ranker kind} {table : NormalizerTable}
      (hinner : Built inner) (h : inner.normalize table = .ok r) : Built r
  | logging {kind : VectorKind} {inner : Ranker kind} (log : WriteLog) (hinner : Built inner) :
      Built (.logging inner log)

theorem normalize_ok {kind : VectorKind} {inner r : Ranker kind} {table : NormalizerTable}
    (h : inner.normalize table = .ok r) :
    r = .normalizing inner table ∧ ∀ entry ∈ table.entries, entry.1 < inner.featureCount := by
  rw [normalize] at h
  split at h
  · rename_i last hlast
    split at h
    · exact nomatch h
    · rename_i hlt
      constructor
      · exact (Except.ok.inj h).symm
      intro entry hentry
      exact Nat.lt_of_le_of_lt (table.le_last hlast hentry) (Nat.lt_of_not_le hlt)
  · rename_i hlast
    have hempty : table.entries = [] := by
      rwa [NormalizerTable.last?, List.getLast?_eq_none_iff, NormalizerTable.ordinals,
        List.map_eq_nil_iff] at hlast
    constructor
    · exact (Except.ok.inj h).symm
    intro entry hentry
    rw [hempty] at hentry
    exact absurd hentry List.not_mem_nil

theorem size_newVector? {kind : VectorKind} {r : Ranker kind} {reuse : Option (FeatureVector kind)}
    {v : FeatureVector kind} (h : r.newVector? reuse = some v) : r.featureCount ≤ v.size := by
  induction r with
  | linear weights => exact FeatureVector.size_recycle? h
  | null storage featureCount => exact FeatureVector.size_recycle? h
  | tree model => exact FeatureVector.size_recycle? h
  | normalizing inner table ih => exact ih h
  | logging inner log ih =>
    cases reuse with
    | none =>
      obtain ⟨handed, hhanded, rfl⟩ := Option.map_eq_some_iff.1 h
      exact ih hhanded
    | some old =>
      cases old with
      | logged old log =>
        obtain ⟨handed, hhanded, rfl⟩ := Option.map_eq_some_iff.1 h
        exact ih hhanded

theorem tree_total {model : TreeModel} (h : model.Converted) :
    (∀ v : FeatureVector (.plain .dense), model.featureCount ≤ v.size →
      ∃ score after, (tree model).score v = some (score, after) ∧ after.size = v.size) ∧
    ∀ row : Array Binary32, model.featureCount ≤ row.size →
      ∃ score, (tree model).scoreRow row = some score := by
  constructor
  · intro v hv
    obtain ⟨score, hscore⟩ := h.predict_total (FeatureVector.covers_get? hv)
    exact ⟨score, v, by rw [Ranker.score, hscore, Option.map_some], rfl⟩
  · intro row hrow
    exact h.predict_total (FeatureSource.covers_ofRow hrow)

theorem Built.total {kind : VectorKind} {r : Ranker kind} (h : r.Built) :
    (∀ v : FeatureVector kind, r.featureCount ≤ v.size →
      ∃ score after, r.score v = some (score, after) ∧ after.size = v.size) ∧
    ∀ row : Array Binary32, r.featureCount ≤ row.size → ∃ score, r.scoreRow row = some score := by
  induction h with
  | linear weights =>
    exact ⟨fun v _ => ⟨dot weights v.scores, v, rfl, rfl⟩, fun row _ => ⟨dot weights row, rfl⟩⟩
  | null storage featureCount => exact ⟨fun v _ => ⟨.zero, v, rfl, rfl⟩, fun row _ => ⟨.zero, rfl⟩⟩
  | naive e => exact tree_total (.naive e)
  | flat h => exact tree_total (.flat h)
  | packed h => exact tree_total (.packed h)
  | loaded h => exact tree_total (TreeModel.converted_of_load h)
  | @normalizing kind inner r table hinner h ih =>
    obtain ⟨rfl, hlt⟩ := normalize_ok h
    obtain ⟨ihVector, ihRow⟩ := ih
    -- What is normalized keeps its size, so the inner ranker finds all its features.
    constructor
    · intro v hv
      obtain ⟨normalized, hnormalized, hsize⟩ := NormalizerTable.normalizeVector?_total hlt hv
      obtain ⟨score, after, hscore, hafter⟩ := ihVector normalized (by rwa [hsize])
      exact ⟨score, after, by rw [Ranker.score, hnormalized, Option.bind_some, hscore],
        hafter.trans hsize⟩
    · intro row hrow
      obtain ⟨normalized, hnormalized, hsize⟩ := NormalizerTable.normalizeRow?_total hlt hrow
      obtain ⟨score, hscore⟩ := ihRow normalized hsize
      exact ⟨score, by rw [scoreRow, hnormalized, Option.bind_some, hscore]⟩
  | @logging kind inner log hinner ih =>
    obtain ⟨ihVector, ihRow⟩ := ih
    constructor
    · intro v hv
      cases v with
      | logged v log =>
        obtain ⟨score, after, hscore, hsize⟩ := ihVector v hv
        exact ⟨score, .logged after log, by rw [Ranker.score, hscore, Option.map_some], hsize⟩
    · exact ihRow

/-- A ranker scores every vector and every row with a slot for each of its features. -/
theorem scoring_never_faults {kind : VectorKind} {r : Ranker kind} (h : r.Built) :
    (∀ v : FeatureVector kind, r.featureCount ≤ v.size →
      ∃ score after, r.score v = some (score, after) ∧ after.size = v.size) ∧
    (∀ reuse v, r.newVector? reuse = some v →
      ∃ score after, r.score v = some (score, after) ∧ after.size = v.size) ∧
    ∀ row : Array Binary32, r.featureCount ≤ row.size → ∃ score, r.scoreRow row = some score :=
  ⟨h.total.1, fun _ v hnew => h.total.1 v (size_newVector? hnew), h.total.2⟩

def mixedTable : NormalizerTable := .ofList [(1, .logistic), (0, .identity)]

def mixedTower : Ranker (.logged (.plain .dense)) :=
  .logging (.normalizing (.tree (.packed .mixed)) mixedTable) (.recorder [] 0)

theorem scoring_never_faults_mixed :
    mixedTower.Built ∧
      (∀ v : FeatureVector (.logged (.plain .dense)), 2 ≤ v.size →
        ∃ score after, mixedTower.score v = some (score, after) ∧ after.size = v.size) ∧
      (∀ reuse v, mixedTower.newVector? reuse = some v →
        ∃ score after, mixedTower.score v = some (score, after) ∧ after.size = v.size) ∧
      ∀ row : Array Binary32, 2 ≤ row.size → ∃ score, mixedTower.scoreRow row = some score :=
  have hpacked : PackedEnsemble.ofEnsemble mixedEnsemble = .ok .mixed := by decide +kernel
  have hnormalize : normalize (.tree (.packed .mixed)) mixedTable =
      .ok (.normalizing (.tree (.packed .mixed)) mixedTable) := rfl
  have h : mixedTower.Built := .logging _ (.normalizing (.packed hpacked) hnormalize)
  ⟨h, scoring_never_faults h⟩

end Ranker

end Relevance
