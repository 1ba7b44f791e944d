import Relevance.Proofs.LastNormalizer
import Relevance.Proofs.ScoringTotal

namespace Relevance

def Normalizer.normalizedBy : Option Normalizer → Binary32 → Binary32
  | none, raw => raw
  | some normalizer, raw => normalizer.normalize raw

open Normalizer

/-- A step that replaces the score in one slot; `Frame` relates what the slots do not show. -/
structure ReplacesSlot {σ : Type} (get? : σ → FeatureSource) (Frame : σ → σ → Prop)
    (step : σ → Nat × Normalizer → Option σ) : Prop where
  refl (s : σ) : Frame s s
  trans {s t u : σ} (hst : Frame s t) (htu : Frame t u) : Frame s u
  missing {s : σ} {entry : Nat × Normalizer} (h : get? s entry.1 = none) : step s entry = none
  present {s : σ} {entry : Nat × Normalizer} {raw : Binary32} (h : get? s entry.1 = some raw) :
    ∃ next, step s entry = some next ∧ Frame s next ∧ ∀ ordinal,
      get? next ordinal =
        if ordinal = entry.1 then some (entry.2.normalize raw) else get? s ordinal

namespace ReplacesSlot

variable {σ : Type} {get? : σ → FeatureSource} {Frame : σ → σ → Prop}
  {step : σ → Nat × Normalizer → Option σ}

theorem foldlM_present (laws : ReplacesSlot get? Frame step) {entries : List (Nat × Normalizer)}
    (hentries : entries.Pairwise (·.1 < ·.1)) {s : σ}
    (h : ∀ entry ∈ entries, ∃ raw, get? s entry.1 = some raw) :
    ∃ last, entries.foldlM step s = some last ∧ Frame s last ∧ ∀ ordinal,
      get? last ordinal = (get? s ordinal).map (normalizedBy (entries.lookup ordinal)) := by
  induction entries generalizing s with
  | nil =>
    refine ⟨s, rfl, laws.refl s, ?_⟩
    intro ordinal
    cases get? s ordinal with
    | none => rfl
    | some raw => rfl
  | cons entry rest ih =>
    obtain ⟨hlt, hrest⟩ := List.pairwise_cons.1 hentries
    obtain ⟨raw, hraw⟩ := h entry List.mem_cons_self
    obtain ⟨next, hstep, hframe, hnext⟩ := laws.present hraw
    -- The ordinals that follow are larger, so their slots are still as they were.
    have hpresent : ∀ other ∈ rest, ∃ raw, get? next other.1 = some raw := by
      intro other hother
      rw [hnext, if_neg (Nat.ne_of_gt (hlt other hother))]
      exact h other (List.mem_cons_of_mem _ hother)
    obtain ⟨last, hlast, hframe', hget⟩ := ih hrest hpresent
    refine ⟨last, by rw [List.foldlM_cons, hstep]; exact hlast, laws.trans hframe hframe', ?_⟩
    intro ordinal
    rw [hget, hnext, NormalizerTable.lookup_cons_eq]
    by_cases heq : ordinal = entry.1
    · have hnone : rest.lookup entry.1 = none := by
        rw [List.lookup_eq_none_iff]
        intro other hother
        exact bne_iff_ne.2 (Nat.ne_of_lt (hlt other hother))
      rw [heq, if_pos rfl, if_pos rfl, hnone, hraw]
      rfl
    · rw [if_neg heq, if_neg heq]

theorem foldlM_missing (laws : ReplacesSlot get? Frame step) {entries : List (Nat × Normalizer)}
    {s : σ} {entry : Nat × Normalizer} (hentry : entry ∈ entries) (h : get? s entry.1 = none) :
    entries.foldlM step s = none := by
  induction entries generalizing s with
  | nil => exact absurd hentry List.not_mem_nil
  | cons first rest ih =>
    rw [List.foldlM_cons]
    cases hfirst : get? s first.1 with
    | none =>
      rw [laws.missing hfirst]
      rfl
    | some raw =>
      obtain ⟨next, hstep, _, hnext⟩ := laws.present hfirst
      -- A step before it neither makes the slot nor takes it for its own.
      have hne : entry.1 ≠ first.1 := by
        intro heq
        rw [heq, hfirst] at h
        exact nomatch h
      have hmem : entry ∈ rest := by
        rcases List.mem_cons.1 hentry with rfl | hmem
        · exact absurd rfl hne
        · exact hmem
      rw [hstep]
      apply ih hmem
      rw [hnext, if_neg hne, h]

end ReplacesSlot

namespace FeatureVector

variable {kind : VectorKind}

theorem get?_eq_some {v : FeatureVector kind} {ordinal : Nat} (h : ordinal < v.size) :
    ∃ raw, v.get? ordinal = some raw :=
  covers_get? (Nat.le_refl v.size) ordinal h

theorem get?_eq_none {v : FeatureVector kind} {ordinal : Nat} (h : v.size ≤ ordinal) :
    v.get? ordinal = none :=
  Array.getElem?_eq_none h

theorem lt_size_of_get? {v : FeatureVector kind} {ordinal : Nat} {score : Binary32}
    (h : v.get? ordinal = some score) : ordinal < v.size := by
  apply Nat.lt_of_not_le
  intro hle
  rw [get?_eq_none hle] at h
  exact nomatch h

theorem get?_set? {v after : FeatureVector kind} {write : FeatureWrite}
    (h : v.set? write = some after) (ordinal : Nat) :
    after.get? ordinal = if ordinal = write.ordinal then some write.score else v.get? ordinal := by
  induction v with
  | plain scores =>
    rw [set?] at h
    split at h
    · cases h
      change (scores.set write.ordinal write.score _)[ordinal]? = _
      rw [Array.getElem?_set]
      by_cases heq : ordinal = write.ordinal
      · rw [if_pos heq, if_pos heq.symm]
      · rw [if_neg heq, if_neg (Ne.symm heq)]
        rfl
    · cases h
  | logged inner log ih =>
    obtain ⟨inner, hinner, rfl⟩ := Option.map_eq_some_iff.1 h
    exact ih hinner

theorem replacesSlot :
    ReplacesSlot (σ := FeatureVector kind) get? (fun _ _ => True) fun v (ordinal, normalizer) => do
      let raw ← v.get? ordinal
      v.set? ⟨ordinal, normalizer.normalize raw⟩ where
  refl _ := trivial
  trans _ _ := trivial
  missing h := by
    change Option.bind (get? _ _) _ = none
    rw [h, Option.bind_none]
  present {v entry raw} h := by
    obtain ⟨after, hset, _⟩ :=
      v.set?_total ⟨entry.1, entry.2.normalize raw⟩ (lt_size_of_get? h)
    refine ⟨after, ?_, trivial, get?_set? hset⟩
    change Option.bind (get? _ _) _ = _
    rw [h, Option.bind_some, hset]

end FeatureVector

theorem FeatureSource.replacesSlot_ofRow :
    ReplacesSlot FeatureSource.ofRow (fun _ _ => True)
      fun (row : Array Binary32) (ordinal, normalizer) =>
        if h : ordinal < row.size then some (row.set ordinal (normalizer.normalize row[ordinal]))
        else none where
  refl _ := trivial
  trans _ _ := trivial
  missing h := dif_neg (Nat.not_lt_of_le (Array.getElem?_eq_none_iff.1 h))
  present {row entry raw} h := by
    obtain ⟨hlt, hraw⟩ := Array.getElem?_eq_some_iff.1 h
    refine ⟨row.set entry.1 (entry.2.normalize raw), ?_, trivial, ?_⟩
    · rw [← hraw]
      exact dif_pos hlt
    · intro ordinal
      rw [ofRow, Array.getElem?_set]
      by_cases heq : ordinal = entry.1
      · rw [if_pos heq, if_pos heq.symm]
      · rw [if_neg heq, if_neg (Ne.symm heq)]
        rfl

namespace NormalizerTable

variable {table : NormalizerTable}

theorem normalizeVector?_present {kind : VectorKind} {v : FeatureVector kind}
    (h : ∀ entry ∈ table.entries, entry.1 < v.size) :
    ∃ normalized, table.normalizeVector? v = some normalized ∧ ∀ ordinal,
      normalized.get? ordinal = (v.get? ordinal).map (normalizedBy (table.find? ordinal)) := by
  obtain ⟨normalized, hfold, _, hget⟩ := FeatureVector.replacesSlot.foldlM_present table.ascending
    (fun entry hentry => FeatureVector.get?_eq_some (h entry hentry))
  exact ⟨normalized, hfold, hget⟩

theorem normalizeRow?_present {row : Array Binary32}
    (h : ∀ entry ∈ table.entries, entry.1 < row.size) :
    ∃ normalized, table.normalizeRow? row = some normalized ∧ ∀ ordinal : Nat,
      normalized[ordinal]? = row[ordinal]?.map (normalizedBy (table.find? ordinal)) := by
  obtain ⟨normalized, hfold, _, hget⟩ :=
    FeatureSource.replacesSlot_ofRow.foldlM_present table.ascending
      (fun entry hentry => ⟨_, Array.getElem?_eq_getElem (h entry hentry)⟩)
  exact ⟨normalized, hfold, hget⟩

theorem normalizeRow?_missing {row : Array Binary32} {entry : Nat × Normalizer}
    (hentry : entry ∈ table.entries) (h : row.size ≤ entry.1) : table.normalizeRow? row = none :=
  FeatureSource.replacesSlot_ofRow.foldlM_missing hentry (Array.getElem?_eq_none h)

end NormalizerTable

end Relevance
