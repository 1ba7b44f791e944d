import Mathlib.Data.List.Forall2
import Relevance.Proofs.NormalizedRows

namespace Relevance

open Normalizer NormalizerTable

/-- The normalizers listed for each of the layers around a ranker, the outermost layer first. -/
abbrev NormalizerLayers := List (List (Nat × Normalizer))

namespace NormalizerLayers

def normalizeScore (layers : NormalizerLayers) (ordinal : Nat) (raw : Binary32) : Binary32 :=
  layers.foldl (fun score entries => normalizedBy (lastFor entries ordinal) score) raw

def normalizeRow (layers : NormalizerLayers) (row : Array Binary32) : Array Binary32 :=
  row.mapIdx layers.normalizeScore

def Below (layers : NormalizerLayers) (count : Nat) : Prop :=
  ∀ entries ∈ layers, ∀ entry ∈ entries, entry.1 < count

instance (layers : NormalizerLayers) (count : Nat) : Decidable (layers.Below count) :=
  inferInstanceAs (Decidable (∀ entries ∈ layers, ∀ entry ∈ entries, entry.1 < count))

/-- Lists that differ only in the order in which distinct ordinals come. -/
def SameListing (entries others : List (Nat × Normalizer)) : Prop :=
  ∀ ordinal, listedFor entries ordinal = listedFor others ordinal

theorem size_normalizeRow (layers : NormalizerLayers) (row : Array Binary32) :
    (layers.normalizeRow row).size = row.size :=
  Array.size_mapIdx

theorem normalizeRow_cons (entries : List (Nat × Normalizer)) (layers : NormalizerLayers)
    (row : Array Binary32) :
    normalizeRow (entries :: layers) row = layers.normalizeRow (normalizeRow [entries] row) := by
  rw [normalizeRow, normalizeRow, normalizeRow, Array.mapIdx_mapIdx]
  rfl

theorem normalizeScore_of_not_listed {layers : NormalizerLayers} {ordinal : Nat}
    (h : ∀ entries ∈ layers, ∀ entry ∈ entries, entry.1 ≠ ordinal) (raw : Binary32) :
    layers.normalizeScore ordinal raw = raw := by
  induction layers with
  | nil => rfl
  | cons entries layers ih =>
    obtain ⟨hentries, hlayers⟩ := List.forall_mem_cons.1 h
    have hnone : lastFor entries ordinal = none := by
      cases hlast : lastFor entries ordinal with
      | none => rfl
      | some normalizer => exact absurd rfl (hentries _ (mem_of_lastFor hlast))
    rw [normalizeScore, List.foldl_cons, hnone]
    exact ih hlayers

theorem normalizeRow?_ofList {entries : List (Nat × Normalizer)} {row : Array Binary32}
    (h : ∀ entry ∈ entries, entry.1 < row.size) :
    (ofList entries).normalizeRow? row = some (normalizeRow [entries] row) := by
  have htable : ∀ entry ∈ (ofList entries).entries, entry.1 < row.size :=
    (forall_ofList_iff (P := (· < row.size))).2 h
  obtain ⟨normalized, hnormalized, hget⟩ := normalizeRow?_present htable
  rw [hnormalized]
  congr 1
  apply Array.ext_getElem?
  intro ordinal
  rw [hget, find?_ofList, normalizeRow, Array.getElem?_mapIdx]
  rfl

theorem normalizeRow?_ofList_short {entries : List (Nat × Normalizer)} {row : Array Binary32}
    {entry : Nat × Normalizer} (hentry : entry ∈ entries) (h : row.size ≤ entry.1) :
    (ofList entries).normalizeRow? row = none := by
  obtain ⟨normalizer, hlast⟩ := exists_lastFor hentry
  rw [← find?_ofList, ← mem_entries_iff] at hlast
  exact normalizeRow?_missing hlast h

end NormalizerLayers

open NormalizerLayers

theorem NormalizerTable.normalizeVector?_plain {storage : Storage} (table : NormalizerTable)
    (row : Array Binary32) :
    table.normalizeVector? (.plain row : FeatureVector (.plain storage)) =
      (table.normalizeRow? row).map .plain := by
  rw [normalizeVector?, normalizeRow?]
  induction table.entries generalizing row with
  | nil => rfl
  | cons entry rest ih =>
    rw [List.foldlM_cons, List.foldlM_cons]
    by_cases hlt : entry.1 < row.size
    · have hraw : FeatureVector.get? (.plain row : FeatureVector (.plain storage)) entry.1 =
          some row[entry.1] := Array.getElem?_eq_getElem hlt
      have hset : FeatureVector.set? ⟨entry.1, entry.2.normalize row[entry.1]⟩
          (.plain row : FeatureVector (.plain storage)) =
          some (.plain (row.set entry.1 (entry.2.normalize row[entry.1]))) := dif_pos hlt
      simp only [hraw, hset, hlt, ↓reduceDIte, bind, Option.bind_some]
      exact ih _
    · have hraw : FeatureVector.get? (.plain row : FeatureVector (.plain storage)) entry.1 = none :=
        Array.getElem?_eq_none (Nat.le_of_not_lt hlt)
      simp only [hraw, hlt, ↓reduceDIte, bind, Option.bind_none, Option.map_none]

namespace Ranker

variable {kind : VectorKind}

/-- A ranker with layers of normalizers put around it one after the other, if all are accepted. -/
def tower (base : Ranker kind) : NormalizerLayers → Except ModelError (Ranker kind)
  | [] => .ok base
  | entries :: layers => do (← base.tower layers).normalize (.ofList entries)

theorem tower_cons {base r : Ranker kind} {entries : List (Nat × Normalizer)}
    {layers : NormalizerLayers} (h : base.tower (entries :: layers) = .ok r) :
    ∃ inner, base.tower layers = .ok inner ∧ r = .normalizing inner (.ofList entries) := by
  cases hinner : base.tower layers with
  | error cause =>
    rw [tower, hinner] at h
    exact nomatch h
  | ok inner =>
    rw [tower, hinner] at h
    exact ⟨inner, rfl, (normalize_ok h).1⟩

theorem tower_congr (base : Ranker kind) {layers others : NormalizerLayers}
    (h : List.Forall₂ SameListing layers others) : base.tower others = base.tower layers := by
  induction h with
  | nil => rfl
  | cons hentries _ ih => rw [tower, tower, ih, ofList_congr hentries]

/-- Whatever normalizes a row before it goes on inside runs the layers, the outermost first. -/
theorem run_tower {β : Type} (run : Ranker kind → Array Binary32 → Option β)
    (hrun : ∀ inner table row,
      run (.normalizing inner table) row = (table.normalizeRow? row).bind (run inner))
    {base r : Ranker kind} {layers : NormalizerLayers} (h : base.tower layers = .ok r)
    (row : Array Binary32) :
    (layers.Below row.size → run r row = run base (layers.normalizeRow row)) ∧
      ∀ entries ∈ layers, ∀ entry ∈ entries, row.size ≤ entry.1 → run r row = none := by
  induction layers generalizing r row with
  | nil =>
    cases h
    refine ⟨fun _ => ?_, fun entries hentries => absurd hentries List.not_mem_nil⟩
    have hrow : normalizeRow [] row = row := by
      apply Array.ext_getElem?
      intro ordinal
      rw [normalizeRow, Array.getElem?_mapIdx]
      exact Option.map_id_apply
    rw [hrow]
  | cons entries layers ih =>
    obtain ⟨inner, hinner, rfl⟩ := tower_cons h
    -- A layer keeps the length of the row, so the layers inside meet the same bound.
    by_cases hfits : ∀ entry ∈ entries, entry.1 < row.size
    · have hstep := hrun inner (.ofList entries) row
      rw [normalizeRow?_ofList hfits, Option.bind_some] at hstep
      obtain ⟨hbelow, hshort⟩ := ih hinner (normalizeRow [entries] row)
      rw [size_normalizeRow] at hbelow hshort
      constructor
      · intro hlayers
        rw [hstep, hbelow (List.forall_mem_cons.1 hlayers).2, ← normalizeRow_cons]
      · intro others hothers entry hentry hle
        rw [hstep]
        rcases List.mem_cons.1 hothers with rfl | hothers
        · exact absurd (hfits entry hentry) (Nat.not_lt_of_le hle)
        · exact hshort others hothers entry hentry hle
    · have hnone : run (.normalizing inner (.ofList entries)) row = none := by
        simp only [Classical.not_forall, Nat.not_lt] at hfits
        obtain ⟨entry, hentry, hle⟩ := hfits
        rw [hrun, normalizeRow?_ofList_short hentry hle]
        rfl
      constructor
      · intro hlayers
        exact absurd (List.forall_mem_cons.1 hlayers).1 hfits
      · intro others _ entry _ _
        exact hnone

inductive Unwrapped : {kind : VectorKind} → Ranker kind → Prop
  | linear (weights : Array Binary32) : Unwrapped (.linear weights)
  | null (storage : Storage) (featureCount : Nat) : Unwrapped (.null storage featureCount)
  | tree (model : TreeModel) : Unwrapped (.tree model)

theorem Unwrapped.score_plain {storage : Storage} {base : Ranker (.plain storage)}
    (h : base.Unwrapped) (row : Array Binary32) :
    base.score (.plain row) = (base.scoreRow row).map fun score => (score, .plain row) := by
  cases h with
  | linear weights => rfl
  | null storage featureCount => rfl
  | tree model => rfl

/-- A tower scores a row as its base does the row that the layers make of it. -/
theorem tower_scores_normalized {storage : Storage} {base r : Ranker (.plain storage)}
    (hbase : base.Unwrapped) {layers : NormalizerLayers} (h : base.tower layers = .ok r)
    (row : Array Binary32) :
    (layers.Below row.size →
      r.scoreRow row = base.scoreRow (layers.normalizeRow row) ∧
      r.score (.plain row) = (base.scoreRow (layers.normalizeRow row)).map fun score =>
        (score, .plain (layers.normalizeRow row))) ∧
    (∀ entries ∈ layers, ∀ entry ∈ entries, row.size ≤ entry.1 →
      r.scoreRow row = none ∧ r.score (.plain row) = none) ∧
    (∀ ordinal, (∀ entries ∈ layers, ∀ entry ∈ entries, entry.1 ≠ ordinal) →
      (layers.normalizeRow row)[ordinal]? = row[ordinal]?) ∧
    ∀ others : NormalizerLayers, List.Forall₂ SameListing layers others →
      base.tower others = .ok r := by
  have hrow := run_tower scoreRow (fun _ _ _ => rfl) h row
  have hvector := run_tower (fun r row => r.score (.plain row)) (by
    intro inner table row
    rw [score, normalizeVector?_plain, Option.bind_map]
    rfl) h row
  refine ⟨?_, ?_, ?_, ?_⟩
  · intro hbelow
    refine ⟨hrow.1 hbelow, ?_⟩
    rw [hvector.1 hbelow, hbase.score_plain]
  · intro entries hentries entry hentry hle
    exact ⟨hrow.2 entries hentries entry hentry hle, hvector.2 entries hentries entry hentry hle⟩
  · intro ordinal hnot
    rw [normalizeRow, Array.getElem?_mapIdx]
    cases row[ordinal]? with
    | none => rfl
    | some raw => rw [Option.map_some, normalizeScore_of_not_listed hnot]
  · intro others hothers
    rw [tower_congr base hothers, h]

def unitWeights : Ranker (.plain .dense) := .linear #[⟨0x3f800000⟩, ⟨0x40000000⟩]

def twoLayers : NormalizerLayers :=
  [[(1, .minMax .zero ⟨0x3f800000⟩), (0, .identity), (1, .standard ⟨0x3f800000⟩ ⟨0x40000000⟩)],
    [(1, .minMax .zero ⟨0x40800000⟩)]]

def reorderedLayers : NormalizerLayers :=
  [[(0, .identity), (1, .minMax .zero ⟨0x3f800000⟩), (1, .standard ⟨0x3f800000⟩ ⟨0x40000000⟩)],
    [(1, .minMax .zero ⟨0x40800000⟩)]]

theorem tower_scores_normalized_twoLayers :
    ∃ r, unitWeights.tower twoLayers = .ok r ∧
      r.scoreRow #[⟨0x3f800000⟩, ⟨0x40a00000⟩] = some ⟨0x40000000⟩ ∧
      r.score (.plain #[⟨0x3f800000⟩, ⟨0x40a00000⟩]) =
        some (⟨0x40000000⟩, .plain #[⟨0x3f800000⟩, ⟨0x3f000000⟩]) ∧
      (r.scoreRow #[.nan] = none ∧ r.score (.plain #[.nan]) = none) ∧
      unitWeights.tower reorderedLayers = .ok r := by
  obtain ⟨r, h⟩ : ∃ r, unitWeights.tower twoLayers = .ok r := ⟨_, rfl⟩
  have hbase : unitWeights.Unwrapped := .linear _
  have hlong := tower_scores_normalized hbase h #[⟨0x3f800000⟩, ⟨0x40a00000⟩]
  have hshort := tower_scores_normalized hbase h #[.nan]
  obtain ⟨hrow, hvector⟩ := hlong.1 (by decide)
  have hnormalized : twoLayers.normalizeRow #[⟨0x3f800000⟩, ⟨0x40a00000⟩] =
      #[⟨0x3f800000⟩, ⟨0x3f000000⟩] := by decide +kernel
  have hscore : unitWeights.scoreRow #[⟨0x3f800000⟩, ⟨0x3f000000⟩] = some ⟨0x40000000⟩ := by
    decide +kernel
  rw [hnormalized, hscore] at hrow hvector
  refine ⟨r, h, hrow, hvector, ?_, ?_⟩
  · exact hshort.2.1 _ List.mem_cons_self _ List.mem_cons_self (by decide)
  · refine hlong.2.2.2 reorderedLayers (.cons ?_ (.cons (fun _ => rfl) .nil))
    intro ordinal
    by_cases hordinal : 0 = ordinal
    · rw [← hordinal]
      rfl
    · simp [listedFor, List.filter_cons, hordinal]

end Ranker

end Relevance
