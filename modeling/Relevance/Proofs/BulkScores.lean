import Relevance.Proofs.MatrixRows
import Relevance.Ranker.Bulk

namespace Relevance

open Normalizer

namespace Delivery

/-- Each row from `start` up to `stop` with its score, once and in order. -/
def pairs (scores : Nat → Binary32) (start stop : Nat) : List (Nat × Binary32) :=
  (List.range' start (stop - start)).map fun row => (row, scores row)

variable {score? : Nat → Option Binary32} {scores : Nat → Binary32} {start stop : Nat}

theorem pairs_of_le (h : stop ≤ start) : pairs scores start stop = [] := by
  rw [pairs, Nat.sub_eq_zero_of_le h, List.range'_zero, List.map_nil]

theorem pairs_cons (h : start < stop) :
    pairs scores start stop = (start, scores start) :: pairs scores (start + 1) stop := by
  have hcount : stop - start = stop - (start + 1) + 1 := by omega
  rw [pairs, hcount, List.range'_succ, List.map_cons, pairs]

theorem collect_scored {count : Nat}
    (h : ∀ row, start ≤ row → row < start + count → score? row = some (scores row)) :
    collect score? start count = ⟨pairs scores start (start + count), true⟩ := by
  induction count generalizing start with
  | zero => rw [collect, Nat.add_zero, pairs_of_le (Nat.le_refl start)]
  | succ count ih =>
    have hfirst : score? start = some (scores start) := h start (Nat.le_refl start) (by omega)
    have hrest : collect score? (start + 1) count =
        ⟨pairs scores (start + 1) (start + 1 + count), true⟩ := by
      apply ih
      intro row hstart hstop
      exact h row (by omega) (by omega)
    have hpairs : pairs scores start (start + (count + 1)) =
        (start, scores start) :: pairs scores (start + 1) (start + 1 + count) := by
      rw [← Nat.add_assoc, Nat.add_right_comm start count 1]
      exact pairs_cons (by omega)
    simp only [collect, hfirst, hrest, hpairs]

theorem collect_stopped {first count : Nat} (hle : start ≤ first) (hlt : first < start + count)
    (hfirst : score? first = none)
    (h : ∀ row, start ≤ row → row < first → score? row = some (scores row)) :
    collect score? start count = ⟨pairs scores start first, false⟩ := by
  induction count generalizing start with
  | zero => exact absurd hle (Nat.not_le_of_lt hlt)
  | succ count ih =>
    rcases Nat.eq_or_lt_of_le hle with rfl | hstart
    · simp only [collect, hfirst, pairs_of_le (Nat.le_refl start)]
    · have hscore : score? start = some (scores start) := h start (Nat.le_refl start) hstart
      have hrest : collect score? (start + 1) count = ⟨pairs scores (start + 1) first, false⟩ := by
        apply ih hstart (by omega)
        intro row hrow
        exact h row (Nat.le_of_succ_le hrow)
      simp only [collect, hscore, hrest, pairs_cons hstart]

theorem collect_congr {other? : Nat → Option Binary32} {count : Nat}
    (h : ∀ row, start ≤ row → row < start + count → score? row = other? row) :
    collect score? start count = collect other? start count := by
  induction count generalizing start with
  | zero => rfl
  | succ count ih =>
    have hrest : collect score? (start + 1) count = collect other? (start + 1) count := by
      apply ih
      intro row hstart hstop
      exact h row (by omega) (by omega)
    rw [collect, collect, h start (Nat.le_refl start) (by omega), hrest]

theorem collectWith_eq_collect {σ : Type} {step? : σ → Nat → Option (Binary32 × σ)}
    (h : ∀ left row, (step? left row).map Prod.fst = score? row) (left : σ) (start count : Nat) :
    collectWith step? left start count = collect score? start count := by
  induction count generalizing left start with
  | zero => rfl
  | succ count ih =>
    have hscore : score? start = (step? left start).map Prod.fst := (h left start).symm
    rw [collectWith, collect, hscore]
    cases step? left start with
    | none => rfl
    | some next =>
      have hrest : collectWith step? next.2 (start + 1) count = collect score? (start + 1) count :=
        ih next.2 (start + 1)
      simp only [Option.map_some, hrest]

end Delivery

open Delivery

namespace Ranker

variable {kind : VectorKind} {r : Ranker kind} {m : FeatureMatrix} {scores : Nat → Binary32}
  {start stop : Nat}

def hasScratch (m : FeatureMatrix) : Ranker kind → Bool
  | normalizing .. => m.cols < slotBound
  | _ => true

theorem hasScratch_of_lt (r : Ranker kind) (h : m.cols < slotBound) : r.hasScratch m = true := by
  cases r with
  | normalizing inner table => exact decide_eq_true h
  | _ => rfl

/-- A row has the same score in the scratch row, whatever was left in that. -/
theorem scratchScore?_fst (inner : Ranker kind) (table : NormalizerTable) (m : FeatureMatrix)
    (scratch : Array Binary32) (row : Nat) :
    (inner.scratchScore? table m scratch row).map Prod.fst =
      (normalizing inner table).rowScore? m row := by
  rw [scratchScore?, rowScore?]
  cases m.row? row with
  | none => rfl
  | some source =>
    have hcopied : scratch.shrink 0 ++ source = source := by simp
    simp only [Option.bind_eq_bind, Option.bind_some, hcopied, scoreRow]
    cases table.normalizeRow? source with
    | none => rfl
    | some normalized =>
      rw [Option.bind_some, Option.bind_some]
      cases inner.scoreRow normalized with
      | none => rfl
      | some score => rfl

theorem bulkScore_eq (r : Ranker kind) (m : FeatureMatrix) (start stop : Nat) :
    r.bulkScore m start stop =
      if r.hasScratch m then .collect (r.rowScore? m) start (stop - start) else ⟨[], false⟩ := by
  cases r with
  | normalizing inner table =>
    by_cases hwide : slotBound ≤ m.cols
    · simp [bulkScore, hasScratch, hwide, Nat.not_lt_of_le hwide]
    · simp only [bulkScore, hasScratch, hwide, ↓reduceIte, Nat.lt_of_not_le hwide, decide_true]
      exact collectWith_eq_collect (scratchScore?_fst inner table m) #[] start (stop - start)
  | linear weights => rfl
  | null storage featureCount => rfl
  | tree model => rfl
  | logging inner log => rfl

theorem rowScore?_of_le (r : Ranker kind) {row : Nat} (h : m.rows ≤ row) :
    r.rowScore? m row = none := by
  rw [rowScore?, FeatureMatrix.row?_of_le h, Option.bind_none]

theorem rows_eq_zero (h : r.hasScratch m = false) : m.rows = 0 := by
  have hwide : slotBound ≤ m.cols := by
    apply Nat.le_of_not_lt
    intro hlt
    rw [hasScratch_of_lt r hlt] at h
    exact nomatch h
  by_contra hrows
  have hentries : m.cols ≤ m.rows * m.cols :=
    Nat.le_mul_of_pos_left m.cols (Nat.pos_of_ne_zero hrows)
  exact Nat.not_lt_of_le (Nat.le_trans hwide hentries) m.fitsMemory.1

theorem le_of_scored (hscratch : r.hasScratch m = false)
    (h : ∀ row, start ≤ row → row < stop → r.rowScore? m row = some (scores row)) :
    stop ≤ start := by
  apply Nat.le_of_not_lt
  intro hlt
  have hscore := h start (Nat.le_refl start) hlt
  have hrows : m.rows ≤ start := by
    rw [rows_eq_zero hscratch]
    exact Nat.zero_le start
  rw [rowScore?_of_le r hrows] at hscore
  exact nomatch hscore

theorem bulkScore_scored
    (h : ∀ row, start ≤ row → row < stop → r.rowScore? m row = some (scores row)) :
    r.bulkScore m start stop = ⟨pairs scores start stop, r.hasScratch m⟩ := by
  rw [bulkScore_eq]
  cases hscratch : r.hasScratch m with
  | false =>
    rw [pairs_of_le (le_of_scored hscratch h)]
    rfl
  | true =>
    rw [if_pos rfl]
    rcases Nat.le_total start stop with hle | hle
    · have hstop : start + (stop - start) = stop := Nat.add_sub_cancel' hle
      rw [← hstop] at h
      rw [collect_scored h, hstop]
    · rw [Nat.sub_eq_zero_of_le hle, pairs_of_le hle, collect]

theorem bulkScore_stopped {first : Nat} (hle : start ≤ first) (hlt : first < stop)
    (hfirst : r.rowScore? m first = none)
    (h : ∀ row, start ≤ row → row < first → r.rowScore? m row = some (scores row)) :
    r.bulkScore m start stop = ⟨pairs scores start first, false⟩ := by
  rw [bulkScore_eq]
  cases hscratch : r.hasScratch m with
  | false =>
    rw [pairs_of_le (le_of_scored hscratch h)]
    rfl
  | true =>
    rw [if_pos rfl]
    exact collect_stopped hle (by omega) hfirst h

theorem scores_bulkScore_of_le (r : Ranker kind) (m : FeatureMatrix) (h : stop ≤ start) :
    (r.bulkScore m start stop).scores = [] := by
  rw [bulkScore_eq, Nat.sub_eq_zero_of_le h]
  cases r.hasScratch m with
  | false => rfl
  | true => rfl

theorem fillSlots_scored {score? : Nat → Option Binary32} {schedule : List Nat}
    (h : ∀ row ∈ schedule, score? row = some (scores row)) (output : Array Binary32) :
    ∃ filled, fillSlots score? schedule output = (filled, true) ∧ filled.size = output.size ∧
      ∀ slot, slot < output.size →
        filled[slot]? = if slot ∈ schedule then some (scores slot) else output[slot]? := by
  induction schedule generalizing output with
  | nil => exact ⟨output, rfl, rfl, fun slot _ => (if_neg List.not_mem_nil).symm⟩
  | cons row schedule ih =>
    obtain ⟨hrow, hschedule⟩ := List.forall_mem_cons.1 h
    have hsize : (output.setIfInBounds row (scores row)).size = output.size :=
      Array.size_setIfInBounds
    obtain ⟨filled, hfilled, hsize', hget⟩ := ih hschedule (output.setIfInBounds row (scores row))
    -- A slot that is filled again later gets the same score then, so the order does not show.
    refine ⟨filled, ?_, hsize'.trans hsize, ?_⟩
    · rw [fillSlots, hrow]
      exact hfilled
    · intro slot hslot
      rw [hget slot (by omega), Array.getElem?_setIfInBounds]
      by_cases hlater : slot ∈ schedule
      · rw [if_pos hlater, if_pos (List.mem_cons_of_mem row hlater)]
      · rw [if_neg hlater]
        by_cases heq : row = slot
        · rw [if_pos heq, heq, if_pos hslot, if_pos List.mem_cons_self]
        · rw [if_neg heq, if_neg]
          intro hmem
          rcases List.mem_cons.1 hmem with hmem | hmem
          · exact heq hmem.symm
          · exact hlater hmem

theorem bulkScoreInto_scored {schedule : List Nat} {output : Array Binary32}
    (hsize : output.size ≤ m.rows) (hschedule : schedule.Perm (List.range output.size))
    (h : ∀ row, row < output.size → r.rowScore? m row = some (scores row)) :
    r.bulkScoreInto m schedule output =
      (Array.ofFn fun slot : Fin output.size => scores slot, none) := by
  have hmem (slot : Nat) : slot ∈ schedule ↔ slot < output.size :=
    hschedule.mem_iff.trans List.mem_range
  obtain ⟨filled, hfilled, hsize', hget⟩ :=
    fillSlots_scored (fun row hrow => h row ((hmem row).1 hrow)) output
  have heq : filled = Array.ofFn fun slot : Fin output.size => scores slot := by
    apply Array.ext_getElem?
    intro slot
    rw [Array.getElem?_ofFn]
    by_cases hslot : slot < output.size
    · rw [hget slot hslot, if_pos ((hmem slot).2 hslot), dif_pos hslot]
    · rw [dif_neg hslot]
      exact Array.getElem?_eq_none (by omega)
  rw [bulkScoreInto, if_neg (Nat.not_lt_of_le hsize), hfilled, heq]

theorem bulkScoreInto_tooLong (r : Ranker kind) (schedule : List Nat) {output : Array Binary32}
    (h : m.rows < output.size) : r.bulkScoreInto m schedule output =
      (output, some (.outputTooLong output.size m.rows)) :=
  if_pos h

theorem rowScore?_normalized {inner : Ranker kind} {table : NormalizerTable} {after : FeatureMatrix}
    {row : Nat} (htable : ∀ entry ∈ table.entries, entry.1 < m.cols) (hrow : row < m.rows)
    (hrows : after.rows = m.rows)
    (hget : ∀ col, after.get? row col = (m.get? row col).map (normalizedBy (table.find? col))) :
    inner.rowScore? after row = (normalizing inner table).rowScore? m row := by
  obtain ⟨raw, hraw, hsize, hrawGet⟩ := FeatureMatrix.row?_of_lt hrow
  have hrow' : row < after.rows := by rwa [hrows]
  obtain ⟨stored, hstored, _, hstoredGet⟩ := FeatureMatrix.row?_of_lt hrow'
  rw [← hsize] at htable
  obtain ⟨scratch, hscratch, hscratchGet⟩ := NormalizerTable.normalizeRow?_present htable
  -- The row in the matrix and the scratch row come from two folds, but they hold the same scores.
  have heq : stored = scratch := by
    apply Array.ext_getElem?
    intro col
    rw [hstoredGet, hget, hscratchGet, hrawGet]
  rw [rowScore?, rowScore?, hstored, hraw, Option.bind_some, Option.bind_some, scoreRow, hscratch,
    Option.bind_some, heq]

/-- Scoring in place hands out what scoring the original does. -/
theorem bulkScoreInPlace_normalized {inner : Ranker kind} {table : NormalizerTable}
    (h : inner.normalize table = .ok r) (hle : start ≤ stop) (hstop : stop ≤ m.rows)
    (hcols : r.featureCount ≤ m.cols) :
    ∃ delivery after, bulkScoreInPlace inner table m start stop = some (delivery, after) ∧
      delivery.scores = (r.bulkScore m start stop).scores ∧
      (r.hasScratch m = true → delivery = r.bulkScore m start stop) ∧
      after.rows = m.rows ∧ after.cols = m.cols ∧ ∀ row col,
        after.get? row col =
          if start ≤ row ∧ row < stop then (m.get? row col).map (normalizedBy (table.find? col))
          else m.get? row col := by
  obtain ⟨rfl, hlt⟩ := normalize_ok h
  have htable : ∀ entry ∈ table.entries, entry.1 < m.cols := by
    intro entry hentry
    exact Nat.lt_of_lt_of_le (hlt entry hentry) hcols
  have hcount : start + (stop - start) = stop := Nat.add_sub_cancel' hle
  have hstop' : start + (stop - start) ≤ m.rows := by rwa [hcount]
  obtain ⟨after, hafter, hrows, hcols', hget⟩ :=
    NormalizerTable.normalizeRows?_present hstop' htable
  rw [hcount] at hget
  have hdelivery (hscratch : (normalizing inner table).hasScratch m = true) :
      inner.bulkScore after start stop = (normalizing inner table).bulkScore m start stop := by
    have hroom : after.cols < slotBound := by
      rw [hcols']
      exact of_decide_eq_true hscratch
    rw [bulkScore_eq, bulkScore_eq, hasScratch_of_lt inner hroom, hscratch]
    apply collect_congr
    intro row hstart hrow
    rw [hcount] at hrow
    apply rowScore?_normalized htable (by omega) hrows
    intro col
    rw [hget, if_pos ⟨hstart, hrow⟩]
  refine ⟨inner.bulkScore after start stop, after, ?_, ?_, hdelivery, hrows, hcols', hget⟩
  · rw [bulkScoreInPlace, hafter, Option.map_some]
  · cases hscratch : (normalizing inner table).hasScratch m with
    | true => rw [hdelivery hscratch]
    | false =>
      -- The flags differ here: only the outer ranker sets a row aside.
      have hstart : stop ≤ start := by
        rw [rows_eq_zero hscratch] at hstop
        exact Nat.le_trans hstop (Nat.zero_le start)
      rw [scores_bulkScore_of_le inner after hstart, scores_bulkScore_of_le _ m hstart]

/-- Every bulk call gives the rows the scores they have on their own. -/
theorem bulk_calls_score_rows (r : Ranker kind) (m : FeatureMatrix) :
    (∀ row, m.rows ≤ row → r.rowScore? m row = none) ∧
    (∀ (start stop : Nat) (scores : Nat → Binary32),
      (∀ row, start ≤ row → row < stop → r.rowScore? m row = some (scores row)) →
      r.bulkScore m start stop = ⟨pairs scores start stop, r.hasScratch m⟩) ∧
    (∀ (start first stop : Nat) (scores : Nat → Binary32), start ≤ first → first < stop →
      (∀ row, start ≤ row → row < first → r.rowScore? m row = some (scores row)) →
      r.rowScore? m first = none → r.bulkScore m start stop = ⟨pairs scores start first, false⟩) ∧
    (∀ (schedule : List Nat) (output : Array Binary32) (scores : Nat → Binary32),
      output.size ≤ m.rows → schedule.Perm (List.range output.size) →
      (∀ row, row < output.size → r.rowScore? m row = some (scores row)) →
      r.bulkScoreInto m schedule output =
        (Array.ofFn fun slot : Fin output.size => scores slot, none)) ∧
    (∀ (schedule : List Nat) (output : Array Binary32), m.rows < output.size →
      r.bulkScoreInto m schedule output = (output, some (.outputTooLong output.size m.rows))) ∧
    ∀ (inner : Ranker kind) (table : NormalizerTable) (start stop : Nat),
      inner.normalize table = .ok r → start ≤ stop → stop ≤ m.rows → r.featureCount ≤ m.cols →
      ∃ delivery after, bulkScoreInPlace inner table m start stop = some (delivery, after) ∧
        delivery.scores = (r.bulkScore m start stop).scores ∧
        (r.hasScratch m = true → delivery = r.bulkScore m start stop) ∧
        after.rows = m.rows ∧ after.cols = m.cols ∧ ∀ row col,
          after.get? row col =
            if start ≤ row ∧ row < stop then (m.get? row col).map (normalizedBy (table.find? col))
            else m.get? row col := by
  refine ⟨?_, ?_, ?_, ?_, ?_, ?_⟩
  · intro row hrow
    exact rowScore?_of_le r hrow
  · intro start stop scores h
    exact bulkScore_scored h
  · intro start first stop scores hle hlt h hfirst
    exact bulkScore_stopped hle hlt hfirst h
  · intro schedule output scores hsize hschedule h
    exact bulkScoreInto_scored hsize hschedule h
  · intro schedule output h
    exact bulkScoreInto_tooLong r schedule h
  · intro inner table start stop h hle hstop hcols
    exact bulkScoreInPlace_normalized h hle hstop hcols

def halvedTable : NormalizerTable := .ofList [(1, .minMax .zero ⟨0x40000000⟩)]

def halvedWeights : Ranker (.plain .dense) :=
  .normalizing (.linear #[⟨0x3f800000⟩, ⟨0x40000000⟩]) halvedTable

def threeRows : FeatureMatrix :=
  ⟨3, 2, #v[.zero, .zero, ⟨0x3f800000⟩, ⟨0x40000000⟩, .zero, ⟨0x40800000⟩], by decide⟩

def threeScores (row : Nat) : Binary32 :=
  #[.zero, ⟨0x40400000⟩, ⟨0x40800000⟩].getD row .zero

theorem bulk_calls_score_rows_three :
    halvedWeights.bulkScore threeRows 1 3 =
        ⟨[(1, ⟨0x40400000⟩), (2, ⟨0x40800000⟩)], true⟩ ∧
      halvedWeights.bulkScore threeRows 2 5 = ⟨[(2, ⟨0x40800000⟩)], false⟩ ∧
      halvedWeights.bulkScoreInto threeRows [2, 0, 1] #[.nan, .nan, .nan] =
        (#[.zero, ⟨0x40400000⟩, ⟨0x40800000⟩], none) ∧
      halvedWeights.bulkScoreInto threeRows [] #[.nan, .nan, .nan, .nan] =
        (#[.nan, .nan, .nan, .nan], some (.outputTooLong 4 3)) ∧
      ∃ after, bulkScoreInPlace (.linear #[⟨0x3f800000⟩, ⟨0x40000000⟩]) halvedTable threeRows 1 2 =
          some (⟨[(1, ⟨0x40400000⟩)], true⟩, after) ∧
        after.get? 1 1 = some ⟨0x3f800000⟩ ∧ after.get? 2 1 = some ⟨0x40800000⟩ := by
  obtain ⟨_, hscored, hstopped, hinto, htooLong, hinPlace⟩ :=
    bulk_calls_score_rows halvedWeights threeRows
  have hscore : ∀ row < 3, halvedWeights.rowScore? threeRows row = some (threeScores row) := by
    decide +kernel
  refine ⟨?_, ?_, ?_, ?_, ?_⟩
  · exact hscored 1 3 threeScores fun row _ hrow => hscore row hrow
  · exact hstopped 2 3 5 threeScores (by decide) (by decide) (fun row _ hrow => hscore row hrow)
      (by decide)
  · exact hinto [2, 0, 1] #[.nan, .nan, .nan] threeScores (by decide) (by decide) hscore
  · exact htooLong [] #[.nan, .nan, .nan, .nan] (by decide)
  · have hone := hscored 1 2 threeScores fun row _ hrow => hscore row (by omega)
    obtain ⟨delivery, after, hcall, _, hdelivery, _, _, hget⟩ :=
      hinPlace (.linear #[⟨0x3f800000⟩, ⟨0x40000000⟩]) halvedTable 1 2 rfl (by decide) (by decide)
        (by decide)
    rw [hdelivery rfl, hone] at hcall
    refine ⟨after, hcall, ?_, ?_⟩
    · rw [hget]
      decide +kernel
    · rw [hget]
      decide

end Ranker

end Relevance
