import Mathlib.Data.List.Basic
import Relevance.Proofs.NormalizedRows
import Relevance.Proofs.VectorSessions

namespace Relevance

namespace WriteLog

def acceptAll (writes : List FeatureWrite) (log : WriteLog) : WriteLog :=
  writes.foldl (fun log write => log.accept write) log

theorem acceptAll_recorder (writes before : List FeatureWrite) (resets : Nat) :
    (recorder before resets).acceptAll writes = recorder (before ++ writes) resets := by
  induction writes generalizing before with
  | nil => rw [List.append_nil]; rfl
  | cons write writes ih =>
    rw [acceptAll, List.foldl_cons]
    exact (ih (before ++ [write])).trans (by rw [List.append_assoc]; rfl)

end WriteLog

namespace NormalizerTable

def normalizedWrites {kind : VectorKind} (entries : List (Nat × Normalizer))
    (v : FeatureVector kind) : List FeatureWrite :=
  entries.filterMap fun entry =>
    (v.get? entry.1).map fun raw => ⟨entry.1, entry.2.normalize raw⟩

variable {kind : VectorKind}

theorem normalizedWrites_missing {entry : Nat × Normalizer} {rest : List (Nat × Normalizer)}
    (hlt : ∀ other ∈ rest, entry.1 < other.1) {v : FeatureVector kind}
    (h : v.get? entry.1 = none) : normalizedWrites (entry :: rest) v = [] := by
  have hsize : v.size ≤ entry.1 := Array.getElem?_eq_none_iff.1 h
  rw [normalizedWrites, List.filterMap_eq_nil_iff]
  intro other hother
  have hother : v.size ≤ other.1 := by
    rcases List.mem_cons.1 hother with rfl | hother
    · exact hsize
    · exact Nat.le_of_lt (Nat.lt_of_le_of_lt hsize (hlt other hother))
  rw [FeatureVector.get?_eq_none hother, Option.map_none]

theorem normalizedWrites_set {entries : List (Nat × Normalizer)} {write : FeatureWrite}
    (hlt : ∀ other ∈ entries, write.ordinal < other.1) {v after : FeatureVector kind}
    (h : v.set? write = some after) :
    normalizedWrites entries after = normalizedWrites entries v := by
  apply List.filterMap_congr
  intro other hother
  rw [FeatureVector.get?_set? h, if_neg (Nat.ne_of_gt (hlt other hother))]

theorem get?_logged (v : FeatureVector kind) (log : WriteLog) :
    (FeatureVector.logged v log).get? = v.get? :=
  rfl

/-- A log around the vector is told of each score that is replaced. -/
theorem normalizeInPlace_logged {entries : List (Nat × Normalizer)}
    (hentries : entries.Pairwise (·.1 < ·.1)) (v : FeatureVector kind) (log : WriteLog) :
    normalizeInPlace entries (.logged v log : FeatureVector (.logged kind)) =
      ((normalizeInPlace entries v).1,
        .logged (normalizeInPlace entries v).2 (log.acceptAll (normalizedWrites entries v))) := by
  induction entries generalizing v log with
  | nil => rfl
  | cons entry rest ih =>
    obtain ⟨hlt, hrest⟩ := List.pairwise_cons.1 hentries
    -- As the ordinals ascend, a slot is read before it is written, and after a missing slot comes
    -- no other.
    cases hraw : v.get? entry.1 with
    | none =>
      rw [normalizedWrites_missing hlt hraw, normalizeInPlace, normalizeInPlace, get?_logged, hraw]
      rfl
    | some raw =>
      obtain ⟨after, hset, _⟩ :=
        v.set?_total ⟨entry.1, entry.2.normalize raw⟩ (FeatureVector.lt_size_of_get? hraw)
      rw [normalizeInPlace, normalizeInPlace, get?_logged, hraw, Option.bind_some,
        Option.bind_some, FeatureVector.set?, hset, Option.map_some]
      simp only
      rw [ih hrest, normalizedWrites_set hlt hset, normalizedWrites, normalizedWrites,
        List.filterMap_cons, hraw]
      rfl

end NormalizerTable

variable {ρ : Type} {kind : VectorKind}

namespace Moment

/-- The vector under the name starts to record anew: it was just handed out or reset. -/
def opens (name : Nat) (m : Moment ρ kind) : Bool :=
  match m.step, m.answer with
  | .handOut _ target _, .done => target == name
  | .use target .reset, .done => target == name
  | _, _ => false

/-- The writes through a vector that succeeded, with those that scoring it makes by itself. -/
def writes (scoring : ρ → FeatureVector kind → List FeatureWrite) (name : Nat)
    (m : Moment ρ kind) : List FeatureWrite :=
  match m.step with
  | .use target (.set write) => if target = name ∧ m.answer = .done then [write] else []
  | .use target (.score r) => if target = name then m.found.elim [] (scoring r) else []
  | _ => []

end Moment

namespace Session

def recorded (scoring : ρ → FeatureVector kind → List FeatureWrite) (name : Nat)
    (past : List (Moment ρ kind)) : List FeatureWrite :=
  (past.takeWhile (!·.opens name)).reverse.flatMap (·.writes scoring name)

/-- A session that answers as another and holds the same vectors, each inside a recorder. -/
structure RecordsOf (scoring : ρ → FeatureVector kind → List FeatureWrite) (s : Session ρ kind)
    (t : Session ρ (.logged kind)) : Prop where
  answers : t.answers = s.answers
  held : ∀ name, ∃ resets, t.held name =
    (s.held name).map (.logged · (.recorder (recorded scoring name s.past) resets))

variable {scoring : ρ → FeatureVector kind → List FeatureWrite}

theorem recorded_cons (name : Nat) (m : Moment ρ kind) (past : List (Moment ρ kind)) :
    recorded scoring name (m :: past) =
      if m.opens name then [] else recorded scoring name past ++ m.writes scoring name := by
  rw [recorded, List.takeWhile_cons]
  cases m.opens name with
  | true => rfl
  | false =>
    simp only [Bool.not_false, ↓reduceIte, List.reverse_cons, List.flatMap_append,
      List.flatMap_singleton, Bool.false_eq_true]
    rfl

theorem recorded_handOut (r : ρ) (target : Nat) (reuse : Option Nat)
    (old : Option (FeatureVector kind)) (answer : Answer) (name : Nat)
    (past : List (Moment ρ kind)) :
    recorded scoring name (⟨.handOut r target reuse, old, answer⟩ :: past) =
      if answer = .done ∧ target = name then [] else recorded scoring name past := by
  rw [recorded_cons]
  cases answer <;> simp [Moment.opens, Moment.writes]

theorem recorded_absent (target : Nat) (use : VectorUse ρ) (name : Nat)
    (past : List (Moment ρ kind)) :
    recorded scoring name (⟨.use target use, none, .absent⟩ :: past) =
      recorded scoring name past := by
  rw [recorded_cons]
  cases use <;> simp [Moment.opens, Moment.writes]

theorem recorded_other {target name : Nat} (h : target ≠ name) (use : VectorUse ρ)
    (found : Option (FeatureVector kind)) (answer : Answer) (past : List (Moment ρ kind)) :
    recorded scoring name (⟨.use target use, found, answer⟩ :: past) =
      recorded scoring name past := by
  rw [recorded_cons]
  cases use <;> cases answer <;> simp [Moment.opens, Moment.writes, h]

theorem RecordsOf.vacate {s : Session ρ kind} {t : Session ρ (.logged kind)}
    (h : RecordsOf scoring s t) (reuse : Option Nat) (name : Nat) :
    ∃ resets, Session.vacate t.held reuse name = (Session.vacate s.held reuse name).map
      (.logged · (.recorder (recorded scoring name s.past) resets)) := by
  rw [Session.vacate, Session.vacate]
  split
  · exact ⟨0, rfl⟩
  · exact h.held name

theorem recorded_update {held : Nat → Option (FeatureVector kind)}
    {logs : Nat → Option (FeatureVector (.logged kind))} {past : List (Moment ρ kind)} {name : Nat}
    (h : ∀ other, name ≠ other → ∃ resets, logs other =
      (held other).map (.logged · (.recorder (recorded scoring other past) resets)))
    (v : FeatureVector kind) (resets : Nat) (other : Nat) :
    ∃ after, Function.update logs name
        (some (.logged v (.recorder (recorded scoring name past) resets))) other =
      (Function.update held name (some v) other).map
        (.logged · (.recorder (recorded scoring other past) after)) := by
  by_cases hother : name = other
  · subst hother
    rw [Function.update_self, Function.update_self]
    exact ⟨resets, rfl⟩
  · rw [Function.update_of_ne (Ne.symm hother), Function.update_of_ne (Ne.symm hother)]
    exact h other hother

end Session

/-- Rankers with a recorder around them, of which scoring tells certain writes by itself. -/
structure Records (bare : ρ → Ranker kind) (logged : ρ → Ranker (.logged kind))
    (scoring : ρ → FeatureVector kind → List FeatureWrite) : Prop where
  fresh : ∀ r, ∃ resets,
    (logged r).newVector? none = ((bare r).newVector? none).map (.logged · (.recorder [] resets))
  taken : ∀ r v log, (logged r).newVector? (some (.logged v log)) =
    ((bare r).newVector? (some v)).map (.logged · log.reset)
  score : ∀ r v log, (logged r).scoreInPlace (.logged v log) =
    (((bare r).scoreInPlace v).1,
      .logged ((bare r).scoreInPlace v).2 (log.acceptAll (scoring r v)))

namespace Records

variable {bare : ρ → Ranker kind} {logged : ρ → Ranker (.logged kind)}
  {scoring : ρ → FeatureVector kind → List FeatureWrite}

theorem newVector? (h : Records bare logged scoring) (r : ρ) (old : Option (FeatureVector kind))
    (writes : List FeatureWrite) (resets : Nat) :
    ∃ after, (logged r).newVector? (old.map (.logged · (.recorder writes resets))) =
      ((bare r).newVector? old).map (.logged · (.recorder [] after)) := by
  cases old with
  | none => exact h.fresh r
  | some v => exact ⟨resets + 1, h.taken r v _⟩

theorem score_logged (h : Records bare logged scoring) (r : ρ) (v : FeatureVector kind)
    (log : WriteLog) :
    (logged r).score (.logged v log) = ((bare r).score v).map fun scored =>
      (scored.1, .logged scored.2 (log.acceptAll (scoring r v))) := by
  rw [Ranker.score_eq, Ranker.score_eq, h.score, Option.map_map]
  rfl

open Session

theorem apply (h : Records bare logged scoring) (use : VectorUse ρ) (name : Nat)
    (v : FeatureVector kind) (past : List (Moment ρ kind)) (resets : Nat) :
    ∃ after,
      use.apply logged (.logged v (.recorder (recorded scoring name past) resets)) =
        ((use.apply bare v).1, .logged (use.apply bare v).2
          (.recorder (recorded scoring name
            (⟨.use name use, some v, (use.apply bare v).1⟩ :: past)) after)) := by
  cases use with
  | set write =>
    refine ⟨resets, ?_⟩
    rw [recorded_cons]
    cases hset : v.set? write with
    | none => simp [VectorUse.apply, FeatureVector.set?, hset, Moment.opens, Moment.writes]
    | some w =>
      simp [VectorUse.apply, FeatureVector.set?, hset, Moment.opens, Moment.writes,
        WriteLog.accept]
  | read ordinal =>
    refine ⟨resets, ?_⟩
    rw [recorded_cons]
    simp [VectorUse.apply, Moment.opens, Moment.writes, NormalizerTable.get?_logged]
  | reset =>
    refine ⟨resets + 1, ?_⟩
    rw [recorded_cons]
    simp [VectorUse.apply, Moment.opens, FeatureVector.reset, WriteLog.reset]
  | score r =>
    refine ⟨resets, ?_⟩
    rw [recorded_cons]
    simp [VectorUse.apply, Moment.opens, Moment.writes, h.score, WriteLog.acceptAll_recorder]

variable {s : Session ρ kind} {t : Session ρ (.logged kind)}

theorem handOut (h : Records bare logged scoring) (hst : RecordsOf scoring s t) (r : ρ) (name : Nat)
    (reuse : Option Nat) :
    RecordsOf scoring (s.act bare (.handOut r name reuse))
      (t.act logged (.handOut r name reuse)) := by
  obtain ⟨writes, resets, hold⟩ : ∃ writes resets,
      reuse.bind t.held = (reuse.bind s.held).map (.logged · (.recorder writes resets)) := by
    cases reuse with
    | none => exact ⟨[], 0, rfl⟩
    | some other => exact ⟨_, hst.held other⟩
  obtain ⟨after, hnew⟩ := h.newVector? r (reuse.bind s.held) writes resets
  rw [← hold] at hnew
  cases hbare : (bare r).newVector? (reuse.bind s.held) with
  | none =>
    rw [hbare, Option.map_none] at hnew
    rw [act_handOut_panic hbare, act_handOut_panic hnew]
    constructor
    · exact congrArg (.panic :: ·) hst.answers
    · intro other
      rw [recorded_handOut, if_neg (by simp)]
      exact hst.vacate reuse other
  | some v =>
    have hopened : recorded scoring name
        (⟨.handOut r name reuse, reuse.bind s.held, .done⟩ :: s.past) = [] := by
      rw [recorded_handOut, if_pos ⟨rfl, rfl⟩]
    rw [hbare, Option.map_some, ← hopened] at hnew
    rw [act_handOut hbare, act_handOut hnew]
    constructor
    · exact congrArg (.done :: ·) hst.answers
    · apply recorded_update
      intro other hother
      rw [recorded_handOut, if_neg fun h => hother h.2]
      exact hst.vacate reuse other

theorem use (h : Records bare logged scoring) (hst : RecordsOf scoring s t) (name : Nat)
    (use : VectorUse ρ) :
    RecordsOf scoring (s.act bare (.use name use)) (t.act logged (.use name use)) := by
  obtain ⟨resets, hheld⟩ := hst.held name
  cases hfound : s.held name with
  | none =>
    rw [hfound, Option.map_none] at hheld
    rw [act_absent hfound, act_absent hheld]
    constructor
    · exact congrArg (.absent :: ·) hst.answers
    · intro other
      rw [recorded_absent]
      exact hst.held other
  | some v =>
    rw [hfound, Option.map_some] at hheld
    obtain ⟨after, happly⟩ := h.apply use name v s.past resets
    rw [act_use hfound, act_use hheld, happly]
    constructor
    · exact congrArg (_ :: ·) hst.answers
    · apply recorded_update
      intro other hother
      rw [recorded_other hother]
      exact hst.held other

theorem act (h : Records bare logged scoring) (hst : RecordsOf scoring s t)
    (step : VectorStep ρ) : RecordsOf scoring (s.act bare step) (t.act logged step) := by
  cases step with
  | handOut r name reuse => exact h.handOut hst r name reuse
  | use name use => exact h.use hst name use

theorem foldl_act (h : Records bare logged scoring) (steps : List (VectorStep ρ))
    (hst : RecordsOf scoring s t) :
    RecordsOf scoring (steps.foldl (Session.act bare) s) (steps.foldl (Session.act logged) t) := by
  induction steps generalizing s t with
  | nil => exact hst
  | cons step steps ih => exact ih (h.act hst step)

theorem run (h : Records bare logged scoring) (steps : List (VectorStep ρ)) :
    RecordsOf scoring (Session.run bare steps) (Session.run logged steps) :=
  h.foldl_act steps ⟨rfl, fun _ => ⟨0, rfl⟩⟩

/-- Around a ranker, a recorder is told of the writes of the caller alone. -/
theorem logging (ranker : ρ → Ranker kind) (writes : List FeatureWrite) (resets : Nat) :
    Records ranker (fun r => .logging (ranker r) (.recorder writes resets)) fun _ _ => [] where
  fresh _ := ⟨resets + 1, rfl⟩
  taken _ _ _ := rfl
  score _ _ _ := rfl

/-- Inside a normalizing ranker, a recorder is told of the normalized scores as well. -/
theorem normalizing (writes : List FeatureWrite) (resets : Nat) :
    Records (fun r : Ranker kind × NormalizerTable => .normalizing r.1 r.2)
      (fun r => .normalizing (.logging r.1 (.recorder writes resets)) r.2)
      fun r v => NormalizerTable.normalizedWrites r.2.entries v where
  fresh _ := ⟨resets + 1, rfl⟩
  taken _ _ _ := rfl
  score r v log := by
    rw [Ranker.scoreInPlace, Ranker.scoreInPlace,
      NormalizerTable.normalizeInPlace_logged r.2.ascending]
    cases hnormalized : (NormalizerTable.normalizeInPlace r.2.entries v).1 with
    | false => rfl
    | true => rfl

end Records

namespace Ranker

theorem present_of_score {r : Ranker kind} {table : NormalizerTable} {v : FeatureVector kind}
    {scored : Binary32 × FeatureVector kind} (h : (normalizing r table).score v = some scored)
    {entry : Nat × Normalizer} (hentry : entry ∈ table.entries) :
    ∃ raw, v.get? entry.1 = some raw := by
  cases hraw : v.get? entry.1 with
  | some raw => exact ⟨raw, rfl⟩
  | none =>
    have hnone : table.normalizeVector? v = none :=
      FeatureVector.replacesSlot.foldlM_missing hentry hraw
    rw [score, hnone, Option.bind_none] at h
    cases h

end Ranker

theorem NormalizerTable.ordinals_normalizedWrites {entries : List (Nat × Normalizer)}
    {v : FeatureVector kind} (h : ∀ entry ∈ entries, ∃ raw, v.get? entry.1 = some raw) :
    (normalizedWrites entries v).map (·.ordinal) = entries.map (·.1) := by
  induction entries with
  | nil => rfl
  | cons entry rest ih =>
    obtain ⟨⟨raw, hraw⟩, hrest⟩ := List.forall_mem_cons.1 h
    rw [normalizedWrites, List.filterMap_cons, hraw]
    exact congrArg (entry.1 :: ·) (ih hrest)

theorem NormalizerTable.mem_normalizedWrites {table : NormalizerTable} {v : FeatureVector kind}
    {write : FeatureWrite} (h : write ∈ normalizedWrites table.entries v) :
    ∃ normalizer raw, table.find? write.ordinal = some normalizer ∧
      v.get? write.ordinal = some raw ∧ write.score = normalizer.normalize raw := by
  obtain ⟨entry, hentry, hwrite⟩ := List.mem_filterMap.1 h
  obtain ⟨raw, hraw, rfl⟩ := Option.map_eq_some_iff.1 hwrite
  exact ⟨entry.2, raw, (table.mem_entries_iff ..).1 hentry, hraw, rfl⟩

namespace Session

/-- A recorder around rankers changes no answer and has exactly the writes of the caller. -/
theorem logging_is_transparent {kind : VectorKind} (writes : List FeatureWrite) (resets : Nat) :
    (∀ {ρ : Type} (ranker : ρ → Ranker kind) (steps : List (VectorStep ρ)),
      RecordsOf (fun _ _ => []) (run ranker steps)
        (run (fun r => .logging (ranker r) (.recorder writes resets)) steps)) ∧
      (∀ steps : List (VectorStep (Ranker kind × NormalizerTable)),
        RecordsOf (fun r v => NormalizerTable.normalizedWrites r.2.entries v)
          (run (fun r => .normalizing r.1 r.2) steps)
          (run (fun r => .normalizing (.logging r.1 (.recorder writes resets)) r.2) steps)) ∧
      (∀ (r : Ranker kind) (table : NormalizerTable) (v : FeatureVector kind) (log : WriteLog),
        (Ranker.logging r (.recorder writes resets)).score (.logged v log) =
            (r.score v).map (fun scored => (scored.1, .logged scored.2 log)) ∧
          (Ranker.normalizing (.logging r (.recorder writes resets)) table).score (.logged v log) =
            ((Ranker.normalizing r table).score v).map fun scored => (scored.1, .logged scored.2
              (log.acceptAll (NormalizerTable.normalizedWrites table.entries v)))) ∧
      ∀ (r : Ranker kind) (table : NormalizerTable) (v : FeatureVector kind) scored,
        (Ranker.normalizing r table).score v = some scored →
        (NormalizerTable.normalizedWrites table.entries v).map (·.ordinal) = table.ordinals ∧
          ∀ write ∈ NormalizerTable.normalizedWrites table.entries v, ∃ normalizer raw,
            table.find? write.ordinal = some normalizer ∧ v.get? write.ordinal = some raw ∧
              write.score = normalizer.normalize raw := by
  refine ⟨?_, ?_, ?_, ?_⟩
  · intro ρ ranker steps
    exact (Records.logging ranker writes resets).run steps
  · intro steps
    exact (Records.normalizing writes resets).run steps
  · intro r table v log
    constructor
    · exact (Records.logging id writes resets).score_logged r v log
    · exact (Records.normalizing writes resets).score_logged (r, table) v log
  · intro r table v scored hscore
    constructor
    · exact NormalizerTable.ordinals_normalizedWrites fun _ => Ranker.present_of_score hscore
    · intro write hwrite
      exact NormalizerTable.mem_normalizedWrites hwrite

def twoWeights : Ranker (.plain .dense) := .linear #[⟨0x3f800000⟩, ⟨0x40000000⟩]

def quarteredTable : NormalizerTable := .ofList [(1, .minMax .zero ⟨0x40800000⟩)]

def reuseSteps : List (VectorStep (Ranker (.plain .dense) × NormalizerTable)) :=
  let narrow := (.linear #[⟨0x3f800000⟩], .empty)
  let wide := (twoWeights, quarteredTable)
  [.handOut narrow 0 none, .use 0 (.set ⟨0, .infinity⟩), .use 0 (.set ⟨1, .infinity⟩),
    .handOut wide 1 (some 0), .use 1 (.set ⟨1, ⟨0x40000000⟩⟩), .use 1 (.score wide),
    .use 1 (.read 1)]

theorem logging_is_transparent_reuseSteps :
    let outside := run (fun r => .logging (.normalizing r.1 r.2) (.recorder [] 0)) reuseSteps
    let inside := run (fun r => .normalizing (.logging r.1 (.recorder [] 0)) r.2) reuseSteps
    outside.answers =
        [.number ⟨0x3f000000⟩, .number ⟨0x3f800000⟩, .done, .done, .panic, .done, .done] ∧
      inside.answers = outside.answers ∧
      (∃ resets, outside.held 1 = some (.logged (.plain #[.zero, ⟨0x3f000000⟩])
        (.recorder [⟨1, ⟨0x40000000⟩⟩] resets))) ∧
      (∃ resets, inside.held 1 = some (.logged (.plain #[.zero, ⟨0x3f000000⟩])
        (.recorder [⟨1, ⟨0x40000000⟩⟩, ⟨1, ⟨0x3f000000⟩⟩] resets))) ∧
      (NormalizerTable.normalizedWrites quarteredTable.entries
        (.plain #[.zero, ⟨0x40000000⟩] : FeatureVector (.plain .dense))).map (·.ordinal) =
          quarteredTable.ordinals := by
  obtain ⟨hlogging, hnormalizing, _, hwrites⟩ := @logging_is_transparent (.plain .dense) [] 0
  have houtside := hlogging (fun r => .normalizing r.1 r.2) reuseSteps
  have hinside := hnormalizing reuseSteps
  have hanswers : (run (fun r : Ranker (.plain .dense) × NormalizerTable => .normalizing r.1 r.2)
      reuseSteps).answers =
      [.number ⟨0x3f000000⟩, .number ⟨0x3f800000⟩, .done, .done, .panic, .done, .done] := by
    decide +kernel
  have hheld : (run (fun r : Ranker (.plain .dense) × NormalizerTable => .normalizing r.1 r.2)
      reuseSteps).held 1 = some (.plain #[.zero, ⟨0x3f000000⟩]) := by
    rfl
  obtain ⟨scored, hscore⟩ : ∃ scored, (Ranker.normalizing twoWeights quarteredTable).score
      (.plain #[.zero, ⟨0x40000000⟩]) = some scored := ⟨_, rfl⟩
  obtain ⟨after, houtside'⟩ := houtside.held 1
  obtain ⟨after', hinside'⟩ := hinside.held 1
  rw [hheld] at houtside' hinside'
  refine ⟨houtside.answers.trans hanswers, hinside.answers.trans houtside.answers.symm,
    ⟨after, houtside'⟩, ⟨after', hinside'⟩, (hwrites _ _ _ _ hscore).1⟩

end Session

end Relevance
