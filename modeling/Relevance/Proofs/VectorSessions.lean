import Mathlib.Logic.Function.Basic
import Relevance.Ranker.Basic

namespace Relevance

inductive Answer
  | done
  | number (score : Binary32)
  | panic
  | absent
  deriving DecidableEq

def Answer.ofOption : Option Binary32 → Answer
  | some score => number score
  | none => panic

/-- What is done with a vector that was handed out; `ρ` names the rankers. -/
inductive VectorUse (ρ : Type)
  | set (write : FeatureWrite)
  | read (ordinal : Nat)
  | reset
  | score (ranker : ρ)

/-- A ranker hands out a vector, perhaps made of an earlier one; or a vector is used. -/
inductive VectorStep (ρ : Type)
  | handOut (ranker : ρ) (name : Nat) (reuse : Option Nat)
  | use (name : Nat) (use : VectorUse ρ)

structure Moment (ρ : Type) (kind : VectorKind) where
  step : VectorStep ρ
  found : Option (FeatureVector kind)
  answer : Answer

/-- The vectors that are held under names, and what happened so far, the latest first. -/
structure Session (ρ : Type) (kind : VectorKind) where
  held : Nat → Option (FeatureVector kind)
  past : List (Moment ρ kind)

variable {ρ : Type} {kind : VectorKind}

def VectorUse.apply (ranker : ρ → Ranker kind) (v : FeatureVector kind) :
    VectorUse ρ → Answer × FeatureVector kind
  | set write =>
    match v.set? write with
    | some v => (.done, v)
    | none => (.panic, v)
  | read ordinal => (.ofOption (v.get? ordinal), v)
  | reset => (.done, v.reset)
  | score r =>
    let scored := (ranker r).scoreInPlace v
    (.ofOption scored.1, scored.2)

namespace Session

def start : Session ρ kind := ⟨fun _ => none, []⟩

def vacate (held : Nat → Option (FeatureVector kind)) (reuse : Option Nat) :
    Nat → Option (FeatureVector kind) :=
  fun name => if reuse = some name then none else held name

/-- Takes a step. A vector that was to be taken over is lost if the step panics. -/
def act (ranker : ρ → Ranker kind) (s : Session ρ kind) (step : VectorStep ρ) : Session ρ kind :=
  match step with
  | .handOut r name reuse =>
    let old := reuse.bind s.held
    match (ranker r).newVector? old with
    | some v =>
      ⟨Function.update (vacate s.held reuse) name (some v), ⟨step, old, .done⟩ :: s.past⟩
    | none => ⟨vacate s.held reuse, ⟨step, old, .panic⟩ :: s.past⟩
  | .use name use =>
    match s.held name with
    | some v =>
      let after := use.apply ranker v
      ⟨Function.update s.held name (some after.2), ⟨step, some v, after.1⟩ :: s.past⟩
    | none => ⟨s.held, ⟨step, none, .absent⟩ :: s.past⟩

section Steps

variable {ranker : ρ → Ranker kind} {s : Session ρ kind} {name : Nat} {v : FeatureVector kind}

theorem act_handOut {r : ρ} {reuse : Option Nat}
    (h : (ranker r).newVector? (reuse.bind s.held) = some v) :
    s.act ranker (.handOut r name reuse) =
      ⟨Function.update (vacate s.held reuse) name (some v),
        ⟨.handOut r name reuse, reuse.bind s.held, .done⟩ :: s.past⟩ := by
  simp only [act, h]

theorem act_handOut_panic {r : ρ} {reuse : Option Nat}
    (h : (ranker r).newVector? (reuse.bind s.held) = none) :
    s.act ranker (.handOut r name reuse) =
      ⟨vacate s.held reuse, ⟨.handOut r name reuse, reuse.bind s.held, .panic⟩ :: s.past⟩ := by
  simp only [act, h]

theorem act_use (h : s.held name = some v) (use : VectorUse ρ) :
    s.act ranker (.use name use) =
      ⟨Function.update s.held name (some (use.apply ranker v).2),
        ⟨.use name use, some v, (use.apply ranker v).1⟩ :: s.past⟩ := by
  simp only [act, h]

theorem act_absent (h : s.held name = none) (use : VectorUse ρ) :
    s.act ranker (.use name use) = ⟨s.held, ⟨.use name use, none, .absent⟩ :: s.past⟩ := by
  simp only [act, h]

end Steps

def run (ranker : ρ → Ranker kind) (steps : List (VectorStep ρ)) : Session ρ kind :=
  steps.foldl (act ranker) start

def answers (s : Session ρ kind) : List Answer := s.past.map (·.answer)

end Session

end Relevance
