import Relevance.Binary32.Arith
import Relevance.Fingerprint
import Relevance.ModelError

namespace Relevance

/-- A function from the raw score of one feature to its normalized score. -/
inductive Normalizer
  | identity
  | minMax (min max : Binary32)
  | standard (mean deviation : Binary32)
  | logistic
  deriving DecidableEq, Inhabited

namespace Normalizer

/-- The normalizer that maps `min` to zero and `max` to one. -/
def ofBounds (min max : Binary32) : Except ModelError Normalizer :=
  if !min.isFinite || !max.isFinite then .error (.boundsNotFinite min max)
  else if max ≤ min then .error (.boundsOutOfOrder min max)
  else .ok (.minMax min max)

def ofDeviation (mean deviation : Binary32) : Except ModelError Normalizer :=
  if !mean.isFinite || !deviation.isFinite || deviation ≤ .zero then
    .error (.invalidDeviation mean deviation)
  else .ok (.standard mean deviation)

/-- The normalizers that have a name take no parameters. -/
def find? : String → Option Normalizer
  | "noop" | "identity" => some .identity
  | "sigmoid" => some .logistic
  | _ => none

def ofName (name : String) : Except ModelError Normalizer :=
  match find? name with
  | some normalizer => .ok normalizer
  | none => .error (.unknownNormalizer name)

def normalize : Normalizer → Binary32 → Binary32
  | identity, raw => raw
  | minMax min max, raw => (raw - min) / (max - min)
  | standard mean deviation, raw => (raw - mean) / deviation
  | logistic, raw => raw.logistic

def fingerprint : Normalizer → Fingerprint
  | identity => [.size 0]
  | minMax min max => [.size 1, .number min, .number max]
  | standard mean deviation => [.size 2, .number mean, .number deviation]
  | logistic => [.size 3]

end Normalizer

end Relevance
