import Relevance.Binary32.Arith
import Relevance.Fingerprint
import Relevance.ModelError

namespace Relevance

inductive Objective
  | identity
  | logistic
  deriving DecidableEq, Inhabited

namespace Objective

/-- Every training objective a link function is known for, the canonical name first. -/
def names : Objective → List String
  | identity => ["reg:linear", "rank:pairwise", "binary:logitraw", "identity"]
  | logistic => ["binary:logistic", "reg:logistic", "logistic"]

def name : Objective → String
  | identity => "reg:linear"
  | logistic => "binary:logistic"

def fallback : Objective := .identity

def find? (name : String) : Option Objective :=
  [identity, logistic].find? (name ∈ ·.names)

def ofName (name : String) : Except ModelError Objective :=
  match find? name with
  | some objective => .ok objective
  | none => .error (.unknownObjective name)

def transform : Objective → Binary32 → Binary32
  | identity, raw => raw
  | logistic, raw => raw.logistic

def fingerprint : Objective → Fingerprint
  | identity => [.size 0]
  | logistic => [.size 1]

end Objective

end Relevance
