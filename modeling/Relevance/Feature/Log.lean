import Relevance.Binary32.Basic

namespace Relevance

structure FeatureWrite where
  ordinal : Nat
  score : Binary32
  deriving DecidableEq

/-- Who is told of the writes to a vector: a recorder, or a callback with the calls that wait. -/
inductive WriteLog
  | recorder (writes : List FeatureWrite) (resets : Nat)
  | callback (calls : List FeatureWrite)
  deriving DecidableEq

namespace WriteLog

def accept (write : FeatureWrite) : WriteLog → WriteLog
  | recorder writes resets => recorder (writes ++ [write]) resets
  | callback calls => callback (calls ++ [write])

def reset : WriteLog → WriteLog
  | recorder _ resets => recorder [] (resets + 1)
  | callback calls => callback calls

def clear : WriteLog → WriteLog
  | recorder _ resets => recorder [] resets
  | callback _ => callback []

def memory : WriteLog → Nat
  | recorder .. => 32
  | callback _ => 8

end WriteLog

end Relevance
