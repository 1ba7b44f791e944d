import Relevance.ModelError
import Relevance.Objective

namespace Relevance

inductive Event
  | built (treeCount featureCount : Nat) (objective : Objective)
  | raised (floor : Binary32) (shifted treeCount : Nat)
  | flattened (treeCount nodeCount : Nat)
  | packed (treeCount byteCount : Nat)
  | loaded (name : String) (featureCount byteCount : Nat)
  deriving DecidableEq

namespace Event

inductive Level
  | debug
  | info

def level : Event → Level
  | built .. | flattened .. | packed .. => .debug
  | raised .. | loaded .. => .info

def message : Event → String
  | built .. => "built naive additive decision tree"
  | raised .. => "raised leaf outputs to floor"
  | flattened .. => "flattened ensemble into primitive arrays"
  | packed .. => "packed ensemble into byte buffer"
  | loaded .. => "loaded tree model"

end Event

/-- A construction that reports events and may be refused. -/
abbrev Build := ExceptT ModelError (StateM (List Event))

namespace Build

def report (event : Event) : Build Unit := modify (· ++ [event])

def outcome {α : Type} (build : Build α) : Except ModelError α × List Event :=
  StateT.run (ExceptT.run build) []

end Build

end Relevance
