import Relevance.Decimal.Text

namespace Relevance

inductive Fault
  | outOfRange
  | tooLarge
  | outputTooLong (slots rows : Nat)
  | disagreement (row : Nat) (first : String) (firstScore : Binary32) (second : String)
      (secondScore : Binary32)
  deriving DecidableEq

def Fault.message? : Fault → Option String
  | outOfRange | tooLarge => none
  | outputTooLong slots rows => some s!"output has {slots} slots but the matrix only {rows} rows"
  | disagreement row first firstScore second secondScore =>
    some s!"row {row}: {first} scored {firstScore}, {second} scored {secondScore}"

end Relevance
