import Relevance.Binary32.Basic

namespace Relevance

/-- A score takes four bytes, and a block of memory has fewer than `2 ^ 63`. -/
def slotBound : Nat := 1 <<< 61

def slots? (count : Nat) (score : Binary32) : Option (Array Binary32) :=
  if count < slotBound then some (Array.replicate count score) else none

end Relevance
