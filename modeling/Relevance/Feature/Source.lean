import Relevance.Binary32.Basic

namespace Relevance

/-- The feature scores of one candidate by ordinal; there is none outside its slots. -/
abbrev FeatureSource := Nat → Option Binary32

def FeatureSource.ofRow (row : Array Binary32) : FeatureSource := fun ordinal => row[ordinal]?

end Relevance
