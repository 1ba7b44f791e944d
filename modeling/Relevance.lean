import Relevance.Proofs.AgreementChecks
import Relevance.Proofs.CheckedSettings
import Relevance.Proofs.CopiedTrees
import Relevance.Proofs.EncodedIdentity
import Relevance.Proofs.EncodedScores
import Relevance.Proofs.FlooredTrees
import Relevance.Proofs.LinearScores
import Relevance.Proofs.LoadEvents
import Relevance.Proofs.LoadRefusals
import Relevance.Proofs.LoggedRuns
import Relevance.Proofs.MemoryFigures
import Relevance.Proofs.NormalizedOrder
import Relevance.Proofs.NormalizingTower
import Relevance.Proofs.NumberQuotient
import Relevance.Proofs.PackedTiling
import Relevance.Proofs.ReachedFloors
import Relevance.Proofs.Recycling
import Relevance.Proofs.RoundingError
import Relevance.Proofs.SavedSettings
import Relevance.Proofs.ScoringTotal
import Relevance.Proofs.SparseSlots
import Relevance.Proofs.TreeIdentity
import Relevance.Proofs.TreeWalks
import Relevance.Proofs.VisitedAddresses
import Relevance.Ranker.Bulk
import Relevance.Sample
import Relevance.Settings.Write
import Relevance.Tree.Listing
