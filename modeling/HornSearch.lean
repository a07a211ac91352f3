import HornSearch.Item.Classes
import HornSearch.KnowledgeBase.File
import HornSearch.Search.Resolver
import HornSearch.Proofs.Instantiation
import HornSearch.Proofs.TermEquality
import HornSearch.Proofs.Environment
import HornSearch.Proofs.Solutions
import HornSearch.Proofs.Derivation
import HornSearch.Proofs.Recording
import HornSearch.Proofs.Nesting
import HornSearch.Proofs.MostGeneral
import HornSearch.Proofs.Totality
import HornSearch.Proofs.FullValues
import HornSearch.Proofs.OccursCheck
import HornSearch.Proofs.StoreCalls
import HornSearch.Proofs.FreshCopies
import HornSearch.Proofs.Journal
import HornSearch.Proofs.Freshness
import HornSearch.Proofs.ProvedGoals
import HornSearch.Proofs.Queries
import HornSearch.Proofs.ClosedTrees
import HornSearch.Proofs.Consequence
import HornSearch.Proofs.Certificate
import HornSearch.Proofs.GroundAnswers
import HornSearch.Proofs.AbandonedBranches
import HornSearch.Proofs.Conjunctions
import HornSearch.Proofs.NoCapture
import HornSearch.Proofs.Renamings
import HornSearch.Proofs.StandardCopies
import HornSearch.Proofs.Equivariance
import HornSearch.Proofs.Texts
import HornSearch.Proofs.Courses
import HornSearch.Proofs.Outcomes
import HornSearch.Proofs.SearchCourses
import HornSearch.Proofs.Levels
import HornSearch.Proofs.DepthGuard
import HornSearch.Proofs.Lockstep
import HornSearch.Proofs.RenamedQueries
import HornSearch.Proofs.StartingBindings
import HornSearch.Proofs.FirstMatch
import HornSearch.Proofs.BoundedSearch
import HornSearch.Proofs.Runs
import HornSearch.Proofs.RelevantClauses
import HornSearch.Proofs.Locality
import HornSearch.Proofs.Growth
import HornSearch.Proofs.FactQueries
import HornSearch.Proofs.UnificationOrder
import HornSearch.Proofs.IndependentGoals
import HornSearch.Proofs.GeneralAnswers
import HornSearch.Proofs.ShownAnswers
import HornSearch.Proofs.Documents
import HornSearch.Proofs.Persistence
import HornSearch.Proofs.DocumentGrammar
import HornSearch.Proofs.LoadedKnowledge
import HornSearch.Proofs.StoredClauses
import HornSearch.Proofs.IntrinsicAnswers
import HornSearch.Proofs.EqualOperands
