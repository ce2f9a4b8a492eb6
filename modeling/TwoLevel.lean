import TwoLevel.Page
import TwoLevel.Session
import TwoLevel.Proofs.Combination
import TwoLevel.Proofs.Cube
import TwoLevel.Proofs.Grammar
import TwoLevel.Proofs.PrimeImplicants
import TwoLevel.Proofs.Cover
import TwoLevel.Proofs.JoinedText
import TwoLevel.Proofs.Lexing
import TwoLevel.Proofs.Rows
import TwoLevel.Proofs.SumOfProducts
import TwoLevel.Proofs.RoundTrip
import TwoLevel.Proofs.ReversePolish
import TwoLevel.Proofs.Rendering
import TwoLevel.Proofs.Agreement
import TwoLevel.Proofs.PatternOrder
import TwoLevel.Proofs.Rounds
import TwoLevel.Proofs.DroppedPlaces
import TwoLevel.Proofs.FixedPoint
import TwoLevel.Proofs.IdleVariables
import TwoLevel.Proofs.Dependence
import TwoLevel.Proofs.MinimumSum
import TwoLevel.Proofs.Redundancy
import TwoLevel.Proofs.Refusal
import TwoLevel.Proofs.Conservation
import TwoLevel.Proofs.Composition
import TwoLevel.Proofs.KeptSettings
import TwoLevel.Proofs.PageEvents
import TwoLevel.Proofs.PageResponse
import TwoLevel.Proofs.TermMeaning
import TwoLevel.Proofs.GreedyChoice
import TwoLevel.Proofs.HarmonicBound
import TwoLevel.Proofs.CanonicalRounds
import TwoLevel.Proofs.AcceptedTerms
import TwoLevel.Proofs.EssentialOrder
import TwoLevel.Proofs.AllPairs
import TwoLevel.Proofs.CubeUnion
import TwoLevel.Proofs.PassCoverage
import TwoLevel.Proofs.PassLoop
import TwoLevel.Proofs.Trace
import TwoLevel.Proofs.Postorder
import TwoLevel.Proofs.RowNumbers
import TwoLevel.Proofs.TokenTexts
import TwoLevel.Proofs.DrawnGrid
