import Fern.Main
import Fern.Proofs.EvalInvariant
import Fern.Proofs.GrammarShape
import Fern.Proofs.WordRange
import Fern.Proofs.ResolvedExpr
import Fern.Proofs.ResolvedProgram
import Fern.Proofs.GoodValues
import Fern.Proofs.ResolutionSound
import Fern.Proofs.EvalPairs
import Fern.Proofs.AlphaExpr
import Fern.Proofs.AlphaTerm
import Fern.Proofs.Renaming
import Fern.Proofs.Writing
import Fern.Proofs.Layout
import Fern.Proofs.WordParsers
import Fern.Proofs.WordReading
import Fern.Proofs.LevelReading
import Fern.Proofs.WrittenTerms
import Fern.Proofs.TermReading
import Fern.Proofs.TypeReading
import Fern.Proofs.RoundTrip
import Fern.Proofs.SameUpTo
import Fern.Proofs.TypeTables
import Fern.Proofs.SharedTypes
import Fern.Proofs.ResolveWithin
import Fern.Proofs.DeclarationOrder
import Fern.Proofs.MoreDeclarations
import Fern.Proofs.DeclaredProgram
import Fern.Proofs.GrammarPairs
import Fern.Proofs.LocalReading
import Fern.Proofs.LocalWords
import Fern.Proofs.LocalGrammar
import Fern.Proofs.ReadingEnds
import Fern.Proofs.LocalDeclarations
import Fern.Proofs.BoundedReading
import Fern.Proofs.JoinedText
import Fern.Proofs.JoinedFaults
import Fern.Proofs.FaultPlaces
import Fern.Proofs.SessionScript
import Fern.Proofs.FirstCharacters
import Fern.Proofs.DataReading
import Fern.Proofs.DataValues
import Fern.Proofs.DataEvaluation
import Fern.Proofs.DisplayedData
import Fern.Proofs.LastCharacters
import Fern.Proofs.LineRequests
import Fern.Proofs.ProgramOrExpression
import Fern.Proofs.WordArithmetic
import Fern.Proofs.KeywordNames
import Fern.Proofs.RespelledExpr
import Fern.Proofs.RespelledTerm
import Fern.Proofs.WrittenMatches
import Fern.Proofs.MatchSelection
import Fern.Proofs.BareExpr
import Fern.Proofs.FreeNames
import Fern.Proofs.PlainTexts
import Fern.Proofs.SessionGoesOn
import Fern.Proofs.OperandReading
import Fern.Proofs.OperatorTrees
import Fern.Proofs.OperatorRows
import Fern.Proofs.ConsistentTypes
import Fern.Proofs.CompleteSplits
import Fern.Proofs.FieldSelection
import Fern.Proofs.ArmOrder
import Fern.Proofs.TextBuiltins
import Fern.Proofs.DisplayedTypes
import Fern.Proofs.UnboundNames
import Fern.Proofs.OpenAlpha
import Fern.Proofs.EntryRenaming
import Fern.Proofs.LargerLimits
import Fern.Proofs.ShownLines
import Fern.Proofs.QuotedTexts
import Fern.Proofs.MarkedTrees
import Fern.Proofs.MarkedLines
import Fern.Proofs.GrammarTrees
import Fern.Proofs.ShownNames
