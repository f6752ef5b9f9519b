import ContextFree.Command.FileTree
import ContextFree.Grammar.Derivation
import ContextFree.Main
import ContextFree.Session
import ContextFree.Proofs.Analysis
import ContextFree.Proofs.EpsilonElimination
import ContextFree.Proofs.UnitElimination
import ContextFree.Proofs.CleanUp
import ContextFree.Proofs.Sweeps
import ContextFree.Proofs.FreshNames
import ContextFree.Proofs.Abbreviation
import ContextFree.Proofs.Conversion
import ContextFree.Proofs.ChomskyForm
import ContextFree.Proofs.Stages
import ContextFree.Proofs.Language
import ContextFree.Proofs.DerivationLength
import ContextFree.Proofs.Usefulness
import ContextFree.Proofs.Allocation
import ContextFree.Proofs.RuleLists
import ContextFree.Proofs.WellFormed
import ContextFree.Proofs.NewSymbols
import ContextFree.Proofs.Declarations
import ContextFree.Proofs.Traversal
import ContextFree.Proofs.Unfolding
import ContextFree.Proofs.Reversal
import ContextFree.Proofs.KeyOrder
import ContextFree.Proofs.AlternativeOrder
import ContextFree.Proofs.Descriptions
import ContextFree.Proofs.Patterns
import ContextFree.Proofs.ProductionLines
import ContextFree.Proofs.TextReading
import ContextFree.Proofs.RenderedText
import ContextFree.Proofs.TextRoundTrip
import ContextFree.Proofs.DescriptionRoundTrip
import ContextFree.Proofs.CommandRuns
import ContextFree.Proofs.JsonRoundTrip
import ContextFree.Proofs.Utf8Decoding
import ContextFree.Proofs.CommandOutput
import ContextFree.Proofs.InputFormats
import ContextFree.Proofs.SymbolWords
import ContextFree.Proofs.EpsilonLoss
import ContextFree.Proofs.Consistency
import ContextFree.Proofs.SessionRuns
import ContextFree.Proofs.Reduction
import ContextFree.Proofs.EmptyLanguage
import ContextFree.Proofs.GeneralConversion
import ContextFree.Proofs.Idempotence
import ContextFree.Proofs.FixedPoints
import ContextFree.Proofs.UnitSearch
import ContextFree.Proofs.Variants
