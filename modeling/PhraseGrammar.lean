import PhraseGrammar.Text.Blank
import PhraseGrammar.Text.Lines
import PhraseGrammar.Text.Unprintable
import PhraseGrammar.Text.Quoted
import PhraseGrammar.Double.Magnitude
import PhraseGrammar.Double.Basic
import PhraseGrammar.Double.Numeral
import PhraseGrammar.Double.Shortest
import PhraseGrammar.Production
import PhraseGrammar.Grammar.Index
import PhraseGrammar.Grammar.Basic
import PhraseGrammar.Grammar.Printer
import PhraseGrammar.Grammar.Closure
import PhraseGrammar.Grammar.Source
import PhraseGrammar.Tree
import PhraseGrammar.Chart.Cell
import PhraseGrammar.Chart.Basic
import PhraseGrammar.Chart.Filling
import PhraseGrammar.Chart.Forest
import PhraseGrammar.Chart.Listing
import PhraseGrammar.Sentence
import PhraseGrammar.Random.ChaCha
import PhraseGrammar.Random.Choice
import PhraseGrammar.Generator.Basic
import PhraseGrammar.Generator.Drafting
import PhraseGrammar.CommandLine.Directory
import PhraseGrammar.CommandLine.Options
import PhraseGrammar.CommandLine.Session
import PhraseGrammar.Main
import PhraseGrammar.Proofs.Lookup
import PhraseGrammar.Proofs.FilledChart
import PhraseGrammar.Proofs.Derivation
import PhraseGrammar.Proofs.CanonicalOrder
import PhraseGrammar.Proofs.Draws
import PhraseGrammar.Proofs.Results
import PhraseGrammar.Proofs.Steps
import PhraseGrammar.Proofs.Choices
import PhraseGrammar.Proofs.Expansion
import PhraseGrammar.Proofs.GeneratedParses
import PhraseGrammar.Proofs.SteeredGeneration
import PhraseGrammar.Proofs.DrawnWords
import PhraseGrammar.Proofs.NestingLimits
import PhraseGrammar.Proofs.Runs
import PhraseGrammar.Proofs.Rounding
import PhraseGrammar.Proofs.DecimalText
import PhraseGrammar.Proofs.LineLayout
import PhraseGrammar.Proofs.ReadingGrammars
import PhraseGrammar.Proofs.PrintedGrammars
import PhraseGrammar.Proofs.BracketedText
import PhraseGrammar.Proofs.FairShares
import PhraseGrammar.Proofs.AcyclicGrammars
import PhraseGrammar.Proofs.AddedRules
import PhraseGrammar.Proofs.ContextIndependence
import PhraseGrammar.Proofs.SentenceLines
import PhraseGrammar.Proofs.WrittenTrees
import PhraseGrammar.Proofs.ParseModes
import PhraseGrammar.Proofs.ReparsedSentences
import PhraseGrammar.Proofs.RuleShapes
import PhraseGrammar.Proofs.SpacedPairs
import PhraseGrammar.Proofs.EncodedLines
import PhraseGrammar.Proofs.InPlaceFilling
import PhraseGrammar.Proofs.LineByLine
import PhraseGrammar.Proofs.DerivationCounts
import PhraseGrammar.Proofs.Backpointers
import PhraseGrammar.Proofs.ForestQueries
import PhraseGrammar.Proofs.Batches
import PhraseGrammar.Proofs.SeededRuns
import PhraseGrammar.Proofs.UnknownWords
import PhraseGrammar.Proofs.UndefinedSymbols
import PhraseGrammar.Proofs.JoinedSources
import PhraseGrammar.Proofs.RoundedSums
import PhraseGrammar.Proofs.WeightedDraws
import PhraseGrammar.Proofs.WordsOnLines
import PhraseGrammar.Proofs.IgnoredWeights
import PhraseGrammar.Proofs.CellPositions
