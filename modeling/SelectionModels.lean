import SelectionModels.CommandLine.Run
import SelectionModels.CompiledDocument
import SelectionModels.Format.Declaration
import SelectionModels.Format.Document
import SelectionModels.Main
import SelectionModels.Proofs.Obligations
import SelectionModels.Proofs.ScalarNames
import SelectionModels.Proofs.Verdict
import SelectionModels.Proofs.Emission
import SelectionModels.Proofs.Acceptance
import SelectionModels.Proofs.ModelNames
import SelectionModels.Proofs.Agreement
import SelectionModels.Proofs.ScalarUses
import SelectionModels.Proofs.Rearrangement
import SelectionModels.Proofs.VisitLog
import SelectionModels.Proofs.StandingClaims
import SelectionModels.Proofs.Identifiers
import SelectionModels.Proofs.Loading
import SelectionModels.Proofs.AllOrNothing
import SelectionModels.Proofs.Subcommands
import SelectionModels.Proofs.Spelling
import SelectionModels.Proofs.Strings
import SelectionModels.Proofs.Tokens
import SelectionModels.Proofs.Skipping
import SelectionModels.Proofs.Reading
import SelectionModels.Proofs.Shapes
import SelectionModels.Proofs.Records
import SelectionModels.Proofs.Contents
import SelectionModels.Proofs.Decoding
import SelectionModels.Proofs.Yields
import SelectionModels.Proofs.Nesting
import SelectionModels.Proofs.RoundTrip
import SelectionModels.Proofs.Recasting
import SelectionModels.Proofs.Annotations
import SelectionModels.Proofs.Unfollowed
import SelectionModels.Proofs.Streaming
import SelectionModels.Proofs.Closing
import SelectionModels.Proofs.SoleValue
import SelectionModels.Proofs.Doubles
import SelectionModels.Proofs.Integers
import SelectionModels.Proofs.Replacing
import SelectionModels.Proofs.Spoiling
import SelectionModels.Proofs.Locating
import SelectionModels.Proofs.ErrorPaths
import SelectionModels.Proofs.PropertyLookup
import SelectionModels.Proofs.ScalarVerdict
import SelectionModels.Proofs.SyntaxTrees
import SelectionModels.Proofs.SkippedTokens
import SelectionModels.Proofs.SkippedTrees
import SelectionModels.Proofs.ShownTrees
import SelectionModels.Proofs.ContentTrees
import SelectionModels.Proofs.FormatTrees
import SelectionModels.Proofs.DecodedTrees
import SelectionModels.Proofs.WrittenTrees
import SelectionModels.Proofs.EmptiedPaths
import SelectionModels.Proofs.PathBounds
import SelectionModels.Proofs.Layers
import SelectionModels.Proofs.TypeTexts
import SelectionModels.Proofs.Views
import SelectionModels.Proofs.NumberTexts
import SelectionModels.Proofs.StringTexts
import SelectionModels.Proofs.TokenTexts
import SelectionModels.Proofs.ValueTexts
import SelectionModels.Proofs.WrittenDocuments
