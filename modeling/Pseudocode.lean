import Pseudocode.Main
import Pseudocode.Proofs.Loading
import Pseudocode.Proofs.Runs
import Pseudocode.Proofs.Grammar
import Pseudocode.Proofs.Layout
import Pseudocode.Proofs.Viability
import Pseudocode.Proofs.Exactness
import Pseudocode.Proofs.Rounding
import Pseudocode.Proofs.Trimming
import Pseudocode.Proofs.Lexing
import Pseudocode.Proofs.Division
import Pseudocode.Proofs.NumberTexts
import Pseudocode.Proofs.Declaring
import Pseudocode.Proofs.Rendering
import Pseudocode.Proofs.Reading
import Pseudocode.Proofs.Failures
import Pseudocode.Proofs.Arguments
import Pseudocode.Proofs.Numerals
import Pseudocode.Proofs.SignedLiterals
import Pseudocode.Proofs.Finiteness
import Pseudocode.Proofs.Resolution
import Pseudocode.Proofs.Dispatch
import Pseudocode.Proofs.Stages
import Pseudocode.Proofs.Provenance
import Pseudocode.Proofs.Renumbering
import Pseudocode.Proofs.Comments
import Pseudocode.Proofs.FurtherInput
import Pseudocode.Proofs.Lockstep
import Pseudocode.Proofs.FullOutput
import Pseudocode.Proofs.Patterns
import Pseudocode.Proofs.LongestMatch
import Pseudocode.Proofs.Composition
import Pseudocode.Proofs.Independence
import Pseudocode.Proofs.Nearest
import Pseudocode.Proofs.RealLiterals
import Pseudocode.Proofs.ReadBack
import Pseudocode.Proofs.ArgumentLists
import Pseudocode.Proofs.NameLists
import Pseudocode.Proofs.WordsAndLines
import Pseudocode.Proofs.Encoding
import Pseudocode.Proofs.GarbledLines
import Pseudocode.Proofs.MeaningfulLines
import Pseudocode.Proofs.Separators
import Pseudocode.Proofs.DeclarationLists
import Pseudocode.Proofs.Listings
import Pseudocode.Proofs.TokenTexts
import Pseudocode.Proofs.Conversions
import Pseudocode.Proofs.BitPatterns
import Pseudocode.Proofs.ThroughReals
import Pseudocode.Proofs.InsertionOrder
import Pseudocode.Proofs.Descent
import Pseudocode.Proofs.ReportedLines
