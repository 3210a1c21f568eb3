import Harmony.Edit
import Harmony.Main
import Harmony.Registration
import Harmony.View.Reading
import Harmony.Proofs.Catalogue.ChordOmission
import Harmony.Proofs.Catalogue.ChordShape
import Harmony.Proofs.Catalogue.ExtendedChords
import Harmony.Proofs.Catalogue.Nondominant
import Harmony.Proofs.Catalogue.Notation
import Harmony.Proofs.Catalogue.Numerals
import Harmony.Proofs.Catalogue.Refinement
import Harmony.Proofs.Catalogue.ScaleModes
import Harmony.Proofs.Catalogue.SpelledModes
import Harmony.Proofs.Catalogue.Written
import Harmony.Proofs.Chain.Alphabet
import Harmony.Proofs.Chain.ClosedForm
import Harmony.Proofs.Chain.Equivariance
import Harmony.Proofs.Chain.Firing
import Harmony.Proofs.Chain.Order
import Harmony.Proofs.Chain.Replacement
import Harmony.Proofs.Chain.Rerun
import Harmony.Proofs.CommandLine.Flags
import Harmony.Proofs.CommandLine.Names
import Harmony.Proofs.Decimal
import Harmony.Proofs.Edit
import Harmony.Proofs.Json.Escape
import Harmony.Proofs.Json.Number
import Harmony.Proofs.Json.Parser
import Harmony.Proofs.Listing
import Harmony.Proofs.Pattern.Certain
import Harmony.Proofs.Pattern.LookBack
import Harmony.Proofs.Pattern.Notation
import Harmony.Proofs.Pattern.Occurrence
import Harmony.Proofs.Pattern.Reading
import Harmony.Proofs.Pattern.Steady
import Harmony.Proofs.Pattern.Wording
import Harmony.Proofs.Pitch
import Harmony.Proofs.Pitch.Grammar
import Harmony.Proofs.Pitch.Number
import Harmony.Proofs.Registration
import Harmony.Proofs.Resolution.Canonical
import Harmony.Proofs.Resolution.MinorMarker
import Harmony.Proofs.Resolution.Records
import Harmony.Proofs.Resolution.RelativeKey
import Harmony.Proofs.Resolution.Spelling
import Harmony.Proofs.Resolution.Strictness
import Harmony.Proofs.Root
import Harmony.Proofs.Text.CaseFold
import Harmony.Proofs.Text.Letters
import Harmony.Proofs.Text.Notation
import Harmony.Proofs.Transposition.Words
import Harmony.Proofs.View.Reading
import Harmony.Proofs.Document
import Harmony.Proofs.View.Yaml
