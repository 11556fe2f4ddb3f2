import TidySpace.Main
import TidySpace.Proofs.Braces
import TidySpace.Proofs.TokenStream
import TidySpace.Proofs.RuleOrder
import TidySpace.Proofs.Selection
import TidySpace.Proofs.CheckedOptions
import TidySpace.Proofs.ChangedFiles
import TidySpace.Proofs.Documents
import TidySpace.Proofs.StrippingPasses
import TidySpace.Proofs.ShownLines
import TidySpace.Proofs.CommentedGaps
import TidySpace.Proofs.Policies
import TidySpace.Proofs.LocalOptions
import TidySpace.Proofs.OptionGrammar
import TidySpace.Proofs.FailingRules
import TidySpace.Proofs.ByteSources
import TidySpace.Proofs.UnifiedDiffs
import TidySpace.Proofs.Registries
import TidySpace.Proofs.ListedFiles
import TidySpace.Proofs.LoadedSettings
import TidySpace.Proofs.WrittenFiles
import TidySpace.Proofs.SavedSettings
import TidySpace.Proofs.Addresses
import TidySpace.Proofs.DescribedLines
import TidySpace.Proofs.Recognition
