import CheckedExceptions.Config.Inheritance
import CheckedExceptions.LogFormat
import CheckedExceptions.Report
import CheckedExceptions.Proofs.Evolution
import CheckedExceptions.Proofs.Handling
import CheckedExceptions.Proofs.PreciseRethrow
import CheckedExceptions.Proofs.Coverage
import CheckedExceptions.Proofs.Limits
import CheckedExceptions.Proofs.Involved
import CheckedExceptions.Proofs.Leaving
import CheckedExceptions.Proofs.Agreement
import CheckedExceptions.Proofs.Scoping
import CheckedExceptions.Proofs.ClosedStore
import CheckedExceptions.Proofs.Repetition
import CheckedExceptions.Proofs.Persistence
import CheckedExceptions.Proofs.Antichain
import CheckedExceptions.Proofs.Overloads
import CheckedExceptions.Proofs.Narrowing
import CheckedExceptions.Proofs.Transparency
import CheckedExceptions.Proofs.Inheritance
import CheckedExceptions.Proofs.Loosening
import CheckedExceptions.Proofs.Asking
import CheckedExceptions.Proofs.Absorption
import CheckedExceptions.Proofs.Sorting
import CheckedExceptions.Proofs.Interning
import CheckedExceptions.Proofs.PrefixStability
import CheckedExceptions.Proofs.SettingsReading
import CheckedExceptions.Proofs.Prevailing
import CheckedExceptions.Proofs.SubtypeLimits
import CheckedExceptions.Proofs.RethrowBounds
import CheckedExceptions.Proofs.SubstitutionLaws
import CheckedExceptions.Proofs.NormalCompletion
import CheckedExceptions.Proofs.SiteWalk
import CheckedExceptions.Proofs.ParentChains
import CheckedExceptions.Proofs.Adoption
import CheckedExceptions.Proofs.EarlyRemoval
