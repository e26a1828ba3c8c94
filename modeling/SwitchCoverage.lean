import SwitchCoverage.Catalog.Fields
import SwitchCoverage.Classes
import SwitchCoverage.Diagnostic.Explanation
import SwitchCoverage.Json.Decl
import SwitchCoverage.Json.Diagnostic
import SwitchCoverage.Json.Pattern
import SwitchCoverage.Pattern.Equality
import SwitchCoverage.Sample
import SwitchCoverage.Switch.Check
import SwitchCoverage.Ty.Equality
import SwitchCoverage.Proofs.Cases
import SwitchCoverage.Proofs.Verdict
import SwitchCoverage.Proofs.Arms
import SwitchCoverage.Proofs.Closure
import SwitchCoverage.Proofs.LoneFields
import SwitchCoverage.Proofs.Legible
import SwitchCoverage.Proofs.Silence
import SwitchCoverage.Proofs.Decision
import SwitchCoverage.Proofs.Renaming
import SwitchCoverage.Proofs.Reordering
import SwitchCoverage.Proofs.Extension
import SwitchCoverage.Proofs.Cutoff
import SwitchCoverage.Proofs.Depth
import SwitchCoverage.Proofs.Spelling
import SwitchCoverage.Proofs.Flattening
import SwitchCoverage.Proofs.Suffix
import SwitchCoverage.Proofs.Combinations
import SwitchCoverage.Proofs.Counting
import SwitchCoverage.Proofs.Ancestry
import SwitchCoverage.Proofs.Faults
import SwitchCoverage.Proofs.Edits
import SwitchCoverage.Proofs.Mending
import SwitchCoverage.Proofs.Scope
import SwitchCoverage.Proofs.Instances
import SwitchCoverage.Proofs.Composition
import SwitchCoverage.Proofs.OpenDefaults
import SwitchCoverage.Proofs.Canonical
import SwitchCoverage.Proofs.Enclosing
import SwitchCoverage.Proofs.Supertypes
import SwitchCoverage.Proofs.Readable
import SwitchCoverage.Proofs.Resolution
import SwitchCoverage.Proofs.Override
import SwitchCoverage.Proofs.Sameness
