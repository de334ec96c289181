import Codemod.Main
import Codemod.Text.Utf8
import Codemod.Proofs.Station
import Codemod.Proofs.Explore
import Codemod.Proofs.GroupNumber
import Codemod.Proofs.Scan
import Codemod.Proofs.Replace
import Codemod.Proofs.Spell
import Codemod.Proofs.FormSpell
import Codemod.Proofs.Reading
import Codemod.Proofs.Tokens
import Codemod.Proofs.ShapeSpell
import Codemod.Proofs.ShapeGrammar
import Codemod.Proofs.Outline
import Codemod.Proofs.Seam
import Codemod.Proofs.Capture
import Codemod.Proofs.Rewrite
import Codemod.Proofs.MigrationShapes
import Codemod.Proofs.MigrationRules
import Codemod.Proofs.Assertion
import Codemod.Proofs.Passes
import Codemod.Proofs.Residue
import Codemod.Proofs.Enumerate
import Codemod.Proofs.SecondPass
import Codemod.Proofs.Overwrite
import Codemod.Proofs.Visits
import Codemod.Proofs.CheckMode
import Codemod.Proofs.Participation
import Codemod.Proofs.Occurrences
import Codemod.Proofs.Copies
import Codemod.Proofs.Convergence
import Codemod.Proofs.Brackets
import Codemod.Proofs.Nesting
import Codemod.Proofs.Places
import Codemod.Proofs.Changes
import Codemod.Proofs.WriteMode
import Codemod.Proofs.Order
import Codemod.Proofs.Arguments
import Codemod.Proofs.CheckStatus
import Codemod.Proofs.ManifestTargets
import Codemod.Proofs.Sharp
import Codemod.Proofs.Turns
import Codemod.Proofs.Layout
import Codemod.Proofs.Organizations
import Codemod.Proofs.Choice
import Codemod.Proofs.Direct
import Codemod.Proofs.Extent
import Codemod.Proofs.Anatomy
import Codemod.Proofs.Spacing
import Codemod.Proofs.Coverage
import Codemod.Proofs.LineEndings
import Codemod.Proofs.SplitText
import Codemod.Proofs.Depth
import Codemod.Proofs.Overlap
import Codemod.Proofs.ImportScan
import Codemod.Proofs.CrlfPass
import Codemod.Proofs.TokenTexts
import Codemod.Proofs.ManifestText
import Codemod.Proofs.Declarations
import Codemod.Proofs.Commute
import Codemod.Proofs.TemplateParts
import Codemod.Proofs.Grammar
import Codemod.Proofs.GrammarSteps
import Codemod.Proofs.GrammarSound
import Codemod.Proofs.GrammarComplete
import Codemod.Proofs.Preference
import Codemod.Proofs.FindReplace
