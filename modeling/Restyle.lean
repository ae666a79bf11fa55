import Restyle.Main
import Restyle.Proofs.Migration.Order
import Restyle.Proofs.Migration.DryRun
import Restyle.Proofs.Migration.Structure
import Restyle.Proofs.Value.Nesting
import Restyle.Proofs.Command.Configuration
import Restyle.Proofs.Migration.Numbers
import Restyle.Proofs.Value.Quotation
import Restyle.Proofs.Migration.PartOccurrences
import Restyle.Proofs.Value.Rebuilding
import Restyle.Proofs.Value.Wrapping
import Restyle.Proofs.Block.Matching
import Restyle.Proofs.Dialect.Lexemes
import Restyle.Proofs.Mapping.Grammar
import Restyle.Proofs.Configuration.Agreement
import Restyle.Proofs.Interaction.Terminal
import Restyle.Proofs.PropertyName
import Restyle.Proofs.Text.Preview
