import Plonkish.Assignment.Dump
import Plonkish.Component.Assign
import Plonkish.Component.Check
import Plonkish.Component.Place
import Plonkish.Exchange.Forms
import Plonkish.Expr.Postfix
import Plonkish.Lookup.Catalogue
import Plonkish.Lookup.Reading
import Plonkish.Satisfaction
import Plonkish.Zone.Dump
import Plonkish.Proofs.Expr.Leaves
import Plonkish.Proofs.Satisfaction
import Plonkish.Proofs.Component.Placed
import Plonkish.Proofs.Component.Soundness
import Plonkish.Proofs.Component.Filling
import Plonkish.Proofs.Component.Feasible
import Plonkish.Proofs.Component.Completeness
import Plonkish.Proofs.Component.Lookups
import Plonkish.Proofs.Component.Assembly
import Plonkish.Proofs.Partition
import Plonkish.Proofs.Zone.Address
import Plonkish.Proofs.Zone.Checks
import Plonkish.Proofs.Zone.Independence
import Plonkish.Proofs.Lookup.Fold
import Plonkish.Proofs.Lookup.Layout
import Plonkish.Proofs.Lookup.Marking
import Plonkish.Proofs.Lookup.Packed
import Plonkish.Proofs.Lookup.Stacking
import Plonkish.Proofs.Lookup.Catalogue
import Plonkish.Proofs.Violation
import Plonkish.Proofs.Lookup.Geometry
import Plonkish.Proofs.Lookup.Exhausted
import Plonkish.Proofs.Component.Wiring
import Plonkish.Proofs.Component.Composition
import Plonkish.Proofs.Component.Surroundings
import Plonkish.Proofs.Zone.Window
import Plonkish.Proofs.Lookup.Vertical
import Plonkish.Proofs.Obligations
import Plonkish.Proofs.Sharing
import Plonkish.Proofs.Component.Order
import Plonkish.Proofs.Edits
import Plonkish.Proofs.Zone.Overrun
import Plonkish.Proofs.Locality
import Plonkish.Proofs.Lookup.Enlisting
import Plonkish.Proofs.Lookup.Reservations
import Plonkish.Proofs.Zone.Growth
import Plonkish.Proofs.Lookup.FirstFit
import Plonkish.Proofs.Ranks
import Plonkish.Proofs.Calls
import Plonkish.Proofs.Selectors
import Plonkish.Proofs.Lookup.Untouched
import Plonkish.Proofs.Component.Cuts
import Plonkish.Proofs.Lookup.Stability
import Plonkish.Proofs.Lookup.Horizontal
import Plonkish.Proofs.Expr.Text
import Plonkish.Proofs.Lookup.Folding
import Plonkish.Proofs.Zone.Numbering
import Plonkish.Proofs.Lookup.Naming
import Plonkish.Proofs.Dump
import Plonkish.Proofs.ByteRanks
import Plonkish.Proofs.Lookup.Shrinking
