import Lisplet.Environment
import Lisplet.Main
import Lisplet.Proofs.Locality
import Lisplet.Proofs.RoundTrip
import Lisplet.Proofs.Sessions
import Lisplet.Proofs.Incomplete
import Lisplet.Proofs.Compounds
import Lisplet.Proofs.Splitting
import Lisplet.Proofs.Chains
import Lisplet.Proofs.Renaming
import Lisplet.Proofs.Isolation
import Lisplet.Proofs.Coupling
import Lisplet.Proofs.Unused
import Lisplet.Proofs.Limits
import Lisplet.Proofs.Drivers
import Lisplet.Proofs.Streaming
import Lisplet.Proofs.Settling
import Lisplet.Proofs.Sequencing
import Lisplet.Proofs.Termination
import Lisplet.Proofs.Segments
import Lisplet.Proofs.Cursor
import Lisplet.Proofs.Canonical
import Lisplet.Proofs.Applications
import Lisplet.Proofs.Scoping
import Lisplet.Proofs.Arguments
import Lisplet.Proofs.Arithmetic
import Lisplet.Proofs.Definitions
import Lisplet.Proofs.Numerals
