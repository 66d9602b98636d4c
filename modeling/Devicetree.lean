import Devicetree.Debug
import Devicetree.Interrupt
import Devicetree.Proofs.Dependence
import Devicetree.Proofs.Mirrors
import Devicetree.Proofs.Paths
import Devicetree.Proofs.Refusal
import Devicetree.Proofs.Runs
import Devicetree.Proofs.Truncation
import Devicetree.Proofs.Discipline
import Devicetree.Proofs.Scans
import Devicetree.Proofs.Routing
import Devicetree.Proofs.Transitions
import Devicetree.Proofs.Circuits
import Devicetree.Proofs.Extents
import Devicetree.Proofs.Decoding
import Devicetree.Proofs.Progress
import Devicetree.Proofs.Loops
import Devicetree.Proofs.Entries
import Devicetree.Proofs.TextLists
import Devicetree.Proofs.Names
import Devicetree.Proofs.Acceptance
import Devicetree.Proofs.Wrapping
import Devicetree.Proofs.Compatible
import Devicetree.Proofs.Matching
import Devicetree.Proofs.Counts
import Devicetree.Proofs.Faults
import Devicetree.Proofs.Requests
import Devicetree.Proofs.PathTexts
