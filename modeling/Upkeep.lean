import Upkeep.Disk.Edit
import Upkeep.Main
import Upkeep.Proofs.Guard
import Upkeep.Proofs.Overlap
import Upkeep.Proofs.Split
import Upkeep.Proofs.Revision
import Upkeep.Proofs.Splice
import Upkeep.Proofs.Step
import Upkeep.Proofs.Batch
import Upkeep.Proofs.Stock
import Upkeep.Proofs.Footprint
import Upkeep.Proofs.Aliasing
import Upkeep.Proofs.CarriageReturn
import Upkeep.Proofs.LineEnding
import Upkeep.Proofs.Fatal
import Upkeep.Proofs.Extension
import Upkeep.Proofs.Scan
import Upkeep.Proofs.Block
import Upkeep.Proofs.Route
import Upkeep.Proofs.Replacement
import Upkeep.Proofs.Contract
import Upkeep.Proofs.Front
import Upkeep.Proofs.Loop
import Upkeep.Proofs.Skipped
import Upkeep.Proofs.Bound
import Upkeep.Proofs.Line
import Upkeep.Proofs.Listing
import Upkeep.Proofs.Passes
import Upkeep.Proofs.Spelling
import Upkeep.Proofs.RoundTrip
import Upkeep.Proofs.Extraction
import Upkeep.Proofs.Layout
import Upkeep.Proofs.Accounting
import Upkeep.Proofs.Arrangement
import Upkeep.Proofs.Expression
