import PathCopy.Procedure.Cursor
import PathCopy.Procedure.Walk
import PathCopy.Proofs.Compounds
import PathCopy.Proofs.Configuration
import PathCopy.Proofs.Declared
import PathCopy.Proofs.Exponents
import PathCopy.Proofs.Faults
import PathCopy.Proofs.Freezing
import PathCopy.Proofs.Headings
import PathCopy.Proofs.Indices
import PathCopy.Proofs.Isolation
import PathCopy.Proofs.Lens
import PathCopy.Proofs.Literals
import PathCopy.Proofs.Losses
import PathCopy.Proofs.Naming
import PathCopy.Proofs.NumericKeys
import PathCopy.Proofs.OneTree
import PathCopy.Proofs.Progress
import PathCopy.Proofs.Refinement
import PathCopy.Proofs.Returns
import PathCopy.Proofs.RoundTrip
import PathCopy.Proofs.Scoping
import PathCopy.Proofs.Separation
import PathCopy.Proofs.StraightLine
import PathCopy.Proofs.Tiling
import PathCopy.Proofs.Unfolding
import PathCopy.Proofs.UnknownKeys
import PathCopy.Proofs.Warnings
import PathCopy.Proofs.Writable
import PathCopy.Update.History
import PathCopy.Update.Report
import PathCopy.Value.Equality
import PathCopy.Value.Holdings
