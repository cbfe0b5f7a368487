import LevelIr.Listing.Excerpt
import LevelIr.Listing.Forward
import LevelIr.Listing.Ledger
import LevelIr.Listing.Text
import LevelIr.Produce
import LevelIr.Proofs.Pass
import LevelIr.Proofs.Program.Coherent
import LevelIr.Proofs.Statement.OfInst
import LevelIr.Sample
import LevelIr.Proofs.Workspace
import LevelIr.Proofs.Produce
import LevelIr.Proofs.Listing.Contiguous
import LevelIr.Proofs.Listing.Transcript
import LevelIr.Proofs.Listing.WellBuilt
import LevelIr.Proofs.Listing.Forwarding
import LevelIr.Proofs.Machine
import LevelIr.Proofs.Listing.Execution
import LevelIr.Proofs.Listing.Crossing
import LevelIr.Proofs.Slot.Run
import LevelIr.Proofs.Slot.Versioned
import LevelIr.Proofs.Slot.Sharing
import LevelIr.Proofs.Slot.Initialised
import LevelIr.Proofs.Slot.Rerun
import LevelIr.Proofs.Slot.Meaning
import LevelIr.Proofs.Pass.Repeats
import LevelIr.Proofs.Statement.Congruence
import LevelIr.Proofs.Listing.Rebuild
import LevelIr.Proofs.Listing.Excerpt
import LevelIr.Proofs.Listing.Discarded
import LevelIr.Proofs.Listing.Handover
import LevelIr.Proofs.Listing.Reached
import LevelIr.Proofs.Listing.Ledger
import LevelIr.Proofs.Listing.Reads
import LevelIr.Proofs.Listing.DisplayNames
import LevelIr.Proofs.Statement.Uses
import LevelIr.Proofs.Slot.Forwarded
import LevelIr.Proofs.Listing.Sweep
import LevelIr.Proofs.Session
import LevelIr.Proofs.Requests
import LevelIr.Proofs.Listing.SharedOperands
import LevelIr.Proofs.Listing.Unlisted
import LevelIr.Proofs.Listing.Levels
import LevelIr.Proofs.Listing.SinglePass
import LevelIr.Proofs.Listing.Settling
import LevelIr.Proofs.Listing.Calls
import LevelIr.Proofs.Program.Origins
import LevelIr.Proofs.Statement.Written
import LevelIr.Proofs.Slot.Effect
import LevelIr.Proofs.Slot.Registered
import LevelIr.Proofs.Listing.Registers
import LevelIr.Proofs.Ty
import LevelIr.Proofs.Program.Operations
import LevelIr.Proofs.Program.Order
import LevelIr.Proofs.Operand.Text
