import FreeTime.Main
import FreeTime.Metrics
import FreeTime.Pointwise
import FreeTime.Proofs.Batches
import FreeTime.Proofs.Cutting
import FreeTime.Proofs.Dates
import FreeTime.Proofs.FillingOrder
import FreeTime.Proofs.Intersecting
import FreeTime.Proofs.Modes
import FreeTime.Proofs.NamingOrder
import FreeTime.Proofs.Narrowing
import FreeTime.Proofs.Normalizing
import FreeTime.Proofs.Observing
import FreeTime.Proofs.Reasons
import FreeTime.Proofs.Remembering
import FreeTime.Proofs.Restating
import FreeTime.Proofs.Sharing
import FreeTime.Proofs.Windows
import FreeTime.Proofs.Refusing
import FreeTime.Proofs.Bookings
import FreeTime.Proofs.Bystanders
import FreeTime.Proofs.Slicing
import FreeTime.Proofs.Stepping
import FreeTime.Proofs.Days
import FreeTime.Proofs.Hours
import FreeTime.Proofs.Scopes
import FreeTime.Proofs.Faults
import FreeTime.Proofs.Forms
import FreeTime.Proofs.Subtrees
