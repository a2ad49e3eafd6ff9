import ManagedHeap.Proofs.Ageing
import ManagedHeap.Proofs.Audience
import ManagedHeap.Proofs.Comparison
import ManagedHeap.Proofs.Counting
import ManagedHeap.Proofs.Draining
import ManagedHeap.Proofs.Enqueuing
import ManagedHeap.Proofs.Exhaustion
import ManagedHeap.Proofs.Lines
import ManagedHeap.Proofs.Parking
import ManagedHeap.Proofs.Quantiles
import ManagedHeap.Proofs.Timeouts
import ManagedHeap.Proofs.Waits
import ManagedHeap.Settings.Document
