import JobQueue.Main
import JobQueue.Program
import JobQueue.Proofs.Closing
import JobQueue.Proofs.Embedding
import JobQueue.Proofs.Launch
import JobQueue.Proofs.Migrating
import JobQueue.Proofs.Permanence
import JobQueue.Proofs.Recurring
import JobQueue.Proofs.Retention
import JobQueue.Proofs.RoundTrip
import JobQueue.Proofs.Schedule
import JobQueue.Proofs.Separation
import JobQueue.Proofs.Settings
import JobQueue.Proofs.Spacing
import JobQueue.Proofs.Storing
import JobQueue.Proofs.Sweeping
import JobQueue.Proofs.Waiting
import JobQueue.Sample.Handler
import JobQueue.Store.Edit
import JobQueue.Task.Inspect
