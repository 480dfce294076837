import DeletionGuard.Main
import DeletionGuard.Proofs.CommandLine.Separator
import DeletionGuard.Proofs.Config.Creation
import DeletionGuard.Proofs.Config.Showing
import DeletionGuard.Proofs.Git.Evidence
import DeletionGuard.Proofs.Git.Listing
import DeletionGuard.Proofs.Run.Boundary
import DeletionGuard.Proofs.Run.Bypass
import DeletionGuard.Proofs.Run.Loosening
import DeletionGuard.Proofs.Run.Outage
import DeletionGuard.Proofs.Run.Refusal
import DeletionGuard.Proofs.Run.Reporting
import DeletionGuard.Proofs.Run.Sweep
import DeletionGuard.Proofs.Target.Misreading
