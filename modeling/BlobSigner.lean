import BlobSigner.Admission.Permits
import BlobSigner.Keccak.Equations
import BlobSigner.Main
import BlobSigner.Rehearsal
import BlobSigner.SliceCheck.Scan
import BlobSigner.Wipe
import BlobSigner.Proofs.Pool.Runs
import BlobSigner.Proofs.SliceCheck.Schedules
import BlobSigner.Proofs.Bn254.Prime
import BlobSigner.Proofs.Bn254.Total
import BlobSigner.Proofs.Bn254.Division
import BlobSigner.Proofs.Bn254.Cubic
import BlobSigner.Proofs.Bn254.Group
import BlobSigner.Proofs.Bn254.Order
import BlobSigner.Proofs.Bn254.Lift
import BlobSigner.Proofs.Request.Checks
import BlobSigner.Proofs.Request.Process
import BlobSigner.Proofs.Batch.Phases
import BlobSigner.Proofs.Batch.Verdict
import BlobSigner.Proofs.Batch.History
import BlobSigner.Proofs.Batch.Persistence
import BlobSigner.Proofs.Batch.Vetting
import BlobSigner.Proofs.Batch.Nesting
import BlobSigner.Proofs.Batch.Counts
import BlobSigner.Proofs.Batch.Outcome
import BlobSigner.Proofs.Batch.Retry
import BlobSigner.Proofs.Batch.Split
import BlobSigner.Proofs.Admission.Permits
import BlobSigner.Proofs.Pool.OneWorker
import BlobSigner.Proofs.Pool.Indexed
import BlobSigner.Proofs.SliceCheck.Verifier
import BlobSigner.Proofs.SliceCheck.OneWorker
import BlobSigner.Proofs.SliceCheck.Calls
import BlobSigner.Proofs.Radix
import BlobSigner.Proofs.Slice
import BlobSigner.Proofs.Keccak.Permutation
import BlobSigner.Proofs.Keccak.Sponge
import BlobSigner.Proofs.Bn254.Encoding
import BlobSigner.Proofs.Bn254.Uncompressed
import BlobSigner.Proofs.Bn254.Commitment
import BlobSigner.Proofs.Bn254.Unmarked
import BlobSigner.Proofs.Bn254.Fields
import BlobSigner.Proofs.Signature.Preimage
import BlobSigner.Proofs.Signature.Binding
import BlobSigner.Proofs.Request.Vouched
import BlobSigner.Proofs.Batch.Origin
import BlobSigner.Proofs.Session.Provenance
import BlobSigner.Proofs.Session.Counts
import BlobSigner.Proofs.Batch.Secrecy
import BlobSigner.Proofs.Session.Secrecy
import BlobSigner.Proofs.Hex
import BlobSigner.Proofs.SigningKey
import BlobSigner.Proofs.Bn254.Jacobian
import BlobSigner.Proofs.Bn254.FixedWidth
import BlobSigner.Proofs.Tool.Agreement
import BlobSigner.Proofs.Entropy.Draws
import BlobSigner.Proofs.Entropy
import BlobSigner.Proofs.Tool.Keygen
import BlobSigner.Proofs.Settings
import BlobSigner.Proofs.Batch.Alarms
import BlobSigner.Proofs.Tool.Output
import BlobSigner.Proofs.Tool.Entries
import BlobSigner.Proofs.Tool.CommandLine
