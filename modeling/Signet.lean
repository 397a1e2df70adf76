import Signet.Main
import Signet.Proofs.Batch.Completeness
import Signet.Proofs.Batch.Soundness
import Signet.Proofs.Certificate.Path
import Signet.Proofs.Signing.Sm2
import Signet.Proofs.Key.Signing
import Signet.Proofs.Schedule.Rows
import Signet.Proofs.Batch.Degenerate
import Signet.Proofs.Certificate.Extension
import Signet.Proofs.Certificate.Issue
import Signet.Proofs.Certificate.Lineage
import Signet.Proofs.Certificate.Draft
import Signet.Proofs.Certificate.Chain
import Signet.Proofs.Cipher.Key
import Signet.Proofs.Key.Text
import Signet.Proofs.Certificate.Constraint
import Signet.Proofs.Certificate.Contents
import Signet.Proofs.Certificate.Permission
import Signet.Proofs.Batch.Interleaving
import Signet.Proofs.Batch.Supply
import Signet.Proofs.Key.Point
import Signet.Proofs.Key.Equation
import Signet.Proofs.Identity
import Signet.Proofs.Schedule.Coefficients
import Signet.Proofs.Batch.Refusal
import Signet.Proofs.Batch.Partition
import Signet.Proofs.Batch.Population
import Signet.Proofs.Key.Buffer
import Signet.Proofs.Certificate.Lifetime
import Signet.Proofs.Certificate.Serial
import Signet.Proofs.Cipher.Spelling
import Signet.Proofs.Command.Encryption
import Signet.Proofs.Command.Failure
import Signet.Proofs.Config
