import ConcordBft.Execution.RequestHandler
import ConcordBft.Keys.Schedule

/-!
# What the request handler changes

One round of the loop of `RequestHandler::execute` looks at the flags in a fixed order.
`handleRequest_changes` says for every branch which state it leaves behind, however it ends.
-/

namespace ConcordBft

open Verif Verif.Exec ExecutionRequest

variable {n : ℕ} {κ α ρ : Type}

/-- The branch of the loop that a request takes. -/
inductive RequestKind
  | keyExchange
  | reconfiguration
  | tick
  | dbCheckpoint
  | clientsKeys
  | user
  deriving DecidableEq

/-- The flags are looked at in this order; only the keys of clients come after the read-only flag,
which clears all others. -/
def ExecutionRequest.kind (req : ExecutionRequest) : RequestKind :=
  if req.has MsgFlag.KEY_EXCHANGE_FLAG then .keyExchange
  else if req.has MsgFlag.RECONFIG_FLAG then .reconfiguration
  else if req.has MsgFlag.TICK_FLAG then .tick
  else if req.has MsgFlag.DB_CHECKPOINT_FLAG then .dbCheckpoint
  else if req.has MsgFlag.READ_ONLY_FLAG then .user
  else if req.has MsgFlag.CLIENTS_PUB_KEYS_FLAG then .clientsKeys
  else .user

namespace HandlerEnv

variable {env : HandlerEnv n κ α ρ} {s s' : HandlerState n κ α} {req : ExecutionRequest}
  {timestamp : Option ℕ} {now : ℕ} {b : Bool}

theorem handleRequest_fst : (env.handleRequest s req timestamp now b).1 = match req.kind with
      | .keyExchange => (env.onKeyExchange s req).1
      | .reconfiguration => (env.onReconfiguration s req).1
      | .tick => (env.onTick s req).1
      | .dbCheckpoint => (env.onDbCheckpoint s req timestamp now).1
      | .clientsKeys => (env.onClientsKeys s req).1
      | .user => s := by
  unfold handleRequest kind
  have hclients : MsgFlag.has MsgFlag.READ_ONLY_FLAG MsgFlag.CLIENTS_PUB_KEYS_FLAG = false := by
    decide
  -- the flags of a read-only request are cleared before the keys of clients are looked for
  split_ifs with hkey hreconfig htick hdb hro hclients <;> first | rfl | simp_all [has]

/-- The state that one round leaves behind. -/
def Changes (env : HandlerEnv n κ α ρ) (timestamp : Option ℕ) (now : ℕ)
    (s : HandlerState n κ α) (req : ExecutionRequest) (s' : HandlerState n κ α) : Prop :=
  match req.kind with
  | .keyExchange => match env.deserializeMsg req.request with
    | .ok ke => s' = { s with keys := s.keys.leaves env.keyConfig ke req.executionSequenceNum }
    | .error _ => s' = s
  | .reconfiguration => match env.deserializeReconfiguration req.request with
    | some rreq => s' = (env.dispatch s rreq req.executionSequenceNum).1
    | none => s' = s
  | .tick => s' = s ∨ (req.has MsgFlag.READ_ONLY_FLAG = false ∧ ∃ cron, s' = { s with cron := cron })
  | .dbCheckpoint => match CreateDbCheckpoint.deserialize req.request with
    | .ok msg => s' = { s with
        dbCheckpoint := s.dbCheckpoint.onCreateDbCheckpoint (env.lastStableSeqNum s.app)
          env.maxNumberOfDbCheckpoints (env.lastReachableBlock s.app) now msg timestamp }
    | .error _ => s' = s
  | .clientsKeys => ∃ keys, s' = { s with clientKeys := keys }
  | .user => s' = s

theorem onTick_state : (env.onTick s req).1 = s ∨ (req.has MsgFlag.READ_ONLY_FLAG = false ∧
    ∃ cron, (env.onTick s req).1 = { s with cron := cron }) := by
  unfold onTick copyReply
  split_ifs with hroom
  · show (if req.has MsgFlag.READ_ONLY_FLAG then _ else _ : HandlerState n κ α × _).1 = s ∨
      (_ ∧ ∃ cron, (if req.has MsgFlag.READ_ONLY_FLAG then _ else _ : HandlerState n κ α × _).1 = _)
    rcases req.has MsgFlag.READ_ONLY_FLAG with _ | _
    · refine .inr ⟨rfl, ?_⟩
      rcases env.evaluate with _ | evaluate
      · exact ⟨s.cron, rfl⟩
      · dsimp only
        rcases deserializeTick req.request with fault | component <;> exact ⟨_, rfl⟩
    · exact .inl rfl
  · exact .inl rfl

theorem handleRequest_changes :
    env.Changes timestamp now s req (env.handleRequest s req timestamp now b).1 := by
  rw [handleRequest_fst]
  unfold Changes
  cases hkind : req.kind <;> dsimp only
  case keyExchange =>
    unfold onKeyExchange
    cases env.deserializeMsg req.request <;> rfl
  case reconfiguration =>
    unfold onReconfiguration
    cases env.deserializeReconfiguration req.request <;> rfl
  case tick => exact onTick_state
  case dbCheckpoint =>
    unfold onDbCheckpoint
    cases CreateDbCheckpoint.deserialize req.request <;> rfl
  case clientsKeys =>
    unfold onClientsKeys
    dsimp only
    split
    · exact ⟨_, rfl⟩
    · exact ⟨_, rfl⟩

end HandlerEnv

end ConcordBft
