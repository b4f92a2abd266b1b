import ConcordBft.Execution.Admission
import ConcordBft.Keys.Replay
import ConcordBft.Messages.Binding

/-!
# Read-only requests and the ordered state

A read-only request is executed by one replica alone, outside of the order. The loop of the request
handler looks at the flags for key exchanges and database checkpoints before it looks at the
read-only flag, so that such a request changes what all replicas should have in common.

`readOnly_iff` says which read-only requests leave the ordered state as it is.
-/

namespace ConcordBft

open Verif Verif.Exec KeyExchangeManager

variable {n : ℕ} {κ α ρ : Type}

/-- The parts of the state that only ordered requests should change. -/
structure SameOrderedState (s s' : HandlerState n κ α) : Prop where
  publicKeys : s'.keys.publicKeys = s.keys.publicKeys
  reservedPages : s'.keys.reservedPages = s.keys.reservedPages
  crypto : s'.keys.crypto = s.keys.crypto
  clientKeys : s'.clientKeys = s.clientKeys
  cron : s'.cron = s.cron
  dbCheckpoint : s'.dbCheckpoint = s.dbCheckpoint

/-- The state of the application is not part of it. -/
theorem sameOrderedState_app {s s' : HandlerState n κ α} {app : α} :
    SameOrderedState s { s' with app := app } ↔ SameOrderedState s s' :=
  ⟨fun h => ⟨h.1, h.2, h.3, h.4, h.5, h.6⟩, fun h => ⟨h.1, h.2, h.3, h.4, h.5, h.6⟩⟩

namespace DbCheckpointManager

/-- A request for a checkpoint that finds nothing to do, whatever the clock shows. -/
def Settled (d : DbCheckpointManager) (lastStableSeqNum : ℤ) (lastBlockId : ℕ)
    (msg : CreateDbCheckpoint) : Prop :=
  msg.noop = true ∨
    (lastStableSeqNum = toSeqNum msg.seqNum ∧ toSeqNum msg.seqNum ≤ d.lastCheckpointSeqNum) ∨
    (lastStableSeqNum ≠ toSeqNum msg.seqNum ∧ d.checkpointInProcess = (true, lastBlockId) ∧
      d.onStableSeqNumCb = some (msg.seqNum, none, lastBlockId))

theorem settled_iff {d : DbCheckpointManager} {lastStableSeqNum : ℤ}
    {maxNumberOfDbCheckpoints lastBlockId : ℕ} {msg : CreateDbCheckpoint} :
    (∀ now, d.onCreateDbCheckpoint lastStableSeqNum maxNumberOfDbCheckpoints lastBlockId now msg
      none = d) ↔ d.Settled lastStableSeqNum lastBlockId msg := by
  by_cases hnoop : msg.noop = true
  · exact ⟨fun _ => .inl hnoop, fun _ now => if_pos hnoop⟩
  by_cases hstable : lastStableSeqNum = toSeqNum msg.seqNum
  · have heq : ∀ now, d.onCreateDbCheckpoint lastStableSeqNum maxNumberOfDbCheckpoints lastBlockId
        now msg none = d.createDbCheckpointAsync maxNumberOfDbCheckpoints lastBlockId now
          (toSeqNum msg.seqNum) none := by
      intro now
      rw [onCreateDbCheckpoint, if_neg hnoop, if_pos hstable]
    constructor
    · -- a checkpoint records the clock, which can show anything
      intro h
      refine .inr (.inl ⟨hstable, ?_⟩)
      by_contra hlt
      have hnow := congrArg lastCmdTimestamp ((heq _).symm.trans (h (d.lastCmdTimestamp + 1)))
      rw [createDbCheckpointAsync, if_neg hlt, Option.getD_none] at hnow
      dsimp only at hnow
      split_ifs at hnow <;> exact Nat.succ_ne_self _ hnow
    · rintro (h | ⟨-, hle⟩ | ⟨hne, -⟩) now
      · exact absurd h hnoop
      · rw [heq, createDbCheckpointAsync, if_pos hle]
      · exact absurd hstable hne
  · have heq : ∀ now, d.onCreateDbCheckpoint lastStableSeqNum maxNumberOfDbCheckpoints lastBlockId
        now msg none = { d.setCheckpointInProcess true lastBlockId with
          onStableSeqNumCb := some (msg.seqNum, none, lastBlockId) } := by
      intro now
      rw [onCreateDbCheckpoint, if_neg hnoop, if_neg hstable]
    constructor
    · intro h
      have h := (heq 0).symm.trans (h 0)
      exact .inr (.inr ⟨hstable, (congrArg checkpointInProcess h).symm,
        (congrArg onStableSeqNumCb h).symm⟩)
    · rintro (h | ⟨h, -⟩ | ⟨-, hprocess, hcb⟩) now
      · exact absurd h hnoop
      · exact absurd h hstable
      · rw [heq, setCheckpointInProcess, ← hprocess, ← hcb]

end DbCheckpointManager

namespace HandlerEnv

variable (env : HandlerEnv n κ α ρ) (s : HandlerState n κ α)

/-- A read-only request that is a query for the handler: no key exchange that would be accepted, and
no request for a checkpoint that still has something to do. -/
def IsQuery (req : ExecutionRequest) : Prop :=
  match req.kind with
  | .keyExchange => ∀ ke, env.deserializeMsg req.request = .ok ke →
      ¬ s.keys.Accepts ke req.executionSequenceNum
  | .dbCheckpoint => ∀ msg, CreateDbCheckpoint.deserialize req.request = .ok msg →
      s.dbCheckpoint.Settled (env.lastStableSeqNum s.app) (env.lastReachableBlock s.app) msg
  | _ => True

variable {env s} {s' : HandlerState n κ α} {req : ExecutionRequest} {now : ℕ} {timestamp : Option ℕ}

/-- The application comes last, and sees only its own state. -/
theorem execute_fst : ∃ app, (env.execute s timestamp now [req]).1 =
    { (env.handleRequest s req timestamp now false).1 with app := app } := by
  unfold execute handleRequests handleRequests
  rcases env.handleRequest s req timestamp now false with ⟨s₁, fault | ⟨req₁, _ | _⟩⟩
  · exact ⟨s₁.app, rfl⟩
  · exact ⟨_, rfl⟩
  · exact ⟨s₁.app, rfl⟩

theorem sameOrderedState_of_isQuery (hro : req.has MsgFlag.READ_ONLY_FLAG = true)
    (hdispatch : ∀ rreq, env.deserializeReconfiguration req.request = some rreq →
      SameOrderedState s (env.dispatch s rreq req.executionSequenceNum).1)
    (hquery : env.IsQuery s req) (hchanges : env.Changes none now s req s') :
    SameOrderedState s s' := by
  have hsame : s' = s → SameOrderedState s s' := by
    rintro rfl
    exact ⟨rfl, rfl, rfl, rfl, rfl, rfl⟩
  unfold Changes at hchanges
  unfold IsQuery at hquery
  cases hkind : req.kind <;> simp only [hkind] at hchanges hquery
  case keyExchange =>
    split at hchanges
    case h_1 ke hke => exact hsame (by rw [hchanges, leaves_of_not_accepts (hquery ke hke)])
    case h_2 => exact hsame hchanges
  case reconfiguration =>
    split at hchanges
    case h_1 rreq hrreq => exact hchanges ▸ hdispatch rreq hrreq
    case h_2 => exact hsame hchanges
  case tick =>
    rcases hchanges with heq | ⟨hnot, -⟩
    · exact hsame heq
    · exact absurd (hro.symm.trans hnot) (by decide)
  case dbCheckpoint =>
    split at hchanges
    case h_1 msg hmsg =>
      exact hsame (by rw [hchanges, DbCheckpointManager.settled_iff.mpr (hquery msg hmsg) now])
    case h_2 => exact hsame hchanges
  case clientsKeys =>
    -- the read-only flag is looked at before the flag for the clients' keys
    unfold ExecutionRequest.kind at hkind
    split_ifs at hkind
  case user => exact hsame hchanges

theorem isQuery_of_sameOrderedState
    (h : ∀ now, ∃ s', env.Changes none now s req s' ∧ SameOrderedState s s') :
    env.IsQuery s req := by
  unfold Changes at h
  unfold IsQuery
  cases hkind : req.kind with
  | keyExchange =>
    simp only [hkind] at h ⊢
    intro ke hke hacc
    obtain ⟨s', hs', hsame⟩ := h 0
    simp only [hke] at hs'
    subst hs'
    exact (publicKeys_leaves_ne_iff ke.repID).mpr ⟨hacc, rfl⟩ (congrFun hsame.publicKeys ke.repID)
  | dbCheckpoint =>
    simp only [hkind] at h ⊢
    intro msg hmsg
    have hstays : ∀ now, s.dbCheckpoint.onCreateDbCheckpoint (env.lastStableSeqNum s.app)
        env.maxNumberOfDbCheckpoints (env.lastReachableBlock s.app) now msg none =
          s.dbCheckpoint := by
      intro now
      obtain ⟨s', hs', hsame⟩ := h now
      simp only [hmsg] at hs'
      subst hs'
      exact hsame.dbCheckpoint
    exact DbCheckpointManager.settled_iff.mp hstays
  | reconfiguration | tick | clientsKeys | user => exact trivial

/-- **Read-only requests.** Where the reconfiguration handlers treat it as a query, a read-only
request never changes the ordered state, however its execution ends, exactly if it is no key
exchange that is accepted and no request for a checkpoint that has something to do. -/
theorem readOnly_iff (env : HandlerEnv n κ α ρ) (s : HandlerState n κ α) (req : ClientRequestMsg)
    (lastExecutedSeqNum : UInt64) (maxReplyLength : ℕ) (hro : req.isReadOnly = true)
    (hdispatch : ∀ rreq, env.deserializeReconfiguration req.requestBuf = some rreq →
      SameOrderedState s (env.dispatch s rreq lastExecutedSeqNum).1) :
    (∀ now, SameOrderedState s
      (env.executeReadOnlyRequest s false lastExecutedSeqNum maxReplyLength now req).1) ↔
      env.IsQuery s (req.readOnlyRequest lastExecutedSeqNum maxReplyLength) := by
  have hexec : ∀ now, ∃ s', env.Changes none now s
      (req.readOnlyRequest lastExecutedSeqNum maxReplyLength) s' ∧ (SameOrderedState s
        (env.executeReadOnlyRequest s false lastExecutedSeqNum maxReplyLength now req).1 ↔
          SameOrderedState s s') := by
    intro now
    refine ⟨_, handleRequest_changes (b := false), ?_⟩
    obtain ⟨app, happ⟩ := execute_fst
    unfold executeReadOnlyRequest
    rw [hro, if_neg (by decide), happ, sameOrderedState_app]
  have hflag : (req.readOnlyRequest lastExecutedSeqNum maxReplyLength).has
      MsgFlag.READ_ONLY_FLAG = true := hro
  constructor
  · intro h
    refine isQuery_of_sameOrderedState fun now => ?_
    obtain ⟨s', hchanges, hsame⟩ := hexec now
    exact ⟨s', hchanges, hsame.mp (h now)⟩
  · intro hquery now
    obtain ⟨s', hchanges, hsame⟩ := hexec now
    exact hsame.mpr (sameOrderedState_of_isQuery hflag hdispatch hquery hchanges)

/-! ## A key exchange that a client sends as a read-only request -/

open KeyExchangeManager (fourReplicas initialSystem keyOf)

/-- The serialized exchange of a key of replica `repID`, generated at `sn`. -/
def exchangePayload (repID sn : UInt8) : List UInt8 :=
  [14, 0, 0, 0, 0, 0, 0, 0] ++ KeyExchangeMsg.className ++ [1, 0, 0, 0, 0, 0, 0, 0] ++
    KeyExchangeMsg.version ++ [0] ++ [64, 0, 0, 0, 0, 0, 0, 0] ++ keyOf 1 ++ [repID, 0] ++
    [sn, 0, 0, 0, 0, 0, 0, 0] ++ [0, 0, 0, 0, 0, 0, 0, 0] ++ [0, 0]

/-- A request of a client with flags below 256 and a payload of 124 bytes, signed by one byte. -/
def signedRequest (clientId flags : UInt8) (payload : List UInt8) : List UInt8 :=
  [0, 0, 0, 0, 0, 0, clientId, 0, flags, 0, 0, 0, 0, 0, 0, 0, 0, 0, 0, 0, 5, 0, 0, 0, 0, 0, 0, 0,
    124, 0, 0, 0, 0, 0, 0, 0, 0, 0, 0, 0, 0, 0, 0, 0, 1, 0, 0, 0, 0, 0, 0, 0] ++ payload ++
    payload.take 1

/-- Client 10 sends a key of replica 1, with the flags for read-only requests and for key
exchanges. -/
def readOnlyExchange : ClientRequestMsg where
  bytes := signedRequest 10 0x9 (exchangePayload 1 5)
  beyond := []
  size_eq := by decide +kernel

/-- The signature of a body is its first byte. -/
def firstByteSignatures : SigManager := ⟨true, fun _ => 1, fun _ body sig => body.take 1 == sig⟩

def idleGate : ClientGate where
  toPrincipalsInfo := PrePrepareMsg.fourReplicas
  exchanged := true
  clientKeysPublished := true
  isIdOfClientProxy _ := false
  isValidClient id := id == 10
  isCurrentPrimary := false
  activeExecutions := 0
  deferredRORequests := 0
  maxQueueSize := 10
  primaryStops := false
  executionStops := false
  currentViewIsActive := true
  isReplyAlreadySentToClient _ _ := false
  requestsQueueOfPrimary := 0
  maxPrimaryQueueSize := 700
  canBecomePending _ _ := true
  isPending _ _ := false

def plainEnv : HandlerEnv 4 Unit Unit Unit where
  keyConfig := fourReplicas
  deserializeShort _ := .error .access
  clientsPublicKeys := []
  digest := PrePrepareMsg.firstBytes
  deserializeReconfiguration _ := none
  isPruneRequest _ := false
  dispatch s _ _ := (s, [], [])
  dispatch_publicKeys _ _ _ := rfl
  evaluate := none
  lastStableSeqNum _ := 0
  lastReachableBlock _ := 0
  maxNumberOfDbCheckpoints := 0
  userExecute app reqs := (app, reqs)

def plainState (keys : KeyExchangeManager 4) : HandlerState 4 Unit Unit :=
  ⟨keys, ⟨none, true⟩, ⟨0, 0, 0, (false, 0), none, []⟩, (), ()⟩

/-- The request is valid and reaches `executeReadOnlyRequest`; replica 1 has another key then. -/
theorem readOnlyExchange_changes_keys :
    readOnlyExchange.validateFrom 10 PrePrepareMsg.fourReplicas firstByteSignatures = .ok () ∧
    idleGate.onClientRequest 10 readOnlyExchange = .executedReadOnly ∧
    ∃ keys, firstStart fourReplicas 0 initialSystem = .ok keys ∧
      ¬ SameOrderedState (plainState keys) (plainEnv.executeReadOnlyRequest (plainState keys) false 3
        1000 0 readOnlyExchange).1 := by
  refine ⟨by decide +kernel, by decide +kernel, firstManager, rfl, fun hsame => ?_⟩
  have heval : (plainEnv.executeReadOnlyRequest (plainState firstManager) false 3 1000 0
      readOnlyExchange).1.keys.publicKeys 1 = some [(5, keyOf 1)] := by decide +kernel
  exact absurd (heval.symm.trans (congrFun hsame.publicKeys 1)) (by decide)

/-- Far behind the last executed request, the key is outside of the working window. -/
theorem late_readOnlyExchange_changes_nothing : ∃ keys,
    firstStart fourReplicas 0 initialSystem = .ok keys ∧
    ∀ now, SameOrderedState (plainState keys) (plainEnv.executeReadOnlyRequest (plainState keys)
      false 1000 1000 now readOnlyExchange).1 := by
  have hkind : (readOnlyExchange.readOnlyRequest 1000 1000).kind = .keyExchange := by
    decide +kernel
  have hdecoded : plainEnv.deserializeMsg (readOnlyExchange.readOnlyRequest 1000 1000).request =
      .ok ⟨KeyExchangeMsg.EXCHANGE, keyOf 1, 1, 5, 0⟩ := by decide +kernel
  refine ⟨firstManager, rfl, (readOnly_iff plainEnv _ readOnlyExchange 1000 1000
    (by decide +kernel) (fun rreq h => ?_)).mpr ?_⟩
  · cases h
  · unfold IsQuery
    rw [hkind]
    rintro ke hke ⟨-, -, hwindow, -⟩
    obtain rfl := Except.ok.inj (hdecoded.symm.trans hke)
    exact absurd hwindow (by decide)

end HandlerEnv

end ConcordBft
