import ConcordBft.Execution.Requests
import ConcordBft.Messages.Binding

/-!
# At-most-once execution

A run of a replica executes committed PrePrepare messages one after another. An ordinary request
whose reply is recorded when an execution starts is not handed over again by it. Within one
PrePrepare message nothing removes repetitions: the bits are computed before any reply of the
message is recorded. A run therefore hands every ordinary request over at most once, as long as
its reply is recorded, exactly when in each message the requests let through are distinct.
-/

namespace ConcordBft

open Verif Verif.Exec PrePrepareMsg ClientRequestMsg List

namespace ClientRequestMsg

variable (req : ClientRequestMsg)

def isOrdinary : Bool := !req.isSpecial && !req.isEmpty

def requestId : UInt16 × UInt64 := (req.clientProxyId, req.requestSeqNum)

end ClientRequestMsg

/-- One execution of a run: the replies recorded before it and the requests it handed over. -/
structure Execution where
  replies : Replies
  handed : List ClientRequestMsg

def Execution.handedIds (e : Execution) : List (UInt16 × UInt64) :=
  (e.handed.filter isOrdinary).map requestId

structure ExecutionState where
  replies : Replies
  executions : List Execution

namespace ExecutionConfig

variable (cfg : ExecutionConfig)

def step (s : ExecutionState) (c : Committed) : Exec ExecutionState := do
  let r ← cfg.startExecution s.replies c
  .ok ⟨r.replies, s.executions ++ [⟨s.replies, r.handed⟩]⟩

/-- An ordinary request was handed over twice, by one execution or by two executions between which
its reply stayed recorded. -/
def HandedTwice (executions : List Execution) : Prop :=
  (∃ e ∈ executions, ¬ e.handedIds.Nodup) ∨
  ∃ before e between e' after, executions = before ++ e :: (between ++ e' :: after) ∧
    ∃ id ∈ e.handedIds, id ∈ e'.handedIds ∧
      ∀ e'' ∈ between ++ [e'], cfg.hasReply e''.replies id.1 id.2 = true

def AtMostOnce (executions : List Execution) : Prop := ¬ cfg.HandedTwice executions

/-- The clients whose requests the execution path accepts. -/
def acceptsClient (c : Committed) (req : ClientRequestMsg) : Bool :=
  if cfg.enablePostExecutionSeparation then cfg.isValidClient req.clientProxyId
  else !c.pruningProcessStatus &&
    (cfg.isValidClient req.clientProxyId || req.isInternal && cfg.isIdOfReplica req.clientProxyId)

/-- The ordinary requests of the message from accepted clients whose reply is not recorded. -/
def pendingRequests (replies : Replies) (c : Committed) : List ClientRequestMsg :=
  c.ppMsg.requests.filter fun req => req.isOrdinary && cfg.acceptsClient c req &&
    !cfg.hasReply replies req.clientProxyId req.requestSeqNum

/-- No two of these requests have the same client and sequence number. -/
def DistinctRequests (s : ExecutionState) (c : Committed) : Prop :=
  ((cfg.pendingRequests s.replies c).map requestId).Nodup

variable {cfg} {replies : Replies} {c : Committed} {r : Outcome}

/-! ## One execution -/

theorem ordinaryRequestBit_eq (req : ClientRequestMsg) : cfg.ordinaryRequestBit replies req =
      (req.isOrdinary && cfg.isValidClient req.clientProxyId &&
        !cfg.hasReply replies req.clientProxyId req.requestSeqNum) := by
  simp [ordinaryRequestBit, isOrdinary, Bool.if_true_right, Bool.if_false_left, Bool.and_assoc]

section

variable (h : cfg.startExecution replies c = .ok r)

include h

theorem handed_startExecution : r.handed.filter isOrdinary = cfg.pendingRequests replies c := by
  unfold pendingRequests
  unfold startExecution at h
  split_ifs at h with hsep
  · rcases startPrePrepareMsgExecution_eq_ok h with ⟨-, hhanded, hnil⟩ |
      ⟨_, handed, _, rfl, -, hacc, -, hhanded⟩
    · rw [hhanded, hnil, filter_nil, filter_nil]
    · rw [hhanded, filter_append, accumulateRequests_map hacc, filter_filter, filter_filter]
      have hspecial : c.ppMsg.requests.filter (fun req => req.isOrdinary && req.isSpecial) = [] :=
        filter_eq_nil_iff.mpr fun req _ => by
          cases hreq : req.isSpecial <;> simp [isOrdinary, hreq]
      rw [hspecial, nil_append]
      refine filter_congr fun req _ => ?_
      rw [ordinaryRequestBit_eq, acceptsClient, if_pos hsep]
      simp only [isOrdinary]
      cases req.isSpecial <;> cases req.isEmpty <;> simp
  · rcases executeRequestsInPrePrepareMsg_eq_ok h with ⟨-, hhanded, hprune | hnil⟩ |
      ⟨_, rfl, hprune, -, hacc, -⟩
    · rw [hhanded, filter_nil]
      symm
      exact filter_eq_nil_iff.mpr fun req _ => by simp [acceptsClient, hsep, hprune]
    · rw [hhanded, hnil, filter_nil, filter_nil]
    · rw [accumulateRequests_map hacc, filter_filter]
      refine filter_congr fun req _ => ?_
      by_cases hord : req.isOrdinary = true
      · have hempty : req.isEmpty = false := by simpa using (Bool.and_eq_true_iff.mp hord).2
        rw [hord, hempty, acceptsClient, if_neg hsep, hprune]
        simp [requestBit, hempty, Bool.if_true_right, Bool.if_false_left]
      · rw [Bool.not_eq_true] at hord
        rw [hord, Bool.false_and, Bool.false_and, Bool.false_and]

theorem handedIds_startExecution : Execution.handedIds ⟨replies, r.handed⟩ =
      (cfg.pendingRequests replies c).map requestId := by
  rw [Execution.handedIds, handed_startExecution h]

end

/-! ## Runs -/

theorem run_executions {cs : List Committed} {s : ExecutionState}
    (h : run cfg.step ⟨replies, []⟩ cs = .ok s) :
    (∀ e ∈ s.executions, ∀ id ∈ e.handedIds, cfg.hasReply e.replies id.1 id.2 = false) ∧
    ((∀ e ∈ s.executions, e.handedIds.Nodup) ↔
      EveryStep cfg.step ⟨replies, []⟩ cfg.DistinctRequests cs) := by
  induction cs using List.reverseRecOn generalizing s with
  | nil =>
    rw [run_nil, Except.ok.injEq] at h
    rw [← h]
    simp
  | append_singleton cs c ih =>
    rw [run_concat] at h
    obtain ⟨s₁, hs₁, hstep⟩ := bind_eq_ok.mp h
    obtain ⟨r, hr, hs⟩ := bind_eq_ok.mp hstep
    obtain ⟨hrecorded, hnodup⟩ := ih hs₁
    rw [← Except.ok.inj hs, everyStep_concat hs₁, ← hnodup, DistinctRequests,
      ← handedIds_startExecution hr]
    constructor
    · intro e he
      rcases mem_append.mp he with he | he
      · exact hrecorded e he
      · rw [mem_singleton.mp he]
        intro id hid
        rw [handedIds_startExecution hr] at hid
        obtain ⟨req, hreq, rfl⟩ := mem_map.mp hid
        have hpending := (mem_filter.mp hreq).2
        exact (Bool.not_eq_true' _).mp (Bool.and_eq_true_iff.mp hpending).2
    · rw [forall_mem_append, forall_mem_singleton]

/-- **At-most-once execution.** A run hands no ordinary request over twice while its reply is
recorded exactly when every message it executes has no two pending ordinary requests with the same
client and sequence number. -/
theorem atMostOnce_iff (cfg : ExecutionConfig) (replies : Replies) (cs : List Committed)
    (s : ExecutionState) (h : run cfg.step ⟨replies, []⟩ cs = .ok s) :
    cfg.AtMostOnce s.executions ↔
      EveryStep cfg.step ⟨replies, []⟩ cfg.DistinctRequests cs := by
  obtain ⟨hrecorded, hnodup⟩ := run_executions h
  rw [← hnodup]
  constructor
  · intro honce e he
    by_contra hdup
    exact honce (Or.inl ⟨e, he, hdup⟩)
  · rintro hall (⟨e, he, hdup⟩ | ⟨before, e, between, e', after, heq, id, -, hid, hkept⟩)
    · exact hdup (hall e he)
    · have hmem : e' ∈ s.executions := by
        rw [heq]
        simp
      have hfalse := hrecorded e' hmem id hid
      rw [hkept e' (by simp)] at hfalse
      exact Bool.noConfusion hfalse

/-! ## A repeated request -/

/-- Two requests of client `10`. -/
def twoRequests (seq seq' : UInt8) : PrePrepareMsg where
  senderId := 1
  viewNum := 0
  seqNum := 1
  epochNum := 0
  flags := 3
  time := 0
  digestOfRequests := firstBytes.compute [7, 7]
  spanContext := []
  batchCid := []
  requests := [requestOfClient seq (requestOfClient seq' []).bytes, requestOfClient seq' []]
  trailing := []
  laidOut := ⟨rfl, rfl, trivial⟩
  numberOfRequests_lt := by simp
  size_lt := by simp [requestOfClient, ClientRequestMsg.size]

def repeatedRequest : PrePrepareMsg := twoRequests 5 5

def smallConfig (enablePostExecutionSeparation : Bool) : ExecutionConfig where
  toReplicasInfo := fourReplicas.toReplicasInfo
  isIdOfInternalClient _ := false
  isValidClient id := decide (id ≤ 20)
  maxNumOfReqsPerClient := 1
  hasPersistentStorage := true
  enablePostExecutionSeparation := enablePostExecutionSeparation

def runOnce (enablePostExecutionSeparation : Bool) (m : PrePrepareMsg) : Exec ExecutionState :=
  run (smallConfig enablePostExecutionSeparation).step ⟨fun _ => .empty, []⟩ [⟨m, 1, false⟩]

/-- Both paths execute the repeated request of an accepted message twice; its reply is recorded. -/
theorem repeated_request_handed_twice : repeatedRequest.Accepted firstBytes fourReplicas
      copySignatures ∧
    (∃ s, runOnce false repeatedRequest = .ok s ∧ (smallConfig false).hasReply s.replies 10 5 ∧
      ¬ (smallConfig false).AtMostOnce s.executions) ∧
    ∃ s, runOnce true repeatedRequest = .ok s ∧ (smallConfig true).hasReply s.replies 10 5 ∧
      ¬ (smallConfig true).AtMostOnce s.executions := by
  refine ⟨?_, ⟨_, rfl, by decide +kernel, fun honce => honce (Or.inl ?_)⟩,
    ⟨_, rfl, by decide +kernel, fun honce => honce (Or.inl ?_)⟩⟩
  · unfold Accepted
    decide +kernel
  · exact ⟨_, mem_cons_self, by decide +kernel⟩
  · exact ⟨_, mem_cons_self, by decide +kernel⟩

theorem two_requests_handed_once : ∃ s,
    runOnce true (twoRequests 5 6) = .ok s ∧ (smallConfig true).AtMostOnce s.executions := by
  refine ⟨_, rfl, (atMostOnce_iff (smallConfig true) (fun _ => .empty)
    [⟨twoRequests 5 6, 1, false⟩] _ rfl).mpr (EveryStep.cons ?_ fun _ _ => everyStep_nil _ _ _)⟩
  unfold DistinctRequests
  decide +kernel

end ExecutionConfig

end ConcordBft
