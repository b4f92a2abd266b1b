import ConcordBft.Execution.AtMostOnce
import Mathlib.Order.Nat

/-!
# Recovery of an interrupted execution

A replica that stops after Phase 1 finds the persisted bitmap when it starts again and executes
the message on the main thread, whichever path it had taken before. The bitmap says which requests
the main thread would hand over, but for the other path it leaves the special requests out. So the
recovered execution hands over the same requests as the interrupted one exactly when the replica
executes on the main thread or the message has no special request.
-/

namespace ConcordBft

open Verif Verif.Exec PrePrepareMsg List

namespace ExecutionConfig

variable {cfg : ExecutionConfig} {replies : Replies} {c : Committed} {r : Outcome}

/-! ## Responses -/

theorem returns_sendResponse (req : ClientRequestMsg) : Returns (cfg.sendResponse replies req) ↔
      (cfg.isIdOfInternalClient req.clientProxyId = true ∨
        req.header.indexInBatch < cfg.maxNumOfReqsPerClient) := by
  unfold sendResponse allocateNewReplyMsgAndWriteToStorage
  split_ifs with hinternal hindex hvalid
  · simp [hinternal]
  · simp [hindex]
  · simp [hindex]
  · simp [hinternal, hindex]

theorem returns_sendResponses (requests : List ClientRequestMsg) (replies : Replies) :
    Returns (cfg.sendResponses replies requests) ↔ ∀ req ∈ requests,
      (cfg.isIdOfInternalClient req.clientProxyId = true ∨
        req.header.indexInBatch < cfg.maxNumOfReqsPerClient) := by
  unfold sendResponses
  induction requests generalizing replies with
  | nil => simp
  | cons req requests ih =>
    rw [run_cons, returns_bind, forall_mem_cons, ← returns_sendResponse]
    constructor
    · rintro ⟨replies', hreq, hrest⟩
      exact ⟨⟨replies', hreq⟩, (ih replies').mp hrest⟩
    · rintro ⟨⟨replies', hreq⟩, hrest⟩
      exact ⟨replies', hreq, (ih replies').mpr hrest⟩

/-! ## The recovered execution -/

variable {validRequests : List Bool}

theorem written_eq {requestSet : List Bool}
    (h : cfg.setDescriptorOfLastExecution requestSet = .ok (some validRequests)) :
    validRequests = requestSet ∧ 0 < requestSet.length := by
  unfold setDescriptorOfLastExecution at h
  split_ifs at h with hps hlength
  · exact ⟨(Option.some.inj (Except.ok.inj h)).symm, hlength.1⟩
  · cases h

/-- The recovery hands over the requests that the written bitmap selects. -/
theorem recoverRequests_of_written {ppMsg : PrePrepareMsg} {p : ClientRequestMsg → Bool}
    {handed : List ClientRequestMsg}
    (hwritten : cfg.setDescriptorOfLastExecution (ppMsg.requests.map p) = .ok (some validRequests))
    (hacc : accumulateRequests ppMsg.requests (ppMsg.requests.map p) = .ok handed)
    (hsend : Returns (cfg.sendResponses replies handed)) (replies' : Replies)
    (currentPrimary : ReplicaId) :
    ∃ r, cfg.recoverRequests replies' ppMsg currentPrimary validRequests = .ok r ∧
      r.handed = handed := by
  obtain ⟨rfl, hpos⟩ := written_eq hwritten
  rw [length_map] at hpos
  have hcount : (ppMsg.requests.map p).count true ≤ ppMsg.requests.length :=
    count_le_length.trans (length_map p).le
  obtain ⟨replies'', hsend⟩ : Returns (cfg.sendResponses replies' handed) :=
    (returns_sendResponses _ _).mpr ((returns_sendResponses _ _).mp hsend)
  refine ⟨⟨none, handed, replies''⟩, ?_, rfl⟩
  unfold recoverRequests executeRequestsInPrePrepareMsg
  rw [if_pos ⟨hpos, hcount⟩, if_neg (by simp), if_neg hpos.ne']
  dsimp only
  rw [executeRequestsAndSendResponses_eq_ok.mpr ⟨hacc, hsend⟩, ok_bind]

/-- After an execution with a separate thread the recovery leaves out the special requests. -/
theorem recovered_of_separateThread (h : cfg.startPrePrepareMsgExecution replies c = .ok r)
    (hdesc : r.descriptor = some validRequests) (replies' : Replies) (currentPrimary : ReplicaId) :
    ∃ r', cfg.recoverRequests replies' c.ppMsg currentPrimary validRequests = .ok r' ∧
      r.handed = c.ppMsg.requests.filter ClientRequestMsg.isSpecial ++ r'.handed ∧
      ∀ req ∈ r'.handed, req.isSpecial = false := by
  rcases startPrePrepareMsgExecution_eq_ok h with ⟨hnone, -⟩ |
    ⟨requestSet, handed, replies₁, rfl, hwritten, hacc, hsend, hhanded⟩
  · rw [hnone] at hdesc
    cases hdesc
  · rw [hdesc] at hwritten
    obtain ⟨r', hr', rfl⟩ :=
      recoverRequests_of_written hwritten hacc ⟨_, hsend⟩ replies' currentPrimary
    refine ⟨r', hr', hhanded, fun req hreq => ?_⟩
    rw [accumulateRequests_map hacc] at hreq
    have hbit := (Bool.and_eq_true_iff.mp (mem_filter.mp hreq).2).1
    rw [ordinaryRequestBit_eq, ClientRequestMsg.isOrdinary] at hbit
    simp only [Bool.and_eq_true, Bool.not_eq_true'] at hbit
    exact hbit.1.1.1

/-- **Recovery.** A replica that stops after it has written the descriptor of an execution and
starts again, with whatever replies it then finds, hands over the requests of the uninterrupted
execution exactly when it executes on the main thread or the message has no special request. -/
theorem recovery_iff (cfg : ExecutionConfig) (replies : Replies) (c : Committed) (r : Outcome)
    (h : cfg.startExecution replies c = .ok r) (validRequests : List Bool)
    (hdesc : r.descriptor = some validRequests) (replies' : Replies) (currentPrimary : ReplicaId) :
    ∃ r', cfg.recoverRequests replies' c.ppMsg currentPrimary validRequests = .ok r' ∧
      ((∀ req, req ∈ r'.handed ↔ req ∈ r.handed) ↔
        (cfg.enablePostExecutionSeparation = false ∨
          ∀ req ∈ c.ppMsg.requests, req.isSpecial = false)) := by
  unfold startExecution at h
  split_ifs at h with hsep
  · obtain ⟨r', hr', hhanded, hordinary⟩ :=
      recovered_of_separateThread h hdesc replies' currentPrimary
    refine ⟨r', hr', ?_⟩
    rw [hsep, hhanded]
    constructor
    · intro hsame
      right
      intro req hreq
      by_contra hspecial
      have hmem : req ∈ r'.handed := (hsame req).mpr (mem_append_left _
        (mem_filter.mpr ⟨hreq, by simpa using hspecial⟩))
      exact hspecial (hordinary req hmem)
    · rintro (hfalse | hnone)
      · cases hfalse
      · rw [filter_eq_nil_iff.mpr fun req hreq => by simp [hnone req hreq], nil_append]
        exact fun req => Iff.rfl
  · rcases executeRequestsInPrePrepareMsg_eq_ok h with ⟨hnone, -⟩ |
      ⟨requestSet, rfl, -, hwritten, hacc, hsend⟩
    · rw [hnone] at hdesc
      cases hdesc
    · rw [hdesc] at hwritten
      obtain ⟨r', hr', hhanded⟩ :=
        recoverRequests_of_written hwritten hacc ⟨_, hsend⟩ replies' currentPrimary
      refine ⟨r', hr', fun _ => Or.inl (by simpa using hsep), fun _ req => ?_⟩
      rw [hhanded]

/-! ## An interrupted key exchange -/

/-- A key exchange of replica `2` with sequence number `5`: an internal request with body `[7]`. -/
def keyExchangeRequest : ClientRequestMsg where
  bytes := [0, 0, 0, 0, 0, 0, 2, 0, 0x48, 0, 0, 0, 0, 0, 0, 0, 0, 0, 0, 0, 5, 0, 0, 0, 0, 0, 0, 0,
    1, 0, 0, 0, 0, 0, 0, 0, 0, 0, 0, 0, 0, 0, 0, 0, 0, 0, 0, 0, 0, 0, 0, 0, 7]
  beyond := (requestOfClient 5 []).bytes
  size_eq := by decide

def keyExchangeMessage : PrePrepareMsg where
  senderId := 1
  viewNum := 0
  seqNum := 1
  epochNum := 0
  flags := 3
  time := 0
  digestOfRequests := firstBytes.compute
    (firstBytes.compute keyExchangeRequest.bytes ++ [7])
  spanContext := []
  batchCid := []
  requests := [keyExchangeRequest, requestOfClient 5 []]
  trailing := []
  laidOut := ⟨rfl, rfl, trivial⟩
  numberOfRequests_lt := by decide
  size_lt := by decide

def handedBy (r : Exec Outcome) : Option (Option (List Bool) × List ClientRequestMsg) :=
  match r with
  | .ok r => some (r.descriptor, r.handed)
  | .error _ => none

/-- The message is accepted. With the separate thread both requests are handed over; the recovery
does not hand over the key exchange. -/
theorem key_exchange_lost : keyExchangeMessage.Accepted firstBytes fourReplicas
      copySignatures ∧
    handedBy ((smallConfig true).startExecution (fun _ => .empty) ⟨keyExchangeMessage, 1, false⟩) =
      some (some [false, true], [keyExchangeRequest, requestOfClient 5 []]) ∧
    handedBy ((smallConfig true).recoverRequests (fun _ => .empty) keyExchangeMessage 1
      [false, true]) = some (none, [requestOfClient 5 []]) := by
  refine ⟨?_, by decide +kernel, by decide +kernel⟩
  unfold Accepted
  decide +kernel

theorem key_exchange_recovered : ∃ r r',
    (smallConfig false).startExecution (fun _ => .empty) ⟨keyExchangeMessage, 1, false⟩ = .ok r ∧
    (smallConfig false).recoverRequests (fun _ => .empty) keyExchangeMessage 1 [true, true] =
      .ok r' ∧
    ∀ req, req ∈ r'.handed ↔ req ∈ r.handed := by
  obtain ⟨r', hr', hiff⟩ := recovery_iff (smallConfig false) (fun _ => .empty)
    ⟨keyExchangeMessage, 1, false⟩ _ rfl [true, true] (by decide +kernel) (fun _ => .empty) 1
  exact ⟨_, r', rfl, hr', hiff.mpr (Or.inl rfl)⟩

end ExecutionConfig

end ConcordBft
