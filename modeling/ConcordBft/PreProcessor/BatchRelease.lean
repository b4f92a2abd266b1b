import ConcordBft.PreProcessor.Batches
import ConcordBft.Lib.Run
import Mathlib.Data.Finset.Card

/-!
# Batches end with their requests

A batch is reset only where one of two counters is compared with its size, so a request of the
batch that is released elsewhere can leave the batch registered for ever. `Tracked` is the
invariant of a client whose batch does not hang: what is missing in the counter is pending in a
slot (`pending`), and something is. `Busy` says of the running jobs that their requests are still
in their slots. Both are kept where a vote is counted (`Kept.handleReply`), a job ends
(`Kept.handlePrimary`, `Kept.handleNonPrimary`), the timer looks (`Kept.timer`) and the primary
cancels (`Kept.cancelBatch`).
-/

namespace ConcordBft

open Verif Verif.Exec RequestProcessingState List Except Nat Function RequestsBatch Option

/-! ## Decisions and running jobs -/

namespace RequestProcessingState

variable {cfg : PreProcessConfig} {s s' : RequestProcessingState} {r : PreProcessingResult}

theorem rightNow_decide {hash : Digest} {agreed : ResultCode}
    (h : s.decide cfg hash agreed = .ok (r, s')) :
    s'.preprocessingRightNow = s.preprocessingRightNow := by
  unfold decide at h
  dsimp only at h
  split_ifs at h
  · rw [← (ok_mk_inj h).2]
  · rw [← (ok_mk_inj h).2]
    rfl
  · obtain ⟨detected, -, h⟩ := bind_eq_ok.mp h
    rcases detected with _ | modifiedResult
    · rw [← (ok_mk_inj h).2]
    · obtain ⟨s₁, hs₁, h⟩ := bind_eq_ok.mp h
      rw [← (ok_mk_inj h).2]
      unfold modifyPrimaryResult at hs₁
      split at hs₁
      · obtain ⟨buffer, -, hs₁⟩ := bind_eq_ok.mp hs₁
        rw [← ok.inj hs₁]
      · cases hs₁
  · rw [← (ok_mk_inj h).2]

theorem define_rightNow (h : s.definePreProcessingConsensusResult cfg = .ok (r, s')) :
    s'.preprocessingRightNow = s.preprocessingRightNow ∧
      (s.preprocessingRightNow = true → r = .CONTINUE) := by
  unfold definePreProcessingConsensusResult at h
  split_ifs at h with hcount hnow
  · obtain ⟨rfl, rfl⟩ := ok_mk_inj h
    exact ⟨rfl, fun _ => rfl⟩
  · obtain ⟨rfl, rfl⟩ := ok_mk_inj h
    exact ⟨rfl, fun _ => rfl⟩
  · refine ⟨?_, fun htrue => absurd htrue hnow⟩
    rcases hmax : s.preProcessingResultHashes.calculateMaxNbrOfEqualHashes with _ | ⟨hash, sigs⟩
    · rw [hmax] at h
      rw [← (ok_mk_inj h).2]
    · rw [hmax] at h
      dsimp only at h
      split_ifs at h
      · rcases sigs with _ | ⟨first, rest⟩
        · cases h
        · exact rightNow_decide h
      · rw [← (ok_mk_inj h).2]

theorem rightNow_addSignature (hash : Digest) (sig : PreProcessResultSignature) :
    (s.addSignature hash sig).preprocessingRightNow = s.preprocessingRightNow := by
  unfold addSignature
  split_ifs <;> rfl

theorem rightNow_handleReply (m : PreProcessReplyMsg) :
    (s.handlePreProcessReplyMsg m).preprocessingRightNow = s.preprocessingRightNow := by
  unfold handlePreProcessReplyMsg
  split_ifs
  · exact rightNow_addSignature _ _
  · rfl

theorem rightNow_handlePrimary {buffer : List UInt8} {len : ℕ} {code : ResultCode}
    (h : s.handlePrimaryPreProcessed cfg buffer len code = .ok s') :
    s'.preprocessingRightNow = false := by
  unfold handlePrimaryPreProcessed at h
  obtain ⟨hash, -, h⟩ := bind_eq_ok.mp h
  obtain ⟨s₁, hs₁, h⟩ := bind_eq_ok.mp h
  rw [← ok.inj h, rightNow_addSignature]
  have hset : (s.setPrimaryResult buffer len code).preprocessingRightNow = false := by
    unfold setPrimaryResult
    dsimp only
    split_ifs <;> rfl
  unfold describeFailure setupPreProcessResultData at hs₁
  dsimp only at hs₁
  split_ifs at hs₁
  · split at hs₁
    · obtain ⟨buffer', -, hs₁⟩ := bind_eq_ok.mp hs₁
      rw [← ok.inj hs₁]
      exact hset
    · cases hs₁
  · rw [← ok.inj hs₁]
    exact hset

end RequestProcessingState

/-! ## What is pending -/

namespace RequestsBatch

variable {cfg : PreProcessorConfig} {b b' : RequestsBatch} {offset : ℕ}

/-- The slot holds a request of the batch. Before the batch is in process, only those count that
the primary has not asked for. -/
def isPending (b : RequestsBatch) (offset : ℕ) : Bool :=
  match (b.requestsMap offset).request with
  | none => false
  | some request =>
    decide (request.batchCid = b.batchCid) && (b.batchInProcess || !request.preProcessRequest)

/-- The slots with requests of the batch. -/
def pending (cfg : PreProcessorConfig) (b : RequestsBatch) : Finset ℕ :=
  (Finset.range cfg.clientMaxBatchSize).filter fun offset => b.isPending offset = true

theorem mem_pending : offset ∈ b.pending cfg ↔
    offset < cfg.clientMaxBatchSize ∧ b.isPending offset = true := by
  rw [pending, Finset.mem_filter, Finset.mem_range]

variable {request : SlotRequest}

theorem isPending_of_request (h : (b.requestsMap offset).request = some request) :
    b.isPending offset = true ↔ request.batchCid = b.batchCid ∧
      (b.batchInProcess = true ∨ request.preProcessRequest = false) := by
  unfold isPending
  rw [h]
  simp

theorem pending_congr (h : ∀ offset, b'.isPending offset = b.isPending offset) :
    b'.pending cfg = b.pending cfg := by
  ext offset
  rw [mem_pending, mem_pending, h]

/-- The parameters of the batch, without the counter. -/
def SameParams (b b' : RequestsBatch) : Prop :=
  b'.batchCid = b.batchCid ∧ b'.batchSize = b.batchSize ∧ b'.batchRegistered = b.batchRegistered ∧
    b'.batchInProcess = b.batchInProcess

/-- What the counter lacks is pending. -/
structure Loose (cfg : PreProcessorConfig) (b : RequestsBatch) : Prop where
  inProcess : b.batchInProcess = true → b.batchRegistered = true
  unregistered : b.batchRegistered = false → b.batchCid = [] ∧ b.batchSize = 0
  registered : b.batchRegistered = true → b.batchCid ≠ [] ∧ 0 < b.batchSize ∧
    b.batchSize ≤ b.numOfCompletedReqs + (b.pending cfg).card

/-- And something is. -/
structure Tracked (cfg : PreProcessorConfig) (b : RequestsBatch) : Prop extends Loose cfg b where
  nonempty : b.batchRegistered = true → (b.pending cfg).Nonempty

theorem Loose.idle (h : Loose cfg b) (hreg : b.batchRegistered = false) :
    b.batchInProcess = false := by
  rw [← Bool.not_eq_true] at hreg ⊢
  exact fun htrue => hreg (h.inProcess htrue)

theorem Loose.of_le (h : Loose cfg b) (hsame : SameParams b b')
    (hle : b.batchRegistered = true → b.numOfCompletedReqs + (b.pending cfg).card ≤
      b'.numOfCompletedReqs + (b'.pending cfg).card) : Loose cfg b' := by
  obtain ⟨hcid, hsize, hregistered, hprocess⟩ := hsame
  refine ⟨?_, ?_, ?_⟩
  · rw [hregistered, hprocess]
    exact h.inProcess
  · rw [hregistered, hcid, hsize]
    exact h.unregistered
  · rw [hregistered, hcid, hsize]
    intro hreg
    obtain ⟨hne, hpos, hcount⟩ := h.registered hreg
    exact ⟨hne, hpos, hcount.trans (hle hreg)⟩

theorem Tracked.of_eq (h : Tracked cfg b) (hsame : SameParams b b')
    (hpending : b.batchRegistered = true → b'.pending cfg = b.pending cfg)
    (hcompleted : b.numOfCompletedReqs ≤ b'.numOfCompletedReqs) : Tracked cfg b' := by
  refine ⟨h.toLoose.of_le hsame fun hreg => ?_, fun hreg => ?_⟩
  · rw [hpending hreg]
    exact Nat.add_le_add_right hcompleted _
  · rw [hsame.2.2.1] at hreg
    rw [hpending hreg]
    exact h.nonempty hreg

theorem tracked_reset (cfg : PreProcessorConfig) (b : RequestsBatch) :
    Tracked cfg b.resetBatchParams := ⟨⟨nofun, fun _ => ⟨rfl, rfl⟩, nofun⟩, nofun⟩

/-! ### Changes of one slot -/

variable {request' : SlotRequest}

/-- Two versions of a request that differ in the votes. -/
def SameShape (request request' : SlotRequest) : Prop :=
  request'.batchCid = request.batchCid ∧
    request'.preProcessRequest = request.preProcessRequest ∧
    request'.processing.preprocessingRightNow = request.processing.preprocessingRightNow

theorem sameShape_decided {processing : RequestProcessingState} {result : PreProcessingResult}
    (h : request.processing.definePreProcessingConsensusResult cfg.toPreProcessConfig =
      .ok (result, processing)) (resend : Prop) [Decidable resend] :
    SameShape request (if resend then
      resendPreProcessRequest { request with processing := processing }
      else { request with processing := processing }) := by
  have hsame := (define_rightNow h).1
  split_ifs
  · unfold resendPreProcessRequest
    split_ifs <;> exact ⟨rfl, rfl, hsame⟩
  · exact ⟨rfl, rfl, hsame⟩

theorem isPending_setRequest (h : (b.requestsMap offset).request = some request)
    (hcid : request'.batchCid = request.batchCid)
    (hpre : request'.preProcessRequest = request.preProcessRequest) (o : ℕ) :
    (b.setRequest offset request').isPending o = b.isPending o := by
  unfold isPending setRequest setSlot
  by_cases ho : o = offset
  · subst ho
    dsimp only
    rw [update_self, h]
    dsimp only
    rw [hcid, hpre]
  · dsimp only
    rw [update_of_ne ho]

theorem pending_released (request : SlotRequest) (history : List UInt64) :
    (b.released offset request history).pending cfg = (b.pending cfg).erase offset := by
  ext o
  rw [Finset.mem_erase, mem_pending, mem_pending]
  unfold isPending released setSlot increaseNumOfCompletedReqs
  by_cases ho : o = offset
  · subst ho
    dsimp only
    rw [update_self]
    simp
  · dsimp only
    rw [update_of_ne ho]
    simp [ho]

theorem Loose.released (h : Loose cfg b)
    (hslot : ∃ request₀, (b.requestsMap offset).request = some request₀ ∧
      request.batchCid = request₀.batchCid) (history : List UInt64) :
    Loose cfg (b.released offset request history) := by
  refine h.of_le ⟨rfl, rfl, rfl, rfl⟩ fun hreg => ?_
  rw [pending_released]
  by_cases hmem : offset ∈ b.pending cfg
  · -- the release of a pending request is counted
    obtain ⟨request₀, hrequest, hcid⟩ := hslot
    have hcur := ((isPending_of_request hrequest).mp (mem_pending.mp hmem).2).1
    have hne : request.batchCid ≠ [] := by
      rw [hcid, hcur]
      exact (h.registered hreg).1
    have hpos := Finset.card_pos.mpr ⟨offset, hmem⟩
    rw [Finset.card_erase_of_mem hmem]
    unfold RequestsBatch.released increaseNumOfCompletedReqs
    dsimp only
    rw [if_neg hne]
    show _ ≤ b.numOfCompletedReqs + 1 + _
    omega
  · rw [Finset.erase_eq_of_notMem hmem]
    exact Nat.add_le_add_right (Nat.le_add_right _ _) _

theorem Tracked.released (h : Tracked cfg b) (request : SlotRequest) (history : List UInt64)
    (hmem : b.batchRegistered = true → offset ∉ b.pending cfg) :
    Tracked cfg (b.released offset request history) := by
  refine h.of_eq ⟨rfl, rfl, rfl, rfl⟩ (fun hreg => ?_) (Nat.le_add_right _ _)
  rw [pending_released, Finset.erase_eq_of_notMem (hmem hreg)]

theorem tracked_finalizeBatchIfCompleted (h : Loose cfg b) :
    Tracked cfg b.finalizeBatchIfCompleted := by
  unfold finalizeBatchIfCompleted
  split_ifs with hempty hless
  · refine ⟨h, fun hreg => ?_⟩
    have hpos := (h.registered hreg).2.1
    omega
  · refine ⟨h, fun hreg => ?_⟩
    have hcount := (h.registered hreg).2.2
    exact Finset.card_pos.mp (by omega)
  · exact tracked_reset cfg b

/-! ## Running jobs -/

/-- The jobs of the client run on requests that are in their slots, no two on the same, and the
slots of which a reply was collected are not among them. -/
structure Busy (jobs : List PreProcessJob) (b : RequestsBatch) : Prop where
  running : ∀ job ∈ jobs, ∃ request,
    (b.requestsMap job.reqOffsetInBatch).request = some request ∧
      request.preProcessRequest = true ∧ request.processing.preprocessingRightNow = true ∧
      (job.isPrimary = true → request.batchCid = job.batchCid)
  nodup : (jobs.map PreProcessJob.reqOffsetInBatch).Nodup
  idle : b.batchInProcess = false → b.repliesList = []
  replied : ∀ offset ∈ b.repliesList, ∀ request, (b.requestsMap offset).request = some request →
    request.preProcessRequest = true ∧ request.processing.preprocessingRightNow = false

variable {jobs : List PreProcessJob}

variable {request : SlotRequest} {clientId : UInt16} {cid : Cid} {job : PreProcessJob}
  {replica : InternalReplicaApi} {elapsed : ℕ → Bool}

theorem Busy.ne_of_not_running (h : Busy jobs b)
    (hslot : (b.requestsMap offset).request = some request)
    (hnot : request.preProcessRequest = false ∨ request.processing.preprocessingRightNow = false) :
    ∀ job ∈ jobs, job.reqOffsetInBatch ≠ offset := by
  rintro job hjob rfl
  obtain ⟨request', hslot', hpre, hnow, -⟩ := h.running job hjob
  obtain rfl := some.inj (hslot.symm.trans hslot')
  simp [hpre, hnow] at hnot

theorem Busy.of_update (h : Busy jobs b) (hne : ∀ job ∈ jobs, job.reqOffsetInBatch ≠ offset)
    (hmap : ∀ o, o ≠ offset → b'.requestsMap o = b.requestsMap o)
    (hidle : b'.batchInProcess = false → b'.repliesList = [])
    (hreplies : ∀ o ∈ b'.repliesList, o ≠ offset → o ∈ b.repliesList)
    (hslot : offset ∈ b'.repliesList → ∀ request, (b'.requestsMap offset).request = some request →
      request.preProcessRequest = true ∧ request.processing.preprocessingRightNow = false) :
    Busy jobs b' := by
  refine ⟨fun job hjob => ?_, h.nodup, hidle, fun o ho request hrequest => ?_⟩
  · rw [hmap _ (hne job hjob)]
    exact h.running job hjob
  · by_cases heq : o = offset
    · subst heq
      exact hslot ho request hrequest
    · rw [hmap o heq] at hrequest
      exact h.replied o (hreplies o ho heq) request hrequest

theorem released_request (b : RequestsBatch) (offset : ℕ) (request : SlotRequest)
    (history : List UInt64) :
    ((b.released offset request history).requestsMap offset).request = none := by
  unfold released increaseNumOfCompletedReqs setSlot
  dsimp only
  rw [update_self]

theorem Busy.released (h : Busy jobs b) (hne : ∀ job ∈ jobs, job.reqOffsetInBatch ≠ offset)
    (request : SlotRequest) (history : List UInt64) :
    Busy jobs (b.released offset request history) := by
  refine h.of_update hne (fun o ho => ?_) h.idle (fun o ho _ => ho) fun _ request' hslot => ?_
  · exact update_of_ne ho _ _
  · rw [released_request] at hslot
    cases hslot

theorem Busy.reset (h : Busy jobs b) : Busy jobs b.resetBatchParams :=
  ⟨h.running, h.nodup, fun _ => rfl, fun _ ho => absurd ho not_mem_nil⟩

theorem finalizeBatchIfCompleted_cases (b : RequestsBatch) :
    b.finalizeBatchIfCompleted = b ∨ b.finalizeBatchIfCompleted = b.resetBatchParams := by
  unfold finalizeBatchIfCompleted
  split_ifs <;> simp

theorem finalizeSafe_of {P : RequestsBatch → Prop} (h : P b) (hreset : P b.resetBatchParams)
    (cid : Cid) : P (b.finalizeBatchIfCompletedSafe cid) := by
  unfold finalizeBatchIfCompletedSafe
  split_ifs
  · rcases b.finalizeBatchIfCompleted_cases with heq | heq <;> rwa [heq]
  · exact h

theorem Busy.finalizeSafe (h : Busy jobs b) (cid : Cid) :
    Busy jobs (b.finalizeBatchIfCompletedSafe cid) := finalizeSafe_of h h.reset cid

theorem request_setRequest (b : RequestsBatch) (offset : ℕ) (request : SlotRequest) :
    ((b.setRequest offset request).requestsMap offset).request = some request := by
  unfold setRequest setSlot
  dsimp only
  rw [update_self]

/-- A request changes in a way that neither the batch nor the jobs notice. -/
theorem Busy.setRequest (h : Busy jobs b) (hslot : (b.requestsMap offset).request = some request)
    (hshape : SameShape request request') : Busy jobs (b.setRequest offset request') := by
  obtain ⟨hcid, hpre, hnow⟩ := hshape
  have hself := b.request_setRequest offset request'
  have hother : ∀ o, o ≠ offset → (b.setRequest offset request').requestsMap o =
      b.requestsMap o := fun o ho => update_of_ne ho _ _
  refine ⟨fun job hjob => ?_, h.nodup, h.idle, fun o ho r hr => ?_⟩
  · obtain ⟨r, hr, hrest⟩ := h.running job hjob
    by_cases heq : job.reqOffsetInBatch = offset
    · rw [heq] at hr ⊢
      obtain rfl := some.inj (hslot.symm.trans hr)
      refine ⟨request', hself, ?_⟩
      rw [hcid, hpre, hnow]
      exact hrest
    · rw [hother _ heq]
      exact ⟨r, hr, hrest⟩
  · by_cases heq : o = offset
    · subst heq
      obtain rfl := some.inj (hself.symm.trans hr)
      rw [hpre, hnow]
      exact h.replied o ho request hslot
    · rw [hother o heq] at hr
      exact h.replied o ho r hr

theorem Tracked.setRequest (h : Tracked cfg b)
    (hslot : (b.requestsMap offset).request = some request)
    (hcid : request'.batchCid = request.batchCid)
    (hpre : request'.preProcessRequest = request.preProcessRequest) :
    Tracked cfg (b.setRequest offset request') :=
  h.of_eq ⟨rfl, rfl, rfl, rfl⟩ (fun _ => pending_congr (isPending_setRequest hslot hcid hpre))
    (le_refl _)

/-! ## Releases -/

theorem getRequestState_eq_ok {slot : RequestState} : b.getRequestState cfg offset = .ok slot ↔
      offset < cfg.clientMaxBatchSize ∧ slot = b.requestsMap offset := by
  unfold getRequestState
  rw [ensure_bind_eq_ok, decide_eq_true_iff, pure_eq_ok, ok.injEq]
  exact and_congr_right fun _ => eq_comm

variable {result : PreProcessingResult}

theorem release_cases (h : b.releaseClientPreProcessRequest cfg clientId offset result = .ok b') :
    (b.requestsMap offset).request = none ∧ b' = b ∨
      ∃ request history, (b.requestsMap offset).request = some request ∧
        b' = b.released offset request history := by
  unfold releaseClientPreProcessRequest at h
  rcases hslot : (b.requestsMap offset).request with _ | request
  · rw [hslot] at h
    exact .inl ⟨rfl, (ok.inj h).symm⟩
  · rw [hslot] at h
    obtain ⟨history, -, h⟩ := bind_eq_ok.mp h
    obtain ⟨_, -, h⟩ := bind_eq_ok.mp h
    exact .inr ⟨request, history, rfl, (ok.inj h).symm⟩

theorem release_of_request (hslot : (b.requestsMap offset).request = some request)
    (h : b.releaseClientPreProcessRequest cfg clientId offset result = .ok b') :
    ∃ history, b' = b.released offset request history := by
  rcases release_cases h with ⟨hnone, -⟩ | ⟨request', history, hslot', rfl⟩
  · rw [hslot] at hnone
    cases hnone
  · obtain rfl := some.inj (hslot.symm.trans hslot')
    exact ⟨history, rfl⟩

theorem released_setRequest (b : RequestsBatch) (offset : ℕ) (request request' : SlotRequest)
    (history : List UInt64) : (b.setRequest offset request').released offset request history =
      b.released offset request history := by
  unfold released setRequest setSlot increaseNumOfCompletedReqs
  dsimp only
  rw [update_idem]

/-- A decision leaves the request in its slot, or releases it and checks the batch. -/
theorem hold_cases
    (h : (b.setRequest offset request).holdCompleteOrCancelRequest cfg result clientId offset cid =
      .ok b') :
    b' = b.setRequest offset request ∨ (result = .COMPLETE ∨ result = .CANCEL) ∧
      ∃ history, b' = (b.released offset request history).finalizeBatchIfCompletedSafe cid := by
  have hslot := b.request_setRequest offset request
  have hrelease : ∀ {result b₁}, (b.setRequest offset request).releaseClientPreProcessRequest cfg
      clientId offset result = .ok b₁ → ∃ history, b₁ = b.released offset request history := by
    intro result b₁ hb₁
    obtain ⟨history, rfl⟩ := release_of_request hslot hb₁
    exact ⟨history, released_setRequest _ _ _ _ _⟩
  cases result with
  | COMPLETE =>
    refine .inr ⟨.inl rfl, ?_⟩
    unfold holdCompleteOrCancelRequest finalizePreProcessing at h
    obtain ⟨slot, hstate, h⟩ := bind_eq_ok.mp h
    rw [(getRequestState_eq_ok.mp hstate).2, hslot] at h
    dsimp only at h
    split_ifs at h
    · obtain ⟨m, -, h⟩ := bind_eq_ok.mp h
      obtain ⟨b₁, hb₁, h⟩ := bind_eq_ok.mp h
      obtain ⟨history, rfl⟩ := hrelease hb₁
      exact ⟨history, (ok.inj h).symm⟩
  | CANCEL =>
    unfold holdCompleteOrCancelRequest cancelPreProcessing at h
    obtain ⟨slot, -, h⟩ := bind_eq_ok.mp h
    split_ifs at h with hcid
    · unfold cancelRequestAndBatchIfCompleted at h
      split_ifs at h with hother
      · exact .inl (ok.inj h).symm
      · have hsame : b.batchCid = cid := not_not.mp hother
        obtain ⟨b₁, hb₁, h⟩ := bind_eq_ok.mp h
        obtain ⟨history, rfl⟩ := hrelease hb₁
        refine .inr ⟨.inr rfl, history, ?_⟩
        unfold finalizeBatchIfCompletedSafe
        rw [if_pos ⟨fun hnil => hcid (hsame.symm.trans hnil), hsame.symm⟩]
        exact (ok.inj h).symm
    · obtain ⟨history, rfl⟩ := hrelease h
      refine .inr ⟨.inr rfl, history, ?_⟩
      unfold finalizeBatchIfCompletedSafe
      rw [if_neg fun hcheck => hcheck.1 (hcheck.2.symm.trans (not_not.mp hcid))]
  | NONE | CONTINUE | EXPIRED | FAILED | CANCELLED_BY_PRIMARY => exact .inl (ok.inj h).symm

theorem decideRequest_cases {resend : Bool}
    (h : b.decideRequest cfg clientId offset cid request resend = .ok b') :
    ∃ request', SameShape request request' ∧ (b' = b.setRequest offset request' ∨
      request.processing.preprocessingRightNow = false ∧ ∃ history,
        b' = (b.released offset request' history).finalizeBatchIfCompletedSafe cid) := by
  unfold decideRequest at h
  obtain ⟨⟨result, processing⟩, hdefine, h⟩ := bind_eq_ok.mp h
  dsimp only at h
  refine ⟨_, sameShape_decided hdefine _, (hold_cases h).imp_right fun hreleased =>
    ⟨?_, hreleased.2⟩⟩
  rcases hnow : request.processing.preprocessingRightNow with _ | _
  · rfl
  · rw [(define_rightNow hdefine).2 hnow] at hreleased
    rcases hreleased.1 with hres | hres <;> cases hres

/-! ## Votes and jobs -/

/-- The invariant of the batch of a client with its running jobs. -/
structure Kept (cfg : PreProcessorConfig) (jobs : List PreProcessJob) (b : RequestsBatch) :
    Prop where
  tracked : Tracked cfg b
  busy : Busy jobs b

/-- The batch is still the same, or it is over. -/
def Lasts (b b' : RequestsBatch) : Prop :=
  b'.batchCid = b.batchCid ∧ b'.batchRegistered = b.batchRegistered ∨ b'.batchRegistered = false

theorem setRequest_setRequest (b : RequestsBatch) (offset : ℕ) (request request' : SlotRequest) :
    (b.setRequest offset request).setRequest offset request' = b.setRequest offset request' := by
  unfold setRequest setSlot
  dsimp only
  rw [update_idem, update_self]

/-- A decision about a request keeps the batch if the check is made with its correlation id. -/
theorem Kept.decideRequest {request₀ : SlotRequest} {resend : Bool} (htracked : Tracked cfg b)
    (hslot : (b.requestsMap offset).request = some request₀)
    (hcid₀ : request.batchCid = request₀.batchCid)
    (hpre₀ : request.preProcessRequest = request₀.preProcessRequest)
    (hbusy : Busy jobs (b.setRequest offset request))
    (hcid : b.batchRegistered = true → request₀.batchCid = b.batchCid → cid = b.batchCid)
    (h : b.decideRequest cfg clientId offset cid request resend = .ok b') :
    Kept cfg jobs b' ∧ Lasts b b' := by
  have hself := b.request_setRequest offset request
  obtain ⟨request', hshape, hcases⟩ := decideRequest_cases h
  have hcid' := hshape.1
  obtain rfl | ⟨hnow, history, rfl⟩ := hcases
  · refine ⟨⟨htracked.setRequest hslot (hcid'.trans hcid₀) (hshape.2.1.trans hpre₀), ?_⟩,
      .inl ⟨rfl, rfl⟩⟩
    rw [← setRequest_setRequest b offset request request']
    exact hbusy.setRequest hself hshape
  · refine ⟨⟨?_, ?_⟩, ?_⟩
    · unfold finalizeBatchIfCompletedSafe
      split_ifs with hcheck
      · exact tracked_finalizeBatchIfCompleted
          (htracked.toLoose.released ⟨request₀, hslot, hcid'.trans hcid₀⟩ history)
      · refine htracked.released request' history fun hreg hmem => hcheck ?_
        have hcur := ((isPending_of_request hslot).mp (mem_pending.mp hmem).2).1
        exact ⟨(htracked.registered hreg).1, hcid hreg hcur⟩
    · apply Busy.finalizeSafe
      rw [← released_setRequest b offset request' request history]
      exact hbusy.released (hbusy.ne_of_not_running hself (.inr hnow)) _ _
    · exact finalizeSafe_of (P := Lasts _) (.inl ⟨rfl, rfl⟩) (.inr rfl) cid

theorem Kept.handleReply (h : Kept cfg jobs b) {m : PreProcessReplyMsg}
    (hcid : m.status ≠ ReplyStatus.STATUS_REJECT → b.batchRegistered = true → ∀ request,
      (b.requestsMap m.reqOffsetInBatch.toNat).request = some request →
      request.batchCid = b.batchCid → cid = b.batchCid)
    (hok : b.handleSinglePreProcessReplyMsg cfg m cid = .ok b') :
    Kept cfg jobs b' ∧ Lasts b b' := by
  unfold handleSinglePreProcessReplyMsg at hok
  obtain ⟨slot, hstate, hok⟩ := bind_eq_ok.mp hok
  obtain ⟨-, rfl⟩ := getRequestState_eq_ok.mp hstate
  rcases hslot : (b.requestsMap m.reqOffsetInBatch.toNat).request with _ | request
  · rw [hslot] at hok
    obtain rfl := ok.inj hok
    exact ⟨h, .inl ⟨rfl, rfl⟩⟩
  · rw [hslot] at hok
    dsimp only at hok
    have hvoted := @RequestProcessingState.rightNow_handleReply request.processing m
    have hbusy : Busy jobs (b.setRequest m.reqOffsetInBatch.toNat
        { request with processing := request.processing.handlePreProcessReplyMsg m }) :=
      h.busy.setRequest hslot ⟨rfl, rfl, hvoted⟩
    split_ifs at hok with hother hreject
    · obtain rfl := ok.inj hok
      exact ⟨h, .inl ⟨rfl, rfl⟩⟩
    · obtain rfl := ok.inj hok
      exact ⟨⟨h.tracked.setRequest hslot rfl rfl, hbusy⟩, .inl ⟨rfl, rfl⟩⟩
    · refine Kept.decideRequest h.tracked hslot ?_ ?_ hbusy
        (fun hreg => hcid hreject hreg request hslot) hok
      · rfl
      · rfl

theorem Kept.handleReplies {msgs : List PreProcessReplyMsg} (h : Kept cfg jobs b)
    (hcid : b.batchCid = cid ∨ b.batchRegistered = false)
    (hok : msgs.foldlM (fun b msg => b.handleSinglePreProcessReplyMsg cfg msg cid) b = .ok b') :
    Kept cfg jobs b' := by
  induction msgs generalizing b with
  | nil => exact ok.inj hok ▸ h
  | cons msg msgs ih =>
    rw [foldlM_cons] at hok
    obtain ⟨b₁, hb₁, hok⟩ := bind_eq_ok.mp hok
    have hsame : b.batchRegistered = true → cid = b.batchCid := by
      intro hreg
      rcases hcid with hcid | hnot
      · exact hcid.symm
      · rw [hnot] at hreg
        cases hreg
    obtain ⟨hkept, hlasts⟩ := h.handleReply (fun _ hreg _ _ _ => hsame hreg) hb₁
    refine ih hkept ?_ hok
    rcases hlasts with ⟨heq, hreg⟩ | hnot
    · rw [heq, hreg]
      exact hcid
    · exact .inr hnot

theorem Busy.perm {jobs' : List PreProcessJob} (h : Busy jobs b) (hperm : jobs'.Perm jobs) :
    Busy jobs' b :=
  ⟨fun job hjob => h.running job (hperm.subset hjob),
    (hperm.map PreProcessJob.reqOffsetInBatch).nodup_iff.mpr h.nodup, h.idle, h.replied⟩

theorem Busy.tail (h : Busy (job :: jobs) b) :
    Busy jobs b ∧ ∀ job' ∈ jobs, job'.reqOffsetInBatch ≠ job.reqOffsetInBatch := by
  have hnodup := h.nodup
  rw [map_cons, nodup_cons] at hnodup
  refine ⟨⟨fun job' hjob' => h.running job' (mem_cons_of_mem _ hjob'), hnodup.2, h.idle,
    h.replied⟩, fun job' hjob' heq => hnodup.1 ?_⟩
  rw [← heq]
  exact mem_map_of_mem hjob'

theorem Busy.setRequest_ended (h : Busy jobs b) (hne : ∀ job ∈ jobs, job.reqOffsetInBatch ≠ offset)
    (hpre : request.preProcessRequest = true)
    (hnow : request.processing.preprocessingRightNow = false) :
    Busy jobs (b.setRequest offset request) := by
  refine h.of_update hne (fun o ho => update_of_ne ho _ _) h.idle (fun o ho _ => ho)
    fun _ request' hslot' => ?_
  obtain rfl := some.inj ((request_setRequest _ _ _).symm.trans hslot')
  exact ⟨hpre, hnow⟩

theorem Kept.handlePrimary (h : Kept cfg (job :: jobs) b)
    (hprimary : job.isPrimary = true) {buffer : List UInt8} {len : ℕ} {code : ResultCode}
    (hok : b.handleReqPreProcessedByPrimary cfg job.clientId job.reqOffsetInBatch job.batchCid
      buffer len code = .ok b') : Kept cfg jobs b' := by
  obtain ⟨hbusy, hne⟩ := h.busy.tail
  obtain ⟨request, hslot, hpre, hnow, hcid⟩ := h.busy.running job mem_cons_self
  unfold handleReqPreProcessedByPrimary at hok
  obtain ⟨slot, hstate, hok⟩ := bind_eq_ok.mp hok
  rw [(getRequestState_eq_ok.mp hstate).2, hslot] at hok
  obtain ⟨processing, hprocessing, hok⟩ := bind_eq_ok.mp hok
  have hbusy' : Busy jobs (b.setRequest job.reqOffsetInBatch
      { request with processing := processing }) :=
    hbusy.setRequest_ended hne hpre (rightNow_handlePrimary hprocessing)
  refine (Kept.decideRequest h.tracked hslot ?_ ?_ hbusy' (fun _ heq => ?_) hok).1
  · rfl
  · rfl
  · rw [← hcid hprimary]
    exact heq

/-! ### Replicas that are not the primary -/

theorem setPreprocessingRightNow_cases {set : Bool}
    (hok : b.setPreprocessingRightNow cfg offset set = .ok b') :
    (b.requestsMap offset).request = none ∧ b' = b ∨
      ∃ request, (b.requestsMap offset).request = some request ∧
        b' = b.setRequest offset { request with
          processing := { request.processing with preprocessingRightNow := set } } := by
  unfold setPreprocessingRightNow at hok
  obtain ⟨slot, hstate, hok⟩ := bind_eq_ok.mp hok
  obtain ⟨-, rfl⟩ := getRequestState_eq_ok.mp hstate
  rcases hslot : (b.requestsMap offset).request with _ | request
  · rw [hslot] at hok
    exact .inl ⟨rfl, (ok.inj hok).symm⟩
  · rw [hslot] at hok
    exact .inr ⟨request, rfl, (ok.inj hok).symm⟩

theorem Kept.clearRightNow (htracked : Tracked cfg b) (hbusy : Busy jobs b)
    (hne : ∀ job ∈ jobs, job.reqOffsetInBatch ≠ offset)
    (hpre : ∀ request, (b.requestsMap offset).request = some request →
      request.preProcessRequest = true)
    (hok : b.setPreprocessingRightNow cfg offset false = .ok b') : Kept cfg jobs b' := by
  rcases setPreprocessingRightNow_cases hok with ⟨-, rfl⟩ | ⟨request, hslot, rfl⟩
  · exact ⟨htracked, hbusy⟩
  · exact ⟨htracked.setRequest hslot rfl rfl, hbusy.setRequest_ended hne (hpre request hslot) rfl⟩

/-- Releases change their own slots only, and leave no other request there. -/
theorem releases_map {offsets : List ℕ} (hok : offsets.foldlM (fun b offset =>
      b.releaseClientPreProcessRequestSafe cfg clientId offset .COMPLETE) b = .ok b') (o : ℕ) :
    (o ∉ offsets → b'.requestsMap o = b.requestsMap o) ∧ ∀ request,
      (b'.requestsMap o).request = some request → (b.requestsMap o).request = some request := by
  induction offsets generalizing b with
  | nil =>
    obtain rfl := ok.inj hok
    exact ⟨fun _ => rfl, fun _ hr => hr⟩
  | cons offset offsets ih =>
    rw [foldlM_cons] at hok
    obtain ⟨b₁, hb₁, hok⟩ := bind_eq_ok.mp hok
    obtain ⟨hsame, hfrom⟩ := ih hok
    unfold releaseClientPreProcessRequestSafe at hb₁
    obtain ⟨slot, -, hb₁⟩ := bind_eq_ok.mp hb₁
    rcases release_cases hb₁ with ⟨-, rfl⟩ | ⟨request, history, -, rfl⟩
    · exact ⟨fun ho => hsame fun hmem => ho (mem_cons_of_mem _ hmem), hfrom⟩
    · by_cases ho : o = offset
      · subst ho
        refine ⟨fun hmem => absurd mem_cons_self hmem, fun r hr => ?_⟩
        have hfree := hfrom r hr
        rw [released_request] at hfree
        cases hfree
      · have hother : (b.released offset request history).requestsMap o = b.requestsMap o :=
          update_of_ne ho _ _
        rw [hother] at hsame hfrom
        exact ⟨fun hmem => hsame fun hmem' => hmem (mem_cons_of_mem _ hmem'), hfrom⟩

theorem Kept.releaseReplied {b₁ : RequestsBatch} (hbusy : Busy jobs b)
    (hslot : (b.requestsMap offset).request = some request)
    (hpre : request.preProcessRequest = true) (hne : ∀ job ∈ jobs, job.reqOffsetInBatch ≠ offset)
    (hreleases : (b.repliesList ++ [offset]).reverse.foldlM (fun b offset =>
      b.releaseClientPreProcessRequestSafe cfg clientId offset .COMPLETE)
      { b with repliesList := b.repliesList ++ [offset] } = .ok b₁)
    (hok : b₁.resetBatchParams.setPreprocessingRightNow cfg offset false = .ok b') :
    Kept cfg jobs b' := by
  have hrunning : Busy jobs b₁.resetBatchParams := by
    refine ⟨fun job hjob => ?_, hbusy.nodup, fun _ => rfl, fun _ ho => absurd ho not_mem_nil⟩
    -- a request whose job is running has not replied
    have hmem : job.reqOffsetInBatch ∉ (b.repliesList ++ [offset]).reverse := by
      rw [mem_reverse, mem_append, mem_singleton]
      rintro (hreplied | heq)
      · obtain ⟨r, hr, -, hnow, -⟩ := hbusy.running job hjob
        rw [(hbusy.replied _ hreplied r hr).2] at hnow
        cases hnow
      · exact hne job hjob heq
    have hsame : b₁.resetBatchParams.requestsMap job.reqOffsetInBatch =
      b.requestsMap job.reqOffsetInBatch := (releases_map hreleases _).1 hmem
    rw [hsame]
    exact hbusy.running job hjob
  refine Kept.clearRightNow (tracked_reset cfg b₁) hrunning hne (fun r hr => ?_) hok
  have hbefore : (b.requestsMap offset).request = some r := (releases_map hreleases offset).2 r hr
  obtain rfl := some.inj (hslot.symm.trans hbefore)
  exact hpre

theorem Kept.handleNonPrimary (h : Kept cfg (job :: jobs) b)
    (hok : b.handleReqPreProcessedByNonPrimary cfg job.clientId job.reqOffsetInBatch = .ok b') :
    Kept cfg jobs b' := by
  obtain ⟨hbusy, hne⟩ := h.busy.tail
  obtain ⟨request, hslot, hpre, hnow, -⟩ := h.busy.running job mem_cons_self
  unfold handleReqPreProcessedByNonPrimary sendReply at hok
  obtain ⟨b₁, hb₁, hok⟩ := bind_eq_ok.mp hok
  split_ifs at hb₁ with hprocess
  · unfold releaseReqsAndSendBatchedReplyIfCompleted at hb₁
    rw [if_neg (not_not_intro hprocess)] at hb₁
    dsimp only at hb₁
    split_ifs at hb₁ with hmissing
    · -- replies are missing: this one waits with the request in its slot
      obtain rfl := ok.inj hb₁
      rcases setPreprocessingRightNow_cases hok with ⟨hnone, -⟩ | ⟨request', hslot', rfl⟩
      · rw [hslot] at hnone
        cases hnone
      · obtain rfl := some.inj (hslot.symm.trans hslot')
        refine ⟨h.tracked.of_eq ⟨rfl, rfl, rfl, rfl⟩
          (fun _ => pending_congr (isPending_setRequest hslot rfl rfl)) (le_refl _), ?_⟩
        refine hbusy.of_update hne (fun o ho => update_of_ne ho _ _) (fun hnot => ?_)
          (fun o ho hother => ?_) fun _ request' hslot' => ?_
        · exact absurd (hprocess.symm.trans hnot) (by decide)
        · rcases mem_append.mp ho with hmem | hmem
          · exact hmem
          · exact absurd (mem_singleton.mp hmem) hother
        · obtain rfl := some.inj ((request_setRequest _ _ _).symm.trans hslot')
          exact ⟨hpre, rfl⟩
    · obtain ⟨b₂, hreleases, hb₁⟩ := bind_eq_ok.mp hb₁
      obtain rfl := ok.inj hb₁
      exact Kept.releaseReplied hbusy hslot hpre hne hreleases hok
  · -- alone: a request that the primary asked for is not pending before its batch is in process
    unfold releaseClientPreProcessRequestSafe at hb₁
    obtain ⟨slot, -, hb₁⟩ := bind_eq_ok.mp hb₁
    obtain ⟨history, rfl⟩ := release_of_request hslot hb₁
    have hfree := released_request b job.reqOffsetInBatch request history
    refine Kept.clearRightNow (h.tracked.released request history fun _ hmem => ?_)
      (hbusy.released hne request history) hne (fun r hr => ?_) hok
    · rcases ((isPending_of_request hslot).mp (mem_pending.mp hmem).2).2 with hbad | hbad
      · exact hprocess hbad
      · rw [hpre] at hbad
        cases hbad
    · rw [hfree] at hr
      cases hr

/-! ### The timer -/

theorem timer_slot {expired expired' : ℕ} (hloose : Loose cfg b) (hbusy : Busy jobs b)
    (hok : handlePossiblyExpiredRequest cfg replica clientId elapsed (b, expired) offset =
      .ok (b', expired')) :
    Loose cfg b' ∧ Busy jobs b' ∧ expired ≤ expired' ∧ (Tracked cfg b → expired' = expired →
      Tracked cfg b') := by
  unfold handlePossiblyExpiredRequest at hok
  rcases hslot : (b.requestsMap offset).request with _ | request
  · rw [hslot] at hok
    obtain ⟨rfl, rfl⟩ := ok_mk_inj hok
    exact ⟨hloose, hbusy, le_refl _, fun h _ => h⟩
  · rw [hslot] at hok
    dsimp only at hok
    split_ifs at hok with htimeout hprimary
    · obtain ⟨b₁, hb₁, hok⟩ := bind_eq_ok.mp hok
      obtain ⟨rfl, rfl⟩ := ok_mk_inj hok
      obtain ⟨history, rfl⟩ := release_of_request hslot hb₁
      have hnow : request.processing.preprocessingRightNow = false := by
        unfold isReqTimedOut at htimeout
        simpa using (Bool.and_eq_true_iff.mp (Bool.and_eq_true_iff.mp htimeout).1).2
      refine ⟨hloose.released ⟨request, hslot, rfl⟩ history,
        hbusy.released (hbusy.ne_of_not_running hslot (.inr hnow)) _ _, le_succ _,
        fun _ heq => absurd heq (succ_ne_self _)⟩
    · obtain ⟨⟨result, processing⟩, hdefine, hok⟩ := bind_eq_ok.mp hok
      obtain ⟨rfl, rfl⟩ := ok_mk_inj hok
      have hshape := sameShape_decided hdefine (result = .CONTINUE)
      refine ⟨hloose.of_le ⟨rfl, rfl, rfl, rfl⟩ fun _ => ?_, hbusy.setRequest hslot hshape,
        le_refl _, fun h _ => h.setRequest hslot hshape.1 hshape.2.1⟩
      rw [pending_congr (isPending_setRequest hslot hshape.1 hshape.2.1)]
      exact le_refl _
    · obtain ⟨rfl, rfl⟩ := ok_mk_inj hok
      exact ⟨hloose, hbusy, le_refl _, fun h _ => h⟩

theorem timer_slots {offsets : List ℕ} {expired expired' : ℕ} (hloose : Loose cfg b)
    (hbusy : Busy jobs b)
    (hok : offsets.foldlM (handlePossiblyExpiredRequest cfg replica clientId elapsed)
      (b, expired) = .ok (b', expired')) :
    Loose cfg b' ∧ Busy jobs b' ∧ expired ≤ expired' ∧ (Tracked cfg b → expired' = expired →
      Tracked cfg b') := by
  induction offsets generalizing b expired with
  | nil =>
    obtain ⟨rfl, rfl⟩ := ok_mk_inj hok
    exact ⟨hloose, hbusy, le_refl _, fun h _ => h⟩
  | cons offset offsets ih =>
    rw [foldlM_cons] at hok
    obtain ⟨⟨b₁, expired₁⟩, hb₁, hok⟩ := bind_eq_ok.mp hok
    obtain ⟨hloose₁, hbusy₁, hle₁, htracked₁⟩ := timer_slot hloose hbusy hb₁
    obtain ⟨hloose', hbusy', hle', htracked'⟩ := ih hloose₁ hbusy₁ hok
    exact ⟨hloose', hbusy', hle₁.trans hle', fun h heq =>
      htracked' (htracked₁ h (by omega)) (by omega)⟩

theorem Kept.timer (h : Kept cfg jobs b)
    (hok : b.handlePossiblyExpiredRequests cfg replica clientId elapsed = .ok b') :
    Kept cfg jobs b' := by
  unfold handlePossiblyExpiredRequests at hok
  obtain ⟨⟨b₁, expired⟩, hslots, hok⟩ := bind_eq_ok.mp hok
  obtain ⟨hloose, hbusy, -, htracked⟩ := timer_slots h.tracked.toLoose h.busy hslots
  obtain rfl := ok.inj hok
  split_ifs with hover
  · exact ⟨tracked_reset cfg b₁, hbusy.reset⟩
  · refine ⟨?_, hbusy⟩
    rcases Nat.eq_zero_or_pos expired with hzero | hpos
    · exact htracked h.tracked hzero
    · refine ⟨hloose, fun hreg => Finset.card_pos.mp ?_⟩
      obtain ⟨-, hsize, hcount⟩ := hloose.registered hreg
      have hless : ¬ b₁.batchSize ≤ b₁.numOfCompletedReqs := fun hle =>
        hover ⟨hsize.ne', hpos.ne', hle⟩
      omega

theorem Kept.cancelBatch {status : PreProcessingResult}
    (h : Kept cfg jobs b) (hidle : b.batchCid = cid → jobs = [])
    (hok : b.cancelBatchAndReleaseRequests cfg clientId cid status = .ok b') :
    Kept cfg jobs b' := by
  unfold cancelBatchAndReleaseRequests at hok
  split_ifs at hok with hother
  · exact ok.inj hok ▸ h
  · obtain ⟨b₁, -, hok⟩ := bind_eq_ok.mp hok
    obtain rfl := ok.inj hok
    rw [hidle (not_not.mp hother)]
    exact ⟨tracked_reset cfg b₁, fun _ hjob => absurd hjob not_mem_nil, nodup_nil,
      fun _ => rfl, fun _ ho => absurd ho not_mem_nil⟩

end RequestsBatch

end ConcordBft
