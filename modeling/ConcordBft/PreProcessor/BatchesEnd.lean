import ConcordBft.PreProcessor.BatchHandlers

/-!
# No batch blocks the next one

`Safe` says which events leave no batch behind, and `PreProcessor.batches_end` is the result: a
client without a request in any slot has no batch, and its next batch is registered. Without the
condition a replica that is not the primary can keep a batch for ever (`batch_left_behind`).
-/

namespace ConcordBft

open Verif Verif.Exec List Except Option Function

namespace PreProcessor

open RequestsBatch

variable {cfg : PreProcessorConfig} {s s' : PreProcessor} {c : UInt16} {b : RequestsBatch}

/-! ## Events -/

/-- A collected reply may stand for a request that has left its slot; the slot is then not used
again. -/
def Reusable (b : RequestsBatch) (offset : ℕ) : Prop :=
  offset ∈ b.repliesList → (b.requestsMap offset).request ≠ none

/-- The event leaves no batch behind. -/
def Safe (s : PreProcessor) : PreProcessorEvent → Prop
  | .clientRequest _ m => ∀ b, s.ongoingReqBatches m.clientProxyId = some b → Reusable b 0
  | .clientBatch m =>
    (∀ msg ∈ m.clientMsgs, msg.clientProxyId = m.clientId) ∧
      -- another replica than the primary does not count the requests that it declines
      (s.replica.isCurrentPrimary = false → ∀ b, s.ongoingReqBatches m.clientId = some b →
        (∀ i msg, m.clientMsgs[i]? = some msg → s.declines (b.requestsMap i) msg = false) ∨
        ∀ i msg, m.clientMsgs[i]? = some msg → s.declines (b.requestsMap i) msg = true)
  | .request m => ∀ b, s.ongoingReqBatches m.clientId = some b →
    Reusable b m.reqOffsetInBatch.toNat ∧
      ∀ request, (b.requestsMap m.reqOffsetInBatch.toNat).request = some request →
        request.preProcessRequest = false → b.batchRegistered = true →
        request.batchCid ≠ b.batchCid
  | .batchRequest m => ∀ b, s.ongoingReqBatches m.clientId = some b → b.batchInProcess = false →
    if m.reqType = .REQ_TYPE_CANCEL then b.batchCid = m.cid → s.jobsOf m.clientId = []
    else ∀ e ∈ m.elements, e.reqType = .REQ_TYPE_PRE_PROCESS ∧
      ∀ request, (b.requestsMap e.reqOffsetInBatch.toNat).request = some request →
        request.preProcessRequest = false → request.batchCid = m.cid
  | .reply m => m.status = ReplyStatus.STATUS_REJECT ∨
    ∀ b, s.ongoingReqBatches m.clientId = some b → b.batchRegistered = true →
      ∀ request, (b.requestsMap m.reqOffsetInBatch.toNat).request = some request →
        request.batchCid ≠ b.batchCid
  | _ => True

theorem Reusable.not_replied {offset : ℕ} (h : Reusable b offset) {jobs : List PreProcessJob}
    (hbusy : Busy jobs b) {cid : Cid} {size : ℕ} {pre : Bool} {request : SlotRequest}
    {b' : RequestsBatch} (ht : Takes cfg cid size pre offset b request b') :
    offset ∉ b.repliesList := by
  intro hmem
  rcases ht.slot with ⟨hnone, -⟩ | ⟨-, request₀, hslot, hasked, -⟩
  · exact h hmem hnone
  · rw [(hbusy.replied offset hmem request₀ hslot).1] at hasked
    cases hasked

section

variable (h : Consistent cfg s)

include h

/-- At the end of a batch the skipped requests are counted, if there are any and not all are. -/
theorem Consistent.filled {s₁ : PreProcessor} {cid : Cid} {size skip : ℕ} {pre : Bool}
    (hbeside : Beside c s s₁) (hb : s₁.ongoingReqBatches c = some b)
    (hfill : Filling cfg (s₁.jobsOf c) cid size pre skip b) :
    (skip = size ∨ skip = 0 → Consistent cfg s₁) ∧
      ∀ s', s₁.onBatch c (fun b => .ok (b.increaseNumOfCompletedReqs skip)) = .ok s' →
        Consistent cfg s' := by
  refine ⟨fun hskip => h.beside hbeside fun b' hb' => ?_, fun s' hok => ?_⟩
  · obtain rfl := some.inj (hb.symm.trans hb')
    rcases hskip with rfl | rfl
    · exact hfill.kept_of_all
    · exact hfill.counted
  · obtain ⟨b₁, b', hb₁, hb', rfl⟩ := onBatch_cases hok
    obtain rfl := some.inj (hb.symm.trans hb₁)
    obtain rfl := ok.inj hb'
    rw [← place_nil]
    have hbeside' := beside_place s₁ (b.increaseNumOfCompletedReqs skip)
      (fun job hjob => absurd hjob not_mem_nil :
        ∀ job ∈ ([] : List PreProcessJob), job.clientId = c)
    refine h.beside (hbeside.trans hbeside') fun b₁ hb₁ => ?_
    rw [place_batch, some.injEq] at hb₁
    rw [← hb₁, place_nil]
    exact hfill.counted

theorem Consistent.clientRequest {senderId : UInt16}
    {m : ClientPreProcessRequestMsg} (hsafe : s.Safe (.clientRequest senderId m))
    (hok : s.onClientPreProcessRequestMsg cfg senderId m = .ok s') : Consistent cfg s' := by
  unfold onClientPreProcessRequestMsg at hok
  split_ifs at hok
  · obtain ⟨⟨accepted, s₁⟩, hs₁, hok⟩ := bind_eq_ok.mp hok
    obtain rfl := ok.inj hok
    rcases hb : s.ongoingReqBatches m.clientProxyId with _ | b
    · unfold handleSingleClientRequestMessage batchOf at hs₁
      rw [hb] at hs₁
      cases hs₁
    · have hkept := h _ b hb
      rcases clientRequest_cases hb hkept.tracked.inProcess hs₁ with
        ⟨-, -, rfl⟩ | ⟨-, -, hfree, request, b', ht, hcid, rfl⟩
      · exact h
      · refine h.place launched_client ⟨hkept.tracked.takes_nil ht fun request₀ hslot => ?_, ?_⟩
        · rw [hfree] at hslot
          cases hslot
        · exact ht.busy_launched _ hkept.busy ((hsafe b hb).not_replied hkept.busy ht) rfl
            fun _ => hcid
  · exact ok.inj hok ▸ h

theorem Consistent.clientBatch {m : ClientBatchRequestMsg}
    (hsafe : s.Safe (.clientBatch m)) (hok : s.onClientBatchRequestMsg cfg m = .ok s') :
    Consistent cfg s' := by
  obtain ⟨hids, hdeclines⟩ := hsafe
  unfold onClientBatchRequestMsg at hok
  split_ifs at hok
  · obtain ⟨b, hb, hok⟩ := bind_eq_ok.mp hok
    have hb := batchOf_eq_ok.mp hb
    have hkept := h _ b hb
    split_ifs at hok with hreg
    · exact ok.inj hok ▸ h
    · rw [Bool.not_eq_true] at hreg
      obtain ⟨⟨skip, s₁⟩, hs₁, hok⟩ := bind_eq_ok.mp hok
      dsimp only at hok
      have hidle := hkept.tracked.idle hreg
      have hfill : Filling cfg (s.jobsOf m.clientId) m.cid m.clientMsgs.length
          s.replica.isCurrentPrimary (0 + m.clientMsgs.length) b :=
        .inl ⟨hkept, hidle, fun _ => hreg, fun _ => Nat.zero_add _⟩
      by_cases hall : s.replica.isCurrentPrimary = false ∧
          ∀ i msg, m.clientMsgs[i]? = some msg → s.declines (b.requestsMap i) msg = true
      · -- all are declined where nobody counts them
        have hsame := handleClientMsgs_declined hids hb hkept.tracked.inProcess
          (fun i msg hmsg => by rw [Nat.zero_add]; exact hall.2 i msg hmsg) hs₁
        rw [hsame, hall.1] at hok
        split_ifs at hok with hskip hbad
        · exact ok.inj hok ▸ h
        · exact hbad.1.elim
        · exact ok.inj hok ▸ h
      · obtain ⟨b₁, hb₁, hfill₁, hskip₁, hbeside⟩ := handleClientMsgs_filling hids hb hfill
          (fun hprimary i msg hmsg => by
            rw [Nat.zero_add]
            rcases hdeclines hprimary b hb with hnone | hevery
            · exact hnone i msg hmsg
            · exact absurd ⟨hprimary, hevery⟩ hall) hs₁
        obtain ⟨hdone, hincreased⟩ := h.filled hbeside hb₁ hfill₁
        split_ifs at hok with hskip hcount
        · exact ok.inj hok ▸ hdone (.inl hskip)
        · exact hincreased s' hok
        · refine ok.inj hok ▸ hdone (.inr ?_)
          cases hprimary : s.replica.isCurrentPrimary with
          | false => exact hskip₁ hprimary
          | true =>
            by_contra hne
            exact hcount ⟨hbeside.replica ▸ hprimary, hne⟩
  · exact ok.inj hok ▸ h

theorem Consistent.request {m : PreProcessRequestMsg}
    (hsafe : s.Safe (.request m)) (hok : s.onPreProcessRequestMsg cfg m = .ok s') :
    Consistent cfg s' := by
  unfold onPreProcessRequestMsg at hok
  split_ifs at hok
  · obtain ⟨⟨accepted, s₁⟩, hs₁, hok⟩ := bind_eq_ok.mp hok
    obtain rfl := ok.inj hok
    rcases hb : s.ongoingReqBatches m.clientId with _ | b
    · unfold handleSinglePreProcessRequestMsg batchOf at hs₁
      rw [hb] at hs₁
      rcases hpre : s.checkPreProcessReqPrerequisites with _ | _
      · rw [hpre] at hs₁
        exact (ok_mk_inj hs₁).2 ▸ h
      · rw [hpre] at hs₁
        cases hs₁
    · have hkept := h _ b hb
      obtain ⟨hreusable, hfits⟩ := hsafe b hb
      rcases preProcessRequest_cases hb hs₁ with
        ⟨-, rfl⟩ | ⟨-, -, request₀, history, hslot, hasked, rfl⟩ | ⟨-, request, b', ht, rfl⟩
      · exact h
      · -- a cancelled request that is not of the batch
        refine h.setBatch ⟨hkept.tracked.released request₀ history fun hreg hmem => ?_,
          hkept.busy.released (hkept.busy.ne_of_not_running hslot (.inl hasked)) _ _⟩
        exact hfits request₀ hslot hasked hreg
          ((isPending_of_request hslot).mp (mem_pending.mp hmem).2).1
      · refine h.place (fun job hjob => ?_) ⟨hkept.tracked.takes_nil ht hfits, ?_⟩
        · rw [mem_singleton.mp hjob]
        · exact ht.busy_launched _ hkept.busy (hreusable.not_replied hkept.busy ht) rfl
            fun hbad => by cases hbad
  · exact ok.inj hok ▸ h

theorem Consistent.batchRequest {m : PreProcessBatchRequestMsg}
    (hsafe : s.Safe (.batchRequest m)) (hok : s.onPreProcessBatchRequestMsg cfg m = .ok s') :
    Consistent cfg s' := by
  unfold onPreProcessBatchRequestMsg at hok
  split_ifs at hok with _ hcancel
  · obtain ⟨b, hb, hok⟩ := bind_eq_ok.mp hok
    have hb := batchOf_eq_ok.mp hb
    split_ifs at hok with hprocess
    · exact ok.inj hok ▸ h
    · have hsafe := hsafe b hb (Bool.not_eq_true _ ▸ hprocess)
      rw [if_pos hcancel] at hsafe
      refine h.onBatch (fun b₁ b' hb₁ hkept₁ hb' => ?_) hok
      obtain rfl := some.inj (hb.symm.trans hb₁)
      exact hkept₁.cancelBatch hsafe hb'
  · obtain ⟨b, hb, hok⟩ := bind_eq_ok.mp hok
    have hb := batchOf_eq_ok.mp hb
    split_ifs at hok with hprocess
    · exact ok.inj hok ▸ h
    · have hidle : b.batchInProcess = false := Bool.not_eq_true _ ▸ hprocess
      have hsafe := hsafe b hb hidle
      rw [if_neg hcancel] at hsafe
      obtain ⟨⟨skip, s₁⟩, hs₁, hok⟩ := bind_eq_ok.mp hok
      dsimp only at hok
      have hfill : Filling cfg (s.jobsOf m.clientId) m.cid m.elements.length true
          (0 + m.getPreProcessRequestMsgs.length) b := by
        refine .inl ⟨h _ b hb, hidle, fun hbad => absurd hbad.symm Bool.false_ne_true, fun _ => ?_⟩
        unfold PreProcessBatchRequestMsg.getPreProcessRequestMsgs
        rw [Nat.zero_add, length_map]
      obtain ⟨b₁, hb₁, hfill₁, hbeside⟩ := handlePreProcessRequestMsgs_filling
        (fun msg hmsg => by
          obtain ⟨e, he, rfl⟩ := mem_map.mp hmsg
          exact ⟨rfl, (hsafe e he).1⟩)
        (fun msg hmsg => by
          obtain ⟨e, he, rfl⟩ := mem_map.mp hmsg
          exact (hsafe e he).2) hb hfill hs₁
      obtain ⟨hdone, hincreased⟩ := h.filled hbeside hb₁ hfill₁
      split_ifs at hok with hskip
      · exact ok.inj hok ▸ hdone (.inl hskip)
      · exact hincreased s' hok
  · exact ok.inj hok ▸ h

theorem Consistent.reply {m : PreProcessReplyMsg}
    (hsafe : s.Safe (.reply m)) (hok : s.onPreProcessReplyMsg cfg m = .ok s') :
    Consistent cfg s' := by
  unfold onPreProcessReplyMsg at hok
  split_ifs at hok
  · refine h.onBatch (fun b b' hb hkept hb' => ?_) hok
    refine (hkept.handleReply (fun hstatus hreg request hslot heq => ?_) hb').1
    rcases hsafe with hreject | hother
    · exact absurd hreject hstatus
    · exact absurd heq (hother b hb hreg request hslot)
  · exact ok.inj hok ▸ h

theorem Consistent.batchReply {m : PreProcessBatchReplyMsg}
    (hok : s.onPreProcessBatchReplyMsg cfg m = .ok s') : Consistent cfg s' := by
  refine h.onBatch (fun b b' hb hkept hb' => ?_) hok
  split_ifs at hb' with hongoing hvalid
  · exact hkept.handleReplies (.inl hongoing.2) hb'
  · exact ok.inj hb' ▸ hkept
  · exact ok.inj hb' ▸ hkept

theorem Consistent.finishJob {place : ℕ} {job : PreProcessJob}
    (hjob : s.jobs[place]? = some job) {buffer : List UInt8} {len : ℕ} {code : ResultCode}
    (hok : { s with jobs := s.jobs.eraseIdx place }.finishJob cfg job buffer len code = .ok s') :
    Consistent cfg s' := by
  obtain ⟨hlt, rfl⟩ := List.getElem?_eq_some_iff.mp hjob
  have hperm := getElem_cons_eraseIdx_perm hlt
  obtain ⟨b, b', hb, hb', rfl⟩ := onBatch_cases hok
  obtain ⟨_, -, hb'⟩ := bind_eq_ok.mp hb'
  intro c b₁ hb₁
  have hfilter := hperm.filter fun job => decide (job.clientId = c)
  by_cases hc : c = s.jobs[place].clientId
  · have hself : update s.ongoingReqBatches s.jobs[place].clientId (some b')
        s.jobs[place].clientId = some b' := update_self _ _ _
    subst hc
    obtain rfl := some.inj (hself.symm.trans hb₁)
    rw [filter_cons, decide_eq_true rfl, if_pos rfl] at hfilter
    have hkept := h _ b hb
    have hkept : Kept cfg _ b := ⟨hkept.tracked, hkept.busy.perm hfilter⟩
    split_ifs at hb' with hprimary
    · exact hkept.handlePrimary hprimary hb'
    · exact hkept.handleNonPrimary hb'
  · have hother : update s.ongoingReqBatches s.jobs[place].clientId (some b') c =
        s.ongoingReqBatches c := update_of_ne hc _ _
    have hkept := h c b₁ (hother.symm.trans hb₁)
    rw [filter_cons, decide_eq_false fun heq => hc heq.symm, if_neg Bool.false_ne_true] at hfilter
    exact ⟨hkept.tracked, hkept.busy.perm hfilter⟩

theorem Consistent.step {e : PreProcessorEvent} (hsafe : s.Safe e)
    (hok : PreProcessor.step cfg s e = .ok s') : Consistent cfg s' := by
  cases e with
  | clientRequest senderId m => exact h.clientRequest hsafe hok
  | clientBatch m => exact h.clientBatch hsafe hok
  | request m => exact h.request hsafe hok
  | batchRequest m => exact h.batchRequest hsafe hok
  | reply m => exact h.reply hsafe hok
  | batchReply m => exact h.batchReply hok
  | job place buffer len code =>
    unfold PreProcessor.step at hok
    dsimp only at hok
    rcases hjob : s.jobs[place]? with _ | job
    · rw [hjob] at hok
      exact ok.inj hok ▸ h
    · rw [hjob] at hok
      exact h.finishJob hjob hok
  | timer clientId elapsed =>
    unfold PreProcessor.step at hok
    dsimp only at hok
    rcases hb : s.ongoingReqBatches clientId with _ | b
    · rw [hb] at hok
      exact ok.inj hok ▸ h
    · rw [hb] at hok
      obtain ⟨b', hb', hok⟩ := bind_eq_ok.mp hok
      obtain rfl := ok.inj hok
      exact h.setBatch ((h _ b hb).timer hb')
  | replica replica => exact ok.inj hok ▸ h

end

theorem consistent_start (cfg : PreProcessorConfig) (replica : InternalReplicaApi) :
    Consistent cfg (start cfg replica) := by
  intro c b hb
  unfold start at hb
  dsimp only at hb
  split_ifs at hb
  obtain rfl := some.inj hb
  exact ⟨tracked_reset cfg {}, fun _ hjob => absurd hjob not_mem_nil, nodup_nil,
    fun _ => rfl, fun _ ho => absurd ho not_mem_nil⟩

/-- **No batch blocks the next one.** After every run whose events are safe, a client with no
request in any slot has no batch that is registered or in process, and a valid batch of it is
registered if some request of it is not declined. -/
theorem batches_end {replica : InternalReplicaApi} {events : List PreProcessorEvent}
    (hsafe : EveryStep (PreProcessor.step cfg) (start cfg replica) Safe events)
    (hrun : run (PreProcessor.step cfg) (start cfg replica) events = .ok s)
    (hb : s.ongoingReqBatches c = some b)
    (hfree : ∀ offset, offset < cfg.clientMaxBatchSize → (b.requestsMap offset).request = none) :
    (b.batchRegistered = false ∧ b.batchInProcess = false) ∧
      ∀ m s', m.clientId = c → s.checkClientBatchMsgCorrectness cfg m = true → m.cid ≠ [] →
        (∀ msg ∈ m.clientMsgs, msg.clientProxyId = c) →
        (∃ i msg, m.clientMsgs[i]? = some msg ∧ s.declines (b.requestsMap i) msg = false) →
        s.onClientBatchRequestMsg cfg m = .ok s' →
        ∃ b', s'.ongoingReqBatches c = some b' ∧ Registered m.cid m.clientMsgs.length b' := by
  have hkept := run_preserves (consistent_start cfg replica)
    (fun s e s' h he hok => Consistent.step h he hok) hsafe hrun c b hb
  have hempty : b.pending cfg = ∅ := by
    refine Finset.eq_empty_of_forall_notMem fun o ho => ?_
    obtain ⟨hlt, hpending⟩ := mem_pending.mp ho
    unfold RequestsBatch.isPending at hpending
    rw [hfree o hlt] at hpending
    cases hpending
  have hreg : b.batchRegistered = false := by
    rw [← Bool.not_eq_true]
    intro htrue
    obtain ⟨o, ho⟩ := hkept.tracked.nonempty htrue
    rw [hempty] at ho
    exact absurd ho (Finset.notMem_empty o)
  have hprocess := hkept.tracked.idle hreg
  refine ⟨⟨hreg, hprocess⟩, ?_⟩
  rintro m s' rfl hvalid hcid hids hnew hok
  exact clientBatch_registers hvalid hcid hids hb ⟨hreg, hprocess⟩ hnew hok

/-- **Jobs are apart.** After every run whose events are safe, no two jobs of a client run on one
request, and the request of each is in its slot. -/
theorem jobs_apart {replica : InternalReplicaApi} {events : List PreProcessorEvent}
    (hsafe : EveryStep (PreProcessor.step cfg) (start cfg replica) Safe events)
    (hrun : run (PreProcessor.step cfg) (start cfg replica) events = .ok s)
    (hb : s.ongoingReqBatches c = some b) :
    ((s.jobsOf c).map PreProcessJob.reqOffsetInBatch).Nodup ∧
      ∀ job ∈ s.jobsOf c, ∃ request, (b.requestsMap job.reqOffsetInBatch).request = some request ∧
        request.processing.preprocessingRightNow = true := by
  have hbusy := (run_preserves (consistent_start cfg replica)
    (fun s e s' h he hok => Consistent.step h he hok) hsafe hrun c b hb).busy
  refine ⟨hbusy.nodup, fun job hjob => ?_⟩
  obtain ⟨request, hslot, -, hnow, -⟩ := hbusy.running job hjob
  exact ⟨request, hslot, hnow⟩

/-! ## A batch that is left behind -/

/-- A system of four replicas and one external client, whose batches have at most two requests. -/
def fourReplicas (myReplicaId : ReplicaId) : PreProcessorConfig where
  sha _ := 0
  myReplicaId := myReplicaId
  sign _ := []
  verifySig _ _ _ := true
  numOfReplicas := 4
  numOfRequiredEqualReplies := 2
  preExecutionResultAuthEnabled := true
  numOfClientProxies := 0
  numOfExternalClients := 1
  clientMaxBatchSize := 2
  clientBatchingEnabled := true
  memoryPoolEnabled := true
  isValidClient clientId := clientId == 4
  isIdOfReplica replicaId := decide (replicaId < 4)
  clientIds_le := by decide

/-- The replica executed the requests up to a number. -/
def executedUpTo (number : UInt64) (isCurrentPrimary : Bool) : InternalReplicaApi where
  isCurrentPrimary := isCurrentPrimary
  currentView := 0
  currentViewIsActive := true
  isCollectingState := false
  isClientRequestInProcess _ _ := false
  isReplyAlreadySentToClient _ reqSeqNum := decide (reqSeqNum ≤ number)

def twoRequests (cid : Cid) (first second : UInt64) : ClientBatchRequestMsg :=
  ⟨4, 4, cid, [⟨4, first, false, true⟩, ⟨4, second, false, true⟩]⟩

/-- One request of the batch was executed before, the other expires. No slot holds a request and no
job is running, but the batch is registered and the next one is ignored. -/
theorem batch_left_behind : ∃ s b, run (PreProcessor.step (fourReplicas 1))
        (start (fourReplicas 1) (executedUpTo 1 false))
        [.clientBatch (twoRequests [7] 2 1), .timer 4 fun _ => true] = .ok s ∧
      s.ongoingReqBatches 4 = some b ∧ (∀ offset, (b.requestsMap offset).request = none) ∧
      s.jobs = [] ∧ b.batchRegistered = true ∧
      s.checkClientBatchMsgCorrectness (fourReplicas 1) (twoRequests [8] 3 4) = true ∧
      s.onClientBatchRequestMsg (fourReplicas 1) (twoRequests [8] 3 4) = .ok s := by
  refine ⟨_, _, rfl, rfl, fun offset => ?_, rfl, rfl, rfl, rfl⟩
  rcases offset with _ | offset <;> rfl

/-- The first batch is declined nowhere. -/
theorem safe_firstBatch (replicaId : ReplicaId) (isCurrentPrimary : Bool) :
    Safe (start (fourReplicas replicaId) (executedUpTo 1 isCurrentPrimary))
      (.clientBatch (twoRequests [7] 2 3)) := by
  refine ⟨fun msg hmsg => ?_, fun _ b hb => .inl fun i msg hmsg => ?_⟩
  · rcases mem_pair.mp hmsg with rfl | rfl <;> rfl
  · obtain rfl := Option.some.inj hb
    rcases i with _ | _ | i
    · obtain rfl := Option.some.inj hmsg
      rfl
    · obtain rfl := Option.some.inj hmsg
      rfl
    · cases hmsg

theorem batches_end_expired : ∃ s b, run (PreProcessor.step (fourReplicas 1))
        (start (fourReplicas 1) (executedUpTo 1 false))
        [.clientBatch (twoRequests [7] 2 3), .timer 4 fun _ => true] = .ok s ∧
      s.ongoingReqBatches 4 = some b ∧ b.batchRegistered = false ∧ b.batchInProcess = false := by
  have hsafe : EveryStep (PreProcessor.step (fourReplicas 1))
      (start (fourReplicas 1) (executedUpTo 1 false)) Safe
      [.clientBatch (twoRequests [7] 2 3), .timer 4 fun _ => true] :=
    .cons (safe_firstBatch 1 false) fun _ _ => .cons trivial fun _ _ => everyStep_nil _ _ _
  refine ⟨_, _, rfl, rfl, (batches_end (c := 4) hsafe rfl rfl fun offset _ => ?_).1⟩
  rcases offset with _ | _ | offset <;> rfl

/-- The primary runs a job for each request of a batch. -/
theorem jobs_apart_two : ∃ s b, run (PreProcessor.step (fourReplicas 0))
        (start (fourReplicas 0) (executedUpTo 1 true)) [.clientBatch (twoRequests [7] 2 3)] = .ok s ∧
      s.ongoingReqBatches 4 = some b ∧ (s.jobsOf 4).length = 2 ∧
      ((s.jobsOf 4).map PreProcessJob.reqOffsetInBatch).Nodup ∧
      ∀ job ∈ s.jobsOf 4, ∃ request, (b.requestsMap job.reqOffsetInBatch).request = some request ∧
        request.processing.preprocessingRightNow = true := by
  have hsafe : EveryStep (PreProcessor.step (fourReplicas 0))
      (start (fourReplicas 0) (executedUpTo 1 true)) Safe [.clientBatch (twoRequests [7] 2 3)] :=
    .cons (safe_firstBatch 0 true) fun _ _ => everyStep_nil _ _ _
  exact ⟨_, _, rfl, rfl, rfl, jobs_apart (c := 4) hsafe rfl rfl⟩

end PreProcessor

end ConcordBft
