import ConcordBft.PreProcessor.BatchRegistration

/-!
# What the handlers do with the entry of a client

Every handler changes the entry of one client and launches jobs for it (`Beside`). A request of a
client is declined or takes its slot (`clientRequest_cases`), one of the primary is left out,
cancels a request or takes a slot (`preProcessRequest_cases`). The loops over the requests of a
batch keep `Filling`.
-/

namespace ConcordBft

open Verif Verif.Exec List Except Option Function Nat

/-! ## The entries of the clients -/

namespace PreProcessor

open RequestsBatch

variable {cfg : PreProcessorConfig} {s s' : PreProcessor} {c : UInt16} {b : RequestsBatch}

def jobsOf (s : PreProcessor) (clientId : UInt16) : List PreProcessJob :=
  s.jobs.filter fun job => decide (job.clientId = clientId)

/-- The batches of all clients end with their requests. -/
def Consistent (cfg : PreProcessorConfig) (s : PreProcessor) : Prop :=
  ∀ c b, s.ongoingReqBatches c = some b → Kept cfg (s.jobsOf c) b

/-- The entry of a client changes, and jobs are launched for it. -/
def place (s : PreProcessor) (c : UInt16) (b : RequestsBatch) (launched : List PreProcessJob) :
    PreProcessor :=
  { s.setBatch c b with jobs := s.jobs ++ launched }

theorem place_nil (s : PreProcessor) (c : UInt16) (b : RequestsBatch) :
    s.place c b [] = s.setBatch c b := by
  unfold place
  rw [append_nil]
  rfl

theorem place_batch (s : PreProcessor) (c : UInt16) (b : RequestsBatch)
    (launched : List PreProcessJob) : (s.place c b launched).ongoingReqBatches c = some b :=
  update_self _ _ _

/-- Nothing but the entry and the jobs of one client changes. -/
structure Beside (c : UInt16) (s s' : PreProcessor) : Prop where
  replica : s'.replica = s.replica
  batches : ∀ c', c' ≠ c → s'.ongoingReqBatches c' = s.ongoingReqBatches c'
  jobs : ∀ c', c' ≠ c → s'.jobsOf c' = s.jobsOf c'

theorem Beside.refl (c : UInt16) (s : PreProcessor) : Beside c s s :=
  ⟨rfl, fun _ _ => rfl, fun _ _ => rfl⟩

theorem Beside.trans {s₁ s₂ s₃ : PreProcessor} (h : Beside c s₁ s₂) (h' : Beside c s₂ s₃) :
    Beside c s₁ s₃ :=
  ⟨h'.replica.trans h.replica, fun c' hc' => (h'.batches c' hc').trans (h.batches c' hc'),
    fun c' hc' => (h'.jobs c' hc').trans (h.jobs c' hc')⟩

variable {launched : List PreProcessJob} {cid : Cid} {size offset skip skip' : ℕ} {accepted : Bool}
  {m : ClientBatchRequestMsg} {msgs : List ClientPreProcessRequestMsg}

theorem beside_place (s : PreProcessor) (b : RequestsBatch)
    (hlaunched : ∀ job ∈ launched, job.clientId = c) : Beside c s (s.place c b launched) := by
  refine ⟨rfl, fun c' hc' => update_of_ne hc' _ _, fun c' hc' => ?_⟩
  have hnone : launched.filter (fun job => decide (job.clientId = c')) = [] := by
    refine filter_eq_nil_iff.mpr fun job hjob => ?_
    rw [hlaunched job hjob, decide_eq_true_iff]
    exact hc'.symm
  unfold jobsOf place
  rw [filter_append, hnone, append_nil]

theorem jobsOf_place (s : PreProcessor) (b : RequestsBatch)
    (hlaunched : ∀ job ∈ launched, job.clientId = c) :
    (s.place c b launched).jobsOf c = s.jobsOf c ++ launched := by
  have hall : launched.filter (fun job => decide (job.clientId = c)) = launched := by
    refine filter_eq_self.mpr fun job hjob => ?_
    rw [hlaunched job hjob, decide_eq_true_iff]
  unfold jobsOf place
  rw [filter_append, hall]

theorem Consistent.beside (h : Consistent cfg s) (hbeside : Beside c s s')
    (hc : ∀ b, s'.ongoingReqBatches c = some b → Kept cfg (s'.jobsOf c) b) : Consistent cfg s' := by
  intro c' b hb
  by_cases heq : c' = c
  · subst heq
    exact hc b hb
  · rw [hbeside.jobs c' heq]
    exact h c' b (hbeside.batches c' heq ▸ hb)

theorem Consistent.place (h : Consistent cfg s) (hlaunched : ∀ job ∈ launched, job.clientId = c)
    (hkept : Kept cfg (s.jobsOf c ++ launched) b) : Consistent cfg (s.place c b launched) := by
  refine h.beside (beside_place s b hlaunched) fun b' hb' => ?_
  rw [place_batch, some.injEq] at hb'
  rw [jobsOf_place s b hlaunched, ← hb']
  exact hkept

theorem Consistent.setBatch (h : Consistent cfg s) (hkept : Kept cfg (s.jobsOf c) b) :
    Consistent cfg (s.setBatch c b) := by
  rw [← place_nil]
  refine h.place (fun _ hjob => absurd hjob not_mem_nil) ?_
  rw [append_nil]
  exact hkept

theorem batchOf_eq_ok : s.batchOf c = .ok b ↔ s.ongoingReqBatches c = some b := by
  unfold batchOf
  rcases s.ongoingReqBatches c with _ | b' <;> simp

variable {f : RequestsBatch → Exec RequestsBatch}

theorem onBatch_cases (h : s.onBatch c f = .ok s') :
    ∃ b b', s.ongoingReqBatches c = some b ∧ f b = .ok b' ∧ s' = s.setBatch c b' := by
  unfold onBatch at h
  obtain ⟨b, hb, h⟩ := bind_eq_ok.mp h
  obtain ⟨b', hb', h⟩ := bind_eq_ok.mp h
  exact ⟨b, b', batchOf_eq_ok.mp hb, hb', (ok.inj h).symm⟩

theorem Consistent.onBatch (h : Consistent cfg s)
    (hf : ∀ b b', s.ongoingReqBatches c = some b → Kept cfg (s.jobsOf c) b → f b = .ok b' →
      Kept cfg (s.jobsOf c) b') (hok : s.onBatch c f = .ok s') : Consistent cfg s' := by
  obtain ⟨b, b', hb, hb', rfl⟩ := onBatch_cases hok
  exact h.setBatch (hf b b' hb (h c b hb) hb')

theorem launch_cases {job : PreProcessJob} (hjob : job.clientId = c)
    (h : (s.setBatch c b).launchAsyncReqPreProcessingJob cfg job = .ok s') :
    ∃ b', b.setPreprocessingRightNow cfg job.reqOffsetInBatch true = .ok b' ∧
      s' = s.place c b' [job] := by
  subst hjob
  unfold launchAsyncReqPreProcessingJob at h
  obtain ⟨s₁, hs₁, h⟩ := bind_eq_ok.mp h
  obtain ⟨b₁, b', hb₁, hb', rfl⟩ := onBatch_cases hs₁
  have hsame : (s.setBatch job.clientId b).ongoingReqBatches job.clientId = some b :=
    update_self _ _ _
  obtain rfl := some.inj (hsame.symm.trans hb₁)
  refine ⟨b', hb', ?_⟩
  rw [← ok.inj h]
  unfold PreProcessor.place PreProcessor.setBatch
  dsimp only
  rw [update_idem]

/-! ## Requests of clients -/

theorem registerOnPrimary_cases {clientId : UInt16} {reqSeqNum : UInt64} {b' : RequestsBatch}
    (hprocess : b.batchInProcess = true → b.batchRegistered = true)
    (hfree : (b.requestsMap offset).request = none)
    (h : b.registerRequestOnPrimaryReplica cfg clientId reqSeqNum cid size offset =
      .ok (accepted, b')) :
    offset < cfg.clientMaxBatchSize ∧ accepted = true ∧ ∃ request,
      b' = (b.entered cid size true).setRequest offset request ∧
        request.preProcessRequest = true ∧ request.batchCid = cid := by
  unfold registerRequestOnPrimaryReplica at h
  dsimp only at h
  have hmap : (if cid = [] then b else b.registerBatch cid size).requestsMap = b.requestsMap := by
    unfold registerBatch setBatchParameters
    split_ifs <;> rfl
  obtain ⟨hlt, ⟨-, request₀, hslot, -⟩ | ⟨haccepted, request, hb', hpre, -, hslot⟩⟩ :=
    registerRequest_cases h
  · rw [hmap, hfree] at hslot
    cases hslot
  · rw [entered_registerBatch hprocess] at hb'
    rw [hmap, hfree] at hslot
    rcases hslot with ⟨-, hcid⟩ | ⟨-, request₀, hnone, -⟩
    · exact ⟨hlt, haccepted, request, hb', hpre, hcid⟩
    · cases hnone

/-- A request of a client is declined, or it takes its free slot. -/
theorem clientRequest_cases {m : ClientPreProcessRequestMsg}
    (hb : s.ongoingReqBatches m.clientProxyId = some b)
    (hprocess : b.batchInProcess = true → b.batchRegistered = true)
    (h : s.handleSingleClientRequestMessage cfg m offset cid size = .ok (accepted, s')) :
    s.declines (b.requestsMap offset) m = true ∧ accepted = false ∧ s' = s ∨
      s.declines (b.requestsMap offset) m = false ∧ accepted = true ∧
        (b.requestsMap offset).request = none ∧ ∃ request b',
        Takes cfg cid size s.replica.isCurrentPrimary offset b request b' ∧ request.batchCid = cid ∧
        s' = s.place m.clientProxyId b' (if s.replica.isCurrentPrimary then
          [⟨m.clientProxyId, offset, cid, true⟩] else []) := by
  unfold handleSingleClientRequestMessage at h
  rw [batchOf_eq_ok.mpr hb, ok_bind] at h
  obtain ⟨slot, hstate, h⟩ := bind_eq_ok.mp h
  obtain ⟨hlt, rfl⟩ := getRequestState_eq_ok.mp hstate
  rcases hdeclined : s.declines (b.requestsMap offset) m with _ | _
  · rw [hdeclined, if_neg Bool.false_ne_true] at h
    refine .inr ⟨rfl, ?_⟩
    have hfree : (b.requestsMap offset).request = none := by
      unfold declines at hdeclined
      simp only [Bool.or_eq_false_iff] at hdeclined
      exact isSome_eq_false_iff.mp hdeclined.1.1.1 |> isNone_iff_eq_none.mp
    cases hprimary : s.replica.isCurrentPrimary with
    | true =>
      rw [hprimary, if_pos rfl] at h
      obtain ⟨⟨registered, b₁⟩, hregister, h⟩ := bind_eq_ok.mp h
      obtain ⟨-, rfl, request, hb₁, hpre, hcid⟩ := registerOnPrimary_cases hprocess hfree hregister
      dsimp only at h
      rw [if_pos rfl] at h
      obtain ⟨s₁, hs₁, h⟩ := bind_eq_ok.mp h
      obtain ⟨rfl, rfl⟩ := ok_mk_inj h
      obtain ⟨b', hb', rfl⟩ := launch_cases rfl hs₁
      obtain ⟨request', ht⟩ := takes_of_launch hlt hb₁ hpre (.inl ⟨hfree, hcid⟩) hb'
      refine ⟨rfl, hfree, request', b', ht, ?_, rfl⟩
      rcases ht.slot with ⟨-, hcid'⟩ | ⟨-, request₀, hsome, -⟩
      · exact hcid'
      · rw [hfree] at hsome
        cases hsome
    | false =>
      rw [hprimary, if_neg Bool.false_ne_true] at h
      obtain ⟨⟨registered, b₁⟩, hregister, h⟩ := bind_eq_ok.mp h
      obtain ⟨rfl, rfl⟩ := ok_mk_inj h
      obtain ⟨-, ⟨-, request₀, hslot, -⟩ | ⟨-, request, hb₁, hpre, hnow, hslot⟩⟩ :=
        registerRequest_cases hregister
      · rw [hfree] at hslot
        cases hslot
      · refine ⟨rfl, hfree, request, b₁, ⟨hlt, hb₁, hpre, hnow rfl, hslot⟩, ?_, ?_⟩
        · rcases hslot with ⟨-, hcid⟩ | ⟨hbad, -⟩
          · exact hcid
          · cases hbad
        · rw [if_neg Bool.false_ne_true, place_nil]
  · rw [hdeclined, if_pos rfl] at h
    obtain ⟨rfl, rfl⟩ := ok_mk_inj h
    exact .inl ⟨rfl, rfl, rfl⟩

theorem launched_client {clientId : UInt16} {pre : Bool} :
    ∀ job ∈ (if pre then [⟨clientId, offset, cid, true⟩] else [] : List PreProcessJob),
      job.clientId = clientId := by
  intro job hjob
  cases pre with
  | true => rw [mem_singleton.mp hjob]
  | false => cases hjob

/-- The requests of a client batch. On a replica that is not the primary none is declined. -/
theorem handleClientMsgs_filling (hids : ∀ msg ∈ msgs, msg.clientProxyId = m.clientId)
    (hb : s.ongoingReqBatches m.clientId = some b)
    (hfill : Filling cfg (s.jobsOf m.clientId) m.cid m.clientMsgs.length
      s.replica.isCurrentPrimary (skip + msgs.length) b)
    (haccepted : s.replica.isCurrentPrimary = false → ∀ i msg, msgs[i]? = some msg →
      s.declines (b.requestsMap (offset + i)) msg = false)
    (hok : handleClientMsgs cfg m msgs offset skip s = .ok (skip', s')) :
    ∃ b', s'.ongoingReqBatches m.clientId = some b' ∧
      Filling cfg (s'.jobsOf m.clientId) m.cid m.clientMsgs.length s.replica.isCurrentPrimary
        skip' b' ∧ (s.replica.isCurrentPrimary = false → skip' = skip) ∧
      Beside m.clientId s s' := by
  induction msgs generalizing s b offset skip with
  | nil =>
    obtain ⟨rfl, rfl⟩ := ok_mk_inj hok
    exact ⟨b, hb, hfill, fun _ => rfl, Beside.refl _ _⟩
  | cons msg msgs ih =>
    unfold handleClientMsgs at hok
    obtain ⟨⟨accepted, s₁⟩, hs₁, hrest⟩ := bind_eq_ok.mp hok
    dsimp only at hrest
    obtain ⟨hid, hids'⟩ := forall_mem_cons.mp hids
    rw [length_cons] at hfill
    rcases clientRequest_cases (hid ▸ hb) hfill.inProcess hs₁ with
      ⟨hdeclined, rfl, rfl⟩ | ⟨-, rfl, hfree, request, b₁, ht, hcid, rfl⟩
    · -- declined: the primary counts it as skipped
      cases hprimary : s₁.replica.isCurrentPrimary with
      | false =>
        have hnot := haccepted hprimary 0 msg rfl
        rw [add_zero, hdeclined] at hnot
        cases hnot
      | true =>
        rw [hprimary] at hfill
        rw [if_pos ⟨hprimary, Bool.false_ne_true⟩] at hrest
        have hstep := ih hids' hb (by rw [hprimary, add_assoc, add_comm 1]; exact hfill)
          (fun hnot => absurd (hprimary.symm.trans hnot) (by decide)) hrest
        rw [hprimary] at hstep
        obtain ⟨b', hb', hfill', -, hbeside⟩ := hstep
        exact ⟨b', hb', hfill', fun hbad => absurd hbad.symm Bool.false_ne_true, hbeside⟩
    · rw [hid, if_neg fun hskip => hskip.2 rfl] at hrest
      have hlaunched := @launched_client m.cid offset m.clientId s.replica.isCurrentPrimary
      obtain ⟨hbusy, hreplies⟩ := hfill.busy
      have hbusy₁ := ht.busy_launched ⟨m.clientId, offset, m.cid, true⟩ hbusy
        (by rw [hreplies]; exact not_mem_nil) rfl fun _ => hcid
      obtain ⟨b', hb', hfill', hskip', hbeside⟩ := ih (s := s.place m.clientId b₁ _) hids'
        (place_batch _ _ _ _) (by
          rw [jobsOf_place s b₁ hlaunched]
          refine hfill.takes ht hbusy₁ fun request₀ hslot _ => ?_
          rw [hfree] at hslot
          cases hslot) (fun hprimary i msg' hmsg' => by
          rw [ht.other (by omega), add_right_comm]
          exact haccepted hprimary (i + 1) msg' hmsg') hrest
      exact ⟨b', hb', hfill', hskip', (beside_place s b₁ hlaunched).trans hbeside⟩

theorem handleClientMsgs_declined (hids : ∀ msg ∈ msgs, msg.clientProxyId = m.clientId)
    (hb : s.ongoingReqBatches m.clientId = some b)
    (hprocess : b.batchInProcess = true → b.batchRegistered = true)
    (hdeclined : ∀ i msg, msgs[i]? = some msg → s.declines (b.requestsMap (offset + i)) msg = true)
    (hok : handleClientMsgs cfg m msgs offset skip s = .ok (skip', s')) : s' = s := by
  induction msgs generalizing offset skip with
  | nil => exact (ok_mk_inj hok).2.symm
  | cons msg msgs ih =>
    unfold handleClientMsgs at hok
    obtain ⟨⟨accepted, s₁⟩, hs₁, hrest⟩ := bind_eq_ok.mp hok
    rcases clientRequest_cases (hids msg mem_cons_self ▸ hb) hprocess hs₁ with
      ⟨-, rfl, rfl⟩ | ⟨hnot, -⟩
    · refine ih (fun msg' hmsg' => hids msg' (mem_cons_of_mem _ hmsg'))
        (fun i msg' hmsg' => ?_) hrest
      rw [add_right_comm]
      exact hdeclined (i + 1) msg' hmsg'
    · have hyes := hdeclined 0 msg rfl
      rw [add_zero, hnot] at hyes
      cases hyes

def Registered (cid : Cid) (size : ℕ) (b : RequestsBatch) : Prop :=
  b.batchRegistered = true ∧ b.batchCid = cid ∧ b.batchSize = size

theorem registered_entered (pre : Bool) (hcid : cid ≠ [])
    (h : Registered cid size b ∨ b.batchRegistered = false ∧ b.batchInProcess = false) :
    Registered cid size (b.entered cid size pre) := by
  unfold entered startBatch registerBatch setBatchParameters
  rw [if_neg hcid]
  split_ifs with hpre hprocess hreg
  · rcases h with h | ⟨-, hnot⟩
    · exact h
    · exact absurd (hprocess.symm.trans hnot) (by decide)
  · exact ⟨rfl, rfl, rfl⟩
  · rcases h with h | ⟨hnot, -⟩
    · exact h
    · exact absurd (hreg.symm.trans hnot) (by decide)
  · exact ⟨rfl, rfl, rfl⟩

theorem handleClientMsgs_registers (hcid : m.cid ≠ [])
    (hids : ∀ msg ∈ msgs, msg.clientProxyId = m.clientId)
    (hb : s.ongoingReqBatches m.clientId = some b)
    (hstate : Registered m.cid m.clientMsgs.length b ∨
      (b.batchRegistered = false ∧ b.batchInProcess = false) ∧
        ∃ i msg, msgs[i]? = some msg ∧ s.declines (b.requestsMap (offset + i)) msg = false)
    (hok : handleClientMsgs cfg m msgs offset skip s = .ok (skip', s')) :
    ∃ b', s'.ongoingReqBatches m.clientId = some b' ∧ Registered m.cid m.clientMsgs.length b' := by
  induction msgs generalizing s b offset skip with
  | nil =>
    obtain ⟨rfl, rfl⟩ := ok_mk_inj hok
    rcases hstate with hreg | ⟨-, i, msg, hmsg, -⟩
    · exact ⟨b, hb, hreg⟩
    · cases hmsg
  | cons msg msgs ih =>
    unfold handleClientMsgs at hok
    obtain ⟨⟨accepted, s₁⟩, hs₁, hrest⟩ := bind_eq_ok.mp hok
    obtain ⟨hid, hids'⟩ := forall_mem_cons.mp hids
    have hprocess : b.batchInProcess = true → b.batchRegistered = true := by
      rcases hstate with hreg | ⟨⟨-, hnot⟩, -⟩
      · exact fun _ => hreg.1
      · exact fun htrue => absurd (htrue.symm.trans hnot) (by decide)
    rcases clientRequest_cases (hid ▸ hb) hprocess hs₁ with
      ⟨hdeclined, rfl, rfl⟩ | ⟨-, rfl, hfree, request, b₁, ht, -, rfl⟩
    · refine ih hids' hb (hstate.imp_right fun ⟨hidle, i, msg', hmsg', hnot⟩ => ⟨hidle, ?_⟩) hrest
      -- the request that is not declined is a later one
      cases i with
      | zero =>
        rw [List.getElem?_cons_zero, some.injEq] at hmsg'
        rw [add_zero, ← hmsg', hdeclined] at hnot
        cases hnot
      | succ i =>
        refine ⟨i, msg', hmsg', ?_⟩
        rw [add_right_comm]
        exact hnot
    · rw [hid] at hrest
      refine ih hids' (place_batch _ _ _ _) (.inl ?_) hrest
      have hentered := registered_entered s.replica.isCurrentPrimary hcid
        (hstate.imp_right fun h => h.1)
      rw [ht.eq]
      exact hentered

theorem clientBatch_registers (hvalid : s.checkClientBatchMsgCorrectness cfg m = true)
    (hcid : m.cid ≠ []) (hids : ∀ msg ∈ m.clientMsgs, msg.clientProxyId = m.clientId)
    (hb : s.ongoingReqBatches m.clientId = some b)
    (hidle : b.batchRegistered = false ∧ b.batchInProcess = false)
    (hnew : ∃ i msg, m.clientMsgs[i]? = some msg ∧ s.declines (b.requestsMap i) msg = false)
    (hok : s.onClientBatchRequestMsg cfg m = .ok s') :
    ∃ b', s'.ongoingReqBatches m.clientId = some b' ∧ Registered m.cid m.clientMsgs.length b' := by
  unfold onClientBatchRequestMsg at hok
  rw [if_pos hvalid] at hok
  rw [batchOf_eq_ok.mpr hb, ok_bind, hidle.1, if_neg Bool.false_ne_true] at hok
  obtain ⟨⟨skip, s₁⟩, hs₁, hok⟩ := bind_eq_ok.mp hok
  obtain ⟨b₁, hb₁, hreg⟩ := handleClientMsgs_registers hcid hids hb (.inr ⟨hidle, by
    obtain ⟨i, msg, hmsg, hnot⟩ := hnew
    exact ⟨i, msg, hmsg, by rw [zero_add]; exact hnot⟩⟩) hs₁
  dsimp only at hok
  split_ifs at hok
  · obtain rfl := ok.inj hok
    exact ⟨b₁, hb₁, hreg⟩
  · obtain ⟨b₂, b', hb₂, hb', rfl⟩ := onBatch_cases hok
    obtain rfl := some.inj (hb₁.symm.trans hb₂)
    obtain rfl := ok.inj hb'
    exact ⟨_, update_self _ _ _, hreg⟩
  · obtain rfl := ok.inj hok
    exact ⟨b₁, hb₁, hreg⟩

/-! ## Requests of the primary -/

theorem registerPreProcessRequestMsg_cases {m : PreProcessRequestMsg}
    (hasked : ∀ request₀, (b.requestsMap m.reqOffsetInBatch.toNat).request = some request₀ →
      request₀.preProcessRequest = false)
    (h : s.registerPreProcessRequestMsg cfg b m cid size = .ok (accepted, s')) :
    accepted = true ∧ ∃ request b', Takes cfg cid size true m.reqOffsetInBatch.toNat b request b' ∧
      s' = s.place m.clientId b' [⟨m.clientId, m.reqOffsetInBatch.toNat, cid, false⟩] := by
  unfold registerPreProcessRequestMsg at h
  obtain ⟨⟨registered, b₁⟩, hregister, h⟩ := bind_eq_ok.mp h
  obtain ⟨hlt, ⟨-, request₀, hslot, hbad⟩ | ⟨rfl, request, hb₁, hrequest, -, hslot⟩⟩ :=
    registerRequest_cases hregister
  · rw [hasked request₀ hslot] at hbad
    cases hbad
  · dsimp only at h
    rw [if_pos rfl] at h
    obtain ⟨s₁, hs₁, h⟩ := bind_eq_ok.mp h
    obtain ⟨rfl, rfl⟩ := ok_mk_inj h
    obtain ⟨b', hb', rfl⟩ := launch_cases rfl hs₁
    obtain ⟨request', ht⟩ := takes_of_launch hlt hb₁ hrequest hslot hb'
    exact ⟨rfl, request', b', ht, rfl⟩

/-- A request of the primary is left out, releases a request that it cancels, or takes its slot. -/
theorem preProcessRequest_cases {m : PreProcessRequestMsg}
    (hb : s.ongoingReqBatches m.clientId = some b)
    (h : s.handleSinglePreProcessRequestMsg cfg m cid size = .ok (accepted, s')) :
    (accepted = false ∧ s' = s) ∨
      (accepted = false ∧ m.reqType = .REQ_TYPE_CANCEL ∧ ∃ request₀ history,
        (b.requestsMap m.reqOffsetInBatch.toNat).request = some request₀ ∧
        request₀.preProcessRequest = false ∧
        s' = s.setBatch m.clientId (b.released m.reqOffsetInBatch.toNat request₀ history)) ∨
      accepted = true ∧ ∃ request b',
        Takes cfg cid size true m.reqOffsetInBatch.toNat b request b' ∧
        s' = s.place m.clientId b' [⟨m.clientId, m.reqOffsetInBatch.toNat, cid, false⟩] := by
  unfold handleSinglePreProcessRequestMsg at h
  rcases hpre : s.checkPreProcessReqPrerequisites with _ | _
  · rw [hpre, if_neg Bool.false_ne_true] at h
    obtain ⟨rfl, rfl⟩ := ok_mk_inj h
    exact .inl ⟨rfl, rfl⟩
  · rw [hpre, if_pos rfl] at h
    rw [batchOf_eq_ok.mpr hb, ok_bind] at h
    obtain ⟨slot, hstate, h⟩ := bind_eq_ok.mp h
    obtain ⟨-, rfl⟩ := getRequestState_eq_ok.mp hstate
    rcases hslot : (b.requestsMap m.reqOffsetInBatch.toNat).request with _ | request₀
    · rw [hslot] at h
      dsimp only at h
      split_ifs at h with hcancel
      · obtain ⟨rfl, rfl⟩ := ok_mk_inj h
        exact .inl ⟨rfl, rfl⟩
      · refine .inr (.inr (registerPreProcessRequestMsg_cases (fun request₀ hsome => ?_) h))
        rw [hslot] at hsome
        cases hsome
    · rw [hslot] at h
      dsimp only at h
      split_ifs at h with hasked hcancel
      · obtain ⟨_, -, h⟩ := bind_eq_ok.mp h
        obtain ⟨rfl, rfl⟩ := ok_mk_inj h
        exact .inl ⟨rfl, rfl⟩
      · obtain ⟨b', hb', h⟩ := bind_eq_ok.mp h
        obtain ⟨rfl, rfl⟩ := ok_mk_inj h
        obtain ⟨history, rfl⟩ := release_of_request hslot hb'
        exact .inr (.inl ⟨rfl, hcancel, request₀, history, rfl, Bool.not_eq_true _ ▸ hasked, rfl⟩)
      · refine .inr (.inr (registerPreProcessRequestMsg_cases (fun request' hsome => ?_) h))
        obtain rfl := some.inj (hslot.symm.trans hsome)
        exact Bool.not_eq_true _ ▸ hasked

theorem handlePreProcessRequestMsgs_filling {msgs : List PreProcessRequestMsg}
    (hids : ∀ msg ∈ msgs, msg.clientId = c ∧ msg.reqType = .REQ_TYPE_PRE_PROCESS)
    (hfits : ∀ msg ∈ msgs, ∀ request, (b.requestsMap msg.reqOffsetInBatch.toNat).request =
      some request → request.preProcessRequest = false → request.batchCid = cid)
    (hb : s.ongoingReqBatches c = some b)
    (hfill : Filling cfg (s.jobsOf c) cid size true (skip + msgs.length) b)
    (hok : handlePreProcessRequestMsgs cfg cid size msgs skip s = .ok (skip', s')) :
    ∃ b', s'.ongoingReqBatches c = some b' ∧ Filling cfg (s'.jobsOf c) cid size true skip' b' ∧
      Beside c s s' := by
  induction msgs generalizing s b skip with
  | nil =>
    obtain ⟨rfl, rfl⟩ := ok_mk_inj hok
    exact ⟨b, hb, hfill, Beside.refl _ _⟩
  | cons msg msgs ih =>
    unfold handlePreProcessRequestMsgs at hok
    obtain ⟨⟨accepted, s₁⟩, hs₁, hrest⟩ := bind_eq_ok.mp hok
    dsimp only at hrest
    obtain ⟨⟨rfl, htype⟩, hids'⟩ := forall_mem_cons.mp hids
    rw [length_cons] at hfill
    rcases preProcessRequest_cases hb hs₁ with
      ⟨rfl, rfl⟩ | ⟨-, hcancel, -⟩ | ⟨rfl, request, b₁, ht, rfl⟩
    · rw [if_neg Bool.false_ne_true] at hrest
      refine ih hids' (fun msg' hmsg' => hfits msg' (mem_cons_of_mem _ hmsg')) hb ?_ hrest
      rw [add_assoc, add_comm 1]
      exact hfill
    · rw [htype] at hcancel
      cases hcancel
    · rw [if_pos rfl] at hrest
      have hlaunched : ∀ job ∈ ([⟨msg.clientId, msg.reqOffsetInBatch.toNat, cid, false⟩] :
          List PreProcessJob), job.clientId = msg.clientId := by simp
      obtain ⟨hbusy, hreplies⟩ := hfill.busy
      have hbusy₁ := ht.busy_launched ⟨msg.clientId, msg.reqOffsetInBatch.toNat, cid, false⟩ hbusy
        (by rw [hreplies]; exact not_mem_nil) rfl fun hbad => by cases hbad
      have hfill₁ : Filling cfg ((s.place msg.clientId b₁
          [⟨msg.clientId, msg.reqOffsetInBatch.toNat, cid, false⟩]).jobsOf msg.clientId) cid size
          true (skip + msgs.length) b₁ := by
        rw [jobsOf_place s b₁ hlaunched]
        exact hfill.takes ht hbusy₁ (hfits msg mem_cons_self)
      obtain ⟨b', hb', hfill', hbeside⟩ := ih hids' (fun msg' hmsg' request' hslot' hasked' => by
        by_cases ho : msg'.reqOffsetInBatch.toNat = msg.reqOffsetInBatch.toNat
        · -- a repeated offset: the request that was just taken has the message of the primary
          rw [ho, ht.self, some.injEq] at hslot'
          rw [← hslot', ht.asked] at hasked'
          cases hasked'
        · rw [ht.other ho] at hslot'
          exact hfits msg' (mem_cons_of_mem _ hmsg') request' hslot' hasked')
        (place_batch _ _ _ _) hfill₁ hrest
      exact ⟨b', hb', hfill', (beside_place s b₁ hlaunched).trans hbeside⟩

end PreProcessor

end ConcordBft
