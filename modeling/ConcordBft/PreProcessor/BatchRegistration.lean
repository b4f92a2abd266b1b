import ConcordBft.PreProcessor.BatchRelease

/-!
# Registration of requests and batches

`Takes` is the registration of one request: it takes a free slot, or the message of the primary is
added to the request of the client that is there already. While the requests of a batch are
registered one after another, what is missing in the counter is still to come or will be counted as
skipped (`Filling`). At the end of the batch the invariant of `BatchRelease` holds again
(`Filling.counted`, `Filling.kept_of_all`).
-/

namespace ConcordBft

open Verif Verif.Exec Finset

namespace RequestsBatch

variable {cfg : PreProcessorConfig} {b b' : RequestsBatch} {offset : ℕ}
variable {jobs : List PreProcessJob} {cid : Cid} {size left : ℕ} {pre : Bool}

/-- The parameters after the registration of a request. -/
def entered (b : RequestsBatch) (cid : Cid) (size : ℕ) (pre : Bool) : RequestsBatch :=
  if cid = [] then b
  else if pre then b.startBatch cid size
  else b.registerBatch cid size

theorem entered_fields (b : RequestsBatch) (cid : Cid) (size : ℕ) (pre : Bool) :
    (b.entered cid size pre).requestsMap = b.requestsMap ∧
      (b.entered cid size pre).repliesList = b.repliesList ∧
      (b.entered cid size pre).numOfCompletedReqs = b.numOfCompletedReqs ∧
      ((b.entered cid size pre).batchInProcess = false → b.batchInProcess = false) := by
  unfold entered startBatch registerBatch setBatchParameters
  split_ifs <;> simp

/-- The primary registers the batch before its first request starts it. -/
theorem entered_registerBatch (h : b.batchInProcess = true → b.batchRegistered = true) :
    (if cid = [] then b else b.registerBatch cid size).entered cid size true =
      b.entered cid size true := by
  unfold entered
  by_cases hcid : cid = []
  · rw [if_pos hcid, if_pos hcid, if_pos hcid]
  · rw [if_neg hcid, if_neg hcid, if_neg hcid, if_pos rfl, if_pos rfl]
    unfold registerBatch
    split_ifs with hreg
    · rfl
    · have hprocess : ¬ b.batchInProcess = true := fun hin => hreg (h hin)
      unfold startBatch setBatchParameters
      dsimp only
      rw [if_neg hprocess, if_neg hprocess]

/-- A request takes the slot, or the message of the primary is added to the request that is there.
With that message the request is launched. -/
structure Takes (cfg : PreProcessorConfig) (cid : Cid) (size : ℕ) (pre : Bool) (offset : ℕ)
    (b : RequestsBatch) (request : SlotRequest) (b' : RequestsBatch) : Prop where
  lt : offset < cfg.clientMaxBatchSize
  eq : b' = (b.entered cid size pre).setRequest offset request
  asked : request.preProcessRequest = pre
  launched : request.processing.preprocessingRightNow = pre
  slot : (b.requestsMap offset).request = none ∧ request.batchCid = cid ∨
    pre = true ∧ ∃ request₀, (b.requestsMap offset).request = some request₀ ∧
      request₀.preProcessRequest = false ∧ request.batchCid = request₀.batchCid

theorem registerRequest_cases {clientId : UInt16} {reqSeqNum : UInt64} {clientMsg accepted : Bool}
    (h : b.registerRequest cfg clientId reqSeqNum cid size clientMsg pre offset =
      .ok (accepted, b')) :
    offset < cfg.clientMaxBatchSize ∧
      ((accepted = false ∧ ∃ request₀, (b.requestsMap offset).request = some request₀ ∧
          request₀.preProcessRequest = true) ∨
        accepted = true ∧ ∃ request, b' = (b.entered cid size pre).setRequest offset request ∧
          request.preProcessRequest = pre ∧
          (pre = false → request.processing.preprocessingRightNow = false) ∧
          ((b.requestsMap offset).request = none ∧ request.batchCid = cid ∨
            pre = true ∧ ∃ request₀, (b.requestsMap offset).request = some request₀ ∧
              request₀.preProcessRequest = false ∧ request.batchCid = request₀.batchCid)) := by
  unfold registerRequest at h
  obtain ⟨slot, hstate, h⟩ := bind_eq_ok.mp h
  obtain ⟨hlt, rfl⟩ := getRequestState_eq_ok.mp hstate
  refine ⟨hlt, ?_⟩
  rcases hslot : (b.requestsMap offset).request with _ | request₀
  · rw [hslot] at h
    obtain ⟨rfl, rfl⟩ := ok_mk_inj h
    exact .inr ⟨rfl, _, rfl, rfl, fun _ => rfl, .inl ⟨rfl, rfl⟩⟩
  · rw [hslot] at h
    dsimp only at h
    rcases hasked : request₀.preProcessRequest with _ | _
    · cases pre with
      | false =>
        rw [hasked] at h
        cases h
      | true =>
        rw [hasked] at h
        obtain ⟨rfl, rfl⟩ := ok_mk_inj h
        exact .inr ⟨rfl, _, rfl, rfl, fun hpre => absurd hpre.symm Bool.false_ne_true,
          .inr ⟨rfl, request₀, rfl, hasked, rfl⟩⟩
    · rw [hasked] at h
      obtain ⟨rfl, -⟩ := ok_mk_inj h
      exact .inl ⟨rfl, request₀, rfl, hasked⟩

variable {request : SlotRequest}

theorem takes_of_launch {b₁ : RequestsBatch} (hlt : offset < cfg.clientMaxBatchSize)
    (hb₁ : b₁ = (b.entered cid size true).setRequest offset request)
    (hpre : request.preProcessRequest = true)
    (hslot : (b.requestsMap offset).request = none ∧ request.batchCid = cid ∨
      true = true ∧ ∃ request₀, (b.requestsMap offset).request = some request₀ ∧
        request₀.preProcessRequest = false ∧ request.batchCid = request₀.batchCid)
    (h : b₁.setPreprocessingRightNow cfg offset true = .ok b') :
    ∃ request, Takes cfg cid size true offset b request b' := by
  subst hb₁
  rcases setPreprocessingRightNow_cases h with ⟨hnone, -⟩ | ⟨request', hslot', rfl⟩
  · rw [request_setRequest] at hnone
    cases hnone
  · obtain rfl := Option.some.inj ((request_setRequest _ _ _).symm.trans hslot')
    exact ⟨_, hlt, setRequest_setRequest _ _ _ _, hpre, rfl, hslot⟩

section Slot

variable (ht : Takes cfg cid size pre offset b request b')

include ht

theorem Takes.self : (b'.requestsMap offset).request = some request := by
  rw [ht.eq, request_setRequest]

theorem Takes.other {o : ℕ} (ho : o ≠ offset) : b'.requestsMap o = b.requestsMap o := by
  rw [ht.eq, ← (b.entered_fields cid size pre).1]
  exact Function.update_of_ne ho _ _

theorem Takes.ne (h : Busy jobs b) : ∀ job ∈ jobs, job.reqOffsetInBatch ≠ offset := by
  rcases ht.slot with ⟨hnone, -⟩ | ⟨-, request₀, hslot, hasked, -⟩
  · rintro job hjob rfl
    obtain ⟨request, hslot, -⟩ := h.running job hjob
    cases hnone.symm.trans hslot
  · exact h.ne_of_not_running hslot (.inl hasked)

theorem Takes.busy (h : Busy jobs b) (hreplied : offset ∉ b.repliesList) : Busy jobs b' := by
  obtain ⟨-, hreplies, -, hprocess⟩ := b.entered_fields cid size pre
  have hsame : b'.repliesList = b.repliesList := ht.eq ▸ hreplies
  refine h.of_update (ht.ne h) (fun o ho => ht.other ho) (fun hidle => ?_)
    (fun o ho _ => hsame ▸ ho) fun hmem => absurd (hsame ▸ hmem) hreplied
  rw [ht.eq] at hidle
  exact hsame.trans (h.idle (hprocess hidle))

theorem Takes.busy_launched (job : PreProcessJob) (h : Busy jobs b)
    (hreplied : offset ∉ b.repliesList) (hoffset : job.reqOffsetInBatch = offset)
    (hcid : job.isPrimary = true → request.batchCid = job.batchCid) :
    Busy (jobs ++ if pre then [job] else []) b' := by
  have hbusy := ht.busy h hreplied
  cases pre with
  | false =>
    rw [if_neg Bool.false_ne_true, List.append_nil]
    exact hbusy
  | true =>
    rw [if_pos rfl]
    refine ⟨fun job' hjob' => ?_, ?_, hbusy.idle, hbusy.replied⟩
    · rcases List.mem_append.mp hjob' with hmem | hmem
      · exact hbusy.running job' hmem
      · obtain rfl := List.mem_singleton.mp hmem
        exact ⟨request, hoffset ▸ ht.self, ht.asked, ht.launched, hcid⟩
    · rw [List.map_append, List.nodup_append]
      refine ⟨hbusy.nodup, List.nodup_singleton _, fun o ho o' ho' => ?_⟩
      obtain ⟨job', hjob', rfl⟩ := List.mem_map.mp ho
      rw [List.mem_singleton.mp ho', hoffset]
      exact ht.ne h job' hjob'

end Slot

/-- A request that is not of the current batch takes a slot with none of the batch. -/
theorem Tracked.setRequest_other (h : Tracked cfg b)
    (hbefore : b.batchRegistered = true → b.isPending offset = false)
    (hafter : b.batchRegistered = true → request.batchCid ≠ b.batchCid) :
    Tracked cfg (b.setRequest offset request) := by
  refine h.of_eq ⟨rfl, rfl, rfl, rfl⟩ (fun hreg => pending_congr fun o => ?_) (Nat.le_refl _)
  by_cases ho : o = offset
  · subst ho
    rw [hbefore hreg, ← Bool.not_eq_true, isPending_of_request (request_setRequest _ _ _)]
    exact fun hpending => hafter hreg hpending.1
  · unfold isPending RequestsBatch.setRequest setSlot
    dsimp only
    rw [Function.update_of_ne ho]

theorem Tracked.takes_nil (h : Tracked cfg b) (ht : Takes cfg [] size pre offset b request b')
    (hfits : ∀ request₀, (b.requestsMap offset).request = some request₀ →
      request₀.preProcessRequest = false → b.batchRegistered = true →
      request₀.batchCid ≠ b.batchCid) : Tracked cfg b' := by
  have heq : b' = b.setRequest offset request := ht.eq
  rw [heq]
  rcases ht.slot with ⟨hnone, hcid⟩ | ⟨-, request₀, hslot, hasked, hcid⟩
  · refine h.setRequest_other (fun _ => ?_) fun hreg => ?_
    · unfold isPending
      rw [hnone]
    · rw [hcid]
      exact (h.toLoose.registered hreg).1.symm
  · refine h.setRequest_other (fun hreg => ?_) fun hreg => ?_
    · rw [← Bool.not_eq_true, isPending_of_request hslot]
      exact fun hpending => hfits request₀ hslot hasked hreg hpending.1
    · rw [hcid]
      exact hfits request₀ hslot hasked hreg

/-! ### The requests of a batch -/

/-- No request of the batch was accepted so far. -/
structure Before (cfg : PreProcessorConfig) (jobs : List PreProcessJob) (cid : Cid) (size : ℕ)
    (pre : Bool) (left : ℕ) (b : RequestsBatch) : Prop where
  kept : Kept cfg jobs b
  idle : b.batchInProcess = false
  fresh : pre = false → b.batchRegistered = false
  all : cid ≠ [] → left = size

/-- Some requests were accepted, those at `accepted`; at most `left` will be skipped. -/
structure Begun (cfg : PreProcessorConfig) (jobs : List PreProcessJob) (cid : Cid) (size : ℕ)
    (pre : Bool) (left : ℕ) (accepted : Finset ℕ) (b : RequestsBatch) : Prop where
  busy : Busy jobs b
  ne : cid ≠ []
  registered : b.batchRegistered = true
  inProcess : b.batchInProcess = pre
  cid_eq : b.batchCid = cid
  size_eq : b.batchSize = size
  noReplies : b.repliesList = []
  lt : left < size
  subset : accepted ⊆ b.pending cfg
  nonempty : accepted.Nonempty
  count : size ≤ accepted.card + left
  asked : ∀ o ∈ accepted, ∃ request, (b.requestsMap o).request = some request ∧
    request.preProcessRequest = pre

/-- The state while the requests of a batch are registered. -/
def Filling (cfg : PreProcessorConfig) (jobs : List PreProcessJob) (cid : Cid) (size : ℕ)
    (pre : Bool) (left : ℕ) (b : RequestsBatch) : Prop :=
  Before cfg jobs cid size pre left b ∨ ∃ accepted, Begun cfg jobs cid size pre left accepted b

/-- A request that is there and is not to be released is of the batch. -/
def Fits (cid : Cid) (offset : ℕ) (b : RequestsBatch) : Prop :=
  ∀ request, (b.requestsMap offset).request = some request →
    request.preProcessRequest = false → request.batchCid = cid

section Filling

variable {jobs' : List PreProcessJob} {request : SlotRequest}
  (ht : Takes cfg cid size pre offset b request b')

include ht

theorem Takes.isPending (hcid : b'.batchCid = cid) (hprocess : b'.batchInProcess = pre)
    (hfits : Fits cid offset b) : offset ∈ b'.pending cfg := by
  refine mem_pending.mpr ⟨ht.lt, (isPending_of_request ht.self).mpr ⟨?_, ?_⟩⟩
  · rw [hcid]
    rcases ht.slot with ⟨-, heq⟩ | ⟨-, request₀, hslot₀, hasked, heq⟩
    · exact heq
    · exact heq.trans (hfits request₀ hslot₀ hasked)
  · rw [hprocess, ht.asked]
    cases pre <;> simp

variable (hbusy : Busy jobs' b') (hfits : Fits cid offset b)

include hbusy hfits

theorem Before.takes (h : Before cfg jobs cid size pre (left + 1) b) :
    Filling cfg jobs' cid size pre left b' := by
  by_cases hcid : cid = []
  · subst hcid
    have heq : b' = b.setRequest offset request := ht.eq
    refine .inl ⟨⟨h.kept.tracked.takes_nil ht fun request₀ hslot hasked hreg => ?_, hbusy⟩,
      ?_, ?_, fun hne => absurd rfl hne⟩
    · rw [hfits request₀ hslot hasked]
      exact (h.kept.tracked.toLoose.registered hreg).1.symm
    · rw [heq]
      exact h.idle
    · rw [heq]
      exact h.fresh
  · have hentered : (b.entered cid size pre).batchRegistered = true ∧
        (b.entered cid size pre).batchInProcess = pre ∧
        (b.entered cid size pre).batchCid = cid ∧ (b.entered cid size pre).batchSize = size := by
      unfold entered
      rw [if_neg hcid]
      cases pre with
      | true =>
        rw [if_pos rfl, startBatch, if_neg (by rw [h.idle]; exact Bool.false_ne_true)]
        exact ⟨rfl, rfl, rfl, rfl⟩
      | false =>
        rw [if_neg Bool.false_ne_true, registerBatch,
          if_neg (by rw [h.fresh rfl]; exact Bool.false_ne_true)]
        exact ⟨rfl, h.idle, rfl, rfl⟩
    have hreplies : (b.entered cid size pre).repliesList = [] :=
      (b.entered_fields cid size pre).2.1.trans (h.kept.busy.idle h.idle)
    obtain ⟨hreg, hprocess, hsame, hsize⟩ := hentered
    have hall := h.all hcid
    have hmem := ht.isPending (ht.eq ▸ hsame) (ht.eq ▸ hprocess) hfits
    refine .inr ⟨{offset}, hbusy, hcid, ht.eq ▸ hreg, ht.eq ▸ hprocess, ht.eq ▸ hsame,
      ht.eq ▸ hsize, ht.eq ▸ hreplies, by omega, singleton_subset_iff.mpr hmem,
      singleton_nonempty _, ?_, fun o ho => ?_⟩
    · rw [card_singleton]
      omega
    · rw [mem_singleton.mp ho]
      exact ⟨request, ht.self, ht.asked⟩

theorem Begun.takes {accepted : Finset ℕ}
    (h : Begun cfg jobs cid size pre (left + 1) accepted b) :
    Begun cfg jobs' cid size pre left (insert offset accepted) b' := by
  have heq : b' = b.setRequest offset request := by
    rw [ht.eq, entered, if_neg h.ne]
    cases pre with
    | true => rw [if_pos rfl, startBatch, if_pos h.inProcess]
    | false => rw [if_neg Bool.false_ne_true, registerBatch, if_pos h.registered]
  -- the accepted requests have their slots, so this one is not among them
  have hnew : offset ∉ accepted := by
    intro hmem
    obtain ⟨request', hrequest', hasked'⟩ := h.asked offset hmem
    rcases ht.slot with ⟨hnone, -⟩ | ⟨rfl, request₀, hslot₀, hasked₀, -⟩
    · rw [hnone] at hrequest'
      cases hrequest'
    · obtain rfl := Option.some.inj (hslot₀.symm.trans hrequest')
      rw [hasked₀] at hasked'
      cases hasked'
  have hcard := card_insert_of_notMem hnew
  have hcount := h.count
  have hlt := h.lt
  have hmem := ht.isPending (heq ▸ h.cid_eq) (heq ▸ h.inProcess) hfits
  refine ⟨hbusy, h.ne, heq ▸ h.registered, heq ▸ h.inProcess, heq ▸ h.cid_eq, heq ▸ h.size_eq,
    heq ▸ h.noReplies, by omega, ?_, insert_nonempty _ _, by omega, fun o ho => ?_⟩
  · refine insert_subset hmem fun o ho => ?_
    have hne : o ≠ offset := fun hbad => hnew (hbad ▸ ho)
    obtain ⟨hlt', hpending⟩ := mem_pending.mp (h.subset ho)
    refine mem_pending.mpr ⟨hlt', ?_⟩
    unfold RequestsBatch.isPending at hpending ⊢
    rw [ht.other hne, heq]
    exact hpending
  · by_cases hne : o = offset
    · subst hne
      exact ⟨request, ht.self, ht.asked⟩
    · rw [ht.other hne]
      exact h.asked o (mem_of_mem_insert_of_ne ho hne)

theorem Filling.takes (h : Filling cfg jobs cid size pre (left + 1) b) :
    Filling cfg jobs' cid size pre left b' := by
  rcases h with h | ⟨accepted, h⟩
  · exact h.takes ht hbusy hfits
  · exact .inr ⟨_, h.takes ht hbusy hfits⟩

end Filling

theorem Filling.busy (h : Filling cfg jobs cid size pre left b) :
    Busy jobs b ∧ b.repliesList = [] := by
  rcases h with h | ⟨accepted, h⟩
  · exact ⟨h.kept.busy, h.kept.busy.idle h.idle⟩
  · exact ⟨h.busy, h.noReplies⟩

theorem Filling.inProcess (h : Filling cfg jobs cid size pre left b) :
    b.batchInProcess = true → b.batchRegistered = true := by
  rcases h with h | ⟨accepted, h⟩
  · exact h.kept.tracked.inProcess
  · exact fun _ => h.registered

theorem Kept.increase (h : Kept cfg jobs b) (count : ℕ) :
    Kept cfg jobs (b.increaseNumOfCompletedReqs count) :=
  ⟨h.tracked.of_eq ⟨rfl, rfl, rfl, rfl⟩ (fun _ => pending_congr fun _ => rfl) (Nat.le_add_right _ _),
    h.busy.running, h.busy.nodup, h.busy.idle, h.busy.replied⟩

theorem Filling.counted (h : Filling cfg jobs cid size pre left b) :
    Kept cfg jobs (b.increaseNumOfCompletedReqs left) := by
  rcases h with h | ⟨accepted, h⟩
  · exact h.kept.increase left
  · have hpending : (b.increaseNumOfCompletedReqs left).pending cfg = b.pending cfg :=
      pending_congr fun _ => rfl
    have hlt := h.lt
    have hcount := h.count
    have hcard := card_le_card h.subset
    refine ⟨⟨⟨fun _ => h.registered, fun hnot => ?_, fun _ => ⟨?_, ?_, ?_⟩⟩, fun _ => ?_⟩,
      h.busy.running, h.busy.nodup, h.busy.idle, h.busy.replied⟩
    · exact absurd (h.registered.symm.trans hnot) (by decide)
    · exact h.cid_eq.symm ▸ h.ne
    · show 0 < b.batchSize
      rw [h.size_eq]
      omega
    · rw [hpending]
      show b.batchSize ≤ b.numOfCompletedReqs + left + _
      rw [h.size_eq]
      omega
    · rw [hpending]
      exact h.nonempty.mono h.subset

theorem Filling.kept_of_all (h : Filling cfg jobs cid size pre size b) : Kept cfg jobs b := by
  rcases h with h | ⟨accepted, h⟩
  · exact h.kept
  · exact absurd h.lt (Nat.lt_irrefl _)

end RequestsBatch

end ConcordBft
