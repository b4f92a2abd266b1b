import ConcordBft.PreProcessor.RequestProcessingState
import Mathlib.Data.Finset.Card

/-!
# The decision about a request

`ResultHashes.WellFormed` is the invariant of the reported hashes, with the effect of a new
signature on who reported what. `RequestProcessingState.define_decided` says what
`definePreProcessingConsensusResult` can return. The result of the primary is described by
`succeeded` and `failed`.
-/

namespace ConcordBft

open Verif Verif.Exec PreProcessResultHashCreator List PreProcessResultSignature Nat

/-! ## Hashes and their signatures -/

namespace ResultHashes

variable {hashes : ResultHashes}

theorem lt_iff (a b : Digest) : lt a b = true ↔ a.toNat < b.toNat := decide_eq_true_iff

/-- The hashes increase, and so do the senders of each hash. -/
structure WellFormed (hashes : ResultHashes) : Prop where
  sorted : OrdSet.Sorted (fun e : Digest × List PreProcessResultSignature => e.1.toNat) hashes
  ordered : ∀ hash, PreProcessResultSignature.Ordered (hashes.signatures hash)

theorem wellFormed_nil : WellFormed [] :=
  ⟨List.Pairwise.nil, fun _ => List.Pairwise.nil⟩

def Reported (hashes : ResultHashes) (hash : Digest) (sender : ReplicaId) : Prop :=
  ∃ sig ∈ hashes.signatures hash, sig.sender_replica = sender

variable {hash : Digest} {entry : Digest × List PreProcessResultSignature} {sender : ReplicaId}

theorem hasSender_iff : hashes.hasSender hash sender = true ↔ hashes.Reported hash sender := by
  unfold hasSender Reported
  rw [any_eq_true]
  exact exists_congr fun sig => and_congr_right fun _ => beq_iff_eq

section

variable (h : hashes.WellFormed)

include h

theorem signatures_emplace (hash : Digest) (sig : PreProcessResultSignature) (hash' : Digest) :
    (hashes.emplace hash sig).signatures hash' =
      if hash' = hash then OrdSet.insert PreProcessResultSignature.lt sig (hashes.signatures hash)
      else hashes.signatures hash' := by
  unfold signatures emplace
  rw [OrdMap.get?_upsert (fun _ _ => BitVec.eq_of_toNat_eq) lt_iff h.sorted]
  split_ifs <;> rfl

theorem mem_signatures_emplace {hash' : Digest} {sig sig' : PreProcessResultSignature} :
    sig' ∈ (hashes.emplace hash sig).signatures hash' ↔ sig' ∈ hashes.signatures hash' ∨
        hash' = hash ∧ sig' = sig ∧ ¬ hashes.Reported hash sig.sender_replica := by
  rw [signatures_emplace h]
  split_ifs with hhash
  · rw [hhash, OrdSet.mem_insert PreProcessResultSignature.lt_iff (h.ordered hash)]
    refine or_congr_right ⟨fun hnew => ⟨rfl, hnew.1, ?_⟩, fun hnew => ⟨hnew.2.1, ?_⟩⟩
    · rintro ⟨sig₀, hsig₀, hsender⟩
      exact hnew.2 sig₀ hsig₀ (congrArg UInt16.toNat hsender)
    · exact fun sig₀ hsig₀ hsender => hnew.2.2 ⟨sig₀, hsig₀, UInt16.toNat_inj.mp hsender⟩
  · exact (or_iff_left fun hnew => hhash hnew.1).symm

theorem WellFormed.emplace (hash : Digest)
    (sig : PreProcessResultSignature) : (hashes.emplace hash sig).WellFormed := by
  refine ⟨OrdMap.sorted_upsert lt_iff h.sorted, fun hash' => ?_⟩
  rw [signatures_emplace h]
  split_ifs
  · exact OrdSet.sorted_insert PreProcessResultSignature.lt_iff (h.ordered hash)
  · exact h.ordered hash'

theorem reported_emplace {hash' : Digest} {sender : ReplicaId} {sig : PreProcessResultSignature} :
    (hashes.emplace hash sig).Reported hash' sender ↔
      hashes.Reported hash' sender ∨ hash' = hash ∧ sender = sig.sender_replica := by
  constructor
  · rintro ⟨sig', hsig', rfl⟩
    rcases (mem_signatures_emplace h).mp hsig' with hold | ⟨hhash, rfl, -⟩
    · exact .inl ⟨sig', hold, rfl⟩
    · exact .inr ⟨hhash, rfl⟩
  · rintro (⟨sig', hsig', rfl⟩ | ⟨rfl, rfl⟩)
    · exact ⟨sig', (mem_signatures_emplace h).mpr (.inl hsig'), rfl⟩
    · by_cases hold : hashes.Reported hash' sig.sender_replica
      · obtain ⟨sig', hsig', hsender⟩ := hold
        exact ⟨sig', (mem_signatures_emplace h).mpr (.inl hsig'), hsender⟩
      · exact ⟨sig, (mem_signatures_emplace h).mpr (.inr ⟨rfl, rfl, hold⟩), rfl⟩

end

theorem WellFormed.card_le (_ : hashes.WellFormed) {S : Finset ReplicaId}
    (hS : ∀ r ∈ S, hashes.Reported hash r) : S.card ≤ (hashes.signatures hash).length := by
  have hsub : S ⊆
      ((hashes.signatures hash).map sender_replica).toFinset := by
    intro r hr
    obtain ⟨sig, hsig, hsender⟩ := hS r hr
    exact mem_toFinset.mpr (mem_map.mpr ⟨sig, hsig, hsender⟩)
  calc S.card ≤ _ := Finset.card_le_card hsub
    _ ≤ _ := toFinset_card_le _
    _ = _ := length_map _

theorem WellFormed.exists_reported (h : hashes.WellFormed)
    {faulty : Finset ReplicaId} (hlt : faulty.card < (hashes.signatures hash).length) :
    ∃ r ∉ faulty, hashes.Reported hash r := by
  by_contra hall
  push Not at hall
  have hsub : ((hashes.signatures hash).map
      sender_replica).toFinset ⊆ faulty := by
    intro r hr
    obtain ⟨sig, hsig, hsender⟩ := mem_map.mp (mem_toFinset.mp hr)
    by_contra hr
    exact hall r hr ⟨sig, hsig, hsender⟩
  have hcard := Finset.card_le_card hsub
  rw [toFinset_card_of_nodup (nodup_senders (h.ordered hash)), length_map] at hcard
  omega

/-! ### The hash with the most signatures -/

theorem mem_foldl_max {start : Option (Digest × List PreProcessResultSignature)}
    (h : hashes.foldl (fun chosen entry =>
      match chosen with
      | none => some entry
      | some best => if best.2.length < entry.2.length then some entry else some best) start =
        some entry) :
    (entry ∈ hashes ∨ start = some entry) ∧ (∀ e ∈ hashes, e.2.length ≤ entry.2.length) ∧
      ∀ e, start = some e → e.2.length ≤ entry.2.length := by
  induction hashes generalizing start with
  | nil =>
    refine ⟨.inr h, fun e he => absurd he not_mem_nil, fun e he => ?_⟩
    rw [Option.some.inj (he.symm.trans h)]
  | cons e hashes ih =>
    obtain ⟨hmem, hmax, hstart⟩ := ih h
    rcases start with _ | best
    · exact ⟨.inl (mem_cons.mpr (hmem.symm.imp_left fun he => (Option.some.inj he).symm)),
        forall_mem_cons.mpr ⟨hstart e rfl, hmax⟩, fun _ he => by cases he⟩
    · dsimp only at hmem hstart
      split_ifs at hmem hstart with hlt
      · have he := hstart e rfl
        refine ⟨.inl (mem_cons.mpr (hmem.symm.imp_left fun he => (Option.some.inj he).symm)),
          forall_mem_cons.mpr ⟨he, hmax⟩, fun e' he' => ?_⟩
        rw [← Option.some.inj he']
        omega
      · have hbest := hstart best rfl
        refine ⟨hmem.imp_left (mem_cons_of_mem _),
          forall_mem_cons.mpr ⟨by omega, hmax⟩, fun e' he' => ?_⟩
        rw [← Option.some.inj he']
        exact hbest

theorem WellFormed.calculateMax_spec (h : hashes.WellFormed)
    (hmax : hashes.calculateMaxNbrOfEqualHashes = some entry) :
    hashes.signatures entry.1 = entry.2 ∧
      ∀ hash, (hashes.signatures hash).length ≤ entry.2.length := by
  obtain ⟨hmem, hle, -⟩ := mem_foldl_max hmax
  have hmem := hmem.resolve_right fun hnone => by cases hnone
  refine ⟨?_, fun hash => ?_⟩
  · rw [signatures, @OrdMap.get?_of_mem _ _ _ _ _ _ _ BitVec.toNat _ h.sorted hmem,
      Option.getD_some]
  rcases hget : OrdMap.get? hash hashes with _ | sigs
  · rw [signatures, hget, Option.getD_none]
    exact zero_le _
  · rw [signatures, hget, Option.getD_some]
    exact hle _ (OrdMap.mem_of_get? hget)

theorem calculateMax_isSome (h : 0 < (hashes.signatures hash).length) :
    ∃ entry, hashes.calculateMaxNbrOfEqualHashes = some entry := by
  rcases hashes with _ | ⟨e, hashes⟩
  · exact absurd h (lt_irrefl 0)
  · refine Option.isSome_iff_exists.mp
      (foldlRecOn (motive := fun best => Option.isSome best) hashes _ rfl fun best hbest e _ => ?_)
    obtain ⟨best, rfl⟩ := Option.isSome_iff_exists.mp hbest
    dsimp only
    split_ifs <;> rfl

end ResultHashes

/-! ## The decision -/

namespace RequestProcessingState

variable {cfg : PreProcessConfig} {s s' : RequestProcessingState} {r : PreProcessingResult}

/-- The primary has a result in its buffer that is longer than a block id. -/
def HasResult (s : RequestProcessingState) : Prop :=
  s.primaryPreProcessResultData = .buffer 0 ∧ 8 < s.primaryPreProcessResultLen ∧
    s.primaryPreProcessResultLen ≤ s.resultBuffer.length

theorem HasResult.readResult (h : s.HasResult) :
    s.readResult = .ok (s.resultBuffer.take s.primaryPreProcessResultLen) := by
  unfold RequestProcessingState.readResult
  rw [h.1]
  exact slice_eq_ok (by simpa using h.2.2)

/-- The block-id correction of a result in the buffer. -/
def corrected (s : RequestProcessingState) : List UInt8 :=
  s.resultBuffer.take (s.primaryPreProcessResultLen - 8) ++ leBytes 8 0

theorem HasResult.length_corrected (h : s.HasResult) :
    s.corrected.length = s.primaryPreProcessResultLen := by
  obtain ⟨-, hlong, hfits⟩ := h
  rw [corrected, length_append, length_take, length_leBytes]
  omega

theorem HasResult.detectFailure (h : s.HasResult) (other : Digest) :
    s.detectFailureDueToBlockID cfg other 0 =
      .ok (if other = create cfg.sha s.corrected ResultCode.SUCCESS s.clientId s.reqSeqNum then
        some (s.corrected, create cfg.sha s.corrected ResultCode.SUCCESS s.clientId s.reqSeqNum)
        else none) := by
  obtain ⟨hptr, hlong, hfits⟩ := h
  have hlength : (s.resultBuffer.take s.primaryPreProcessResultLen).length =
      s.primaryPreProcessResultLen := by
    rw [length_take]
    omega
  unfold detectFailureDueToBlockID
  rw [HasResult.readResult ⟨hptr, hlong, hfits⟩, ok_bind]
  refine ensure_bind_eq_ok.mpr ⟨decide_eq_true (by rwa [hlength]), ?_⟩
  rw [hlength, take_take, min_eq_left (sub_le _ _)]
  rfl

def correctedBuffer (s : RequestProcessingState) : List UInt8 :=
  s.corrected ++ s.resultBuffer.drop s.primaryPreProcessResultLen

/-- The state in which the primary has adopted the corrected result. -/
def adopt (cfg : PreProcessConfig) (s : RequestProcessingState) (hash : Digest) :
    RequestProcessingState :=
  { s with
    resultBuffer := s.correctedBuffer
    primaryPreProcessResultHash := hash
    preProcessingResultHashes := s.preProcessingResultHashes.emplace hash
      ⟨cfg.sign hash, cfg.myReplicaId, s.primaryPreProcessResult⟩ }

theorem HasResult.modifyPrimaryResult (h : s.HasResult) (hash : Digest) :
    s.modifyPrimaryResult cfg (s.corrected, hash) = .ok (s.adopt cfg hash) := by
  have hfits := h.2.2
  unfold RequestProcessingState.modifyPrimaryResult adopt
  rw [h.1]
  dsimp only
  rw [overwrite_eq_ok (by rw [h.length_corrected, zero_add]; exact hfits), ok_bind,
    h.length_corrected, take_zero, nil_append, zero_add]
  rfl

/-- No decision is possible yet. -/
def Waiting (cfg : PreProcessConfig) (s : RequestProcessingState) : Prop :=
  s.numOfReceivedReplies < cfg.numOfRequiredEqualReplies ∨ s.preprocessingRightNow = true

/-- Enough replicas reported the hash, `first` before the others. -/
def Leads (cfg : PreProcessConfig) (s : RequestProcessingState) (hash : Digest)
    (first : PreProcessResultSignature) : Prop :=
  ∃ rest, s.preProcessingResultHashes.signatures hash = first :: rest ∧
    cfg.numOfRequiredEqualReplies ≤ (s.preProcessingResultHashes.signatures hash).length

/-- What `definePreProcessingConsensusResult` can return. -/
inductive Decided (cfg : PreProcessConfig) (s : RequestProcessingState) :
    PreProcessingResult → RequestProcessingState → Prop
  | waiting (h : s.Waiting cfg) : Decided cfg s .CONTINUE s
  | few (h : ∀ hash, (s.preProcessingResultHashes.signatures hash).length <
      cfg.numOfRequiredEqualReplies) : Decided cfg s (s.waitForReplies cfg) s
  | agreed {first} (h : s.Leads cfg s.primaryPreProcessResultHash first) :
      Decided cfg s .COMPLETE { s with agreedPreProcessResult := first.pre_process_result }
  | failed {hash first} (h : s.Leads cfg hash first)
      (hne : hash ≠ s.primaryPreProcessResultHash)
      (hfailed : s.primaryPreProcessResult ≠ ResultCode.SUCCESS) :
      Decided cfg s (s.waitForReplies cfg)
        { s with agreedPreProcessResult := first.pre_process_result }
  | overwritten {hash first} (h : s.Leads cfg hash first)
      (hne : hash ≠ s.primaryPreProcessResultHash)
      (hsuccess : s.primaryPreProcessResult = ResultCode.SUCCESS)
      (hagreed : first.pre_process_result ≠ ResultCode.SUCCESS) : Decided cfg s .COMPLETE
        { s with agreedPreProcessResult := first.pre_process_result }.updatePreProcessResultData
  | adopted {hash first} (h : s.Leads cfg hash first)
      (hne : hash ≠ s.primaryPreProcessResultHash)
      (hsuccess : s.primaryPreProcessResult = ResultCode.SUCCESS)
      (hfixed : hash = create cfg.sha s.corrected ResultCode.SUCCESS s.clientId s.reqSeqNum) :
      Decided cfg s .COMPLETE
        ({ s with agreedPreProcessResult := first.pre_process_result }.adopt cfg hash)
  | cancelled {hash first} (h : s.Leads cfg hash first)
      (hne : hash ≠ s.primaryPreProcessResultHash)
      (hsuccess : s.primaryPreProcessResult = ResultCode.SUCCESS) :
      Decided cfg s .CANCEL { s with agreedPreProcessResult := first.pre_process_result }

theorem decide_decided {hash : Digest} {first : PreProcessResultSignature}
    (h : s.Leads cfg hash first) (hresult : s.primaryPreProcessResult = ResultCode.SUCCESS →
      hash ≠ s.primaryPreProcessResultHash → s.HasResult) :
    ∃ r s', s.decide cfg hash first.pre_process_result = .ok (r, s') ∧ Decided cfg s r s' := by
  unfold RequestProcessingState.decide
  dsimp only
  by_cases hhash : hash = s.primaryPreProcessResultHash
  · rw [if_pos hhash]
    exact ⟨_, _, rfl, .agreed (hhash ▸ h)⟩
  rw [if_neg hhash]
  by_cases hsuccess : s.primaryPreProcessResult = ResultCode.SUCCESS
  · rw [if_pos hsuccess]
    by_cases hagreed : first.pre_process_result = ResultCode.SUCCESS
    · have hresult : { s with agreedPreProcessResult := first.pre_process_result }.HasResult :=
        hresult hsuccess hhash
      rw [if_neg (not_not_intro hagreed), hresult.detectFailure]
      split_ifs with hfixed
      · rw [ok_bind]
        dsimp only
        rw [← hfixed, hresult.modifyPrimaryResult hash]
        exact ⟨_, _, rfl, .adopted h hhash hsuccess hfixed⟩
      · rw [ok_bind]
        exact ⟨_, _, rfl, .cancelled h hhash hsuccess⟩
    · rw [if_pos hagreed]
      exact ⟨_, _, rfl, .overwritten h hhash hsuccess hagreed⟩
  · rw [if_neg hsuccess]
    exact ⟨_, _, rfl, .failed h hhash hsuccess⟩

theorem define_of_waiting (h : s.Waiting cfg) :
    s.definePreProcessingConsensusResult cfg = .ok (.CONTINUE, s) := by
  unfold definePreProcessingConsensusResult
  by_cases hcount : s.numOfReceivedReplies < cfg.numOfRequiredEqualReplies
  · exact if_pos hcount
  · rw [if_neg hcount, if_pos (h.resolve_left hcount)]

/-- The primary needs a result of its own only if others agree on another hash. -/
theorem define_decided (hpos : 0 < cfg.numOfRequiredEqualReplies)
    (hwf : s.preProcessingResultHashes.WellFormed)
    (hresult : s.primaryPreProcessResult = ResultCode.SUCCESS →
      ∀ hash ≠ s.primaryPreProcessResultHash, cfg.numOfRequiredEqualReplies ≤
        (s.preProcessingResultHashes.signatures hash).length → s.HasResult) :
    ∃ r s', s.definePreProcessingConsensusResult cfg = .ok (r, s') ∧ Decided cfg s r s' := by
  by_cases hwaiting : s.Waiting cfg
  · exact ⟨_, _, define_of_waiting hwaiting, .waiting hwaiting⟩
  obtain ⟨hcount, hnow⟩ := not_or.mp hwaiting
  unfold definePreProcessingConsensusResult
  rw [if_neg hcount, if_neg hnow]
  rcases hmax : s.preProcessingResultHashes.calculateMaxNbrOfEqualHashes with _ | ⟨hash, sigs⟩
  · refine ⟨_, _, rfl, .few fun hash => ?_⟩
    by_contra hle
    obtain ⟨entry, hentry⟩ := ResultHashes.calculateMax_isSome
      (hpos.trans_le (Nat.le_of_not_lt hle))
    rw [hmax] at hentry
    cases hentry
  · obtain ⟨hsigs, hle⟩ := hwf.calculateMax_spec hmax
    dsimp only at hsigs hle ⊢
    split_ifs with hquorum
    · rcases sigs with _ | ⟨first, rest⟩
      · exact absurd hquorum (Nat.not_le_of_lt hpos)
      · rw [← hsigs] at hquorum
        exact decide_decided ⟨rest, hsigs, hquorum⟩ fun hsuccess hne =>
          hresult hsuccess hash hne hquorum
    · exact ⟨_, _, rfl, .few fun hash' => (hle hash').trans_lt (Nat.lt_of_not_le hquorum)⟩

theorem waitForReplies_cases (cfg : PreProcessConfig) (s : RequestProcessingState) :
    s.waitForReplies cfg = .CANCEL ∧ s.numOfReceivedReplies = cfg.numOfReplicas ∨
      s.waitForReplies cfg = .CONTINUE ∧ s.numOfReceivedReplies ≠ cfg.numOfReplicas := by
  unfold waitForReplies
  split_ifs with h
  · exact .inl ⟨rfl, h⟩
  · exact .inr ⟨rfl, h⟩

theorem waitForReplies_ne : s.waitForReplies cfg ≠ .COMPLETE := by
  unfold waitForReplies
  split_ifs <;> decide

theorem Decided.count (h : Decided cfg s r s') :
    s'.numOfReceivedReplies = s.numOfReceivedReplies := by
  cases h <;> rfl

/-- A request that is not decided has changed in nothing that counts. -/
theorem Decided.cases (h : Decided cfg s r s') :
    r = .CONTINUE ∧ (∃ agreed, s' = { s with agreedPreProcessResult := agreed }) ∧
        (s.Waiting cfg ∨ s.numOfReceivedReplies ≠ cfg.numOfReplicas) ∨
      r = .COMPLETE ∨ r = .CANCEL := by
  cases h with
  | waiting h => exact .inl ⟨rfl, ⟨_, rfl⟩, .inl h⟩
  | few | failed =>
    rcases waitForReplies_cases cfg s with ⟨hr, -⟩ | ⟨hr, hne⟩
    · exact .inr (.inr hr)
    · exact .inl ⟨hr, ⟨_, rfl⟩, .inr hne⟩
  | agreed | overwritten | adopted => exact .inr (.inl rfl)
  | cancelled => exact .inr (.inr rfl)

/-! ## The result of the primary -/

def succeeded (cfg : PreProcessConfig) (s : RequestProcessingState) (buffer : List UInt8)
    (len : ℕ) : RequestProcessingState :=
  { s with
    preprocessingRightNow := false
    primaryPreProcessResult := ResultCode.SUCCESS
    resultBuffer := buffer
    primaryPreProcessResultData := .buffer 0
    primaryPreProcessResultLen := len
    primaryPreProcessResultHash := create cfg.sha (buffer.take len)
      ResultCode.SUCCESS s.clientId s.reqSeqNum }

def failed (cfg : PreProcessConfig) (s : RequestProcessingState) (buffer : List UInt8)
    (code : ResultCode) : RequestProcessingState :=
  { s with
    preprocessingRightNow := false
    primaryPreProcessResult := code
    resultBuffer := leBytes 4 code.toNat ++ (leBytes 2 s.clientId.toNat ++
      leBytes 8 s.reqSeqNum.toNat) ++ buffer.drop sizeOfPreProcessResultData
    primaryPreProcessResultData := .buffer 6
    primaryPreProcessResultLen := sizeOfPreProcessResultData
    primaryPreProcessResultHash := create cfg.sha [] code s.clientId
      s.reqSeqNum }

/-- The primary reports the hash of its result. -/
def report (cfg : PreProcessConfig) (s : RequestProcessingState) : RequestProcessingState :=
  s.addSignature s.primaryPreProcessResultHash
    ⟨cfg.sign s.primaryPreProcessResultHash, cfg.myReplicaId, s.primaryPreProcessResult⟩

variable {buffer : List UInt8} {code : ResultCode}

theorem setPrimaryResult_of_known {len : ℕ}
    (hknown : code ≠ ResultCode.UNKNOWN) : s.setPrimaryResult buffer len code = { s with
        preprocessingRightNow := false
        primaryPreProcessResult := code
        resultBuffer := buffer
        primaryPreProcessResultData := .buffer 0
        primaryPreProcessResultLen := len } := if_pos hknown

theorem handlePrimaryPreProcessed_success {len : ℕ} (hlen : len ≤ buffer.length) :
    s.handlePrimaryPreProcessed cfg buffer len ResultCode.SUCCESS =
      .ok ((s.succeeded cfg buffer len).report cfg) := by
  unfold handlePrimaryPreProcessed
  rw [setPrimaryResult_of_known (by decide)]
  unfold primaryHash describeFailure readResult succeeded
  dsimp only
  rw [if_pos rfl, slice_eq_ok (by simpa using hlen), ok_bind, pure_eq_ok, ok_bind,
    if_neg (not_not_intro rfl), ok_bind, drop_zero]
  rfl

theorem handlePrimaryPreProcessed_failed
    (hcode : code ≠ ResultCode.SUCCESS) (hknown : code ≠ ResultCode.UNKNOWN)
    (hroom : sizeOfPreProcessResultData ≤ buffer.length) (len : ℕ) :
    s.handlePrimaryPreProcessed cfg buffer len code = .ok ((s.failed cfg buffer code).report cfg) := by
  have hlength : (leBytes 4 code.toNat ++ (leBytes 2 s.clientId.toNat ++
      leBytes 8 s.reqSeqNum.toNat)).length = sizeOfPreProcessResultData := by
    simp [sizeOfPreProcessResultData]
  unfold handlePrimaryPreProcessed
  rw [setPrimaryResult_of_known hknown]
  unfold primaryHash describeFailure setupPreProcessResultData
  dsimp only
  rw [if_neg hcode, ok_bind, pure_eq_ok, ok_bind, if_pos hcode,
    overwrite_eq_ok (by rw [hlength, zero_add]; exact hroom), ok_bind, hlength, take_zero,
    nil_append, zero_add]
  rfl

end RequestProcessingState

end ConcordBft
