import ConcordBft.PreProcessor.Decision
import ConcordBft.Lib.Run
import Mathlib.Data.Fintype.EquivFin

/-!
# Voting on a pre-execution result

The primary decides after every result, its own or a reply, until the request is completed or
cancelled. Signatures are stored per hash, so a replica that reports two hashes is counted twice.
`Ballot` is the invariant of a run in which no replica does: the counter is the number of replicas
that have voted, and each of them stands under one hash. The main result is `voting_of_safe`.
-/

namespace ConcordBft

open Verif Verif.Exec PreProcessResultHashCreator Finset RequestProcessingState ResultHashes

/-! ## One request on the primary -/

/-- A request with its state. It is released with its outcome; `voters` records whose results
were handled. -/
structure Voting where
  state : RequestProcessingState
  outcome : Option PreProcessingResult
  voters : Finset ReplicaId

inductive VotingEvent
  | launched
  | primaryPreProcessed (buffer : List UInt8) (preProcessResultLen : ℕ)
      (preProcessResult : ResultCode)
  | reply (m : PreProcessReplyMsg)

namespace Voting

variable (cfg : PreProcessConfig)

def start (clientId : UInt16) (reqSeqNum : UInt64) : Voting :=
  ⟨{ clientId := clientId, reqSeqNum := reqSeqNum }, none, ∅⟩

/-- `holdCompleteOrCancelRequest`. -/
def hold (voters : Finset ReplicaId) (result : PreProcessingResult × RequestProcessingState) :
    Voting :=
  ⟨result.2, if result.1 = .COMPLETE ∨ result.1 = .CANCEL then some result.1 else none, voters⟩

/-- A released request is not found any more. -/
def step (v : Voting) (e : VotingEvent) : Exec Voting :=
  if v.outcome.isSome then .ok v
  else
    match e with
    | .launched => .ok { v with state := { v.state with preprocessingRightNow := true } }
    | .primaryPreProcessed buffer len code => do
      let s ← v.state.handlePrimaryPreProcessed cfg buffer len code
      return hold (insert cfg.myReplicaId v.voters) (← s.definePreProcessingConsensusResult cfg)
    | .reply m =>
      if m.status = ReplyStatus.STATUS_REJECT then
        .ok { v with state := v.state.handlePreProcessReplyMsg m }
      else do
        return hold (insert m.senderId v.voters)
          (← (v.state.handlePreProcessReplyMsg m).definePreProcessingConsensusResult cfg)

/-- What keeps the votes countable: the primary has one result, with room for what is written into
it, and no replica reports two hashes. -/
def Safe (N : ℕ) (v : Voting) (e : VotingEvent) : Prop :=
  v.outcome = none →
    match e with
    | .launched => ∀ hash, ¬ v.state.preProcessingResultHashes.Reported hash cfg.myReplicaId
    | .primaryPreProcessed buffer len code =>
      (∀ hash, ¬ v.state.preProcessingResultHashes.Reported hash cfg.myReplicaId) ∧
        (code = ResultCode.SUCCESS ∧ 8 < len ∧ len ≤ buffer.length ∨
          code ≠ ResultCode.SUCCESS ∧ code ≠ ResultCode.UNKNOWN ∧
            sizeOfPreProcessResultData ≤ buffer.length)
    | .reply m => m.senderId.toNat < N ∧ m.senderId ≠ cfg.myReplicaId ∧
      (m.status ≠ ReplyStatus.STATUS_REJECT → ∀ hash,
        v.state.preProcessingResultHashes.Reported hash m.senderId → hash = m.resultsHash)

end Voting

/-- The votes of a request that is not decided. -/
structure Ballot (cfg : PreProcessConfig) (N : ℕ) (voters : Finset ReplicaId)
    (s : RequestProcessingState) : Prop where
  wellFormed : s.preProcessingResultHashes.WellFormed
  one : ∀ hash hash' r, s.preProcessingResultHashes.Reported hash r →
    s.preProcessingResultHashes.Reported hash' r → hash = hash'
  mem_voters : ∀ r, r ∈ voters ↔ ∃ hash, s.preProcessingResultHashes.Reported hash r
  replicas : ∀ r ∈ voters, r.toNat < N
  count : s.numOfReceivedReplies = voters.card
  primary : cfg.myReplicaId ∈ voters → s.preProcessingResultHashes.Reported
    s.primaryPreProcessResultHash cfg.myReplicaId ∧ s.preprocessingRightNow = false

/-- A primary that succeeded has voted and has its result. -/
def PrimaryVoted (cfg : PreProcessConfig) (voters : Finset ReplicaId)
    (s : RequestProcessingState) : Prop :=
  s.primaryPreProcessResult = ResultCode.SUCCESS → cfg.myReplicaId ∈ voters ∧ s.HasResult

namespace Ballot

variable {cfg : PreProcessConfig} {N : ℕ} {voters : Finset ReplicaId} {s : RequestProcessingState}

theorem not_reported_nil (hash : Digest) (r : ReplicaId) : ¬ ResultHashes.Reported [] hash r := by
  rintro ⟨sig, hsig, -⟩
  cases hsig

theorem start (clientId : UInt16) (reqSeqNum : UInt64) :
    Ballot cfg N ∅ { clientId := clientId, reqSeqNum := reqSeqNum } where
  wellFormed := wellFormed_nil
  one hash _ r h := absurd h (not_reported_nil hash r)
  mem_voters r := iff_of_false (notMem_empty r) fun ⟨hash, h⟩ => not_reported_nil hash r h
  replicas r hr := absurd hr (notMem_empty r)
  count := rfl
  primary h := absurd h (notMem_empty _)

theorem card_voters_le (h : ∀ r ∈ voters, r.toNat < N) : voters.card ≤ N := by
  have hsub : voters.image UInt16.toNat ⊆ Finset.range N := by
    intro n hn
    obtain ⟨r, hr, rfl⟩ := mem_image.mp hn
    exact mem_range.mpr (h r hr)
  have hcard := card_le_card hsub
  rwa [card_image_of_injective _ fun a b => UInt16.toNat_inj.mp, card_range] at hcard

theorem addSignature (h : Ballot cfg N voters s) (hN : N < 2 ^ 16) (hash : Digest)
    (sig : PreProcessResultSignature) (hreplica : sig.sender_replica.toNat < N)
    (hone : ∀ hash', s.preProcessingResultHashes.Reported hash' sig.sender_replica → hash' = hash)
    (hprimary : sig.sender_replica = cfg.myReplicaId →
      hash = s.primaryPreProcessResultHash ∧ s.preprocessingRightNow = false) :
    Ballot cfg N (insert sig.sender_replica voters) (s.addSignature hash sig) := by
  unfold RequestProcessingState.addSignature
  split_ifs with hold
  · have hmem : sig.sender_replica ∈ voters :=
      (h.mem_voters _).mpr ⟨hash, hasSender_iff.mp hold⟩
    rw [insert_eq_of_mem hmem]
    exact h
  · have hnew : sig.sender_replica ∉ voters := by
      intro hmem
      obtain ⟨hash', hreported⟩ := (h.mem_voters _).mp hmem
      rw [hone hash' hreported] at hreported
      exact hold (hasSender_iff.mpr hreported)
    have hreported := @reported_emplace _ hash h.wellFormed
    have hreplicas : ∀ r ∈ insert sig.sender_replica voters, r.toNat < N :=
      forall_mem_insert _ _ _ |>.mpr ⟨hreplica, h.replicas⟩
    refine ⟨h.wellFormed.emplace hash sig, ?_, fun r => ?_, hreplicas, ?_, fun hmem => ?_⟩
    · intro hash₁ hash₂ r h₁ h₂
      rcases hreported.mp h₁ with hold₁ | ⟨rfl, rfl⟩
      · rcases hreported.mp h₂ with hold₂ | ⟨rfl, rfl⟩
        · exact h.one _ _ r hold₁ hold₂
        · exact hone _ hold₁
      · rcases hreported.mp h₂ with hold₂ | ⟨rfl, -⟩
        · exact (hone _ hold₂).symm
        · rfl
    · rw [mem_insert, h.mem_voters]
      constructor
      · rintro (rfl | ⟨hash', hr⟩)
        · exact ⟨hash, hreported.mpr (.inr ⟨rfl, rfl⟩)⟩
        · exact ⟨hash', hreported.mpr (.inl hr)⟩
      · rintro ⟨hash', hr⟩
        rcases hreported.mp hr with hr | ⟨-, rfl⟩
        · exact .inr ⟨hash', hr⟩
        · exact .inl rfl
    · have hcard := card_voters_le hreplicas
      rw [card_insert_of_notMem hnew] at hcard ⊢
      dsimp only
      rw [h.count, Nat.mod_eq_of_lt (by omega)]
    · rcases mem_insert.mp hmem with heq | hmem
      · obtain ⟨hhash, hnow⟩ := hprimary heq.symm
        exact ⟨hreported.mpr (.inr ⟨hhash.symm, heq⟩), hnow⟩
      · obtain ⟨hr, hnow⟩ := h.primary hmem
        exact ⟨hreported.mpr (.inl hr), hnow⟩

variable {s' : RequestProcessingState}

/-- Fields that do not count votes may change before the primary has voted. -/
theorem of_eq (h : Ballot cfg N voters s)
    (hhashes : s'.preProcessingResultHashes = s.preProcessingResultHashes)
    (hcount : s'.numOfReceivedReplies = s.numOfReceivedReplies)
    (hprimary : cfg.myReplicaId ∈ voters →
      s'.primaryPreProcessResultHash = s.primaryPreProcessResultHash ∧
        s'.preprocessingRightNow = s.preprocessingRightNow) : Ballot cfg N voters s' where
  wellFormed := hhashes ▸ h.wellFormed
  one := hhashes ▸ h.one
  mem_voters := hhashes ▸ h.mem_voters
  replicas := h.replicas
  count := hcount.trans h.count
  primary hmem := by
    obtain ⟨hhash, hnow⟩ := hprimary hmem
    rw [hhashes, hhash, hnow]
    exact h.primary hmem

theorem notMem_voters (h : Ballot cfg N voters s)
    (hnone : ∀ hash, ¬ s.preProcessingResultHashes.Reported hash cfg.myReplicaId) :
    cfg.myReplicaId ∉ voters := by
  intro hmem
  obtain ⟨hash, hreported⟩ := (h.mem_voters _).mp hmem
  exact hnone hash hreported

theorem report (h : Ballot cfg N voters s) (hN : N < 2 ^ 16) (hme : cfg.myReplicaId.toNat < N)
    (hnone : ∀ hash, ¬ s.preProcessingResultHashes.Reported hash cfg.myReplicaId)
    (hhashes : s'.preProcessingResultHashes = s.preProcessingResultHashes)
    (hcount : s'.numOfReceivedReplies = s.numOfReceivedReplies)
    (hnow : s'.preprocessingRightNow = false) :
    Ballot cfg N (insert cfg.myReplicaId voters) (s'.report cfg) := by
  have h' : Ballot cfg N voters s' :=
    h.of_eq hhashes hcount fun hmem => absurd hmem (h.notMem_voters hnone)
  have hone : ∀ hash, s'.preProcessingResultHashes.Reported hash cfg.myReplicaId →
      hash = s'.primaryPreProcessResultHash :=
    fun hash hreported => absurd (hhashes ▸ hreported) (hnone hash)
  exact h'.addSignature hN _ ⟨_, cfg.myReplicaId, _⟩ hme hone fun _ => ⟨rfl, hnow⟩

end Ballot

namespace RequestProcessingState

variable {cfg : PreProcessConfig} {s : RequestProcessingState}

theorem addSignature_fields (hash : Digest) (sig : PreProcessResultSignature) :
    ∃ hashes count, s.addSignature hash sig =
      { s with preProcessingResultHashes := hashes, numOfReceivedReplies := count } := by
  unfold addSignature
  split_ifs
  · exact ⟨s.preProcessingResultHashes, s.numOfReceivedReplies, rfl⟩
  · exact ⟨_, _, rfl⟩

theorem hasResult_addSignature {hash : Digest} {sig : PreProcessResultSignature} :
    (s.addSignature hash sig).HasResult ↔ s.HasResult := by
  obtain ⟨hashes, count, h⟩ := s.addSignature_fields hash sig
  rw [h]
  exact Iff.rfl

theorem primaryPreProcessResult_addSignature (hash : Digest) (sig : PreProcessResultSignature) :
    (s.addSignature hash sig).primaryPreProcessResult = s.primaryPreProcessResult := by
  obtain ⟨hashes, count, h⟩ := s.addSignature_fields hash sig
  rw [h]

end RequestProcessingState

theorem PrimaryVoted.addSignature {cfg : PreProcessConfig} {voters : Finset ReplicaId}
    {s : RequestProcessingState} (h : PrimaryVoted cfg voters s) (hash : Digest)
    (sig : PreProcessResultSignature) :
    PrimaryVoted cfg (insert sig.sender_replica voters) (s.addSignature hash sig) := by
  intro hsuccess
  rw [primaryPreProcessResult_addSignature] at hsuccess
  obtain ⟨hmem, hresult⟩ := h hsuccess
  exact ⟨mem_insert_of_mem hmem, hasResult_addSignature.mpr hresult⟩

/-! ## One event -/

namespace Voting

variable {cfg : PreProcessConfig} {N : ℕ} {v v' : Voting} {e : VotingEvent}

theorem step_cases (hN : N < 2 ^ 16) (hme : cfg.myReplicaId.toNat < N)
    (hballot : Ballot cfg N v.voters v.state) (hvoted : PrimaryVoted cfg v.voters v.state)
    (hnone : v.outcome = none) (hsafe : Safe cfg N v e) :
    (∃ s, step cfg v e = .ok { v with state := s } ∧ Ballot cfg N v.voters s ∧
      PrimaryVoted cfg v.voters s ∧
      s.preProcessingResultHashes = v.state.preProcessingResultHashes ∧
      s.clientId = v.state.clientId ∧ s.reqSeqNum = v.state.reqSeqNum ∧
      (s.preprocessingRightNow = true ∨ s.preprocessingRightNow = v.state.preprocessingRightNow)) ∨
    ∃ r s, Ballot cfg N (insert r v.voters) s ∧ PrimaryVoted cfg (insert r v.voters) s ∧
      step cfg v e = (s.definePreProcessingConsensusResult cfg >>= fun result =>
        pure (hold (insert r v.voters) result)) ∧
      ((∃ m, e = .reply m ∧ m.status ≠ ReplyStatus.STATUS_REJECT ∧ r = m.senderId ∧
          s = v.state.addSignature m.resultsHash ⟨m.signature, m.senderId, m.preProcessResult⟩) ∨
        ∃ buffer len code, e = .primaryPreProcessed buffer len code ∧ r = cfg.myReplicaId ∧
          (code = ResultCode.SUCCESS ∧ s = (v.state.succeeded cfg buffer len).report cfg ∨
            code ≠ ResultCode.SUCCESS ∧ s = (v.state.failed cfg buffer code).report cfg)) := by
  have hsafe := hsafe hnone
  unfold step
  rw [hnone, if_neg (by simp)]
  cases e with
  | launched =>
    refine .inl ⟨{ v.state with preprocessingRightNow := true }, rfl, ?_, hvoted, rfl, rfl, rfl,
      .inl rfl⟩
    exact hballot.of_eq rfl rfl fun hmem => absurd hmem (hballot.notMem_voters hsafe)
  | primaryPreProcessed buffer len code =>
    obtain ⟨hfirst, ⟨rfl, hlong, hfits⟩ | ⟨hcode, hknown, hroom⟩⟩ := hsafe
    · refine .inr ⟨cfg.myReplicaId, (v.state.succeeded cfg buffer len).report cfg,
        hballot.report hN hme hfirst rfl rfl rfl, fun _ => ⟨mem_insert_self _ _, ?_⟩, ?_,
        .inr ⟨buffer, len, _, rfl, rfl, .inl ⟨rfl, rfl⟩⟩⟩
      · exact hasResult_addSignature.mpr ⟨rfl, hlong, hfits⟩
      · dsimp only
        rw [handlePrimaryPreProcessed_success hfits, ok_bind]
    · refine .inr ⟨cfg.myReplicaId, (v.state.failed cfg buffer code).report cfg,
        hballot.report hN hme hfirst rfl rfl rfl, fun hsuccess => ?_, ?_,
        .inr ⟨buffer, len, code, rfl, rfl, .inr ⟨hcode, rfl⟩⟩⟩
      · rw [RequestProcessingState.report, primaryPreProcessResult_addSignature] at hsuccess
        exact absurd hsuccess hcode
      · dsimp only
        rw [handlePrimaryPreProcessed_failed hcode hknown hroom, ok_bind]
  | reply m =>
    obtain ⟨hreplica, hother, hone⟩ := hsafe
    by_cases hreject : m.status = ReplyStatus.STATUS_REJECT
    · refine .inl ⟨v.state.handlePreProcessReplyMsg m, if_pos hreject, ?_⟩
      rw [handlePreProcessReplyMsg, if_neg (not_not_intro hreject)]
      exact ⟨hballot.of_eq rfl rfl fun _ => ⟨rfl, rfl⟩, hvoted, rfl, rfl, rfl, .inr rfl⟩
    · refine .inr ⟨m.senderId, v.state.addSignature m.resultsHash
        ⟨m.signature, m.senderId, m.preProcessResult⟩,
        hballot.addSignature hN _ ⟨_, m.senderId, _⟩ hreplica (hone hreject)
          fun h => absurd h hother, hvoted.addSignature _ _, ?_, .inl ⟨m, rfl, hreject, rfl, rfl⟩⟩
      dsimp only
      rw [if_neg hreject, handlePreProcessReplyMsg, if_pos hreject]

/-- The votes are counted, and a request that is not decided waits for something. -/
def Counted (cfg : PreProcessConfig) (N : ℕ) (v : Voting) : Prop :=
  v.state.numOfReceivedReplies = v.voters.card ∧
    (v.outcome = none ∧ Ballot cfg N v.voters v.state ∧ PrimaryVoted cfg v.voters v.state ∧
        (v.state.Waiting cfg ∨ v.state.numOfReceivedReplies ≠ cfg.numOfReplicas) ∨
      v.outcome = some .COMPLETE ∨ v.outcome = some .CANCEL)

theorem step_of_decided (h : v.outcome.isSome = true) : step cfg v e = .ok v :=
  if_pos h

theorem Counted.step (hpos : 0 < cfg.numOfRequiredEqualReplies) (hN : N < 2 ^ 16)
    (hme : cfg.myReplicaId.toNat < N) (h : Counted cfg N v)
    (hsafe : Safe cfg N v e) : ∃ v', Voting.step cfg v e = .ok v' ∧ Counted cfg N v' := by
  obtain ⟨hcount, ⟨hnone, hballot, hvoted, hwaits⟩ | hdecided⟩ := h
  · rcases step_cases hN hme hballot hvoted hnone hsafe with
      ⟨s, hstep, hballot', hvoted', -, -, -, hnow⟩ | ⟨r, s, hballot', hvoted', hstep, -⟩
    · have hcount' : s.numOfReceivedReplies = v.state.numOfReceivedReplies :=
        hballot'.count.trans hballot.count.symm
      refine ⟨_, hstep, hballot'.count, .inl ⟨hnone, hballot', hvoted', ?_⟩⟩
      dsimp only
      rw [hcount']
      refine hwaits.imp_left fun hwaiting => ?_
      rcases hnow with hnow | hnow
      · exact .inr hnow
      · unfold RequestProcessingState.Waiting at hwaiting ⊢
        rwa [hcount', hnow]
    · obtain ⟨result, s', hdefine, hdecided⟩ := define_decided hpos
        hballot'.wellFormed fun hsuccess _ _ _ => (hvoted' hsuccess).2
      rw [hdefine, ok_bind] at hstep
      refine ⟨_, hstep, hdecided.count.trans hballot'.count, ?_⟩
      rcases hdecided.cases with ⟨rfl, ⟨agreed, rfl⟩, hwaits'⟩ | rfl | rfl
      · exact .inl ⟨rfl, hballot'.of_eq rfl rfl fun _ => ⟨rfl, rfl⟩, hvoted', hwaits'⟩
      · exact .inr (.inl rfl)
      · exact .inr (.inr rfl)
  · have hsome : v.outcome.isSome = true := by
      rcases hdecided with h | h <;> rw [h] <;> rfl
    exact ⟨v, step_of_decided hsome, hcount, .inr hdecided⟩

/-- When all replicas have voted the request is decided. -/
theorem Counted.decided (h : Counted cfg N v) (hN : N < 2 ^ 16)
    (hme : cfg.myReplicaId.toNat < N) (hrequired : cfg.numOfRequiredEqualReplies ≤ N)
    (hnumber : cfg.numOfReplicas = N) (hall : ∀ r : ReplicaId, r.toNat < N → r ∈ v.voters) :
    v.outcome = some .COMPLETE ∨ v.outcome = some .CANCEL := by
  obtain ⟨hcount, ⟨-, hballot, -, hwaits⟩ | hdecided⟩ := h
  · have hcard : v.voters.card = N := by
      refine le_antisymm (Ballot.card_voters_le hballot.replicas) ?_
      have hsub : Finset.range N ⊆ v.voters.image UInt16.toNat := by
        intro n hn
        have hn := mem_range.mp hn
        have hnat := UInt16.toNat_ofNat_of_lt' (hn.trans hN)
        exact mem_image.mpr ⟨_, hall _ (by rwa [hnat]), hnat⟩
      have hcard := (card_le_card hsub).trans card_image_le
      rwa [card_range] at hcard
    have hnow := (hballot.primary (hall _ hme)).2
    rcases hwaits with (hfew | hbusy) | hne
    · omega
    · rw [hnow] at hbusy
      cases hbusy
    · omega
  · exact hdecided

/-! ## Honest replicas that agree -/

/-- The honest replicas, the primary included, obtained `data` with success. -/
def Agree (cfg : PreProcessConfig) (clientId : UInt16) (reqSeqNum : UInt64)
    (faulty : Finset ReplicaId) (data : List UInt8) : VotingEvent → Prop
  | .launched => True
  | .primaryPreProcessed buffer len code => code = ResultCode.SUCCESS ∧ buffer.take len = data
  | .reply m => m.senderId ∉ faulty → m.status ≠ ReplyStatus.STATUS_REJECT →
      m.resultsHash = create cfg.sha data ResultCode.SUCCESS clientId
        reqSeqNum

/-- The results of `F + 1` honest replicas are not all in, that of the primary among them. -/
def NoQuorum (cfg : PreProcessConfig) (F : ℕ) (faulty voters : Finset ReplicaId) : Prop :=
  ∀ S ⊆ voters, (∀ r ∈ S, r ∉ faulty) → cfg.myReplicaId ∈ S → S.card ≤ F

end Voting

/-- Every honest vote is for `h₀`. -/
def HonestVotes (faulty : Finset ReplicaId) (h₀ : Digest) (s : RequestProcessingState) : Prop :=
  ∀ hash r, r ∉ faulty → s.preProcessingResultHashes.Reported hash r → hash = h₀

/-- At most `F` replicas are faulty and `F + 1` equal replies decide; the primary is honest. -/
structure Quorate (cfg : PreProcessConfig) (N F : ℕ) (faulty : Finset ReplicaId) : Prop where
  few : faulty.card ≤ F
  required : cfg.numOfRequiredEqualReplies = F + 1
  enough : 2 * F + 1 ≤ N
  number : N ≤ cfg.numOfReplicas
  replica : cfg.myReplicaId.toNat < N
  honest : cfg.myReplicaId ∉ faulty

namespace Ballot

variable {cfg : PreProcessConfig} {N F : ℕ} {voters faulty : Finset ReplicaId}
  {s : RequestProcessingState} {h₀ : Digest}

section

variable (h : Ballot cfg N voters s)

include h

section

variable (hhonest : HonestVotes faulty h₀ s)

include hhonest

theorem card_honest_le {S : Finset ReplicaId} (hS : S ⊆ voters) (hnone : ∀ r ∈ S, r ∉ faulty) :
    S.card ≤ (s.preProcessingResultHashes.signatures h₀).length := by
  refine h.wellFormed.card_le fun r hr => ?_
  obtain ⟨hash, hreported⟩ := (h.mem_voters r).mp (hS hr)
  rwa [← hhonest hash r (hnone r hr) hreported]

/-- The primary has voted: only the honest hash can win, and it does when all have voted. -/
theorem define_of_voted (hq : Quorate cfg N F faulty)
    (hvoter : cfg.myReplicaId ∈ voters) (hwaiting : ¬ s.Waiting cfg) :
    ∃ r s', s.definePreProcessingConsensusResult cfg = .ok (r, s') ∧ (r = .COMPLETE ∨
      r = .CONTINUE ∧ (∃ agreed, s' = { s with agreedPreProcessResult := agreed }) ∧
        Voting.NoQuorum cfg F faulty voters) := by
  obtain ⟨hF, hrequired, hN, hnumber, -, hme⟩ := hq
  have hprimary : s.primaryPreProcessResultHash = h₀ :=
    hhonest _ _ hme (h.primary hvoter).1
  have honly : ∀ hash, cfg.numOfRequiredEqualReplies ≤
      (s.preProcessingResultHashes.signatures hash).length →
      hash = s.primaryPreProcessResultHash := by
    intro hash hlength
    obtain ⟨r, hr, hreported⟩ := h.wellFormed.exists_reported (hF.trans_lt (hrequired ▸ hlength))
    exact (hhonest hash r hr hreported).trans hprimary.symm
  obtain ⟨r, s', hdefine, hdecided⟩ := define_decided (by omega)
    h.wellFormed fun _ hash hne hlength => absurd (honly hash hlength) hne
  refine ⟨r, s', hdefine, ?_⟩
  cases hdecided with
  | waiting hwait => exact absurd hwait hwaiting
  | agreed | overwritten | adopted => exact .inl rfl
  | cancelled hleads hne | failed hleads hne => exact absurd (honly _ hleads.choose_spec.2) hne
  | few hfew =>
    have hfew := hfew h₀
    rcases waitForReplies_cases cfg s with ⟨-, hcount⟩ | ⟨hresult, -⟩
    · -- all replicas have voted, so the honest ones are enough
      have hsdiff := h.card_honest_le hhonest (sdiff_subset (s := voters) (t := faulty))
        fun r hr => (mem_sdiff.mp hr).2
      have hcard := le_card_sdiff faulty voters
      have := h.count
      omega
    · refine .inr ⟨hresult, ⟨_, rfl⟩, fun S hS hnone _ => ?_⟩
      have := h.card_honest_le hhonest hS hnone
      omega

end

theorem define_of_not_voted (hvoted : PrimaryVoted cfg voters s)
    (hq : Quorate cfg N F faulty) (hvoter : cfg.myReplicaId ∉ voters) (hwaiting : ¬ s.Waiting cfg) :
    ∃ r s', s.definePreProcessingConsensusResult cfg = .ok (r, s') ∧ (r = .COMPLETE ∨
      r = .CONTINUE ∧ ∃ agreed, s' = { s with agreedPreProcessResult := agreed }) := by
  obtain ⟨-, hrequired, -, hnumber, hme, -⟩ := hq
  have hcard := card_voters_le (forall_mem_insert _ _ _ |>.mpr ⟨hme, h.replicas⟩)
  rw [card_insert_of_notMem hvoter] at hcard
  have hwait : s.waitForReplies cfg = .CONTINUE := by
    refine if_neg fun heq => ?_
    have := h.count
    omega
  have hfailed : s.primaryPreProcessResult ≠ ResultCode.SUCCESS :=
    fun hsuccess => hvoter (hvoted hsuccess).1
  obtain ⟨r, s', hdefine, hdecided⟩ := define_decided
    (show 0 < cfg.numOfRequiredEqualReplies by omega) h.wellFormed
    fun hsuccess => absurd hsuccess hfailed
  refine ⟨r, s', hdefine, ?_⟩
  cases hdecided with
  | waiting hwait => exact absurd hwait hwaiting
  | few | failed => exact .inr ⟨hwait, _, rfl⟩
  | agreed | overwritten | adopted => exact .inl rfl
  | cancelled _ _ hsuccess => exact absurd hsuccess hfailed

/-- The votes of honest replicas that agree never cancel a request. -/
theorem define_honest (hvoted : PrimaryVoted cfg voters s)
    (hhonest : HonestVotes faulty h₀ s) (hq : Quorate cfg N F faulty) :
    ∃ r s', s.definePreProcessingConsensusResult cfg = .ok (r, s') ∧ (r = .COMPLETE ∨
      r = .CONTINUE ∧ (∃ agreed, s' = { s with agreedPreProcessResult := agreed }) ∧
        Voting.NoQuorum cfg F faulty voters) := by
  by_cases hwaiting : s.Waiting cfg
  · refine ⟨_, s, define_of_waiting hwaiting, .inr ⟨rfl, ⟨_, rfl⟩, ?_⟩⟩
    intro S hS _ hmem
    rcases hwaiting with hfew | hbusy
    · have := card_le_card hS
      have := h.count
      have := hq.required
      omega
    · rw [(h.primary (hS hmem)).2] at hbusy
      cases hbusy
  · by_cases hvoter : cfg.myReplicaId ∈ voters
    · exact h.define_of_voted hhonest hq hvoter hwaiting
    · obtain ⟨r, s', hdefine, hresult⟩ := h.define_of_not_voted hvoted hq hvoter hwaiting
      refine ⟨r, s', hdefine, hresult.imp_right fun hcontinue => ⟨hcontinue.1, hcontinue.2, ?_⟩⟩
      exact fun S hS _ hmem => absurd (hS hmem) hvoter

end

end Ballot

namespace Voting

variable {cfg : PreProcessConfig} {N F : ℕ} {v : Voting} {clientId : UInt16} {reqSeqNum : UInt64}
  {faulty : Finset ReplicaId} {data : List UInt8}

/-- An undecided request on which the honest replicas agree, or a completed one. -/
def Agreeing (cfg : PreProcessConfig) (N F : ℕ) (clientId : UInt16) (reqSeqNum : UInt64)
    (faulty : Finset ReplicaId) (data : List UInt8) (v : Voting) : Prop :=
  v.outcome = none ∧ Ballot cfg N v.voters v.state ∧ PrimaryVoted cfg v.voters v.state ∧
      v.state.clientId = clientId ∧ v.state.reqSeqNum = reqSeqNum ∧
      HonestVotes faulty (create cfg.sha data ResultCode.SUCCESS
        clientId reqSeqNum) v.state ∧ NoQuorum cfg F faulty v.voters ∨
    v.outcome = some .COMPLETE

theorem HonestVotes.addSignature {s : RequestProcessingState} {h₀ hash : Digest}
    {sig : PreProcessResultSignature} (h : HonestVotes faulty h₀ s)
    (hwf : s.preProcessingResultHashes.WellFormed) (hsig : sig.sender_replica ∉ faulty → hash = h₀) :
    HonestVotes faulty h₀ (s.addSignature hash sig) := by
  unfold RequestProcessingState.addSignature
  split_ifs
  · exact h
  · intro hash' r hr hreported
    rcases (reported_emplace hwf).mp hreported with hold | ⟨rfl, rfl⟩
    · exact h hash' r hr hold
    · exact hsig hr

theorem addSignature_request (s : RequestProcessingState) (hash : Digest)
    (sig : PreProcessResultSignature) :
    (s.addSignature hash sig).clientId = s.clientId ∧
      (s.addSignature hash sig).reqSeqNum = s.reqSeqNum := by
  obtain ⟨hashes, count, h⟩ := s.addSignature_fields hash sig
  rw [h]
  exact ⟨rfl, rfl⟩

theorem Agreeing.step (h : Agreeing cfg N F clientId reqSeqNum faulty data v) (hN : N < 2 ^ 16)
    (hq : Quorate cfg N F faulty) {e : VotingEvent}
    (hsafe : Safe cfg N v e) (hagree : Agree cfg clientId reqSeqNum faulty data e) :
    ∃ v', Voting.step cfg v e = .ok v' ∧ Agreeing cfg N F clientId reqSeqNum faulty data v' := by
  rcases h with ⟨hnone, hballot, hvoted, rfl, rfl, hhonest, hquorum⟩ | hcomplete
  · rcases step_cases hN hq.replica hballot hvoted hnone hsafe with
      ⟨s, hstep, hballot', hvoted', hhashes, hclient, hseq, -⟩ |
      ⟨r, s, hballot', hvoted', hstep, hcast⟩
    · refine ⟨_, hstep, .inl ⟨hnone, hballot', hvoted', hclient, hseq, ?_, hquorum⟩⟩
      intro hash r hr hreported
      exact hhonest hash r hr (hhashes ▸ hreported)
    · have hvotes : HonestVotes faulty (create cfg.sha data
          ResultCode.SUCCESS v.state.clientId v.state.reqSeqNum) s ∧
          s.clientId = v.state.clientId ∧ s.reqSeqNum = v.state.reqSeqNum := by
        rcases hcast with ⟨m, rfl, hstatus, -, rfl⟩ | ⟨buffer, len, code, rfl, -, hcode⟩
        · exact ⟨HonestVotes.addSignature hhonest hballot.wellFormed
            fun hsender => hagree hsender hstatus, addSignature_request _ _ _⟩
        · obtain ⟨rfl, rfl⟩ := hagree
          rcases hcode with ⟨-, rfl⟩ | ⟨hne, -⟩
          · exact ⟨HonestVotes.addSignature (s := v.state.succeeded cfg buffer len) hhonest
              hballot.wellFormed fun _ => rfl, addSignature_request _ _ _⟩
          · exact absurd rfl hne
      obtain ⟨result, s', hdefine, hresult⟩ := hballot'.define_honest hvoted' hvotes.1 hq
      rw [hdefine, ok_bind] at hstep
      refine ⟨_, hstep, ?_⟩
      rcases hresult with rfl | ⟨rfl, ⟨agreed, rfl⟩, hquorum'⟩
      · exact .inr rfl
      · exact .inl ⟨rfl, hballot'.of_eq rfl rfl fun _ => ⟨rfl, rfl⟩, hvoted', hvotes.2.1,
          hvotes.2.2, hvotes.1, hquorum'⟩
  · exact ⟨v, step_of_decided (by rw [hcomplete]; rfl), .inr hcomplete⟩

theorem agreeing_start : Agreeing cfg N F clientId reqSeqNum faulty data
    (start clientId reqSeqNum) := by
  refine .inl ⟨rfl, Ballot.start _ _, (fun h => by cases h), rfl, rfl, ?_, ?_⟩
  · exact fun hash r _ h => absurd h (Ballot.not_reported_nil hash r)
  · exact fun S hS _ hmem => absurd (hS hmem) (notMem_empty _)

/-- **Voting.** As long as no replica reports two hashes and the primary has one result, the
counter is the number of replicas whose results were handled. If the honest replicas agree on a
successful result the request is not cancelled, and it is completed when `F + 1` honest results
are in, that of the primary among them. Without read-only replicas the request is decided when all
replicas have replied. -/
theorem voting_of_safe (cfg : PreProcessConfig) (F C numRoReplicas : ℕ)
    (hN : 3 * F + 2 * C + 1 < 2 ^ 16)
    (hnumber : cfg.numOfReplicas = 3 * F + 2 * C + 1 + numRoReplicas)
    (hrequired : cfg.numOfRequiredEqualReplies = F + 1)
    (hprimary : cfg.myReplicaId.toNat < 3 * F + 2 * C + 1) (clientId : UInt16)
    (reqSeqNum : UInt64) (events : List VotingEvent)
    (hsafe : EveryStep (step cfg) (start clientId reqSeqNum) (Safe cfg (3 * F + 2 * C + 1))
      events) :
    ∃ v, run (step cfg) (start clientId reqSeqNum) events = .ok v ∧
      v.state.numOfReceivedReplies = v.voters.card ∧
      (∀ (faulty : Finset ReplicaId) (data : List UInt8), faulty.card ≤ F →
        cfg.myReplicaId ∉ faulty →
        (∀ e ∈ events, Agree cfg clientId reqSeqNum faulty data e) →
        v.outcome ≠ some .CANCEL ∧ ∀ S ⊆ v.voters, (∀ r ∈ S, r ∉ faulty) →
          cfg.myReplicaId ∈ S → F + 1 ≤ S.card → v.outcome = some .COMPLETE) ∧
      (numRoReplicas = 0 → (∀ r : ReplicaId, r.toNat < 3 * F + 2 * C + 1 → r ∈ v.voters) →
        v.outcome = some .COMPLETE ∨ v.outcome = some .CANCEL) := by
  have hpos : 0 < cfg.numOfRequiredEqualReplies := by omega
  obtain ⟨v, hrun, hcounted⟩ := run_induction (P := fun _ v => Counted cfg (3 * F + 2 * C + 1) v)
    ⟨rfl, Or.inl ⟨rfl, Ballot.start clientId reqSeqNum, (fun h => by cases h), Or.inl (Or.inl hpos)⟩⟩
    (fun _ _ _ h hsafe => h.step hpos hN hprimary hsafe)
    hsafe
  refine ⟨v, hrun, hcounted.1, fun faulty data hF hme hagree => ?_, fun hro hall => ?_⟩
  · -- the same run again, with what the honest replicas report
    have hboth : EveryStep (step cfg) (start clientId reqSeqNum) (fun v e =>
        Safe cfg (3 * F + 2 * C + 1) v e ∧ Agree cfg clientId reqSeqNum faulty data e) events := by
      intro before e hpre v' hv'
      refine ⟨hsafe before e hpre v' hv', hagree e ?_⟩
      exact hpre.subset (List.mem_append_right _ (List.mem_singleton_self e))
    obtain ⟨v', hrun', hagreeing⟩ := run_induction
      (P := fun _ v => Agreeing cfg (3 * F + 2 * C + 1) F clientId reqSeqNum faulty data v)
      agreeing_start (fun _ _ _ h hsafe => h.step hN
        ⟨hF, hrequired, by omega, by omega, hprimary, hme⟩ hsafe.1 hsafe.2) hboth
    obtain rfl := Except.ok.inj (hrun.symm.trans hrun')
    rcases hagreeing with ⟨hnone, -, -, -, -, -, hquorum⟩ | hcomplete
    · refine ⟨by rw [hnone]; decide, fun S hS hnone' hmem hcard => ?_⟩
      have := hquorum S hS hnone' hmem
      omega
    · exact ⟨by rw [hcomplete]; decide, fun _ _ _ _ _ => hcomplete⟩
  · exact hcounted.decided hN hprimary (by omega) (by omega) hall

/-! ## A faulty replica that votes three times -/

/-- Replica `0` is the primary of four replicas; a hash is the number that the bytes stand for. -/
def fourReplicasConfig (numRoReplicas : ℕ) : PreProcessConfig where
  sha bytes := BitVec.ofNat 256 (Cmf.beNat bytes)
  myReplicaId := 0
  sign _ := [7]
  verifySig _ _ sig := sig == [7]
  numOfReplicas := 4 + numRoReplicas
  numOfRequiredEqualReplies := 2
  preExecutionResultAuthEnabled := true

def goodReply (sender : ReplicaId) (hash : Digest) : PreProcessReplyMsg where
  senderId := sender
  headerSenderId := sender
  clientId := 10
  reqOffsetInBatch := 0
  reqSeqNum := 5
  status := ReplyStatus.STATUS_GOOD
  preProcessResult := ResultCode.SUCCESS
  resultsHash := hash
  signature := [7]
  viewNum := 0
  signature_lt := by decide

/-- The result of the primary: nine bytes in a buffer of twenty. -/
def nineBytes : VotingEvent := .primaryPreProcessed (List.replicate 20 1) 9 ResultCode.SUCCESS

/-- The outcome, the counter and the number of voters after a run. -/
def tally (numRoReplicas : ℕ) (events : List VotingEvent) :
    Option (Option PreProcessingResult × ℕ × ℕ) :=
  match run (step (fourReplicasConfig numRoReplicas)) (start 10 5) events with
  | .ok v => some (v.outcome, v.state.numOfReceivedReplies, v.voters.card)
  | .error _ => none

/-- Replica `1` reports three hashes with valid signatures and cancels the request after two
replicas have voted. With a read-only replica four different votes decide nothing. -/
theorem votes_counted_twice :
    (∀ hash, (goodReply 1 hash).validate (fourReplicasConfig 0).toResultAuth = true) ∧
    (∀ e ∈ [nineBytes, .reply (goodReply 1 1), .reply (goodReply 1 2), .reply (goodReply 1 3)],
      Agree (fourReplicasConfig 0) 10 5 {1} (List.replicate 9 1) e) ∧
    tally 0 [nineBytes, .reply (goodReply 1 1), .reply (goodReply 1 2), .reply (goodReply 1 3)] =
      some (some .CANCEL, 4, 2) ∧
    tally 1 [nineBytes, .reply (goodReply 1 1), .reply (goodReply 2 2), .reply (goodReply 3 3)] =
      some (none, 4, 4) := by
  refine ⟨fun hash => rfl, ?_, by decide +kernel, by decide +kernel⟩
  have hfaulty : ∀ hash, Agree (fourReplicasConfig 0) 10 5 {1} (List.replicate 9 1)
      (.reply (goodReply 1 hash)) := fun hash hsender =>
    absurd (mem_singleton_self (1 : ReplicaId)) hsender
  intro e he
  simp only [List.mem_cons, List.not_mem_nil, or_false] at he
  rcases he with rfl | rfl | rfl | rfl
  · exact ⟨rfl, rfl⟩
  · exact hfaulty 1
  · exact hfaulty 2
  · exact hfaulty 3

/-- The hash of the result of the primary. -/
def nineBytesVote : Digest :=
  create (fourReplicasConfig 0).sha (List.replicate 9 1) ResultCode.SUCCESS 10 5

/-- The results of replica `1` and of the primary complete the request, although replica `3` reports
another one. -/
theorem completed_by_two : ∃ v, run (step (fourReplicasConfig 0)) (start 10 5)
      [.launched, .reply (goodReply 1 nineBytesVote), .reply (goodReply 3 1), nineBytes] = .ok v ∧
    v.state.numOfReceivedReplies = v.voters.card ∧ v.outcome = some .COMPLETE := by
  have hsafe : EveryStep (step (fourReplicasConfig 0)) (start 10 5) (Safe (fourReplicasConfig 0) 4)
      [.launched, .reply (goodReply 1 nineBytesVote), .reply (goodReply 3 1), nineBytes] := by
    refine .cons (fun _ hash => Ballot.not_reported_nil hash _) fun v hv => ?_
    cases hv
    refine .cons (fun _ => ⟨by decide, by decide, fun _ hash h => ?_⟩) fun v hv => ?_
    · exact absurd h (Ballot.not_reported_nil hash _)
    cases hv
    have hfirst : ∀ r ≠ 1, ∀ hash,
        ¬ (ResultHashes.emplace [] nineBytesVote ⟨[7], 1, .SUCCESS⟩).Reported hash r :=
      fun r hr hash h => ((reported_emplace wellFormed_nil).mp h).elim
        (Ballot.not_reported_nil hash r) fun h => hr h.2
    refine .cons (fun _ => ⟨by decide, by decide, fun _ hash h => ?_⟩) fun v hv => ?_
    · exact absurd h (hfirst 3 (by decide) hash)
    cases hv
    refine .cons (fun _ => ⟨fun hash h => ?_, .inl ⟨rfl, by decide, by decide⟩⟩)
      fun _ _ => everyStep_nil _ _ _
    have h : ((ResultHashes.emplace [] nineBytesVote ⟨[7], 1, .SUCCESS⟩).emplace 1
      ⟨[7], 3, .SUCCESS⟩).Reported hash 0 := h
    rcases (reported_emplace (wellFormed_nil.emplace _ _)).mp h with h | ⟨-, h⟩
    · exact hfirst 0 (by decide) hash h
    · exact absurd h (by decide)
  obtain ⟨v, hv, hcount, hhonest, -⟩ := voting_of_safe (fourReplicasConfig 0) 1 0 0 (by decide) rfl
    rfl (by decide) 10 5 _ hsafe
  refine ⟨v, hv, hcount, ?_⟩
  have hvoters : {0, 1} ⊆ v.voters := by
    rw [← Except.ok.inj hv]
    decide +kernel
  refine (hhonest {3} (List.replicate 9 1) (by decide) (by decide) ?_).2 {0, 1} hvoters
    (by simp) (by decide) (by decide)
  simp only [List.forall_mem_cons, List.not_mem_nil, false_imp_iff, implies_true, and_true]
  exact ⟨trivial, fun _ _ => rfl, fun h => absurd (mem_singleton_self _) h, rfl, rfl⟩

end Voting

end ConcordBft
