import ConcordBft.PreProcessor.ResultSignatures
import ConcordBft.Messages.Binding
import Mathlib.Data.Finset.Card

/-!
# Endorsed pre-execution results

A replica checks the signatures on every pre-executed request of a PrePrepare message, each in a
task of its own (`validatePreProcessedResults`). A task that ends with an exception leaves no
error behind, the code that is hashed is the one in front of the signatures, and the code that
counts at the execution is the one in the header of the request.

`Sound` says which requests of an accepted message were really obtained by an honest replica, and
`endorsed_iff` that there are no others.
-/

namespace ConcordBft

open Verif Verif.Exec PreProcessResultSignature ResultAuth PreProcessResultHashCreator List

/-! ## The check of a PrePrepare message -/

def MsgCode.PreProcessResult : UInt16 := 505

/-- The request as a `PreProcessResultMsg`; the signatures are its last bytes. Only a request whose
size wraps is shorter than they are. -/
def ClientRequestMsg.asPreProcessResult (req : ClientRequestMsg) : PreProcessResultMsg where
  clientProxyId := req.header.idOfClientProxy
  requestSeqNum := req.header.reqSeqNum
  result := req.header.result
  requestBuf := req.requestBuf
  resultSignatures := req.bytes.drop (req.bytes.length - req.header.extraDataLength.toNat)

/-- `errors[i]` after the task of a request: an exception is kept in the future, which is waited
for and never read. -/
def ResultAuth.taskError (auth : ResultAuth) (fVal : ℕ) (req : ClientRequestMsg) :
    Option ResultError :=
  match auth.validatePreProcessResultSignatures fVal req.asPreProcessResult with
  | .ok err => err
  | .error _ => none

def ResultAuth.validatePreProcessedResults (auth : ResultAuth) (fVal : ℕ) (msg : PrePrepareMsg) :
    Bool :=
  (msg.requests.filter fun req => req.header.msgType == MsgCode.PreProcessResult).all
    fun req => (auth.taskError fVal req).isNone

/-! ## What honest replicas obtained -/

/-- Who is faulty, and which code and data a replica obtained for a request of a client. -/
structure PreExecution where
  faulty : Finset ReplicaId
  obtained : ReplicaId → UInt16 → UInt64 → ResultCode → List UInt8 → Prop

namespace PreExecution

variable (exec : PreExecution)

/-- One of the `N` replicas that is not faulty. -/
def Honest (N : ℕ) (r : ReplicaId) : Prop := r.toNat < N ∧ r ∉ exec.faulty

/-- The code that a replica must have obtained for the request to be executed with this result. -/
def expectedCode (result : ResultCode) : ResultCode :=
  if result = ResultCode.UNKNOWN then ResultCode.SUCCESS else result

/-- An honest replica obtained what is executed: with `UNKNOWN` a success with exactly the data,
else the error. -/
def Endorsed (N : ℕ) (m : PreProcessResultMsg) : Prop :=
  ∃ r, exec.Honest N r ∧ ∃ data,
    exec.obtained r m.clientProxyId m.requestSeqNum (expectedCode m.result) data ∧
      (m.result = ResultCode.UNKNOWN → data = m.requestBuf)

/-- The assumptions about replicas, signatures and hashes for a message. -/
structure Ideal (auth : ResultAuth) (N F : ℕ) (msg : PrePrepareMsg) : Prop where
  few : exec.faulty.card ≤ F
  me : exec.Honest N auth.myReplicaId
  /-- A signature of an honest replica in the message is over an outcome that it obtained. -/
  unforged : ∀ req ∈ msg.requests, ∀ sigs,
    deserializeResultSignatures req.asPreProcessResult.resultSignatures =
      .ok sigs → ∀ sig ∈ sigs, exec.Honest N sig.sender_replica →
    ∀ hash, auth.verifies hash sig = true → ∃ clientId reqSeqNum code data,
      exec.obtained sig.sender_replica clientId reqSeqNum code data ∧
        hash = create auth.sha data code clientId reqSeqNum
  /-- What an honest replica hashed does not collide with what is hashed for the message. -/
  noCollision : ∀ r, exec.Honest N r → ∀ clientId reqSeqNum code data,
    exec.obtained r clientId reqSeqNum code data → ∀ req ∈ msg.requests, ∀ code',
    create auth.sha data code clientId reqSeqNum =
      auth.hashWith req.asPreProcessResult code' →
    hashed data code clientId reqSeqNum =
      hashed req.asPreProcessResult.requestBuf code'
        req.asPreProcessResult.clientProxyId req.asPreProcessResult.requestSeqNum

end PreExecution

/-! ## Requests whose acceptance means something -/

/-- The signatures can be read. If they are as many as required they are of replicas, or one is
of the replica that checks them, and the result in the header is the one in front of them. -/
def PreProcessResultMsg.Sound (me : ReplicaId) (N F : ℕ) (m : PreProcessResultMsg) : Prop :=
  ∃ sigs, deserializeResultSignatures m.resultSignatures = .ok sigs ∧
    (sigs.length = F + 1 →
      ((∀ sig ∈ sigs, sig.sender_replica.toNat < N) ∨ ∃ sig ∈ sigs, sig.sender_replica = me) ∧
      ∀ first, sigs.head? = some first →
        first.pre_process_result = PreExecution.expectedCode m.result)

section

variable {auth : ResultAuth} {N F : ℕ} {exec : PreExecution} {msg : PrePrepareMsg}
  {req : ClientRequestMsg}

theorem ResultAuth.taskError_eq_none {sigs : List PreProcessResultSignature}
    (hsigs : deserializeResultSignatures
      req.asPreProcessResult.resultSignatures = .ok sigs) :
    auth.taskError F req = none ↔ sigs.length = F + 1 ∧ ∃ first, sigs.head? = some first ∧
      ∀ sig ∈ sigs, auth.verifies
        (auth.hashWith req.asPreProcessResult first.pre_process_result) sig = true := by
  rw [← validates_iff hsigs]
  unfold taskError
  rcases hcheck : auth.validatePreProcessResultSignatures F req.asPreProcessResult with e | err
  · -- the check of signatures that can be read does not throw
    refine absurd hcheck ?_
    unfold validatePreProcessResultSignatures
    rw [hsigs, ok_bind]
    split_ifs with hcount
    · simp [pure_eq_ok]
    · rcases sigs with _ | ⟨first, rest⟩
      · exact absurd hcount (by simp)
      · dsimp only
        split <;> simp [pure_eq_ok]
  · dsimp only
    rw [Except.ok.injEq]

/-- Among the signers that the check counts there is an honest replica. -/
theorem PreExecution.exists_honest_signer (hideal : exec.Ideal auth N F msg)
    {sigs : List PreProcessResultSignature} (hordered : PreProcessResultSignature.Ordered sigs)
    (hcount : sigs.length = F + 1)
    (hsenders : (∀ sig ∈ sigs, sig.sender_replica.toNat < N) ∨
      ∃ sig ∈ sigs, sig.sender_replica = auth.myReplicaId) :
    ∃ sig ∈ sigs, exec.Honest N sig.sender_replica := by
  rcases hsenders with hreplicas | ⟨sig, hsig, hme⟩
  · by_contra hnone
    push Not at hnone
    have hsub : (sigs.map sender_replica).toFinset ⊆ exec.faulty := by
      intro r hr
      obtain ⟨sig, hsig, rfl⟩ := mem_map.mp (mem_toFinset.mp hr)
      by_contra hr
      exact hnone sig hsig ⟨hreplicas sig hsig, hr⟩
    have hcard := (Finset.card_le_card hsub).trans hideal.few
    rw [toFinset_card_of_nodup (nodup_senders hordered), length_map, hcount] at hcard
    exact Nat.not_succ_le_self F hcard
  · exact ⟨sig, hsig, hme ▸ hideal.me⟩

theorem PreExecution.endorsed_of_sound (hideal : exec.Ideal auth N F msg)
    (hreq : req ∈ msg.requests) (htype : req.header.msgType = MsgCode.PreProcessResult)
    (hsound : req.asPreProcessResult.Sound auth.myReplicaId N F)
    (hvalid : auth.validatePreProcessedResults F msg = true) :
    exec.Endorsed N req.asPreProcessResult := by
  obtain ⟨sigs, hsigs, hcond⟩ := hsound
  have hnone := all_eq_true.mp hvalid req (mem_filter.mpr ⟨hreq, beq_iff_eq.mpr htype⟩)
  obtain ⟨hcount, first, hfirst, hverified⟩ := (taskError_eq_none hsigs).mp
    (Option.isNone_iff_eq_none.mp hnone)
  obtain ⟨hsenders, hcode⟩ := hcond hcount
  obtain ⟨sig, hsig, hhonest⟩ := exists_honest_signer hideal
    (ordered_of_deserialize hsigs) hcount hsenders
  obtain ⟨clientId, reqSeqNum, code, data, hobtained, hhash⟩ :=
    hideal.unforged req hreq sigs hsigs sig hsig hhonest _ (hverified sig hsig)
  -- the honest replica hashed what the check hashes
  obtain ⟨⟨rfl, hdata⟩, rfl, rfl⟩ := hashed_inj
    (hideal.noCollision _ hhonest _ _ _ _ hobtained req hreq _ hhash.symm)
  rw [hcode first hfirst] at hobtained hdata
  refine ⟨sig.sender_replica, hhonest, data, hobtained, fun hunknown => hdata ?_⟩
  exact if_pos hunknown

/-! ## Accepted requests that no honest replica obtained -/

def PrePrepareMsg.only (msg : PrePrepareMsg) (req : ClientRequestMsg) (h : req ∈ msg.requests) :
    PrePrepareMsg :=
  { msg with
    requests := [req]
    trailing := req.beyond
    laidOut := ⟨rfl, trivial⟩
    numberOfRequests_lt := length_singleton_lt req
    size_lt := by
      have hle := msg.laidOut.size_add_le h
      have hsize := msg.size_lt
      rw [map_singleton, sum_singleton]
      omega }

theorem ResultAuth.validates_only (hreq : req ∈ msg.requests)
    (herror : auth.taskError F req = none) :
    auth.validatePreProcessedResults F (msg.only req hreq) = true := by
  unfold validatePreProcessedResults
  rw [all_eq_true]
  intro req' hreq'
  obtain rfl := mem_singleton.mp (mem_of_mem_filter hreq')
  rw [herror]
  rfl

end

/-- Every check of a signature succeeds. -/
def ResultAuth.trusting (me : ReplicaId) : ResultAuth where
  sha _ := 0
  myReplicaId := me
  sign _ := []
  verifySig _ _ _ := true

/-- The signatures that are given are over the hash `1` of `text`, that of replica `me` included. -/
def ResultAuth.overText (me : ReplicaId) (text own : List UInt8) : ResultAuth where
  sha bytes := if bytes = text then 1 else 0
  myReplicaId := me
  sign hash := if hash = 1 then own else 0 :: own
  verifySig _ hash _ := hash == 1

section

variable {me : ReplicaId} {N F : ℕ} {msg : PrePrepareMsg} {req : ClientRequestMsg}

/-- In every ideal situation in which a message with the request is accepted, the request is
endorsed. -/
def ClientRequestMsg.AlwaysEndorsed (me : ReplicaId) (N F : ℕ) (req : ClientRequestMsg) : Prop :=
  ∀ (auth : ResultAuth) (exec : PreExecution) (msg : PrePrepareMsg), auth.myReplicaId = me →
    req ∈ msg.requests → exec.Ideal auth N F msg →
    auth.validatePreProcessedResults F msg = true → exec.Endorsed N req.asPreProcessResult

/-- An exception is as good as a valid check. -/
theorem ClientRequestMsg.AlwaysEndorsed.readable (h : req.AlwaysEndorsed me N F)
    (hme : me.toNat < N) (hreq : req ∈ msg.requests) :
    ∃ sigs, deserializeResultSignatures
      req.asPreProcessResult.resultSignatures = .ok sigs := by
  rcases hsigs : deserializeResultSignatures
    req.asPreProcessResult.resultSignatures with e | sigs
  · have herror : (trusting me).taskError F req = none := by
      unfold taskError validatePreProcessResultSignatures
      rw [hsigs]
      rfl
    have hideal : (⟨∅, fun _ _ _ _ _ => False⟩ : PreExecution).Ideal (trusting me) N F
        (msg.only req hreq) :=
      { few := Nat.zero_le F
        me := ⟨hme, Finset.notMem_empty me⟩
        unforged := by
          intro req' hreq' sigs hsigs'
          obtain rfl := mem_singleton.mp hreq'
          rw [hsigs] at hsigs'
          cases hsigs'
        noCollision := fun _ _ _ _ _ _ hobtained => hobtained.elim }
    obtain ⟨_, _, _, hobtained, _⟩ := h _ _ _ rfl (mem_singleton_self req) hideal
      (validates_only hreq herror)
    exact hobtained.elim
  · exact ⟨sigs, rfl⟩

variable {sigs : List PreProcessResultSignature}

/-- All replicas among the signers may be faulty if one signer is no replica. -/
theorem ClientRequestMsg.AlwaysEndorsed.senders (h : req.AlwaysEndorsed me N F)
    (hme : me.toNat < N) (hreq : req ∈ msg.requests)
    (hsigs : deserializeResultSignatures
      req.asPreProcessResult.resultSignatures = .ok sigs) (hcount : sigs.length = F + 1) :
    (∀ sig ∈ sigs, sig.sender_replica.toNat < N) ∨ ∃ sig ∈ sigs, sig.sender_replica = me := by
  by_contra hnot
  push Not at hnot
  obtain ⟨⟨sig₀, hsig₀, hclient⟩, hothers⟩ := hnot
  let senders := (sigs.map sender_replica).toFinset
  have hmem : ∀ sig ∈ sigs, sig.sender_replica ∈ senders := fun sig hsig =>
    mem_toFinset.mpr (mem_map_of_mem hsig)
  have hcard : (senders.erase sig₀.sender_replica).card ≤ F := by
    have hle : senders.card ≤ F + 1 := by
      rw [← hcount, ← length_map sender_replica]
      exact toFinset_card_le _
    rw [Finset.card_erase_of_mem (hmem sig₀ hsig₀)]
    omega
  have hideal : (⟨senders.erase sig₀.sender_replica, fun _ _ _ _ _ => False⟩ :
      PreExecution).Ideal (trusting me) N F (msg.only req hreq) :=
    { few := hcard
      me := by
        refine ⟨hme, fun hfaulty => ?_⟩
        obtain ⟨sig, hsig, hsender⟩ :=
          mem_map.mp (mem_toFinset.mp (Finset.mem_of_mem_erase hfaulty))
        exact hothers sig hsig hsender
      unforged := by
        intro req' hreq' sigs' hsigs' sig hsig hhonest
        obtain rfl := mem_singleton.mp hreq'
        obtain rfl := Except.ok.inj (hsigs.symm.trans hsigs')
        -- a signer that is a replica is faulty
        refine absurd (Finset.mem_erase.mpr ⟨fun heq => ?_, hmem sig hsig⟩) hhonest.2
        rw [← heq] at hclient
        exact Nat.not_lt_of_le hclient hhonest.1
      noCollision := fun _ _ _ _ _ _ hobtained => hobtained.elim }
  have herror : (trusting me).taskError F req = none := by
    obtain ⟨first, hfirst⟩ : ∃ first, sigs.head? = some first := by
      rcases sigs with _ | ⟨first, rest⟩
      · cases hsig₀
      · exact ⟨first, rfl⟩
    refine (taskError_eq_none hsigs).mpr ⟨hcount, first, hfirst, fun sig hsig => ?_⟩
    unfold verifies
    exact (if_neg fun heq => hothers sig hsig heq.symm).trans rfl
  obtain ⟨_, _, _, hobtained, _⟩ := h _ _ _ rfl (mem_singleton_self req) hideal
    (validates_only hreq herror)
  exact hobtained.elim

theorem PreProcessResultSignature.Ordered.exists_own
    (h : PreProcessResultSignature.Ordered sigs) (me : ReplicaId) :
    ∃ own, ∀ sig ∈ sigs, sig.sender_replica = me → sig.signature = own := by
  by_cases hmem : ∃ sig ∈ sigs, sig.sender_replica = me
  · obtain ⟨sig₀, hsig₀, rfl⟩ := hmem
    refine ⟨sig₀.signature, fun sig hsig hsender => ?_⟩
    rw [inj_on_of_nodup_map (nodup_senders h) hsig hsig₀ hsender]
  · exact ⟨[], fun sig hsig hsender => absurd ⟨sig, hsig, hsender⟩ hmem⟩

theorem ResultAuth.verifies_overText {text own : List UInt8} {hash : Digest}
    {sig : PreProcessResultSignature} (hown : sig.sender_replica = me → sig.signature = own) :
    (overText me text own).verifies hash sig = true ↔ hash = 1 := by
  unfold verifies overText
  dsimp only
  split_ifs with hme hone
  · rw [hown hme.symm]
    exact iff_of_true (beq_self_eq_true own) hone
  · rw [hown hme.symm]
    refine iff_of_false (fun heq => ?_) hone
    exact cons_ne_self 0 own (beq_iff_eq.mp heq)
  · exact beq_iff_eq

/-- All replicas may have signed the outcome with the code in front of the signatures. -/
theorem ClientRequestMsg.AlwaysEndorsed.code (h : req.AlwaysEndorsed me N F)
    (hme : me.toNat < N) (hreq : req ∈ msg.requests)
    (hsigs : deserializeResultSignatures
      req.asPreProcessResult.resultSignatures = .ok sigs) (hcount : sigs.length = F + 1)
    {first : PreProcessResultSignature} (hfirst : sigs.head? = some first) :
    first.pre_process_result = PreExecution.expectedCode req.asPreProcessResult.result := by
  obtain ⟨own, hown⟩ :=
    (ordered_of_deserialize hsigs).exists_own me
  let m := req.asPreProcessResult
  let text := hashed m.requestBuf first.pre_process_result
    m.clientProxyId m.requestSeqNum
  have hhash : ∀ bytes, (overText me text own).sha bytes = 1 ↔ bytes = text := by
    intro bytes
    unfold overText
    dsimp only
    split_ifs with heq
    · exact iff_of_true rfl heq
    · exact iff_of_false (by decide) heq
  let exec : PreExecution := ⟨∅, fun _ clientId reqSeqNum code data =>
    clientId = m.clientProxyId ∧ reqSeqNum = m.requestSeqNum ∧
      code = first.pre_process_result ∧ data = m.requestBuf⟩
  have hideal : exec.Ideal (overText me text own) N F (msg.only req hreq) :=
    { few := Nat.zero_le F
      me := ⟨hme, Finset.notMem_empty me⟩
      unforged := by
        intro req' hreq' sigs' hsigs' sig hsig _ hash hverified
        obtain rfl := mem_singleton.mp hreq'
        obtain rfl := Except.ok.inj (hsigs.symm.trans hsigs')
        refine ⟨_, _, _, _, ⟨rfl, rfl, rfl, rfl⟩, ?_⟩
        rw [(verifies_overText (hown sig hsig)).mp hverified]
        exact ((hhash text).mpr rfl).symm
      noCollision := by
        rintro r - clientId reqSeqNum code data ⟨rfl, rfl, rfl, rfl⟩ req' - code' heq
        exact ((hhash _).mp (heq.symm.trans ((hhash text).mpr rfl))).symm }
  have herror : (overText me text own).taskError F req = none := by
    refine (taskError_eq_none hsigs).mpr ⟨hcount, first, hfirst, fun sig hsig => ?_⟩
    exact (verifies_overText (hown sig hsig)).mpr ((hhash text).mpr rfl)
  obtain ⟨_, _, _, hobtained, _⟩ := h _ _ _ rfl (mem_singleton_self req) hideal
    (validates_only hreq herror)
  exact hobtained.2.2.1.symm

/-- **Endorsement.** Whenever a replica accepts a message with the request, an honest replica
obtained exactly the outcome that is executed, if and only if the request is sound. -/
theorem endorsed_iff (me : ReplicaId) (N F : ℕ) (hme : me.toNat < N) (msg : PrePrepareMsg)
    (req : ClientRequestMsg) (hreq : req ∈ msg.requests)
    (htype : req.header.msgType = MsgCode.PreProcessResult ∧
      req.header.extraDataLength.toNat ≤ req.size) :
    req.asPreProcessResult.Sound me N F ↔
      ∀ (auth : ResultAuth) (exec : PreExecution) (msg : PrePrepareMsg), auth.myReplicaId = me →
        req ∈ msg.requests → exec.Ideal auth N F msg →
        auth.validatePreProcessedResults F msg = true →
        exec.Endorsed N req.asPreProcessResult := by
  constructor
  · rintro hsound auth exec msg rfl hreq hideal hvalid
    exact PreExecution.endorsed_of_sound hideal hreq htype.1 hsound hvalid
  · intro (h : req.AlwaysEndorsed me N F)
    obtain ⟨sigs, hsigs⟩ := h.readable hme hreq
    exact ⟨sigs, hsigs, fun hcount => ⟨h.senders hme hreq hsigs hcount,
      fun first hfirst => h.code hme hreq hsigs hcount hfirst⟩⟩

end

/-! ## Pre-executed requests of client 10 -/

def singleRequestMessage (req : ClientRequestMsg) (hsize : req.size + req.beyond.length < 2 ^ 31) :
    PrePrepareMsg where
  senderId := 1
  viewNum := 0
  seqNum := 1
  epochNum := 0
  flags := 3
  time := 1
  digestOfRequests := PrePrepareMsg.firstBytes.compute [7]
  spanContext := []
  batchCid := []
  requests := [req]
  trailing := req.beyond
  laidOut := ⟨rfl, trivial⟩
  numberOfRequests_lt := PrePrepareMsg.length_singleton_lt req
  size_lt := by
    rw [map_singleton, sum_singleton, length_nil]
    omega

/-- A result `[7]` without any signature. -/
def unsignedResult : ClientRequestMsg where
  bytes := [0xF9, 1, 0, 0, 0, 0, 10, 0, 4, 0, 0, 0, 0, 0, 0, 0, 1, 0, 0, 0, 5, 0, 0, 0, 0, 0, 0, 0,
    1, 0, 0, 0, 0, 0, 0, 0, 0, 0, 0, 0, 0, 0, 0, 0, 0, 0, 0, 0, 0, 0, 0, 0, 7]
  beyond := []
  size_eq := by decide

/-- A result `[7]` with signatures of replica `0` and of `second` on a success. -/
def signedBytes (result second : UInt8) : List UInt8 :=
  [0xF9, 1, 0, 0, 0, 0, 10, 0, 4, 0, 0, 0, 0, 0, 0, 0, result, 0, 0, 0, 5, 0, 0, 0, 0, 0, 0, 0,
    1, 0, 0, 0, 0, 0, 0, 0, 0, 0, 0, 0, 0, 0, 0, 0, 0, 0, 22, 0, 0, 0, 0, 0, 7,
    0, 0, 0, 0, 0, 0, 0, 0, 0, 1, 9, 0, second, 0, 0, 0, 0, 0, 0, 0, 1, 9]

def signedResult : ClientRequestMsg := ⟨signedBytes 1 1, [], by decide⟩

def relabelledResult : ClientRequestMsg := ⟨signedBytes 3 1, [], by decide⟩

def clientSignedResult : ClientRequestMsg := ⟨signedBytes 1 12, [], by decide⟩

def successSignatures (second : ReplicaId) : List PreProcessResultSignature :=
  [⟨[9], 0, ResultCode.SUCCESS⟩, ⟨[9], second, ResultCode.SUCCESS⟩]

/-- A request without signatures is accepted by every replica. Two valid signatures on a success
are accepted for a request whose header says that an error was obtained, and the signature of a
client counts as one of a replica. -/
theorem accepted_not_endorsed : (∀ auth : ResultAuth, auth.validatePreProcessedResults 1
      (singleRequestMessage unsignedResult (by decide)) = true) ∧
    ¬ unsignedResult.AlwaysEndorsed 3 4 1 ∧ ¬ relabelledResult.AlwaysEndorsed 3 4 1 ∧
    ¬ clientSignedResult.AlwaysEndorsed 3 4 1 := by
  have hmem : ∀ req hsize, req ∈ (singleRequestMessage req hsize).requests :=
    fun req _ => mem_singleton_self req
  have hunsigned : deserializeResultSignatures
      unsignedResult.asPreProcessResult.resultSignatures = .error .exception := by
    decide +kernel
  have hrelabelled : deserializeResultSignatures
      relabelledResult.asPreProcessResult.resultSignatures = .ok (successSignatures 1) := by
    decide +kernel
  have hclient : deserializeResultSignatures
      clientSignedResult.asPreProcessResult.resultSignatures = .ok (successSignatures 12) := by
    decide +kernel
  refine ⟨fun auth => ?_, fun h => ?_, fun h => ?_, fun h => ?_⟩
  · have herror : auth.taskError 1 unsignedResult = none := by
      unfold taskError validatePreProcessResultSignatures
      rw [hunsigned]
      rfl
    unfold validatePreProcessedResults
    rw [all_eq_true]
    intro req hreq
    rw [mem_singleton.mp (mem_of_mem_filter hreq), herror]
    rfl
  · obtain ⟨sigs, hsigs⟩ := h.readable (by decide) (hmem unsignedResult (by decide))
    rw [hunsigned] at hsigs
    cases hsigs
  · have hcode := h.code (by decide) (hmem relabelledResult (by decide)) hrelabelled rfl rfl
    revert hcode
    decide +kernel
  · have hsenders := h.senders (by decide) (hmem clientSignedResult (by decide)) hclient rfl
    revert hsenders
    decide

theorem endorsed_signedResult : signedResult.asPreProcessResult.Sound 3 4 1 ∧
    ∀ (auth : ResultAuth) (exec : PreExecution) (msg : PrePrepareMsg), auth.myReplicaId = 3 →
      signedResult ∈ msg.requests → exec.Ideal auth 4 1 msg →
      auth.validatePreProcessedResults 1 msg = true →
      exec.Endorsed 4 signedResult.asPreProcessResult := by
  have hsigs : deserializeResultSignatures
      signedResult.asPreProcessResult.resultSignatures = .ok (successSignatures 1) := by
    decide +kernel
  have hsound : signedResult.asPreProcessResult.Sound 3 4 1 := by
    refine ⟨_, hsigs, fun _ => ⟨Or.inl (by decide), fun first hfirst => ?_⟩⟩
    rw [← Option.some.inj hfirst]
    decide +kernel
  exact ⟨hsound, (endorsed_iff 3 4 1 (by decide) (singleRequestMessage signedResult (by decide))
    signedResult (mem_singleton_self _) (by decide)).mp hsound⟩

end ConcordBft
