import ConcordBft.Messages.PrePrepare

/-!
# What the digest of a PrePrepare message binds

A request enters the digest with its signature if it carries one, and with the digest of its bytes
otherwise. A request of a replica with `INTERNAL_FLAG` may carry anything as its signature, so it
can stand in for any other request (`standIn`): no accepted message is bound by its digest, because
the message made of such requests is accepted with the same digest (`digest_binding`).
-/

namespace ConcordBft

open List ClientRequestMsg ClientRequestMsgHeader

/-! ## A request that contributes given bytes -/

/-- The header of a request of replica `0` with `INTERNAL_FLAG`, sequence number `x` and a signature
of `n` bytes. -/
def internalHeader (x : UInt8) (n : ℕ) : List UInt8 :=
  [0, 0, 0, 0, 0, 0, 0, 0, 0x40, 0, 0, 0, 0, 0, 0, 0, 0, 0, 0, 0, x, 0, 0, 0, 0, 0, 0, 0, 0, 0, 0, 0,
    0, 0, 0, 0, 0, 0, 0, 0, 0, 0, 0, 0, UInt8.ofNat (n % 256), UInt8.ofNat (n / 256),
    0, 0, 0, 0, 0, 0]

theorem leNat_signatureLength {n : ℕ} (h : n < 2 ^ 16) :
    leNat [UInt8.ofNat (n % 256), UInt8.ofNat (n / 256)] = n := by
  simp only [leNat, UInt8.toNat_ofNat']
  omega

theorem read_internalHeader (x : UInt8) {n : ℕ} (h : n < 2 ^ 16) (rest : List UInt8) :
    read (internalHeader x n ++ rest) =
      ⟨0, 0, 0, 0x40, 0, UInt64.ofNat x.toNat, 0, 0, 0, UInt16.ofNat n, 0, 0⟩ := by
  have hlen := leNat_signatureLength h
  unfold ClientRequestMsgHeader.read internalHeader
  simp only [cons_append, nil_append, drop_succ_cons, drop_zero, take_succ_cons, take_zero, hlen]
  simp [leNat]

def internalRequest (x : UInt8) (sig : List UInt8) (h : sig.length < 2 ^ 16)
    (beyond : List UInt8) : ClientRequestMsg where
  bytes := internalHeader x sig.length ++ sig
  beyond := beyond
  size_eq := by
    rw [append_assoc, read_internalHeader x h, compRequestMsgSize, length_append,
      UInt16.toNat_ofNat', Nat.mod_eq_of_lt h]
    exact (Nat.mod_eq_of_lt (show 52 + sig.length < 2 ^ 32 by omega)).symm

section Internal

variable {x : UInt8} {sig : List UInt8} (h : sig.length < 2 ^ 16) (beyond : List UInt8)

include h

theorem header_internalRequest : (internalRequest x sig h beyond).header =
    ⟨0, 0, 0, 0x40, 0, UInt64.ofNat x.toNat, 0, 0, 0, UInt16.ofNat sig.length, 0, 0⟩ := by
  unfold header memory internalRequest
  rw [append_assoc, read_internalHeader x h]

theorem size_internalRequest : (internalRequest x sig h beyond).size = 52 + sig.length :=
  length_append

theorem requestSignature_internalRequest (hpos : 0 < sig.length) :
    (internalRequest x sig h beyond).requestSignature = some sig := by
  have hne : UInt16.ofNat sig.length ≠ 0 := by
    intro heq
    have := congrArg UInt16.toNat heq
    rw [UInt16.toNat_ofNat', Nat.mod_eq_of_lt h] at this
    simp only [UInt16.toNat_zero] at this
    omega
  unfold requestSignature signatureLocation
  rw [header_internalRequest h]
  simp only [hne, if_false, UInt16.toNat_ofNat', Nat.mod_eq_of_lt h]
  show some (List.take sig.length (sig ++ beyond)) = some sig
  rw [take_left]

theorem signatureInside_internalRequest :
    (internalRequest x sig h beyond).signatureInside = true := by
  unfold signatureInside signatureLocation
  rw [header_internalRequest h]
  refine (Bool.or_eq_true _ _).mpr (.inr (decide_eq_true ?_))
  rw [UInt16.toNat_ofNat', Nat.mod_eq_of_lt h, memory, length_append]
  exact Nat.le_trans (Nat.le_of_eq (size_internalRequest h beyond).symm) (Nat.le_add_right _ _)

theorem validateImp_internalRequest {info : PrincipalsInfo} {sigs : SigManager}
    (hreplica : info.isIdOfReplica 0 = true) :
    (internalRequest x sig h beyond).validateImp info sigs = .ok () := by
  have hflag : (internalRequest x sig h beyond).isInternal = true := by
    unfold isInternal
    rw [header_internalRequest h]
    show (MsgFlag.has 0x40 MsgFlag.RECONFIG_FLAG || MsgFlag.has 0x40 MsgFlag.INTERNAL_FLAG) = true
    decide
  unfold validateImp validateFrom
  rw [hflag, size_internalRequest h, header_internalRequest h]
  have hsize : ¬ 52 + sig.length < 52 := by omega
  simp only [UInt16.toNat_ofNat', Nat.mod_eq_of_lt h, hreplica]
  simp [hsize]
  rfl

end Internal

/-! ## A request in another place -/

namespace ClientRequestMsg

theorem read_append {bytes : List UInt8} (h : 52 ≤ bytes.length) (rest : List UInt8) :
    read (bytes ++ rest) = read bytes := by
  have hfield : ∀ k n, k + n ≤ 52 → ((bytes ++ rest).drop k).take n = (bytes.drop k).take n := by
    intro k n hkn
    rw [drop_append_of_le_length (by omega), take_append_of_le_length (by rw [length_drop]; omega)]
  have hfirst := hfield 0 2 (by decide)
  simp only [drop_zero] at hfirst
  simp only [ClientRequestMsgHeader.read, hfirst, hfield, Nat.reduceAdd, Nat.reduceLeDiff]

variable (req : ClientRequestMsg)

theorem requestSignature_eq_none :
    req.requestSignature = none ↔ req.header.reqSignatureLength = 0 := by
  unfold requestSignature
  split_ifs with h <;> simp [h]

/-- A signature that is verified has the length of its client's key. -/
theorem expectedSignature_length {info : PrincipalsInfo} {sigs : SigManager} {n : UInt16}
    (h : req.expectedSignature info sigs = .ok (n, true)) : n ≠ 0 := by
  unfold expectedSignature at h
  dsimp only at h
  split_ifs at h with _ _ _ _ hlen
  all_goals simp only [Except.ok.injEq, Prod.mk.injEq, reduceCtorEq, and_false] at h
  exact h.1 ▸ hlen

variable (h : 52 ≤ req.size) (beyond : List UInt8)

def moved : ClientRequestMsg where
  bytes := req.bytes
  beyond := beyond
  size_eq := by
    rw [read_append h, req.size_eq, read_append h]

include h

theorem header_moved : (req.moved h beyond).header = req.header :=
  (read_append h beyond).trans (read_append h req.beyond).symm

theorem validateImp_moved (hsig : req.requestSignature = none) {info : PrincipalsInfo}
    {sigs : SigManager} (hok : req.validateImp info sigs = .ok ()) :
    (req.moved h beyond).validateImp info sigs = .ok () := by
  have hheader := req.header_moved h beyond
  have hexp : (req.moved h beyond).expectedSignature info sigs =
      req.expectedSignature info sigs := by
    unfold expectedSignature
    rw [hheader]
  have hint : (req.moved h beyond).isInternal = req.isInternal := by
    unfold isInternal
    rw [hheader]
  have hsize : (req.moved h beyond).size = req.size := rfl
  unfold validateImp validateFrom at hok ⊢
  rw [hheader, hexp, hint, hsize]
  rcases he : req.expectedSignature info sigs with e | ⟨n, verify⟩
  · rw [he] at hok
    exact hok
  cases verify with
  | false =>
    rw [he] at hok
    exact hok
  | true =>
    have hn := req.expectedSignature_length he
    have hzero := req.requestSignature_eq_none.mp hsig
    have hbind : ∀ f : UInt16 × Bool → Except RequestError Unit,
      (.ok (n, true) >>= f) = f (n, true) := fun _ => rfl
    have hthrow : ∀ f : PUnit → Except RequestError Unit,
      (throw .unexpectedSignatureLength >>= f) = .error .unexpectedSignatureLength := fun _ => rfl
    rw [he] at hok
    simp only [hbind, hzero, ne_eq, hn, not_false_eq_true, if_true, hthrow] at hok ⊢
    exact hok

end ClientRequestMsg

namespace PrePrepareMsg

/-! ## Acceptance -/

variable {gen : DigestGenerator} {info : PrincipalsInfo} {sigs : SigManager}

def Accepted (gen : DigestGenerator) (info : PrincipalsInfo) (sigs : SigManager)
    (m : PrePrepareMsg) : Prop :=
  m.validate gen info sigs = .ok ()

variable {requests : List ClientRequestMsg} {m : PrePrepareMsg}

theorem validateRequests_eq_ok : validateRequests info sigs requests = .ok () ↔
      ∀ req ∈ requests, req.validateImp info sigs = .ok () := by
  induction requests with
  | nil => simp [validateRequests]
  | cons req requests ih =>
    unfold validateRequests
    rcases hreq : req.validateImp info sigs with e | ⟨⟩
    · simp [hreq]
    · simp [hreq, ih]

/-- What an accepted message knows of each request. -/
def Good (info : PrincipalsInfo) (sigs : SigManager) (req : ClientRequestMsg) : Prop :=
  req.signatureInside = true ∧ req.validateImp info sigs = .ok ()

theorem accepted_iff (hsign : sigs.isClientTransactionSigningEnabled = true) :
    m.Accepted gen info sigs ↔ m.senderId ≠ info.myId ∧ info.isIdOfReplica m.senderId = true ∧
      m.epochNum = info.selfEpochNumber ∧ m.advanced info = true ∧
      m.calculateDigestOfRequests gen = m.digestOfRequests ∧
      ∀ req ∈ m.requests, Good info sigs req := by
  have hsize : ¬ m.size < 86 + m.spanContext.length := by
    unfold size endLocationOfLastRequest payloadShift
    omega
  have hgood : (∀ req ∈ m.requests, Good info sigs req) ↔
      m.requests.all signatureInside = true ∧ validateRequests info sigs m.requests = .ok () := by
    rw [validateRequests_eq_ok, all_eq_true]
    exact forall₂_and
  rw [hgood]
  unfold Accepted validate
  simp only [hsize, false_or, if_pos hsign]
  split_ifs with hsender hheader hadv hinside hdigest
  · simp [hsender]
  · rcases hheader with h | h <;> simp [h]
  · simp [hadv]
  · simp [hinside]
  · simp [hdigest]
  · simp_all

/-! ## What a request contributes -/

theorem size_ge {req : ClientRequestMsg} (h : Good info sigs req) :
    52 + req.header.reqSignatureLength.toNat ≤ req.size := by
  have hok := h.2
  unfold validateImp validateFrom at hok
  by_contra hlt
  have hmin : req.size < 52 + req.header.cidLength.toNat + req.header.spanContextSize.toNat +
      req.header.reqSignatureLength.toNat := by omega
  by_cases hspan : req.size < 52 + req.header.spanContextSize.toNat
  · rw [if_pos hspan] at hok
    cases hok
  by_cases hmine : (!req.isInternal && req.header.idOfClientProxy == info.myId) = true
  · rw [if_neg hspan, if_pos hmine] at hok
    cases hok
  · rw [if_neg hspan, if_neg hmine, if_pos hmin] at hok
    cases hok

variable (gen) (req : ClientRequestMsg)

theorem length_block_lt : (sigOrDigestOfRequest gen req).length < 2 ^ 16 := by
  unfold sigOrDigestOfRequest requestSignature
  split_ifs
  · simp only [gen.length_compute]
    decide
  · have := req.header.reqSignatureLength.toNat_lt
    simp only [length_take]
    omega

/-- The request of replica `0` that contributes the same bytes as `req`. -/
def standIn (beyond : List UInt8) : ClientRequestMsg :=
  internalRequest (if req.header.reqSeqNum = 0 then 1 else 0) (sigOrDigestOfRequest gen req)
    (length_block_lt gen req) beyond

variable {req}

theorem length_block (h : Good info sigs req) :
    (sigOrDigestOfRequest gen req).length =
      if req.requestSignature = none then 32 else req.header.reqSignatureLength.toNat := by
  have hinside := h.1
  unfold signatureInside at hinside
  unfold sigOrDigestOfRequest requestSignature
  split_ifs with hzero hsome hnone
  · exact gen.length_compute _
  · exact absurd rfl hsome
  · cases hnone
  · simp only [hzero, decide_false, Bool.false_or, decide_eq_true_eq] at hinside
    rw [length_take, length_drop]
    omega

theorem sigOrDigestOfRequest_standIn (h : Good info sigs req) (beyond : List UInt8) :
    sigOrDigestOfRequest gen (standIn gen req beyond) = sigOrDigestOfRequest gen req := by
  have hpos : 0 < (sigOrDigestOfRequest gen req).length := by
    rw [length_block gen h]
    split_ifs with hsig
    · decide
    · rw [requestSignature_eq_none] at hsig
      exact Nat.pos_of_ne_zero fun heq => hsig (UInt16.toNat_inj.mp heq)
  conv_lhs => unfold sigOrDigestOfRequest standIn
  rw [requestSignature_internalRequest _ _ hpos]

theorem reqSeqNum_standIn (beyond : List UInt8) :
    (standIn gen req beyond).header.reqSeqNum ≠ req.header.reqSeqNum := by
  unfold standIn
  rw [header_internalRequest]
  split_ifs with hzero
  · rw [hzero]
    show UInt64.ofNat (UInt8.toNat 1) ≠ 0
    decide
  · exact fun heq => hzero heq.symm

/-! ## Replacing requests -/

/-- The stand-in of a request, in front of other bytes. Unless all are to be replaced, a request that
is shorter than its stand-in stays. -/
def replaceRequest (all : Bool) (req : ClientRequestMsg) (beyond : List UInt8) : ClientRequestMsg :=
  if h : all = false ∧ req.requestSignature = none ∧ req.size < 84 ∧ 52 ≤ req.size then
    req.moved h.2.2.2 beyond
  else standIn gen req beyond

def replaceRequests (all : Bool) : List ClientRequestMsg → List ClientRequestMsg
  | [] => []
  | req :: requests =>
    let rest := replaceRequests all requests
    replaceRequest gen all req (rest.flatMap bytes) :: rest

theorem sigOrDigestOfRequest_replaceRequest (h : Good info sigs req) (all : Bool)
    (beyond : List UInt8) :
    sigOrDigestOfRequest gen (replaceRequest gen all req beyond) = sigOrDigestOfRequest gen req := by
  unfold replaceRequest
  split_ifs with hstays
  · have hsig : (req.moved hstays.2.2.2 beyond).requestSignature = none := by
      rw [requestSignature_eq_none, header_moved, ← requestSignature_eq_none]
      exact hstays.2.1
    unfold sigOrDigestOfRequest
    rw [hsig, hstays.2.1]
    rfl
  · exact sigOrDigestOfRequest_standIn gen h beyond

theorem good_replaceRequest (h : Good info sigs req) (hzero : info.isIdOfReplica 0 = true)
    (all : Bool) (beyond : List UInt8) : Good info sigs (replaceRequest gen all req beyond) := by
  unfold replaceRequest
  split_ifs with hstays
  · refine ⟨?_, req.validateImp_moved hstays.2.2.2 beyond hstays.2.1 h.2⟩
    unfold signatureInside
    rw [header_moved, req.requestSignature_eq_none.mp hstays.2.1]
    rfl
  · exact ⟨signatureInside_internalRequest _ _, validateImp_internalRequest _ _ hzero⟩

theorem size_replaceRequest (h : Good info sigs req) (all : Bool) (beyond : List UInt8) :
    52 ≤ (replaceRequest gen all req beyond).size ∧
      (replaceRequest gen all req beyond).size ≤ max 84 req.size ∧
      (all = false → (replaceRequest gen all req beyond).size ≤ req.size) := by
  have hge := size_ge h
  have hlen := length_block gen h
  have hstand : (standIn gen req beyond).size = 52 + (sigOrDigestOfRequest gen req).length :=
    size_internalRequest _ _
  unfold replaceRequest
  by_cases hstays : all = false ∧ req.requestSignature = none ∧ req.size < 84 ∧ 52 ≤ req.size
  · rw [dif_pos hstays]
    exact ⟨hstays.2.2.2, Nat.le_max_right .., fun _ => Nat.le_refl _⟩
  · rw [dif_neg hstays, hstand, hlen]
    grind

section Lists

variable (all : Bool)

theorem laidOut_replaceRequests (requests : List ClientRequestMsg) :
    LaidOut [] (replaceRequests gen all requests) := by
  induction requests with
  | nil => trivial
  | cons req requests ih =>
    refine ⟨?_, ih⟩
    rw [append_nil]
    show (replaceRequest gen all req _).beyond = _
    unfold replaceRequest
    split_ifs <;> rfl

variable (h : ∀ req ∈ requests, Good info sigs req)

include h

theorem flatMap_replaceRequests :
    (replaceRequests gen all requests).flatMap (sigOrDigestOfRequest gen) =
      requests.flatMap (sigOrDigestOfRequest gen) := by
  induction requests with
  | nil => rfl
  | cons req requests ih =>
    obtain ⟨hreq, hrest⟩ := forall_mem_cons.mp h
    rw [replaceRequests, flatMap_cons, flatMap_cons,
      sigOrDigestOfRequest_replaceRequest gen hreq, ih hrest]

theorem good_replaceRequests (hzero : info.isIdOfReplica 0 = true) :
    ∀ req ∈ replaceRequests gen all requests, Good info sigs req := by
  induction requests with
  | nil => exact fun _ hreq => absurd hreq not_mem_nil
  | cons req requests ih =>
    obtain ⟨hreq, hrest⟩ := forall_mem_cons.mp h
    exact forall_mem_cons.mpr ⟨good_replaceRequest gen hreq hzero all _, ih hrest⟩

theorem size_replaceRequests :
    (replaceRequests gen all requests).length = requests.length ∧
    52 * requests.length ≤ ((replaceRequests gen all requests).map ClientRequestMsg.size).sum ∧
    (all = false → ((replaceRequests gen all requests).map ClientRequestMsg.size).sum ≤
      (requests.map ClientRequestMsg.size).sum) ∧
    ((∀ req ∈ requests, req.size < 84) →
      ((replaceRequests gen all requests).map ClientRequestMsg.size).sum ≤ 84 * requests.length) := by
  induction requests with
  | nil => simp [replaceRequests]
  | cons req requests ih =>
    obtain ⟨hreq, hrest⟩ := forall_mem_cons.mp h
    obtain ⟨hlen, hge, hle, hsmall⟩ := ih hrest
    obtain ⟨hge', hle', hle''⟩ := size_replaceRequest gen hreq all
      ((replaceRequests gen all requests).flatMap bytes)
    simp only [replaceRequests, map_cons, sum_cons, length_cons, forall_mem_cons]
    refine ⟨by omega, by omega, fun hall => ?_, fun hlt => ?_⟩
    · have := hle hall
      have := hle'' hall
      omega
    · have := hsmall hlt.2
      omega

end Lists

/-! ## Batches -/

/-- The two requests agree in what the execution looks at. -/
structure SameRequest (req req' : ClientRequestMsg) : Prop where
  client : req.header.idOfClientProxy = req'.header.idOfClientProxy
  reqSeqNum : req.header.reqSeqNum = req'.header.reqSeqNum
  flags : req.header.flags = req'.header.flags
  indexInBatch : req.header.indexInBatch = req'.header.indexInBatch
  result : req.header.result = req'.header.result
  body : req.requestBuf = req'.requestBuf

/-- The messages contain the same requests, position by position. -/
def SameBatch (m m' : PrePrepareMsg) : Prop := List.Forall₂ SameRequest m.requests m'.requests

/-- Every accepted message with the digest of `m` contains the requests of `m`. -/
def BoundByDigest (gen : DigestGenerator) (info : PrincipalsInfo) (sigs : SigManager)
    (m : PrePrepareMsg) : Prop :=
  ∀ m', m'.Accepted gen info sigs → m'.digestOfRequests = m.digestOfRequests → SameBatch m m'

theorem stay_of_same {all : Bool}
    (h : List.Forall₂ SameRequest requests (replaceRequests gen all requests)) :
    ∀ req ∈ requests, all = false ∧ req.requestSignature = none ∧ req.size < 84 := by
  induction requests with
  | nil => exact fun _ hreq => absurd hreq not_mem_nil
  | cons req requests ih =>
    obtain ⟨hreq, hrest⟩ := forall₂_cons.mp h
    refine forall_mem_cons.mpr ⟨?_, ih hrest⟩
    by_contra hstays
    have hseq := hreq.reqSeqNum
    rw [replaceRequest, dif_neg fun h => hstays ⟨h.1, h.2.1, h.2.2.1⟩] at hseq
    exact reqSeqNum_standIn gen _ hseq.symm

/-- The message with its requests replaced, without the optional parts. -/
def withStandIns (m : PrePrepareMsg) (all : Bool)
    (hgood : ∀ req ∈ m.requests, Good info sigs req)
    (hall : all = true → ∀ req ∈ m.requests, req.size < 84) : PrePrepareMsg where
  senderId := m.senderId
  viewNum := m.viewNum
  seqNum := m.seqNum
  epochNum := m.epochNum
  flags := m.flags
  time := m.time
  digestOfRequests := m.digestOfRequests
  spanContext := []
  batchCid := []
  requests := replaceRequests gen all m.requests
  trailing := []
  laidOut := laidOut_replaceRequests gen all m.requests
  numberOfRequests_lt := by
    rw [(size_replaceRequests gen all hgood).1]
    exact m.numberOfRequests_lt
  size_lt := by
    obtain ⟨-, -, hle, hsmall⟩ := size_replaceRequests gen all hgood
    have hsize := m.size_lt
    have hcount := m.numberOfRequests_lt
    simp only [length_nil]
    cases all with
    | false =>
      have := hle rfl
      omega
    | true =>
      have := hsmall (hall rfl)
      omega

theorem accepted_withStandIns (hsign : sigs.isClientTransactionSigningEnabled = true)
    (hm : m.Accepted gen info sigs) {all : Bool} (hgood : ∀ req ∈ m.requests, Good info sigs req)
    (hall : all = true → ∀ req ∈ m.requests, req.size < 84) :
    (withStandIns gen m all hgood hall).Accepted gen info sigs := by
  rw [accepted_iff hsign] at hm ⊢
  obtain ⟨hsender, hreplica, hepoch, hadv, hdigest, -⟩ := hm
  obtain ⟨hlen, hge, -, -⟩ := size_replaceRequests gen all hgood
  have hzero : info.isIdOfReplica 0 = true := by
    unfold ReplicasInfo.isIdOfReplica at hreplica ⊢
    rw [decide_eq_true_eq] at hreplica ⊢
    exact Nat.lt_of_le_of_lt (Nat.zero_le _) hreplica
  refine ⟨hsender, hreplica, hepoch, ?_, ?_, good_replaceRequests gen all hgood hzero⟩
  · -- the header is that of `m`, and there are as many requests
    unfold advanced at hadv ⊢
    simp only [Bool.and_eq_true, decide_eq_true_eq] at hadv ⊢
    obtain ⟨⟨⟨hflags, -⟩, hne⟩, -⟩ := hadv
    refine ⟨⟨⟨hflags, Nat.le_add_right _ _⟩, ?_⟩, ?_⟩
    · exact fun hzero => hne (hlen.symm.trans hzero)
    · show (replaceRequests gen all m.requests).length < 86 + 0 + 0 + _
      rw [hlen]
      exact Nat.lt_of_lt_of_le (by omega) (Nat.add_le_add_left hge _)
  · refine Eq.trans ?_ hdigest
    exact congrArg gen.compute (flatMap_replaceRequests gen all hgood)

/-- **The digest and the batch.** With client transaction signing, no accepted message is bound by
its digest: there is another one with the same digest and other requests. -/
theorem digest_binding (gen : DigestGenerator) (info : PrincipalsInfo) (sigs : SigManager)
    (hsign : sigs.isClientTransactionSigningEnabled = true) (m : PrePrepareMsg)
    (hm : m.Accepted gen info sigs) : ¬ m.BoundByDigest gen info sigs := by
  intro hbound
  obtain ⟨-, -, -, hadv, -, hgood⟩ := (accepted_iff hsign).mp hm
  have hsame : ∀ all hall, List.Forall₂ SameRequest m.requests (replaceRequests gen all m.requests) :=
    fun all hall => hbound (withStandIns gen m all hgood hall)
      (accepted_withStandIns gen hsign hm hgood hall) rfl
  -- if the longer requests are replaced, none may be longer; then all can be
  have hsmall := stay_of_same gen (hsame false nofun)
  have hnone := stay_of_same gen (hsame true fun _ req hreq => (hsmall req hreq).2.2)
  unfold advanced at hadv
  simp only [Bool.and_eq_true, decide_eq_true_eq] at hadv
  obtain ⟨req, hreq⟩ := exists_mem_of_length_pos (Nat.pos_of_ne_zero hadv.1.2)
  cases (hnone req hreq).1

/-! ## A signed request with another sequence number -/

/-- The request of client `10` with body `[7]`, signature `[7]` and sequence number `seq`. -/
def requestOfClient (seq : UInt8) (beyond : List UInt8) : ClientRequestMsg where
  bytes := [0, 0, 0, 0, 0, 0, 10, 0, 0, 0, 0, 0, 0, 0, 0, 0, 0, 0, 0, 0, seq, 0, 0, 0, 0, 0, 0, 0, 1,
    0, 0, 0, 0, 0, 0, 0, 0, 0, 0, 0, 0, 0, 0, 0, 1, 0, 0, 0, 0, 0, 0, 0, 7, 7]
  beyond := beyond
  size_eq := by
    simp [ClientRequestMsgHeader.read, ClientRequestMsgHeader.compRequestMsgSize, leNat]

def fourReplicas : PrincipalsInfo where
  myId := 0
  numberOfReplicas := 4
  selfEpochNumber := 0
  cVal := 0
  isIdOfPeerRoReplica _ := false
  isIdOfExternalClient id := id == 10
  maxValidPrincipalId := 20

/-- The signature of a body is the body. -/
def copySignatures : SigManager := ⟨true, fun _ => 1, fun _ body sig => body == sig⟩

def messageWith (gen : DigestGenerator) (seq : UInt8) : PrePrepareMsg where
  senderId := 1
  viewNum := 0
  seqNum := 1
  epochNum := 0
  flags := 3
  time := 0
  digestOfRequests := gen.compute [7]
  spanContext := []
  batchCid := []
  requests := [requestOfClient seq []]
  trailing := []
  laidOut := ⟨rfl, trivial⟩
  numberOfRequests_lt := by rw [length_singleton]; decide
  size_lt := by simp [requestOfClient, ClientRequestMsg.size]

def firstBytes : DigestGenerator where
  compute data := (data ++ List.replicate 32 0).take 32
  length_compute data := by
    rw [length_take, length_append, length_replicate]
    omega

theorem accepted_firstBytes {seq : UInt8} (h : seq = 5 ∨ seq = 6) :
    (messageWith firstBytes seq).Accepted firstBytes fourReplicas copySignatures := by
  unfold Accepted
  rcases h with rfl | rfl <;> decide +kernel

/-- The messages with the sequence numbers `5` and `6` are accepted and have the same digest. -/
theorem same_digest_other_seqNum :
    (messageWith firstBytes 5).Accepted firstBytes fourReplicas copySignatures ∧
    (messageWith firstBytes 6).Accepted firstBytes fourReplicas copySignatures ∧
    (messageWith firstBytes 5).digestOfRequests = (messageWith firstBytes 6).digestOfRequests ∧
    ¬ SameBatch (messageWith firstBytes 5) (messageWith firstBytes 6) := by
  refine ⟨accepted_firstBytes (Or.inl rfl), accepted_firstBytes (Or.inr rfl), rfl, ?_⟩
  intro hsame
  have hseq := (forall₂_cons.mp hsame).1.reqSeqNum
  exact absurd hseq (by decide +kernel)

theorem not_bound_messageWith :
    ¬ (messageWith firstBytes 5).BoundByDigest firstBytes fourReplicas copySignatures :=
  digest_binding firstBytes fourReplicas copySignatures rfl (messageWith firstBytes 5)
    (accepted_firstBytes (Or.inl rfl))

end PrePrepareMsg

end ConcordBft
