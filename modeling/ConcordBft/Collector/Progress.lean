import ConcordBft.Collector.Crash

/-!
# Blame and progress of the collector

A job names the signers of invalid shares by the ids inside the shares, while the collector stores
shares by the sender of the message. The two agree when every share has the id of its sender, one
more than the number of the replica. Under that condition, for every order of calls:

1. only faulty replicas are marked, and `numberOfUnknownSignatures` counts the stored shares that
   are not marked (`Entries`, `Inv`);
2. every failed job marks a replica or drops a candidate, so that after the shares of enough
   honest replicas at most `numberOfUnknownSignatures + 1` jobs lead to a valid combined signature
   (`Inv.onJobCompletion`, `Inv.progress`).

A faulty replica that writes the id of an honest one into its share has the honest replica marked
(`honest_replica_marked`).
-/

namespace ConcordBft

open Verif Verif.Exec EdDSAMultisigVerifier JobContext List Collector EdDSASignatureAccumulator
open SingleEdDSASignature hiding id

/-! ## Jobs on shares of distinct signers -/

namespace JobContext

variable {ctx : JobContext} {digest : Digest} {shares : List SingleEdDSASignature}

/-- Shares of distinct signers, as many as the threshold asks for, that fit into the buffer. -/
structure OwnShares (ctx : JobContext) (shares : List SingleEdDSASignature) : Prop where
  nodup : (shares.map SingleEdDSASignature.id).Nodup
  range : ∀ share ∈ shares, 1 ≤ share.id ∧ share.id ≤ ctx.verifier.signersCount
  length : shares.length = ctx.verifier.threshold
  fits : shares.length * 72 ≤ ctx.bufferSize

theorem OwnShares.inRange (h : ctx.OwnShares shares) {share : SingleEdDSASignature}
    (hshare : share ∈ shares) : inRange ctx.verifier share = true := by
  have := h.range share hshare
  unfold EdDSASignatureAccumulator.inRange maxShareID
  rw [decide_eq_true_eq]
  omega

theorem OwnShares.kept_eq (h : ctx.OwnShares shares) :
    kept ctx.verifier shares = shares := by
  unfold kept
  rw [filter_eq_self.mpr fun share hshare => h.inRange hshare]
  exact Unordered.ofList_eq_self _ h.nodup

/-- The ids that the second round reports. -/
def invalidIds (ctx : JobContext) (digest : Digest) (shares : List SingleEdDSASignature) : List ℕ :=
  (shares.filter fun share => !ctx.verifier.validShare digest.bytes share).map
    SingleEdDSASignature.id

/-- A job on such shares succeeds if all of them are valid, and names the others if not. -/
theorem OwnShares.execute_eq (h : ctx.OwnShares shares) (digest : Digest) :
    ctx.executeSignaturesProcessing digest (shares.map bytes) =
      .ok (if shares.all (ctx.verifier.validShare digest.bytes) then
          .combinedSigSucceeded (ctx.written shares)
        else .combinedSigFailed (replicasOfShares
          (OrdSet.ofList (fun a b => decide (a < b)) (ctx.invalidIds digest shares)))) := by
  have hfit : (kept ctx.verifier shares).length * 72 ≤ ctx.bufferSize := by
    rw [h.kept_eq]
    exact h.fits
  have hid : ∀ share ∈ shares, share.id ≠ ctx.verifier.maxShareID := by
    intro share hshare
    have := h.range share hshare
    unfold maxShareID
    omega
  have hcount : ctx.verifier.threshold ≤ ctx.validKept digest shares ↔
      shares.all (ctx.verifier.validShare digest.bytes) = true := by
    unfold validKept
    rw [h.kept_eq, ← h.length, all_eq_true, ← countP_eq_length]
    exact ⟨fun hle => Nat.le_antisymm countP_le_length hle, fun heq => heq.ge⟩
  unfold executeSignaturesProcessing
  rw [ctx.combine_eq digest false hfit (by simp), ok_bind,
    ctx.combine_eq digest true hfit fun _ => hid]
  by_cases hall : shares.all (ctx.verifier.validShare digest.bytes) = true
  · simp only [decide_eq_true (hcount.mpr hall), if_true, hall]
    rfl
  · have hfew : ¬ ctx.verifier.threshold ≤ ctx.validKept digest shares := fun hle =>
      hall (hcount.mp hle)
    simp only [decide_eq_false hfew, hall, ok_bind, Bool.false_eq_true, if_false, pure_eq_ok]
    unfold accumulated invalidIds
    have hfilter : (shares.filter fun share =>
        EdDSASignatureAccumulator.inRange ctx.verifier share &&
          (true && !ctx.verifier.validShare digest.bytes share)) =
        shares.filter fun share => !ctx.verifier.validShare digest.bytes share :=
      filter_congr fun share hshare => by rw [h.inRange hshare]; simp
    simp only [hfilter]

theorem decide_lt_iff_toNat (a b : ReplicaId) : decide (a < b) = true ↔ a.toNat < b.toNat := by
  rw [decide_eq_true_eq, UInt16.lt_iff_toNat_lt]

end JobContext

namespace Collector

/-! ## The stored shares -/

/-- The share of a replica, under its own id; an honest replica has signed. -/
structure SentBy (ctx : CollectorContext) (faulty : Finset ReplicaId) (digest : Digest)
    (repId : ReplicaId) (share : SingleEdDSASignature) : Prop where
  id_eq : share.id = repId.toNat + 1
  signer : repId.toNat < ctx.verifier.signersCount
  honest : repId ∉ faulty → ctx.verifier.validShare digest.bytes share = true

def isUnknown (info : RepInfo) : Bool := decide (info.state = .unknown)

variable {info : RepInfo}

theorem isUnknown_iff : isUnknown info = true ↔ ¬ info.state = .invalid := by
  unfold isUnknown
  rcases info.state <;> simp

def shareBytes (info : RepInfo) : List UInt8 := info.partialSig.getD []

/-- An entry holds the share of its replica, and is marked only if the share is not valid. -/
def Entry (ctx : CollectorContext) (faulty : Finset ReplicaId) (digest : Digest) (info : RepInfo) :
    Prop :=
  ∃ share, info.partialSig = some share.bytes ∧ SentBy ctx faulty digest info.repId share ∧
    (info.state = .invalid → ctx.verifier.validShare digest.bytes share = false)

structure Entries (ctx : CollectorContext) (faulty : Finset ReplicaId) (digest : Digest)
    (c : Collector) : Prop where
  nodup : (c.replicasInfo.map RepInfo.repId).Nodup
  entry : ∀ info ∈ c.replicasInfo, Entry ctx faulty digest info
  unknown : c.numberOfUnknownSignatures = c.replicasInfo.countP isUnknown

variable {ctx : CollectorContext} {faulty : Finset ReplicaId} {digest : Digest} {c : Collector}

variable {infos : List RepInfo} {repId : ReplicaId}

theorem Entry.faulty_of_invalid (h : Entry ctx faulty digest info)
    (hinvalid : info.state = .invalid) : info.repId ∈ faulty := by
  obtain ⟨share, -, hsent, hbad⟩ := h
  by_contra hhonest
  have hvalid := hsent.honest hhonest
  rw [hbad hinvalid] at hvalid
  cases hvalid

theorem length_le_signersCount (hnodup : (infos.map RepInfo.repId).Nodup)
    (hentry : ∀ info ∈ infos, Entry ctx faulty digest info) :
    infos.length ≤ ctx.verifier.signersCount := by
  have hnodup : ((infos.map RepInfo.repId).map UInt16.toNat).Nodup :=
    hnodup.map fun _ _ => UInt16.toNat_inj.mp
  have hsub : ((infos.map RepInfo.repId).map UInt16.toNat) ⊆
      range ctx.verifier.signersCount := by
    intro k hk
    obtain ⟨r, hr, rfl⟩ := mem_map.mp hk
    obtain ⟨info, hinfo, rfl⟩ := mem_map.mp hr
    obtain ⟨share, -, hsent, -⟩ := hentry info hinfo
    exact mem_range.mpr hsent.signer
  have hle := (hnodup.subperm hsub).length_le
  rwa [length_map, length_map, length_range] at hle

/-! ## Marking -/

def mark (repId : ReplicaId) (info : RepInfo) : RepInfo :=
  if info.repId = repId then { info with state := .invalid } else info

theorem mark_of_ne (h : info.repId ≠ repId) : mark repId info = info := if_neg h

theorem map_repId_mark (repId : ReplicaId) (infos : List RepInfo) :
    (infos.map (mark repId)).map RepInfo.repId = infos.map RepInfo.repId := by
  rw [map_map]
  refine map_congr_left fun info _ => ?_
  rw [Function.comp_apply, mark]
  split_ifs <;> rfl

theorem markInvalid_eq (h : repId ∈ infos.map RepInfo.repId) : markInvalid infos repId = infos.map
    (mark repId) := by
  obtain ⟨info, hinfo, rfl⟩ := mem_map.mp h
  unfold markInvalid
  rw [if_pos (any_eq_true.mpr ⟨info, hinfo, by simp⟩)]
  rfl

theorem countP_mark (hnodup : (infos.map RepInfo.repId).Nodup)
    (hinfo : info ∈ infos) (hunknown : isUnknown info = true) :
    infos.countP isUnknown = (infos.map (mark info.repId)).countP isUnknown + 1 := by
  induction infos with
  | nil => cases hinfo
  | cons a infos ih =>
    rw [map_cons, nodup_cons] at hnodup
    rw [map_cons, countP_cons, countP_cons]
    rcases mem_cons.mp hinfo with rfl | hinfo
    · have hmarked : isUnknown (mark info.repId info) = false := by
        unfold mark isUnknown
        rw [if_pos rfl]
        rfl
      have hsame : infos.map (mark info.repId) = infos := by
        refine (map_congr_left fun a ha => ?_).trans (map_id infos)
        exact mark_of_ne fun heq => hnodup.1 (heq ▸ mem_map_of_mem ha)
      rw [hsame, hunknown, hmarked]
      simp
    · have hne : a.repId ≠ info.repId := fun heq =>
        hnodup.1 (heq ▸ mem_map_of_mem hinfo)
      rw [ih hnodup.2 hinfo, mark_of_ne hne]
      omega

/-- An entry that a failed job may name: unknown, with a share that is not valid. -/
def Named (ctx : CollectorContext) (digest : Digest) (c : Collector) (repId : ReplicaId) : Prop :=
  ∃ info ∈ c.replicasInfo, info.repId = repId ∧ isUnknown info = true ∧
    ∀ share : SingleEdDSASignature, info.partialSig = some share.bytes →
      ctx.verifier.validShare digest.bytes share = false

theorem Named.mem_map (h : Named ctx digest c repId) :
    repId ∈ c.replicasInfo.map RepInfo.repId := by
  obtain ⟨info, hinfo, rfl, -⟩ := h
  exact mem_map_of_mem hinfo

theorem Entries.markOne (h : Entries ctx faulty digest c)
    (hsigners : ctx.verifier.signersCount < 2 ^ 16)
    (hnamed : Named ctx digest c repId) : Entries ctx faulty digest (c.markOne repId) ∧
      (c.markOne repId).numberOfUnknownSignatures + 1 = c.numberOfUnknownSignatures := by
  have hinfos : (c.markOne repId).replicasInfo = c.replicasInfo.map (mark repId) :=
    markInvalid_eq hnamed.mem_map
  obtain ⟨info, hinfo, rfl, hunknown, hbad⟩ := hnamed
  have hcount := countP_mark h.nodup hinfo hunknown
  have hle := countP_le_length (l := c.replicasInfo) (p := isUnknown)
  have hlen := length_le_signersCount h.nodup h.entry
  have hnum : (c.markOne info.repId).numberOfUnknownSignatures + 1 =
      c.numberOfUnknownSignatures := by
    have := h.unknown
    unfold markOne
    simp only
    omega
  refine ⟨⟨?_, ?_, ?_⟩, hnum⟩
  · rw [hinfos, map_repId_mark]
    exact h.nodup
  · rw [hinfos]
    intro info' hinfo'
    obtain ⟨info₀, hinfo₀, rfl⟩ := mem_map.mp hinfo'
    obtain ⟨share, hsig, hsent, hinvalid⟩ := h.entry info₀ hinfo₀
    by_cases heq : info₀.repId = info.repId
    · obtain rfl := inj_on_of_nodup_map h.nodup hinfo₀ hinfo heq
      unfold mark
      rw [if_pos rfl]
      exact ⟨share, hsig, hsent, fun _ => hbad share hsig⟩
    · rw [mark_of_ne heq]
      exact ⟨share, hsig, hsent, hinvalid⟩
  · rw [hinfos]
    have := h.unknown
    omega

theorem Named.markOne {repId' : ReplicaId} (h : Named ctx digest c repId')
    (hnamed : Named ctx digest c repId) (hne : repId' ≠ repId) :
    Named ctx digest (c.markOne repId) repId' := by
  obtain ⟨info, hinfo, rfl, hunknown, hbad⟩ := h
  refine ⟨info, ?_, rfl, hunknown, hbad⟩
  show info ∈ markInvalid c.replicasInfo repId
  rw [markInvalid_eq hnamed.mem_map, ← mark_of_ne hne]
  exact mem_map_of_mem hinfo

/-- Marking all replicas that a failed job names: what changes, and what stays. -/
structure Marked (ctx : CollectorContext) (faulty : Finset ReplicaId) (digest : Digest)
    (c c' : Collector) (n : ℕ) : Prop where
  entries : Entries ctx faulty digest c'
  count : c'.numberOfUnknownSignatures + n = c.numberOfUnknownSignatures
  repIds : c'.replicasInfo.map RepInfo.repId = c.replicasInfo.map RepInfo.repId
  rest : c' = { c with
    replicasInfo := c'.replicasInfo, numberOfUnknownSignatures := c'.numberOfUnknownSignatures }

theorem Entries.markAllInvalid (h : Entries ctx faulty digest c)
    (hsigners : ctx.verifier.signersCount < 2 ^ 16) {bad : List ReplicaId} (hnodup : bad.Nodup)
    (hbad : ∀ repId ∈ bad, Named ctx digest c repId) :
    Marked ctx faulty digest c (c.markAllInvalid bad) bad.length := by
  induction bad generalizing c with
  | nil =>
    unfold markAllInvalid
    rw [foldl_nil]
    exact ⟨h, rfl, rfl, rfl⟩
  | cons repId bad ih =>
    rw [show c.markAllInvalid (repId :: bad) = (c.markOne repId).markAllInvalid bad by
      rw [markAllInvalid, foldl_cons, markAllInvalid]]
    obtain ⟨hnot, hnodup⟩ := nodup_cons.mp hnodup
    have hnamed := hbad repId mem_cons_self
    obtain ⟨hentries, hcount⟩ := h.markOne hsigners hnamed
    have hrest := ih hentries hnodup fun repId' hmem =>
      (hbad repId' (mem_cons_of_mem _ hmem)).markOne hnamed fun heq => hnot (heq ▸ hmem)
    have hids : (c.markOne repId).replicasInfo.map RepInfo.repId =
        c.replicasInfo.map RepInfo.repId := by
      show (markInvalid c.replicasInfo repId).map RepInfo.repId = _
      rw [markInvalid_eq hnamed.mem_map, map_repId_mark]
    refine ⟨hrest.entries, ?_, hrest.repIds.trans hids, hrest.rest.trans (by rw [Collector.markOne])⟩
    have := hrest.count
    rw [length_cons]
    omega

/-! ## The invariant -/

/-- The parameters of the collector: the verifier asks for the shares of a job, whose number fits
into the buffer. -/
structure Config (ctx : CollectorContext) : Prop where
  required_pos : 0 < ctx.numOfRequiredSigs
  threshold_eq : ctx.verifier.threshold = ctx.numOfRequiredSigs
  signers_lt : ctx.verifier.signersCount < 2 ^ 16
  fits : ctx.numOfRequiredSigs * 72 ≤ ctx.bufferSize

/-- The job in the background works on what the collector stores. -/
def JobOf (ctx : CollectorContext) (digest : Digest) (c : Collector) : Job → Prop
  | .signaturesProcessing expectedDigest sigDataItems => expectedDigest = digest ∧
    ∃ infos : List RepInfo, infos.length = ctx.numOfRequiredSigs ∧
      (infos.map RepInfo.repId).Nodup ∧
      (∀ info ∈ infos, info ∈ c.replicasInfo ∧ isUnknown info = true) ∧
      sigDataItems = infos.map shareBytes
  | .combinedSigVerification expectedDigest combinedSig =>
    expectedDigest = digest ∧ c.candidateCombinedSignature = some combinedSig

/-- What holds of the collector apart from its job. -/
structure Stores (ctx : CollectorContext) (faulty : Finset ReplicaId) (digest : Digest)
    (c : Collector) : Prop extends Entries ctx faulty digest c where
  expectedDigest : ∀ e, c.expected = some e → e.2.2 = digest
  candidate : ∀ sig, c.candidateCombinedSignature = some sig → sig.length % 72 = 0

structure Inv (ctx : CollectorContext) (faulty : Finset ReplicaId) (digest : Digest)
    (c : Collector) : Prop extends Stores ctx faulty digest c where
  complete : ∀ sig, c.combinedValidSignature = some sig →
    c.job = none ∧ c.expected.isSome = true ∧ ctx.verifier.verify digest.bytes sig = .ok true
  jobOf : ∀ job, c.job = some job → c.expected.isSome = true ∧ JobOf ctx digest c job
  idle : c.job = none → c.combinedValidSignature = none → c.expected.isSome = true →
    c.candidateCombinedSignature = none ∧ c.numberOfUnknownSignatures < ctx.numOfRequiredSigs

theorem inv_empty : Inv ctx faulty digest {} where
  nodup := nodup_nil
  entry := by simp
  unknown := rfl
  expectedDigest := by simp
  candidate := by simp
  complete := by simp
  jobOf := by simp
  idle := by simp

/-! ## Sending a job -/

theorem shareBytes_of_some {sig : List UInt8} (h : info.partialSig = some sig) :
    shareBytes info = sig := by
  unfold shareBytes
  rw [h]
  rfl

theorem jobItems_eq {required n : ℕ} (hn : n < required)
    (h : ∀ info ∈ infos, info.partialSig.isSome = true) :
    jobItems required n infos =
      .ok (((infos.filter isUnknown).take (required - n)).map shareBytes) := by
  induction infos generalizing n with
  | nil => simp [jobItems]
  | cons info infos ih =>
    have hrest : ∀ info ∈ infos, info.partialSig.isSome = true := fun info hinfo =>
      h info (mem_cons_of_mem _ hinfo)
    unfold jobItems
    by_cases hinvalid : info.state = .invalid
    · have hunknown : ¬ isUnknown info = true := fun hu => isUnknown_iff.mp hu hinvalid
      rw [if_pos hinvalid, if_neg (by omega), ih hn hrest, filter_cons_of_neg hunknown]
    · have hunknown : isUnknown info = true := isUnknown_iff.mpr hinvalid
      obtain ⟨sig, hsig⟩ := Option.isSome_iff_exists.mp (h info mem_cons_self)
      have hbytes := shareBytes_of_some hsig
      rw [if_neg hinvalid, hsig, filter_cons_of_pos hunknown]
      simp only [ensure_decide hn, pure_eq_ok]
      split_ifs with hlast
      · rw [show required - n = 1 by omega, take_succ_cons, take_zero, map_singleton, hbytes]
      · rw [ih (by omega) hrest, ok_bind,
          show required - n = required - (n + 1) + 1 by omega, take_succ_cons, map_cons, hbytes]

theorem Entries.isSome_partialSig (h : Entries ctx faulty digest c)
    (hinfo : info ∈ c.replicasInfo) : info.partialSig.isSome = true := by
  obtain ⟨share, hsig, -⟩ := h.entry info hinfo
  rw [hsig]
  rfl

theorem Entries.jobItems (h : Entries ctx faulty digest c) (hconf : Config ctx)
    (henough : ctx.numOfRequiredSigs ≤ c.numberOfUnknownSignatures) :
    ∃ infos : List RepInfo, infos.length = ctx.numOfRequiredSigs ∧ (infos.map RepInfo.repId).Nodup ∧
      (∀ info ∈ infos, info ∈ c.replicasInfo ∧ isUnknown info = true) ∧
      jobItems ctx.numOfRequiredSigs 0 (ctx.infoOrder.order c.replicasInfo) =
        .ok (infos.map shareBytes) := by
  have hsome : ∀ info ∈ ctx.infoOrder.order c.replicasInfo, info.partialSig.isSome = true :=
    fun info hinfo => h.isSome_partialSig (ctx.infoOrder.mem_order.mp hinfo)
  have hitems := jobItems_eq hconf.required_pos hsome
  rw [Nat.sub_zero] at hitems
  refine ⟨_, ?_, ?_, ?_, hitems⟩
  · rw [length_take, ← countP_eq_length_filter, ctx.infoOrder.countP_order, ← h.unknown]
    exact Nat.min_eq_left henough
  · have hnodup : ((ctx.infoOrder.order c.replicasInfo).map RepInfo.repId).Nodup :=
      ((ctx.infoOrder.perm c.replicasInfo).map RepInfo.repId).nodup_iff.mpr h.nodup
    exact hnodup.sublist (((take_sublist _ _).trans filter_sublist).map _)
  · intro info hinfo
    obtain ⟨hmem, hunknown⟩ := mem_filter.mp (mem_of_mem_take hinfo)
    exact ⟨ctx.infoOrder.mem_order.mp hmem, hunknown⟩

theorem Stores.trySend_idle (h : Stores ctx faulty digest c)
    (hcombined : c.combinedValidSignature = none) (hjob : c.job = none)
    (hidle : c.expected.isSome = true → c.candidateCombinedSignature = none ∧
      c.numberOfUnknownSignatures < ctx.numOfRequiredSigs)
    (hsend : trySendToBkThread ctx c = .ok c) :
    ∃ job, trySendToBkThread ctx c = .ok { c with job := job } ∧
      Inv ctx faulty digest { c with job := job } := by
  refine ⟨none, ?_⟩
  rw [show { c with job := none } = c by rw [← hjob]]
  exact ⟨hsend, { h with
    complete := fun sig => by simp [hcombined]
    jobOf := fun job => by simp [hjob]
    idle := fun _ _ => hidle }⟩

/-- Without a job in the background, sending one establishes the invariant. -/
theorem Stores.trySend (h : Stores ctx faulty digest c) (hconf : Config ctx)
    (hcombined : c.combinedValidSignature = none) (hjob : c.job = none) :
    ∃ job, trySendToBkThread ctx c = .ok { c with job := job } ∧
      Inv ctx faulty digest { c with job := job } := by
  by_cases hexp : c.expected = none
  · exact h.trySend_idle hcombined hjob (by simp [hexp])
      (by simp [trySendToBkThread, hcombined, hjob, hexp])
  obtain ⟨⟨s, v, d⟩, hexp⟩ := Option.ne_none_iff_exists'.mp hexp
  have hd : d = digest := h.expectedDigest _ hexp
  -- a job on a candidate or on shares is one on what is stored
  have hsent : ∀ job, JobOf ctx digest c job → Inv ctx faulty digest { c with job := some job } := by
    intro job hjobOf
    refine { h with complete := fun sig => by simp [hcombined], jobOf := ?_, idle := by simp }
    intro job' hsome
    rw [Option.some.injEq] at hsome
    subst hsome
    refine ⟨by simp [hexp], ?_⟩
    cases job <;> exact hjobOf
  by_cases hcand : c.candidateCombinedSignature = none
  · by_cases henough : ctx.numOfRequiredSigs ≤ c.numberOfUnknownSignatures
    · obtain ⟨infos, hlen, hnodup, hinfos, hitems⟩ := h.toEntries.jobItems hconf henough
      refine ⟨some (.signaturesProcessing d _), ?_, hsent _ ⟨hd, infos, hlen, hnodup, hinfos, rfl⟩⟩
      simp [trySendToBkThread, hcombined, hjob, hexp, hcand, henough, hitems, hlen]
    · exact h.trySend_idle hcombined hjob (fun _ => ⟨hcand, Nat.lt_of_not_le henough⟩)
        (by simp [trySendToBkThread, hcombined, hjob, hexp, hcand, henough])
  · obtain ⟨sig, hcand⟩ := Option.ne_none_iff_exists'.mp hcand
    refine ⟨some (.combinedSigVerification d sig), ?_, hsent _ ⟨hd, hcand⟩⟩
    simp [trySendToBkThread, hcombined, hjob, hexp, hcand]

/-! ## The completion of a job -/

def shareOf (info : RepInfo) : SingleEdDSASignature :=
  if h : (shareBytes info).length = 72 then ⟨shareBytes info, h⟩
  else ⟨replicate 72 0, length_replicate⟩

theorem Entry.shareOf (h : Entry ctx faulty digest info) :
    info.partialSig = some (shareOf info).bytes ∧
      SentBy ctx faulty digest info.repId (shareOf info) ∧
      (shareOf info).bytes = shareBytes info := by
  obtain ⟨share, hsig, hsent, -⟩ := h
  have hbytes := shareBytes_of_some hsig
  have hshare : Collector.shareOf info = share := by
    unfold Collector.shareOf
    simp only [hbytes, share.size_eq, dif_pos]
  rw [hshare]
  exact ⟨hsig, hsent, hbytes.symm⟩

section

variable (hentry : ∀ info ∈ infos, Entry ctx faulty digest info)

include hentry

theorem ownShares (hconf : Config ctx)
    (hlen : infos.length = ctx.numOfRequiredSigs) (hnodup : (infos.map RepInfo.repId).Nodup) :
    ctx.OwnShares (infos.map shareOf) where
  nodup := by
    have hids : (infos.map shareOf).map SingleEdDSASignature.id =
        (infos.map RepInfo.repId).map fun repId => repId.toNat + 1 := by
      rw [map_map, map_map]
      exact map_congr_left fun info hinfo => (hentry info hinfo).shareOf.2.1.id_eq
    rw [hids]
    refine hnodup.map ?_
    intro a b hab
    exact UInt16.toNat_inj.mp (Nat.succ.inj hab)
  range := by
    intro share hshare
    obtain ⟨info, hinfo, rfl⟩ := mem_map.mp hshare
    have hsent := (hentry info hinfo).shareOf.2.1
    rw [hsent.id_eq]
    have := hsent.signer
    omega
  length := by rw [length_map, hlen, hconf.threshold_eq]
  fits := by
    rw [length_map, hlen]
    exact hconf.fits

omit hentry in
theorem ofNat_succ_sub_one (repId : ReplicaId) : UInt16.ofNat (repId.toNat + 1) - 1 = repId := by
  rw [UInt16.ofNat_add, UInt16.ofNat_toNat]
  exact UInt16.add_sub_cancel repId 1

def badReplicas (ctx : CollectorContext) (digest : Digest) (infos : List RepInfo) :
    List ReplicaId :=
  replicasOfShares (OrdSet.ofList (fun a b => decide (a < b))
    (ctx.invalidIds digest (infos.map shareOf)))

theorem mem_badReplicas : repId ∈ badReplicas ctx digest infos ↔ ∃ info ∈ infos, info.repId = repId ∧
      ctx.verifier.validShare digest.bytes (shareOf info) = false := by
  have hnat : ∀ a b : ℕ, decide (a < b) = true ↔ a < b := by simp
  unfold badReplicas invalidIds replicasOfShares
  rw [OrdSet.mem_ofList_of_injective decide_lt_iff_toNat (fun _ _ => UInt16.toNat_inj.mp), mem_map]
  simp only [OrdSet.mem_ofList_of_injective hnat Function.injective_id]
  constructor
  · rintro ⟨id, hid, rfl⟩
    obtain ⟨share, hshare, rfl⟩ := mem_map.mp hid
    obtain ⟨hshare, hbad⟩ := mem_filter.mp hshare
    obtain ⟨info, hinfo, rfl⟩ := mem_map.mp hshare
    rw [(hentry info hinfo).shareOf.2.1.id_eq, ofNat_succ_sub_one]
    exact ⟨info, hinfo, rfl, by simpa using hbad⟩
  · rintro ⟨info, hinfo, rfl, hbad⟩
    refine ⟨(shareOf info).id, ?_, ?_⟩
    · refine mem_map.mpr ⟨shareOf info, mem_filter.mpr ⟨?_, by simp [hbad]⟩, rfl⟩
      exact mem_map_of_mem hinfo
    · rw [(hentry info hinfo).shareOf.2.1.id_eq, ofNat_succ_sub_one]

theorem named_badReplicas (hinfos : ∀ info ∈ infos, info ∈ c.replicasInfo ∧ isUnknown info = true) :
    ∀ repId ∈ badReplicas ctx digest infos, Named ctx digest { c with job := none } repId := by
  intro repId hmem
  obtain ⟨info, hinfo, rfl, hinvalid⟩ := (mem_badReplicas hentry).mp hmem
  refine ⟨info, (hinfos info hinfo).1, rfl, (hinfos info hinfo).2, ?_⟩
  intro share hshare
  rw [(hentry info hinfo).shareOf.1, Option.some.injEq] at hshare
  rw [← SingleEdDSASignature.ext hshare]
  exact hinvalid

end

def rank (c : Collector) : ℕ :=
  c.numberOfUnknownSignatures + if c.candidateCombinedSignature.isSome then 1 else 0

/-- A completed job: the replicas stay, and a job that fails leaves less to process. -/
structure Completed (ctx : CollectorContext) (faulty : Finset ReplicaId) (digest : Digest)
    (c c' : Collector) : Prop where
  inv : Inv ctx faulty digest c'
  repIds : c'.replicasInfo.map RepInfo.repId = c.replicasInfo.map RepInfo.repId
  expected : c'.expected = c.expected
  decreases : c'.combinedValidSignature.isSome = true ∨ c'.rank < c.rank

theorem Inv.finish (h : Inv ctx faulty digest c) {sig : List UInt8}
    (hexp : c.expected.isSome = true) (hsig : ctx.verifier.verify digest.bytes sig = .ok true) :
    Completed ctx faulty digest c { c with
      job := none, candidateCombinedSignature := none, combinedValidSignature := some sig } where
  inv := { h with
    candidate := by simp
    complete := by
      rintro _ ⟨⟩
      exact ⟨rfl, hexp, hsig⟩
    jobOf := by simp
    idle := by simp }
  repIds := rfl
  expected := rfl
  decreases := .inl rfl

theorem Inv.afterFailure (h : Inv ctx faulty digest c) (hconf : Config ctx)
    (hcombined : c.combinedValidSignature = none)
    (hinfos : ∀ info ∈ infos, info ∈ c.replicasInfo ∧ isUnknown info = true)
    (hbad : ¬ (infos.map shareOf).all (ctx.verifier.validShare digest.bytes) = true) :
    ∃ c', trySendToBkThread ctx
        ({ c with job := none }.markAllInvalid (badReplicas ctx digest infos)) = .ok c' ∧
      Completed ctx faulty digest c c' := by
  have hentry : ∀ info ∈ infos, Entry ctx faulty digest info := fun info hinfo =>
    h.entry info (hinfos info hinfo).1
  have hquiet : Entries ctx faulty digest { c with job := none } := ⟨h.nodup, h.entry, h.unknown⟩
  have hnodup : (badReplicas ctx digest infos).Nodup :=
    OrdSet.nodup_ofList decide_lt_iff_toNat _
  have hmarked := hquiet.markAllInvalid hconf.signers_lt hnodup (named_badReplicas hentry hinfos)
  -- some share is not valid, so some replica is named
  have hpos : 0 < (badReplicas ctx digest infos).length := by
    rw [all_eq_true] at hbad
    push Not at hbad
    obtain ⟨share, hshare, hinvalid⟩ := hbad
    obtain ⟨info, hinfo, rfl⟩ := mem_map.mp hshare
    exact length_pos_of_mem
      ((mem_badReplicas hentry).mpr ⟨info, hinfo, rfl, by simpa using hinvalid⟩)
  have hstores : Stores ctx faulty digest
      ({ c with job := none }.markAllInvalid (badReplicas ctx digest infos)) := {
    hmarked.entries with
    expectedDigest := by
      rw [hmarked.rest]
      exact h.expectedDigest
    candidate := by
      rw [hmarked.rest]
      exact h.candidate }
  obtain ⟨job, hsend, hinv⟩ := hstores.trySend hconf (by rw [hmarked.rest]; exact hcombined)
    (by rw [hmarked.rest])
  refine ⟨_, hsend, hinv, hmarked.repIds, by rw [hmarked.rest], .inr ?_⟩
  have hcount := hmarked.count
  have hcand := congrArg candidateCombinedSignature hmarked.rest
  simp only at hcount hcand
  unfold rank
  simp only [hcand]
  omega

theorem Inv.onJobCompletion (h : Inv ctx faulty digest c) (hconf : Config ctx) {job : Job}
    (hjob : c.job = some job) :
    ∃ c', onJobCompletion ctx c = .ok c' ∧ Completed ctx faulty digest c c' := by
  have hcombined : c.combinedValidSignature = none :=
    Option.eq_none_iff_forall_ne_some.mpr fun sig hcombined => by
      cases hjob.symm.trans (h.complete sig hcombined).1
  have hsome : c.job.isSome = true := by rw [hjob]; rfl
  have hnot : (!c.combinedValidSignature.isSome) = true := by rw [hcombined]; rfl
  obtain ⟨hexp, hjobOf⟩ := h.jobOf job hjob
  -- it is enough to look at the result of the job
  have hstep : ∀ result, ctx.execute job = .ok result →
      Collector.onJobCompletion ctx c = onCompletion ctx c result := by
    intro result hresult
    unfold Collector.onJobCompletion
    rw [hjob]
    simp only [hresult, ok_bind]
  cases job with
  | signaturesProcessing expectedDigest sigDataItems =>
    obtain ⟨rfl, infos, hlen, hnodup, hinfos, rfl⟩ := hjobOf
    have hentry : ∀ info ∈ infos, Entry ctx faulty expectedDigest info := fun info hinfo =>
      h.entry info (hinfos info hinfo).1
    have hown := ownShares hentry hconf hlen hnodup
    have hexec := hown.execute_eq expectedDigest
    rw [map_map, map_congr_left (f := bytes ∘ shareOf) fun info hinfo =>
      (hentry info hinfo).shareOf.2.2] at hexec
    by_cases hall : (infos.map shareOf).all
        (ctx.verifier.validShare expectedDigest.bytes) = true
    · rw [if_pos hall] at hexec
      rw [hstep _ hexec, onCompletion, hsome, hnot]
      refine ⟨_, rfl, h.finish hexp ?_⟩
      rw [written, verify_kept, hown.kept_eq,
        countP_eq_length.mpr (all_eq_true.mp hall), hown.length]
      simp
    · rw [if_neg hall] at hexec
      rw [hstep _ hexec, onCompletion, hsome, hnot]
      exact h.afterFailure hconf hcombined hinfos hall
  | combinedSigVerification expectedDigest combinedSig =>
    obtain ⟨rfl, hcand⟩ := hjobOf
    obtain ⟨isValid, hverify⟩ := (returns_verify ctx.verifier expectedDigest.bytes).mpr
      (h.candidate combinedSig hcand)
    have hexec : ctx.executeCombinedSigVerification expectedDigest combinedSig =
        .ok (.verifyCombinedSigResult isValid) := by
      unfold executeCombinedSigVerification
      rw [hverify]
      rfl
    rw [hstep _ hexec, onCompletion, hsome, hnot, hcand]
    cases isValid with
    | true => exact ⟨_, rfl, h.finish hexp hverify⟩
    | false =>
      have hstores : Stores ctx faulty expectedDigest
          { c with job := none, candidateCombinedSignature := none } :=
        { h with candidate := by simp }
      obtain ⟨job', hsend, hinv⟩ := hstores.trySend hconf hcombined rfl
      refine ⟨_, hsend, hinv, rfl, rfl, .inr ?_⟩
      unfold rank
      simp [hcand]

/-! ## The other calls -/

/-- The condition on a call: a share has the id of its sender, a combined signature is a sequence
of shares, and the expected digest is set once. -/
def StepOk (ctx : CollectorContext) (faulty : Finset ReplicaId) (digest : Digest) (c : Collector) :
    Op → Prop
  | .addMsgWithPartialSignature partialSig repId =>
    ∃ share : SingleEdDSASignature, partialSig = share.bytes ∧
      SentBy ctx faulty digest repId share
  | .addMsgWithCombinedSignature combinedSig => combinedSig.length % 72 = 0
  | .setExpected seqNumber _ expectedDigest =>
    seqNumber ≠ 0 ∧ expectedDigest = digest ∧ c.expected = none
  | .jobCompletion => True

variable {share : SingleEdDSASignature}

theorem Entries.storeShare (h : Entries ctx faulty digest c)
    (hsigners : ctx.verifier.signersCount < 2 ^ 16)
    (hnew : c.hasPartialMsgFromReplica repId = false)
    (hsent : SentBy ctx faulty digest repId share) :
    Entries ctx faulty digest (c.storeShare share.bytes repId) := by
  have hinfos : (c.storeShare share.bytes repId).replicasInfo =
      c.replicasInfo ++ [⟨repId, some share.bytes, .unknown⟩] := rfl
  have hnot : repId ∉ c.replicasInfo.map RepInfo.repId := by
    intro hmem
    obtain ⟨info, hinfo, rfl⟩ := mem_map.mp hmem
    unfold hasPartialMsgFromReplica at hnew
    have := any_eq_false.mp hnew info hinfo
    simp at this
  have hnodup : ((c.storeShare share.bytes repId).replicasInfo.map RepInfo.repId).Nodup := by
    rw [hinfos, map_append, map_singleton, ← concat_eq_append]
    exact h.nodup.concat hnot
  have hentry : ∀ info ∈ (c.storeShare share.bytes repId).replicasInfo,
      Entry ctx faulty digest info := by
    rw [hinfos, forall_mem_append, forall_mem_singleton]
    exact ⟨h.entry, share, rfl, hsent, by simp⟩
  refine ⟨hnodup, hentry, ?_⟩
  have hlen := length_le_signersCount hnodup hentry
  have hle := countP_le_length (l := c.replicasInfo) (p := isUnknown)
  have hcount := h.unknown
  rw [hinfos, length_append, length_singleton] at hlen
  rw [hinfos, countP_append, countP_singleton,
    show isUnknown ⟨repId, some share.bytes, .unknown⟩ = true from rfl, if_pos rfl]
  unfold Collector.storeShare
  simp only
  omega

theorem JobOf.mono {c' : Collector} {job : Job} (h : JobOf ctx digest c job)
    (hinfos : ∀ info ∈ c.replicasInfo, info ∈ c'.replicasInfo)
    (hcand : ∀ sig, c.candidateCombinedSignature = some sig →
      c'.candidateCombinedSignature = some sig) : JobOf ctx digest c' job := by
  cases job with
  | signaturesProcessing expectedDigest sigDataItems =>
    obtain ⟨hd, infos, hlen, hnodup, hmem, hitems⟩ := h
    exact ⟨hd, infos, hlen, hnodup,
      fun info hinfo => ⟨hinfos info (hmem info hinfo).1, (hmem info hinfo).2⟩, hitems⟩
  | combinedSigVerification expectedDigest combinedSig => exact ⟨h.1, hcand _ h.2⟩

section

variable (h : Inv ctx faulty digest c)

include h

section

variable (hconf : Config ctx)

include hconf

/-- After a call that stores a message: a job is sent, or the one in the background goes on. -/
theorem Inv.trySend {c' : Collector} (hstores : Stores ctx faulty digest c')
    (hcombined : c'.combinedValidSignature = none) (hjob : c'.job = c.job)
    (hexp : c'.expected = c.expected) (hinfos : ∀ info ∈ c.replicasInfo, info ∈ c'.replicasInfo)
    (hcand : ∀ sig, c.candidateCombinedSignature = some sig →
      c'.candidateCombinedSignature = some sig) :
    Yields (trySendToBkThread ctx c') (Inv ctx faulty digest) := by
  rcases hnone : c'.job with _ | job
  · obtain ⟨job, hsend, hinv⟩ := hstores.trySend hconf hcombined hnone
    exact ⟨_, hsend, hinv⟩
  · refine ⟨c', by simp [trySendToBkThread, hcombined, hnone], { hstores with
      complete := fun sig => by simp [hcombined], jobOf := ?_, idle := fun h => by simp [hnone] at h }⟩
    intro job' hjob'
    obtain ⟨hsome, hjobOf⟩ := h.jobOf job' (hjob.symm.trans hjob')
    exact ⟨by rw [hexp]; exact hsome, hjobOf.mono hinfos hcand⟩

theorem Inv.addMsgWithPartialSignature (hsent : SentBy ctx faulty digest repId share) :
    Yields (addMsgWithPartialSignature ctx c share.bytes repId) (Inv ctx faulty digest ·.2) := by
  unfold Collector.addMsgWithPartialSignature
  by_cases hskip : (c.combinedValidSignature.isSome || c.hasPartialMsgFromReplica repId) = true
  · rw [if_pos hskip]
    exact yields_ok h
  rw [if_neg hskip]
  simp only [Bool.or_eq_true, not_or, Bool.not_eq_true] at hskip
  obtain ⟨hcombined, hnew⟩ := hskip
  rw [Option.isSome_eq_false_iff, Option.isNone_iff_eq_none] at hcombined
  have hstores : Stores ctx faulty digest (c.storeShare share.bytes repId) :=
    { h.toEntries.storeShare hconf.signers_lt hnew hsent with
      expectedDigest := h.expectedDigest
      candidate := h.candidate }
  exact (h.trySend hconf hstores hcombined rfl rfl (fun info hinfo => mem_append_left _ hinfo)
    (fun sig hsig => hsig)).bind fun _ hinv => yields_ok hinv

theorem Inv.addMsgWithCombinedSignature {sig : List UInt8} (hlen : sig.length % 72 = 0) :
    Yields (addMsgWithCombinedSignature ctx c sig) (Inv ctx faulty digest ·.2) := by
  unfold Collector.addMsgWithCombinedSignature
  by_cases hskip : (c.combinedValidSignature.isSome || c.candidateCombinedSignature.isSome) = true
  · rw [if_pos hskip]
    exact yields_ok h
  rw [if_neg hskip]
  simp only [Bool.or_eq_true, not_or, Bool.not_eq_true, Option.isSome_eq_false_iff,
    Option.isNone_iff_eq_none] at hskip
  obtain ⟨hcombined, hcand⟩ := hskip
  have hstores : Stores ctx faulty digest { c with candidateCombinedSignature := some sig } := { h with
    candidate := by
      rintro _ ⟨⟩
      exact hlen }
  exact (h.trySend hconf hstores hcombined rfl rfl (fun _ hinfo => hinfo)
    (fun sig' hsig' => by rw [hcand] at hsig'; cases hsig')).bind fun _ hinv => yields_ok hinv

theorem Inv.setExpected {seqNumber : ℤ}
    (hseq : seqNumber ≠ 0) (view : ℤ) (hexp : c.expected = none) :
    Yields (setExpected ctx c seqNumber view digest) (Inv ctx faulty digest) := by
  have hnone : ¬ c.expected.isSome = true := by simp [hexp]
  have hjob : c.job = none := Option.eq_none_iff_forall_ne_some.mpr fun job hjob =>
    hnone (h.jobOf job hjob).1
  have hcombined : c.combinedValidSignature = none :=
    Option.eq_none_iff_forall_ne_some.mpr fun sig hsig => hnone (h.complete sig hsig).2.1
  have hstores : Stores ctx faulty digest
      { c with expected := some (seqNumber, view, digest) } := { h with
    expectedDigest := by
      rintro _ ⟨⟩
      rfl }
  obtain ⟨job, hsend, hinv⟩ := hstores.trySend hconf hcombined hjob
  refine ⟨_, ?_, hinv⟩
  unfold Collector.setExpected
  rw [show (!c.expected.isSome) = true by rw [hexp]; rfl,
    show (!c.job.isSome) = true by rw [hjob]; rfl, decide_eq_true hseq]
  exact hsend

theorem Inv.step {op : Op} (hop : StepOk ctx faulty digest c op) :
    Yields (step ctx c op) (Inv ctx faulty digest) := by
  cases op with
  | addMsgWithPartialSignature partialSig repId =>
    obtain ⟨share, rfl, hsent⟩ := hop
    exact (h.addMsgWithPartialSignature hconf hsent).bind fun _ hinv => yields_ok hinv
  | addMsgWithCombinedSignature combinedSig =>
    exact (h.addMsgWithCombinedSignature hconf hop).bind fun _ hinv => yields_ok hinv
  | setExpected seqNumber view expectedDigest =>
    obtain ⟨hseq, rfl, hexp⟩ := hop
    exact h.setExpected hconf hseq view hexp
  | jobCompletion =>
    rcases hjob : c.job with _ | job
    · refine ⟨c, ?_, h⟩
      show Collector.onJobCompletion ctx c = .ok c
      unfold Collector.onJobCompletion
      rw [hjob]
    · obtain ⟨c', hc', hdone⟩ := h.onJobCompletion hconf hjob
      exact ⟨c', hc', hdone.inv⟩

end

end

/-! ## Progress -/

def honestStored (faulty : Finset ReplicaId) (c : Collector) : ℕ :=
  (c.replicasInfo.map RepInfo.repId).countP fun repId => decide (repId ∉ faulty)

theorem Entries.honestStored_le (h : Entries ctx faulty digest c) :
    c.honestStored faulty ≤ c.numberOfUnknownSignatures := by
  unfold honestStored
  rw [h.unknown, countP_map]
  refine countP_mono_left ?_
  intro info hinfo hhonest
  rw [isUnknown_iff]
  intro hinvalid
  have := (h.entry info hinfo).faulty_of_invalid hinvalid
  simp [this] at hhonest

/-- **Progress**: completed jobs lead to a valid combined signature. -/
theorem Inv.progress (h : Inv ctx faulty digest c) (hconf : Config ctx)
    (hexp : c.expected.isSome = true) (henough : ctx.numOfRequiredSigs ≤ c.honestStored faulty) :
    ∃ n ≤ c.rank, ∃ c' sig,
      Exec.run (Collector.step ctx) c (replicate n .jobCompletion) = .ok c' ∧
      c'.combinedValidSignature = some sig ∧ ctx.verifier.verify digest.bytes sig = .ok true := by
  induction hr : c.rank using Nat.strong_induction_on generalizing c with
  | _ r ih =>
    subst hr
    rcases hcombined : c.combinedValidSignature with _ | sig
    · have hunknown := h.toEntries.honestStored_le
      rcases hjob : c.job with _ | job
      · have := (h.idle hjob hcombined hexp).2
        omega
      obtain ⟨c', hc', hdone⟩ := h.onJobCompletion hconf hjob
      have hpos : 1 ≤ c.rank := by
        have := hconf.required_pos
        unfold rank
        omega
      -- the first job, and then those after it
      have hrun : ∀ n, Exec.run (Collector.step ctx) c (replicate (n + 1) .jobCompletion) =
          Exec.run (Collector.step ctx) c' (replicate n .jobCompletion) := by
        intro n
        rw [replicate_succ, run_cons]
        show Collector.onJobCompletion ctx c >>= _ = _
        rw [hc', ok_bind]
      rcases hdone.decreases with hsome | hlt
      · obtain ⟨sig, hsig⟩ := Option.isSome_iff_exists.mp hsome
        exact ⟨1, hpos, c', sig, hrun 0, hsig, (hdone.inv.complete sig hsig).2.2⟩
      · obtain ⟨n, hn, c'', sig, hn', hsig⟩ := ih c'.rank hlt hdone.inv
          (by rw [hdone.expected]; exact hexp)
          (by unfold honestStored at henough ⊢; rw [hdone.repIds]; exact henough) rfl
        exact ⟨n + 1, by omega, c'', sig, (hrun n).trans hn', hsig⟩
    · exact ⟨0, Nat.zero_le _, c, sig, rfl, hcombined, (h.complete sig hcombined).2.2⟩

/-- **Blame and progress.** In every run whose calls meet the condition, only faulty replicas are
marked, the count of unknown signatures is that of the stored shares that are not marked, and
once an expected digest is set and the shares of enough honest replicas are stored, at most one
job more than there are unknown signatures leads to a valid combined signature. -/
theorem blame_and_progress (ctx : CollectorContext) (faulty : Finset ReplicaId) (digest : Digest)
    (hconf : Config ctx) (ops : List Op)
    (hops : EveryStep (Collector.step ctx) {} (StepOk ctx faulty digest) ops) :
    ∃ c, run ctx ops = .ok c ∧
      (∀ info ∈ c.replicasInfo, info.partialSig.isSome = true ∧
        (info.state = .invalid → info.repId ∈ faulty)) ∧
      c.numberOfUnknownSignatures = c.replicasInfo.countP isUnknown ∧
      (c.expected.isSome = true → ctx.numOfRequiredSigs ≤ c.honestStored faulty →
        ∃ n ≤ c.numberOfUnknownSignatures + 1, ∃ c' sig,
          Exec.run (Collector.step ctx) c (replicate n .jobCompletion) = .ok c' ∧
          c'.combinedValidSignature = some sig ∧
          ctx.verifier.verify digest.bytes sig = .ok true) := by
  obtain ⟨c, hrun, hinv⟩ := run_induction (P := fun _ c => Inv ctx faulty digest c) inv_empty
    (fun _ _ _ hinv hop => hinv.step hconf hop) hops
  refine ⟨c, hrun, ?_, hinv.unknown, ?_⟩
  · intro info hinfo
    exact ⟨hinv.toEntries.isSome_partialSig hinfo, (hinv.entry info hinfo).faulty_of_invalid⟩
  · intro hexp henough
    obtain ⟨n, hn, hdone⟩ := hinv.progress hconf hexp henough
    refine ⟨n, Nat.le_trans hn ?_, hdone⟩
    unfold rank
    split_ifs <;> omega

/-! ## A share with the id of another replica -/

def threeOfFour : CollectorContext where
  verifier := fourSigners
  shareOrder := IterationOrder.insertion _
  numOfRequiredSigs := 3
  infoOrder := IterationOrder.insertion _

/-- A share under the id `2`, that of replica `1`, with a signature of zeros. -/
def shareOfZeros : List UInt8 := 2 :: replicate 71 0

/-- The shares of the replicas `0`, `1` and `2`, after the digest is known. -/
def threeShares : List Op :=
  [.setExpected 1 0 0,
    .addMsgWithPartialSignature (shareOfOnes 1) 0,
    .addMsgWithPartialSignature (shareOfOnes 2) 1,
    .addMsgWithPartialSignature (shareOfOnes 3) 2]

theorem completes_with_three_shares : ∃ c, run threeOfFour threeShares = .ok c ∧
      ∃ n c' sig, Exec.run (Collector.step threeOfFour) c (replicate n .jobCompletion) =
          .ok c' ∧ c'.combinedValidSignature = some sig := by
  have hconf : Config threeOfFour := ⟨by decide, rfl, by decide, by decide⟩
  have hsent : ∀ id : Fin 4, SentBy threeOfFour ∅ 0 (UInt16.ofNat id)
      ⟨shareOfOnes (UInt8.ofNat (id + 1)), by rfl⟩ := by
    intro id
    refine ⟨?_, ?_, fun _ => ?_⟩ <;> revert id <;> decide +kernel
  obtain ⟨c, hrun, -, -, hprogress⟩ := blame_and_progress threeOfFour ∅ 0 hconf threeShares
    (EveryStep.cons ⟨by decide, rfl, rfl⟩ fun _ _ => EveryStep.cons ⟨_, rfl, hsent 0⟩ fun _ _ =>
      EveryStep.cons ⟨_, rfl, hsent 1⟩ fun _ _ => EveryStep.cons ⟨_, rfl, hsent 2⟩ fun _ _ =>
        everyStep_nil _ _ _)
  have hstored : c.expected.isSome = true ∧ 3 ≤ c.honestStored ∅ := by
    rw [← Except.ok.inj hrun]
    decide +kernel
  obtain ⟨n, -, c', sig, hn, hsig, -⟩ := hprogress hstored.1 hstored.2
  exact ⟨c, hrun, n, c', sig, hn, hsig⟩

/-- Replica `0` sends a share under the id of replica `1`. The job on it and the valid shares of
the replicas `1` and `2` has replica `1` marked, and the next one, with the valid share of replica
`3`, marks it again. Three valid shares of honest replicas are stored, no job is left, and there
is no combined signature. -/
theorem honest_replica_marked : ∃ c, run threeOfFour
        [.setExpected 1 0 0,
          .addMsgWithPartialSignature shareOfZeros 0,
          .addMsgWithPartialSignature (shareOfOnes 2) 1,
          .addMsgWithPartialSignature (shareOfOnes 3) 2, .jobCompletion,
          .addMsgWithPartialSignature (shareOfOnes 4) 3, .jobCompletion] =
        .ok c ∧
      c.replicasInfo = [⟨0, some shareOfZeros, .unknown⟩,
        ⟨1, some (shareOfOnes 2), .invalid⟩,
        ⟨2, some (shareOfOnes 3), .unknown⟩,
        ⟨3, some (shareOfOnes 4), .unknown⟩] ∧
      c.numberOfUnknownSignatures = 2 ∧ c.job = none ∧ c.combinedValidSignature = none := by
  refine ⟨⟨none, 2, _, none, none, some (1, 0, 0)⟩, ?_, rfl, rfl, rfl, rfl⟩
  decide +kernel

end Collector

end ConcordBft
