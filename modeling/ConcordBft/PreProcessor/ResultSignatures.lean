import ConcordBft.Execution.RequestHandler

/-!
# Signatures on pre-execution results

A replica signs the hash of its pre-execution result. The hash covers the result code, the client
and the request number, and the data only if the code is `SUCCESS`
(`PreProcessResultHashCreator.create`). The primary collects signatures in a set ordered by the
sender, sends the first of them with the result (`serializeResultSignatures`), and every replica
checks them (`validatePreProcessResultSignatures`), with the result code that stands in front.

`deserialize_serialize` is the round trip of the signatures. `validates_iff` says when the check
finds no error.
-/

namespace ConcordBft

open Verif Verif.Exec List

/-! ## Numbers as bytes -/

/-- `toBigEndianStringBuffer` of a number of `k` bytes. -/
def beBytes : ℕ → ℕ → List UInt8
  | 0, _ => []
  | k + 1, v => beBytes k (v / 256) ++ [UInt8.ofNat (v % 256)]

@[simp] theorem length_beBytes (k v : ℕ) : (beBytes k v).length = k := by
  induction k generalizing v with
  | zero => rfl
  | succ k ih => rw [beBytes, length_append, ih]; rfl

theorem beNat_beBytes {k v : ℕ} (h : v < 256 ^ k) : Cmf.beNat (beBytes k v) = v := by
  induction k generalizing v with
  | zero =>
    rw [Nat.pow_zero, Nat.lt_one_iff] at h
    subst h
    rfl
  | succ k ih =>
    have hdiv : v / 256 < 256 ^ k := Nat.div_lt_of_lt_mul (by rwa [← Nat.pow_succ'])
    have hlast : (UInt8.ofNat (v % 256)).toNat = v % 256 := by
      rw [UInt8.toNat_ofNat']
      exact Nat.mod_mod _ _
    have hinit : Cmf.beNat (beBytes k (v / 256)) = v / 256 := ih hdiv
    unfold Cmf.beNat at hinit ⊢
    rw [beBytes, foldl_append, hinit, foldl_cons, foldl_nil, hlast, Nat.mul_comm]
    exact Nat.div_add_mod v 256

/-- A number of `k` bytes in the memory of a little-endian machine. -/
def leBytes (k v : ℕ) : List UInt8 := (beBytes k v).reverse

@[simp] theorem length_leBytes (k v : ℕ) : (leBytes k v).length = k := by
  rw [leBytes, length_reverse, length_beBytes]

theorem leBytes_inj {k v w : ℕ} (hv : v < 256 ^ k) (hw : w < 256 ^ k)
    (h : leBytes k v = leBytes k w) : v = w := by
  rw [← beNat_beBytes hv, reverse_injective h, beNat_beBytes hw]

/-! ## The signed hash -/

/-- A value of `OperationResult`; a cast admits every number. -/
abbrev ResultCode := UInt32

namespace ResultCode

def SUCCESS : ResultCode := 0
def UNKNOWN : ResultCode := 1

end ResultCode

namespace PreProcessResultHashCreator

def hashed (data : List UInt8) (code : ResultCode) (clientId : UInt16) (reqSeqNum : UInt64) :
    List UInt8 :=
  (if code = ResultCode.SUCCESS then data else []) ++
    (leBytes 4 code.toNat ++ (leBytes 2 clientId.toNat ++ leBytes 8 reqSeqNum.toNat))

def create (sha : List UInt8 → Digest) (data : List UInt8) (code : ResultCode) (clientId : UInt16)
    (reqSeqNum : UInt64) : Digest :=
  sha (hashed data code clientId reqSeqNum)

/-- The outcome that a hash stands for: the data counts only with `SUCCESS`. -/
def SameOutcome (code : ResultCode) (data : List UInt8) (code' : ResultCode)
    (data' : List UInt8) : Prop :=
  code = code' ∧ (code = ResultCode.SUCCESS → data = data')

/-- What is hashed determines the request and the outcome. -/
theorem hashed_inj {data data' : List UInt8} {code code' : ResultCode}
    {clientId clientId' : UInt16} {reqSeqNum reqSeqNum' : UInt64}
    (h : hashed data code clientId reqSeqNum = hashed data' code' clientId' reqSeqNum') :
    SameOutcome code data code' data' ∧ clientId = clientId' ∧ reqSeqNum = reqSeqNum' := by
  unfold hashed at h
  obtain ⟨hdata, h⟩ := append_inj' h (by simp)
  obtain ⟨hcode, h⟩ := append_inj h (by simp)
  obtain ⟨hclient, hseq⟩ := append_inj h (by simp)
  have hcode : code = code' :=
    UInt32.toNat_inj.mp (leBytes_inj code.toNat_lt code'.toNat_lt hcode)
  refine ⟨⟨hcode, fun hsuccess => ?_⟩, ?_, ?_⟩
  · rwa [if_pos hsuccess, if_pos (hcode ▸ hsuccess)] at hdata
  · exact UInt16.toNat_inj.mp (leBytes_inj clientId.toNat_lt clientId'.toNat_lt hclient)
  · exact UInt64.toNat_inj.mp (leBytes_inj reqSeqNum.toNat_lt reqSeqNum'.toNat_lt hseq)

end PreProcessResultHashCreator

/-! ## Sets of signatures -/

structure PreProcessResultSignature where
  signature : List UInt8
  sender_replica : UInt16
  pre_process_result : ResultCode
  deriving DecidableEq

namespace PreProcessResultSignature

/-- `operator<`: only the senders are compared. -/
def lt (a b : PreProcessResultSignature) : Bool :=
  decide (a.sender_replica.toNat < b.sender_replica.toNat)

theorem lt_iff (a b : PreProcessResultSignature) :
    lt a b = true ↔ a.sender_replica.toNat < b.sender_replica.toNat := decide_eq_true_iff

abbrev Ordered (sigs : List PreProcessResultSignature) : Prop :=
  OrdSet.Sorted (fun sig : PreProcessResultSignature => sig.sender_replica.toNat) sigs

variable {sigs : List PreProcessResultSignature}

theorem nodup_senders (h : Ordered sigs) : (sigs.map sender_replica).Nodup := by
  rw [nodup_iff_pairwise_ne, pairwise_map]
  exact h.imp fun hlt heq => hlt.ne (congrArg UInt16.toNat heq)

def serialize (s : PreProcessResultSignature) : List UInt8 :=
  beBytes 2 s.sender_replica.toNat ++ (beBytes 4 s.pre_process_result.toNat ++
    (beBytes 4 s.signature.length ++ s.signature))

/-- The first signatures of the set. -/
def serializeResultSignatures (signatures : List PreProcessResultSignature)
    (numOfRequiredSignatures : ℕ) : List UInt8 :=
  (signatures.take numOfRequiredSignatures).flatMap serialize

def deserialize (buf : List UInt8) : Exec (PreProcessResultSignature × List UInt8) := do
  let (senderId, rest) ← Cmf.readNat 2 buf
  let (preProcessResult, rest) ← Cmf.readNat 4 rest
  let (signatureSize, rest) ← Cmf.readNat 4 rest
  let (signature, rest) ← takeBytes .exception signatureSize rest
  return (⟨signature, UInt16.ofNat senderId, UInt32.ofNat preProcessResult⟩, rest)

/-- The loop; every round takes ten bytes or more. -/
def deserializeLoop : ℕ → List UInt8 → List PreProcessResultSignature →
    Exec (List PreProcessResultSignature)
  | 0, _, _ => .error .unfinished
  | fuel + 1, buf, ret => do
    let (sig, rest) ← deserialize buf
    let ret := OrdSet.insert lt sig ret
    if rest.isEmpty then return ret else deserializeLoop fuel rest ret

def deserializeResultSignatures (buf : List UInt8) : Exec (List PreProcessResultSignature) :=
  deserializeLoop (buf.length + 1) buf []

/-! ### The round trip -/

theorem readNat_append {k v : ℕ} (h : v < 256 ^ k) (rest : List UInt8) :
    Cmf.readNat k (beBytes k v ++ rest) = .ok (v, rest) := by
  unfold Cmf.readNat takeBytes
  rw [if_neg (by simp), ok_bind, take_left' (length_beBytes k v), drop_left' (length_beBytes k v)]
  dsimp only
  rw [beNat_beBytes h]
  rfl

variable {s : PreProcessResultSignature}

theorem deserialize_append (h : s.signature.length < 2 ^ 32)
    (rest : List UInt8) : deserialize (s.serialize ++ rest) = .ok (s, rest) := by
  unfold deserialize serialize
  rw [append_assoc, readNat_append s.sender_replica.toNat_lt, ok_bind]
  dsimp only
  rw [append_assoc, readNat_append s.pre_process_result.toNat_lt, ok_bind]
  dsimp only
  rw [append_assoc, readNat_append h, ok_bind]
  dsimp only
  rw [takeBytes, if_neg (by simp), ok_bind]
  dsimp only
  rw [take_left' rfl, drop_left' rfl, UInt16.ofNat_toNat, UInt32.ofNat_toNat]
  rfl

theorem serialize_ne_nil (s : PreProcessResultSignature) : s.serialize ≠ [] := by
  intro h
  have hlength := congrArg List.length h
  rw [serialize, length_append, length_beBytes, length_nil] at hlength
  omega

theorem insert_of_forall_lt {l : List PreProcessResultSignature}
    (h : ∀ s' ∈ l, lt s' s = true) : OrdSet.insert lt s l = l ++ [s] := by
  induction l with
  | nil => rfl
  | cons s' l ih =>
    obtain ⟨hhead, htail⟩ := forall_mem_cons.mp h
    rw [OrdSet.insert, if_pos hhead, ih htail, cons_append]

theorem deserializeLoop_append {fuel : ℕ} {l ret : List PreProcessResultSignature}
    (hne : l ≠ []) (hfuel : (l.flatMap serialize).length < fuel)
    (hlength : ∀ s ∈ l, s.signature.length < 2 ^ 32) (hordered : Ordered (ret ++ l)) :
    deserializeLoop fuel (l.flatMap serialize) ret = .ok (ret ++ l) := by
  induction l generalizing fuel ret with
  | nil => exact absurd rfl hne
  | cons s l ih =>
    obtain ⟨hs, hl⟩ := forall_mem_cons.mp hlength
    have hlast : OrdSet.insert lt s ret = ret ++ [s] := by
      refine insert_of_forall_lt fun s' hs' => ?_
      rw [lt_iff]
      exact (pairwise_append.mp hordered).2.2 s' hs' s mem_cons_self
    rcases fuel with _ | fuel
    · exact absurd hfuel (Nat.not_lt_zero _)
    · rw [flatMap_cons, deserializeLoop, deserialize_append hs, ok_bind]
      dsimp only
      rw [hlast]
      by_cases hnil : l = []
      · subst hnil
        rfl
      · have hrest : l.flatMap serialize ≠ [] := by
          obtain ⟨s', hs'⟩ := exists_mem_of_ne_nil l hnil
          intro h
          exact s'.serialize_ne_nil (flatMap_eq_nil_iff.mp h s' hs')
        have hpos : 0 < s.serialize.length := length_pos_of_ne_nil s.serialize_ne_nil
        rw [if_neg (by simpa using hrest), ih hnil ?_ hl ?_]
        · rw [append_assoc, singleton_append]
        · rw [flatMap_cons, length_append] at hfuel
          omega
        · rwa [append_assoc, singleton_append]

theorem deserialize_serialize {k : ℕ} (hordered : Ordered sigs)
    (hlength : ∀ s ∈ sigs, s.signature.length < 2 ^ 32) (hne : sigs.take k ≠ []) :
    deserializeResultSignatures (serializeResultSignatures sigs k) = .ok (sigs.take k) := by
  unfold deserializeResultSignatures serializeResultSignatures
  refine deserializeLoop_append hne (Nat.lt_succ_self _) (fun s hs => ?_) ?_
  · exact hlength s (mem_of_mem_take hs)
  · rw [nil_append]
    exact hordered.sublist (take_sublist k sigs)

/-! ### What the loop returns -/

theorem ordered_deserializeLoop {fuel : ℕ} {buf : List UInt8} {ret : List PreProcessResultSignature}
    (hret : Ordered ret) (h : deserializeLoop fuel buf ret = .ok sigs) : Ordered sigs := by
  induction fuel generalizing buf ret with
  | zero => cases h
  | succ fuel ih =>
    rw [deserializeLoop] at h
    obtain ⟨⟨sig, rest⟩, -, h⟩ := bind_eq_ok.mp h
    have hinsert := OrdSet.sorted_insert lt_iff (x := sig) hret
    dsimp only at h
    split_ifs at h with hrest
    · rwa [← Except.ok.inj h]
    · exact ih hinsert h

theorem ordered_of_deserialize {buf : List UInt8}
    (h : deserializeResultSignatures buf = .ok sigs) : Ordered sigs :=
  ordered_deserializeLoop List.Pairwise.nil h

end PreProcessResultSignature

/-! ## The check of a result -/

/-- What the check reads of a `PreProcessResultMsg`. -/
structure PreProcessResultMsg where
  clientProxyId : UInt16
  requestSeqNum : UInt64
  result : ResultCode
  requestBuf : List UInt8
  resultSignatures : List UInt8
  deriving DecidableEq

/-- The hash function and the `SigManager` of a replica. -/
structure ResultAuth where
  sha : List UInt8 → Digest
  myReplicaId : ReplicaId
  sign : Digest → List UInt8
  verifySig : UInt16 → Digest → List UInt8 → Bool

inductive ResultError
  | unexpectedNumberOfSignatures (expectedSignatureCount received : ℕ)
  | invalidSignature (sender_replica : UInt16)
  deriving DecidableEq

namespace ResultAuth

variable (auth : ResultAuth)

/-- The hash that the check computes for a result code. -/
def hashWith (m : PreProcessResultMsg) (code : ResultCode) : Digest :=
  PreProcessResultHashCreator.create auth.sha m.requestBuf code m.clientProxyId m.requestSeqNum

/-- The own signature is made again and compared, the others are verified. -/
def verifies (hash : Digest) (sig : PreProcessResultSignature) : Bool :=
  if auth.myReplicaId = sig.sender_replica then auth.sign hash == sig.signature
  else auth.verifySig sig.sender_replica hash sig.signature

def validatePreProcessResultSignatures (fVal : ℕ) (m : PreProcessResultMsg) :
    Exec (Option ResultError) := do
  let sigs ← PreProcessResultSignature.deserializeResultSignatures m.resultSignatures
  if sigs.length ≠ fVal + 1 then
    return some (.unexpectedNumberOfSignatures (fVal + 1) sigs.length)
  match sigs with
  | [] => .error .access
  | first :: _ =>
    let hash := auth.hashWith m first.pre_process_result
    match sigs.find? (fun sig => !auth.verifies hash sig) with
    | some sig => return some (.invalidSignature sig.sender_replica)
    | none => return none

variable {auth}

theorem validates_iff {fVal : ℕ} {m : PreProcessResultMsg} {sigs : List PreProcessResultSignature}
    (hsigs : PreProcessResultSignature.deserializeResultSignatures m.resultSignatures = .ok sigs) :
    auth.validatePreProcessResultSignatures fVal m = .ok none ↔
      sigs.length = fVal + 1 ∧ ∃ first, sigs.head? = some first ∧
        ∀ sig ∈ sigs, auth.verifies (auth.hashWith m first.pre_process_result) sig = true := by
  unfold validatePreProcessResultSignatures
  rw [hsigs, ok_bind]
  rcases sigs with _ | ⟨first, sigs⟩
  · simp
  · by_cases hcount : (first :: sigs).length = fVal + 1
    · rw [if_neg (not_not_intro hcount)]
      dsimp only
      have hfind : (first :: sigs).find?
          (fun sig => !auth.verifies (auth.hashWith m first.pre_process_result) sig) = none ↔
          ∀ sig ∈ first :: sigs,
            auth.verifies (auth.hashWith m first.pre_process_result) sig = true := by
        rw [List.find?_eq_none]
        simp
      rcases hf : (first :: sigs).find?
        (fun sig => !auth.verifies (auth.hashWith m first.pre_process_result) sig) with _ | sig
      · exact iff_of_true rfl ⟨hcount, first, rfl, hfind.mp hf⟩
      · refine iff_of_false (fun h => by cases h) ?_
        rintro ⟨-, first', hfirst, hall⟩
        cases hfirst
        rw [hfind.mpr hall] at hf
        cases hf
    · rw [if_pos hcount]
      exact iff_of_false (fun h => by cases h) fun h => hcount h.1

end ResultAuth

end ConcordBft
