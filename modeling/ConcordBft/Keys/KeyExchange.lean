import ConcordBft.Lib.Exec
import ConcordBft.Lib.Timeline
import ConcordBft.Types
import Mathlib.Data.List.Sort

/-!
# Crypto systems by checkpoint, and key exchanges of replicas

The model of `CryptoManager` and of the part of `Cryptosystem` that key exchanges change. Keys are
strings of bytes in hexadecimal. A crypto system of a replica holds the verification keys of all
signers, counted from one, and the one private key of its signer. After every change the signer
and the verifiers are built anew, which fails on a key that is not 32 bytes in hexadecimal.
`cryptoSystems` lists the systems from the last checkpoint down.

Then the model of `KeyExchangeManager::onKeyExchange`, `notifyRegistry` and `loadPublicKeys`, with
the store of the public keys, its reserved pages and the private keys. A page holds the keys of one
replica; that it is read back as it was written is the business of `Serializable`. What the
manager sends, logs and counts is left out, and so is `initial_exchange_`, which decides only
whether the main public key is sent.
-/

namespace ConcordBft

open Verif Verif.Exec

abbrev Key := List UInt8

def isHexDigit (b : UInt8) : Bool :=
  (decide (48 ≤ b) && decide (b ≤ 57)) || (decide (65 ≤ b) && decide (b ≤ 70)) ||
    (decide (97 ≤ b) && decide (b ≤ 102))

/-- `fromHexString`: `unhex` throws on an odd length or on a character that is no digit, and the
bytes must be as many as a key has. -/
def fromHexString (key : Key) : Exec Unit :=
  if key.length % 2 = 0 ∧ key.all isHexDigit then ensure (key.length == 64)
  else .error .exception

/-- `newSigner` takes the first 64 characters. -/
def newSigner (key : Key) : Exec Unit :=
  if key.length < 64 then .error .buffer else fromHexString (key.take 64)

/-- The keys of a system for `numSigners` signers. Entry `0` of `verificationKeys` is not used. -/
structure Cryptosystem (numSigners : ℕ) where
  signerID : Fin (numSigners + 1)
  privateKey : Key
  verificationKeys : Fin (numSigners + 1) → Key

variable {numSigners : ℕ}

namespace Cryptosystem

variable (sys : Cryptosystem numSigners)

def updateKeys (shareSecretKey shareVerificationKey : Key) : Cryptosystem numSigners :=
  { sys with
    privateKey := shareSecretKey
    verificationKeys := Function.update sys.verificationKeys sys.signerID shareVerificationKey }

def updateVerificationKey (shareVerificationKey : Key) (signerIndex : UInt16) :
    Exec (Cryptosystem numSigners) :=
  if h : signerIndex.toNat < numSigners + 1 then
    .ok { sys with
      verificationKeys :=
        Function.update sys.verificationKeys ⟨signerIndex.toNat, h⟩ shareVerificationKey }
  else .error .index

/-- `CryptoSystemWrapper::init`. The three verifiers are built from the same keys. -/
def init : Exec Unit := do
  newSigner sys.privateKey
  (List.finRange numSigners).forM fun i => fromHexString (sys.verificationKeys i.succ)

end Cryptosystem

/-- The checkpoint from which a key exchanged at `sn` counts. -/
def activationCheckpoint (sn : ℤ) : ℕ := ((sn.tdiv checkpointWindowSize + 2) % 2 ^ 64).toNat

@[ext] structure CryptoManager (numSigners : ℕ) where
  cryptoSystems : Timeline (Cryptosystem numSigners)

namespace CryptoManager

/-- The default system is always at checkpoint `0`. -/
def construct (cryptoSys : Cryptosystem numSigners) : Exec (CryptoManager numSigners) := do
  cryptoSys.init
  return ⟨Timeline.start cryptoSys⟩

variable (m : CryptoManager numSigners)

def get (sn : ℤ) : Exec (Cryptosystem numSigners) :=
  match m.cryptoSystems.floor (((sn - 1).tdiv checkpointWindowSize) % 2 ^ 64).toNat with
  | some sys => .ok sys
  | none => .error .assertion

/-- `create(sn)`, and the system it returns after the change. -/
def create (sn : ℤ) (change : Cryptosystem numSigners → Exec (Cryptosystem numSigners)) :
    Exec (CryptoManager numSigners) := do
  let sys ← change (m.cryptoSystems.source (activationCheckpoint sn))
  sys.init
  return ⟨m.cryptoSystems.replace (activationCheckpoint sn) sys⟩

/-- The systems after `create(sn)` and the change, whatever `init` makes of it. -/
def inserted (sn : ℤ) (change : Cryptosystem numSigners → Exec (Cryptosystem numSigners)) :
    CryptoManager numSigners :=
  let sys := m.cryptoSystems.source (activationCheckpoint sn)
  ⟨m.cryptoSystems.replace (activationCheckpoint sn) ((change sys).toOption.getD sys)⟩

def onPrivateKeyExchange (secretKey verificationKey : Key) (sn : ℤ) :
    Exec (CryptoManager numSigners) :=
  m.create sn fun sys => .ok (sys.updateKeys secretKey verificationKey)

def onPublicKeyExchange (verificationKey : Key) (signerIndex : UInt16) (sn : ℤ) :
    Exec (CryptoManager numSigners) :=
  m.create sn fun sys => sys.updateVerificationKey verificationKey (signerIndex + 1)

end CryptoManager

/-! ## Key exchanges -/

def toSeqNum (n : UInt64) : ℤ := n.toBitVec.toInt

structure KeyExchangeMsg where
  op : UInt8
  pubkey : Key
  repID : UInt16
  generatedSn : UInt64
  epoch : UInt64
  deriving DecidableEq

namespace KeyExchangeMsg

def EXCHANGE : UInt8 := 0

def HAS_KEYS : UInt8 := 1

end KeyExchangeMsg

/-- What `onKeyExchange` answers. -/
inductive KeyExchangeReply
  | hasKeysTrue
  | hasKeysFalse
  | invalidEpoch
  | outsideWorkingWindow
  | done
  deriving DecidableEq

def KeyExchangeReply.text : KeyExchangeReply → String
  | hasKeysTrue => "true"
  | hasKeysFalse => "false"
  | invalidEpoch => "invalid epoch"
  | outsideWorkingWindow => "gen_seq_num_ouside_workingwindow"
  | done => "ok"

/-- `std::map<SeqNum, std::string>`, in the order of the sequence numbers. -/
abbrev KeysBySeqNum := List (ℤ × Key)

namespace KeysBySeqNum

def contains (keys : KeysBySeqNum) (sn : ℤ) : Bool := keys.any fun e => e.1 == sn

def insert (keys : KeysBySeqNum) (sn : ℤ) (key : Key) : KeysBySeqNum :=
  OrdSet.insert (fun a b => decide (a.1 < b.1)) (sn, key) keys

/-- `at(sn)`. -/
def key? (keys : KeysBySeqNum) (sn : ℤ) : Option Key :=
  (keys.find? fun e => e.1 == sn).map Prod.snd

/-- The length of a serialized `PublicKeys`: the name of the class, its version, the number of
keys, and each key with its sequence number. -/
def serializedSize (keys : KeysBySeqNum) : ℕ :=
  (8 + 44) + (8 + 1) + 8 + (keys.map fun e => 8 + (8 + e.2.length)).sum

end KeysBySeqNum

/-- `std::map<uint16_t, PublicKeys>`. -/
abbrev ClusterKeys := UInt16 → Option KeysBySeqNum

/-- What key exchanges read from the configuration. -/
structure KeyExchangeConfig (numReplicas : ℕ) where
  repID : UInt16
  /-- The number of replicas has 16 bits. -/
  numReplicas_lt : numReplicas < 2 ^ 16
  repID_lt : repID.toNat < numReplicas
  /-- `2 * fVal + cVal`. -/
  quorumSize : ℕ
  waitForFullCommOnStartup : Bool
  keyExchangeOnStart : Bool
  sizeOfReservedPage : ℕ
  /-- The pages from the first one of the key store on. -/
  numberOfReservedPages : ℕ

/-- `generated`: a pair that waits for its exchange. -/
structure GeneratedKeys where
  priv : Key
  pub : Key
  /-- The id of the request, empty if no pair waits. -/
  cid : String := ""
  sn : ℤ := 0

def GeneratedKeys.clear : GeneratedKeys := ⟨[], [], "", 0⟩

structure KeyExchangeManager (numReplicas : ℕ) where
  selfEpochNumber : UInt64
  publicKeys : ClusterKeys
  reservedPages : ClusterKeys
  privateKeys : KeysBySeqNum
  candidate : GeneratedKeys
  crypto : CryptoManager numReplicas

namespace ClusterKeys

variable (keys : ClusterKeys)

def keyExists (repId : UInt16) : Bool := (keys repId).isSome

def keyExistsAt (repId : UInt16) (sn : ℤ) : Bool :=
  match keys repId with
  | some ks => ks.contains sn
  | none => false

def getKey (repId : UInt16) (sn : ℤ) : Exec Key :=
  match (keys repId).bind fun ks => ks.key? sn with
  | some key => .ok key
  | none => .error .assertion

/-- `clusterKeys_.size()`. -/
def numOfExchangedReplicas : ℕ :=
  ((List.range (2 ^ 16)).filter fun i => keys.keyExists (UInt16.ofNat i)).length

end ClusterKeys

variable {numReplicas : ℕ}

def kInitialKeyExchangeCid : String := "KEY-EXCHANGE-"

def generateCid (cid : String) (repID : UInt16) (now : ℕ) : String :=
  cid ++ toString repID ++ "-" ++ toString now

namespace KeyExchangeManager

section

variable (cfg : KeyExchangeConfig numReplicas)

def liveQuorumSize : ℕ := if cfg.waitForFullCommOnStartup then numReplicas else cfg.quorumSize

variable (s : KeyExchangeManager numReplicas)

def exchanged : Bool :=
  if cfg.keyExchangeOnStart then
    decide (liveQuorumSize cfg ≤ s.publicKeys.numOfExchangedReplicas + 1) &&
      s.publicKeys.keyExists cfg.repID
  else true

/-- `ClusterKeyStore::push`: a key that is there already must be the same. The keys of the replica
are then written to its page. -/
def push (repID : UInt16) (pubkey : Key) (sn : ℤ) : Exec (KeyExchangeManager numReplicas) := do
  let keys := (s.publicKeys repID).getD []
  ensure (match keys.key? sn with
    | some key => key == pubkey
    | none => true)
  let keys := keys.insert sn pubkey
  ensure (decide (repID.toNat < cfg.numberOfReservedPages))
  ensure (decide (keys.serializedSize ≤ cfg.sizeOfReservedPage))
  return { s with
    publicKeys := Function.update s.publicKeys repID (some keys)
    reservedPages := Function.update s.reservedPages repID (some keys) }

def exchangePrivate (pubkey : Key) (sn : ℤ) : Exec (KeyExchangeManager numReplicas) := do
  ensure (s.candidate.pub == pubkey)
  ensure (!s.privateKeys.contains sn)
  let crypto ← s.crypto.onPrivateKeyExchange s.candidate.priv pubkey sn
  return { s with
    privateKeys := s.privateKeys.insert sn s.candidate.priv
    candidate := .clear
    crypto := crypto }

def onKeyExchange (kemsg : KeyExchangeMsg) (reqSn : UInt64) :
    Exec (KeyExchangeReply × KeyExchangeManager numReplicas) := do
  let sn := toSeqNum kemsg.generatedSn
  if kemsg.op = KeyExchangeMsg.HAS_KEYS then
    return (if s.exchanged cfg then .hasKeysTrue else .hasKeysFalse, s)
  if kemsg.epoch ≠ s.selfEpochNumber then
    return (.invalidEpoch, s)
  if kemsg.generatedSn.toNat < reqSn.toNat / kWorkWindowSize * kWorkWindowSize then
    return (.outsideWorkingWindow, s)
  if s.publicKeys.keyExistsAt kemsg.repID sn then
    return (.done, s)
  let s ← s.push cfg kemsg.repID kemsg.pubkey sn
  if kemsg.repID = cfg.repID then
    let s ← s.exchangePrivate kemsg.pubkey sn
    return (.done, s)
  else
    let crypto ← s.crypto.onPublicKeyExchange kemsg.pubkey kemsg.repID sn
    return (.done, { s with crypto := crypto })

/-- The manager when `onKeyExchange` ends, by a return or by a fault. An exchange that fails was
accepted, and its key stays in the store. What follows is undone by nothing either: the page of the
replica once it is written, the private key once it is in its file, and the crypto system that
`create` inserts and that `init` then refuses. -/
def leaves (kemsg : KeyExchangeMsg) (reqSn : UInt64) : KeyExchangeManager numReplicas :=
  let sn := toSeqNum kemsg.generatedSn
  match s.onKeyExchange cfg kemsg reqSn with
  | .ok (_, s) => s
  | .error _ =>
    match s.push cfg kemsg.repID kemsg.pubkey sn with
    | .error _ => { s with
        publicKeys := Function.update s.publicKeys kemsg.repID
          (some (((s.publicKeys kemsg.repID).getD []).insert sn kemsg.pubkey)) }
    | .ok s =>
      if kemsg.repID = cfg.repID then
        let cleared := { s with candidate := .clear }
        if s.candidate.pub ≠ kemsg.pubkey ∨ s.privateKeys.contains sn then cleared
        else { cleared with
          privateKeys := s.privateKeys.insert sn s.candidate.priv
          crypto := s.crypto.inserted sn fun sys => .ok (sys.updateKeys s.candidate.priv kemsg.pubkey) }
      else { s with
        crypto := s.crypto.inserted sn fun sys =>
          sys.updateVerificationKey kemsg.pubkey (kemsg.repID + 1) }

/-- `PrivateKeys::lastGeneratedSeqnum`. Its own `generated` is empty between two calls. -/
def lastGeneratedSeqnum : ℤ := (s.privateKeys.getLast?.map Prod.fst).getD 0

/-- The keys were exchanged for a sequence number less than two checkpoints ago. -/
def exchangedRecently (sn : ℤ) : Bool :=
  decide (s.lastGeneratedSeqnum ≠ 0) &&
    decide ((sn - s.lastGeneratedSeqnum).tdiv checkpointWindowSize < 2)

/-- `generateConsensusKeyAndSendInternalClientMsg(sn)`, with the pair that the generator would
return and the time for the id of the request; and the message that is sent. -/
def generateConsensusKey (sn : UInt64) (priv pub : Key) (now : ℕ) :
    KeyExchangeManager numReplicas × Option KeyExchangeMsg :=
  if s.exchangedRecently (toSeqNum sn) then (s, none)
  else
    let candidate :=
      if toSeqNum sn ≠ s.candidate.sn ∨ s.candidate.cid = "" then
        ⟨priv, pub, generateCid kInitialKeyExchangeCid cfg.repID now, toSeqNum sn⟩
      else s.candidate
    ({ s with candidate := candidate },
      some ⟨KeyExchangeMsg.EXCHANGE, candidate.pub, cfg.repID, sn, s.selfEpochNumber⟩)

/-- The public keys of all replicas in the order of a multimap: by sequence number, and for one
sequence number by replica. -/
def orderedPublicKeys : List (ℤ × UInt16 × Key) :=
  ((List.range numReplicas).flatMap fun i =>
    ((s.publicKeys (UInt16.ofNat i)).getD []).map fun e => (e.1, UInt16.ofNat i, e.2)).insertionSort
      fun a b => a.1 ≤ b.1

def notifyRegistry : Exec (KeyExchangeManager numReplicas) := do
  let crypto ← s.orderedPublicKeys.foldlM
    (fun crypto e => crypto.onPublicKeyExchange e.2.2 e.2.1 e.1) s.crypto
  let crypto ← s.privateKeys.foldlM (fun crypto e => do
    let pub ← s.publicKeys.getKey cfg.repID e.1
    crypto.onPrivateKeyExchange e.2 pub e.1) crypto
  return { s with crypto := crypto }

def loadAllReplicasKeyStores : KeyExchangeManager numReplicas :=
  { s with publicKeys := fun i => if i.toNat < numReplicas then s.reservedPages i else none }

/-- Called at the end of state transfer. -/
def loadPublicKeys : Exec (KeyExchangeManager numReplicas) := do
  let s := s.loadAllReplicasKeyStores
  ensure (!(cfg.keyExchangeOnStart && s.exchanged cfg) ||
    decide (liveQuorumSize cfg ≤ s.publicKeys.numOfExchangedReplicas))
  s.notifyRegistry cfg

/-- A new process with the initial keys `cryptoSys`, the reserved pages and the file of private
keys. -/
def restart (cryptoSys : Cryptosystem numReplicas) : Exec (KeyExchangeManager numReplicas) := do
  let crypto ← CryptoManager.construct cryptoSys
  let s := { s with crypto := crypto, candidate := .clear }
  s.loadAllReplicasKeyStores.notifyRegistry cfg

end

def firstStart (cfg : KeyExchangeConfig numReplicas) (selfEpochNumber : UInt64)
    (cryptoSys : Cryptosystem numReplicas) : Exec (KeyExchangeManager numReplicas) := do
  let crypto ← CryptoManager.construct cryptoSys
  notifyRegistry cfg ⟨selfEpochNumber, fun _ => none, fun _ => none, [], .clear, crypto⟩

end KeyExchangeManager

end ConcordBft
