import ConcordBft.Lib.Run
import ConcordBft.Types

/-!
# Certificates made of messages

The model of `MsgsCertificate`, the quorum counter that `CheckpointInfo` instantiates. The
template parameters and the constructor arguments are the structure `Params`. The counters of the
source are `uint16_t`: they are natural numbers here and every increment is reduced modulo `2^16`.
A class table of `numOfClasses` entries is a list of that length.
-/

namespace ConcordBft

open Verif Verif.Exec

namespace MsgsCertificate

variable {T : Type}

structure Params (T : Type) where
  selfTrust : Bool
  selfIsRequired : Bool
  keepAllMsgs : Bool
  equivalent : T → T → Bool
  numOfReps : ℕ
  maxFails : ℕ
  required : ℕ
  selfId : ReplicaId
  /-- The `static_assert` of the constructor. -/
  trust : selfIsRequired = true → selfTrust = true

structure MsgClassInfo where
  size : ℕ
  representativeReplica : ReplicaId
  deriving DecidableEq, Repr

structure Certificate (T : Type) where
  msgsFromReplicas : List (ReplicaId × T) := []
  msgClasses : List MsgClassInfo := []
  complete : Bool := false
  full : Bool := false
  /-- `none` is `NULL_CLASS`. -/
  bestClass : Option ℕ := none
  sizeOfBestClass : ℕ := 0
  hasTrustedSelfClass : Bool := false

namespace Certificate

variable (c : Certificate T)

def msgOf (replicaId : ReplicaId) : Option T :=
  c.msgsFromReplicas.lookup replicaId

/-- `pos->second`, where `pos` may be the end of the map. -/
def representativeMsg (cls : MsgClassInfo) : Exec T :=
  match c.msgOf cls.representativeReplica with
  | some m => .ok m
  | none => .error .index

def hasMsgFromReplica (replicaId : ReplicaId) : Bool :=
  (c.msgOf replicaId).isSome

/-- `msgsFromReplicas[replicaId] = msg` for a replica without a message. -/
def store (msg : T) (replicaId : ReplicaId) : Certificate T :=
  { c with msgsFromReplicas := (replicaId, msg) :: c.msgsFromReplicas }

def isComplete : Bool := c.complete

def isFull : Bool := c.full

end Certificate

variable (p : Params T) (c : Certificate T)

def tryToMarkComplete : Certificate T :=
  if !p.selfIsRequired || c.hasMsgFromReplica p.selfId then { c with complete := true } else c

def tryToMarkFull : Certificate T :=
  if !p.selfIsRequired || c.hasMsgFromReplica p.selfId then { c with full := true } else c

/-- The loop that looks for the class of a message, from the class with index `i` on. -/
def findClass (c : Certificate T) (msg : T) :
    ℕ → List MsgClassInfo → Exec (Option (ℕ × MsgClassInfo))
  | _, [] => .ok none
  | i, cls :: classes => do
    let representativeMsg ← c.representativeMsg cls
    if p.equivalent representativeMsg msg then return some (i, cls)
    else findClass c msg (i + 1) classes

/-- The class `cls` with index `i` counts one more message, and becomes the best one if it is now
the largest. -/
def raiseClass (i : ℕ) (cls : MsgClassInfo) : Certificate T :=
  let size := (cls.size + 1) % 2 ^ 16
  let c := { c with msgClasses := c.msgClasses.set i { cls with size := size } }
  if c.sizeOfBestClass < size then { c with bestClass := some i, sizeOfBestClass := size } else c

/-- Marks the certificate when the class with index `i` is the best one and large enough. -/
def markBestClass (i : ℕ) : Certificate T :=
  let c := if c.bestClass = some i ∧ p.required ≤ c.sizeOfBestClass then tryToMarkComplete p c
    else c
  if c.bestClass = some i ∧ p.numOfReps ≤ c.sizeOfBestClass then tryToMarkFull p c else c

/-- A peer's message joins the class `cls` with index `i`. -/
def joinClass (i : ℕ) (cls : MsgClassInfo) : Certificate T :=
  markBestClass p (raiseClass c i cls) i

/-- A peer's message opens a class. -/
def newClass (replicaId : ReplicaId) : Certificate T :=
  if p.numOfReps ≤ c.msgClasses.length then c
  else
    let relevantClass := c.msgClasses.length
    let c := { c with msgClasses := c.msgClasses ++ [⟨1, replicaId⟩] }
    if c.bestClass = none then { c with bestClass := some relevantClass, sizeOfBestClass := 1 }
    else c

def addPeerMsg (msg : T) (replicaId : ReplicaId) : Exec (Certificate T) :=
  if c.hasTrustedSelfClass then
    match c.msgClasses with
    | [] => .error .index
    | cls :: _ => do
      let representativeMsg ← c.representativeMsg cls
      if p.equivalent representativeMsg msg then return joinClass p c 0 cls else return c
  else do
    match ← findClass p c msg 0 c.msgClasses with
    | some (i, cls) => return joinClass p c i cls
    | none => return newClass p c replicaId

/-- The size that `addSelfMsg` gives to the class of the own message: the class it finds is
counted up, and then once more. -/
def selfClassSize (relevantClass : Option (ℕ × MsgClassInfo)) : ℕ :=
  match relevantClass with
  | none => 1
  | some (_, cls) => ((cls.size + 1) % 2 ^ 16 + 1) % 2 ^ 16

/-- The class table with the one class of the own message. -/
def resetToSelfClass (size : ℕ) : Certificate T :=
  { c with
    msgClasses := [⟨size, p.selfId⟩], bestClass := some 0, sizeOfBestClass := size,
    hasTrustedSelfClass := true }

def addSelfMsg (msg : T) : Exec (Certificate T) := do
  let relevantClass ← findClass p c msg 0 c.msgClasses
  let size := selfClassSize relevantClass
  let c := resetToSelfClass p c size
  let c := if p.required ≤ size then tryToMarkComplete p c else c
  return if p.numOfReps ≤ size then tryToMarkFull p c else c

/-- `addMsg`: whether the message was added, and the certificate after the call. -/
def addMsg (msg : T) (replicaId : ReplicaId) : Exec (Bool × Certificate T) :=
  if c.hasMsgFromReplica replicaId then .ok (false, c)
  else do
    let c := c.store msg replicaId
    if (p.keepAllMsgs && !c.full) || !c.complete then
      if p.selfTrust && replicaId == p.selfId then return (true, ← addSelfMsg p c msg)
      else return (true, ← addPeerMsg p c msg replicaId)
    else return (true, c)

def resetAndFree : Certificate T :=
  let c := { c with complete := false, full := false }
  if c.msgsFromReplicas.isEmpty then c
  else { c with
    msgsFromReplicas := [], msgClasses := [], bestClass := none, sizeOfBestClass := 0,
    hasTrustedSelfClass := false }

/-! ## Runs -/

inductive Op (T : Type)
  | addMsg (msg : T) (replicaId : ReplicaId)
  | resetAndFree

def step : Op T → Exec (Certificate T)
  | .addMsg msg replicaId => do return (← addMsg p c msg replicaId).2
  | .resetAndFree => .ok (resetAndFree c)

def run (ops : List (Op T)) : Exec (Certificate T) := Exec.run (step p) {} ops

/-- The messages passed to `addMsg` since the last reset. -/
def added (ops : List (Op T)) : List (ReplicaId × T) :=
  ops.foldl (fun acc op => match op with
    | .addMsg msg replicaId => acc ++ [(replicaId, msg)]
    | .resetAndFree => []) []

end MsgsCertificate

end ConcordBft
