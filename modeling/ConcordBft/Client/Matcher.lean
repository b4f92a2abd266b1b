import ConcordBft.Lib.OrdMap
import ConcordBft.Lib.Run
import ConcordBft.Types
import Mathlib.Data.Finset.Card

/-!
# The matcher of the client

The model of `Matcher`, which collects the replies to one request until a quorum of them match.
Replies are grouped by a `std::map` whose keys are compared with `MatchKey::operator<`, written
here as the source has it: `ReplyMetadata::operator<` does not look at the result.
-/

namespace ConcordBft

open Verif Verif.Exec

abbrev Msg := List UInt8

/-- `operator<` of `std::optional<ReplicaId>`. -/
def optionalLt : Option ReplicaId → Option ReplicaId → Bool
  | none, some _ => true
  | some a, some b => decide (a < b)
  | _, none => false

structure ReplyMetadata where
  primary : Option ReplicaId
  seqNum : UInt64
  result : UInt32
  deriving DecidableEq, Repr

def ReplyMetadata.lt (a b : ReplyMetadata) : Bool :=
  optionalLt a.primary b.primary ||
    (decide (a.primary = b.primary) && decide (a.seqNum < b.seqNum))

structure MatchKey where
  metadata : ReplyMetadata
  data : Msg
  deriving DecidableEq, Repr

def MatchKey.lt (a b : MatchKey) : Bool :=
  a.metadata.lt b.metadata || (decide (a.metadata = b.metadata) && decide (a.data < b.data))

structure ReplicaSpecificInfo where
  sender : ReplicaId
  data : Msg
  deriving DecidableEq, Repr

structure UnmatchedReply where
  metadata : ReplyMetadata
  data : Msg
  rsi : ReplicaSpecificInfo
  deriving DecidableEq, Repr

structure MofN where
  waitFor : ℕ
  destinations : Finset ReplicaId

structure MatchConfig where
  quorum : MofN
  sequenceNumber : UInt64
  includePrimary : Bool := true

/-- The map from replicas to their specific information. -/
abbrev RsiMap := List (ReplicaId × Msg)

structure Reply where
  result : UInt32
  matchedData : Msg
  rsi : RsiMap
  deriving DecidableEq, Repr

structure Match where
  reply : Reply
  primary : Option ReplicaId
  deriving DecidableEq, Repr

structure Matcher where
  «matches» : List (MatchKey × RsiMap) := []
  primary : Option ReplicaId := none
  deriving DecidableEq, Repr

namespace Matcher

variable (config : MatchConfig)

def validSource (source : ReplicaId) : Bool := decide (source ∈ config.quorum.destinations)

variable (reply : UnmatchedReply)

def valid : Bool :=
  decide (config.sequenceNumber = reply.metadata.seqNum) && validSource config reply.rsi.sender

def keyOf : MatchKey :=
  ⟨if config.includePrimary then reply.metadata else { reply.metadata with primary := none },
    reply.data⟩

def insertOrAssign (rsi : Option RsiMap) : RsiMap :=
  OrdMap.upsert (fun a b => decide (a < b)) reply.rsi.sender (fun _ => reply.rsi.data)
    (rsi.getD [])

def hasQuorum (entry : MatchKey × RsiMap) : Bool :=
  decide (entry.2.length = config.quorum.waitFor)

/-- `Matcher::match`; the map of the entry found is moved into the result. -/
def «match» (m : Matcher) : Matcher × Option Match :=
  let i := m.matches.findIdx (hasQuorum config)
  match m.matches[i]? with
  | none => (m, none)
  | some (key, rsi) =>
    ({ «matches» := m.matches.modify i fun entry => (entry.1, [])
       primary := key.metadata.primary },
      some ⟨⟨key.metadata.result, key.data, rsi⟩, key.metadata.primary⟩)

def onReply (m : Matcher) (reply : UnmatchedReply) : Matcher × Option Match :=
  if valid config reply then
    «match» config { m with
      «matches» := OrdMap.upsert MatchKey.lt (keyOf config reply) (insertOrAssign reply) m.matches }
  else (m, none)

def clearReplies (m : Matcher) : Matcher := { m with «matches» := [] }

inductive Op
  | onReply (reply : UnmatchedReply)
  | clearReplies

def step (m : Matcher) : Op → Exec Matcher
  | .onReply reply => .ok (onReply config m reply).1
  | .clearReplies => .ok m.clearReplies

def run (ops : List Op) : Exec Matcher := Exec.run (step config) {} ops

end Matcher

end ConcordBft
