import ConcordBft.Client.Matcher
import ConcordBft.Lib.Buffer

/-!
# Replies as they arrive

`MsgReceiver` takes a reply apart and queues it. The lengths in the header are those that the sender
states; the message is compared with `maxReplySize` only.
-/

namespace ConcordBft

open Verif Exec Except

def REPLY_MSG_TYPE : UInt16 := 800

/-- The fields of `ClientReplyMsgHeader`, packed into 28 bytes. -/
structure ClientReplyMsgHeader where
  msgType : UInt16
  spanContextSize : UInt32
  currentPrimaryId : ReplicaId
  reqSeqNum : UInt64
  result : UInt32
  replyLength : UInt32
  replicaSpecificInfoLength : UInt32

def ClientReplyMsgHeader.read (b : Msg) : ClientReplyMsgHeader where
  msgType := UInt16.ofNat (leNat (b.take 2))
  spanContextSize := UInt32.ofNat (leNat ((b.drop 2).take 4))
  currentPrimaryId := UInt16.ofNat (leNat ((b.drop 6).take 2))
  reqSeqNum := UInt64.ofNat (leNat ((b.drop 8).take 8))
  result := UInt32.ofNat (leNat ((b.drop 16).take 4))
  replyLength := UInt32.ofNat (leNat ((b.drop 20).take 4))
  replicaSpecificInfoLength := UInt32.ofNat (leNat ((b.drop 24).take 4))

/-- The receiver with its queue of unmatched replies. -/
structure MsgReceiver where
  maxReplySize : UInt32
  msgs : List UnmatchedReply

namespace MsgReceiver

variable (r : MsgReceiver) (source : ℕ) (message : Msg)

def push (reply : UnmatchedReply) : MsgReceiver := { r with msgs := r.msgs ++ [reply] }

/-- The checks of `onNewMessage`. Without an outstanding request any reply is stale. -/
def Admits : Prop :=
  r.maxReplySize ≠ 0 ∧ message.length ≤ r.maxReplySize.toNat ∧ 28 ≤ message.length ∧
    (ClientReplyMsgHeader.read message).msgType = REPLY_MSG_TYPE

instance : Decidable (r.Admits message) := inferInstanceAs (Decidable (_ ∧ _))

def onNewMessage : Exec MsgReceiver := do
  if ¬ r.Admits message then return r
  let header := ClientReplyMsgHeader.read message
  let startOfBody := 28 + header.spanContextSize.toNat
  let dataLen := (header.replyLength - header.replicaSpecificInfoLength).toNat
  let rsi ← slice message (startOfBody + dataLen) header.replicaSpecificInfoLength.toNat
  let data ← slice message startOfBody dataLen
  return r.push ⟨⟨some header.currentPrimaryId, header.reqSeqNum, header.result⟩, data,
    ⟨UInt16.ofNat source, rsi⟩⟩

/-- The reply lies behind the header and the span context, and what is specific to the replica is
its last part. -/
structure LengthsFit (header : ClientReplyMsgHeader) : Prop where
  rsi_le : header.replicaSpecificInfoLength.toNat ≤ header.replyLength.toNat
  inside : 28 + header.spanContextSize.toNat + header.replyLength.toNat ≤ message.length

/-- Nothing is queued, or one reply behind the others, with two adjacent ranges of the message. -/
def QueuesRanges (r' : MsgReceiver) : Prop :=
  let header := ClientReplyMsgHeader.read message
  let start := 28 + header.spanContextSize.toNat
  let dataLen := header.replyLength.toNat - header.replicaSpecificInfoLength.toNat
  r' = r ∨ LengthsFit message header ∧ ∃ reply, r' = r.push reply ∧
    reply.data = (message.drop start).take dataLen ∧
    reply.rsi.data = (message.drop (start + dataLen)).take header.replicaSpecificInfoLength.toNat

variable {r source message}

/-- **A reply is taken apart inside the message** exactly if its lengths fit. -/
theorem queuesRanges_iff : Yields (r.onNewMessage source message) (r.QueuesRanges message) ↔
    (r.Admits message → LengthsFit message (ClientReplyMsgHeader.read message)) := by
  unfold onNewMessage QueuesRanges
  by_cases h : r.Admits message
  · rw [if_neg (not_not.mpr h)]
    dsimp only
    generalize ClientReplyMsgHeader.read message = header
    constructor
    · rintro ⟨r', hr', -⟩ -
      -- a difference that wraps is longer than any message that is let in
      have hinside := returns_slice.mp (Returns.of_bind ⟨r', hr'⟩)
      rw [UInt32.toNat_sub] at hinside
      have hsize := h.2.1
      have hmax := r.maxReplySize.toNat_lt
      have hreply := header.replyLength.toNat_lt
      have hrsi := header.replicaSpecificInfoLength.toNat_lt
      exact ⟨by omega, by omega⟩
    · intro hfit
      obtain ⟨hle, hinside⟩ := hfit h
      rw [UInt32.toNat_sub_of_le _ _ (UInt32.le_iff_toNat_le.mpr hle), slice_eq_ok (by omega),
        ok_bind, slice_eq_ok (by omega), ok_bind]
      exact yields_ok (Or.inr ⟨⟨hle, hinside⟩, _, rfl, rfl, rfl⟩)
  · rw [if_pos h]
    exact iff_of_true (yields_ok (Or.inl rfl)) fun hadmits => absurd hadmits h

/-- The bytes of a header that states a reply of one byte. -/
def headerOnly : Msg := [32, 3] ++ List.replicate 18 0 ++ [1] ++ List.replicate 7 0

theorem not_queuesRanges :
    ¬ Yields (onNewMessage ⟨100, []⟩ 0 headerOnly) (QueuesRanges ⟨100, []⟩ headerOnly) := by
  rintro ⟨r', hr', -⟩
  cases hr'

end MsgReceiver

end ConcordBft
