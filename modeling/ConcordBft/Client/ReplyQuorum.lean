import ConcordBft.Client.Matcher

/-!
# What a match of the client proves

1. Two keys that `MatchKey::operator<` cannot tell apart are equal when they have the same result
   (`eq_of_not_lt`); keys that differ only in the result and the data are not told apart.
2. As long as replies with one primary have one result, every entry of the map holds replies with
   exactly its key (`Collected`), so a match was sent by a quorum of the destinations
   (`match_sent_by_quorum`).
3. Two replies with different results and different data make a match that only one replica sent
   (`match_of_different_replies`).
-/

namespace ConcordBft

open Verif Verif.Exec List MatchKey

/-! ## The comparison of keys -/

theorem eq_of_not_optionalLt {a b : Option ReplicaId} (h : optionalLt a b = false)
    (h' : optionalLt b a = false) : a = b := by
  rcases a with _ | a <;> rcases b with _ | b
  · rfl
  · cases h
  · cases h'
  · unfold optionalLt at h h'
    rw [decide_eq_false_iff_not, UInt16.lt_iff_toNat_lt] at h h'
    rw [Option.some.injEq, ← UInt16.toNat_inj]
    omega

theorem MatchKey.eq_of_not_lt {a b : MatchKey} (hseq : a.metadata.seqNum = b.metadata.seqNum)
    (hresult : a.metadata.primary = b.metadata.primary → a.metadata.result = b.metadata.result)
    (h : a.lt b = false) (h' : b.lt a = false) : a = b := by
  unfold lt ReplyMetadata.lt at h h'
  rw [Bool.or_eq_false_iff, Bool.or_eq_false_iff] at h h'
  have hprimary := eq_of_not_optionalLt h.1.1 h'.1.1
  have hmeta : a.metadata = b.metadata := by
    cases ha : a.metadata
    cases hb : b.metadata
    simp only [ha, hb] at hseq hresult hprimary
    simp only [ReplyMetadata.mk.injEq]
    exact ⟨hprimary, hseq, hresult hprimary⟩
  have hle : a.data ≤ b.data := by simpa [hmeta] using h'.2
  have hge : b.data ≤ a.data := by simpa [hmeta] using h.2
  cases a
  cases b
  rw [mk.injEq]
  exact ⟨hmeta, List.le_antisymm hle hge⟩

namespace Matcher

variable {config : MatchConfig}

/-! ## What the entries hold -/

/-- The condition on a call: the entries with the primary of the reply have its result. -/
def SameResult (config : MatchConfig) (m : Matcher) : Op → Prop
  | .onReply reply => valid config reply = true → ∀ entry ∈ m.matches,
    entry.1.metadata.primary = (keyOf config reply).metadata.primary →
      entry.1.metadata.result = reply.metadata.result
  | .clearReplies => True

/-- An entry holds, under distinct replicas, replies with exactly its key. -/
structure Holds (config : MatchConfig) (replies : List UnmatchedReply)
    (entry : MatchKey × RsiMap) : Prop where
  seqNum : entry.1.metadata.seqNum = config.sequenceNumber
  sorted : OrdSet.Sorted (fun e => e.1.toNat) entry.2
  sent : ∀ e ∈ entry.2, ∃ reply ∈ replies, valid config reply = true ∧
    reply.rsi.sender = e.1 ∧ keyOf config reply = entry.1

def Collected (config : MatchConfig) (replies : List UnmatchedReply) (m : Matcher) : Prop :=
  ∀ entry ∈ m.matches, Holds config replies entry

variable {replies : List UnmatchedReply} {reply : UnmatchedReply} {m : Matcher}

theorem Holds.mono {replies' : List UnmatchedReply} {entry : MatchKey × RsiMap}
    (h : Holds config replies entry) (hsub : ∀ reply ∈ replies, reply ∈ replies') :
    Holds config replies' entry := by
  refine ⟨h.seqNum, h.sorted, ?_⟩
  intro e he
  obtain ⟨reply, hmem, hreply⟩ := h.sent e he
  exact ⟨reply, hsub reply hmem, hreply⟩

theorem seqNum_keyOf (reply : UnmatchedReply) :
    (keyOf config reply).metadata.seqNum = reply.metadata.seqNum := by
  unfold keyOf
  split_ifs <;> rfl

theorem result_keyOf (reply : UnmatchedReply) :
    (keyOf config reply).metadata.result = reply.metadata.result := by
  unfold keyOf
  split_ifs <;> rfl

theorem eq_of_valid (h : valid config reply = true) :
    reply.metadata.seqNum = config.sequenceNumber ∧
      reply.rsi.sender ∈ config.quorum.destinations := by
  unfold valid validSource at h
  simp only [Bool.and_eq_true, decide_eq_true_eq] at h
  exact ⟨h.1.symm, h.2⟩

theorem holds_insertOrAssign (hvalid : valid config reply = true) {rsi : Option RsiMap}
    (h : ∀ r, rsi = some r → Holds config replies (keyOf config reply, r)) :
    Holds config (replies ++ [reply]) (keyOf config reply, insertOrAssign reply rsi) := by
  have hlt : ∀ a b : ReplicaId, decide (a < b) = true ↔ a.toNat < b.toNat := by
    intro a b
    rw [decide_eq_true_eq, UInt16.lt_iff_toNat_lt]
  have hold : OrdSet.Sorted (fun e : ReplicaId × Msg => e.1.toNat) (rsi.getD []) ∧
      ∀ e ∈ rsi.getD [], ∃ reply' ∈ replies, valid config reply' = true ∧
        reply'.rsi.sender = e.1 ∧ keyOf config reply' = keyOf config reply := by
    rcases rsi with _ | r
    · exact ⟨List.Pairwise.nil, by simp⟩
    · exact ⟨(h r rfl).sorted, (h r rfl).sent⟩
  refine ⟨(seqNum_keyOf reply).trans (eq_of_valid hvalid).1, OrdMap.sorted_upsert hlt hold.1, ?_⟩
  intro e he
  have hlast : reply ∈ replies ++ [reply] := mem_append_right _ mem_cons_self
  rcases OrdMap.mem_upsert he with he | rfl | ⟨r, data, hr, hlt1, hlt2, rfl⟩
  · obtain ⟨reply', hmem, hreply'⟩ := hold.2 e he
    exact ⟨reply', mem_append_left _ hmem, hreply'⟩
  · exact ⟨reply, hlast, hvalid, rfl, rfl⟩
  · -- a replica that the comparison does not tell from the sender is the sender
    rw [decide_eq_false_iff_not, UInt16.lt_iff_toNat_lt] at hlt1 hlt2
    have hsame : reply.rsi.sender = r := UInt16.toNat_inj.mp (by omega)
    exact ⟨reply, hlast, hvalid, hsame, rfl⟩

theorem Collected.store (h : Collected config replies m) (hvalid : valid config reply = true)
    (hsame : SameResult config m (.onReply reply)) :
    Collected config (replies ++ [reply]) { m with
      «matches» := OrdMap.upsert lt (keyOf config reply) (insertOrAssign reply)
        m.matches } := by
  intro entry hentry
  rcases OrdMap.mem_upsert hentry with hentry | rfl | ⟨key, rsi, hmem, hlt, hlt', rfl⟩
  · exact (h entry hentry).mono fun _ hr => mem_append_left _ hr
  · exact holds_insertOrAssign hvalid (by simp)
  · have hkey : key = keyOf config reply := by
      refine eq_of_not_lt ?_ ?_ hlt hlt'
      · rw [(h _ hmem).seqNum, seqNum_keyOf, (eq_of_valid hvalid).1]
      · intro hprimary
        rw [result_keyOf]
        exact hsame hvalid _ hmem hprimary
    subst hkey
    refine holds_insertOrAssign hvalid ?_
    intro r hr
    rw [Option.some.injEq] at hr
    rw [← hr]
    exact h _ hmem

/-! ## What a match proves -/

/-- The reply is the one of the match: sequence number, result, data, and the primary if it is part
of the match. -/
structure Agrees (config : MatchConfig) (mt : Match) (reply : UnmatchedReply) : Prop where
  seqNum : reply.metadata.seqNum = config.sequenceNumber
  result : reply.metadata.result = mt.reply.result
  data : reply.data = mt.reply.matchedData
  primary : config.includePrimary = true → reply.metadata.primary = mt.primary

/-- A quorum of the destinations has sent the reply of the match. -/
def SentByQuorum (config : MatchConfig) (replies : List UnmatchedReply) (mt : Match) : Prop :=
  ∃ S ⊆ config.quorum.destinations, config.quorum.waitFor ≤ S.card ∧
    ∀ r ∈ S, ∃ reply ∈ replies, reply.rsi.sender = r ∧ Agrees config mt reply

theorem Holds.sentByQuorum {key : MatchKey} {rsi : RsiMap}
    (h : Holds config replies (key, rsi)) (hlen : rsi.length = config.quorum.waitFor) :
    SentByQuorum config replies ⟨⟨key.metadata.result, key.data, rsi⟩, key.metadata.primary⟩ := by
  have hnodup : (rsi.map Prod.fst).Nodup := by
    refine pairwise_map.mpr (h.sorted.imp ?_)
    intro a b hab heq
    exact hab.ne (congrArg UInt16.toNat heq)
  refine ⟨(rsi.map Prod.fst).toFinset, ?_, ?_, ?_⟩
  · intro r hr
    obtain ⟨e, he, rfl⟩ := mem_map.mp (mem_toFinset.mp hr)
    obtain ⟨reply, -, hvalid, hsender, -⟩ := h.sent e he
    rw [← hsender]
    exact (eq_of_valid hvalid).2
  · rw [toFinset_card_of_nodup hnodup, length_map, hlen]
  · intro r hr
    obtain ⟨e, he, rfl⟩ := mem_map.mp (mem_toFinset.mp hr)
    obtain ⟨reply, hmem, hvalid, hsender, hkey⟩ := h.sent e he
    have hkey : keyOf config reply = key := hkey
    refine ⟨reply, hmem, hsender, (eq_of_valid hvalid).1, ?_, ?_, ?_⟩
    · rw [← hkey, result_keyOf]
    · rw [← hkey]
      rfl
    · intro hinclude
      rw [← hkey]
      unfold keyOf
      rw [if_pos hinclude]

theorem match_spec (h : Collected config replies m) :
    Collected config replies («match» config m).1 ∧
      ∀ mt, («match» config m).2 = some mt → SentByQuorum config replies mt := by
  unfold «match»
  dsimp only
  rcases hget : m.matches[m.matches.findIdx (hasQuorum config)]? with _ | ⟨key, rsi⟩
  · exact ⟨h, by simp⟩
  have hmem := mem_of_getElem? hget
  refine ⟨?_, ?_⟩
  · intro entry hentry
    obtain ⟨i, hi⟩ := mem_iff_getElem?.mp hentry
    rw [List.getElem?_modify] at hi
    obtain ⟨entry', hentry', rfl⟩ := Option.map_eq_some_iff.mp hi
    have hold := h entry' (mem_of_getElem? hentry')
    split_ifs
    · exact ⟨hold.seqNum, List.Pairwise.nil, by simp⟩
    · exact hold
  · intro mt hmt
    rw [Option.some.injEq] at hmt
    obtain ⟨hlt, hentry⟩ := List.getElem?_eq_some_iff.mp hget
    have hquorum := findIdx_getElem (w := hlt)
    rw [hentry] at hquorum
    unfold hasQuorum at hquorum
    rw [← hmt]
    exact (h _ hmem).sentByQuorum (by simpa using hquorum)

theorem onReply_spec (h : Collected config replies m)
    (hsame : SameResult config m (.onReply reply)) :
    Collected config (replies ++ [reply]) (onReply config m reply).1 ∧
      ∀ mt, (onReply config m reply).2 = some mt → SentByQuorum config (replies ++ [reply]) mt := by
  unfold onReply
  split_ifs with hvalid
  · exact match_spec (h.store hvalid hsame)
  · exact ⟨fun entry hentry => (h entry hentry).mono fun _ hr => mem_append_left _ hr, by simp⟩

def repliesOf (ops : List Op) : List UnmatchedReply :=
  ops.filterMap fun
    | .onReply reply => some reply
    | .clearReplies => none

theorem repliesOf_onReply (ops : List Op) (reply : UnmatchedReply) :
    repliesOf (ops ++ [.onReply reply]) = repliesOf ops ++ [reply] := by
  unfold repliesOf
  rw [filterMap_append]
  rfl

theorem Collected.step {ops : List Op} (h : Collected config (repliesOf ops) m)
    {op : Op} (hop : SameResult config m op) :
    ∃ m', Matcher.step config m op = .ok m' ∧ Collected config (repliesOf (ops ++ [op])) m' := by
  cases op with
  | onReply reply =>
    rw [repliesOf_onReply]
    exact ⟨_, rfl, (onReply_spec h hop).1⟩
  | clearReplies =>
    refine ⟨_, rfl, ?_⟩
    intro entry hentry
    cases hentry

theorem SentByQuorum.honest {mt : Match} (h : SentByQuorum config replies mt)
    {byzantine : Finset ReplicaId} (hcard : byzantine.card < config.quorum.waitFor) :
    ∃ reply ∈ replies, reply.rsi.sender ∈ config.quorum.destinations ∧
      reply.rsi.sender ∉ byzantine ∧ Agrees config mt reply := by
  obtain ⟨S, hsub, hquorum, hsent⟩ := h
  obtain ⟨r, hr, hhonest⟩ : ∃ r ∈ S, r ∉ byzantine := by
    by_contra hall
    push Not at hall
    have := Finset.card_le_card hall
    omega
  obtain ⟨reply, hmem, rfl, hagrees⟩ := hsent r hr
  exact ⟨reply, hmem, hsub hr, hhonest, hagrees⟩

/-- **A match was sent by a quorum.** In every run of replies in which the entries with the primary
of a reply have its result, a match was sent, with its sequence number, result, data and primary,
by as many distinct destinations as the quorum asks for, and so by one that is not among fewer
Byzantine ones. -/
theorem match_sent_by_quorum (config : MatchConfig) (ops : List Op) (reply : UnmatchedReply)
    (hops : EveryStep (step config) {} (SameResult config) (ops ++ [.onReply reply])) :
    ∃ m, run config ops = .ok m ∧ ∀ mt, (onReply config m reply).2 = some mt →
      SentByQuorum config (repliesOf (ops ++ [.onReply reply])) mt ∧
      ∀ (f : ℕ) (byzantine : Finset ReplicaId), byzantine.card ≤ f →
        f + 1 ≤ config.quorum.waitFor →
        ∃ reply' ∈ repliesOf (ops ++ [.onReply reply]),
          reply'.rsi.sender ∈ config.quorum.destinations ∧ reply'.rsi.sender ∉ byzantine ∧
          Agrees config mt reply' := by
  obtain ⟨m, hrun, hcollected⟩ := run_induction
    (P := fun ops m => Collected config (repliesOf ops) m) (fun _ h => by cases h)
    (fun _ _ _ h hop => h.step hop) hops.init
  refine ⟨m, hrun, ?_⟩
  intro mt hmt
  have hquorum := (onReply_spec hcollected (hops.last hrun)).2 mt hmt
  rw [← repliesOf_onReply] at hquorum
  refine ⟨hquorum, ?_⟩
  intro f byzantine hcard hf
  exact hquorum.honest (by omega)

/-! ## Replies with different results -/

def twoOfFour : MatchConfig := ⟨⟨2, {0, 1, 2, 3}⟩, 7, true⟩

def replyOf (sender : ReplicaId) (result : UInt32) (data : Msg) : UnmatchedReply :=
  ⟨⟨some 0, 7, result⟩, data, ⟨sender, []⟩⟩

theorem match_of_equal_replies :
    ∃ mt, (onReply twoOfFour (onReply twoOfFour {} (replyOf 0 0 [1])).1 (replyOf 1 0 [1])).2 =
        some mt ∧
      SentByQuorum twoOfFour [replyOf 0 0 [1], replyOf 1 0 [1]] mt := by
  obtain ⟨m, hrun, hmatch⟩ := match_sent_by_quorum twoOfFour [.onReply (replyOf 0 0 [1])]
    (replyOf 1 0 [1])
    (EveryStep.cons (by intro _ entry hentry; cases hentry) fun m' hm' =>
      EveryStep.cons (by
        rw [← Except.ok.inj hm']
        show _ → ∀ entry ∈ [_], _
        decide) fun _ _ => everyStep_nil _ _ _)
  obtain rfl := Except.ok.inj hrun
  exact ⟨_, rfl, (hmatch _ rfl).1⟩

/-- Replica `0` answers with result `0` and data `[1]`, replica `1` with result `1` and data `[2]`.
The match says that a quorum of two sent result `0` and data `[1]`. -/
theorem match_of_different_replies :
    ∃ mt, (onReply twoOfFour (onReply twoOfFour {} (replyOf 0 0 [1])).1 (replyOf 1 1 [2])).2 =
        some mt ∧ mt.reply.result = 0 ∧ mt.reply.matchedData = [1] ∧
      ¬ SentByQuorum twoOfFour [replyOf 0 0 [1], replyOf 1 1 [2]] mt := by
  refine ⟨⟨⟨0, [1], [(0, []), (1, [])]⟩, some 0⟩, by decide, rfl, rfl, ?_⟩
  rintro ⟨S, -, hquorum, hsent⟩
  have hsub : S ⊆ {0} := by
    intro r hr
    obtain ⟨reply, hmem, rfl, hagrees⟩ := hsent r hr
    rcases mem_pair.mp hmem with rfl | rfl
    · exact Finset.mem_singleton_self _
    · exact absurd hagrees.result (by decide)
  have hcard := Finset.card_le_card hsub
  rw [Finset.card_singleton] at hcard
  have hwait : twoOfFour.quorum.waitFor = 2 := rfl
  omega

end Matcher

end ConcordBft
