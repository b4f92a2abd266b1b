import ConcordBft.Keys.Replay

/-!
# The exchanges of a replica's own keys

A replica generates a pair of keys, sends the public one to be ordered, and stores the private one
when its message is executed. In between only one pair is remembered, in memory: the next
generation overwrites it and a restart forgets it, while the message sent for it may still be
ordered. Here `OwnExchanges` is a replica together with the messages it sent that are not executed
yet, each with the private key that was generated with it.

`Settles` is what one step preserves: a message that waits has its private key in the candidate,
or its exchange is done already. `Safe` is the condition on a step. The main result is
`ownExchange_completes`.
-/

namespace ConcordBft

open Verif Verif.Exec KeyExchangeManager KeysBySeqNum List Except Function

variable {n : ℕ}

/-! ## Crypto systems that can be built -/

namespace CryptoManager

variable {m m' : CryptoManager n}

/-- All systems have a signer and verifiers. -/
def AllUsable (m : CryptoManager n) : Prop := ∀ e ∈ m.cryptoSystems.entries, e.2.Usable

theorem AllUsable.create {sn : ℤ} {change : Cryptosystem n → Exec (Cryptosystem n)}
    (h : m.AllUsable) (hm' : m.create sn change = .ok m') : m'.AllUsable := by
  obtain ⟨sys, -, husable, rfl⟩ := create_eq_ok.mp hm'
  exact Timeline.forall_mem_replace h husable

theorem AllUsable.source (h : m.AllUsable) (k : ℕ) : (m.cryptoSystems.source k).Usable := by
  obtain ⟨j, hj⟩ := m.cryptoSystems.source_mem k
  exact h _ hj

theorem AllUsable.construct {sys : Cryptosystem n} (h : construct sys = .ok m) : m.AllUsable := by
  unfold CryptoManager.construct at h
  obtain ⟨hinit, h⟩ := unit_bind_eq_ok.mp h
  obtain rfl := ok.inj h
  intro e he
  rw [mem_singleton.mp he]
  exact hinit

theorem AllUsable.foldlM {α : Type} {f : CryptoManager n → α → Exec (CryptoManager n)}
    (hf : ∀ m a m', m.AllUsable → f m a = .ok m' → m'.AllUsable) {l : List α}
    (h : m.AllUsable) (hm' : l.foldlM f m = .ok m') : m'.AllUsable :=
  run_preserves h (fun m a m' h (_ : True) => hf m a m' h) (fun _ _ _ _ _ => trivial) hm'

end CryptoManager

variable {sys : Cryptosystem n}

theorem Cryptosystem.Usable.updateKeys (h : sys.Usable) {secret key : Key}
    (hsecret : newSigner secret = .ok ()) (hkey : fromHexString key = .ok ()) :
    (sys.updateKeys secret key).Usable := by
  rw [updateKeys_eq]
  exact (h.write_secret hsecret).write_verification _ hkey

theorem ClusterKeys.keyExistsAt_add {keys : ClusterKeys} {r : UInt16} {sn : ℤ} {key : Key}
    (h : keys.keyExistsAt r sn = false) {r' : UInt16} {sn' : ℤ} :
    (keys.add r sn key).keyExistsAt r' sn' = true ↔
      keys.keyExistsAt r' sn' = true ∨ (r' = r ∧ sn' = sn) := by
  simp only [keyExistsAt_iff, storedAt_add h, exists_or, exists_and_left, exists_eq, and_true]

namespace KeyExchangeManager

variable {cfg : KeyExchangeConfig n} {s s' : KeyExchangeManager n}

theorem notifyRegistry_frame (h : s.notifyRegistry cfg = .ok s') (husable : s.crypto.AllUsable) :
    s' = { s with crypto := s'.crypto } ∧ s'.crypto.AllUsable := by
  unfold notifyRegistry at h
  obtain ⟨m, hm, h⟩ := bind_eq_ok.mp h
  obtain ⟨m', hm', h⟩ := bind_eq_ok.mp h
  obtain rfl := ok.inj h
  refine ⟨rfl, CryptoManager.AllUsable.foldlM ?_ (CryptoManager.AllUsable.foldlM ?_ husable hm) hm'⟩
  · intro m e m' hm h
    obtain ⟨pub, -, h⟩ := bind_eq_ok.mp h
    exact hm.create h
  · intro m e m' hm h
    exact hm.create h

end KeyExchangeManager

theorem generateCid_ne_empty (r : UInt16) (now : ℕ) :
    generateCid kInitialKeyExchangeCid r now ≠ "" := by
  simp [generateCid, kInitialKeyExchangeCid]

/-! ## Histories -/

/-- What the generator returns: keys from which a signer and a verifier can be built. -/
structure KeyPair where
  priv : Key
  pub : Key
  newSigner_priv : newSigner priv = .ok ()
  fromHexString_pub : fromHexString pub = .ok ()

/-- A message that was sent, and the private key that was generated with its public key. -/
structure SentExchange where
  msg : KeyExchangeMsg
  priv : Key
  deriving DecidableEq

/-- A replica and its messages that are not executed yet. -/
structure OwnExchanges (n : ℕ) where
  manager : KeyExchangeManager n
  pending : List SentExchange

inductive OwnEvent
  /-- A call of `generateConsensusKeyAndSendInternalClientMsg`. -/
  | generate (sn : UInt64) (pair : KeyPair) (now : ℕ)
  /-- One of the messages that wait is executed at `reqSn`. -/
  | execute (sent : SentExchange) (reqSn : UInt64)
  /-- The exchange of another replica is executed. -/
  | other (kemsg : KeyExchangeMsg) (reqSn : UInt64)
  | restart

namespace OwnExchanges

def step (cfg : KeyExchangeConfig n) (cryptoSys : Cryptosystem n) (s : OwnExchanges n) :
    OwnEvent → Exec (OwnExchanges n)
  | .generate sn pair now =>
    let (manager, msg) := s.manager.generateConsensusKey cfg sn pair.priv pair.pub now
    .ok ⟨manager, (msg.map fun msg => ⟨msg, manager.candidate.priv⟩).toList ++ s.pending⟩
  | .execute sent reqSn =>
    if sent ∈ s.pending then do
      let (_, manager) ← s.manager.onKeyExchange cfg sent.msg reqSn
      return ⟨manager, s.pending.erase sent⟩
    else .ok s
  | .other kemsg reqSn =>
    if kemsg.repID = cfg.repID then .ok s
    else do
      let (_, manager) ← s.manager.onKeyExchange cfg kemsg reqSn
      return { s with manager := manager }
  | .restart => do
    let manager ← s.manager.restart cfg cryptoSys
    return { s with manager := manager }

variable (cfg : KeyExchangeConfig n) (s : OwnExchanges n)

/-- The public key of this replica for `sn` is stored. -/
def Exchanged (sn : ℤ) : Prop := s.manager.publicKeys.keyExistsAt cfg.repID sn = true

/-- The messages that wait are copies of messages that were executed. -/
def NothingWaits : Prop := ∀ sent ∈ s.pending, s.Exchanged cfg (toSeqNum sent.msg.generatedSn)

/-- A step that loses no candidate: a new pair is generated, and the process restarts, only when no
message waits for its pair; a new pair is for a new sequence number; and a message is executed in
the work window of its sequence number while there is room in the page. -/
def Safe : OwnEvent → Prop
  | .generate sn _ _ =>
    s.manager.exchangedRecently (toSeqNum sn) = true ∨
      (toSeqNum sn = s.manager.candidate.sn ∧ s.manager.candidate.cid ≠ "") ∨
      (s.NothingWaits cfg ∧ ¬ s.Exchanged cfg (toSeqNum sn))
  | .execute sent reqSn =>
    s.Exchanged cfg (toSeqNum sent.msg.generatedSn) ∨
      (reqSn.toNat / kWorkWindowSize * kWorkWindowSize ≤ sent.msg.generatedSn.toNat ∧
        cfg.repID.toNat < cfg.numberOfReservedPages ∧
        serializedSize (((s.manager.publicKeys cfg.repID).getD []).insert
          (toSeqNum sent.msg.generatedSn) sent.msg.pubkey) ≤ cfg.sizeOfReservedPage)
  | .other _ _ => True
  | .restart => s.NothingWaits cfg

/-- The private key of the message is stored, or it is the one of the candidate. -/
def Waits (sent : SentExchange) : Prop :=
  (toSeqNum sent.msg.generatedSn, sent.priv) ∈ s.manager.privateKeys ∨
    s.manager.candidate.cid ≠ "" ∧
    s.manager.candidate.sn = toSeqNum sent.msg.generatedSn ∧
    s.manager.candidate.pub = sent.msg.pubkey ∧ s.manager.candidate.priv = sent.priv

structure Settles : Prop where
  pages : s.manager.reservedPages cfg.repID = s.manager.publicKeys cfg.repID
  stored : ∀ sn, s.manager.privateKeys.contains sn = true → s.Exchanged cfg sn
  single : ∀ sn key key', (sn, key) ∈ s.manager.privateKeys → (sn, key') ∈ s.manager.privateKeys →
    key = key'
  usable : s.manager.crypto.AllUsable
  candidate : s.manager.candidate.cid ≠ "" →
    newSigner s.manager.candidate.priv = .ok () ∧
      fromHexString s.manager.candidate.pub = .ok () ∧ ¬ s.Exchanged cfg s.manager.candidate.sn
  header : ∀ sent ∈ s.pending, sent.msg.op = KeyExchangeMsg.EXCHANGE ∧
    sent.msg.repID = cfg.repID ∧ sent.msg.epoch = s.manager.selfEpochNumber
  waits : ∀ sent ∈ s.pending, s.Waits sent

variable {cfg s} {s' : OwnExchanges n} {cryptoSys : Cryptosystem n}

namespace Settles

variable {sn : ℤ} {sent : SentExchange} {reqSn : UInt64}

theorem exchanged_of_mem (h : Settles cfg s) {priv : Key}
    (hmem : (sn, priv) ∈ s.manager.privateKeys) : s.Exchanged cfg sn :=
  h.stored sn (contains_iff.mpr ⟨priv, hmem⟩)

/-- Where nothing waits, the private keys of all messages are stored. -/
theorem mem_of_exchanged (h : Settles cfg s) (hsent : sent ∈ s.pending)
    (hex : s.Exchanged cfg (toSeqNum sent.msg.generatedSn)) :
    (toSeqNum sent.msg.generatedSn, sent.priv) ∈ s.manager.privateKeys := by
  rcases h.waits sent hsent with hmem | ⟨hcid, hsn, -, -⟩
  · exact hmem
  · exact absurd (hsn ▸ hex) (h.candidate hcid).2.2

theorem contains_of_new (h : Settles cfg s) (hnew : ¬ s.Exchanged cfg sn) :
    s.manager.privateKeys.contains sn = false := by
  by_contra hcontains
  exact hnew (h.stored sn (Bool.not_eq_false _ ▸ hcontains))

theorem new_of_accepts (h : Settles cfg s) (hsent : sent ∈ s.pending)
    (hacc : s.manager.Accepts sent.msg reqSn) :
    ¬ s.Exchanged cfg (toSeqNum sent.msg.generatedSn) := by
  unfold Exchanged
  rw [← (h.header sent hsent).2.1, hacc.2.2.2]
  exact Bool.false_ne_true

theorem of_firstStart {epoch : UInt64} {m : KeyExchangeManager n}
    (h : firstStart cfg epoch cryptoSys = .ok m) : Settles cfg ⟨m, []⟩ := by
  unfold firstStart at h
  obtain ⟨c, hc, h⟩ := bind_eq_ok.mp h
  obtain ⟨hframe, husable⟩ := notifyRegistry_frame h (CryptoManager.AllUsable.construct hc)
  rw [hframe]
  exact ⟨rfl, fun _ hsn => absurd hsn Bool.false_ne_true, fun _ _ _ hkey => absurd hkey not_mem_nil, husable,
    fun hcid => absurd rfl hcid, fun _ hsent => absurd hsent not_mem_nil,
    fun _ hsent => absurd hsent not_mem_nil⟩

section

variable (h : Settles cfg s)

include h

theorem of_candidate {candidate : GeneratedKeys}
    (hs' : s' = ⟨{ s.manager with candidate := candidate }, sent :: s.pending⟩)
    (hcandidate : candidate.cid ≠ "" →
      newSigner candidate.priv = .ok () ∧ fromHexString candidate.pub = .ok () ∧
        ¬ s.Exchanged cfg candidate.sn)
    (hheader : sent.msg.op = KeyExchangeMsg.EXCHANGE ∧ sent.msg.repID = cfg.repID ∧
      sent.msg.epoch = s.manager.selfEpochNumber)
    (hsent : s'.Waits sent) (hwaits : ∀ e ∈ s.pending, s'.Waits e) : Settles cfg s' := by
  subst hs'
  exact ⟨h.pages, h.stored, h.single, h.usable, hcandidate,
    forall_mem_cons.mpr ⟨hheader, h.header⟩, forall_mem_cons.mpr ⟨hsent, hwaits⟩⟩

theorem generate {sn : UInt64} {pair : KeyPair} {now : ℕ}
    (hsafe : s.Safe cfg (.generate sn pair now))
    (hs' : s.step cfg cryptoSys (.generate sn pair now) = .ok s') : Settles cfg s' := by
  dsimp only [step, generateConsensusKey] at hs'
  by_cases hrecent : s.manager.exchangedRecently (toSeqNum sn) = true
  · rw [if_pos hrecent] at hs'
    exact ok.inj hs' ▸ h
  rw [if_neg hrecent] at hs'
  have hsafe := hsafe.resolve_left hrecent
  by_cases hnew : toSeqNum sn ≠ s.manager.candidate.sn ∨ s.manager.candidate.cid = ""
  · rw [if_pos hnew] at hs'
    obtain rfl := ok.inj hs'
    obtain ⟨hnothing, hfresh⟩ := hsafe.resolve_left fun hold =>
      hnew.elim (fun hne => hne hold.1) hold.2
    exact h.of_candidate rfl (fun _ => ⟨pair.newSigner_priv, pair.fromHexString_pub, hfresh⟩)
      ⟨rfl, rfl, rfl⟩ (.inr ⟨generateCid_ne_empty _ _, rfl, rfl, rfl⟩)
      fun e he => .inl (h.mem_of_exchanged he (hnothing e he))
  · rw [if_neg hnew] at hs'
    obtain rfl := ok.inj hs'
    obtain ⟨hsn, hcid⟩ := not_or.mp hnew
    exact h.of_candidate rfl h.candidate ⟨rfl, rfl, rfl⟩
      (.inr ⟨hcid, (not_not.mp hsn).symm, rfl, rfl⟩)
      h.waits

theorem other {kemsg : KeyExchangeMsg}
    (hs' : s.step cfg cryptoSys (.other kemsg reqSn) = .ok s') : Settles cfg s' := by
  unfold step at hs'
  dsimp only at hs'
  split_ifs at hs' with hown
  · exact ok.inj hs' ▸ h
  obtain ⟨⟨reply, m⟩, hm, hs'⟩ := bind_eq_ok.mp hs'
  obtain rfl := ok.inj hs'
  rcases onKeyExchange_cases hm with
    ⟨-, rfl⟩ | ⟨hacc, ⟨heq, -⟩ | ⟨-, crypto, hcrypto, rfl⟩⟩
  · exact h
  · exact absurd heq hown
  · have hkeys : ∀ sn, s.Exchanged cfg sn ↔ (s.manager.publicKeys.add kemsg.repID
        (toSeqNum kemsg.generatedSn) kemsg.pubkey).keyExistsAt cfg.repID sn = true := by
      intro sn
      rw [ClusterKeys.keyExistsAt_add hacc.2.2.2]
      exact ⟨.inl, fun hor => hor.resolve_right fun heq => hown heq.1.symm⟩
    refine ⟨?_, fun sn hsn => (hkeys sn).mp (h.stored sn hsn), h.single,
      h.usable.create hcrypto, fun hcid => ?_, h.header, h.waits⟩
    · show update s.manager.reservedPages kemsg.repID _ cfg.repID =
        update s.manager.publicKeys kemsg.repID _ cfg.repID
      rw [update_of_ne (Ne.symm hown), update_of_ne (Ne.symm hown)]
      exact h.pages
    · obtain ⟨hpriv, hpub, hfresh⟩ := h.candidate hcid
      exact ⟨hpriv, hpub, fun hex => hfresh ((hkeys _).mpr hex)⟩

theorem restart (hsafe : s.Safe cfg .restart)
    (hs' : s.step cfg cryptoSys .restart = .ok s') : Settles cfg s' := by
  obtain ⟨m, hm, hs'⟩ := bind_eq_ok.mp hs'
  obtain rfl := ok.inj hs'
  unfold KeyExchangeManager.restart at hm
  obtain ⟨c, hc, hm⟩ := bind_eq_ok.mp hm
  obtain ⟨hframe, husable⟩ := notifyRegistry_frame hm (CryptoManager.AllUsable.construct hc)
  obtain ⟨hepoch, hpages, hprivate⟩ : m.selfEpochNumber = s.manager.selfEpochNumber ∧
      m.reservedPages = s.manager.reservedPages ∧ m.privateKeys = s.manager.privateKeys := by
    rw [hframe]
    exact ⟨rfl, rfl, rfl⟩
  have hkeys : m.publicKeys cfg.repID = s.manager.publicKeys cfg.repID := by
    rw [hframe, ← h.pages]
    exact if_pos cfg.repID_lt
  have hexchanged : ∀ sn, s.Exchanged cfg sn → m.publicKeys.keyExistsAt cfg.repID sn = true := by
    intro sn hsn
    unfold ClusterKeys.keyExistsAt
    rw [hkeys]
    exact hsn
  refine ⟨by rw [hkeys, hpages, h.pages], fun sn hsn => hexchanged sn (h.stored sn ?_),
    by rw [hprivate]; exact h.single, husable, fun hcid => ?_, fun sent hsent => ?_,
    fun sent hsent => .inl ?_⟩
  · rw [← hprivate]
    exact hsn
  · rw [hframe] at hcid
    exact absurd rfl hcid
  · rw [hepoch]
    exact h.header sent hsent
  · rw [hprivate]
    exact h.mem_of_exchanged hsent (hsafe sent hsent)

theorem candidate_of_accepts (hsent : sent ∈ s.pending)
    (hnew : ¬ s.Exchanged cfg (toSeqNum sent.msg.generatedSn)) :
    s.manager.candidate.cid ≠ "" ∧ s.manager.candidate.pub = sent.msg.pubkey ∧
      s.manager.candidate.priv = sent.priv := by
  rcases h.waits sent hsent with hmem | ⟨hcid, -, hpub, hpriv⟩
  · exact absurd (h.exchanged_of_mem hmem) hnew
  · exact ⟨hcid, hpub, hpriv⟩

/-- An executed message either changes nothing, or stores its private key. -/
theorem execute_cases (hsent : sent ∈ s.pending)
    (hs' : s.step cfg cryptoSys (.execute sent reqSn) = .ok s') :
    (¬ s.manager.Accepts sent.msg reqSn ∧ s' = ⟨s.manager, s.pending.erase sent⟩) ∨
      (s.manager.Accepts sent.msg reqSn ∧ ∃ crypto, crypto.AllUsable ∧
        s' = ⟨{ s.manager.pushed cfg.repID (toSeqNum sent.msg.generatedSn) sent.msg.pubkey with
          privateKeys := s.manager.privateKeys.insert (toSeqNum sent.msg.generatedSn) sent.priv
          candidate := .clear
          crypto := crypto }, s.pending.erase sent⟩) := by
  unfold step at hs'
  dsimp only at hs'
  rw [if_pos hsent] at hs'
  obtain ⟨⟨reply, m⟩, hm, hs'⟩ := bind_eq_ok.mp hs'
  obtain rfl := ok.inj hs'
  have hrep := (h.header sent hsent).2.1
  rcases onKeyExchange_cases hm with
    ⟨hnot, rfl⟩ | ⟨hacc, ⟨-, hprivate⟩ | ⟨hne, -⟩⟩
  · exact .inl ⟨hnot, rfl⟩
  · obtain ⟨-, -, crypto, hcrypto, rfl⟩ := exchangePrivate_eq_ok.mp hprivate
    obtain ⟨-, -, hpriv⟩ := h.candidate_of_accepts hsent (h.new_of_accepts hsent hacc)
    refine .inr ⟨hacc, crypto, h.usable.create hcrypto, ?_⟩
    rw [← hpriv, ← hrep]
    rfl
  · exact absurd hrep hne

theorem execute (hs' : s.step cfg cryptoSys (.execute sent reqSn) = .ok s') : Settles cfg s' := by
  by_cases hsent : sent ∈ s.pending
  swap
  · unfold step at hs'
    dsimp only at hs'
    rw [if_neg hsent] at hs'
    exact ok.inj hs' ▸ h
  have hrest : ∀ e ∈ s.pending.erase sent, e ∈ s.pending := fun e he => mem_of_mem_erase he
  rcases h.execute_cases hsent hs' with ⟨-, rfl⟩ | ⟨hacc, crypto, husable, rfl⟩
  · exact ⟨h.pages, h.stored, h.single, h.usable, h.candidate,
      fun e he => h.header e (hrest e he), fun e he => h.waits e (hrest e he)⟩
  have hnew := h.new_of_accepts hsent hacc
  have hfresh := h.contains_of_new hnew
  refine ⟨?_, fun sn hsn => ?_, fun sn key key' hkey hkey' => ?_, husable,
    fun hcid => absurd rfl hcid, fun e he => h.header e (hrest e he), fun e he => .inl ?_⟩
  · show update s.manager.reservedPages cfg.repID _ cfg.repID =
      update s.manager.publicKeys cfg.repID _ cfg.repID
    rw [update_self, update_self]
  · obtain ⟨key, hmem⟩ := contains_iff.mp hsn
    refine (ClusterKeys.keyExistsAt_add (Bool.not_eq_true _ ▸ hnew)).mpr ?_
    rcases (mem_insert hfresh).mp hmem with hmem | heq
    · exact .inl (h.exchanged_of_mem hmem)
    · exact .inr ⟨rfl, congrArg Prod.fst heq⟩
  · have hother : ∀ key, (sn, key) ∈ s.manager.privateKeys →
        sn ≠ toSeqNum sent.msg.generatedSn := by
      rintro key hmem rfl
      exact hnew (h.exchanged_of_mem hmem)
    rcases (mem_insert hfresh).mp hkey with hmem | heq <;>
      rcases (mem_insert hfresh).mp hkey' with hmem' | heq'
    · exact h.single sn key key' hmem hmem'
    · exact absurd (congrArg Prod.fst heq') (hother key hmem)
    · exact absurd (congrArg Prod.fst heq) (hother key' hmem')
    · exact congrArg Prod.snd (heq.trans heq'.symm)
  · refine (mem_insert hfresh).mpr ?_
    rcases h.waits e (hrest e he) with hmem | ⟨hcid, hsn, -, hpriv⟩
    · exact .inl hmem
    · -- another copy of the message: the candidate is the pair of both
      rcases h.waits sent hsent with hmem | ⟨-, hsn', -, hpriv'⟩
      · exact absurd (h.exchanged_of_mem hmem) hnew
      · exact .inr (Prod.ext (hsn.symm.trans hsn') (hpriv.symm.trans hpriv'))

theorem step {e : OwnEvent} (hsafe : s.Safe cfg e)
    (hs' : s.step cfg cryptoSys e = .ok s') : Settles cfg s' := by
  cases e with
  | generate sn pair now => exact h.generate hsafe hs'
  | execute sent reqSn => exact h.execute hs'
  | other kemsg reqSn => exact h.other hs'
  | restart => exact h.restart hsafe hs'

theorem returns_execute (hsent : sent ∈ s.pending) (hsafe : s.Safe cfg (.execute sent reqSn)) :
    ∃ s', s.step cfg cryptoSys (.execute sent reqSn) = .ok s' := by
  have hreturns : Returns (s.manager.onKeyExchange cfg sent.msg reqSn) := by
    rw [returns_onKeyExchange]
    intro hacc
    have hrep := (h.header sent hsent).2.1
    have hnew := h.new_of_accepts hsent hacc
    obtain ⟨-, hpages, hsize⟩ := hsafe.resolve_left hnew
    obtain ⟨hcid, hpub, hpriv⟩ := h.candidate_of_accepts hsent hnew
    obtain ⟨hsigner, hverifier, -⟩ := h.candidate hcid
    unfold KeyExchangeManager.CanExchange
    rw [hrep]
    exact ⟨hpages, hsize, fun _ => ⟨hpub, h.contains_of_new hnew,
      (h.usable.source _).updateKeys hsigner (hpub ▸ hverifier)⟩, fun hne => absurd rfl hne⟩
  obtain ⟨⟨reply, m⟩, hm⟩ := hreturns
  refine ⟨⟨m, s.pending.erase sent⟩, ?_⟩
  unfold OwnExchanges.step
  dsimp only
  rw [if_pos hsent, hm, ok_bind, pure_eq_ok]

theorem stored_of_execute (hsent : sent ∈ s.pending) (hsafe : s.Safe cfg (.execute sent reqSn))
    (hs' : s.step cfg cryptoSys (.execute sent reqSn) = .ok s') :
    (toSeqNum sent.msg.generatedSn, sent.priv) ∈ s'.manager.privateKeys := by
  obtain ⟨hop, hrep, hepoch⟩ := h.header sent hsent
  rcases h.execute_cases hsent hs' with ⟨hnot, rfl⟩ | ⟨hacc, crypto, -, rfl⟩
  · refine h.mem_of_exchanged hsent ?_
    by_contra hnew
    obtain ⟨hwindow, -⟩ := hsafe.resolve_left hnew
    refine hnot ⟨by rw [hop]; decide, hepoch, hwindow, ?_⟩
    rw [hrep]
    exact Bool.not_eq_true _ ▸ hnew
  · exact (mem_insert (h.contains_of_new (h.new_of_accepts hsent hacc))).mpr
      (.inr rfl)

end

end Settles

/-- **A replica's own exchange completes.** Along a run of safe steps, the execution of any message
that was sent and not executed yet returns, and afterwards the private key stored for its sequence
number is the one that was generated with its public key. -/
theorem ownExchange_completes (cfg : KeyExchangeConfig n) (cryptoSys : Cryptosystem n)
    (epoch : UInt64) (m : KeyExchangeManager n) (hstart : firstStart cfg epoch cryptoSys = .ok m)
    (events : List OwnEvent) (s : OwnExchanges n)
    (hrun : Exec.run (step cfg cryptoSys) ⟨m, []⟩ events = .ok s) (sent : SentExchange)
    (hsent : sent ∈ s.pending) (reqSn : UInt64)
    (hsafe : EveryStep (step cfg cryptoSys) ⟨m, []⟩ (Safe cfg) (events ++ [.execute sent reqSn])) :
    ∃ s', Exec.run (step cfg cryptoSys) ⟨m, []⟩ (events ++ [.execute sent reqSn]) = .ok s' ∧
      s'.manager.privateKeys.key? (toSeqNum sent.msg.generatedSn) = some sent.priv := by
  have hsettles : Settles cfg s := run_preserves (Settles.of_firstStart hstart)
    (fun s e s' h hsafe hs' => h.step hsafe hs') hsafe.init hrun
  have hlast := hsafe.last hrun
  obtain ⟨s', hs'⟩ := hsettles.returns_execute hsent hlast
  have hmem := hsettles.stored_of_execute hsent hlast hs'
  obtain ⟨key, hkey, hmem'⟩ := exists_key? hmem
  refine ⟨s', by rw [run_concat, hrun, ok_bind, hs'], ?_⟩
  rw [hkey, (hsettles.step hlast hs').single _ key _ hmem' hmem]

open KeyExchangeManager (fourReplicas initialSystem keyOf)

def firstPair : KeyPair := ⟨keyOf 1, keyOf 2, rfl, rfl⟩

def secondPair : KeyPair := ⟨keyOf 3, keyOf 4, rfl, rfl⟩

def sentFor (sn : UInt64) (pair : KeyPair) : SentExchange :=
  ⟨⟨KeyExchangeMsg.EXCHANGE, pair.pub, 0, sn, 0⟩, pair.priv⟩

def historyOf (events : List OwnEvent) : Exec (OwnExchanges 4) := do
  let m ← firstStart fourReplicas 0 initialSystem
  Exec.run (step fourReplicas initialSystem) ⟨m, []⟩ events

/-- A second attempt overwrites the candidate, and a restart loses it: the first message then fails
an assertion. And a second pair for sequence number 0 is exchanged in public only. -/
theorem not_ownExchange_completes : historyOf [.generate 0 firstPair 7, .generate 5 secondPair 8,
      .execute (sentFor 0 firstPair) 10] = .error .assertion ∧
    historyOf [.generate 5 firstPair 7, .restart, .execute (sentFor 5 firstPair) 10] =
      .error .assertion ∧
    ∃ s, historyOf [.generate 0 firstPair 7, .execute (sentFor 0 firstPair) 10,
        .generate 0 secondPair 8, .execute (sentFor 0 secondPair) 11] = .ok s ∧
      (sentFor 0 secondPair) ∉ s.pending ∧
      s.manager.privateKeys.key? 0 ≠ some (sentFor 0 secondPair).priv := by
  exact ⟨rfl, rfl, _, rfl, not_mem_nil, by decide⟩

theorem ownExchange_completes_one : ∃ m s', Exec.run (step fourReplicas initialSystem) ⟨m, []⟩
      ([.generate 0 firstPair 7] ++ [.execute (sentFor 0 firstPair) 10]) = .ok s' ∧
    s'.manager.privateKeys.key? (toSeqNum 0) = some (keyOf 1) := by
  refine ⟨_, ownExchange_completes fourReplicas initialSystem 0 _ rfl [.generate 0 firstPair 7] _
    rfl (sentFor 0 firstPair) (mem_singleton_self _) 10 ?_⟩
  refine (everyStep_concat rfl).mpr ⟨?_, Or.inr ⟨by decide, by decide, by decide⟩⟩
  exact .cons (Or.inr (Or.inr ⟨fun e he => absurd he not_mem_nil, Bool.false_ne_true⟩))
    fun _ _ => everyStep_nil _ _ _

end OwnExchanges

end ConcordBft
