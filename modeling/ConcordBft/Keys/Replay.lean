import ConcordBft.Keys.Schedule

/-!
# Replay of the stored keys

A replica that restarts, or that finishes state transfer, replays the stored keys: the public keys
of all replicas in the order of their sequence numbers, then its own private keys. After exchanges
in order, the verification keys are those of a replica that processed the exchanges live. The
private key of a system is replayed only into the system of its own checkpoint, so a restart finds
it in a later system only if the replica exchanged a key there too.
-/

namespace ConcordBft

open Verif Verif.Exec Cryptosystem Timeline List Except ClusterKeys CryptoManager

variable {n : ℕ}

/-! ## The replay as amendments -/

/-- What all systems of a replica have. -/
def Sound (id : Fin (n + 1)) (t : Timeline (Cryptosystem n)) : Prop :=
  ∀ e ∈ t.entries, e.2.Usable ∧ e.2.signerID = id

variable {id : Fin (n + 1)} {m : CryptoManager n} {t : Timeline (Cryptosystem n)}

theorem Sound.source (h : Sound id t) (k : ℕ) :
    (t.source k).Usable ∧ (t.source k).signerID = id := by
  obtain ⟨j, hj⟩ := t.source_mem k
  exact h _ hj

theorem Sound.apply (h : Sound id t) (sn : ℤ) {i : KeySlot n} {key : Key}
    (hkey : ∀ sys : Cryptosystem n, sys.Usable → (write i key sys).Usable) :
    Sound id (t.apply dueCheckpoint write ⟨sn, i, key⟩) := by
  obtain ⟨j, hj⟩ := t.source_mem (dueCheckpoint sn)
  obtain ⟨husable, hid⟩ := h _ hj
  exact forall_mem_replace h ⟨hkey _ husable, (signerID_write i key _).trans hid⟩

def publicAmendment (e : ℤ × UInt16 × Key) : KeyAmendment n :=
  ⟨e.1, (slotOf n e.2.1).getD .secret, e.2.2⟩

/-- The amendments of a private key and of the verification key stored with it. -/
def privateAmendments (id : Fin (n + 1)) (keys : KeysBySeqNum) (e : ℤ × Key) :
    List (KeyAmendment n) :=
  [⟨e.1, .secret, e.2⟩, ⟨e.1, .verification id, (keys.key? e.1).getD []⟩]

theorem stamp_of_privateAmendments {keys : KeysBySeqNum} {e : ℤ × Key} {u : KeyAmendment n}
    (hu : u ∈ privateAmendments id keys e) : u.stamp = e.1 := by
  rcases mem_pair.mp hu with rfl | rfl <;> rfl

theorem foldlM_public (hn : n < 2 ^ 16) {l : List (ℤ × UInt16 × Key)}
    (hl : ∀ e ∈ l, (0 ≤ e.1 ∧ e.1 < 2 ^ 63) ∧ e.2.1.toNat < n ∧ fromHexString e.2.2 = .ok ())
    (h : Sound id m.cryptoSystems) :
    ∃ m', l.foldlM (fun m e => m.onPublicKeyExchange e.2.2 e.2.1 e.1) m = .ok m' ∧
      m'.cryptoSystems = m.cryptoSystems.applyAll dueCheckpoint write
        (l.map publicAmendment) ∧ Sound id m'.cryptoSystems := by
  induction l generalizing m with
  | nil => exact ⟨m, rfl, rfl, h⟩
  | cons e l ih =>
    obtain ⟨⟨hsn, hr, hkey⟩, hrest⟩ := forall_mem_cons.mp hl
    have hslot := slotOf_of_lt hn hr
    set i : Fin (n + 1) := ⟨e.2.1.toNat + 1, by omega⟩
    have hstep : m.onPublicKeyExchange e.2.2 e.2.1 e.1 = .ok
        ⟨m.cryptoSystems.apply dueCheckpoint write ⟨e.1, .verification i, e.2.2⟩⟩ :=
      (onPublicKeyExchange_eq_ok hsn.1 hsn.2).mpr
        ⟨_, hslot, (h.source _).1.write_verification i hkey, rfl⟩
    obtain ⟨m', hm', heq, hsound⟩ := ih hrest
      (m := ⟨m.cryptoSystems.apply dueCheckpoint write ⟨e.1, .verification i, e.2.2⟩⟩)
      (h.apply e.1 fun _ hsys => hsys.write_verification i hkey)
    refine ⟨m', ?_, ?_, hsound⟩
    · rw [foldlM_cons, hstep, ok_bind, hm']
    · have hamend : publicAmendment e = ⟨e.1, .verification i, e.2.2⟩ := by
        rw [publicAmendment, hslot, Option.getD_some]
      rw [heq, map_cons, hamend]
      rfl

theorem foldlM_private {keys : ClusterKeys} {r : UInt16} {l : KeysBySeqNum}
    (hl : ∀ e ∈ l, (0 ≤ e.1 ∧ e.1 < 2 ^ 63) ∧ newSigner e.2 = .ok () ∧
      ∃ key, ((keys r).getD []).key? e.1 = some key ∧ fromHexString key = .ok ())
    (h : Sound id m.cryptoSystems) :
    ∃ m', l.foldlM (fun m e => do
        let pub ← keys.getKey r e.1
        m.onPrivateKeyExchange e.2 pub e.1) m = .ok m' ∧
      m'.cryptoSystems = m.cryptoSystems.applyAll dueCheckpoint write
        (l.flatMap (privateAmendments id ((keys r).getD []))) := by
  induction l generalizing m with
  | nil => exact ⟨m, rfl, rfl⟩
  | cons e l ih =>
    obtain ⟨⟨hsn, hsecret, key, hfind, hkey⟩, hrest⟩ := forall_mem_cons.mp hl
    have hget : keys.getKey r e.1 = .ok key := by
      unfold getKey
      rcases hks : keys r with _ | ks
      · rw [hks] at hfind
        cases hfind
      · rw [hks, Option.getD_some] at hfind
        rw [Option.bind_some, hfind]
    set t := m.cryptoSystems with ht
    have hsource := h.source (dueCheckpoint e.1)
    set t' := (t.apply dueCheckpoint write ⟨e.1, .secret, e.2⟩).apply dueCheckpoint
      write ⟨e.1, .verification id, key⟩ with ht'
    have hstep : m.onPrivateKeyExchange e.2 key e.1 = .ok ⟨t'⟩ := by
      refine (onPrivateKeyExchange_eq_ok hsn.1 hsn.2).mpr ⟨?_, ?_⟩
      · exact (hsource.1.write_secret hsecret).write_verification _ hkey
      · rw [hsource.2]
    obtain ⟨m', hm', heq⟩ := ih hrest (m := ⟨t'⟩)
      ((h.apply e.1 fun _ hsys => hsys.write_secret hsecret).apply e.1
        fun _ hsys => hsys.write_verification id hkey)
    refine ⟨m', ?_, ?_⟩
    · rw [foldlM_cons, hget, ok_bind, hstep, ok_bind, hm']
    · rw [heq, flatMap_cons, applyAll_append, privateAmendments, hfind, Option.getD_some]
      rfl

namespace KeyExchangeManager

/-! ## What a replay starts from -/

/-- A manager whose stores are those of `s`, apart from keys of no replica of the cluster. -/
structure Replays (s s₂ : KeyExchangeManager n) : Prop where
  publicKeys : ∀ r sn key, StoredAt s₂.publicKeys r sn key ↔
    r.toNat < n ∧ StoredAt s.publicKeys r sn key
  privateKeys : s₂.privateKeys = s.privateKeys

def replayed (s₂ : KeyExchangeManager n) : List (KeyAmendment n) :=
  s₂.orderedPublicKeys.map publicAmendment

def replayedPrivate (cfg : KeyExchangeConfig n) (id : Fin (n + 1)) (s₂ : KeyExchangeManager n) :
    List (KeyAmendment n) :=
  s₂.privateKeys.flatMap (privateAmendments id ((s₂.publicKeys cfg.repID).getD []))

variable {cfg : KeyExchangeConfig n} {init : Cryptosystem n} {s s₂ : KeyExchangeManager n}

section Replayed

variable (hlive : Live cfg init s) (hreplays : Replays s s₂)

include hreplays

theorem mem_replayed (hn : n < 2 ^ 16) {u : KeyAmendment n} :
    u ∈ s₂.replayed ↔ ∃ r, r.toNat < n ∧ slotOf n r = some u.slot ∧
      StoredAt s.publicKeys r u.stamp u.value := by
  unfold replayed
  rw [mem_map]
  constructor
  · rintro ⟨⟨sn, r, key⟩, hmem, rfl⟩
    obtain ⟨hr, hstored⟩ := (mem_orderedPublicKeys hn).mp hmem
    refine ⟨r, hr, ?_, ((hreplays.publicKeys r sn key).mp hstored).2⟩
    rw [publicAmendment, slotOf_of_lt hn hr, Option.getD_some]
  · rintro ⟨r, hr, hslot, hstored⟩
    refine ⟨(u.stamp, r, u.value), ?_, ?_⟩
    · exact (mem_orderedPublicKeys hn).mpr
        ⟨hr, (hreplays.publicKeys _ _ _).mpr ⟨hr, hstored⟩⟩
    · rw [publicAmendment, hslot, Option.getD_some]

omit hreplays in
theorem sorted_replayed : s₂.replayed.Pairwise fun a b => a.stamp ≤ b.stamp :=
  pairwise_map.mpr (pairwise_insertionSort _ _)

include hlive

theorem exists_own_key {e : ℤ × Key} (he : e ∈ s₂.privateKeys) :
    ∃ key, ((s₂.publicKeys cfg.repID).getD []).key? e.1 = some key ∧
      StoredAt s.publicKeys cfg.repID e.1 key := by
  rw [hreplays.privateKeys] at he
  obtain ⟨key, hstored⟩ := (hlive.own e.1).mp ⟨e.2, he⟩
  have hstored := (hreplays.publicKeys _ _ _).mpr ⟨cfg.repID_lt, hstored⟩
  obtain ⟨key', hkey', hmem⟩ := KeysBySeqNum.exists_key? (storedAt_iff.mp hstored)
  exact ⟨key', hkey', ((hreplays.publicKeys _ _ _).mp (storedAt_iff.mpr hmem)).2⟩

theorem notifyRegistry_eq (hsound : Sound init.signerID s₂.crypto.cryptoSystems) :
    ∃ s₃, s₂.notifyRegistry cfg = .ok s₃ ∧ s₃.crypto.cryptoSystems =
      (s₂.crypto.cryptoSystems.applyAll dueCheckpoint write s₂.replayed).applyAll
        dueCheckpoint write (s₂.replayedPrivate cfg init.signerID) := by
  have hpublic : ∀ e ∈ s₂.orderedPublicKeys,
      (0 ≤ e.1 ∧ e.1 < 2 ^ 63) ∧ e.2.1.toNat < n ∧ fromHexString e.2.2 = .ok () := by
    rintro ⟨sn, r, key⟩ hmem
    obtain ⟨hr, hstored⟩ := (mem_orderedPublicKeys cfg.numReplicas_lt).mp hmem
    obtain ⟨-, hstored⟩ := (hreplays.publicKeys _ _ _).mp hstored
    exact ⟨hlive.range _ _ _ hstored, hr, hlive.stored_usable _ _ _ hstored hr⟩
  obtain ⟨m, hm, hmt, hmsound⟩ := foldlM_public cfg.numReplicas_lt hpublic hsound
  have hprivate : ∀ e ∈ s₂.privateKeys, (0 ≤ e.1 ∧ e.1 < 2 ^ 63) ∧ newSigner e.2 = .ok () ∧
      ∃ key, ((s₂.publicKeys cfg.repID).getD []).key? e.1 = some key ∧
        fromHexString key = .ok () := by
    intro e he
    obtain ⟨key, hkey, hstored⟩ := exists_own_key hlive hreplays he
    rw [hreplays.privateKeys] at he
    exact ⟨hlive.range _ _ _ hstored, hlive.private_usable e he, key, hkey,
      hlive.stored_usable _ _ _ hstored cfg.repID_lt⟩
  obtain ⟨m', hm', hm't⟩ := foldlM_private hprivate hmsound
  refine ⟨{ s₂ with crypto := m' }, ?_, ?_⟩
  · unfold notifyRegistry
    rw [hm, ok_bind, hm', ok_bind, pure_eq_ok]
  · show m'.cryptoSystems = _
    rw [hm't, hmt]
    rfl

theorem mem_replayedPrivate {id : Fin (n + 1)} {u : KeyAmendment n} :
    u ∈ s₂.replayedPrivate cfg id ↔ (u.slot = .secret ∧ (u.stamp, u.value) ∈ s.privateKeys) ∨
      (u.slot = .verification id ∧ StoredAt s.publicKeys cfg.repID u.stamp u.value) := by
  unfold replayedPrivate
  rw [mem_flatMap]
  constructor
  · rintro ⟨e, he, hu⟩
    have he' := he
    rw [hreplays.privateKeys] at he'
    rcases mem_pair.mp hu with rfl | rfl
    · exact .inl ⟨rfl, he'⟩
    · obtain ⟨key, hkey, hstored⟩ := exists_own_key hlive hreplays he
      refine .inr ⟨rfl, ?_⟩
      show StoredAt _ _ e.1 _
      rw [hkey]
      exact hstored
  · rintro (⟨hslot, hmem⟩ | ⟨hslot, hstored⟩)
    · refine ⟨(u.stamp, u.value), by rw [hreplays.privateKeys]; exact hmem, ?_⟩
      rw [privateAmendments, ← hslot]
      exact mem_cons_self
    · obtain ⟨secret, hmem⟩ := (hlive.own u.stamp).mpr ⟨u.value, hstored⟩
      have he : (u.stamp, secret) ∈ s₂.privateKeys := by
        rw [hreplays.privateKeys]
        exact hmem
      obtain ⟨key, hkey, hstored'⟩ := exists_own_key hlive hreplays he
      refine ⟨_, he, ?_⟩
      rw [privateAmendments, hkey, Option.getD_some, ← hslot, hlive.single _ _ _ _ hstored' hstored]
      exact mem_cons_of_mem _ mem_cons_self

theorem sorted_replayedPrivate (id : Fin (n + 1)) :
    (s₂.replayedPrivate cfg id).Pairwise fun a b => a.slot = b.slot → a.stamp ≤ b.stamp := by
  unfold replayedPrivate
  rw [hreplays.privateKeys, pairwise_flatMap]
  constructor
  · intro e _
    unfold privateAmendments
    simp
  · refine hlive.private_sorted.imp ?_
    intro e e' hlt u hu w hw _
    rw [stamp_of_privateAmendments hu, stamp_of_privateAmendments hw]
    exact hlt.le

end Replayed

/-! ## The systems after the replay -/

theorem Live.stamped (hlive : Live cfg init s) : Stamped s.history := by
  rintro u (⟨r, hr, hu⟩ | ⟨hu, hmem⟩) w hw hslot hstamp
  · have hw := storedAt_of_mem_history (hslot ▸ hr) hw
    rw [hstamp] at hu
    exact hlive.single _ _ _ _ hu hw
  · have hmem' := (mem_history_of_secret (hslot ▸ hu)).mp hw
    have hnodup : (s.privateKeys.map Prod.fst).Nodup :=
      pairwise_map.mpr (hlive.private_sorted.imp fun hlt => ne_of_lt hlt)
    exact congrArg Prod.snd (inj_on_of_nodup_map hnodup hmem hmem' hstamp)

variable {u : KeyAmendment n} {j : Fin n}

/-- The systems of `t` show in the slot `i` the keys that the amendments `S` give them. -/
def ShowsKeys (init : Cryptosystem n) (S : Set (KeyAmendment n)) (i : KeySlot n)
    (t : Timeline (Cryptosystem n)) : Prop :=
  Timeline.Follows dueCheckpoint read S (fun i => read i init) i t

/-- The amendments of the verification keys of the cluster are those of the replay. -/
theorem mem_history_iff (hn : n < 2 ^ 16) (hreplays : Replays s s₂)
    (hu : u.slot = .verification j.succ) : u ∈ s.history ↔ u ∈ s₂.replayed := by
  rw [mem_replayed hreplays hn]
  constructor
  · rintro (⟨r, hr, hstored⟩ | ⟨hslot, -⟩)
    · refine ⟨r, ?_, hr, hstored⟩
      rw [hu] at hr
      unfold slotOf at hr
      split_ifs at hr with hlt
      rw [Option.some.injEq, KeySlot.verification.injEq, Fin.ext_iff, Fin.val_succ] at hr
      have hval : (r + 1).toNat = j.val + 1 := hr
      rw [UInt16.toNat_add] at hval
      have hone : (1 : UInt16).toNat = 1 := rfl
      have := r.toNat_lt
      omega
    · rw [hu] at hslot
      cases hslot
  · rintro ⟨r, -, hr, hstored⟩
    exact .inl ⟨r, hr, hstored⟩

section Private

variable (hlive : Live cfg init s) (hreplays : Replays s s₂)
  (hslot : slotOf n cfg.repID = some (.verification init.signerID))
  {t : Timeline (Cryptosystem n)}
  (hdue : ∀ sn key, StoredAt s.publicKeys cfg.repID sn key →
    ∃ sys, (dueCheckpoint sn, sys) ∈ t.entries)
  {S : Set (KeyAmendment n)}

include hlive hreplays hdue

theorem exists_mem_of_replayedPrivate (hu : u ∈ s₂.replayedPrivate cfg init.signerID) :
    ∃ sys, (dueCheckpoint u.stamp, sys) ∈ t.entries := by
  rcases (mem_replayedPrivate hlive hreplays).mp hu with ⟨-, hmem⟩ | ⟨-, hstored⟩
  · obtain ⟨key, hstored⟩ := (hlive.own u.stamp).mp ⟨_, hmem⟩
    exact hdue _ _ hstored
  · exact hdue _ _ hstored

include hslot in
theorem follows_verification
    (hS : ∀ u : KeyAmendment n, u.slot = .verification j.succ → (u ∈ S ↔ u ∈ s.history))
    (h : ShowsKeys init S (.verification j.succ) t) :
    ShowsKeys init S (.verification j.succ)
      (t.applyAll dueCheckpoint write (s₂.replayedPrivate cfg init.signerID)) := by
  apply h.inPlace read_write (fun _ _ => dueCheckpoint_mono)
    (fun u => exists_mem_of_replayedPrivate hlive hreplays hdue)
    (sorted_replayedPrivate hlive hreplays _)
  · intro u hu hui
    rcases (mem_replayedPrivate hlive hreplays).mp hu with ⟨hsecret, -⟩ | ⟨hid, hstored⟩
    · rw [hui] at hsecret
      cases hsecret
    · exact (hS u hui).mpr (.inl ⟨cfg.repID, by rw [hslot, hid], hstored⟩)
  · intro u hu hui w hw hwi _
    rcases (mem_replayedPrivate hlive hreplays).mp hu with ⟨hsecret, -⟩ | ⟨hid, -⟩
    · rw [hui] at hsecret
      cases hsecret
    · have hwid := hwi.trans (hui.symm.trans hid)
      refine (mem_replayedPrivate hlive hreplays).mpr (.inr ⟨hwid, ?_⟩)
      exact storedAt_of_mem_history (hslot.trans (by rw [hwid])) ((hS w hwi).mp hw)
  · exact fun _ _ _ _ _ _ => Iff.rfl

theorem follows_secret
    (hnone : ∀ e ∈ t.entries, (∀ sn key, (sn, key) ∈ s.privateKeys → dueCheckpoint sn ≠ e.1) →
      ∀ w : KeyAmendment n, w.slot = .secret → dueCheckpoint w.stamp ≤ e.1 →
        (w ∈ S ↔ w ∈ s.history)) (h : ShowsKeys init S .secret t) : ShowsKeys init s.history .secret
      (t.applyAll dueCheckpoint write (s₂.replayedPrivate cfg init.signerID)) := by
  have hreplayed : ∀ u : KeyAmendment n, u.slot = .secret →
      (u ∈ s₂.replayedPrivate cfg init.signerID ↔ u ∈ s.history) := by
    intro u hu
    rw [mem_replayedPrivate hlive hreplays, mem_history_of_secret hu]
    simp [hu]
  apply h.inPlace read_write (fun _ _ => dueCheckpoint_mono)
    (fun u => exists_mem_of_replayedPrivate hlive hreplays hdue)
    (sorted_replayedPrivate hlive hreplays _)
  · exact fun u hu hui => (hreplayed u hui).mp hu
  · exact fun u _ _ w hw hwi _ => (hreplayed w hwi).mpr hw
  · intro e he hno
    apply hnone e he
    intro sn key hkey
    exact hno ⟨sn, .secret, key⟩
      ((mem_replayedPrivate hlive hreplays).mpr (.inl ⟨rfl, hkey⟩)) rfl

end Private

/-! ## Keys by sequence number -/

/-- What the exchanges in the store say about the key of `r` at a checkpoint: the key that was
activated last, and the initial key if none was. -/
def Scheduled (keys : ClusterKeys) (initial : Key) (r : UInt16) (chckp : ℕ) (key : Key) : Prop :=
  (∃ sn, StoredAt keys r sn key ∧ activationCheckpoint sn ≤ chckp ∧
      ∀ sn' key', StoredAt keys r sn' key' → activationCheckpoint sn' ≤ chckp →
        activationCheckpoint sn' ≤ activationCheckpoint sn ∧ sn' ≤ sn) ∨
    ((∀ sn key', StoredAt keys r sn key' → chckp < activationCheckpoint sn) ∧ key = initial)

/-- At every sequence number the system in use holds the scheduled keys of all replicas. -/
def FollowsSchedule (initial : Fin (n + 1) → Key) (s : KeyExchangeManager n) : Prop :=
  ∀ seqNum : ℕ, seqNum < 2 ^ 63 → ∃ sys, s.crypto.get seqNum = .ok sys ∧
    ∀ (r : UInt16) (hr : r.toNat < n), Scheduled s.publicKeys (initial (Fin.succ ⟨r.toNat, hr⟩)) r
      ((seqNum - 1) / checkpointWindowSize) (sys.verificationKeys (Fin.succ ⟨r.toNat, hr⟩))

/-- At every sequence number both managers use the same key in a slot. -/
def SameKey (i : KeySlot n) (s s' : KeyExchangeManager n) : Prop :=
  ∀ seqNum : ℕ, seqNum < 2 ^ 63 → ∃ sys sys', s.crypto.get seqNum = .ok sys ∧
    s'.crypto.get seqNum = .ok sys' ∧ read i sys' = read i sys

theorem get_eq (m : CryptoManager n) {seqNum : ℕ} (h : seqNum < 2 ^ 63) :
    ∃ sys, m.get seqNum = .ok sys ∧
      m.cryptoSystems.floor ((seqNum - 1) / checkpointWindowSize) = some sys := by
  obtain ⟨sys, hsys⟩ := m.cryptoSystems.floor_isSome ((seqNum - 1) / checkpointWindowSize)
  have hchckp : ((((seqNum : ℤ) - 1).tdiv checkpointWindowSize) % 2 ^ 64).toNat =
      (seqNum - 1) / checkpointWindowSize := by
    unfold checkpointWindowSize
    rcases seqNum with _ | k
    · rfl
    · have hpred : ((k + 1 : ℕ) : ℤ) - 1 = k := by omega
      rw [hpred, Int.tdiv_eq_ediv_of_nonneg (Int.natCast_nonneg k)]
      omega
  refine ⟨sys, ?_, hsys⟩
  unfold CryptoManager.get
  rw [hchckp, hsys]

/-- The replica exchanged a key of its own wherever a key is activated after its first exchange. -/
def OwnKeyAtEach (cfg : KeyExchangeConfig n) (s : KeyExchangeManager n) : Prop :=
  ∀ r sn key, r.toNat < n → StoredAt s.publicKeys r sn key →
    ∀ sn' key', StoredAt s.publicKeys cfg.repID sn' key' →
      activationCheckpoint sn' ≤ activationCheckpoint sn →
      ∃ sn'' key'', StoredAt s.publicKeys cfg.repID sn'' key'' ∧
        activationCheckpoint sn'' = activationCheckpoint sn

/-- The keys of a replica that had reached `s₁` and received the pages of `s`. -/
def CatchesUpAlike (cfg : KeyExchangeConfig n) (s₁ s : KeyExchangeManager n) : Prop :=
  ∃ s', loadPublicKeys cfg { s₁ with reservedPages := s.reservedPages } = .ok s' ∧
    (∀ j : Fin n, SameKey (.verification j.succ) s s') ∧ SameKey .secret s s'

/-- The assertion of `loadPublicKeys` counts one replica more than `exchanged` does. -/
def EnoughLoaded (cfg : KeyExchangeConfig n) (s₁ s : KeyExchangeManager n) : Prop :=
  cfg.keyExchangeOnStart = true →
    exchanged cfg (loadAllReplicasKeyStores { s₁ with reservedPages := s.reservedPages }) = true →
    liveQuorumSize cfg ≤ (loadAllReplicasKeyStores
      { s₁ with reservedPages := s.reservedPages }).publicKeys.numOfExchangedReplicas

variable {s' s₁ : KeyExchangeManager n}

/-- What a run from `s₁` to `s` adds to the stores. -/
structure Since (cfg : KeyExchangeConfig n) (s₁ s : KeyExchangeManager n) : Prop where
  stored : ∀ r sn key, StoredAt s₁.publicKeys r sn key → StoredAt s.publicKeys r sn key
  late : ∀ r sn key, StoredAt s.publicKeys r sn key → StoredAt s₁.publicKeys r sn key ∨
    s₁.crypto.cryptoSystems.newest.1 ≤ dueCheckpoint sn
  privateKeys : (∀ sn key, StoredAt s.publicKeys cfg.repID sn key →
    StoredAt s₁.publicKeys cfg.repID sn key) → s.privateKeys = s₁.privateKeys

theorem Since.refl (s : KeyExchangeManager n) : Since cfg s s :=
  ⟨fun _ _ _ h => h, fun _ _ _ h => .inl h, fun _ => rfl⟩

theorem step_cases {event : KeyEvent} (h : step cfg s event = .ok s') :
    (s'.publicKeys = s.publicKeys ∧ s'.privateKeys = s.privateKeys) ∨
      ∃ kemsg reqSn, event = .exchange kemsg reqSn ∧ s.Accepts kemsg reqSn ∧
        s'.publicKeys = s.publicKeys.add kemsg.repID (toSeqNum kemsg.generatedSn) kemsg.pubkey ∧
        (kemsg.repID ≠ cfg.repID → s'.privateKeys = s.privateKeys) := by
  rcases event with keys | ⟨kemsg, reqSn⟩
  · obtain rfl := ok.inj h
    exact .inl ⟨rfl, rfl⟩
  · obtain ⟨⟨reply, s₁⟩, hex, hs₁⟩ := bind_eq_ok.mp h
    obtain rfl := ok.inj hs₁
    rcases onKeyExchange_cases hex with ⟨-, rfl⟩ | ⟨hacc, hcase⟩
    · exact .inl ⟨rfl, rfl⟩
    · refine .inr ⟨kemsg, reqSn, rfl, hacc, ?_⟩
      rcases hcase with ⟨hown, hprivate⟩ | ⟨-, crypto, -, rfl⟩
      · obtain ⟨-, -, crypto, -, rfl⟩ := exchangePrivate_eq_ok.mp hprivate
        exact ⟨rfl, fun hne => absurd hown hne⟩
      · exact ⟨rfl, fun _ => rfl⟩

theorem Since.run (hlive : Live cfg init s₁) {events : List KeyEvent}
    (hord : EveryStep (step cfg) s₁ InOrder events) (hrun : Exec.run (step cfg) s₁ events = .ok s) :
    Since cfg s₁ s := by
  refine run_preserves (Since.refl s₁) (fun s' event s hsince hinOrder hstep => ?_) hord hrun
  rcases step_cases hstep with ⟨hpublic, hprivate⟩ | ⟨kemsg, reqSn, rfl, hacc, hpublic, hprivate⟩
  · refine ⟨?_, ?_, ?_⟩
    · rw [hpublic]
      exact hsince.stored
    · rw [hpublic]
      exact hsince.late
    · rw [hpublic, hprivate]
      exact hsince.privateKeys
  · obtain ⟨hlt, hbefore⟩ := hinOrder hacc
    have hsn := toSeqNum_range hlt
    have hadd : ∀ r sn key, StoredAt s.publicKeys r sn key ↔ StoredAt s'.publicKeys r sn key ∨
        (r = kemsg.repID ∧ sn = toSeqNum kemsg.generatedSn ∧ key = kemsg.pubkey) := by
      rw [hpublic]
      exact fun r sn key => storedAt_add hacc.2.2.2
    refine ⟨fun r sn key h => (hadd r sn key).mpr (.inl (hsince.stored r sn key h)), ?_, ?_⟩
    · intro r sn key hstored
      rcases (hadd r sn key).mp hstored with hstored | ⟨-, rfl, -⟩
      · exact hsince.late r sn key hstored
      · exact .inr (hlive.newest_le hsn fun r' sn' key' h' =>
          (hbefore r' sn' key' (hsince.stored r' sn' key' h')).1)
    · intro hown
      have hne : kemsg.repID ≠ cfg.repID := by
        intro heq
        have hmem := hown (toSeqNum kemsg.generatedSn) kemsg.pubkey
          ((hadd _ _ _).mpr (.inr ⟨heq.symm, rfl, rfl⟩))
        have htrue := keyExistsAt_iff.mpr ⟨_, hsince.stored _ _ _ hmem⟩
        rw [← heq, hacc.2.2.2] at htrue
        cases htrue
      rw [hprivate hne]
      exact hsince.privateKeys fun sn key h => hown sn key ((hadd _ _ _).mpr (.inl h))

section

variable (hlive : Live cfg init s)

include hlive

theorem sameKey_of_follows {i : KeySlot n} (h : ShowsKeys init s.history i s'.crypto.cryptoSystems)
    (hcov : ∀ u ∈ s.history, u.slot = i →
      ∃ sys, (dueCheckpoint u.stamp, sys) ∈ s'.crypto.cryptoSystems.entries) : SameKey i s s' := by
  intro seqNum hseq
  obtain ⟨sys, hget, hfloor⟩ := get_eq s.crypto hseq
  obtain ⟨sys', hget', hfloor'⟩ := get_eq s'.crypto hseq
  refine ⟨sys, sys', hget, hget', ?_⟩
  exact (h.floor hcov hfloor').unique hlive.stamped
    ((hlive.follows i).floor (fun u hu _ => hlive.covers u hu) hfloor)

theorem Live.activation_eq {r : UInt16} {sn : ℤ} {key : Key}
    (h : StoredAt s.publicKeys r sn key) : activationCheckpoint sn = dueCheckpoint sn :=
  activationCheckpoint_eq (hlive.range _ _ _ h).1 (hlive.range _ _ _ h).2

theorem Live.followsSchedule : FollowsSchedule init.verificationKeys s := by
  intro seqNum hseq
  obtain ⟨sys, hget, hfloor⟩ := get_eq s.crypto hseq
  refine ⟨sys, hget, fun r hr => ?_⟩
  have hslot := slotOf_of_lt cfg.numReplicas_lt hr
  have hmem : ∀ sn key, StoredAt s.publicKeys r sn key →
      (⟨sn, .verification (Fin.succ ⟨r.toNat, hr⟩), key⟩ : KeyAmendment n) ∈ s.history :=
    fun sn key hstored => .inl ⟨r, hslot, hstored⟩
  have hforce := (hlive.follows (.verification (Fin.succ ⟨r.toNat, hr⟩))).floor
    (fun u hu _ => hlive.covers u hu) hfloor
  rcases hforce with ⟨u, hu, hui, hdue, hvalue, hmax⟩ | ⟨hnone, hinit⟩
  · have hu' := storedAt_of_mem_history (hslot.trans (congrArg some hui.symm)) hu
    rw [hvalue] at hu'
    refine .inl ⟨u.stamp, hu', (hlive.activation_eq hu').trans_le hdue, ?_⟩
    intro sn' key' hkey' hle
    rw [hlive.activation_eq hkey'] at hle ⊢
    have hsn := hmax _ (hmem _ _ hkey') rfl hle
    rw [hlive.activation_eq hu']
    exact ⟨dueCheckpoint_mono hsn, hsn⟩
  · refine .inr ⟨fun sn key' hkey' => ?_, hinit.symm⟩
    rw [hlive.activation_eq hkey']
    exact hnone _ (hmem _ _ hkey') rfl

/-! ## Restart and state transfer -/

theorem replays_loadAll
    (hpages : s₁.reservedPages = s.reservedPages) (hprivate : s₁.privateKeys = s.privateKeys) :
    Replays s s₁.loadAllReplicasKeyStores := by
  refine ⟨fun r sn key => ?_, hprivate⟩
  unfold StoredAt loadAllReplicasKeyStores
  dsimp only
  rw [hpages, hlive.pages]
  split_ifs with hr <;> simp [hr]

theorem exists_own_of_secret (hu : u ∈ s.history) (hsecret : u.slot = .secret) :
    ∃ key, StoredAt s.publicKeys cfg.repID u.stamp key :=
  (hlive.own u.stamp).mp ⟨_, (mem_history_of_secret hsecret).mp hu⟩

variable (hslot : slotOf n cfg.repID = some (.verification init.signerID))

include hslot

section

variable (hreplays : Replays s s₂)

include hreplays

omit hlive hslot in
theorem slot_ne_secret_of_replayed (hn : n < 2 ^ 16) (hu : u ∈ s₂.replayed) : u.slot ≠ .secret := by
  obtain ⟨r, -, hr, -⟩ := (mem_replayed hreplays hn).mp hu
  intro hsecret
  rw [hsecret] at hr
  exact slotOf_ne_secret hr

/-- A replay on top of the amendments `S` shows the keys of the history. For the secret key, every
system without a private key of its own shows the one in `S`. -/
theorem notifyRegistry_sameKey (hsound : Sound init.signerID s₂.crypto.cryptoSystems)
    {S : Set (KeyAmendment n)} (hsub : ∀ u ∈ S, u ∈ s.history)
    (hfollows : ∀ i, (∀ u ∈ s₂.replayed, u.slot = i → ∃ j : Fin n, i = .verification j.succ) →
      ShowsKeys init (S ∪ {u | u ∈ s₂.replayed}) i
        (s₂.crypto.cryptoSystems.applyAll dueCheckpoint write s₂.replayed)) :
    ∃ s', s₂.notifyRegistry cfg = .ok s' ∧ (∀ j : Fin n, SameKey (.verification j.succ) s s') ∧
      ((∀ e ∈ (s₂.crypto.cryptoSystems.applyAll dueCheckpoint write s₂.replayed).entries,
        (∀ sn key, (sn, key) ∈ s.privateKeys → dueCheckpoint sn ≠ e.1) →
        ∀ w ∈ s.history, w.slot = .secret → dueCheckpoint w.stamp ≤ e.1 → w ∈ S) →
      SameKey .secret s s') := by
  have hn := cfg.numReplicas_lt
  have hcov : ∀ u ∈ s₂.replayed, ∃ sys, (dueCheckpoint u.stamp, sys) ∈
      (s₂.crypto.cryptoSystems.applyAll dueCheckpoint write s₂.replayed).entries := fun u hu =>
    exists_mem_applyAll.mpr (.inr ⟨u, hu, rfl⟩)
  have hdue : ∀ sn key, StoredAt s.publicKeys cfg.repID sn key → ∃ sys, (dueCheckpoint sn, sys) ∈
      (s₂.crypto.cryptoSystems.applyAll dueCheckpoint write s₂.replayed).entries :=
    fun sn key hstored => hcov ⟨sn, .verification init.signerID, key⟩
      ((mem_replayed hreplays hn).mpr ⟨cfg.repID, cfg.repID_lt, hslot, hstored⟩)
  obtain ⟨s', hs', ht'⟩ := notifyRegistry_eq hlive hreplays hsound
  refine ⟨s', hs', fun j => ?_, fun hnone => ?_⟩
  · have hS : ∀ u : KeyAmendment n, u.slot = .verification j.succ →
        (u ∈ S ∪ {u | u ∈ s₂.replayed} ↔ u ∈ s.history) := fun u hu =>
      ⟨fun h => h.elim (hsub u) (mem_history_iff hn hreplays hu).mpr,
        fun h => .inr ((mem_history_iff hn hreplays hu).mp h)⟩
    apply sameKey_of_follows hlive
    · rw [ht']
      have hkeys := follows_verification hlive hreplays hslot hdue hS
        (hfollows _ fun _ _ _ => ⟨j, rfl⟩)
      exact fun e he => (hkeys e he).congr fun w hw => and_congr_left fun _ => hS w hw
    · intro u hu hui
      rw [ht', exists_mem_applyAll]
      exact .inl (hcov u ((mem_history_iff hn hreplays hui).mp hu))
  · apply sameKey_of_follows hlive
    · rw [ht']
      refine follows_secret hlive hreplays hdue (fun e he hno w hw hwe => ⟨?_, fun hmem =>
        .inl (hnone e he hno w hmem hw hwe)⟩) (hfollows .secret fun u hu hui =>
          absurd hui (slot_ne_secret_of_replayed hreplays hn hu))
      rintro (hmem | hmem)
      · exact hsub w hmem
      · exact absurd hw (slot_ne_secret_of_replayed hreplays hn hmem)
    · intro u hu hui
      obtain ⟨key, hkey⟩ := exists_own_of_secret hlive hu hui
      rw [ht', exists_mem_applyAll]
      exact .inl (hdue _ _ hkey)

end

theorem restart_eq (hinit : init.Usable) :
    ∃ s', s.restart cfg init = .ok s' ∧ (∀ j : Fin n, SameKey (.verification j.succ) s s') ∧
      (OwnKeyAtEach cfg s → SameKey .secret s s') := by
  set s₁ : KeyExchangeManager n := { s with crypto := ⟨start init⟩, candidate := .clear }
  have hreplays : Replays s s₁.loadAllReplicasKeyStores := replays_loadAll hlive rfl rfl
  set s₂ := s₁.loadAllReplicasKeyStores
  set t₀ := s₂.crypto.cryptoSystems
  have hstart : ∀ e ∈ t₀.entries, e = (0, init) := fun e he => mem_singleton.mp he
  have hnewest : t₀.newest.1 = 0 := congrArg Prod.fst (hstart _ newest_mem)
  have hsound : Sound init.signerID t₀ := by
    intro e he
    rw [hstart e he]
    exact ⟨hinit, rfl⟩
  have hfollows : ∀ i, ShowsKeys init (∅ ∪ {u | u ∈ s₂.replayed}) i
      (t₀.applyAll dueCheckpoint write s₂.replayed) := by
    intro i
    have hempty : ShowsKeys init ∅ i t₀ := by
      intro e he
      rw [hstart e he]
      exact .inr ⟨fun w hw => absurd hw (Set.notMem_empty w), rfl⟩
    apply hempty.replay read_write (fun _ _ => dueCheckpoint_mono)
    · exact fun u hu => absurd hu (Set.notMem_empty u)
    · intro u _ hle
      rw [hnewest] at hle
      exact absurd hle (Nat.not_succ_le_zero _)
    · exact fun u _ _ w hw => absurd hw (Set.notMem_empty w)
    · intro u _ _ _
      rw [hnewest]
      exact Nat.zero_le _
    · exact sorted_replayed
  obtain ⟨s', hs', hpublic, hsecret⟩ := notifyRegistry_sameKey hlive hslot hreplays hsound
    (fun u hu => absurd hu (Set.notMem_empty u)) fun i _ => hfollows i
  refine ⟨s', ?_, hpublic, fun heach => hsecret fun e he hnone w hmem hw hwe => ?_⟩
  · unfold restart construct
    have hok : init.init = .ok () := hinit
    rw [hok, ok_bind, pure_eq_ok, ok_bind]
    exact hs'
  -- a private key due here means an own exchange at the checkpoint of this system
  · obtain ⟨key, hkey⟩ := exists_own_of_secret hlive hmem hw
    rcases exists_mem_applyAll.mp ⟨e.2, he⟩ with ⟨sys, hsys⟩ | ⟨u, hu, hue⟩
    · have hzero : e.1 = 0 := congrArg Prod.fst (hstart _ hsys)
      rw [hzero] at hwe
      exact absurd hwe (Nat.not_succ_le_zero _)
    · obtain ⟨r, hr, -, hstored⟩ := (mem_replayed hreplays cfg.numReplicas_lt).mp hu
      obtain ⟨sn, key', hown, hsn⟩ := heach r u.stamp u.value hr hstored w.stamp key hkey (by
        rw [hlive.activation_eq hkey, hlive.activation_eq hstored, hue]
        exact hwe)
      rw [hlive.activation_eq hown, hlive.activation_eq hstored, hue] at hsn
      obtain ⟨secret, hsecret⟩ := (hlive.own sn).mpr ⟨key', hown⟩
      exact absurd hsn (hnone sn secret hsecret)

/-- **The end of state transfer.** A replica at `s₁` receives the pages of `s`, which holds no
further keys of its own. -/
theorem loadPublicKeys_eq (hlive₁ : Live cfg init s₁) (hsince : Since cfg s₁ s)
    (hown : ∀ sn key, StoredAt s.publicKeys cfg.repID sn key →
      StoredAt s₁.publicKeys cfg.repID sn key)
    (hquorum : EnoughLoaded cfg s₁ s) : CatchesUpAlike cfg s₁ s := by
  have hn := cfg.numReplicas_lt
  have hprivate := hsince.privateKeys hown
  have hreplays : Replays s
      (loadAllReplicasKeyStores { s₁ with reservedPages := s.reservedPages }) :=
    replays_loadAll hlive rfl hprivate.symm
  set s₂ := loadAllReplicasKeyStores { s₁ with reservedPages := s.reservedPages }
  set t₁ := s₂.crypto.cryptoSystems
  have hsound : Sound init.signerID t₁ := fun e he => ⟨hlive₁.usable e he, hlive₁.signer e he⟩
  have hhistory : ∀ u ∈ s₁.history, u ∈ s.history := by
    rintro u (⟨r, hr, hstored⟩ | ⟨hslot, hmem⟩)
    · exact .inl ⟨r, hr, hsince.stored _ _ _ hstored⟩
    · exact .inr ⟨hslot, by rw [hprivate]; exact hmem⟩
  have hlate : ∀ u ∈ s₂.replayed, u ∈ s₁.history ∨ t₁.newest.1 ≤ dueCheckpoint u.stamp := by
    intro u hu
    obtain ⟨r, -, hr, hstored⟩ := (mem_replayed hreplays hn).mp hu
    rcases hsince.late _ _ _ hstored with hstored | hle
    · exact .inl (.inl ⟨r, hr, hstored⟩)
    · exact .inr hle
  have hfollows : ∀ i, (∀ u ∈ s₂.replayed, u.slot = i → ∃ j : Fin n, i = .verification j.succ) →
      ShowsKeys init (s₁.history ∪ {u | u ∈ s₂.replayed}) i
      (t₁.applyAll dueCheckpoint write s₂.replayed) := by
    intro i hi
    apply (hlive₁.follows i).replay read_write (fun _ _ => dueCheckpoint_mono) hlive₁.covers
    · intro u hu hle
      rcases hlate u hu with hmem | hge
      · exact hlive₁.covers u hmem
      · have heq : dueCheckpoint u.stamp = t₁.newest.1 := le_antisymm hle hge
        rw [heq]
        exact ⟨_, newest_mem⟩
    · intro u hu hui w hw hwi
      obtain ⟨j, rfl⟩ := hi u hu hui
      exact (mem_history_iff hn hreplays hwi).mp (hhistory w hw)
    · exact fun u hu _ hno => (hlate u hu).resolve_left hno
    · exact sorted_replayed
  obtain ⟨s', hs', hpublic, hsecret⟩ :=
    notifyRegistry_sameKey hlive hslot hreplays hsound hhistory hfollows
  refine ⟨s', ?_, hpublic, hsecret fun e _ _ w hmem hw _ => ?_⟩
  · unfold loadPublicKeys
    have hensure : (!(cfg.keyExchangeOnStart && s₂.exchanged cfg) ||
        decide (liveQuorumSize cfg ≤ s₂.publicKeys.numOfExchangedReplicas)) = true := by
      rw [Bool.or_eq_true, Bool.not_eq_true', decide_eq_true_iff]
      by_cases hboth : (cfg.keyExchangeOnStart && s₂.exchanged cfg) = true
      · obtain ⟨hstart, hexchanged⟩ := Bool.and_eq_true_iff.mp hboth
        exact .inr (hquorum hstart hexchanged)
      · exact .inl (Bool.not_eq_true _ ▸ hboth)
    dsimp only
    rw [hensure, ensure_true, ok_bind]
    exact hs'
  · rw [mem_history_of_secret hw, hprivate] at hmem
    exact (mem_history_of_secret hw).mpr hmem

end

/-! ## The schedule of a run -/

/-- **The key schedule of exchanges in order.** -/
theorem keySchedule_of_inOrder (cfg : KeyExchangeConfig n) (epoch : UInt64) (privateKey : Key)
    (verificationKeys : Fin (n + 1) → Key) {s₀ s₁ s : KeyExchangeManager n}
    {before after : List KeyEvent}
    (hstart : firstStart cfg epoch (cfg.cryptosystem privateKey verificationKeys) = .ok s₀)
    (hbefore : Exec.run (step cfg) s₀ before = .ok s₁)
    (hafter : Exec.run (step cfg) s₁ after = .ok s)
    (hord : EveryStep (step cfg) s₀ InOrder (before ++ after)) :
    FollowsSchedule verificationKeys s ∧
      (∃ s', s.restart cfg (cfg.cryptosystem privateKey verificationKeys) = .ok s' ∧
        (∀ j : Fin n, SameKey (.verification j.succ) s s') ∧
        (OwnKeyAtEach cfg s → SameKey .secret s s')) ∧
      ((∀ sn key, StoredAt s.publicKeys cfg.repID sn key →
          StoredAt s₁.publicKeys cfg.repID sn key) → EnoughLoaded cfg s₁ s →
        CatchesUpAlike cfg s₁ s) := by
  set init := cfg.cryptosystem privateKey verificationKeys with hinit
  have hslot : slotOf n cfg.repID = some (.verification init.signerID) :=
    slotOf_of_lt cfg.numReplicas_lt cfg.repID_lt
  have hlive₁ : Live cfg init s₁ :=
    (Live.of_firstStart hstart).run hslot hord.append_left hbefore
  have hordAfter := hord.append_right hbefore
  have hlive : Live cfg init s := hlive₁.run hslot hordAfter hafter
  refine ⟨hlive.followsSchedule, ?_, fun hown hquorum => ?_⟩
  · unfold firstStart CryptoManager.construct at hstart
    obtain ⟨crypto, hcrypto, -⟩ := bind_eq_ok.mp hstart
    exact restart_eq hlive hslot (unit_bind_eq_ok.mp hcrypto).1
  · exact loadPublicKeys_eq hlive hslot hlive₁ (Since.run hlive₁ hordAfter hafter) hown hquorum

/-! ## Exchanges out of order -/

def fourReplicas : KeyExchangeConfig 4 where
  repID := 0
  numReplicas_lt := by decide
  repID_lt := by decide
  quorumSize := 2
  waitForFullCommOnStartup := false
  keyExchangeOnStart := false
  sizeOfReservedPage := 4096
  numberOfReservedPages := 16

def keyOf (digit : UInt8) : Key := List.replicate 64 (48 + digit)

def initialSystem : Cryptosystem 4 := fourReplicas.cryptosystem (keyOf 0) fun _ => keyOf 0

def firstManager : KeyExchangeManager 4 :=
  ⟨0, fun _ => none, fun _ => none, [], .clear, ⟨start initialSystem⟩⟩

def exchangeOf (repID : UInt16) (sn : UInt64) (digit : UInt8) : KeyEvent :=
  .exchange ⟨KeyExchangeMsg.EXCHANGE, keyOf digit, repID, sn, 0⟩ sn

def generatedPair : KeyEvent := .generate { priv := keyOf 5, pub := keyOf 6 }

def runFrom (events : List KeyEvent) : Exec (KeyExchangeManager 4) := do
  let s ← firstStart fourReplicas 0 initialSystem
  Exec.run (step fourReplicas) s events

/-- A key that counts from checkpoint 3 is exchanged before one that counts from checkpoint 2: the
system made for checkpoint 2 is a copy of the one for checkpoint 3. And a replica that exchanged a
key at checkpoint 2 only loses it at checkpoint 3 by a restart. -/
theorem not_keySchedule_outOfOrder :
    (∃ s, runFrom [exchangeOf 1 200 1, exchangeOf 2 100 2] = .ok s ∧
      ¬ FollowsSchedule initialSystem.verificationKeys s) ∧
    ∃ s s', runFrom [generatedPair, exchangeOf 0 10 6, exchangeOf 1 200 1] = .ok s ∧
      s.restart fourReplicas initialSystem = .ok s' ∧ ¬ SameKey .secret s s' := by
  constructor
  · refine ⟨_, rfl, fun hfollows => ?_⟩
    obtain ⟨sys, hsys, hscheduled⟩ := hfollows 301 (by decide)
    obtain rfl := ok.inj hsys
    rcases hscheduled 1 (by decide) with ⟨sn, ⟨ks, hks, hmem⟩, hle, -⟩ | ⟨-, hinitial⟩
    · obtain rfl := Option.some.inj hks
      rw [(Prod.mk.inj (mem_singleton.mp hmem)).1] at hle
      exact absurd hle (by decide)
    · exact absurd hinitial (by decide)
  · refine ⟨_, _, rfl, rfl, fun hsame => ?_⟩
    obtain ⟨sys, sys', hsys, hsys', heq⟩ := hsame 451 (by decide)
    obtain rfl := ok.inj hsys
    obtain rfl := ok.inj hsys'
    exact absurd heq (by decide)

theorem storedAt_of_step {cfg : KeyExchangeConfig n} {s s' : KeyExchangeManager n} {event : KeyEvent}
    (h : step cfg s event = .ok s') {r : UInt16} {sn : ℤ} {key : Key}
    (hstored : StoredAt s'.publicKeys r sn key) : StoredAt s.publicKeys r sn key ∨
      ∃ kemsg reqSn, event = .exchange kemsg reqSn ∧ r = kemsg.repID ∧
        sn = toSeqNum kemsg.generatedSn := by
  rcases step_cases h with ⟨hsame, -⟩ | ⟨kemsg, reqSn, heq, hacc, hadd, -⟩
  · rw [hsame] at hstored
    exact .inl hstored
  · rw [hadd, ClusterKeys.storedAt_add hacc.2.2.2] at hstored
    exact hstored.imp_right fun h => ⟨kemsg, reqSn, heq, h.1, h.2.1⟩

/-- The replica exchanges a key, another one follows for the same checkpoint. -/
theorem keySchedule_of_two : ∃ s₁ s s', runFrom [generatedPair, exchangeOf 0 10 6] = .ok s₁ ∧
    Exec.run (step fourReplicas) s₁ [exchangeOf 1 50 1] = .ok s ∧
    FollowsSchedule initialSystem.verificationKeys s ∧
    s.restart fourReplicas initialSystem = .ok s' ∧
    (∀ j : Fin 4, SameKey (.verification j.succ) s s') ∧ SameKey .secret s s' ∧
    CatchesUpAlike fourReplicas s₁ s := by
  obtain ⟨s₀, s', s₁, s, hstart, hnone, hgenerate, hown, hother⟩ : ∃ s₀ s' s₁ s,
      firstStart fourReplicas 0 initialSystem = .ok s₀ ∧ s₀.publicKeys = (fun _ => none) ∧
      step fourReplicas s₀ generatedPair = .ok s' ∧
      step fourReplicas s' (exchangeOf 0 10 6) = .ok s₁ ∧
      step fourReplicas s₁ (exchangeOf 1 50 1) = .ok s := ⟨_, _, _, _, rfl, rfl, rfl, rfl, rfl⟩
  have h' : ∀ r sn key, ¬ StoredAt s'.publicKeys r sn key := by
    intro r sn key h
    rcases storedAt_of_step hgenerate h with ⟨ks, hks, -⟩ | ⟨_, _, heq, -⟩
    · rw [hnone] at hks
      cases hks
    · cases heq
  have h₁ : ∀ r sn key, StoredAt s₁.publicKeys r sn key → r = 0 ∧ sn = 10 := by
    intro r sn key h
    obtain ⟨_, _, ⟨⟩, hr, hsn⟩ := (storedAt_of_step hown h).resolve_left (h' r sn key)
    exact ⟨hr, hsn⟩
  have hord : EveryStep (step fourReplicas) s₀ InOrder
      ([generatedPair, exchangeOf 0 10 6] ++ [exchangeOf 1 50 1]) := by
    refine EveryStep.cons trivial fun _ hs => ?_
    obtain rfl := ok.inj (hgenerate.symm.trans hs)
    refine EveryStep.cons (fun _ => ⟨by decide, fun r sn key h => absurd h (h' r sn key)⟩)
      fun _ hs => ?_
    obtain rfl := ok.inj (hown.symm.trans hs)
    refine EveryStep.cons (fun _ => ⟨by decide, fun r sn key h => ?_⟩) fun _ _ => everyStep_nil _ _ _
    obtain ⟨rfl, rfl⟩ := h₁ r sn key h
    exact ⟨by decide, fun h => absurd h (by decide)⟩
  have hbefore : Exec.run (step fourReplicas) s₀ [generatedPair, exchangeOf 0 10 6] = .ok s₁ := by
    simp [run_cons, hgenerate, hown]
  have hafter : Exec.run (step fourReplicas) s₁ [exchangeOf 1 50 1] = .ok s := by
    simp [run_cons, hother]
  obtain ⟨hfollows, ⟨s₂, hrestart, hpublic, hsecret⟩, hcatch⟩ := keySchedule_of_inOrder fourReplicas 0
    (keyOf 0) (fun _ => keyOf 0) hstart hbefore hafter hord
  refine ⟨s₁, s, s₂, bind_eq_ok.mpr ⟨s₀, hstart, hbefore⟩, hafter, hfollows, hrestart, hpublic,
    hsecret ?_, hcatch ?_ fun h => absurd h (by decide)⟩
  · intro r sn key _ h sn' key' h' _
    have hall : ∀ r sn key, StoredAt s.publicKeys r sn key → activationCheckpoint sn = 2 := by
      intro r sn key h
      rcases storedAt_of_step hother h with h | ⟨_, _, ⟨⟩, -, rfl⟩
      · rw [(h₁ r sn key h).2]
        decide
      · decide
    exact ⟨sn', key', h', (hall _ _ _ h').trans (hall _ _ _ h).symm⟩
  · intro sn key h
    exact (storedAt_of_step hother h).resolve_right fun ⟨_, _, heq, hr, _⟩ => by
      cases heq
      exact absurd hr (by decide)

end KeyExchangeManager

end ConcordBft
