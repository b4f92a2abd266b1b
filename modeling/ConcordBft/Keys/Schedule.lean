import ConcordBft.Keys.KeyExchange
import ConcordBft.Lib.Run

/-!
# The key schedule

Key exchanges accepted in the order of their activation checkpoints leave crypto systems that
hold, at every checkpoint, the keys the exchanges define (`Live.scheduled`). The verification keys
and the private key of a system are slots of a timeline, an exchange is an amendment of one or two
of them, and the store of the keys is the set of all amendments. A replay amends in the order of
the generated sequence numbers.
-/

namespace ConcordBft

open Verif Verif.Exec Cryptosystem KeysBySeqNum Timeline ClusterKeys List Except CryptoManager Prod
open Function

variable {n : ℕ}

/-! ## Slots of a crypto system -/

inductive KeySlot (n : ℕ)
  | secret
  | verification (i : Fin (n + 1))
  deriving DecidableEq

namespace Cryptosystem

def read : KeySlot n → Cryptosystem n → Key
  | .secret, sys => sys.privateKey
  | .verification i, sys => sys.verificationKeys i

def write : KeySlot n → Key → Cryptosystem n → Cryptosystem n
  | .secret, key, sys => { sys with privateKey := key }
  | .verification i, key, sys =>
    { sys with verificationKeys := Function.update sys.verificationKeys i key }

theorem read_write (i : KeySlot n) (key : Key) (sys : Cryptosystem n) (j : KeySlot n) :
    read j (write i key sys) = if j = i then key else read j sys := by
  rcases i with _ | i <;> rcases j with _ | j
  · rfl
  · rfl
  · rfl
  · show update sys.verificationKeys i key j = _
    simp only [update_apply, KeySlot.verification.injEq]
    rfl

@[simp] theorem signerID_write (i : KeySlot n) (key : Key) (sys : Cryptosystem n) :
    (write i key sys).signerID = sys.signerID := by
  cases i <;> rfl

theorem updateKeys_eq (sys : Cryptosystem n) (secret key : Key) : sys.updateKeys secret key =
      write (.verification sys.signerID) key (write .secret secret sys) := rfl

def Usable (sys : Cryptosystem n) : Prop := sys.init = .ok ()

theorem forM_eq_ok {α : Type} {f : α → Exec Unit} {l : List α} :
    l.forM f = .ok () ↔ ∀ x ∈ l, f x = .ok () := by
  induction l with
  | nil => simp
  | cons x l ih =>
    show (f x >>= fun _ => l.forM f) = .ok () ↔ _
    rw [unit_bind_eq_ok, forall_mem_cons, ih]

variable {sys : Cryptosystem n}

theorem usable_iff : sys.Usable ↔ newSigner sys.privateKey = .ok () ∧
      ∀ i : Fin n, fromHexString (sys.verificationKeys i.succ) = .ok () := by
  unfold Usable init
  rw [unit_bind_eq_ok, forM_eq_ok]
  exact and_congr_right fun _ => forall_congr' fun i => forall_prop_of_true (mem_finRange i)

theorem Usable.write_secret (h : sys.Usable) {key : Key}
    (hkey : newSigner key = .ok ()) : (write .secret key sys).Usable :=
  usable_iff.mpr ⟨hkey, (usable_iff.mp h).2⟩

theorem Usable.write_verification (h : sys.Usable) (i : Fin (n + 1))
    {key : Key} (hkey : fromHexString key = .ok ()) : (write (.verification i) key sys).Usable := by
  refine usable_iff.mpr ⟨(usable_iff.mp h).1, fun j => ?_⟩
  show fromHexString (update sys.verificationKeys i key j.succ) = .ok ()
  rw [update_apply]
  split_ifs
  · exact hkey
  · exact (usable_iff.mp h).2 j

end Cryptosystem

/-! ## Exchanges as amendments -/

/-- The checkpoint from which a key counts, for a sequence number that is not negative. -/
def dueCheckpoint (sn : ℤ) : ℕ := sn.toNat / checkpointWindowSize + 2

theorem dueCheckpoint_mono {a b : ℤ} (h : a ≤ b) : dueCheckpoint a ≤ dueCheckpoint b :=
  Nat.add_le_add_right (Nat.div_le_div_right (Int.toNat_le_toNat h)) 2

variable {sn : ℤ}

theorem activationCheckpoint_eq (h : 0 ≤ sn) (hlt : sn < 2 ^ 63) :
    activationCheckpoint sn = dueCheckpoint sn := by
  unfold activationCheckpoint dueCheckpoint checkpointWindowSize
  rw [Int.tdiv_eq_ediv_of_nonneg h]
  omega

/-- The entry of `verificationKeys` that an exchange of a replica changes. -/
def slotOf (n : ℕ) (repID : UInt16) : Option (KeySlot n) :=
  if h : (repID + 1).toNat < n + 1 then some (.verification ⟨(repID + 1).toNat, h⟩) else none

variable {r : UInt16} {i : KeySlot n} {r' : UInt16}

theorem slotOf_inj (h : slotOf n r = some i) (h' : slotOf n r' = some i) : r = r' := by
  unfold slotOf at h h'
  split_ifs at h with hr
  split_ifs at h' with hr'
  rw [← h', Option.some.injEq, KeySlot.verification.injEq, Fin.mk.injEq] at h
  have heq : r + 1 = r' + 1 := UInt16.toNat_inj.mp h
  exact (UInt16.add_left_inj 1).mp heq

theorem slotOf_ne_secret : slotOf n r ≠ some .secret := by
  unfold slotOf
  split_ifs <;> simp

theorem slotOf_of_lt (hn : n < 2 ^ 16) (hr : r.toNat < n) :
    slotOf n r = some (.verification ⟨r.toNat + 1, by omega⟩) := by
  have heq : (r + 1).toNat = r.toNat + 1 := by
    rw [UInt16.toNat_add]
    have : (1 : UInt16).toNat = 1 := rfl
    omega
  unfold slotOf
  rw [dif_pos (by omega)]
  simp only [heq]

abbrev KeyAmendment (n : ℕ) := Amendment ℤ (KeySlot n) Key

def StoredAt (keys : ClusterKeys) (r : UInt16) (sn : ℤ) (key : Key) : Prop :=
  ∃ ks, keys r = some ks ∧ (sn, key) ∈ ks

/-- The amendments of verification keys in the store. -/
def publicHistory (n : ℕ) (keys : ClusterKeys) : Set (KeyAmendment n) :=
  {u | ∃ r, slotOf n r = some u.slot ∧ StoredAt keys r u.stamp u.value}

def secretHistory (n : ℕ) (keys : KeysBySeqNum) : Set (KeyAmendment n) :=
  {u | u.slot = .secret ∧ (u.stamp, u.value) ∈ keys}

namespace CryptoManager

variable {m m' : CryptoManager n}

theorem create_eq_ok {change : Cryptosystem n → Exec (Cryptosystem n)} :
    m.create sn change = .ok m' ↔
      ∃ sys, change (m.cryptoSystems.source (activationCheckpoint sn)) = .ok sys ∧ sys.Usable ∧
        m' = ⟨m.cryptoSystems.replace (activationCheckpoint sn) sys⟩ := by
  unfold create
  rw [bind_eq_ok]
  refine exists_congr fun sys => and_congr_right fun _ => ?_
  rw [unit_bind_eq_ok, pure_eq_ok, ok.injEq]
  exact and_congr_right fun _ => eq_comm

variable {sn : ℤ}

theorem returns_onPublicKeyExchange {key : Key} :
    Returns (m.onPublicKeyExchange key r sn) ↔ ∃ i, slotOf n r = some i ∧
      (write i key (m.cryptoSystems.source (activationCheckpoint sn))).Usable := by
  unfold onPublicKeyExchange Returns updateVerificationKey slotOf
  simp only [create_eq_ok]
  split_ifs with hr
  · simp [write]
  · simp

variable (hsn : 0 ≤ sn) (hlt : sn < 2 ^ 63)

include hsn hlt

theorem onPublicKeyExchange_eq_ok {key : Key} : m.onPublicKeyExchange key r sn = .ok m' ↔
      ∃ i, slotOf n r = some i ∧ (write i key (m.cryptoSystems.source (dueCheckpoint sn))).Usable ∧
        m'.cryptoSystems = m.cryptoSystems.apply dueCheckpoint write ⟨sn, i, key⟩ := by
  unfold onPublicKeyExchange updateVerificationKey slotOf
  rw [create_eq_ok, activationCheckpoint_eq hsn hlt]
  split_ifs with hr
  · simp [CryptoManager.ext_iff, Timeline.apply, write]
  · simp

theorem onPrivateKeyExchange_eq_ok {secret key : Key} :
    m.onPrivateKeyExchange secret key sn = .ok m' ↔
      (updateKeys (m.cryptoSystems.source (dueCheckpoint sn)) secret key).Usable ∧
        m'.cryptoSystems = (m.cryptoSystems.apply dueCheckpoint write
          ⟨sn, .secret, secret⟩).apply dueCheckpoint write
          ⟨sn, .verification (m.cryptoSystems.source (dueCheckpoint sn)).signerID, key⟩ := by
  unfold onPrivateKeyExchange
  rw [create_eq_ok, activationCheckpoint_eq hsn hlt, apply_apply, ← updateKeys_eq]
  simp [CryptoManager.ext_iff]

end CryptoManager

/-! ## Accepted exchanges -/

namespace KeysBySeqNum

variable {keys : KeysBySeqNum} {sn : ℤ} {key : Key}

theorem contains_iff : keys.contains sn = true ↔ ∃ key, (sn, key) ∈ keys := by
  unfold contains
  rw [any_eq_true]
  constructor
  · rintro ⟨e, he, hsn⟩
    exact ⟨e.2, by rw [← beq_iff_eq.mp hsn]; exact he⟩
  · rintro ⟨key, he⟩
    exact ⟨_, he, beq_self_eq_true sn⟩

theorem contains_eq_false : keys.contains sn = false ↔ ∀ key, (sn, key) ∉ keys := by
  rw [← Bool.not_eq_true, contains_iff, not_exists]

theorem mem_insert (h : keys.contains sn = false) {e : ℤ × Key} :
    e ∈ keys.insert sn key ↔ e ∈ keys ∨ e = (sn, key) := by
  rw [contains_eq_false] at h
  unfold insert
  induction keys with
  | nil => simp [OrdSet.insert]
  | cons d keys ih =>
    have hd : d.1 ≠ sn := fun hd => h d.2 (by rw [← hd]; exact mem_cons_self)
    have hrest : ∀ key, (sn, key) ∉ keys := fun key hmem => h key (mem_cons_of_mem _ hmem)
    rw [OrdSet.insert]
    rcases lt_or_gt_of_ne hd with hlt | hgt
    · rw [if_pos (decide_eq_true hlt), mem_cons, ih hrest, mem_cons, or_assoc]
    · rw [if_neg (by simpa using hgt.le), if_pos (decide_eq_true hgt), mem_cons, or_comm]

theorem sorted_insert (h : OrdSet.Sorted fst keys) :
    OrdSet.Sorted fst (keys.insert sn key) :=
  OrdSet.sorted_insert (fun _ _ => decide_eq_true_iff) h

theorem mem_of_key? (h : keys.key? sn = some key) : (sn, key) ∈ keys := by
  obtain ⟨e, he, rfl⟩ := Option.map_eq_some_iff.mp h
  have hfound := List.find?_some he
  have hsn : e.1 = sn := beq_iff_eq.mp hfound
  rw [← hsn]
  exact mem_of_find?_eq_some he

theorem exists_key? (h : (sn, key) ∈ keys) :
    ∃ key', keys.key? sn = some key' ∧ (sn, key') ∈ keys := by
  have hsome : (keys.find? fun e => e.1 == sn).isSome :=
    List.find?_isSome.mpr ⟨(sn, key), h, beq_self_eq_true sn⟩
  obtain ⟨e, he⟩ := Option.isSome_iff_exists.mp hsome
  have hkey : keys.key? sn = some e.2 := by rw [key?, he]; rfl
  exact ⟨e.2, hkey, mem_of_key? hkey⟩

end KeysBySeqNum

namespace ClusterKeys

variable {keys : ClusterKeys} {r : UInt16} {sn : ℤ} {key : Key}

theorem storedAt_iff : StoredAt keys r sn key ↔ (sn, key) ∈ (keys r).getD [] := by
  unfold StoredAt
  rcases keys r with _ | ks <;> simp

theorem keyExistsAt_eq : keys.keyExistsAt r sn = ((keys r).getD []).contains sn := by
  unfold keyExistsAt
  rcases keys r with _ | ks <;> rfl

theorem keyExistsAt_iff : keys.keyExistsAt r sn = true ↔ ∃ key, StoredAt keys r sn key := by
  simp only [keyExistsAt_eq, contains_iff, storedAt_iff]

def add (keys : ClusterKeys) (r : UInt16) (sn : ℤ) (key : Key) : ClusterKeys :=
  Function.update keys r (some (((keys r).getD []).insert sn key))

theorem storedAt_add (h : keys.keyExistsAt r sn = false) {sn' : ℤ} {key' : Key} :
    StoredAt (keys.add r sn key) r' sn' key' ↔
      StoredAt keys r' sn' key' ∨ (r' = r ∧ sn' = sn ∧ key' = key) := by
  rw [keyExistsAt_eq] at h
  rw [storedAt_iff, storedAt_iff, add]
  by_cases hr : r' = r
  · subst hr
    rw [update_self, Option.getD_some, mem_insert h, Prod.mk.injEq]
    simp
  · simp [hr]

theorem publicHistory_add (h : keys.keyExistsAt r sn = false) (hi : slotOf n r = some i) :
    publicHistory n (keys.add r sn key) = insert ⟨sn, i, key⟩ (publicHistory n keys) := by
  ext u
  constructor
  · rintro ⟨r', hslot, hstored⟩
    rcases (storedAt_add h).mp hstored with hstored | ⟨rfl, hsn, hkey⟩
    · exact .inr ⟨r', hslot, hstored⟩
    · refine .inl ?_
      rcases u with ⟨stamp, slot, value⟩
      rw [hi, Option.some.injEq] at hslot
      dsimp only at hsn hkey hslot
      rw [hsn, hkey, hslot]
  · rintro (rfl | ⟨r', hslot, hstored⟩)
    · exact ⟨r, hi, (storedAt_add h).mpr (.inr ⟨rfl, rfl, rfl⟩)⟩
    · exact ⟨r', hslot, (storedAt_add h).mpr (.inl hstored)⟩

end ClusterKeys

variable {key : Key}

theorem secretHistory_insert {keys : KeysBySeqNum} (h : keys.contains sn = false) :
    secretHistory n (keys.insert sn key) = insert ⟨sn, .secret, key⟩ (secretHistory n keys) := by
  ext u
  constructor
  · rintro ⟨hslot, hmem⟩
    rcases (mem_insert h).mp hmem with hmem | heq
    · exact .inr ⟨hslot, hmem⟩
    · refine .inl ?_
      rcases u with ⟨stamp, slot, value⟩
      rw [Prod.mk.injEq] at heq
      dsimp only at hslot heq
      rw [hslot, heq.1, heq.2]
  · rintro (rfl | ⟨hslot, hmem⟩)
    · exact ⟨rfl, (mem_insert h).mpr (.inr rfl)⟩
    · exact ⟨hslot, (mem_insert h).mpr (.inl hmem)⟩

theorem toSeqNum_range {x : UInt64} (h : x.toNat < 2 ^ 63) :
    0 ≤ toSeqNum x ∧ toSeqNum x < 2 ^ 63 := by
  unfold toSeqNum
  rw [BitVec.toInt_eq_toNat_of_lt (by rw [UInt64.toNat_toBitVec]; omega), UInt64.toNat_toBitVec]
  omega

namespace KeyExchangeManager

variable {cfg : KeyExchangeConfig n} {s s' : KeyExchangeManager n}

/-- The exchange is not refused and its key is new. -/
def Accepts (s : KeyExchangeManager n) (kemsg : KeyExchangeMsg) (reqSn : UInt64) : Prop :=
  kemsg.op ≠ KeyExchangeMsg.HAS_KEYS ∧ kemsg.epoch = s.selfEpochNumber ∧
    reqSn.toNat / kWorkWindowSize * kWorkWindowSize ≤ kemsg.generatedSn.toNat ∧
    s.publicKeys.keyExistsAt kemsg.repID (toSeqNum kemsg.generatedSn) = false

def pushed (s : KeyExchangeManager n) (r : UInt16) (sn : ℤ) (key : Key) : KeyExchangeManager n :=
  { s with
    publicKeys := s.publicKeys.add r sn key
    reservedPages := Function.update s.reservedPages r
      (some (((s.publicKeys r).getD []).insert sn key)) }

variable {r : UInt16} {key : Key} {sn : ℤ} {kemsg : KeyExchangeMsg} {reqSn : UInt64}

theorem push_eq_ok (h : s.push cfg r key sn = .ok s') : s' = s.pushed r sn key := by
  unfold push at h
  obtain ⟨-, h⟩ := ensure_bind_eq_ok.mp h
  obtain ⟨-, h⟩ := ensure_bind_eq_ok.mp h
  obtain ⟨-, h⟩ := ensure_bind_eq_ok.mp h
  exact (ok.inj h).symm

theorem exchangePrivate_eq_ok : s.exchangePrivate key sn = .ok s' ↔
      s.candidate.pub = key ∧ s.privateKeys.contains sn = false ∧
      ∃ crypto, s.crypto.onPrivateKeyExchange s.candidate.priv key sn = .ok crypto ∧ s' = { s with
          privateKeys := s.privateKeys.insert sn s.candidate.priv
          candidate := .clear
          crypto := crypto } := by
  unfold exchangePrivate
  rw [ensure_bind_eq_ok, ensure_bind_eq_ok, beq_iff_eq, Bool.not_eq_true', bind_eq_ok]
  simp only [pure_eq_ok, ok.injEq, eq_comm]

theorem returns_exchangePrivate : Returns (s.exchangePrivate key sn) ↔
      s.candidate.pub = key ∧ s.privateKeys.contains sn = false ∧
        ((s.crypto.cryptoSystems.source (activationCheckpoint sn)).updateKeys s.candidate.priv
          key).Usable := by
  unfold exchangePrivate
  rw [returns_ensure_bind, returns_ensure_bind, beq_iff_eq, Bool.not_eq_true']
  refine and_congr_right fun _ => and_congr_right fun _ => returns_bind_ok.trans ?_
  unfold onPrivateKeyExchange Returns
  simp [create_eq_ok]

theorem mem_orderedPublicKeys (hn : n < 2 ^ 16) :
    (sn, r, key) ∈ s.orderedPublicKeys ↔ r.toNat < n ∧ StoredAt s.publicKeys r sn key := by
  unfold orderedPublicKeys
  rw [storedAt_iff, mem_insertionSort, mem_flatMap]
  constructor
  · rintro ⟨i, hi, hmem⟩
    obtain ⟨e, he, heq⟩ := mem_map.mp hmem
    simp only [Prod.mk.injEq] at heq
    obtain ⟨rfl, rfl, rfl⟩ := heq
    have hi := mem_range.mp hi
    have hsize : UInt16.size = 2 ^ 16 := rfl
    have hnat : (UInt16.ofNat i).toNat = i := UInt16.toNat_ofNat_of_lt' (by omega)
    exact ⟨by omega, he⟩
  · rintro ⟨hr, hmem⟩
    refine ⟨r.toNat, mem_range.mpr hr, ?_⟩
    rw [UInt16.ofNat_toNat]
    exact mem_map.mpr ⟨(sn, key), hmem, rfl⟩

theorem onKeyExchange_of_not_accepts (cfg : KeyExchangeConfig n) (h : ¬ s.Accepts kemsg reqSn) :
    ∃ reply, s.onKeyExchange cfg kemsg reqSn = .ok (reply, s) := by
  unfold onKeyExchange
  dsimp only
  split_ifs with hop _ hepoch hwindow hexists
  any_goals exact ⟨_, rfl⟩
  all_goals exact absurd ⟨hop, not_not.mp hepoch, not_lt.mp hwindow, Bool.not_eq_true _ ▸ hexists⟩ h

theorem onKeyExchange_of_accepts (h : s.Accepts kemsg reqSn) : s.onKeyExchange cfg kemsg reqSn =
      (s.push cfg kemsg.repID kemsg.pubkey (toSeqNum kemsg.generatedSn) >>= fun s₁ =>
        if kemsg.repID = cfg.repID then
          s₁.exchangePrivate kemsg.pubkey (toSeqNum kemsg.generatedSn) >>= fun s₂ =>
            .ok (.done, s₂)
        else
          s₁.crypto.onPublicKeyExchange kemsg.pubkey kemsg.repID (toSeqNum kemsg.generatedSn) >>=
            fun crypto => .ok (.done, { s₁ with crypto := crypto })) := by
  obtain ⟨hop, hepoch, hwindow, hnew⟩ := h
  unfold onKeyExchange
  dsimp only
  rw [if_neg hop, if_neg (not_not.mpr hepoch), if_neg (not_lt.mpr hwindow),
    if_neg (by rw [hnew]; exact Bool.false_ne_true)]
  rfl

/-- What an exchange can do: nothing, unless it is accepted. -/
theorem onKeyExchange_cases {reply : KeyExchangeReply}
    (h : s.onKeyExchange cfg kemsg reqSn = .ok (reply, s')) :
    (¬ s.Accepts kemsg reqSn ∧ s' = s) ∨ (s.Accepts kemsg reqSn ∧
        let s₁ := s.pushed kemsg.repID (toSeqNum kemsg.generatedSn) kemsg.pubkey
        (kemsg.repID = cfg.repID ∧
            s₁.exchangePrivate kemsg.pubkey (toSeqNum kemsg.generatedSn) = .ok s') ∨
          (kemsg.repID ≠ cfg.repID ∧ ∃ crypto,
            s₁.crypto.onPublicKeyExchange kemsg.pubkey kemsg.repID (toSeqNum kemsg.generatedSn) =
              .ok crypto ∧ s' = { s₁ with crypto := crypto })) := by
  by_cases hacc : s.Accepts kemsg reqSn
  · rw [onKeyExchange_of_accepts hacc, bind_eq_ok] at h
    obtain ⟨s₁, hpush, h⟩ := h
    obtain rfl := push_eq_ok hpush
    refine .inr ⟨hacc, ?_⟩
    by_cases hown : kemsg.repID = cfg.repID
    · rw [if_pos hown, bind_eq_ok] at h
      obtain ⟨s₂, hs₂, h⟩ := h
      obtain ⟨-, rfl⟩ := ok_mk_inj h
      exact .inl ⟨hown, hs₂⟩
    · rw [if_neg hown, bind_eq_ok] at h
      obtain ⟨crypto, hcrypto, h⟩ := h
      exact .inr ⟨hown, crypto, hcrypto, (congrArg snd (ok.inj h)).symm⟩
  · obtain ⟨reply', hreply⟩ := onKeyExchange_of_not_accepts cfg hacc
    rw [hreply] at h
    exact .inl ⟨hacc, (congrArg snd (ok.inj h)).symm⟩

theorem leaves_of_not_accepts (h : ¬ s.Accepts kemsg reqSn) : s.leaves cfg kemsg reqSn = s := by
  obtain ⟨reply, hreply⟩ := onKeyExchange_of_not_accepts cfg h
  unfold leaves
  rw [hreply]

/-- Whatever becomes of an accepted exchange, its key is in the store. -/
theorem publicKeys_leaves (h : s.Accepts kemsg reqSn) : (s.leaves cfg kemsg reqSn).publicKeys =
    s.publicKeys.add kemsg.repID (toSeqNum kemsg.generatedSn) kemsg.pubkey := by
  unfold leaves
  rcases hex : s.onKeyExchange cfg kemsg reqSn with fault | ⟨reply, s'⟩
  · dsimp only
    rcases hpush : s.push cfg kemsg.repID kemsg.pubkey (toSeqNum kemsg.generatedSn) with fault | s₁
    · rfl
    · obtain rfl := push_eq_ok hpush
      dsimp only
      split_ifs <;> rfl
  · rcases onKeyExchange_cases hex with ⟨hnot, -⟩ | ⟨-, ⟨-, hs'⟩ | ⟨-, crypto, -, rfl⟩⟩
    · exact absurd h hnot
    · obtain ⟨-, -, crypto, -, rfl⟩ := exchangePrivate_eq_ok.mp hs'
      rfl
    · rfl

theorem publicKeys_leaves_ne_iff (r : UInt16) :
    (s.leaves cfg kemsg reqSn).publicKeys r ≠ s.publicKeys r ↔
      s.Accepts kemsg reqSn ∧ r = kemsg.repID := by
  by_cases hacc : s.Accepts kemsg reqSn
  · rw [publicKeys_leaves hacc, and_iff_right hacc]
    constructor
    · intro hne
      by_contra hr
      exact hne (update_of_ne hr _ _)
    · rintro rfl heq
      have hnew := keyExistsAt_iff.mpr
        ⟨kemsg.pubkey, (storedAt_add hacc.2.2.2).mpr (.inr ⟨rfl, rfl, rfl⟩)⟩
      unfold keyExistsAt at hnew
      rw [heq] at hnew
      exact absurd (hacc.2.2.2.symm.trans hnew) (by decide)
  · rw [leaves_of_not_accepts hacc]
    exact ⟨fun hne => absurd rfl hne, fun hand => absurd hand.1 hacc⟩

/-- What the execution of an accepted exchange takes for granted: the keys fit into the page of
the replica, the replica is one of the cluster and its key a key; and an exchange of this replica
is the one that it prepared. -/
def CanExchange (cfg : KeyExchangeConfig n) (s : KeyExchangeManager n) (kemsg : KeyExchangeMsg) :
    Prop :=
  let sn := toSeqNum kemsg.generatedSn
  let sys := s.crypto.cryptoSystems.source (activationCheckpoint sn)
  kemsg.repID.toNat < cfg.numberOfReservedPages ∧
    serializedSize (((s.publicKeys kemsg.repID).getD []).insert sn kemsg.pubkey) ≤
      cfg.sizeOfReservedPage ∧
    (kemsg.repID = cfg.repID →
      s.candidate.pub = kemsg.pubkey ∧ s.privateKeys.contains sn = false ∧
        (sys.updateKeys s.candidate.priv kemsg.pubkey).Usable) ∧
    (kemsg.repID ≠ cfg.repID →
      ∃ i, slotOf n kemsg.repID = some i ∧ (write i kemsg.pubkey sys).Usable)

theorem returns_push (hnew : s.publicKeys.keyExistsAt r sn = false) :
    Returns (s.push cfg r key sn) ↔ r.toNat < cfg.numberOfReservedPages ∧
      serializedSize (((s.publicKeys r).getD []).insert sn key) ≤ cfg.sizeOfReservedPage := by
  have hnone : ((s.publicKeys r).getD []).key? sn = none := by
    rw [keyExistsAt_eq, contains_eq_false] at hnew
    exact Option.eq_none_iff_forall_ne_some.mpr fun key' hkey => hnew key' (mem_of_key? hkey)
  unfold push
  dsimp only
  rw [hnone]
  simp only [ensure_true, ok_bind, returns_ensure_bind, decide_eq_true_eq, pure_eq_ok, returns_ok,
    and_true]

/-- An exchange kills the replica exactly if it is accepted and what it takes for granted fails. -/
theorem returns_onKeyExchange : Returns (s.onKeyExchange cfg kemsg reqSn) ↔
      (s.Accepts kemsg reqSn → CanExchange cfg s kemsg) := by
  by_cases hacc : s.Accepts kemsg reqSn
  · have hiff : (s.Accepts kemsg reqSn → CanExchange cfg s kemsg) ↔ CanExchange cfg s kemsg :=
      ⟨fun h => h hacc, fun h _ => h⟩
    rw [onKeyExchange_of_accepts hacc, returns_bind_of fun s₁ h => push_eq_ok h,
      returns_push hacc.2.2.2, hiff, and_assoc]
    unfold CanExchange
    refine and_congr_right fun _ => and_congr_right fun _ => ?_
    split_ifs with hown
    · rw [returns_bind_ok, returns_exchangePrivate]
      exact ⟨fun h => ⟨fun _ => h, fun hne => absurd hown hne⟩, fun h => h.1 hown⟩
    · rw [returns_bind_ok]
      exact returns_onPublicKeyExchange.trans
        ⟨fun h => ⟨fun heq => absurd heq hown, fun _ => h⟩, fun h => h.2 hown⟩
  · obtain ⟨reply, hreply⟩ := onKeyExchange_of_not_accepts cfg hacc
    rw [hreply]
    exact ⟨fun _ h => absurd h hacc, fun _ => returns_ok _⟩

end KeyExchangeManager

/-! ## The exchanges of a run -/

/-- The system that a replica loads with its initial keys. -/
def KeyExchangeConfig.cryptosystem (cfg : KeyExchangeConfig n) (privateKey : Key)
    (verificationKeys : Fin (n + 1) → Key) : Cryptosystem n where
  signerID := ⟨cfg.repID.toNat + 1, Nat.succ_lt_succ cfg.repID_lt⟩
  privateKey := privateKey
  verificationKeys := verificationKeys

/-- The keys of a replica are generated, or an exchange is executed. -/
inductive KeyEvent
  | generate (keys : GeneratedKeys)
  | exchange (kemsg : KeyExchangeMsg) (reqSn : UInt64)

namespace KeyExchangeManager

def step (cfg : KeyExchangeConfig n) (s : KeyExchangeManager n) :
    KeyEvent → Exec (KeyExchangeManager n)
  | .generate keys => .ok { s with candidate := keys }
  | .exchange kemsg reqSn => do
    let (_, s) ← s.onKeyExchange cfg kemsg reqSn
    return s

/-- An accepted exchange activates no earlier than those before it, and is generated after those
of its replica. -/
def InOrder (s : KeyExchangeManager n) : KeyEvent → Prop
  | .generate _ => True
  | .exchange kemsg reqSn => s.Accepts kemsg reqSn →
    kemsg.generatedSn.toNat < 2 ^ 63 ∧ ∀ r sn key, StoredAt s.publicKeys r sn key →
      activationCheckpoint sn ≤ activationCheckpoint (toSeqNum kemsg.generatedSn) ∧
        (r = kemsg.repID → sn < toSeqNum kemsg.generatedSn)

def history (s : KeyExchangeManager n) : Set (KeyAmendment n) :=
  publicHistory n s.publicKeys ∪ secretHistory n s.privateKeys

theorem mem_history_of_secret {s : KeyExchangeManager n} {u : KeyAmendment n}
    (hu : u.slot = .secret) : u ∈ s.history ↔ (u.stamp, u.value) ∈ s.privateKeys := by
  refine ⟨?_, fun hmem => .inr ⟨hu, hmem⟩⟩
  rintro (⟨r, hr, -⟩ | ⟨-, hmem⟩)
  · rw [hu] at hr
    exact absurd hr slotOf_ne_secret
  · exact hmem

theorem storedAt_of_mem_history {s : KeyExchangeManager n} {u : KeyAmendment n}
    (hr : slotOf n r = some u.slot) (hu : u ∈ s.history) :
    StoredAt s.publicKeys r u.stamp u.value := by
  rcases hu with ⟨r', hr', hstored⟩ | ⟨hsecret, -⟩
  · rwa [slotOf_inj hr hr']
  · rw [hsecret] at hr
    exact absurd hr slotOf_ne_secret

/-- What holds along a run from the system `init`. -/
structure Live (cfg : KeyExchangeConfig n) (init : Cryptosystem n) (s : KeyExchangeManager n) :
    Prop where
  follows : ∀ i, Timeline.Follows dueCheckpoint read s.history
    (fun i => read i init) i s.crypto.cryptoSystems
  covers : Timeline.Covers dueCheckpoint s.history s.crypto.cryptoSystems
  made : ∀ e ∈ s.crypto.cryptoSystems.entries,
    e.1 = 0 ∨ ∃ r sn key, StoredAt s.publicKeys r sn key ∧ dueCheckpoint sn = e.1
  range : ∀ r sn key, StoredAt s.publicKeys r sn key → 0 ≤ sn ∧ sn < 2 ^ 63
  single : ∀ r sn key key', StoredAt s.publicKeys r sn key → StoredAt s.publicKeys r sn key' →
    key = key'
  pages : s.reservedPages = s.publicKeys
  private_sorted : OrdSet.Sorted Prod.fst s.privateKeys
  own : ∀ sn, (∃ key, (sn, key) ∈ s.privateKeys) ↔ ∃ key, StoredAt s.publicKeys cfg.repID sn key
  usable : ∀ e ∈ s.crypto.cryptoSystems.entries, e.2.Usable
  signer : ∀ e ∈ s.crypto.cryptoSystems.entries, e.2.signerID = init.signerID
  stored_usable : ∀ r sn key, StoredAt s.publicKeys r sn key → r.toNat < n →
    fromHexString key = .ok ()
  private_usable : ∀ e ∈ s.privateKeys, newSigner e.2 = .ok ()

namespace Live

variable {cfg : KeyExchangeConfig n} {init : Cryptosystem n} {s s' : KeyExchangeManager n}

theorem of_start (hinit : init.Usable) (epoch : UInt64) :
    Live cfg init ⟨epoch, fun _ => none, fun _ => none, [], .clear, ⟨start init⟩⟩ where
  follows i e he := by
    rw [mem_singleton.mp he]
    exact .inr ⟨by simp [history, publicHistory, secretHistory, StoredAt], rfl⟩
  covers := by simp [Covers, history, publicHistory, secretHistory, StoredAt]
  made e he := .inl (congrArg fst (mem_singleton.mp he))
  range := by simp [StoredAt]
  single := by simp [StoredAt]
  pages := rfl
  private_sorted := Pairwise.nil
  own := by simp [StoredAt]
  usable e he := by
    rw [mem_singleton.mp he]
    exact hinit
  signer e he := by rw [mem_singleton.mp he]
  stored_usable := by simp [StoredAt]
  private_usable := by simp

theorem of_firstStart {epoch : UInt64} (h : firstStart cfg epoch init = .ok s) :
    Live cfg init s := by
  unfold firstStart construct at h
  obtain ⟨crypto, hcrypto, h⟩ := bind_eq_ok.mp h
  obtain ⟨hinit, hcrypto⟩ := unit_bind_eq_ok.mp hcrypto
  obtain rfl := ok.inj hcrypto
  have hnone : (⟨epoch, fun _ => none, fun _ => none, [], .clear, ⟨start init⟩⟩ :
      KeyExchangeManager n).orderedPublicKeys = [] := by
    refine eq_nil_iff_forall_not_mem.mpr ?_
    rintro ⟨sn, r, key⟩ hmem
    obtain ⟨-, ks, hks, -⟩ := (mem_orderedPublicKeys cfg.numReplicas_lt).mp hmem
    cases hks
  unfold notifyRegistry at h
  rw [hnone] at h
  obtain rfl := ok.inj h
  exact of_start hinit epoch

theorem newest_le (h : Live cfg init s) (hsn : 0 ≤ sn ∧ sn < 2 ^ 63)
    (hord : ∀ r sn' key, StoredAt s.publicKeys r sn' key →
      activationCheckpoint sn' ≤ activationCheckpoint sn) :
    s.crypto.cryptoSystems.newest.1 ≤ dueCheckpoint sn := by
  rcases h.made _ newest_mem with hzero | ⟨r, sn', key, hstored, hdue⟩
  · rw [hzero]
    exact Nat.zero_le _
  · rw [← hdue, ← activationCheckpoint_eq (h.range _ _ _ hstored).1 (h.range _ _ _ hstored).2,
      ← activationCheckpoint_eq hsn.1 hsn.2]
    exact hord _ _ _ hstored

theorem fromHexString_of_usable {sys : Cryptosystem n}
    (h : (write i key sys).Usable) (hn : n < 2 ^ 16)
    (hi : slotOf n r = some i) (hr : r.toNat < n) : fromHexString key = .ok () := by
  rw [slotOf_of_lt hn hr, Option.some.injEq] at hi
  subst hi
  have hkey := (usable_iff.mp h).2 ⟨r.toNat, hr⟩
  have hself : (write (.verification ⟨r.toNat + 1, by omega⟩) key sys).verificationKeys
      (Fin.succ ⟨r.toNat, hr⟩) = key := update_self _ _ _
  rwa [hself] at hkey

/-- What an accepted exchange adds to the stores, apart from the crypto systems. -/
structure Adds (s s' : KeyExchangeManager n) (r : UInt16) (sn : ℤ) (key : Key) : Prop where
  isNew : s.publicKeys.keyExistsAt r sn = false
  publicKeys : s'.publicKeys = s.publicKeys.add r sn key
  reservedPages : s'.reservedPages =
    Function.update s.reservedPages r (some (((s.publicKeys r).getD []).insert sn key))

section Step

variable {r : UInt16} {sn : ℤ} {key : Key} (h : Live cfg init s) (hadds : Adds s s' r sn key)

theorem storedAt_of_adds (hadds : Adds s s' r sn key) {sn' : ℤ} {key' : Key} :
    StoredAt s'.publicKeys r' sn' key' ↔
      StoredAt s.publicKeys r' sn' key' ∨ (r' = r ∧ sn' = sn ∧ key' = key) := by
  rw [hadds.publicKeys]
  exact storedAt_add hadds.isNew

include h hadds

theorem single_of_adds (r' : UInt16) (sn' : ℤ) (key₁ key₂ : Key)
    (h₁ : StoredAt s'.publicKeys r' sn' key₁) (h₂ : StoredAt s'.publicKeys r' sn' key₂) :
    key₁ = key₂ := by
  have hno : ∀ key', ¬ StoredAt s.publicKeys r sn key' := by
    intro key' hstored
    have htrue := keyExistsAt_iff.mpr ⟨key', hstored⟩
    rw [hadds.isNew] at htrue
    cases htrue
  rcases (storedAt_of_adds hadds).mp h₁ with h₁ | ⟨rfl, rfl, rfl⟩
  · rcases (storedAt_of_adds hadds).mp h₂ with h₂ | ⟨rfl, rfl, rfl⟩
    · exact h.single _ _ _ _ h₁ h₂
    · exact absurd h₁ (hno _)
  · rcases (storedAt_of_adds hadds).mp h₂ with h₂ | ⟨-, -, rfl⟩
    · exact absurd h₂ (hno _)
    · rfl

/-- The exchange replaces the system that is due; the amendments and the private keys are left. -/
theorem of_adds (hsn : 0 ≤ sn ∧ sn < 2 ^ 63) (hi : slotOf n r = some i) {sys : Cryptosystem n}
    (husable : (write i key sys).Usable) (hsigner : sys.signerID = init.signerID)
    (ht : s'.crypto.cryptoSystems =
      s.crypto.cryptoSystems.replace (dueCheckpoint sn) (write i key sys))
    (hfollows : ∀ j, Timeline.Follows dueCheckpoint read s'.history (fun j => read j init) j
      s'.crypto.cryptoSystems)
    (hcovers : Covers dueCheckpoint s'.history s'.crypto.cryptoSystems)
    (hsorted : OrdSet.Sorted fst s'.privateKeys)
    (hown : ∀ sn', (∃ key, (sn', key) ∈ s'.privateKeys) ↔
      ∃ key, StoredAt s'.publicKeys cfg.repID sn' key)
    (hprivate : ∀ e ∈ s'.privateKeys, newSigner e.2 = .ok ()) : Live cfg init s' := by
  refine ⟨hfollows, hcovers, ?_, fun r' sn' key' h' => ?_, h.single_of_adds hadds, ?_, hsorted,
    hown, ?_, ?_, fun r' sn' key' h' hr' => ?_, hprivate⟩
  · rw [ht]
    refine forall_mem_replace (fun e he => ?_) (.inr ⟨r, sn, key, ?_, rfl⟩)
    · exact (h.made e he).imp_right fun ⟨r', sn', key', h', hdue⟩ =>
        ⟨r', sn', key', (storedAt_of_adds hadds).mpr (.inl h'), hdue⟩
    · exact (storedAt_of_adds hadds).mpr (.inr ⟨rfl, rfl, rfl⟩)
  · rcases (storedAt_of_adds hadds).mp h' with h' | ⟨-, rfl, -⟩
    · exact h.range _ _ _ h'
    · exact hsn
  · rw [hadds.reservedPages, hadds.publicKeys, h.pages]
    rfl
  · rw [ht]
    exact forall_mem_replace h.usable husable
  · rw [ht]
    exact forall_mem_replace h.signer ((signerID_write _ _ _).trans hsigner)
  · rcases (storedAt_of_adds hadds).mp h' with h' | ⟨rfl, -, rfl⟩
    · exact h.stored_usable _ _ _ h' hr'
    · exact fromHexString_of_usable husable cfg.numReplicas_lt hi hr'

end Step

theorem stamp_le (hi : slotOf n r = some i)
    (hord : ∀ sn' key', StoredAt s.publicKeys r sn' key' → sn' < sn) :
    ∀ w ∈ s.history, w.slot = i → w.stamp ≤ sn := by
  rintro w hw rfl
  exact (hord _ _ (storedAt_of_mem_history hi hw)).le

theorem exchangePublic (h : Live cfg init s) {crypto : CryptoManager n}
    (hnew : s.publicKeys.keyExistsAt r sn = false) (hown : r ≠ cfg.repID)
    (hsn : 0 ≤ sn ∧ sn < 2 ^ 63) (hcrypto : s.crypto.onPublicKeyExchange key r sn = .ok crypto)
    (hord : ∀ r' sn' key', StoredAt s.publicKeys r' sn' key' →
      activationCheckpoint sn' ≤ activationCheckpoint sn ∧ (r' = r → sn' < sn)) :
    Live cfg init { s.pushed r sn key with crypto := crypto } := by
  obtain ⟨i, hi, husable, ht⟩ := (onPublicKeyExchange_eq_ok hsn.1 hsn.2).mp hcrypto
  set s' : KeyExchangeManager n := { s.pushed r sn key with crypto := crypto } with hs'
  have hadds : Adds s s' r sn key := ⟨hnew, rfl, rfl⟩
  have hhistory : s'.history = insert ⟨sn, i, key⟩ s.history := by
    show publicHistory n (s.publicKeys.add r sn key) ∪ secretHistory n s.privateKeys = _
    rw [publicHistory_add hnew hi, Set.insert_union]
    rfl
  have hlast := h.newest_le hsn fun r' sn' key' hstored => (hord r' sn' key' hstored).1
  have ht' : s'.crypto.cryptoSystems = _ := ht
  obtain ⟨k, hk⟩ := s.crypto.cryptoSystems.source_mem (dueCheckpoint sn)
  refine h.of_adds hadds hsn hi husable (h.signer _ hk) ht (fun j => ?_) ?_ h.private_sorted
    (fun sn' => ?_) h.private_usable
  · rw [hhistory, ht']
    exact (h.follows j).apply read_write h.covers hlast
      (stamp_le hi fun sn' key' hstored => (hord r sn' key' hstored).2 rfl)
  · rw [hhistory, ht']
    exact h.covers.apply _
  · show (∃ key', (sn', key') ∈ s.privateKeys) ↔ _
    rw [h.own sn']
    refine exists_congr fun key' => ?_
    rw [storedAt_of_adds hadds]
    exact ⟨.inl, fun hor => hor.resolve_right fun heq => hown heq.1.symm⟩

theorem exchangePrivate (h : Live cfg init s)
    (hslot : slotOf n cfg.repID = some (.verification init.signerID))
    (hnew : s.publicKeys.keyExistsAt cfg.repID sn = false) (hsn : 0 ≤ sn ∧ sn < 2 ^ 63)
    (hex : (s.pushed cfg.repID sn key).exchangePrivate key sn = .ok s')
    (hord : ∀ r' sn' key', StoredAt s.publicKeys r' sn' key' →
      activationCheckpoint sn' ≤ activationCheckpoint sn ∧ (r' = cfg.repID → sn' < sn)) :
    Live cfg init s' := by
  obtain ⟨-, hcontains, crypto, hcrypto, rfl⟩ := exchangePrivate_eq_ok.mp hex
  obtain ⟨husable, ht⟩ := (onPrivateKeyExchange_eq_ok hsn.1 hsn.2).mp hcrypto
  set secret := (s.pushed cfg.repID sn key).candidate.priv
  set s' : KeyExchangeManager n := { s.pushed cfg.repID sn key with
    privateKeys := (s.pushed cfg.repID sn key).privateKeys.insert sn secret
    candidate := .clear
    crypto := crypto } with hs'
  set t := s.crypto.cryptoSystems with htdef
  have hcontains : s.privateKeys.contains sn = false := hcontains
  have hadds : Adds s s' cfg.repID sn key := ⟨hnew, rfl, rfl⟩
  obtain ⟨j, hj⟩ := t.source_mem (dueCheckpoint sn)
  have hid : (t.source (dueCheckpoint sn)).signerID = init.signerID := h.signer _ hj
  have ht' : s'.crypto.cryptoSystems = (t.apply dueCheckpoint write
      ⟨sn, .secret, secret⟩).apply dueCheckpoint write
      ⟨sn, .verification init.signerID, key⟩ := by
    rw [← hid]
    exact ht
  have hhistory : s'.history = insert ⟨sn, .verification init.signerID, key⟩
      (insert ⟨sn, .secret, secret⟩ s.history) := by
    show publicHistory n (s.publicKeys.add cfg.repID sn key) ∪
      secretHistory n (s.privateKeys.insert sn secret) = _
    rw [publicHistory_add hnew hslot, secretHistory_insert hcontains, Set.insert_union,
      Set.union_insert]
    rfl
  have hlast := h.newest_le hsn fun r' sn' key' hstored => (hord r' sn' key' hstored).1
  have hsecret : ∀ w ∈ s.history, w.slot = .secret → w.stamp ≤ sn := by
    intro w hw hslot
    obtain ⟨key', hstored⟩ := (h.own w.stamp).mp ⟨_, (mem_history_of_secret hslot).mp hw⟩
    exact ((hord _ _ _ hstored).2 rfl).le
  have hfirst := fun i => (h.follows i).apply (u := ⟨sn, .secret, secret⟩)
    read_write h.covers hlast hsecret
  have husable : (write (.verification init.signerID) key
      (write .secret secret (t.source (dueCheckpoint sn)))).Usable := hid ▸ husable
  refine h.of_adds hadds hsn hslot husable ((signerID_write _ _ _).trans hid)
    (ht'.trans (apply_apply ..)) (fun i => ?_) ?_ (sorted_insert h.private_sorted)
    (fun sn' => ?_) fun e he => ?_
  · rw [hhistory, ht']
    refine (hfirst i).apply read_write (h.covers.apply _)
      (newest_apply_le hlast le_rfl) ?_
    rintro w (rfl | hw) hwslot
    · exact le_rfl
    · exact stamp_le hslot (fun sn' key' hstored => (hord _ sn' key' hstored).2 rfl) w hw hwslot
  · rw [hhistory, ht']
    exact (h.covers.apply _).apply _
  · show (∃ key', (sn', key') ∈ s.privateKeys.insert sn secret) ↔ _
    simp only [mem_insert hcontains, storedAt_of_adds hadds, exists_or, h.own sn',
      Prod.mk.injEq, true_and, exists_and_left, exists_eq, and_true]
  · rcases (mem_insert hcontains).mp he with he | rfl
    · exact h.private_usable e he
    · exact (usable_iff.mp husable).1

variable (hslot : slotOf n cfg.repID = some (.verification init.signerID))

include hslot

theorem step (h : Live cfg init s) {event : KeyEvent}
    (hord : InOrder s event) (hstep : step cfg s event = .ok s') : Live cfg init s' := by
  rcases event with keys | ⟨kemsg, reqSn⟩
  · obtain rfl := ok.inj hstep
    exact { h with }
  · obtain ⟨⟨reply, s₁⟩, hex, hs₁⟩ := bind_eq_ok.mp hstep
    obtain rfl := ok.inj hs₁
    rcases onKeyExchange_cases hex with ⟨-, rfl⟩ | ⟨hacc, hcase⟩
    · exact h
    · obtain ⟨hlt, hbefore⟩ := hord hacc
      have hsn := toSeqNum_range hlt
      rcases hcase with ⟨hown, hprivate⟩ | ⟨hown, crypto, hcrypto, rfl⟩
      · rw [hown] at hprivate hbefore
        exact h.exchangePrivate hslot (hown ▸ hacc.2.2.2) hsn hprivate hbefore
      · exact h.exchangePublic hacc.2.2.2 hown hsn hcrypto hbefore

theorem run {s₀ : KeyExchangeManager n} (h : Live cfg init s₀) {events : List KeyEvent}
    (hord : EveryStep (KeyExchangeManager.step cfg) s₀ InOrder events)
    (hrun : Exec.run (KeyExchangeManager.step cfg) s₀ events = .ok s) : Live cfg init s := by
  refine run_preserves h (fun s event s' h hord hstep => ?_) hord hrun
  exact step hslot h hord hstep

end Live

end KeyExchangeManager

end ConcordBft
