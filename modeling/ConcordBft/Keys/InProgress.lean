import ConcordBft.Keys.Replay

/-!
# Keys of sequence numbers in progress

A key exchange should not touch the crypto systems of sequence numbers that replicas work on. The
work window begins at the last stable sequence number `L`, a checkpoint. `onKeyExchange` tests the
sequence number at which the key was generated, and it tests it against a multiple of the size of
the work window, which can lie one checkpoint below `L`; a number of 64 bits that is negative as a
`SeqNum` passes the test always. The key then counts from the second checkpoint after the one
where it was generated, that is, inside the window when it was generated before `L`.

`floor_replace_iff` of the timeline decides which exchanges are noticed.
-/

namespace ConcordBft

open Verif Verif.Exec Except Nat

variable {n : ℕ}

namespace CryptoManager

theorem checkpoint_of_get {sn : ℤ} (h : 0 ≤ sn) (hlt : sn < 2 ^ 63) :
    (((sn - 1).tdiv checkpointWindowSize) % 2 ^ 64).toNat =
      (sn.toNat - 1) / checkpointWindowSize := by
  unfold checkpointWindowSize
  rcases h.eq_or_lt with rfl | hpos
  · rfl
  · rw [Int.tdiv_eq_ediv_of_nonneg (by omega)]
    omega

theorem get_inj {m m' : CryptoManager n} {sn : ℤ} (h : 0 ≤ sn) (hlt : sn < 2 ^ 63) :
    m'.get sn = m.get sn ↔ m'.cryptoSystems.floor ((sn.toNat - 1) / checkpointWindowSize) =
      m.cryptoSystems.floor ((sn.toNat - 1) / checkpointWindowSize) := by
  unfold get
  rw [checkpoint_of_get h hlt]
  obtain ⟨sys, hsys⟩ := m.cryptoSystems.floor_isSome ((sn.toNat - 1) / checkpointWindowSize)
  obtain ⟨sys', hsys'⟩ := m'.cryptoSystems.floor_isSome ((sn.toNat - 1) / checkpointWindowSize)
  rw [hsys, hsys']
  simp only [ok.injEq, Option.some.injEq]

/-- Up to the end of a checkpoint, `get` shows the versions up to that checkpoint. -/
theorem get_eq_iff_floor {m m' : CryptoManager n} {K : ℕ}
    (hK : (K + 1) * checkpointWindowSize < 2 ^ 63) :
    (∀ sn : ℤ, 0 ≤ sn → sn ≤ ((K + 1) * checkpointWindowSize : ℕ) → m'.get sn = m.get sn) ↔
      ∀ k ≤ K, m'.cryptoSystems.floor k = m.cryptoSystems.floor k := by
  have hpos : 0 < checkpointWindowSize := by decide
  constructor
  · intro h k hk
    -- the last sequence number of the checkpoint
    have hmul : (k + 1) * checkpointWindowSize ≤ (K + 1) * checkpointWindowSize :=
      mul_le_mul_right _ (by omega)
    have hlast : (((k + 1) * checkpointWindowSize : ℕ) : ℤ).toNat - 1 =
        k * checkpointWindowSize + (checkpointWindowSize - 1) := by
      rw [Int.toNat_natCast, add_mul]
      omega
    have hsame := (get_inj (by omega) (by omega)).mp
      (h ((k + 1) * checkpointWindowSize : ℕ) (by omega) (by omega))
    rwa [hlast, mul_comm, mul_add_div hpos, div_eq_of_lt (sub_lt hpos one_pos), add_zero] at hsame
  · intro h sn h0 hle
    refine (get_inj h0 (by omega)).mpr (h _ ?_)
    have hdiv : (sn.toNat - 1) / checkpointWindowSize < K + 1 := by
      have hend : 0 < (K + 1) * checkpointWindowSize := Nat.mul_pos (Nat.succ_pos K) hpos
      rw [Nat.div_lt_iff_lt_mul hpos]
      omega
    omega

end CryptoManager

namespace KeyExchangeManager

variable {cfg : KeyExchangeConfig n} {s s' : KeyExchangeManager n} {kemsg : KeyExchangeMsg}
  {reqSn : UInt64} {reply : KeyExchangeReply}

/-- The system that an exchange makes for the checkpoint from which its key counts. -/
def exchangedSystem (cfg : KeyExchangeConfig n) (s : KeyExchangeManager n)
    (kemsg : KeyExchangeMsg) : Cryptosystem n :=
  let sys := s.crypto.cryptoSystems.source (activationCheckpoint (toSeqNum kemsg.generatedSn))
  if kemsg.repID = cfg.repID then sys.updateKeys s.candidate.priv kemsg.pubkey
  else
    match slotOf n kemsg.repID with
    | some i => Cryptosystem.write i kemsg.pubkey sys
    | none => sys

theorem crypto_of_accepts (hacc : s.Accepts kemsg reqSn)
    (h : s.onKeyExchange cfg kemsg reqSn = .ok (reply, s')) :
    s'.crypto.cryptoSystems = s.crypto.cryptoSystems.replace
      (activationCheckpoint (toSeqNum kemsg.generatedSn)) (exchangedSystem cfg s kemsg) := by
  unfold exchangedSystem
  rcases onKeyExchange_cases h with ⟨hnot, -⟩ | ⟨-, ⟨hown, hs'⟩ | ⟨hother, crypto, hcrypto, rfl⟩⟩
  · exact absurd hacc hnot
  · obtain ⟨-, -, crypto, hcrypto, rfl⟩ := exchangePrivate_eq_ok.mp hs'
    obtain ⟨sys, hsys, -, rfl⟩ := CryptoManager.create_eq_ok.mp hcrypto
    obtain rfl := ok.inj hsys
    rw [if_pos hown]
    rfl
  · obtain ⟨sys, hsys, -, rfl⟩ := CryptoManager.create_eq_ok.mp hcrypto
    unfold Cryptosystem.updateVerificationKey at hsys
    split_ifs at hsys with hslot
    obtain rfl := ok.inj hsys
    have hi : slotOf n kemsg.repID = some (.verification ⟨(kemsg.repID + 1).toNat, hslot⟩) :=
      dif_pos hslot
    rw [if_neg hother, hi]
    rfl

/-- The crypto systems of all sequence numbers up to the end of the work window stay. -/
def KeepsInProgress (s s' : KeyExchangeManager n) (lastStable : ℤ) : Prop :=
  ∀ sn : ℤ, 0 ≤ sn → sn ≤ lastStable + kWorkWindowSize → s'.crypto.get sn = s.crypto.get sn

/-- A key that was generated at `sn` counts after the work window. Numbers that are negative as a
`SeqNum` are divided towards zero; from `-3` checkpoints down the sum wraps around. -/
def ActivatesAfter (lastStable sn : ℤ) : Prop :=
  lastStable ≤ sn ∨ (lastStable = 0 ∧ -checkpointWindowSize < sn) ∨
    sn ≤ -(3 * checkpointWindowSize)

theorem activatesAfter_iff {l : ℕ} (hl : l * checkpointWindowSize < 2 ^ 63) {x : UInt64} :
    ActivatesAfter (l * checkpointWindowSize : ℕ) (toSeqNum x) ↔
      l + 1 < activationCheckpoint (toSeqNum x) := by
  have hlow : -2 ^ 63 ≤ toSeqNum x := BitVec.le_toInt x.toBitVec
  have hhigh : toSeqNum x < 2 ^ 63 := BitVec.toInt_lt
  unfold ActivatesAfter activationCheckpoint
  unfold checkpointWindowSize at hl ⊢
  generalize toSeqNum x = sn at hlow hhigh
  rcases lt_or_ge sn 0 with hneg | hpos
  · have htdiv : sn.tdiv (150 : ℕ) = -((-sn) / 150) := by
      obtain ⟨m, rfl⟩ : ∃ m, sn = -m := ⟨-sn, (Int.neg_neg sn).symm⟩
      rw [Int.neg_tdiv, Int.neg_neg, Int.tdiv_eq_ediv_of_nonneg (by omega)]
      rfl
    rw [htdiv]
    omega
  · rw [Int.tdiv_eq_ediv_of_nonneg hpos]
    omega

/-- An exchange leaves the sequence numbers in progress alone exactly if its key counts after the
work window, or the systems from its checkpoint on have these keys already. -/
theorem keepsInProgress_iff (cfg : KeyExchangeConfig n) (s s' : KeyExchangeManager n)
    (kemsg : KeyExchangeMsg) (reqSn : UInt64) (reply : KeyExchangeReply) (lastStable : ℤ)
    (hstable : (checkpointWindowSize : ℤ) ∣ lastStable) (hnonneg : 0 ≤ lastStable)
    (hrange : lastStable + kWorkWindowSize < 2 ^ 63) (hacc : s.Accepts kemsg reqSn)
    (h : s.onKeyExchange cfg kemsg reqSn = .ok (reply, s')) :
    KeepsInProgress s s' lastStable ↔
      ActivatesAfter lastStable (toSeqNum kemsg.generatedSn) ∨
        s.crypto.cryptoSystems.floor (activationCheckpoint (toSeqNum kemsg.generatedSn)) =
          some (exchangedSystem cfg s kemsg) := by
  obtain ⟨l, rfl⟩ : ∃ l : ℕ, lastStable = (l * checkpointWindowSize : ℕ) := by
    obtain ⟨c, rfl⟩ := hstable
    have hc : 0 ≤ c := by
      unfold checkpointWindowSize at hnonneg
      omega
    obtain ⟨l, rfl⟩ := Int.eq_ofNat_of_zero_le hc
    exact ⟨l, by rw [Nat.mul_comm]; push_cast; rfl⟩
  have hend : ((l * checkpointWindowSize : ℕ) : ℤ) + kWorkWindowSize =
      ((l + 1 + 1) * checkpointWindowSize : ℕ) := by
    unfold kWorkWindowSize checkpointWindowSize
    omega
  have hl : (l + 1 + 1) * checkpointWindowSize < 2 ^ 63 := by
    rw [hend] at hrange
    exact_mod_cast hrange
  unfold KeepsInProgress
  rw [hend, CryptoManager.get_eq_iff_floor hl, crypto_of_accepts hacc h,
    Timeline.floor_replace_iff, activatesAfter_iff ?_]
  unfold checkpointWindowSize at hl ⊢
  omega

def keyOfReplicaOne (sn : UInt64) : KeyExchangeMsg :=
  ⟨KeyExchangeMsg.EXCHANGE, keyOf 1, 1, sn, 0⟩

/-- Sequence number 150 is stable when an exchange is executed at 151. Its key was generated at
100, in the same multiple of the work window, and counts from 301 on. -/
theorem not_keepsInProgress_generatedBefore :
    ∃ s s' reply, firstStart fourReplicas 0 initialSystem = .ok s ∧
      s.Accepts (keyOfReplicaOne 100) 151 ∧
      s.onKeyExchange fourReplicas (keyOfReplicaOne 100) 151 = .ok (reply, s') ∧
      ((checkpointWindowSize : ℤ) ∣ 150 ∧ 150 < toSeqNum 151 ∧
        toSeqNum 151 ≤ 150 + kWorkWindowSize) ∧
      ¬ KeepsInProgress s s' 150 := by
  set_option maxRecDepth 4000 in
  refine ⟨firstManager, _, _, rfl, ⟨by decide, rfl, by decide, rfl⟩, rfl, by decide, ?_⟩
  intro hkeeps
  have hget := ok.inj (hkeeps 301 (by decide) (by decide))
  exact absurd (congrFun (congrArg Cryptosystem.verificationKeys hget) 2) (by decide)

theorem keepsInProgress_generatedInWindow :
    ∃ s s' reply, s.onKeyExchange fourReplicas (keyOfReplicaOne 151) 151 = .ok (reply, s') ∧
      KeepsInProgress s s' 150 := by
  set_option maxRecDepth 4000 in
  refine ⟨firstManager, _, _, rfl, (keepsInProgress_iff fourReplicas firstManager _
    (keyOfReplicaOne 151) 151 _ 150 (by decide) (by decide) (by decide) ?_ rfl).mpr ?_⟩
  · exact ⟨by decide, rfl, by decide, rfl⟩
  · exact Or.inl (Or.inl (by decide))

end KeyExchangeManager

end ConcordBft
