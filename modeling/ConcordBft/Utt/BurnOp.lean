import ConcordBft.Utt.Tx

/-!
# Burning a coin

A burn is a payment that an owner makes to themselves, published with the openings of its output.
`BurnOp::validate` compares the output with the owner and the value it names, and leaves the rest to
`Tx::validate`. What the constructor makes of a signed coin is accepted. But a burn made in another
way may spend several coins, a budget coin, or a coin of somebody else who pays the owner it names
(`accepted_burn`).
-/

namespace ConcordBft.Utt

open Verif Exec

/-! ## The code -/

/-- What the wallet of its owner knows of a coin. -/
structure OwnCoin (F G N P : Type) where
  pid_hash : F
  sn : F
  val : F
  type : F
  exp_date : F
  r : F
  sig : P
  t : F
  null : N
  vcm : G
  z : F
  ccm_txn : G

/-- Commitments and the proofs made for them, with identities `I`. -/
structure Prover (I F G N P : Type) where
  pidHash : I → F
  doesNotExpire : F
  nullifier : F → F → F → N
  commitCoin : F → F → F → F → G
  commitReg : F → F → F → G
  commitVal : F → F → G
  /-- under the key of a base and the last generator -/
  commitTx : G → F → F → G
  rerandomize : G → F → G
  rerandomizeSig : P → F → F → P
  proveSplit : F → F → OwnCoin F G N P → F → G → List UInt8 → P
  proveEqual : G → F → G → G → F → F → P
  proveIdentity : G → G → F → F → P
  proveRange : G → F → F → P
  encrypt : I → List F → List UInt8

structure BurnOp (I F G N P : Type) where
  pid : I
  value : F
  /-- the randomness of `vcm_2` -/
  r_d : F
  /-- the randomness of `icm` -/
  r_t : F
  tx : Tx F G N P

variable {I F G N P : Type} [DecidableEq F]

/-- A normal output with its proofs, for the randomness `d` and `t`. -/
def TxOut.create (p : Params F G N P) (pr : Prover I F G N P) (H : G) (pid : I) (val z d t : F) :
    TxOut F G P :=
  let vcm_1 := pr.commitVal val z
  let vcm_2 := pr.commitTx H val d
  let icm := pr.commitTx H (pr.pidHash pid) t
  { coin_type := p.normalType
    exp_date := pr.doesNotExpire
    vcm_1 := vcm_1
    range_pi := some (pr.proveRange vcm_1 val z)
    vcm_2 := vcm_2
    vcm_eq_pi := pr.proveEqual vcm_1 z H vcm_2 d val
    icm := icm
    icm_pok := some (pr.proveIdentity H icm (pr.pidHash pid) t)
    ctxt := pr.encrypt pid [val, d, t] }

/-- A transaction of one coin and one output for its owner. -/
theorem Tx.validate_single [DecidableEq G] [AddCommMonoid G] {p : Params F G N P} {tx : Tx F G N P}
    {x : TxIn F G N P} {o : TxOut F G P} {pok pi : P} {outsHash : List UInt8}
    (hown : tx.isSplitOwnCoins = true) (hins : tx.ins = [x]) (houts : tx.outs = [o])
    (hreg : p.verifyReg tx.regsig tx.rcm = true) (hhash : TxOut.hashAll p [o] = .ok outsHash)
    (hin : tx.checkIn p outsHash (x, 0) = true) (htype : o.coin_type = p.normalType)
    (hsum : x.vcm = o.vcm_1) (hpok : o.icm_pok = some pok)
    (hidentity : p.verifyIdentity pok (tx.base p 0) o.icm = true)
    (hequal : p.verifyEqual o.vcm_eq_pi o.vcm_1 (tx.base p 0) o.vcm_2 = true)
    (hpi : o.range_pi = some pi) (hrange : p.verifyRange pi o.vcm_1 = true) :
    tx.validate p = .ok true := by
  have hquick : tx.quickPayValidate p = .ok true := by
    simp [quickPayValidate, hown, hins, houts, hreg, hhash, hin, htype, p.types_ne]
  have hout : tx.checkOuts p [(o, 0)] = .ok true := by
    simp [checkOuts, checkOut, checkIdentity, hown, hins, htype, hpok, hidentity, hequal, hpi,
      hrange]
  simp [validate, hquick, hout, hown, normal, hins, houts, hsum]

namespace BurnOp

section Validate

variable [DecidableEq G] [AddCommMonoid G] (p : Params F G N P) (pr : Prover I F G N P)
  (burn : BurnOp I F G N P)

def validate : Exec Bool := do
  if ← burn.tx.validate p then
    match burn.tx.outs with
    | [o] =>
      let H := burn.tx.base p 0
      return decide (pr.commitTx H (pr.pidHash burn.pid) burn.r_t = o.icm) &&
        decide (pr.commitTx H burn.value burn.r_d = o.vcm_2)
    | _ => return false
  else return false

variable {p pr burn} in
theorem validate_eq_ok (h : burn.validate p pr = .ok true) :
    burn.tx.validate p = .ok true ∧ ∃ o, burn.tx.outs = [o] ∧
      pr.commitTx (burn.tx.base p 0) burn.value burn.r_d = o.vcm_2 := by
  obtain ⟨b, htx, h⟩ := bind_eq_ok.mp h
  cases b with
  | false => cases h
  | true =>
    simp only [if_true] at h
    split at h
    · rename_i o houts
      exact ⟨htx, o, houts, of_decide_eq_true (Bool.and_eq_true_iff.mp (Except.ok.inj h)).2⟩
    · cases h

end Validate

variable [AddCommGroup F]

/-- `Tx::Tx` for one coin, no budget, and the sender as the recipient; `a`, `u`, `d` and `t` are
drawn at random, and the coin's signature is checked if the key of the bank is given. -/
def create (p : Params F G N P) (pr : Prover I F G N P) (pidHash : F) (pid : I) (rcm : G)
    (rcm_sig : P) (prf : F) (coin : OwnCoin F G N P) (bpk : Bool) (a u d t : F) :
    Exec (BurnOp I F G N P) :=
  if coin.pid_hash ≠ pidHash then .error .exception
  else if coin.r = 0 then .error .exception
  else do
    ensure (!bpk || p.verifyCoin coin.sig coin.ccm_txn coin.type coin.exp_date)
    ensure (p.verifyReg rcm_sig rcm)
    let rcm := pr.rerandomize rcm a
    let regsig := pr.rerandomizeSig rcm_sig a u
    ensure (p.verifyReg regsig rcm)
    -- the value and its randomness go to the single output as they are
    let outs := [TxOut.create p pr (p.randSigBase [coin.null] 0) pid coin.val coin.z d t]
    let outsHash ← TxOut.hashAll p outs
    return ⟨pid, coin.val, d, t,
      { isSplitOwnCoins := true
        rcm := rcm
        regsig := regsig
        ins := [⟨coin.type, coin.exp_date, coin.null, coin.vcm, coin.ccm_txn, coin.sig,
          pr.proveSplit pidHash prf coin a rcm outsHash⟩]
        outs := outs
        budget_pi := none }⟩

variable [DecidableEq G] [AddCommMonoid G] (p : Params F G N P) (pr : Prover I F G N P)
  (op : Openings I F G N) (burn : BurnOp I F G N P)

def getNullifier : Exec N :=
  match burn.tx.ins.map TxIn.null with
  | [null] => .ok null
  | _ => .error .assertion

/-! ## What a burn does -/

/-- **One normal coin of the owner and of the value is spent**, and its nullifier is known. -/
def DestroysOne : Prop :=
  ∃ x, burn.tx.ins = [x] ∧ x.coin_type = p.normalType ∧ (op.coin x.ccm).owner = burn.pid ∧
    (op.coin x.ccm).value = burn.value ∧
    burn.getNullifier = .ok (op.nullifier (op.coin x.ccm))

/-- A coin of the owner of a registration, with the commitments that belong to it. -/
structure Fits (prf : F) (rcm : G) (coin : OwnCoin F G N P) : Prop where
  null : coin.null = pr.nullifier prf coin.sn coin.t
  vcm : coin.vcm = pr.commitVal coin.val coin.z
  ccm_txn : coin.ccm_txn = pr.commitCoin coin.pid_hash coin.sn coin.val coin.r
  rcm : rcm = pr.commitReg coin.pid_hash prf 0

/-- What is so can be proved, for values that are in range. -/
structure Complete (inRange : F → Prop) : Prop where
  split : ∀ prf rcm coin a msg, Fits pr prf rcm coin →
    p.verifySplit (pr.proveSplit coin.pid_hash prf coin a (pr.rerandomize rcm a) msg) coin.null
      (pr.rerandomize rcm a) coin.ccm_txn coin.vcm msg = true
  equal : ∀ H val z d,
    p.verifyEqual (pr.proveEqual (pr.commitVal val z) z H (pr.commitTx H val d) d val)
      (pr.commitVal val z) H (pr.commitTx H val d) = true
  identity : ∀ H h t,
    p.verifyIdentity (pr.proveIdentity H (pr.commitTx H h t) h t) H (pr.commitTx H h t) = true
  range : ∀ val z, inRange val →
    p.verifyRange (pr.proveRange (pr.commitVal val z) val z) (pr.commitVal val z) = true

variable {p pr op burn}

theorem destroysOne_iff (hs : Sound p op) (hval : ∀ H val d, op.value H (pr.commitTx H val d) = val)
    (h : burn.validate p pr = .ok true) :
    burn.DestroysOne p op ↔ burn.tx.isSplitOwnCoins = true ∧ burn.tx.ins.length = 1 ∧
      op.owner burn.tx.rcm = burn.pid := by
  obtain ⟨htx, o, houts, hvcm⟩ := validate_eq_ok h
  have ha := Tx.accepted hs htx
  constructor
  · rintro ⟨x, hins, htype, howner, -, -⟩
    have hx := ha.input x (by simp [hins])
    refine ⟨?_, by simp [hins], hx.1.symm.trans howner⟩
    -- with a budget the last input is a budget coin
    by_contra hsplit
    obtain ⟨bin, -, hbin, -, hbudget, -⟩ := ha.budget (Bool.eq_false_of_not_eq_true hsplit)
    rw [hins] at hbin
    cases hbin
    exact p.types_ne (htype.symm.trans hbudget)
  · rintro ⟨hsplit, hlen, howner⟩
    obtain ⟨x, hins⟩ := List.length_eq_one_iff.mp hlen
    have hx := ha.input x (by simp [hins])
    have hnormal := ha.normalIn x (by simp [Tx.normal, hsplit, hins])
    have hvalue : (op.coin x.ccm).value = burn.value := by
      simpa [Tx.normal, hsplit, hins, houts, Tx.outValue, ← hvcm, hval] using ha.value
    exact ⟨x, hins, hnormal, hx.1.trans howner, hvalue, by simp [getNullifier, hins, hx.2]⟩

/-- What the constructor makes of a signed coin is accepted. -/
theorem create_accepted {inRange : F → Prop} (hc : Complete p pr inRange) {pidHash prf a u d t : F}
    {pid : I} {rcm : G} {rcm_sig : P} {coin : OwnCoin F G N P} {bpk : Bool}
    (hfits : Fits pr prf rcm coin) (htype : coin.type = p.normalType)
    (hsig : p.verifyCoin coin.sig coin.ccm_txn coin.type coin.exp_date = true)
    (hrange : inRange coin.val)
    (h : create p pr pidHash pid rcm rcm_sig prf coin bpk a u d t = .ok burn) :
    burn.validate p pr = .ok true := by
  unfold create at h
  split at h
  · cases h
  rename_i hpid
  split at h
  · cases h
  obtain ⟨-, h⟩ := ensure_bind_eq_ok.mp h
  obtain ⟨-, h⟩ := ensure_bind_eq_ok.mp h
  obtain ⟨hreg, h⟩ := ensure_bind_eq_ok.mp h
  obtain ⟨outsHash, hhash, h⟩ := bind_eq_ok.mp h
  obtain rfl := Except.ok.inj h
  obtain rfl := not_not.mp hpid
  refine bind_eq_ok.mpr ⟨true, Tx.validate_single rfl rfl rfl hreg hhash ?_ rfl hfits.vcm rfl
    (hc.identity _ _ t) (hc.equal _ coin.val coin.z d) rfl (hc.range coin.val coin.z hrange), ?_⟩
  · simp [Tx.checkIn, htype, htype ▸ hsig, hc.split prf rcm coin a outsHash hfits]
  · simp [TxOut.create, Tx.base]

/-- **An accepted burn destroys one normal coin of its owner exactly if it spends a single coin,
without a budget, of the owner it names; and what the constructor makes of a signed normal coin is
accepted.** -/
theorem accepted_burn (hs : Sound p op) (hval : ∀ H val d, op.value H (pr.commitTx H val d) = val)
    {inRange : F → Prop} (hc : Complete p pr inRange) :
    (∀ burn : BurnOp I F G N P, burn.validate p pr = .ok true →
      (burn.DestroysOne p op ↔ burn.tx.isSplitOwnCoins = true ∧ burn.tx.ins.length = 1 ∧
        op.owner burn.tx.rcm = burn.pid)) ∧
    ∀ (pidHash : F) (pid : I) (rcm : G) (rcm_sig : P) (prf : F) (coin : OwnCoin F G N P)
      (bpk : Bool) (a u d t : F) (burn : BurnOp I F G N P),
      Fits pr prf rcm coin → coin.type = p.normalType →
      p.verifyCoin coin.sig coin.ccm_txn coin.type coin.exp_date = true → inRange coin.val →
      create p pr pidHash pid rcm rcm_sig prf coin bpk a u d t = .ok burn →
      burn.validate p pr = .ok true :=
  ⟨fun _ h => destroysOne_iff hs hval h, fun _ _ _ _ _ _ _ _ _ _ _ _ => create_accepted hc⟩

/-! ### Transparent commitments -/

def clearProver : Prover ℤ ℤ ((ℤ × ℤ) × ℤ) ℤ Unit where
  pidHash := id
  doesNotExpire := 1
  nullifier _ sn _ := sn
  commitCoin pid sn val _ := ((pid, sn), val)
  commitReg pid _ _ := ((pid, 0), 0)
  commitVal val z := ((val, z), 0)
  commitTx _ m r := ((m, r), 0)
  rerandomize rcm _ := rcm
  rerandomizeSig _ _ _ := ()
  proveSplit _ _ _ _ _ _ := ()
  proveEqual _ _ _ _ _ _ := ()
  proveIdentity _ _ _ _ := ()
  proveRange _ _ _ := ()
  encrypt _ _ := []

theorem complete_clear : Complete Tx.clear clearProver (0 ≤ ·) where
  split prf rcm coin a msg h := by
    simp [Tx.clear, clearProver, h.null, h.vcm, h.ccm_txn, h.rcm]
  equal H val z d := by simp [Tx.clear, clearProver]
  identity H h t := by simp [Tx.clear, clearProver]
  range val z h := by simpa [Tx.clear, clearProver] using h

def clearCoin : OwnCoin ℤ ((ℤ × ℤ) × ℤ) ℤ Unit :=
  ⟨1, 7, 5, 0, 1, 1, (), 1, 7, ((5, 0), 0), 0, ((1, 7), 5)⟩

def clearBurn (value : ℤ) (ins : List (TxIn ℤ ((ℤ × ℤ) × ℤ) ℤ Unit)) :
    BurnOp ℤ ℤ ((ℤ × ℤ) × ℤ) ℤ Unit :=
  ⟨1, value, 0, 0, ⟨true, ((1, 0), 0), (), ins, [Tx.clearOut 0 1 value (some ())], none⟩⟩

theorem single_coin_burned :
    (clearBurn 5 [Tx.clearIn 0 7 5]).DestroysOne Tx.clear Tx.clearOpenings ∧
    ∃ burn, create Tx.clear clearProver 1 1 ((1, 0), 0) () 3 clearCoin true 0 0 0 0 = .ok burn ∧
      burn.validate Tx.clear clearProver = .ok true := by
  have h := accepted_burn Tx.sound_clear (fun _ _ _ => rfl) complete_clear
  exact ⟨(h.1 _ rfl).mpr (by decide), _, rfl, h.2 1 1 _ () 3 clearCoin true 0 0 0 0 _
    ⟨rfl, rfl, rfl, rfl⟩ rfl rfl (by decide) rfl⟩

/-- Two coins are burned as one, and `getNullifier` aborts. -/
theorem two_coins_burned : Sound Tx.clear Tx.clearOpenings ∧
    (clearBurn 9 [Tx.clearIn 0 7 5, Tx.clearIn 0 8 4]).validate Tx.clear clearProver = .ok true ∧
    (clearBurn 9 [Tx.clearIn 0 7 5, Tx.clearIn 0 8 4]).getNullifier = .error .assertion ∧
    ¬(clearBurn 9 [Tx.clearIn 0 7 5, Tx.clearIn 0 8 4]).DestroysOne Tx.clear Tx.clearOpenings :=
  ⟨Tx.sound_clear, rfl, rfl, fun ⟨_, hins, _⟩ => by cases hins⟩

end BurnOp

end ConcordBft.Utt
