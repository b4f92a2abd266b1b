import ConcordBft.Utt.Tx

/-!
# Transactions that abort validation

`Tx::validate` with all it asserts, throws at or reads unseen. The second half of a commitment is
optional, and the vectors in proofs have the lengths the sender gave them. Validation returns exactly
when each check finds what it reads if it is reached (`Safe`); nothing refuses other transactions
before. What it accepts is accepted by the validation of `Tx` (`accepts_validate`).
-/

namespace ConcordBft.Utt.Aborting

open Verif Exec List

/-- What is read of commitments and proofs without a check. -/
structure Shape (G P : Type) where
  /-- `Comm::hasG2` -/
  hasG2 : G → Bool
  /-- `alpha.size()` of a split, range or budget proof, `s.size()` of a proof of equality -/
  responses : P → ℕ
  /-- `beta.size()` of a budget proof -/
  beta : P → ℕ

/-! ## Checks and loops -/

/-- A check that may refuse, and what the code behind it takes for granted. -/
def checked (check guard : Bool) (next : Exec Bool) : Exec Bool :=
  if check then ensure guard >>= fun _ => next else .ok false

/-- Elements are looked at in their order, as long as those before pass. -/
def Reached {α : Type} (passes : α → Bool) (safe : α → Prop) (rest : Prop) : List α → Prop
  | [] => rest
  | a :: l => safe a ∧ (passes a → Reached passes safe rest l)

section

variable {check guard b r : Bool} {next : Exec Bool}

theorem returns_checked :
    Returns (checked check guard next) ↔ (check → guard ∧ Returns next) := by
  cases check
  · simp [checked]
  · simp [checked, returns_ensure_bind]

theorem checked_eq_ok (hnext : next = .ok b → r = b) (h : checked check guard next = .ok b) :
    (check && r) = b := by
  cases check with
  | false => exact Except.ok.inj h
  | true => exact hnext (ensure_bind_eq_ok.mp h).2

theorem accepts_checked : checked check guard next = .ok true ↔
    check = true ∧ guard = true ∧ next = .ok true := by
  cases check
  · simp [checked]
  · simp [checked, ensure_bind_eq_ok]

theorem accepts_loop {α : Type} {f : α → Exec Bool} {l : List α} (h : l.allM f = .ok true) :
    ∀ a ∈ l, f a = .ok true := by
  induction l with
  | nil => simp
  | cons a l ih =>
    rw [allM_cons] at h
    obtain ⟨b, hb, h⟩ := bind_eq_ok.mp h
    cases b with
    | false => cases h
    | true => exact forall_mem_cons.mpr ⟨hb, ih h⟩

theorem mapM_eq_filterMap {α β : Type} {f : α → Exec β} {g : α → Option β} {l : List α}
    (h : ∀ a ∈ l, ∃ b, f a = .ok b ∧ g a = some b) : l.mapM f = .ok (l.filterMap g) := by
  induction l with
  | nil => rfl
  | cons a l ih =>
    obtain ⟨⟨b, hf, hg⟩, hl⟩ := forall_mem_cons.mp h
    rw [mapM_cons, hf, ok_bind, ih hl, filterMap_cons, hg]
    rfl

theorem returns_loop {α : Type} {passes : α → Bool} (f : α → Exec Bool) (safe : α → Prop)
    (next : Exec Bool) (hpass : ∀ a b, f a = .ok b → passes a = b)
    (hsafe : ∀ a, Returns (f a) ↔ safe a) (l : List α) :
    Returns (l.allM f >>= fun b => if b then next else .ok false) ↔
      Reached passes safe (Returns next) l := by
  induction l with
  | nil => rfl
  | cons a l ih =>
    rw [allM_cons, bind_assoc, returns_bind]
    constructor
    · rintro ⟨b, hb, h⟩
      refine ⟨(hsafe a).mp ⟨b, hb⟩, fun ha => ?_⟩
      obtain rfl : b = true := (hpass a b hb).symm.trans ha
      exact ih.mp h
    · rintro ⟨ha, h⟩
      obtain ⟨b, hb⟩ := (hsafe a).mpr ha
      refine ⟨b, hb, ?_⟩
      cases b with
      | false => exact returns_ok false
      | true => exact ih.mpr (h (hpass a true hb))

end

/-! ## The code -/

variable {F G N P : Type} [DecidableEq F] (p : Params F G N P) (sh : Shape G P) (tx : Tx F G N P)

/-- Only the last coin of a transaction with a budget may be of another type. -/
def typeFits (type : F) (i n : ℕ) : Bool :=
  decide (type = p.normalType) || !tx.isSplitOwnCoins && decide (i + 1 = n)

/-- `RandSig::verify` needs the second half of the commitment, `SplitProof::verify` asserts the
number of responses. -/
def checkIn (outsHash : List UInt8) (x : TxIn F G N P × ℕ) : Exec Bool :=
  checked (typeFits p tx x.1.coin_type x.2 tx.ins.length) (sh.hasG2 x.1.ccm) <|
  checked (p.verifyCoin x.1.coinsig x.1.ccm x.1.coin_type x.1.exp_date)
    (decide (sh.responses x.1.pi = 8))
    (.ok (p.verifySplit x.1.pi x.1.null tx.rcm x.1.ccm x.1.vcm outsHash))

def own (j : ℕ) : Bool := !tx.isSplitOwnCoins && tx.forMe.contains j

def identified (x : TxOut F G P × ℕ) : Bool :=
  own tx x.2 || x.1.icm_pok.any fun pok => p.verifyIdentity pok (tx.base p x.2) x.1.icm

def equal (x : TxOut F G P × ℕ) : Bool :=
  p.verifyEqual x.1.vcm_eq_pi x.1.vcm_1 (tx.base p x.2) x.1.vcm_2

def inRange (x : TxOut F G P × ℕ) : Bool :=
  x.1.range_pi.any fun pi => p.verifyRange pi x.1.vcm_1

def checkOut (x : TxOut F G P × ℕ) : Exec Bool :=
  -- `deriveRandSigBase` throws without inputs
  checked (typeFits p tx x.1.coin_type x.2 tx.outs.length)
    (!tx.ins.isEmpty && (own tx x.2 == x.1.icm_pok.isNone)) <|
  checked (identified p tx x) (decide (3 ≤ sh.responses x.1.vcm_eq_pi)) <|
  checked (equal p tx x) (x.1.range_pi.any fun pi => decide (sh.responses pi = 5)) <|
  .ok (inRange p x)

variable {p sh tx} in
theorem accepts_checkOut {x : TxOut F G P × ℕ} (h : checkOut p sh tx x = .ok true) :
    tx.checkOut p x = .ok true := by
  simp only [checkOut, accepts_checked, Bool.and_eq_true, Except.ok.injEq, beq_iff_eq] at h
  obtain ⟨htype, ⟨hins, hown⟩, hid, -, hequal, -, hrange⟩ := h
  have hidentity : tx.checkIdentity p x = .ok true := by
    rw [← hid]
    show (if own tx x.2 then _ else _ : Exec Bool) = .ok (own tx x.2 || _)
    rw [hown]
    cases x.1.icm_pok <;> rfl
  obtain ⟨pi, hpi, hrange⟩ := (Option.any_eq_true ..).mp hrange
  have hfits : ¬ (x.1.coin_type ≠ p.normalType ∧
      (tx.isSplitOwnCoins ∨ x.2 + 1 ≠ tx.outs.length)) := by
    rintro ⟨hne, hlast⟩
    rcases hlast with hlast | hlast <;> simp [typeFits, hne, hlast] at htype
  unfold Tx.checkOut
  rw [if_neg hfits, if_neg (by simpa using hins), hidentity, ok_bind, if_pos rfl, hpi]
  exact (if_pos hequal).trans (congrArg _ hrange)

variable [DecidableEq G] [AddCommMonoid G]

def checkBudget : Exec Bool :=
  match tx.ins.getLast?, tx.outs.getLast?, tx.budget_pi with
  | some bin, some bout, some proof =>
    checked (decide (bout.coin_type = p.budgetType ∧ bin.coin_type = p.budgetType))
      (proof.forMeTxos.all fun j => decide (j < tx.outs.length)) <|
    -- `Comm::create` under a key for two messages
    checked (decide (sh.beta proof.pi = proof.forMeTxos.length))
      (decide (sh.responses proof.pi = 3)) <|
    .ok (p.verifyBudget proof.pi tx.rcm
        (proof.forMeTxos.filterMap fun j => tx.outs[j]?.map fun o => (tx.base p j, o.icm)) &&
      decide (bin.vcm = bout.vcm_1 +
        (tx.outs.zipIdx.map fun x => if tx.forMe.contains x.2 then 0 else x.1.vcm_1).sum))
  | _, _, _ => .error .access

def flagFits : Bool := (!tx.isSplitOwnCoins) == tx.outs.any fun o => o.coin_type = p.budgetType

def sumsFit : Bool :=
  decide (((tx.normal tx.ins).map TxIn.vcm).sum = ((tx.normal tx.outs).map TxOut.vcm_1).sum)

def validate : Exec Bool :=
  checked (flagFits p tx) ((tx.isSplitOwnCoins || tx.budget_pi.isSome) && sh.hasG2 tx.rcm) <|
  checked (p.verifyReg tx.regsig tx.rcm) true do
    let outsHash ← TxOut.hashAll p tx.outs
    if ← tx.ins.zipIdx.allM (checkIn p sh tx outsHash) then
      -- `ins.size() - 1` wraps
      checked true (tx.isSplitOwnCoins || !tx.ins.isEmpty) <|
      checked (sumsFit tx) true do
        if ← tx.outs.zipIdx.allM (checkOut p sh tx) then
          if tx.isSplitOwnCoins then return true else checkBudget p sh tx
        else return false
    else return false

/-! ## The transactions it returns for -/

def SafeIn (x : TxIn F G N P × ℕ) : Prop :=
  typeFits p tx x.1.coin_type x.2 tx.ins.length → sh.hasG2 x.1.ccm ∧
    (p.verifyCoin x.1.coinsig x.1.ccm x.1.coin_type x.1.exp_date → sh.responses x.1.pi = 8)

def SafeOut (x : TxOut F G P × ℕ) : Prop :=
  typeFits p tx x.1.coin_type x.2 tx.outs.length →
    (tx.ins ≠ [] ∧ own tx x.2 = x.1.icm_pok.isNone) ∧
    (identified p tx x → 3 ≤ sh.responses x.1.vcm_eq_pi ∧
      (equal p tx x → ∃ pi, x.1.range_pi = some pi ∧ sh.responses pi = 5))

def SafeBudget : Prop :=
  ∃ bin bout proof, tx.ins.getLast? = some bin ∧ tx.outs.getLast? = some bout ∧
    tx.budget_pi = some proof ∧
    (bout.coin_type = p.budgetType ∧ bin.coin_type = p.budgetType →
      (∀ j ∈ proof.forMeTxos, j < tx.outs.length) ∧
      (sh.beta proof.pi = proof.forMeTxos.length → sh.responses proof.pi = 3))

/-- Each check that is reached finds what it reads. -/
def Safe : Prop :=
  flagFits p tx → ((tx.isSplitOwnCoins ∨ tx.budget_pi.isSome) ∧ sh.hasG2 tx.rcm) ∧
    (p.verifyReg tx.regsig tx.rcm → ∃ outsHash, TxOut.hashAll p tx.outs = .ok outsHash ∧
      Reached (tx.checkIn p outsHash) (SafeIn p sh tx)
        ((tx.isSplitOwnCoins ∨ tx.ins ≠ []) ∧ (sumsFit tx →
          Reached (fun x => typeFits p tx x.1.coin_type x.2 tx.outs.length &&
              (identified p tx x && (equal p tx x && inRange p x))) (SafeOut p sh tx)
            (tx.isSplitOwnCoins = false → SafeBudget p sh tx) tx.outs.zipIdx)) tx.ins.zipIdx)

variable {p sh tx}

theorem returns_checkBudget : Returns (checkBudget p sh tx) ↔ SafeBudget p sh tx := by
  unfold checkBudget SafeBudget
  split
  · simp_all [returns_checked]
  · simp_all

theorem returns_validate_iff : Returns (validate p sh tx) ↔ Safe p sh tx := by
  have hin (outsHash : List UInt8) (next : Exec Bool) :=
    returns_loop (checkIn p sh tx outsHash) (SafeIn p sh tx) next
      (fun x b h => show tx.checkIn p outsHash x = b from
        (Bool.and_assoc ..).trans (checked_eq_ok (checked_eq_ok Except.ok.inj) h))
      (fun x => by simp [checkIn, SafeIn, returns_checked]) tx.ins.zipIdx
  have hout (next : Exec Bool) :=
    returns_loop (checkOut p sh tx) (SafeOut p sh tx) next
      (fun x b => checked_eq_ok (checked_eq_ok (checked_eq_ok Except.ok.inj)))
      (fun x => by simp [checkOut, SafeOut, returns_checked, Option.any_eq_true]) tx.outs.zipIdx
  have hbudget : Returns (if tx.isSplitOwnCoins then .ok true else checkBudget p sh tx) ↔
      (tx.isSplitOwnCoins = false → SafeBudget p sh tx) := by
    cases tx.isSplitOwnCoins <;> simp [returns_checkBudget]
  simp only [validate, Safe, returns_checked, returns_bind (x := TxOut.hashAll p tx.outs),
    pure_eq_ok, hin, hout, hbudget]
  simp

theorem accepts_checkBudget (h : checkBudget p sh tx = .ok true) : tx.checkBudget p = .ok true := by
  unfold checkBudget at h
  split at h
  · rename_i bin bout proof hbin hbout hproof
    simp only [accepts_checked, decide_eq_true_eq, all_eq_true, Except.ok.injEq] at h
    obtain ⟨⟨hout, hin⟩, hforMe, -, -, h⟩ := h
    simp only [Tx.checkBudget, hbin, hbout, hproof]
    rw [if_neg (by simp [hin, hout]), mapM_eq_filterMap fun j hj => ?_, ok_bind]
    · exact congrArg _ h
    · have hget := getElem?_eq_getElem (hforMe j hj)
      exact ⟨_, by rw [hget], by rw [hget]; rfl⟩
  · cases h

/-- **What is accepted** is accepted by the validation that does not look at shapes. -/
theorem accepts_validate (h : validate p sh tx = .ok true) : tx.validate p = .ok true := by
  simp only [validate, accepts_checked, bind_eq_ok, Bool.and_eq_true] at h
  obtain ⟨hflag, ⟨hguard, -⟩, hreg, -, outsHash, hhash, b, hins, h⟩ := h
  cases b with
  | false => cases h
  | true => ?_
  have hquick : tx.quickPayValidate p = .ok true := by
    have hall : tx.ins.zipIdx.all (tx.checkIn p outsHash) = true :=
      all_eq_true.mpr fun x hx => (Bool.and_assoc ..).trans
        (checked_eq_ok (checked_eq_ok Except.ok.inj) (accepts_loop hins x hx))
    simp only [Tx.quickPayValidate, hguard, hreg, hhash, hall, ok_bind, if_true]
    rw [if_neg (not_not.mpr (beq_iff_eq.mp hflag))]
    rfl
  simp only [accepts_checked, bind_eq_ok, if_true] at h
  obtain ⟨-, hnonempty, hsum, -, b, houts, h⟩ := h
  cases b with
  | false => cases h
  | true => ?_
  replace h : (if tx.isSplitOwnCoins then _ else _ : Exec Bool) = _ := h
  have houts : tx.checkOuts p tx.outs.zipIdx = .ok true :=
    Tx.checkOuts_eq_ok.mpr fun x hx => accepts_checkOut (accepts_loop houts x hx)
  unfold Tx.validate
  rw [hquick, ok_bind, if_pos rfl, if_neg (by simpa [or_iff_not_imp_left] using hnonempty),
    if_neg (not_not.mpr (of_decide_eq_true hsum)), houts, ok_bind, if_pos rfl]
  split_ifs at h ⊢ with hsplit
  · rfl
  · exact accepts_checkBudget h

/-- An output without the proof of its owner, in a transaction said to split own coins. -/
theorem not_returns_unidentified : ¬Returns
    (validate Tx.clear ⟨fun _ => true, fun _ => 8, fun _ => 0⟩
      { Tx.doubleSpend with outs := [Tx.clearOut 0 2 10 none] }) :=
  not_returns_of_isOk rfl

end ConcordBft.Utt.Aborting
