import ConcordBft.Lib.Exec
import Mathlib.Algebra.BigOperators.Group.Finset.Basic

/-!
# Transactions of UTT

A transaction spends coins of one sender and creates coins for others. `Tx::validate` checks
signatures, proofs and sums of commitments. With binding commitments and sound proofs (`Sound`) an
accepted transaction creates no value and pays from the budget exactly when it spends no coin twice
and tells the truth about itself: a transaction said to split the sender's own coins has no
other recipient, and one with a budget leaves none of the sender's outputs, the budget coin
included, out of `forMeTxos`. None of this is checked.
-/

namespace ConcordBft.Utt

open Verif Exec List

/-! ## The code -/

/-- An input, over the scalars `F`, the group `G`, nullifiers `N`, signatures and proofs `P`. -/
structure TxIn (F G N P : Type) where
  coin_type : F
  exp_date : F
  null : N
  vcm : G
  ccm : G
  coinsig : P
  pi : P
  deriving DecidableEq

structure TxOut (F G P : Type) where
  coin_type : F
  exp_date : F
  vcm_1 : G
  range_pi : Option P
  vcm_2 : G
  vcm_eq_pi : P
  icm : G
  icm_pok : Option P
  ctxt : List UInt8
  deriving DecidableEq

structure BudgetProof (P : Type) where
  /-- the outputs said to be the sender's, a set, in its order -/
  forMeTxos : List ℕ
  pi : P
  deriving DecidableEq

structure Tx (F G N P : Type) where
  isSplitOwnCoins : Bool
  rcm : G
  regsig : P
  ins : List (TxIn F G N P)
  outs : List (TxOut F G P)
  budget_pi : Option (BudgetProof P)

/-- The parameters, the public keys, and the checks of signatures and proofs under them. -/
structure Params (F G N P : Type) where
  normalType : F
  budgetType : F
  types_ne : normalType ≠ budgetType
  /-- `operator<<`; scalars and sizes with the end of the line -/
  writeScalar : F → List UInt8
  writeComm : G → List UInt8
  writeProof : P → List UInt8
  writeSize : ℕ → List UInt8
  /-- `picosha2::hash256_hex_string` -/
  hash256 : List UInt8 → List UInt8
  /-- `deriveRandSigBase`, from the nullifiers and the index of the output -/
  randSigBase : List N → ℕ → G
  verifyReg : P → G → Bool
  verifyCoin : P → G → F → F → Bool
  verifySplit : P → N → G → G → G → List UInt8 → Bool
  verifyIdentity : P → G → G → Bool
  verifyEqual : P → G → G → G → Bool
  verifyRange : P → G → Bool
  verifyBudget : P → G → List (G × G) → Bool

variable {F G N P : Type}

namespace TxOut

variable (p : Params F G N P)

def writeOptional : Option P → List UInt8
  | none => [48, 10]
  | some pi => [49, 10] ++ p.writeProof pi ++ [10]

def write (o : TxOut F G P) : List UInt8 :=
  p.writeScalar o.coin_type ++ p.writeScalar o.exp_date ++ p.writeComm o.vcm_1 ++
    writeOptional p o.range_pi ++ p.writeComm o.vcm_2 ++ p.writeProof o.vcm_eq_pi ++
    p.writeComm o.icm ++ writeOptional p o.icm_pok ++ p.writeSize o.ctxt.length ++ o.ctxt

def hash (o : TxOut F G P) : List UInt8 := p.hash256 (o.write p)

def hashAll : List (TxOut F G P) → Exec (List UInt8)
  | [] => .error .exception
  -- The loop begins at the first output again and stops before the last one.
  | o :: outs => .ok (p.hash256
      ((o :: outs).dropLast.foldl (fun hashes x => hashes ++ 124 :: x.hash p) (o.hash p)))

end TxOut

namespace Tx

section Normal

variable {tx : Tx F G N P} {α : Type} {l : List α}

/-- All but the budget coin, which is the last one. -/
def normal (tx : Tx F G N P) (l : List α) : List α := if tx.isSplitOwnCoins then l else l.dropLast

theorem mem_of_normal {x : α} (h : x ∈ tx.normal l) : x ∈ l := by
  unfold normal at h
  split_ifs at h
  · exact h
  · exact mem_of_mem_dropLast h

theorem mem_normal {x : α × ℕ} (h : x ∈ tx.normal l.zipIdx) :
    x ∈ l.zipIdx ∧ (tx.isSplitOwnCoins = false → x.2 + 1 < l.length) := by
  refine ⟨mem_of_normal h, fun hsplit => ?_⟩
  rw [normal, hsplit, dropLast_eq_take, length_zipIdx] at h
  obtain ⟨i, hi, rfl⟩ := mem_take_iff_getElem.mp h
  simp at hi ⊢
  omega

theorem map_fst_normal (l : List α) : (tx.normal l.zipIdx).map Prod.fst = tx.normal l := by
  unfold normal
  split_ifs
  · exact zipIdx_map_fst 0 l
  · rw [map_dropLast, zipIdx_map_fst]

end Normal

section Code

variable [DecidableEq F] (p : Params F G N P) (tx : Tx F G N P)

/-- The base of the commitments of an output. -/
def base (j : ℕ) : G := p.randSigBase (tx.ins.map TxIn.null) j

def forMe : List ℕ := (tx.budget_pi.map BudgetProof.forMeTxos).getD []

def checkIn (outsHash : List UInt8) (x : TxIn F G N P × ℕ) : Bool :=
  (decide (x.1.coin_type = p.normalType) ||
      !tx.isSplitOwnCoins && decide (x.2 + 1 = tx.ins.length)) &&
    p.verifyCoin x.1.coinsig x.1.ccm x.1.coin_type x.1.exp_date &&
    p.verifySplit x.1.pi x.1.null tx.rcm x.1.ccm x.1.vcm outsHash

def quickPayValidate : Exec Bool :=
  -- compared with the outputs twice, with the inputs never
  if (!tx.isSplitOwnCoins) ≠ tx.outs.any (fun o => o.coin_type = p.budgetType) then .ok false
  else do
    ensure (tx.isSplitOwnCoins || tx.budget_pi.isSome)
    if p.verifyReg tx.regsig tx.rcm then
      let outsHash ← TxOut.hashAll p tx.outs
      return tx.ins.zipIdx.all (tx.checkIn p outsHash)
    else return false

variable {p tx} in
theorem quickPayValidate_eq_ok (h : tx.quickPayValidate p = .ok true) :
    ∃ outsHash, TxOut.hashAll p tx.outs = .ok outsHash ∧
      ∀ x ∈ tx.ins.zipIdx, tx.checkIn p outsHash x = true := by
  unfold quickPayValidate at h
  split at h
  · cases h
  obtain ⟨_, -, h⟩ := bind_eq_ok.mp h
  split at h
  · obtain ⟨outsHash, hhash, h⟩ := bind_eq_ok.mp h
    exact ⟨outsHash, hhash, all_eq_true.mp (Except.ok.inj h)⟩
  · cases h

/-- The identity of the recipient: the budget proof covers the outputs it names. -/
def checkIdentity (x : TxOut F G P × ℕ) : Exec Bool :=
  if !tx.isSplitOwnCoins && tx.forMe.contains x.2 then do
    ensure x.1.icm_pok.isNone
    return true
  else
    match x.1.icm_pok with
    | none => .error .assertion
    | some pok => .ok (p.verifyIdentity pok (tx.base p x.2) x.1.icm)

def checkOut (x : TxOut F G P × ℕ) : Exec Bool :=
  if x.1.coin_type ≠ p.normalType ∧ (tx.isSplitOwnCoins ∨ x.2 + 1 ≠ tx.outs.length) then .ok false
  else if tx.ins.isEmpty then .error .exception
  else do
    if ← tx.checkIdentity p x then
      if p.verifyEqual x.1.vcm_eq_pi x.1.vcm_1 (tx.base p x.2) x.1.vcm_2 then
        match x.1.range_pi with
        | none => .error .assertion
        | some pi => return p.verifyRange pi x.1.vcm_1
      else return false
    else return false

def checkOuts : List (TxOut F G P × ℕ) → Exec Bool
  | [] => .ok true
  | x :: l => do if ← tx.checkOut p x then checkOuts l else return false

variable {p tx} in
theorem checkOuts_eq_ok {l : List (TxOut F G P × ℕ)} :
    tx.checkOuts p l = .ok true ↔ ∀ x ∈ l, tx.checkOut p x = .ok true := by
  induction l with
  | nil => simp [checkOuts]
  | cons x l ih =>
    rw [forall_mem_cons, ← ih, checkOuts]
    rcases tx.checkOut p x with e | b
    · simp
    · cases b <;> simp

variable [DecidableEq G] [AddCommMonoid G]

def checkBudget : Exec Bool :=
  match tx.ins.getLast?, tx.outs.getLast?, tx.budget_pi with
  | some bin, some bout, some proof =>
    if bout.coin_type ≠ p.budgetType ∨ bin.coin_type ≠ p.budgetType then .ok false
    else do
      let icms ← proof.forMeTxos.mapM fun j =>
        match tx.outs[j]? with
        | none => .error .assertion
        | some o => .ok (tx.base p j, o.icm)
      return p.verifyBudget proof.pi tx.rcm icms && decide (bin.vcm = bout.vcm_1 +
        (tx.outs.zipIdx.map fun x => if tx.forMe.contains x.2 then 0 else x.1.vcm_1).sum)
  | _, _, _ => .error .access

def validate : Exec Bool := do
  if ← tx.quickPayValidate p then
    -- `ins.size() - 1` wraps, and the sum is read from behind the inputs
    if !tx.isSplitOwnCoins && tx.ins.isEmpty then .error .access
    else if ((tx.normal tx.ins).map TxIn.vcm).sum ≠ ((tx.normal tx.outs).map TxOut.vcm_1).sum then
      return false
    else if ← tx.checkOuts p tx.outs.zipIdx then
      if tx.isSplitOwnCoins then return true else tx.checkBudget p
    else return false
  else return false

end Code

end Tx

/-! ## What a transaction does -/

structure Coin (I F : Type) where
  owner : I
  sn : F
  value : F
  deriving DecidableEq

/-- What commitments hold; binding, so that it is a function of the commitment. -/
structure Openings (I F G N : Type) [AddCommGroup F] [AddCommMonoid G] where
  /-- of a value with its randomness -/
  commit : F × F →+ G
  owner : G → I
  coin : G → Coin I F
  identity : G → G → I
  value : G → G → F
  nullifier : Coin I F → N

variable {I : Type} [AddCommGroup F] [AddCommMonoid G]

/-- Commitments bind, a signed coin exists, and what is proved is so. -/
structure Sound (p : Params F G N P) (op : Openings I F G N) : Prop where
  binding : Function.Injective op.commit
  split : ∀ x : TxIn F G N P, ∀ rcm msg,
    p.verifyCoin x.coinsig x.ccm x.coin_type x.exp_date = true →
    p.verifySplit x.pi x.null rcm x.ccm x.vcm msg = true →
    (op.coin x.ccm).owner = op.owner rcm ∧ x.null = op.nullifier (op.coin x.ccm) ∧
      ∃ z, x.vcm = op.commit ((op.coin x.ccm).value, z)
  equal : ∀ pi vcm_1 H vcm_2, p.verifyEqual pi vcm_1 H vcm_2 = true →
    ∃ z, vcm_1 = op.commit (op.value H vcm_2, z)
  budget : ∀ pi rcm icms, p.verifyBudget pi rcm icms = true →
    ∀ c ∈ icms, op.identity c.1 c.2 = op.owner rcm

namespace Tx

variable (p : Params F G N P) (op : Openings I F G N) (tx : Tx F G N P)

def recipient (x : TxOut F G P × ℕ) : I := op.identity (tx.base p x.2) x.1.icm

def outValue (x : TxOut F G P × ℕ) : F := op.value (tx.base p x.2) x.1.vcm_2

/-- The total value of the outputs that meet a condition. -/
def total (c : TxOut F G P × ℕ → Bool) : F :=
  (tx.outs.zipIdx.map fun x => if c x then tx.outValue p op x else 0).sum

section

variable {p op tx} {α : Type}

theorem sum_commit {f : α → G} {v : α → F} {l : List α}
    (h : ∀ a ∈ l, ∃ z, f a = op.commit (v a, z)) :
    ∃ z, (l.map f).sum = op.commit ((l.map v).sum, z) := by
  induction l with
  | nil => exact ⟨0, (map_zero op.commit).symm⟩
  | cons a l ih =>
    obtain ⟨z, hz⟩ := h a mem_cons_self
    obtain ⟨z', hz'⟩ := ih fun x hx => h x (mem_cons_of_mem a hx)
    exact ⟨z + z', by rw [map_cons, sum_cons, hz, hz', ← map_add]; simp⟩

theorem exists_of_mapM {β : Type} {f : α → Exec β} {l : List α} {r : List β}
    (h : l.mapM f = .ok r) : ∀ a ∈ l, ∃ b ∈ r, f a = .ok b := by
  induction l generalizing r with
  | nil => simp
  | cons a l ih =>
    rw [mapM_cons] at h
    obtain ⟨b, hb, h⟩ := bind_eq_ok.mp h
    obtain ⟨r', hr', h⟩ := bind_eq_ok.mp h
    cases h
    have hrest : ∀ a ∈ l, ∃ c ∈ b :: r', f a = .ok c := fun a ha =>
      (ih hr' a ha).imp fun c hc => ⟨mem_cons_of_mem b hc.1, hc.2⟩
    simpa [hb] using hrest

end

variable [DecidableEq F]

section Paid

variable [DecidableEq I]

end Paid

/-! ### What acceptance gives -/

variable {p op tx}

/-- What `checkBudget` says of the budget coins and of `forMeTxos`. -/
def Budgeted (p : Params F G N P) (op : Openings I F G N) (tx : Tx F G N P) : Prop :=
  ∃ bin bout, tx.ins.getLast? = some bin ∧ tx.outs.zipIdx.getLast? = some bout ∧
    bin.coin_type = p.budgetType ∧ bout.1.coin_type = p.budgetType ∧
    (∀ x ∈ tx.outs.zipIdx, x.2 ∈ tx.forMe → tx.recipient p op x = op.owner tx.rcm) ∧
    (op.coin bin.ccm).value = tx.outValue p op bout +
      tx.total p op (fun x => !tx.forMe.contains x.2)

/-- What acceptance says of what is committed to. -/
structure Accepted (p : Params F G N P) (op : Openings I F G N) (tx : Tx F G N P) : Prop where
  input : ∀ x ∈ tx.ins, (op.coin x.ccm).owner = op.owner tx.rcm ∧
    x.null = op.nullifier (op.coin x.ccm)
  normalIn : ∀ x ∈ tx.normal tx.ins, x.coin_type = p.normalType
  normalOut : ∀ x ∈ tx.normal tx.outs.zipIdx, x.1.coin_type = p.normalType
  value : ((tx.normal tx.ins).map fun x => (op.coin x.ccm).value).sum =
    ((tx.normal tx.outs.zipIdx).map (tx.outValue p op)).sum
  budget : tx.isSplitOwnCoins = false → tx.Budgeted p op

theorem checkOut_eq_ok (hs : Sound p op) {x : TxOut F G P × ℕ} (h : tx.checkOut p x = .ok true) :
    (x.1.coin_type = p.normalType ∨ tx.isSplitOwnCoins = false ∧ x.2 + 1 = tx.outs.length) ∧
      ∃ z, x.1.vcm_1 = op.commit (tx.outValue p op x, z) := by
  unfold checkOut at h
  split at h
  · cases h
  rename_i htype
  split at h
  · cases h
  obtain ⟨b, -, h⟩ := bind_eq_ok.mp h
  by_cases hequal : p.verifyEqual x.1.vcm_eq_pi x.1.vcm_1 (tx.base p x.2) x.1.vcm_2 = true
  · refine ⟨?_, hs.equal _ _ _ _ hequal⟩
    simpa [or_iff_not_imp_left] using htype
  · cases b <;> simp [hequal] at h

theorem checkIn_spec (hs : Sound p op) {outsHash : List UInt8} {x : TxIn F G N P × ℕ}
    (h : tx.checkIn p outsHash x = true) :
    (x.1.coin_type = p.normalType ∨ tx.isSplitOwnCoins = false ∧ x.2 + 1 = tx.ins.length) ∧
      (op.coin x.1.ccm).owner = op.owner tx.rcm ∧ x.1.null = op.nullifier (op.coin x.1.ccm) ∧
      ∃ z, x.1.vcm = op.commit ((op.coin x.1.ccm).value, z) := by
  simp only [checkIn, Bool.and_eq_true, Bool.or_eq_true, decide_eq_true_eq, Bool.not_eq_true'] at h
  exact ⟨h.1.1, hs.split x.1 _ _ h.1.2 h.2⟩

section Validate

variable [DecidableEq G]

theorem checkBudget_eq_ok (hs : Sound p op)
    (houts : ∀ x ∈ tx.outs.zipIdx, ∃ z, x.1.vcm_1 = op.commit (tx.outValue p op x, z))
    (hins : ∀ x ∈ tx.ins, ∃ z, x.vcm = op.commit ((op.coin x.ccm).value, z))
    (h : tx.checkBudget p = .ok true) : tx.Budgeted p op := by
  unfold checkBudget at h
  split at h
  · rename_i bin bout proof hbin hbout hproof
    split at h
    · cases h
    rename_i htype
    obtain ⟨icms, hicms, h⟩ := bind_eq_ok.mp h
    obtain ⟨hbudget, hsum⟩ := Bool.and_eq_true_iff.mp (Except.ok.inj h)
    have hforMe : tx.forMe = proof.forMeTxos := by simp [forMe, hproof]
    have hlast : tx.outs.zipIdx.getLast? = some (bout, tx.outs.length - 1) := by
      simp [hbout]
    obtain ⟨hbout', hbin'⟩ := not_or.mp htype
    refine ⟨bin, _, hbin, hlast, not_not.mp hbin', not_not.mp hbout', fun x hx hmem => ?_, ?_⟩
    · obtain ⟨c, hc, hout⟩ := exists_of_mapM hicms x.2 (hforMe ▸ hmem)
      rw [mem_zipIdx_iff_getElem?.mp hx] at hout
      cases hout
      exact hs.budget _ _ _ hbudget _ hc
    · obtain ⟨z, hz⟩ := hins bin (mem_of_getLast? hbin)
      obtain ⟨z₁, hz₁⟩ := houts _ (mem_of_getLast? hlast)
      have hcommit : ∀ x ∈ tx.outs.zipIdx, ∃ z,
          (if tx.forMe.contains x.2 then 0 else x.1.vcm_1) = op.commit
            (if (!tx.forMe.contains x.2) = true then tx.outValue p op x else 0, z) := by
        intro x hx
        cases tx.forMe.contains x.2 with
        | true => exact ⟨0, (map_zero op.commit).symm⟩
        | false => simpa using houts x hx
      obtain ⟨z₂, hz₂⟩ := sum_commit hcommit
      have heq := of_decide_eq_true hsum
      rw [hz, hz₁, hz₂, ← map_add] at heq
      exact congrArg Prod.fst (hs.binding heq)
  · cases h

theorem accepted (hs : Sound p op) (h : tx.validate p = .ok true) : Accepted p op tx := by
  obtain ⟨b, hquick, h⟩ := bind_eq_ok.mp h
  cases b with
  | false => cases h
  | true =>
  simp only [if_true] at h
  split at h
  · cases h
  split at h
  · cases h
  rename_i hsum
  obtain ⟨b, houts, h⟩ := bind_eq_ok.mp h
  cases b with
  | false => cases h
  | true =>
  obtain ⟨outsHash, -, hall⟩ := quickPayValidate_eq_ok hquick
  have hin := fun x hx => checkIn_spec hs (hall x hx)
  have hout := fun x hx => checkOut_eq_ok hs (checkOuts_eq_ok.mp houts x hx)
  have hinput : ∀ x ∈ tx.ins, (op.coin x.ccm).owner = op.owner tx.rcm ∧
      x.null = op.nullifier (op.coin x.ccm) ∧
      ∃ z, x.vcm = op.commit ((op.coin x.ccm).value, z) := by
    intro x hx
    obtain ⟨i, hi, rfl⟩ := getElem_of_mem hx
    exact (hin (tx.ins[i], i) (by simp [mem_zipIdx_iff_getElem?])).2
  refine ⟨fun x hx => ⟨(hinput x hx).1, (hinput x hx).2.1⟩, fun x hx => ?_, fun x hx => ?_, ?_,
    fun hsplit => ?_⟩
  · rw [← map_fst_normal] at hx
    obtain ⟨y, hy, rfl⟩ := mem_map.mp hx
    obtain ⟨hmem, hlt⟩ := mem_normal hy
    exact (hin y hmem).1.resolve_right fun hlast => (hlt hlast.1).ne hlast.2
  · obtain ⟨hmem, hlt⟩ := mem_normal hx
    exact (hout x hmem).1.resolve_right fun hlast => (hlt hlast.1).ne hlast.2
  · obtain ⟨z, hz⟩ := sum_commit fun x (hx : x ∈ tx.normal tx.ins) =>
      (hinput x (mem_of_normal hx)).2.2
    obtain ⟨z', hz'⟩ := sum_commit fun x (hx : x ∈ tx.normal tx.outs.zipIdx) =>
      (hout x (mem_normal hx).1).2
    have hfst : (tx.normal tx.outs.zipIdx).map (fun x => x.1.vcm_1) =
        (tx.normal tx.outs).map TxOut.vcm_1 := by
      rw [← map_fst_normal tx.outs, map_map]
      rfl
    rw [ne_eq, not_not, ← hfst, hz, hz'] at hsum
    exact congrArg Prod.fst (hs.binding hsum)
  · rw [hsplit] at h
    exact checkBudget_eq_ok hs (fun x hx => (hout x hx).2) (fun x hx => (hinput x hx).2.2) h

end Validate

variable [DecidableEq I]

namespace Accepted

end Accepted

/-- Commitments that show what they hold: a value with its randomness, or the owner, the serial
number and the value of a coin. -/
def clearOpenings : Openings ℤ ℤ ((ℤ × ℤ) × ℤ) ℤ where
  commit := AddMonoidHom.inl (ℤ × ℤ) ℤ
  owner g := g.1.1
  coin g := ⟨g.1.1, g.1.2, g.2⟩
  identity _ g := g.1.1
  value _ g := g.1.1
  nullifier c := c.sn

def clear : Params ℤ ((ℤ × ℤ) × ℤ) ℤ Unit where
  normalType := 0
  budgetType := 1
  types_ne := by decide
  writeScalar _ := []
  writeComm _ := []
  writeProof _ := []
  writeSize _ := []
  hash256 := id
  randSigBase _ _ := 0
  verifyReg _ _ := true
  verifyCoin _ _ _ _ := true
  verifySplit _ null rcm ccm vcm _ :=
    decide (ccm.1.1 = rcm.1.1 ∧ null = ccm.1.2 ∧ vcm = ((ccm.2, vcm.1.2), 0))
  verifyIdentity _ _ icm := decide (icm.2 = 0)
  verifyEqual _ vcm_1 _ vcm_2 := decide (vcm_1 = ((vcm_2.1.1, vcm_1.1.2), 0))
  verifyRange _ vcm := decide (0 ≤ vcm.1.1)
  verifyBudget _ rcm icms := icms.all fun c => decide (c.2.1.1 = rcm.1.1)

theorem sound_clear : Sound clear clearOpenings where
  binding _ _ h := congrArg Prod.fst h
  split x rcm msg _ h := by
    obtain ⟨howner, hnull, hvcm⟩ := of_decide_eq_true h
    exact ⟨howner, hnull, x.vcm.1.2, hvcm⟩
  equal pi vcm_1 H vcm_2 h := ⟨vcm_1.1.2, of_decide_eq_true h⟩
  budget pi rcm icms h c hc := of_decide_eq_true (all_eq_true.mp h c hc)

def clearIn (type sn value : ℤ) : TxIn ℤ ((ℤ × ℤ) × ℤ) ℤ Unit :=
  ⟨type, 0, sn, ((value, 0), 0), ((1, sn), value), (), ()⟩

def clearOut (type owner value : ℤ) (pok : Option Unit) : TxOut ℤ ((ℤ × ℤ) × ℤ) Unit :=
  ⟨type, 0, ((value, 0), 0), some (), ((value, 0), 0), (), ((owner, 0), 0), pok, []⟩

def doubleSpend : Tx ℤ ((ℤ × ℤ) × ℤ) ℤ Unit where
  isSplitOwnCoins := true
  rcm := ((1, 0), 0)
  regsig := ()
  ins := [clearIn 0 7 5, clearIn 0 7 5]
  outs := [clearOut 0 2 10 (some ())]
  budget_pi := none

end Tx

end ConcordBft.Utt
