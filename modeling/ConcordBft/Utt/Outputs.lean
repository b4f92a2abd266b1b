import ConcordBft.Utt.Tx

/-!
# What the owner's proofs say of the outputs

The split proofs of the inputs are made for a hash of the outputs. `TxOut::hashAll` takes the first
output twice and leaves the last one out, so that of two or more outputs the last can be replaced;
without inputs there is no proof at all. A transaction with inputs and a single output is bound to
it (`bindsOutputs_iff`).
-/

namespace ConcordBft.Utt

open Verif Exec List

/-- What is written can be told from what follows it. -/
def PrefixFree {α : Type} (write : α → List UInt8) : Prop :=
  ∀ ⦃a b : α⦄ ⦃l m : List UInt8⦄, write a ++ l = write b ++ m → a = b ∧ l = m

variable {F G N P : Type}

/-- The fields of an output can be read back, the hash has no collisions and is written in
hexadecimal digits, and a split proof is one for a single message. -/
structure Binding (p : Params F G N P) : Prop where
  scalar : PrefixFree p.writeScalar
  comm : PrefixFree p.writeComm
  proof : PrefixFree p.writeProof
  size : PrefixFree p.writeSize
  hash : Function.Injective p.hash256
  digits : ∀ l, 124 ∉ p.hash256 l
  split : ∀ pi null rcm ccm vcm l m, p.verifySplit pi null rcm ccm vcm l = true →
    p.verifySplit pi null rcm ccm vcm m = true → l = m

namespace TxOut

variable {p : Params F G N P}

theorem prefixFree_writeOptional (h : PrefixFree p.writeProof) : PrefixFree (writeOptional p) := by
  rintro (_ | a) (_ | b) l m heq
  · exact ⟨rfl, by simpa [writeOptional] using heq⟩
  · simp [writeOptional] at heq
  · simp [writeOptional] at heq
  · have hproof : p.writeProof a ++ 10 :: l = p.writeProof b ++ 10 :: m := by
      simpa [writeOptional] using heq
    obtain ⟨rfl, hrest⟩ := h hproof
    exact ⟨rfl, (List.cons.inj hrest).2⟩

theorem write_injective (h : Binding p) : Function.Injective (write p) := by
  rintro ⟨type, date, vcm, range, vcm', eq, icm, pok, ctxt⟩
    ⟨type₂, date₂, vcm₂, range₂, vcm₂', eq₂, icm₂, pok₂, ctxt₂⟩ heq
  simp only [write, append_assoc] at heq
  obtain ⟨rfl, h₁⟩ := h.scalar heq
  obtain ⟨rfl, h₂⟩ := h.scalar h₁
  obtain ⟨rfl, h₃⟩ := h.comm h₂
  obtain ⟨rfl, h₄⟩ := prefixFree_writeOptional h.proof h₃
  obtain ⟨rfl, h₅⟩ := h.comm h₄
  obtain ⟨rfl, h₆⟩ := h.proof h₅
  obtain ⟨rfl, h₇⟩ := h.comm h₆
  obtain ⟨rfl, h₈⟩ := prefixFree_writeOptional h.proof h₇
  obtain ⟨-, rfl⟩ := h.size h₈
  rfl

variable {outs : List (TxOut F G P)}

/-- The hash of a single output is not the hash of any other outputs. -/
theorem eq_singleton_of_hashAll (h : Binding p) {o : TxOut F G P}
    (heq : hashAll p outs = hashAll p [o]) : outs = [o] := by
  match outs with
  | [] => cases heq
  | [x] =>
    have hhash : x.hash p = o.hash p := h.hash (Except.ok.inj heq)
    rw [write_injective h (h.hash hhash)]
  | x :: y :: l =>
    have hhash : (x :: y :: l).dropLast.foldl (fun hashes x => hashes ++ 124 :: x.hash p)
        (x.hash p) = o.hash p := h.hash (Except.ok.inj heq)
    have hmem : 124 ∈ o.hash p := by
      rw [← hhash, dropLast_cons_cons, foldl_cons]
      exact foldlRecOn (motive := (124 ∈ ·)) _ _ (by simp) fun _ h _ _ => mem_append_left _ h
    exact absurd hmem (h.digits _)

/-- The hash does not depend on the last of two or more outputs. -/
theorem hashAll_concat (hne : outs ≠ []) (o o' : TxOut F G P) :
    hashAll p (outs ++ [o]) = hashAll p (outs ++ [o']) := by
  cases outs with
  | nil => exact absurd rfl hne
  | cons x l =>
    have hdrop : ∀ o : TxOut F G P, (x :: (l ++ [o])).dropLast = x :: l := by
      intro o
      rw [← cons_append, dropLast_concat]
    simp only [cons_append, hashAll, hdrop]

end TxOut

variable [DecidableEq F] {p : Params F G N P} {tx : Tx F G N P}

namespace Tx

/-- **The outputs cannot be changed**: no other outputs are accepted with the registration and the
inputs, their proofs included. -/
def BindsOutputs (p : Params F G N P) (tx : Tx F G N P) : Prop :=
  ∀ tx' : Tx F G N P, tx'.quickPayValidate p = .ok true → tx'.rcm = tx.rcm → tx'.ins = tx.ins →
    tx'.outs = tx.outs

/-- Other outputs with the same types, for which the proofs hold too, are accepted. -/
theorem quickPayValidate_of_hashAll {outs : List (TxOut F G P)} {l : List UInt8}
    (h : tx.quickPayValidate p = .ok true)
    (htypes : outs.map TxOut.coin_type = tx.outs.map TxOut.coin_type)
    (hhash : TxOut.hashAll p outs = .ok l) (hsame : tx.ins ≠ [] → TxOut.hashAll p tx.outs = .ok l) :
    { tx with outs := outs }.quickPayValidate p = .ok true := by
  have hany : outs.any (fun o => o.coin_type = p.budgetType) =
      tx.outs.any (fun o => o.coin_type = p.budgetType) := by
    simpa [any_map, Function.comp_def] using
      congrArg (List.any · fun t => decide (t = p.budgetType)) htypes
  unfold quickPayValidate at h ⊢
  rw [hany]
  split at h
  · cases h
  rename_i hbudget
  obtain ⟨u, hensure, h⟩ := bind_eq_ok.mp h
  split at h
  · rename_i hreg
    obtain ⟨l', hl', h⟩ := bind_eq_ok.mp h
    rw [if_neg hbudget, hensure, ok_bind, if_pos hreg, hhash, ok_bind]
    by_cases hins : tx.ins = []
    · simp [hins]
    · rw [hsame hins] at hl'
      cases hl'
      exact h
  · cases h

/-- **The proofs bind the outputs exactly when there is an input and a single output.** -/
theorem bindsOutputs_iff (hb : Binding p) (h : tx.quickPayValidate p = .ok true) :
    tx.BindsOutputs p ↔ tx.ins ≠ [] ∧ tx.outs.length = 1 := by
  obtain ⟨l, hhash, hall⟩ := quickPayValidate_eq_ok h
  constructor
  · -- The last output with a longer ciphertext is accepted as well.
    intro hbinds
    by_contra hnot
    rcases eq_nil_or_concat tx.outs with hnil | ⟨outs, o, houts⟩
    · rw [hnil] at hhash
      cases hhash
    rw [concat_eq_append] at houts
    have hne : ∀ l, TxOut.hashAll p (outs ++ [{ o with ctxt := 0 :: o.ctxt }]) = .ok l →
        (tx.ins ≠ [] → TxOut.hashAll p tx.outs = .ok l) → False := by
      intro l hl hsame
      have houts' := hbinds _ (quickPayValidate_of_hashAll h (by simp [houts]) hl hsame) rfl rfl
      rw [houts] at houts'
      have hlast := List.cons.inj (append_cancel_left houts')
      exact cons_ne_self 0 o.ctxt (congrArg TxOut.ctxt hlast.1)
    cases outs with
    | nil =>
      refine hne _ rfl fun hins => absurd ⟨hins, ?_⟩ hnot
      rw [houts]
      rfl
    | cons x outs =>
      refine hne l ?_ fun _ => hhash
      rw [← hhash, houts]
      exact TxOut.hashAll_concat (cons_ne_nil x outs) _ _
  · rintro ⟨hins, hlen⟩ tx' h' hrcm hsame
    obtain ⟨o, houts⟩ := length_eq_one_iff.mp hlen
    obtain ⟨l', hhash', hall'⟩ := quickPayValidate_eq_ok h'
    obtain ⟨x, ins, hcons⟩ := exists_cons_of_ne_nil hins
    have hin := hall (x, 0) (by simp [hcons])
    have hin' := hall' (x, 0) (by simp [hsame, hcons])
    simp only [checkIn, Bool.and_eq_true, hrcm] at hin hin'
    have hl := hb.split _ _ _ _ _ _ _ hin'.2 hin.2
    rw [houts]
    refine TxOut.eq_singleton_of_hashAll hb ?_
    rw [hhash', hl, ← hhash, houts]

/-! ### Hashes that show what is hashed -/

def unary (n : ℕ) : List UInt8 := List.replicate n 1 ++ [0]

theorem prefixFree_unary : PrefixFree unary := by
  intro a
  induction a with
  | zero =>
    rintro (_ | b) l m h
    · exact ⟨rfl, (List.cons.inj h).2⟩
    · simp [unary, replicate_succ] at h
  | succ a ih =>
    rintro (_ | b) l m h
    · simp [unary, replicate_succ] at h
    · obtain ⟨rfl, hrest⟩ := ih (List.cons.inj h).2
      exact ⟨rfl, hrest⟩

def shownHash (l : List UInt8) : List UInt8 := l.flatMap fun b => unary b.toNat

theorem shownHash_injective : Function.Injective shownHash := by
  intro l
  induction l with
  | nil =>
    rintro (_ | ⟨b, m⟩) h
    · rfl
    · simp [shownHash, unary] at h
  | cons a l ih =>
    rintro (_ | ⟨b, m⟩) h
    · simp [shownHash, unary] at h
    · obtain ⟨hab, hrest⟩ := prefixFree_unary h
      rw [UInt8.toNat_inj.mp hab, ih hrest]

/-- A nullifier is the message that the input is spent for. -/
def shown : Params Bool Unit (List UInt8) Unit where
  normalType := false
  budgetType := true
  types_ne := by decide
  writeScalar b := [b.toUInt8]
  writeComm _ := []
  writeProof _ := []
  writeSize := unary
  hash256 := shownHash
  randSigBase _ _ := ()
  verifyReg _ _ := true
  verifyCoin _ _ _ _ := true
  verifySplit _ null _ _ _ l := decide (null = l)
  verifyIdentity _ _ _ := true
  verifyEqual _ _ _ _ := true
  verifyRange _ _ := true
  verifyBudget _ _ _ := true

theorem binding_shown : Binding shown where
  scalar a b l m h := by
    obtain ⟨hhead, htail⟩ := List.cons.inj h
    refine ⟨?_, htail⟩
    revert hhead
    cases a <;> cases b <;> decide
  comm _ _ _ _ h := ⟨rfl, h⟩
  proof _ _ _ _ h := ⟨rfl, h⟩
  size := prefixFree_unary
  hash := shownHash_injective
  digits l h := by simp [shown, shownHash, unary] at h
  split _ _ _ _ _ l m hl hm := (of_decide_eq_true hl).symm.trans (of_decide_eq_true hm)

def shownOut (ctxt : List UInt8) : TxOut Bool Unit Unit :=
  ⟨false, false, (), none, (), (), (), none, ctxt⟩

/-- One coin, spent for the outputs that are signed. -/
def shownTx (signed outs : List (TxOut Bool Unit Unit)) : Tx Bool Unit (List UInt8) Unit where
  isSplitOwnCoins := true
  rcm := ()
  regsig := ()
  ins := [⟨false, false, (TxOut.hashAll shown signed).toOption.getD [], (), (), (), ()⟩]
  outs := outs
  budget_pi := none

theorem single_output_bound : (shownTx [shownOut [7]] [shownOut [7]]).BindsOutputs shown :=
  (bindsOutputs_iff binding_shown (by decide +kernel)).mpr (by decide)

/-- The second of two outputs is replaced. -/
theorem last_output_replaced : Binding shown ∧
    (shownTx [shownOut [1], shownOut [2]] [shownOut [1], shownOut [2]]).quickPayValidate shown =
      .ok true ∧
    ¬ (shownTx [shownOut [1], shownOut [2]] [shownOut [1], shownOut [2]]).BindsOutputs shown :=
  ⟨binding_shown, by decide +kernel, fun h => absurd
    (h (shownTx [shownOut [1], shownOut [2]] [shownOut [1], shownOut [3]]) (by decide +kernel)
      rfl rfl) (by decide)⟩

end Tx

end ConcordBft.Utt
