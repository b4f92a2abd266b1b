import ConcordBft.Certificates.MsgsCertificate
import Mathlib.Data.Finset.Card

/-!
# A certificate counts distinct replicas

What `isComplete` and `isFull` promise about the messages added.

1. A class never counts more messages than are stored for it (`Counted`): true of a peer's
   message that joins or opens a class (`Counted.joinClass`, `Counted.newClass`).
2. The own message opens a class that counts it once when no class is equivalent to it
   (`addSelfMsg_spec`). When one is, the source counts the message twice.
3. So in every run where the own message never meets an equivalent class, a complete certificate
   has a quorum and a full one has messages of all replicas (`isComplete_isFull_sound`); a run
   with one peer before the own message is complete with two replicas out of three
   (`complete_with_two_of_three`).
-/

namespace ConcordBft.MsgsCertificate

open Verif Verif.Exec Certificate List Option

variable {T : Type} {p : Params T}

/-! ## Quorums -/

/-- Messages of `n` distinct replicas among `msgs`, pairwise equivalent, and equivalent to the own
message if that is required. -/
def Quorum (p : Params T) (msgs : List (ReplicaId × T)) (n : ℕ) : Prop :=
  ∃ (S : Finset ReplicaId) (f : ReplicaId → T), n ≤ S.card ∧ (∀ r ∈ S, (r, f r) ∈ msgs) ∧
    (∀ r ∈ S, ∀ r' ∈ S, p.equivalent (f r) (f r') = true) ∧
    (p.selfIsRequired = true →
      ∃ m, (p.selfId, m) ∈ msgs ∧ ∀ r ∈ S, p.equivalent m (f r) = true)

variable {msgs : List (ReplicaId × T)} {n : ℕ} {r : ReplicaId} {m : T} {c : Certificate T}

theorem Quorum.mono {msgs' : List (ReplicaId × T)} (h : Quorum p msgs n)
    (hsub : ∀ x ∈ msgs, x ∈ msgs') : Quorum p msgs' n := by
  obtain ⟨S, f, hcard, hmem, heq, hself⟩ := h
  refine ⟨S, f, hcard, fun r hr => hsub _ (hmem r hr), heq, fun hreq => ?_⟩
  obtain ⟨m, hm, hall⟩ := hself hreq
  exact ⟨m, hsub _ hm, hall⟩

/-- The number of messages equivalent to `m`. -/
def countEquivalent (p : Params T) (msgs : List (ReplicaId × T)) (m : T) : ℕ :=
  msgs.countP fun x => p.equivalent m x.2

theorem lookup_of_mem (hnd : (msgs.map Prod.fst).Nodup)
    (h : (r, m) ∈ msgs) : msgs.lookup r = some m := by
  obtain ⟨l₁, l₂, rfl⟩ := append_of_mem h
  refine lookup_eq_some_iff.mpr ⟨l₁, l₂, rfl, fun x hx => bne_iff_ne.mpr fun heq => ?_⟩
  rw [map_append, nodup_append] at hnd
  exact hnd.2.2 _ (mem_map_of_mem hx) r (by simp) heq.symm

theorem mem_of_lookup (h : msgs.lookup r = some m) : (r, m) ∈ msgs := by
  obtain ⟨l₁, l₂, rfl, -⟩ := lookup_eq_some_iff.mp h
  simp

section Equivalence

variable (hrefl : ∀ a, p.equivalent a a = true)
  (hsymm : ∀ a b, p.equivalent a b = true → p.equivalent b a = true)
  (htrans : ∀ a b c, p.equivalent a b = true → p.equivalent b c = true →
    p.equivalent a c = true)

include hsymm htrans in
/-- Stored messages have distinct senders, so counting messages counts replicas. -/
theorem quorum_of_count (hnd : (msgs.map Prod.fst).Nodup)
    (hself : p.selfIsRequired = true → (p.selfId, m) ∈ msgs)
    (hn : n ≤ countEquivalent p msgs m) : Quorum p msgs n := by
  let good := msgs.filter fun x => p.equivalent m x.2
  have hgood : (good.map Prod.fst).Nodup := hnd.sublist (filter_sublist.map _)
  have hf : ∀ r ∈ (good.map Prod.fst).toFinset, (r, (msgs.lookup r).getD m) ∈ msgs ∧
      p.equivalent m ((msgs.lookup r).getD m) = true := by
    intro r hr
    obtain ⟨⟨r, m'⟩, hx, rfl⟩ := mem_map.mp (mem_toFinset.mp hr)
    obtain ⟨hmem, heq⟩ := mem_filter.mp hx
    rw [lookup_of_mem hnd hmem]
    exact ⟨hmem, heq⟩
  refine ⟨(good.map Prod.fst).toFinset, fun r => (msgs.lookup r).getD m, ?_,
    fun r hr => (hf r hr).1, ?_, ?_⟩
  · rw [toFinset_card_of_nodup hgood, length_map]
    rwa [countEquivalent, countP_eq_length_filter] at hn
  · intro r hr r' hr'
    exact htrans _ _ _ (hsymm _ _ (hf r hr).2) (hf r' hr').2
  · intro hreq
    exact ⟨m, hself hreq, fun r hr => (hf r hr).2⟩

/-! ## The invariant -/

/-- No class counts more messages than are stored, the trusted class is the only one and is
represented by the own message, and what is marked has its quorum. -/
structure Counted (p : Params T) (c : Certificate T) : Prop where
  nodup : (c.msgsFromReplicas.map Prod.fst).Nodup
  classes : ∀ cls ∈ c.msgClasses, ∃ m, c.msgOf cls.representativeReplica = some m ∧
    cls.size ≤ countEquivalent p c.msgsFromReplicas m
  best : ∀ i, c.bestClass = some i → ∃ cls m, c.msgClasses[i]? = some cls ∧
    c.msgOf cls.representativeReplica = some m ∧
    c.sizeOfBestClass ≤ countEquivalent p c.msgsFromReplicas m
  trusted : c.hasTrustedSelfClass = true →
    c.bestClass = some 0 ∧ ∃ size, c.msgClasses = [⟨size, p.selfId⟩]
  complete : c.complete = true → Quorum p c.msgsFromReplicas p.required
  full : c.full = true → Quorum p c.msgsFromReplicas p.numOfReps

/-- When the own message is required and stored, the trusted class exists. -/
def SelfTrusted (p : Params T) (c : Certificate T) : Prop :=
  p.selfIsRequired = true → c.hasMsgFromReplica p.selfId = true → c.hasTrustedSelfClass = true

theorem counted_empty : Counted p ({} : Certificate T) :=
  ⟨nodup_nil, by simp, by simp, by simp, by simp, by simp⟩

theorem Counted.hasMsg_of_mem (h : Counted p c) (hm : (r, m) ∈ c.msgsFromReplicas) :
    c.hasMsgFromReplica r = true := by
  unfold hasMsgFromReplica msgOf
  rw [lookup_of_mem h.nodup hm]
  rfl

/-! ## Storing a message -/

theorem msgOf_store_self (c : Certificate T) (msg : T) (r : ReplicaId) :
    (c.store msg r).msgOf r = some msg := lookup_cons_self

theorem msgOf_store_of_ne (c : Certificate T) (msg : T) {r' : ReplicaId} (h : r' ≠ r) :
    (c.store msg r).msgOf r' = c.msgOf r' := by
  unfold msgOf store
  rw [lookup_cons, beq_eq_false_iff_ne.mpr h]

theorem msgOf_store (hfresh : c.hasMsgFromReplica r = false)
    (msg : T) {r' : ReplicaId} (h : c.msgOf r' = some m) : (c.store msg r).msgOf r' = some m := by
  have hne : r' ≠ r := by
    rintro rfl
    unfold hasMsgFromReplica at hfresh
    rw [h] at hfresh
    cases hfresh
  rw [msgOf_store_of_ne c msg hne, h]

theorem countEquivalent_store (c : Certificate T) (msg : T) (r : ReplicaId) (m : T) :
    countEquivalent p (c.store msg r).msgsFromReplicas m =
      countEquivalent p c.msgsFromReplicas m + if p.equivalent m msg then 1 else 0 := by
  unfold countEquivalent store
  rw [countP_cons]

theorem Counted.store (h : Counted p c)
    (hfresh : c.hasMsgFromReplica r = false) (msg : T) : Counted p (c.store msg r) where
  nodup := by
    refine nodup_cons.mpr ⟨?_, h.nodup⟩
    intro hmem
    obtain ⟨⟨r', m⟩, hx, rfl⟩ := mem_map.mp hmem
    cases hfresh.symm.trans (h.hasMsg_of_mem hx)
  classes := by
    intro cls hcls
    obtain ⟨m, hm, hsize⟩ := h.classes cls hcls
    refine ⟨m, msgOf_store hfresh msg hm, ?_⟩
    rw [countEquivalent_store]
    omega
  best := by
    intro i hi
    obtain ⟨cls, m, hcls, hm, hsize⟩ := h.best i hi
    refine ⟨cls, m, hcls, msgOf_store hfresh msg hm, ?_⟩
    rw [countEquivalent_store]
    exact Nat.le_add_right_of_le hsize
  trusted := h.trusted
  complete := fun hc => (h.complete hc).mono fun _ hx => mem_cons_of_mem _ hx
  full := fun hf => (h.full hf).mono fun _ hx => mem_cons_of_mem _ hx

/-! ## Marking -/

theorem marks_iff : (!p.selfIsRequired || c.hasMsgFromReplica p.selfId) = true ↔
    (p.selfIsRequired = true → c.hasMsgFromReplica p.selfId = true) := by
  rw [Bool.or_eq_true, Bool.not_eq_true', ← Bool.not_eq_true, ← imp_iff_not_or]

theorem Counted.tryToMarkComplete (h : Counted p c)
    (hq : (p.selfIsRequired = true → c.hasMsgFromReplica p.selfId = true) →
      Quorum p c.msgsFromReplicas p.required) : Counted p (tryToMarkComplete p c) := by
  unfold MsgsCertificate.tryToMarkComplete
  split_ifs with hmark
  · exact ⟨h.nodup, h.classes, h.best, h.trusted, fun _ => hq (marks_iff.mp hmark), h.full⟩
  · exact h

theorem Counted.tryToMarkFull (h : Counted p c)
    (hq : (p.selfIsRequired = true → c.hasMsgFromReplica p.selfId = true) →
      Quorum p c.msgsFromReplicas p.numOfReps) : Counted p (tryToMarkFull p c) := by
  unfold MsgsCertificate.tryToMarkFull
  split_ifs with hmark
  · exact ⟨h.nodup, h.classes, h.best, h.trusted, h.complete, fun _ => hq (marks_iff.mp hmark)⟩
  · exact h

@[simp] theorem tryToMarkComplete_best (c : Certificate T) :
    (tryToMarkComplete p c).bestClass = c.bestClass := by
  unfold tryToMarkComplete; split_ifs <;> rfl

@[simp] theorem tryToMarkComplete_size (c : Certificate T) :
    (tryToMarkComplete p c).sizeOfBestClass = c.sizeOfBestClass := by
  unfold tryToMarkComplete; split_ifs <;> rfl

/-- The messages and the trust in the own class stay. -/
def SameMsgs (c c' : Certificate T) : Prop :=
  c'.msgsFromReplicas = c.msgsFromReplicas ∧ c'.hasTrustedSelfClass = c.hasTrustedSelfClass

variable {c' : Certificate T}

theorem SameMsgs.trans {c'' : Certificate T} (h : SameMsgs c c') (h' : SameMsgs c' c'') :
    SameMsgs c c'' := ⟨h'.1.trans h.1, h'.2.trans h.2⟩

theorem SelfTrusted.congr (h : SelfTrusted p c) (hsame : SameMsgs c c') : SelfTrusted p c' := by
  intro hreq hself
  unfold hasMsgFromReplica msgOf at hself
  rw [hsame.1] at hself
  rw [hsame.2]
  exact h hreq hself

theorem sameMsgs_markBestClass (p : Params T) (c : Certificate T) (i : ℕ) :
    SameMsgs c (markBestClass p c i) := by
  unfold markBestClass tryToMarkComplete tryToMarkFull
  dsimp only
  split_ifs <;> exact ⟨rfl, rfl⟩

include hsymm htrans in
theorem Counted.quorum_of_best (h : Counted p c) (htr : SelfTrusted p c)
    {i : ℕ} (hbest : c.bestClass = some i) (hn : n ≤ c.sizeOfBestClass)
    (hself : p.selfIsRequired = true → c.hasMsgFromReplica p.selfId = true) :
    Quorum p c.msgsFromReplicas n := by
  obtain ⟨cls, m, hcls, hm, hsize⟩ := h.best i hbest
  refine quorum_of_count hsymm htrans h.nodup (m := m) ?_ (Nat.le_trans hn hsize)
  intro hreq
  -- the own message is stored, so its class is the only one
  obtain ⟨hbest0, size, hclasses⟩ := h.trusted (htr hreq (hself hreq))
  obtain rfl := some.inj (hbest0.symm.trans hbest)
  rw [hclasses] at hcls
  obtain rfl := some.inj hcls
  exact mem_of_lookup hm

include hsymm htrans in
theorem Counted.markBestClass (h : Counted p c) (htr : SelfTrusted p c)
    (i : ℕ) : Counted p (markBestClass p c i) := by
  unfold MsgsCertificate.markBestClass
  dsimp only
  set c₁ := if c.bestClass = some i ∧ p.required ≤ c.sizeOfBestClass then
    MsgsCertificate.tryToMarkComplete p c else c with hc₁
  have h1 : Counted p c₁ := by
    rw [hc₁]
    split_ifs with hmark
    · exact h.tryToMarkComplete (h.quorum_of_best hsymm htrans htr hmark.1 hmark.2)
    · exact h
  have htr1 : SelfTrusted p c₁ := by
    refine htr.congr ?_
    rw [hc₁]
    unfold MsgsCertificate.tryToMarkComplete
    split_ifs <;> exact ⟨rfl, rfl⟩
  split_ifs with hmark
  · exact h1.tryToMarkFull (h1.quorum_of_best hsymm htrans htr1 hmark.1 hmark.2)
  · exact h1

theorem markBestClass_resetToSelfClass (c : Certificate T) (size : ℕ) :
    markBestClass p (resetToSelfClass p c size) 0 =
      let c := if p.required ≤ size then tryToMarkComplete p (resetToSelfClass p c size)
        else resetToSelfClass p c size
      if p.numOfReps ≤ size then tryToMarkFull p c else c := by
  have hbest : (resetToSelfClass p c size).bestClass = some 0 := rfl
  have hsize : (resetToSelfClass p c size).sizeOfBestClass = size := rfl
  unfold markBestClass
  by_cases hreq : p.required ≤ size <;> simp [hbest, hsize, hreq]

/-! ## Peers -/

theorem sameMsgs_raiseClass (c : Certificate T) (i : ℕ) (cls : MsgClassInfo) :
    SameMsgs c (raiseClass c i cls) := by
  unfold raiseClass
  dsimp only
  split_ifs <;> exact ⟨rfl, rfl⟩

variable {cls : MsgClassInfo}

theorem Counted.raiseClass (h : Counted p c) {i : ℕ} {m : T} (hcls : c.msgClasses[i]? = some cls)
    (hm : c.msgOf cls.representativeReplica = some m)
    (hsize : cls.size + 1 ≤ countEquivalent p c.msgsFromReplicas m) :
    Counted p (raiseClass c i cls) := by
  have hlt : i < c.msgClasses.length := (List.getElem?_eq_some_iff.mp hcls).1
  have hmod : (cls.size + 1) % 2 ^ 16 ≤ countEquivalent p c.msgsFromReplicas m :=
    Nat.le_trans (Nat.mod_le _ _) hsize
  have hclasses : ∀ cls' ∈ c.msgClasses.set i { cls with size := (cls.size + 1) % 2 ^ 16 },
      ∃ m, c.msgOf cls'.representativeReplica = some m ∧
        cls'.size ≤ countEquivalent p c.msgsFromReplicas m := by
    intro cls' hcls'
    rcases mem_or_eq_of_mem_set hcls' with hmem | rfl
    · exact h.classes cls' hmem
    · exact ⟨m, hm, hmod⟩
  have htrusted : c.hasTrustedSelfClass = true → i = 0 ∧ c.bestClass = some 0 ∧
      ∃ size, c.msgClasses.set i { cls with size := (cls.size + 1) % 2 ^ 16 } =
        [⟨size, p.selfId⟩] := by
    intro ht
    obtain ⟨hbest, size, hone⟩ := h.trusted ht
    rw [hone] at hlt hcls ⊢
    obtain rfl := Nat.lt_one_iff.mp hlt
    obtain rfl := some.inj hcls
    exact ⟨rfl, hbest, _, rfl⟩
  unfold MsgsCertificate.raiseClass
  dsimp only
  split_ifs with hbig
  · refine ⟨h.nodup, hclasses, ?_, ?_, h.complete, h.full⟩
    · intro j hj
      obtain rfl := some.inj hj
      exact ⟨_, m, List.getElem?_set_self hlt, hm, hmod⟩
    · intro ht
      obtain ⟨rfl, -, hone⟩ := htrusted ht
      exact ⟨rfl, hone⟩
  · refine ⟨h.nodup, hclasses, ?_, fun ht => (htrusted ht).2, h.complete, h.full⟩
    intro j hj
    obtain ⟨cls', m', hcls', hm', hsize'⟩ := h.best j hj
    by_cases hij : i = j
    · -- the best class was raised past `2 ^ 16`: its representative stays
      subst hij
      obtain rfl := some.inj (hcls.symm.trans hcls')
      exact ⟨_, m', List.getElem?_set_self hlt, hm', hsize'⟩
    · exact ⟨cls', m', by rw [← hcls']; exact List.getElem?_set_ne hij, hm', hsize'⟩

variable {msg : T}

include hrefl in
theorem Counted.newClass (h : Counted p c) (hself : c.hasTrustedSelfClass = false)
    (hr : c.msgOf r = some msg) : Counted p (newClass p c r) := by
  unfold MsgsCertificate.newClass
  split_ifs with hfull
  · exact h
  have hone : 1 ≤ countEquivalent p c.msgsFromReplicas msg := by
    unfold countEquivalent
    exact countP_pos_iff.mpr ⟨(r, msg), mem_of_lookup hr, hrefl msg⟩
  have hclasses : ∀ cls ∈ c.msgClasses ++ [⟨1, r⟩], ∃ m,
      c.msgOf cls.representativeReplica = some m ∧
        cls.size ≤ countEquivalent p c.msgsFromReplicas m := by
    intro cls hcls
    rcases mem_append.mp hcls with hcls | hcls
    · exact h.classes cls hcls
    · obtain rfl := mem_singleton.mp hcls
      exact ⟨msg, hr, hone⟩
  have htrusted {P : Prop} (ht : c.hasTrustedSelfClass = true) : P := by
    cases hself.symm.trans ht
  dsimp only
  split_ifs with hnone
  · refine ⟨h.nodup, hclasses, ?_, htrusted, h.complete, h.full⟩
    intro j hj
    obtain rfl := some.inj hj
    exact ⟨⟨1, r⟩, msg, by simp, hr, hone⟩
  · refine ⟨h.nodup, hclasses, ?_, htrusted, h.complete, h.full⟩
    intro j hj
    obtain ⟨cls, m, hcls, hm, hsize⟩ := h.best j hj
    have hj : j < c.msgClasses.length := (List.getElem?_eq_some_iff.mp hcls).1
    exact ⟨cls, m, by rw [← hcls]; exact List.getElem?_append_left hj, hm, hsize⟩

/-- The search for a class returns a class equivalent to the message, or there is none. -/
theorem findClass_spec (msg : T) {classes : List MsgClassInfo} (i : ℕ)
    (h : ∀ cls ∈ classes, ∃ m, c.msgOf cls.representativeReplica = some m) :
    ∃ r, findClass p c msg i classes = .ok r ∧
      (∀ j cls, r = some (j, cls) → i ≤ j ∧ classes[j - i]? = some cls ∧
        ∃ m, c.msgOf cls.representativeReplica = some m ∧ p.equivalent m msg = true) ∧
      ((∀ cls ∈ classes, ∀ m, c.msgOf cls.representativeReplica = some m →
        p.equivalent m msg = false) → r = none) := by
  induction classes generalizing i with
  | nil => exact ⟨none, rfl, by simp, fun _ => rfl⟩
  | cons cls classes ih =>
    obtain ⟨m, hm⟩ := h cls mem_cons_self
    have hrep : c.representativeMsg cls = .ok m := by
      unfold representativeMsg
      rw [hm]
    unfold findClass
    rw [hrep, ok_bind]
    split_ifs with heq
    · refine ⟨some (i, cls), rfl, ?_, ?_⟩
      · intro j cls' hj
        obtain ⟨rfl, rfl⟩ := Prod.mk.inj (some.inj hj)
        exact ⟨Nat.le_refl _, by rw [Nat.sub_self]; rfl, m, hm, heq⟩
      · intro hnone
        rw [hnone cls mem_cons_self m hm] at heq
        cases heq
    · obtain ⟨r, hr, hsome, hnone⟩ := ih (i + 1) fun cls' h' => h cls' (mem_cons_of_mem _ h')
      refine ⟨r, hr, ?_, fun hall => hnone fun cls' h' => hall cls' (mem_cons_of_mem _ h')⟩
      intro j cls' hj
      obtain ⟨hij, hget, hm'⟩ := hsome j cls' hj
      refine ⟨by omega, ?_, hm'⟩
      rw [show j - i = j - (i + 1) + 1 by omega, List.getElem?_cons_succ]
      exact hget

/-- A new own message meets no class that is equivalent to it. -/
def SelfMeetsNoClass (p : Params T) (c : Certificate T) : Op T → Prop
  | .addMsg msg r => p.selfTrust = true → r = p.selfId → c.hasMsgFromReplica r = false →
      ∀ cls ∈ c.msgClasses, ∀ m, c.msgOf cls.representativeReplica = some m →
        p.equivalent m msg = false
  | .resetAndFree => True

include hsymm htrans in
theorem Counted.joinClass_store (h : Counted p c) (hfresh : c.hasMsgFromReplica r = false)
    (htr : SelfTrusted p (c.store msg r)) {i : ℕ} {m : T} (hcls : c.msgClasses[i]? = some cls)
    (hm : (c.store msg r).msgOf cls.representativeReplica = some m)
    (heq : p.equivalent m msg = true) :
    Counted p (joinClass p (c.store msg r) i cls) ∧
      SameMsgs (c.store msg r) (joinClass p (c.store msg r) i cls) := by
  obtain ⟨m', hm', hsize⟩ := h.classes cls (mem_of_getElem? hcls)
  obtain rfl := some.inj ((msgOf_store hfresh msg hm').symm.trans hm)
  have hcount : cls.size + 1 ≤ countEquivalent p (c.store msg r).msgsFromReplicas m' := by
    rw [countEquivalent_store, if_pos heq]
    omega
  have hraise := (h.store hfresh msg).raiseClass hcls hm hcount
  have hsame := sameMsgs_raiseClass (c.store msg r) i cls
  exact ⟨hraise.markBestClass hsymm htrans (htr.congr hsame) i,
    hsame.trans (sameMsgs_markBestClass p _ i)⟩

theorem sameMsgs_newClass (p : Params T) (c : Certificate T) (r : ReplicaId) :
    SameMsgs c (newClass p c r) := by
  unfold newClass
  dsimp only
  split_ifs <;> exact ⟨rfl, rfl⟩

include hrefl hsymm htrans

/-- **A peer's message** keeps the invariant. -/
theorem addPeerMsg_spec (h : Counted p c)
    (hfresh : c.hasMsgFromReplica r = false) (htr : SelfTrusted p (c.store msg r)) :
    ∃ c', addPeerMsg p (c.store msg r) msg r = .ok c' ∧ Counted p c' ∧ SelfTrusted p c' ∧
      c'.msgsFromReplicas = (c.store msg r).msgsFromReplicas := by
  have hstore := h.store hfresh msg
  unfold addPeerMsg
  split_ifs with ht
  · obtain ⟨-, size, hclasses⟩ := hstore.trusted ht
    obtain ⟨m, hm, -⟩ := hstore.classes ⟨size, p.selfId⟩ (by rw [hclasses]; exact mem_cons_self)
    have hrep : (c.store msg r).representativeMsg ⟨size, p.selfId⟩ = .ok m := by
      unfold representativeMsg
      rw [hm]
    rw [hclasses]
    simp only [hrep, ok_bind]
    split_ifs with heq
    · have hcls : c.msgClasses[0]? = some ⟨size, p.selfId⟩ := by
        rw [show c.msgClasses = [⟨size, p.selfId⟩] from hclasses]
        rfl
      obtain ⟨h1, h2⟩ := h.joinClass_store hsymm htrans hfresh htr hcls hm heq
      exact ⟨_, rfl, h1, htr.congr h2, h2.1⟩
    · exact ⟨_, rfl, hstore, htr, rfl⟩
  · obtain ⟨found, hfound, hsome, -⟩ := findClass_spec (p := p) (c := c.store msg r) msg 0
      fun cls hcls => (hstore.classes cls hcls).imp fun _ hm => hm.1
    rw [hfound, ok_bind]
    rcases found with _ | ⟨i, cls⟩
    · have hsame := sameMsgs_newClass p (c.store msg r) r
      exact ⟨_, rfl, hstore.newClass hrefl (by simpa using ht) (msgOf_store_self c msg r),
        htr.congr hsame, hsame.1⟩
    · obtain ⟨-, hget, m, hm, heq⟩ := hsome i cls rfl
      rw [Nat.sub_zero] at hget
      obtain ⟨h1, h2⟩ := h.joinClass_store hsymm htrans hfresh htr hget hm heq
      exact ⟨_, rfl, h1, htr.congr h2, h2.1⟩

/-- **The own message** keeps the invariant when no class is equivalent to it. -/
theorem addSelfMsg_spec (h : Counted p c) (hfresh : c.hasMsgFromReplica p.selfId = false)
    (hno : ∀ cls ∈ c.msgClasses, ∀ m, c.msgOf cls.representativeReplica = some m →
      p.equivalent m msg = false) :
    ∃ c', addSelfMsg p (c.store msg p.selfId) msg = .ok c' ∧ Counted p c' ∧ SelfTrusted p c' ∧
      c'.msgsFromReplicas = (c.store msg p.selfId).msgsFromReplicas := by
  have hstore := h.store hfresh msg
  obtain ⟨found, hfound, -, hnone⟩ := findClass_spec (p := p) (c := c.store msg p.selfId) msg 0
    fun cls hcls => (hstore.classes cls hcls).imp fun _ hm => hm.1
  obtain rfl : found = none := by
    refine hnone fun cls hcls m hm => ?_
    obtain ⟨m', hm', -⟩ := h.classes cls hcls
    obtain rfl := some.inj ((msgOf_store hfresh msg hm').symm.trans hm)
    exact hno cls hcls m' hm'
  have hone : 1 ≤ countEquivalent p (c.store msg p.selfId).msgsFromReplicas msg := by
    rw [countEquivalent_store, if_pos (hrefl msg)]
    omega
  unfold addSelfMsg
  rw [hfound, ok_bind]
  have h1 : Counted p (resetToSelfClass p (c.store msg p.selfId) 1) := by
    refine ⟨hstore.nodup, ?_, ?_, fun _ => ⟨rfl, 1, rfl⟩, hstore.complete, hstore.full⟩
    · intro cls hcls
      rw [mem_singleton.mp hcls]
      exact ⟨msg, msgOf_store_self c msg p.selfId, hone⟩
    · intro i hi
      obtain rfl := some.inj hi
      exact ⟨⟨1, p.selfId⟩, msg, rfl, msgOf_store_self c msg p.selfId, hone⟩
  have htr1 : SelfTrusted p (resetToSelfClass p (c.store msg p.selfId) 1) := fun _ _ => rfl
  refine ⟨_, rfl, ?_⟩
  rw [show selfClassSize none = 1 from rfl, ← markBestClass_resetToSelfClass]
  have hsame := sameMsgs_markBestClass p (resetToSelfClass p (c.store msg p.selfId) 1) 0
  exact ⟨h1.markBestClass hsymm htrans htr1 0, htr1.congr hsame, hsame.1⟩

/-- **`addMsg`** keeps the invariant when a new own message meets no equivalent class. -/
theorem addMsg_spec (h : Counted p c) (htr : SelfTrusted p c)
    (hno : SelfMeetsNoClass p c (.addMsg msg r)) :
    ∃ b c', addMsg p c msg r = .ok (b, c') ∧ Counted p c' ∧ SelfTrusted p c' ∧
      ∀ x ∈ c'.msgsFromReplicas, x ∈ c.msgsFromReplicas ∨ x = (r, msg) := by
  have hmem : ∀ x ∈ (c.store msg r).msgsFromReplicas, x ∈ c.msgsFromReplicas ∨ x = (r, msg) := by
    intro x hx
    exact (mem_cons.mp hx).symm
  unfold addMsg
  by_cases hhas : c.hasMsgFromReplica r = true
  · rw [if_pos hhas]
    exact ⟨false, c, rfl, h, htr, fun x hx => .inl hx⟩
  rw [if_neg hhas]
  have hfresh : c.hasMsgFromReplica r = false := by simpa using hhas
  have hstore := h.store hfresh msg
  -- a stored own message that is required always has its class
  have htr' : (r = p.selfId → p.selfIsRequired = false) → SelfTrusted p (c.store msg r) := by
    intro hr hreq hself
    by_cases hrs : r = p.selfId
    · rw [hr hrs] at hreq
      cases hreq
    · refine htr hreq ?_
      unfold hasMsgFromReplica at hself ⊢
      rwa [msgOf_store_of_ne c msg (Ne.symm hrs)] at hself
  dsimp only
  split_ifs with hcount hselfMsg
  · rw [Bool.and_eq_true, beq_iff_eq] at hselfMsg
    obtain ⟨htrust, rfl⟩ := hselfMsg
    obtain ⟨c', hc', h1, h2, h3⟩ :=
      addSelfMsg_spec hrefl hsymm htrans h hfresh (hno htrust rfl hfresh)
    rw [hc']
    exact ⟨true, c', rfl, h1, h2, h3 ▸ hmem⟩
  · have hr : r = p.selfId → p.selfIsRequired = false := by
      intro hr
      by_contra hreq
      have htrust := p.trust (by simpa using hreq)
      exact hselfMsg (by simp [htrust, hr])
    obtain ⟨c', hc', h1, h2, h3⟩ := addPeerMsg_spec hrefl hsymm htrans h hfresh (htr' hr)
    rw [hc']
    exact ⟨true, c', rfl, h1, h2, h3 ▸ hmem⟩
  · refine ⟨true, c.store msg r, rfl, hstore, htr' ?_, hmem⟩
    -- a complete certificate already has the own message if it is required
    rintro rfl
    by_contra hreq
    have hcomplete : c.complete = true := by
      by_contra hc
      exact hcount (by simp [store, hc])
    obtain ⟨S, f, -, -, -, hself⟩ := h.complete hcomplete
    obtain ⟨m, hm, -⟩ := hself (by simpa using hreq)
    cases hfresh.symm.trans (h.hasMsg_of_mem hm)

end Equivalence

/-! ## Resets and runs -/

theorem resetAndFree_msgs (c : Certificate T) : (resetAndFree c).msgsFromReplicas = [] := by
  unfold resetAndFree
  by_cases hempty : c.msgsFromReplicas = [] <;> simp [hempty]

theorem Counted.resetAndFree (h : Counted p c) : Counted p (resetAndFree c) := by
  unfold MsgsCertificate.resetAndFree
  dsimp only
  split_ifs
  · exact ⟨h.nodup, h.classes, h.best, h.trusted, by simp, by simp⟩
  · exact ⟨nodup_nil, by simp, by simp, by simp, by simp, by simp⟩

/-- **Certificates count replicas.** In every run where a new own message meets no equivalent
class, a complete certificate has a quorum among the messages added since the last reset, and a
full one has messages of all replicas. -/
theorem isComplete_isFull_sound (p : Params T) (hrefl : ∀ a, p.equivalent a a = true)
    (hsymm : ∀ a b, p.equivalent a b = true → p.equivalent b a = true)
    (htrans : ∀ a b c, p.equivalent a b = true → p.equivalent b c = true → p.equivalent a c = true)
    {ops : List (Op T)} (hops : EveryStep (step p) {} (SelfMeetsNoClass p) ops) :
    ∃ c, run p ops = .ok c ∧ (c.isComplete = true → Quorum p (added ops) p.required) ∧
      (c.isFull = true → Quorum p (added ops) p.numOfReps) := by
  have hinv : ∃ c, run p ops = .ok c ∧
      (Counted p c ∧ SelfTrusted p c ∧ ∀ x ∈ c.msgsFromReplicas, x ∈ added ops) := by
    refine run_induction (P := fun ops c => Counted p c ∧ SelfTrusted p c ∧
      ∀ x ∈ c.msgsFromReplicas, x ∈ added ops) ⟨counted_empty, ?_, by simp⟩ ?_ hops
    · intro _ hself
      cases hself
    · intro before c op ⟨hcounted, htr, hadded⟩ hcond
      cases op with
      | addMsg msg r =>
        obtain ⟨b, c', hc', h1, h2, h3⟩ := addMsg_spec hrefl hsymm htrans hcounted htr hcond
        refine ⟨c', ?_, h1, h2, ?_⟩
        · show (do return (← addMsg p c msg r).2) = _
          rw [hc']
          rfl
        · intro x hx
          rw [added, foldl_append]
          rcases h3 x hx with hx | rfl
          · exact mem_append_left _ (hadded x hx)
          · simp
      | resetAndFree =>
        refine ⟨resetAndFree c, rfl, hcounted.resetAndFree, ?_, ?_⟩
        · intro _ hself
          unfold hasMsgFromReplica msgOf at hself
          rw [resetAndFree_msgs] at hself
          cases hself
        · rw [resetAndFree_msgs]
          simp
  obtain ⟨c, hrun, hcounted, -, hadded⟩ := hinv
  exact ⟨c, hrun, fun hc => (hcounted.complete hc).mono hadded,
    fun hf => (hcounted.full hf).mono hadded⟩

/-! ## The own message after a peer -/

/-- Four replicas, of which three are required, as `CheckpointInfo` sets them for `f = 1`. -/
def fourReplicas : Params ℕ where
  selfTrust := true
  selfIsRequired := true
  keepAllMsgs := true
  equivalent := fun a b => a == b
  numOfReps := 4
  maxFails := 1
  required := 3
  selfId := 0
  trust := fun _ => rfl

theorem complete_with_three : EveryStep (step fourReplicas) {} (SelfMeetsNoClass fourReplicas)
        [.addMsg 7 0, .addMsg 7 1, .addMsg 7 2] ∧
      Quorum fourReplicas [(0, 7), (1, 7), (2, 7)] 3 := by
  have hops : EveryStep (step fourReplicas) {} (SelfMeetsNoClass fourReplicas)
      [.addMsg 7 0, .addMsg 7 1, .addMsg 7 2] := by
    refine EveryStep.cons (fun _ _ _ => by simp) fun c₁ _ => ?_
    refine EveryStep.cons (fun _ h => absurd h (by decide)) fun c₂ _ => ?_
    exact EveryStep.cons (fun _ h => absurd h (by decide)) fun c₃ _ => everyStep_nil _ _ _
  obtain ⟨c, hrun, hcomplete, -⟩ := isComplete_isFull_sound fourReplicas (by simp [fourReplicas])
    (by simp [fourReplicas]) (by simp [fourReplicas]) hops
  refine ⟨hops, hcomplete ?_⟩
  rw [← Except.ok.inj hrun]
  rfl

/-- One peer's message and then the own one: the own message is counted twice, and the
certificate is complete with the messages of two replicas. -/
theorem complete_with_two_of_three :
    (∃ c, run fourReplicas [.addMsg 7 1, .addMsg 7 0] = .ok c ∧ c.isComplete = true) ∧
      ¬ Quorum fourReplicas (added [.addMsg 7 1, .addMsg 7 0]) fourReplicas.required := by
  refine ⟨⟨_, rfl, rfl⟩, ?_⟩
  rintro ⟨S, f, hcard, hmem, -⟩
  have hsub : S ⊆ {1, 0} := by
    intro r hr
    have hadded : added [Op.addMsg 7 1, .addMsg 7 0] = [(1, 7), (0, 7)] := rfl
    have h := hmem r hr
    rw [hadded] at h
    simp only [mem_cons, Prod.mk.injEq, not_mem_nil, or_false] at h
    rcases h with ⟨rfl, -⟩ | ⟨rfl, -⟩
    · decide
    · decide
  have h2 : S.card ≤ 2 := (Finset.card_le_card hsub).trans (by decide)
  have h3 : fourReplicas.required = 3 := rfl
  omega

end ConcordBft.MsgsCertificate
