import ConcordBft.Lib.OrdMap
import Mathlib.Data.Set.Insert

/-!
# Versions of a state along a line of numbers

A `Timeline` holds versions of a state, each in force from a number on until the next version. An
amendment changes the version of one number; when there is none yet, it is created as a copy of
the *latest* version. Such a timeline shows, at every number, the amendments that are due there,
as long as amendments arrive in the order in which they fall due (`Follows.applyAll`). Amendments
of versions that exist already, as a replay makes them, are covered by `Follows.inPlace`.
-/

namespace Verif

open List Set

/-- Versions of a state, newest first. The oldest one is in force from `0` on. -/
@[ext] structure Timeline (σ : Type) where
  entries : List (ℕ × σ)
  sorted : entries.Pairwise fun a b => b.1 < a.1
  oldest : ∃ s, (0, s) ∈ entries

namespace Timeline

variable {σ : Type}

/-- The list with the version `s` at `k`. -/
def put (k : ℕ) (s : σ) : List (ℕ × σ) → List (ℕ × σ)
  | [] => [(k, s)]
  | e :: l => if k < e.1 then e :: put k s l else if e.1 < k then (k, s) :: e :: l else (k, s) :: l

variable {e : ℕ × σ} {l : List (ℕ × σ)}

theorem mem_put {k : ℕ} {s : σ} (hs : l.Pairwise fun a b => b.1 < a.1) :
    e ∈ put k s l ↔ (e ∈ l ∧ e.1 ≠ k) ∨ e = (k, s) := by
  induction l with
  | nil => simp [put]
  | cons d l ih =>
    obtain ⟨hd, hl⟩ := pairwise_cons.mp hs
    have hrest : d.1 ≤ k → e ∈ l → e.1 ≠ k := fun hle he => ((hd e he).trans_le hle).ne
    unfold put
    split_ifs with h h'
    · have hne : e = d → e.1 ≠ k := fun he => he ▸ h.ne'
      rw [mem_cons, ih hl, mem_cons, or_and_right, and_iff_left_of_imp hne, or_assoc]
    · have hne : e ∈ d :: l → e.1 ≠ k := fun he =>
        (mem_cons.mp he).elim (fun he => he ▸ h'.ne) (hrest h'.le)
      rw [mem_cons, and_iff_left_of_imp hne, or_comm]
    · rw [not_lt] at h h'
      have hd : ¬ (e = d ∧ e.1 ≠ k) := fun he => he.2 (he.1 ▸ le_antisymm h h')
      rw [mem_cons, mem_cons, or_and_right, or_iff_right hd, and_iff_left_of_imp (hrest h), or_comm]

theorem sorted_put {k : ℕ} {s : σ} (hs : l.Pairwise fun a b => b.1 < a.1) :
    (put k s l).Pairwise fun a b => b.1 < a.1 := by
  induction l with
  | nil => exact pairwise_singleton _ _
  | cons d l ih =>
    obtain ⟨hd, hl⟩ := pairwise_cons.mp hs
    unfold put
    split_ifs with h h'
    · refine pairwise_cons.mpr ⟨fun e he => ?_, ih hl⟩
      rcases (mem_put hl).mp he with ⟨he, -⟩ | rfl
      · exact hd e he
      · exact h
    · exact pairwise_cons.mpr ⟨forall_mem_cons.mpr ⟨h', fun e he => (hd e he).trans h'⟩, hs⟩
    · exact pairwise_cons.mpr ⟨fun e he => (hd e he).trans_le (not_lt.mp h), hl⟩

def start (s : σ) : Timeline σ where
  entries := [(0, s)]
  sorted := pairwise_singleton _ _
  oldest := ⟨s, mem_singleton_self _⟩

variable (t : Timeline σ)

theorem descending : OrdSet.Sorted (fun e : ℕ × σ => OrderDual.toDual e.1) t.entries := t.sorted

theorem entries_ne_nil : t.entries ≠ [] := by
  obtain ⟨s, hs⟩ := t.oldest
  exact ne_nil_of_mem hs

def newest : ℕ × σ := t.entries.head t.entries_ne_nil

def version (k : ℕ) : Option σ := (t.entries.find? fun e => e.1 == k).map Prod.snd

/-- The version at `k`, or the latest one. -/
def source (k : ℕ) : σ := (t.version k).getD t.newest.2

def replace (k : ℕ) (s : σ) : Timeline σ where
  entries := put k s t.entries
  sorted := sorted_put t.sorted
  oldest := by
    obtain ⟨s₀, h₀⟩ := t.oldest
    by_cases hk : k = 0
    · exact ⟨s, (mem_put t.sorted).mpr (Or.inr (by rw [hk]))⟩
    · exact ⟨s₀, (mem_put t.sorted).mpr (Or.inl ⟨h₀, fun h => hk h.symm⟩)⟩

/-- The version in force at `k`. -/
def floor (k : ℕ) : Option σ := (t.entries.find? fun e => decide (e.1 ≤ k)).map Prod.snd

variable {t}

variable {k a : ℕ} {s : σ}

theorem mem_replace :
    e ∈ (t.replace k s).entries ↔ (e ∈ t.entries ∧ e.1 ≠ k) ∨ e = (k, s) := mem_put t.sorted

theorem forall_mem_replace {P : ℕ × σ → Prop} (h : ∀ e ∈ t.entries, P e) (hs : P (k, s)) :
    ∀ e ∈ (t.replace k s).entries, P e := by
  intro e he
  rcases mem_replace.mp he with ⟨he, -⟩ | rfl
  · exact h e he
  · exact hs

theorem newest_mem : t.newest ∈ t.entries := head_mem _

theorem le_newest (he : e ∈ t.entries) : e.1 ≤ t.newest.1 := by
  have hs := t.sorted
  rw [← cons_head_tail t.entries_ne_nil] at he hs
  rcases mem_cons.mp he with rfl | he
  · exact le_rfl
  · exact ((pairwise_cons.mp hs).1 e he).le

theorem eq_of_mem {s' : σ} (h : (k, s) ∈ t.entries) (h' : (k, s') ∈ t.entries) : s = s' :=
  congrArg Prod.snd (t.descending.eq_of_key_eq h h' rfl)

theorem version_of_mem (h : (k, s) ∈ t.entries) : t.version k = some s := by
  have hsome : (t.entries.find? fun e => e.1 == k).isSome :=
    List.find?_isSome.mpr ⟨(k, s), h, beq_self_eq_true k⟩
  obtain ⟨⟨k', s'⟩, he⟩ := Option.isSome_iff_exists.mp hsome
  have hfound := List.find?_some he
  have hk : k' = k := beq_iff_eq.mp hfound
  subst hk
  unfold version
  rw [he, eq_of_mem h (mem_of_find?_eq_some he)]
  rfl

theorem source_of_mem (h : (k, s) ∈ t.entries) : t.source k = s := by
  unfold source
  rw [version_of_mem h, Option.getD_some]

/-- Past the newest version its copy is amended; at the newest version, the version itself. -/
theorem source_of_le (h : t.newest.1 ≤ k) : t.source k = t.newest.2 := by
  rcases h.lt_or_eq with h | h
  · have hnone : t.version k = none := by
      unfold version
      rw [Option.map_eq_none_iff, List.find?_eq_none]
      intro e he hek
      have := le_newest he
      exact absurd (beq_iff_eq.mp hek) (by omega)
    unfold source
    rw [hnone, Option.getD_none]
  · apply source_of_mem
    rw [← h]
    exact newest_mem

theorem source_mem (t : Timeline σ) (k : ℕ) : ∃ j, (j, t.source k) ∈ t.entries := by
  rcases hv : t.version k with _ | s
  · refine ⟨t.newest.1, ?_⟩
    have hsource : t.source k = t.newest.2 := by rw [source, hv, Option.getD_none]
    rw [hsource]
    exact newest_mem
  · obtain ⟨e, hfind, rfl⟩ := Option.map_eq_some_iff.mp hv
    refine ⟨e.1, ?_⟩
    rw [source, hv, Option.getD_some]
    exact mem_of_find?_eq_some hfind

theorem put_put (k : ℕ) (s s' : σ) (l : List (ℕ × σ)) : put k s' (put k s l) = put k s' l := by
  induction l with
  | nil => simp [put]
  | cons e l ih =>
    rw [put, put]
    split_ifs with h
    · rw [put, if_pos h, ih]
    all_goals rw [put, if_neg (lt_irrefl k), if_neg (lt_irrefl k)]

theorem replace_replace (t : Timeline σ) (k : ℕ) (s s' : σ) :
    (t.replace k s).replace k s' = t.replace k s' := Timeline.ext (put_put k s s' t.entries)

theorem source_replace (t : Timeline σ) (k : ℕ) (s : σ) : (t.replace k s).source k = s :=
  source_of_mem (mem_replace.mpr (.inr rfl))

theorem floor_isSome (t : Timeline σ) (k : ℕ) : ∃ s, t.floor k = some s := by
  obtain ⟨s, hs⟩ := t.oldest
  have hsome : (t.entries.find? fun e => decide (e.1 ≤ k)).isSome :=
    List.find?_isSome.mpr ⟨(0, s), hs, decide_eq_true (Nat.zero_le k)⟩
  obtain ⟨e, he⟩ := Option.isSome_iff_exists.mp hsome
  exact ⟨e.2, by rw [floor, he, Option.map_some]⟩

theorem floor_eq_some (h : t.floor k = some s) :
    ∃ j, (j, s) ∈ t.entries ∧ j ≤ k ∧ ∀ e ∈ t.entries, e.1 ≤ k → e.1 ≤ j := by
  obtain ⟨⟨j, s'⟩, hfind, rfl⟩ := Option.map_eq_some_iff.mp h
  obtain ⟨hmem, hle, hlast⟩ := t.descending.find?_eq_some hfind
  exact ⟨j, hmem, of_decide_eq_true hle, fun e he hek => hlast e he (decide_eq_true hek)⟩

theorem floor_of_last {j : ℕ} (hmem : (j, s) ∈ t.entries) (hle : j ≤ k)
    (hlast : ∀ e ∈ t.entries, e.1 ≤ k → e.1 ≤ j) : t.floor k = some s := by
  obtain ⟨s', hs'⟩ := t.floor_isSome k
  obtain ⟨j', hmem', hle', hlast'⟩ := floor_eq_some hs'
  obtain rfl : j' = j := le_antisymm (hlast _ hmem' hle') (hlast' _ hmem hle)
  rw [hs', eq_of_mem hmem' hmem]

theorem floor_replace_self (t : Timeline σ) (a : ℕ) (s : σ) : (t.replace a s).floor a = some s :=
  floor_of_last (mem_replace.mpr (.inr rfl)) le_rfl fun _ _ h => h

theorem floor_replace_of_lt (s : σ) (h : k < a) : (t.replace a s).floor k = t.floor k := by
  obtain ⟨s', hs'⟩ := t.floor_isSome k
  obtain ⟨j, hmem, hle, hlast⟩ := floor_eq_some hs'
  rw [hs']
  refine floor_of_last (mem_replace.mpr (.inl ⟨hmem, (hle.trans_lt h).ne⟩)) hle ?_
  exact forall_mem_replace hlast fun hak => absurd hak (not_le.mpr h)

theorem floor_replace_of_floor (h : t.floor a = some s) (k : ℕ) :
    (t.replace a s).floor k = t.floor k := by
  rcases lt_or_ge k a with hk | hk
  · exact floor_replace_of_lt s hk
  obtain ⟨s', hs'⟩ := t.floor_isSome k
  obtain ⟨j, hmem, hle, hlast⟩ := floor_eq_some hs'
  rw [hs']
  rcases lt_or_ge a j with hj | hj
  · refine floor_of_last (mem_replace.mpr (.inl ⟨hmem, hj.ne'⟩)) hle ?_
    exact forall_mem_replace hlast fun _ => hj.le
  · -- no version begins after `a`: the one in force at `k` is the one in force at `a`
    have hsame : t.floor a = some s' := floor_of_last hmem hj fun e he hea =>
      hlast e he (hea.trans hk)
    obtain rfl : s = s' := Option.some.inj (h.symm.trans hsame)
    refine floor_of_last (mem_replace.mpr (.inr rfl)) hk ?_
    exact forall_mem_replace (fun e he hek => (hlast e he hek).trans hj) fun _ => le_rfl

/-- A new version at `a` is not noticed up to `K` if it begins later, or is in force already. -/
theorem floor_replace_iff {K : ℕ} :
    (∀ k ≤ K, (t.replace a s).floor k = t.floor k) ↔ K < a ∨ t.floor a = some s := by
  constructor
  · intro h
    rcases lt_or_ge K a with hlt | hle
    · exact .inl hlt
    · exact .inr ((h a hle).symm.trans (floor_replace_self t a s))
  · rintro (hlt | hfloor) k hk
    · exact floor_replace_of_lt s (hk.trans_lt hlt)
    · exact floor_replace_of_floor hfloor k

end Timeline

/-! ## Amendments that fall due -/

/-- A new value for one slot of the state. The stamp says when it was made, and from which number
on it counts. -/
structure Amendment (τ ι ν : Type) where
  stamp : τ
  slot : ι
  value : ν

section Amendments

variable {τ ι ν : Type} [LinearOrder τ] (due : τ → ℕ)

/-- `v` is what slot `i` holds at `k`: the value of the amendment with the latest stamp among those
that are due, or the initial value. -/
def InForce (S : Set (Amendment τ ι ν)) (init : ι → ν) (i : ι) (k : ℕ) (v : ν) : Prop :=
  (∃ u ∈ S, u.slot = i ∧ due u.stamp ≤ k ∧ u.value = v ∧
      ∀ w ∈ S, w.slot = i → due w.stamp ≤ k → w.stamp ≤ u.stamp) ∨
    ((∀ w ∈ S, w.slot = i → k < due w.stamp) ∧ init i = v)

variable {due} {S S' : Set (Amendment τ ι ν)} {init : ι → ν} {i : ι} {k : ℕ} {v v' : ν}

/-- No two amendments of one slot have the same stamp. -/
def Stamped (S : Set (Amendment τ ι ν)) : Prop :=
  ∀ u ∈ S, ∀ w ∈ S, u.slot = w.slot → u.stamp = w.stamp → u.value = w.value

theorem InForce.unique (hS : Stamped S) (h : InForce due S init i k v)
    (h' : InForce due S init i k v') : v = v' := by
  rcases h with ⟨u, hu, hui, huk, rfl, humax⟩ | ⟨hnone, rfl⟩
  · rcases h' with ⟨w, hw, hwi, hwk, rfl, hwmax⟩ | ⟨hnone', -⟩
    · apply hS u hu w hw (hui.trans hwi.symm)
      exact le_antisymm (hwmax u hu hui huk) (humax w hw hwi hwk)
    · exact absurd huk (not_le.mpr (hnone' u hu hui))
  · rcases h' with ⟨w, hw, hwi, hwk, -, -⟩ | ⟨-, rfl⟩
    · exact absurd hwk (not_le.mpr (hnone w hw hwi))
    · rfl

theorem InForce.congr (h : InForce due S init i k v) {k' : ℕ}
    (heq : ∀ w, w.slot = i → ((w ∈ S ∧ due w.stamp ≤ k) ↔ (w ∈ S' ∧ due w.stamp ≤ k'))) :
    InForce due S' init i k' v := by
  rcases h with ⟨u, hu, hui, huk, huv, humax⟩ | ⟨hnone, hv⟩
  · obtain ⟨hu', huk'⟩ := (heq u hui).mp ⟨hu, huk⟩
    refine .inl ⟨u, hu', hui, huk', huv, fun w hw hwi hwk => ?_⟩
    obtain ⟨hw', hwk'⟩ := (heq w hwi).mpr ⟨hw, hwk⟩
    exact humax w hw' hwi hwk'
  · refine .inr ⟨fun w hw hwi => ?_, hv⟩
    by_contra hle
    obtain ⟨hw', hwk'⟩ := (heq w hwi).mpr ⟨hw, not_lt.mp hle⟩
    exact absurd hwk' (not_le.mpr (hnone w hw' hwi))

namespace Timeline

variable {σ : Type} (due) (read : ι → σ → ν) (write : ι → ν → σ → σ) (t : Timeline σ)

/-- Amend the version at the number where the amendment falls due. -/
def apply (u : Amendment τ ι ν) : Timeline σ :=
  t.replace (due u.stamp) (write u.slot u.value (t.source (due u.stamp)))

def applyAll (us : List (Amendment τ ι ν)) : Timeline σ :=
  us.foldl (apply due write) t

/-- Every version shows in slot `i` what is in force at its number. -/
def Follows (S : Set (Amendment τ ι ν)) (init : ι → ν) (i : ι) (t : Timeline σ) : Prop :=
  ∀ e ∈ t.entries, InForce due S init i e.1 (read i e.2)

/-- There is a version wherever an amendment falls due. -/
def Covers (S : Set (Amendment τ ι ν)) (t : Timeline σ) : Prop :=
  ∀ u ∈ S, ∃ s, (due u.stamp, s) ∈ t.entries

variable {due read write} {t : Timeline σ}

section

omit [LinearOrder τ]

theorem exists_mem_apply {u : Amendment τ ι ν} : (∃ s, (k, s) ∈ (apply due write t u).entries) ↔
      (∃ s, (k, s) ∈ t.entries) ∨ due u.stamp = k := by
  unfold apply
  simp only [mem_replace, Prod.mk.injEq]
  constructor
  · rintro ⟨s, ⟨hs, -⟩ | ⟨rfl, -⟩⟩
    · exact .inl ⟨s, hs⟩
    · exact .inr rfl
  · rintro (⟨s, hs⟩ | rfl)
    · by_cases hk : k = due u.stamp
      · exact ⟨_, .inr ⟨hk, rfl⟩⟩
      · exact ⟨s, .inl ⟨hs, hk⟩⟩
    · exact ⟨_, .inr ⟨rfl, rfl⟩⟩

theorem exists_mem_applyAll {us : List (Amendment τ ι ν)} :
    (∃ s, (k, s) ∈ (applyAll due write t us).entries) ↔
      (∃ s, (k, s) ∈ t.entries) ∨ ∃ u ∈ us, due u.stamp = k := by
  induction us generalizing t with
  | nil => simp [applyAll]
  | cons u us ih =>
    show (∃ s, (k, s) ∈ (applyAll due write (apply due write t u) us).entries) ↔ _
    rw [ih, exists_mem_apply, or_assoc]
    simp only [mem_cons, exists_eq_or_imp]

theorem applyAll_append (us ws : List (Amendment τ ι ν)) :
    applyAll due write t (us ++ ws) = applyAll due write (applyAll due write t us) ws :=
  foldl_append

theorem apply_apply (stamp : τ) (i j : ι) (v w : ν) :
    apply due write (apply due write t ⟨stamp, i, v⟩) ⟨stamp, j, w⟩ =
      t.replace (due stamp) (write j w (write i v (t.source (due stamp)))) := by
  unfold apply
  rw [source_replace, replace_replace]

theorem newest_apply_le {u : Amendment τ ι ν} {M : ℕ} (h : t.newest.1 ≤ M)
    (hu : due u.stamp ≤ M) : (apply due write t u).newest.1 ≤ M := by
  rcases mem_replace.mp (newest_mem (t := apply due write t u)) with ⟨hmem, -⟩ | heq
  · exact (le_newest hmem).trans h
  · rw [heq]
    exact hu

theorem Covers.apply (h : Covers due S t) (u : Amendment τ ι ν) :
    Covers due (insert u S) (Timeline.apply due write t u) := by
  rintro w (rfl | hw)
  · exact exists_mem_apply.mpr (.inr rfl)
  · exact exists_mem_apply.mpr (.inl (h w hw))

theorem Covers.applyAll (h : Covers due S t) (us : List (Amendment τ ι ν)) :
    Covers due (S ∪ {u | u ∈ us}) (applyAll due write t us) := by
  rintro u (hu | hu)
  · exact exists_mem_applyAll.mpr (.inl (h u hu))
  · exact exists_mem_applyAll.mpr (.inr ⟨u, hu, rfl⟩)

end

theorem Follows.floor (h : Follows due read S init i t)
    (hcov : ∀ u ∈ S, u.slot = i → ∃ s, (due u.stamp, s) ∈ t.entries) {s : σ}
    (hs : t.floor k = some s) : InForce due S init i k (read i s) := by
  obtain ⟨j, hj, hjk, hmax⟩ := floor_eq_some hs
  refine (h _ hj).congr fun w hwi => and_congr_right fun hw => ⟨fun hwj => hwj.trans hjk, ?_⟩
  intro hwk
  obtain ⟨s', hs'⟩ := hcov w hw hwi
  exact hmax _ hs' hwk

variable [DecidableEq ι] (hrw : ∀ i v s j, read j (write i v s) = if j = i then v else read j s)

include hrw

theorem Follows.apply {u : Amendment τ ι ν} (h : Follows due read S init i t)
    (hcov : Covers due S t) (hlast : t.newest.1 ≤ due u.stamp)
    (hnew : ∀ w ∈ S, w.slot = u.slot → w.stamp ≤ u.stamp) :
    Follows due read (insert u S) init i (apply due write t u) := by
  intro e he
  rcases mem_replace.mp he with ⟨he, hne⟩ | rfl
  · refine (h e he).congr fun w _ => ?_
    have hlt : e.1 < due u.stamp := lt_of_le_of_ne ((le_newest he).trans hlast) hne
    refine ⟨fun hw => ⟨mem_insert_of_mem _ hw.1, hw.2⟩, fun hw => ⟨?_, hw.2⟩⟩
    rcases mem_insert_iff.mp hw.1 with rfl | hwS
    · exact absurd hw.2 (not_le.mpr hlt)
    · exact hwS
  · show InForce due _ init i (due u.stamp) (read i (write u.slot u.value (t.source _)))
    rw [hrw, source_of_le hlast]
    split_ifs with hi
    · subst hi
      refine .inl ⟨u, mem_insert _ _, rfl, le_rfl, rfl, fun w hw hwi _ => ?_⟩
      rcases mem_insert_iff.mp hw with rfl | hw
      · exact le_rfl
      · exact hnew w hw hwi
    · refine (h _ newest_mem).congr fun w hwi => ?_
      have hwu : w ≠ u := fun hwu => hi (by rw [← hwi, hwu])
      rw [mem_insert_iff, or_iff_right hwu]
      refine and_congr_right fun hw => ⟨fun hle => hle.trans hlast, fun _ => ?_⟩
      obtain ⟨s, hs⟩ := hcov w hw
      exact le_newest hs

/-- **Amendments in the order in which they fall due.** -/
theorem Follows.applyAll {us : List (Amendment τ ι ν)} (h : Follows due read S init i t)
    (hcov : Covers due S t) (hlast : ∀ u ∈ us, t.newest.1 ≤ due u.stamp)
    (hnew : ∀ w ∈ S, ∀ u ∈ us, w.slot = u.slot → w.stamp ≤ u.stamp) (hord : us.Pairwise fun a b =>
      due a.stamp ≤ due b.stamp ∧ (a.slot = b.slot → a.stamp ≤ b.stamp)) :
    Follows due read (S ∪ {u | u ∈ us}) init i (applyAll due write t us) := by
  induction us generalizing t S with
  | nil =>
    have hset : S ∪ {u | u ∈ ([] : List (Amendment τ ι ν))} = S := by simp
    rw [hset]
    exact h
  | cons u us ih =>
    obtain ⟨hu, hus⟩ := pairwise_cons.mp hord
    have hset : S ∪ {w | w ∈ u :: us} = insert u S ∪ {w | w ∈ us} := by
      ext w
      simp only [mem_union, mem_ofPred_eq, mem_cons, mem_insert_iff]
      tauto
    rw [hset]
    apply ih
    · exact h.apply hrw hcov (hlast u mem_cons_self) fun w hw => hnew w hw u mem_cons_self
    · exact hcov.apply u
    · exact fun w hw => newest_apply_le (hlast w (mem_cons_of_mem _ hw)) (hu w hw).1
    · rintro w (rfl | hw) x hx hslot
      · exact (hu x hx).2 hslot
      · exact hnew w hw x (mem_cons_of_mem _ hx) hslot
    · exact hus

omit [LinearOrder τ] in
theorem read_apply_inPlace {u : Amendment τ ι ν} (hu : ∃ s, (due u.stamp, s) ∈ t.entries)
    {e : ℕ × σ} (he : e ∈ (Timeline.apply due write t u).entries) :
    ∃ s, (e.1, s) ∈ t.entries ∧
      read i e.2 = if i = u.slot ∧ due u.stamp = e.1 then u.value else read i s := by
  rcases mem_replace.mp he with ⟨he, hne⟩ | rfl
  · refine ⟨e.2, he, ?_⟩
    rw [if_neg fun h => hne h.2.symm]
  · obtain ⟨s, hs⟩ := hu
    refine ⟨s, hs, ?_⟩
    show read i (write u.slot u.value (t.source _)) = _
    rw [hrw, source_of_mem hs]
    simp

/-- What amendments of existing versions leave in a slot: the value of the last one that fell due
there, or what the version had. -/
theorem read_applyAll_inPlace {us : List (Amendment τ ι ν)}
    (hus : ∀ u ∈ us, ∃ s, (due u.stamp, s) ∈ t.entries)
    (hord : us.Pairwise fun a b => a.slot = b.slot → a.stamp ≤ b.stamp)
    {e : ℕ × σ} (he : e ∈ (Timeline.applyAll due write t us).entries) :
    (∃ u ∈ us, u.slot = i ∧ due u.stamp = e.1 ∧ u.value = read i e.2 ∧
        ∀ w ∈ us, w.slot = i → due w.stamp = e.1 → w.stamp ≤ u.stamp) ∨
      ((∀ w ∈ us, w.slot = i → due w.stamp ≠ e.1) ∧
        ∃ s, (e.1, s) ∈ t.entries ∧ read i s = read i e.2) := by
  induction us generalizing t with
  | nil => exact .inr ⟨fun w hw => absurd hw not_mem_nil, e.2, he, rfl⟩
  | cons u us ih =>
    obtain ⟨hu, hrest⟩ := pairwise_cons.mp hord
    have hus' : ∀ w ∈ us, ∃ s, (due w.stamp, s) ∈ (Timeline.apply due write t u).entries :=
      fun w hw => exists_mem_apply.mpr (.inl (hus w (mem_cons_of_mem _ hw)))
    rcases ih hus' hrest he with ⟨w, hw, hwi, hwk, hwv, hwmax⟩ | ⟨hnone, s, hs, hread⟩
    · refine .inl ⟨w, mem_cons_of_mem _ hw, hwi, hwk, hwv, fun x hx hxi hxk => ?_⟩
      rcases mem_cons.mp hx with rfl | hx
      · exact hu w hw (hxi.trans hwi.symm)
      · exact hwmax x hx hxi hxk
    · obtain ⟨s', hs', hread'⟩ :=
        read_apply_inPlace (i := i) hrw (hus u mem_cons_self) hs
      rw [hread] at hread'
      split_ifs at hread' with hcase
      · refine .inl ⟨u, mem_cons_self, hcase.1.symm, hcase.2, hread'.symm, ?_⟩
        intro x hx hxi hxk
        rcases mem_cons.mp hx with rfl | hx
        · exact le_rfl
        · exact absurd hxk (hnone x hx hxi)
      · refine .inr ⟨fun w hw hwi hwk => ?_, s', hs', hread'.symm⟩
        rcases mem_cons.mp hw with rfl | hw
        · exact hcase ⟨hwi.symm, hwk⟩
        · exact hnone w hw hwi hwk

/-- **Amendments of versions that exist.** Where one falls due, all amendments of its slot due
there are among them; elsewhere nothing new is due. -/
theorem Follows.inPlace {us : List (Amendment τ ι ν)} (hdue : Monotone due)
    (h : Follows due read S init i t) (hus : ∀ u ∈ us, ∃ s, (due u.stamp, s) ∈ t.entries)
    (hord : us.Pairwise fun a b => a.slot = b.slot → a.stamp ≤ b.stamp)
    (hmem : ∀ u ∈ us, u.slot = i → u ∈ S')
    (hall : ∀ u ∈ us, u.slot = i → ∀ w ∈ S', w.slot = i → due w.stamp = due u.stamp → w ∈ us)
    (hnone : ∀ e ∈ t.entries, (∀ u ∈ us, u.slot = i → due u.stamp ≠ e.1) →
      ∀ w, w.slot = i → due w.stamp ≤ e.1 → (w ∈ S ↔ w ∈ S')) :
    Follows due read S' init i (Timeline.applyAll due write t us) := by
  intro e he
  rcases read_applyAll_inPlace (i := i) hrw hus hord he with
    ⟨u, hu, hui, huk, huv, humax⟩ | ⟨hno, s, hs, hread⟩
  · refine .inl ⟨u, hmem u hu hui, hui, huk.le, huv, fun w hw hwi hwk => ?_⟩
    rcases hwk.lt_or_eq with hlt | heq
    · by_contra hgt
      have := hdue (not_le.mp hgt).le
      omega
    · exact humax w (hall u hu hui w hw hwi (heq.trans huk.symm)) hwi heq
  · rw [← hread]
    refine (h _ hs).congr fun w hwi => ?_
    exact and_congr_left fun hle => hnone _ hs hno w hwi hle

omit hrw [DecidableEq ι] in
theorem exists_split (hdue : Monotone due) (M : ℕ) {us : List (Amendment τ ι ν)}
    (hord : us.Pairwise fun a b => a.stamp ≤ b.stamp) :
    ∃ old new, us = old ++ new ∧ (∀ u ∈ old, due u.stamp ≤ M) ∧ ∀ u ∈ new, M < due u.stamp := by
  induction us with
  | nil => exact ⟨[], [], rfl, by simp, by simp⟩
  | cons u us ih =>
    obtain ⟨hu, hus⟩ := pairwise_cons.mp hord
    by_cases huM : due u.stamp ≤ M
    · obtain ⟨old, new, rfl, hold, hnew⟩ := ih hus
      exact ⟨u :: old, new, rfl, forall_mem_cons.mpr ⟨huM, hold⟩, hnew⟩
    · refine ⟨[], u :: us, rfl, by simp, forall_mem_cons.mpr ⟨not_le.mp huM, fun w hw => ?_⟩⟩
      exact (not_le.mp huM).trans_le (hdue (hu w hw))

/-- **Replay.** The amendments of a store, in the order of their stamps, over versions that
already follow a part of them: what the part lacks falls due at the newest version or later. -/
theorem Follows.replay {us : List (Amendment τ ι ν)} (hdue : Monotone due)
    (h : Follows due read S init i t) (hcov : Covers due S t)
    (hmade : ∀ u ∈ us, due u.stamp ≤ t.newest.1 → ∃ s, (due u.stamp, s) ∈ t.entries)
    (hsub : ∀ u ∈ us, u.slot = i → ∀ w ∈ S, w.slot = i → w ∈ us)
    (hlate : ∀ u ∈ us, u.slot = i → u ∉ S → t.newest.1 ≤ due u.stamp)
    (hord : us.Pairwise fun a b => a.stamp ≤ b.stamp) :
    Follows due read (S ∪ {u | u ∈ us}) init i (Timeline.applyAll due write t us) := by
  obtain ⟨old, new, rfl, hold, hnew⟩ := exists_split hdue t.newest.1 hord
  obtain ⟨hordOld, hordNew, -⟩ := pairwise_append.mp hord
  have hmadeOld : ∀ u ∈ old, ∃ s, (due u.stamp, s) ∈ t.entries := fun u hu =>
    hmade u (mem_append_left _ hu) (hold u hu)
  have hfirst : Follows due read (S ∪ {u | u ∈ old}) init i (Timeline.applyAll due write t old) := by
    have hordSlot : old.Pairwise fun a b => a.slot = b.slot → a.stamp ≤ b.stamp := by
      refine hordOld.imp ?_
      intro a b hab _
      exact hab
    apply h.inPlace hrw hdue hmadeOld hordSlot
    · exact fun u hu _ => .inr hu
    · rintro u hu hui w (hw | hw) hwi hwu
      · rcases mem_append.mp (hsub u (mem_append_left _ hu) hui w hw hwi) with hw | hw
        · exact hw
        · have := hnew w hw
          have := hold u hu
          omega
      · exact hw
    · intro e he hnone w hwi hwe
      refine ⟨.inl, fun hw => ?_⟩
      rcases hw with hw | hw
      · exact hw
      · by_contra hwS
        have hle := hlate w (mem_append_left _ hw) hwi hwS
        have := le_newest he
        exact hnone w hw hwi (by omega)
  have hcovOld : Covers due (S ∪ {u | u ∈ old}) (Timeline.applyAll due write t old) :=
    hcov.applyAll old
  have hset : S ∪ {u | u ∈ old ++ new} = S ∪ {u | u ∈ old} ∪ {u | u ∈ new} := by
    ext u
    simp only [mem_union, mem_ofPred_eq, mem_append]
    tauto
  rw [hset, applyAll_append]
  apply hfirst.applyAll hrw hcovOld
  · intro u hu
    have hkey : ∃ s, ((Timeline.applyAll due write t old).newest.1, s) ∈
        (Timeline.applyAll due write t old).entries := ⟨_, newest_mem⟩
    rcases exists_mem_applyAll.mp hkey with ⟨s, hs⟩ | ⟨w, hw, hwk⟩
    · exact (le_newest hs).trans (hnew u hu).le
    · exact hwk.symm.le.trans ((hold w hw).trans (hnew u hu).le)
  · intro w hw u hu _
    by_contra hgt
    have hmono := hdue (not_le.mp hgt).le
    have hlt := hnew u hu
    have hle : due w.stamp ≤ t.newest.1 := by
      rcases hw with hw | hw
      · obtain ⟨s, hs⟩ := hcov w hw
        exact le_newest hs
      · exact hold w hw
    omega
  · exact hordNew.imp fun hab => ⟨hdue hab, fun _ => hab⟩

end Timeline

end Amendments

end Verif
