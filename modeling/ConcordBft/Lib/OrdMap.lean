import Mathlib.Order.Lattice
import Mathlib.Data.List.Induction
import Mathlib.Data.List.Pairwise

/-!
# Ordered containers with a user supplied comparison

`OrdSet.insert` and `OrdMap.upsert` are the insertion of an ordered set and the element access
of an ordered map: a lower-bound search with the comparison `lt`, followed by an insertion when
the element found there is not equivalent. Nothing is assumed of `lt` in the definitions, so
they also say what happens when the comparison is not the order it should be.

For a comparison that compares a key in a linear order, a set built by insertions holds, for
every key, the first element inserted with that key (`OrdSet.mem_ofList`), in increasing order
of the keys (`OrdSet.sorted_ofList`).
-/

namespace Verif

open List

namespace OrdSet

variable {α κ : Type*}

/-- Insertion into an ordered set: an equivalent element stays. -/
def insert (lt : α → α → Bool) (x : α) : List α → List α
  | [] => [x]
  | y :: l => if lt y x then y :: insert lt x l else if lt x y then x :: y :: l else y :: l

variable (lt : α → α → Bool)

theorem length_le_insert (x : α) (l : List α) : l.length ≤ (insert lt x l).length := by
  induction l with
  | nil => exact Nat.zero_le _
  | cons y l ih =>
    rw [insert]
    split_ifs
    · exact Nat.succ_le_succ ih
    · exact Nat.le_succ _
    · exact Nat.le_refl _

/-- The set after inserting the elements of a list in order. -/
def ofList (l : List α) : List α := l.foldl (fun s x => insert lt x s) []

theorem ofList_concat (l : List α) (x : α) : ofList lt (l ++ [x]) = insert lt x (ofList lt l) := by
  simp [ofList, foldl_append]

def Sorted [LT κ] (key : α → κ) (l : List α) : Prop := l.Pairwise fun a b => key a < key b

section Keyed

variable [LinearOrder κ] {key : α → κ} {lt : α → α → Bool}
  (hlt : ∀ a b, lt a b = true ↔ key a < key b)

include hlt

variable {l : List α} {x y : α}

theorem mem_insert (hs : Sorted key l) :
    y ∈ insert lt x l ↔ y ∈ l ∨ (y = x ∧ ∀ z ∈ l, key z ≠ key x) := by
  induction l with
  | nil => simp [insert]
  | cons z l ih =>
    obtain ⟨hz, hl⟩ := pairwise_cons.mp hs
    unfold insert
    split_ifs with h1 h2
    · rw [mem_cons, ih hl, forall_mem_cons, mem_cons, or_assoc, and_iff_right ((hlt z x).mp h1).ne]
    · have h := (hlt x z).mp h2
      have hne : ∀ w ∈ z :: l, key w ≠ key x :=
        forall_mem_cons.mpr ⟨h.ne', fun w hw => (h.trans (hz w hw)).ne'⟩
      rw [mem_cons, and_iff_left hne, or_comm]
    · rw [hlt, not_lt] at h1 h2
      simp [le_antisymm h2 h1]

theorem sorted_insert (hs : Sorted key l) : Sorted key (insert lt x l) := by
  induction l with
  | nil => simp [insert, Sorted]
  | cons z l ih =>
    obtain ⟨hz, hl⟩ := pairwise_cons.mp hs
    unfold insert
    split_ifs with h1 h2
    · refine pairwise_cons.mpr ⟨fun w hw => ?_, ih hl⟩
      rcases (mem_insert hlt hl).1 hw with hw | ⟨rfl, -⟩
      · exact hz w hw
      · exact (hlt z w).mp h1
    · have h := (hlt x z).mp h2
      exact pairwise_cons.mpr ⟨forall_mem_cons.mpr ⟨h, fun w hw => h.trans (hz w hw)⟩, hs⟩
    · exact hs

theorem sorted_ofList (l : List α) : Sorted key (ofList lt l) := by
  induction l using reverseRecOn with
  | nil => simp [ofList, Sorted]
  | append_singleton l x ih =>
    rw [ofList_concat]
    exact sorted_insert hlt ih

/-- A set built by insertions holds, for every key, the first element inserted with it. -/
theorem mem_ofList [DecidableEq κ] :
    y ∈ ofList lt l ↔ l.find? (fun z => decide (key z = key y)) = some y := by
  induction l using reverseRecOn generalizing y with
  | nil => simp [ofList]
  | append_singleton l x ih =>
    rw [ofList_concat, mem_insert hlt (sorted_ofList hlt l), ih, find?_append]
    have hfirst : (∀ z ∈ ofList lt l, key z ≠ key x) ↔
        l.find? (fun z => decide (key z = key x)) = none := by
      rw [find?_eq_none]
      constructor
      · intro h z hz hzx
        have hzx : key z = key x := by simpa using hzx
        obtain ⟨w, hw⟩ := Option.isSome_iff_exists.1
          (find?_isSome.2 ⟨z, hz, by simpa using hzx⟩ :
            (l.find? fun z => decide (key z = key x)).isSome)
        have hwx : key w = key x := by simpa using find?_some hw
        refine h w (ih.2 ?_) hwx
        rw [hwx]; exact hw
      · intro h z hz
        have hmem := mem_of_find?_eq_some (ih.1 hz)
        simpa using h z hmem
    rw [hfirst]
    constructor
    · rintro (h | ⟨rfl, h⟩)
      · rw [h]; rfl
      · rw [h]; simp
    · intro h
      rcases hl : l.find? (fun z => decide (key z = key y)) with _ | w
      · rw [hl, Option.none_or] at h
        have hyx : y = x := mem_singleton.mp (mem_of_find?_eq_some h)
        subst hyx
        exact .inr ⟨rfl, hl⟩
      · rw [hl] at h
        exact .inl h

theorem insert_of_forall_lt (h : ∀ y ∈ l, key y < key x) : insert lt x l = l ++ [x] := by
  induction l with
  | nil => rfl
  | cons y l ih =>
    rw [insert, if_pos ((hlt y x).2 (h y mem_cons_self)),
      ih fun z hz => h z (mem_cons_of_mem y hz), cons_append]

theorem ofList_of_sorted (hs : Sorted key l) : ofList lt l = l := by
  induction l using reverseRecOn with
  | nil => rfl
  | append_singleton l x ih =>
    obtain ⟨hl, -, hx⟩ := pairwise_append.mp hs
    rw [ofList_concat, ih hl, insert_of_forall_lt hlt]
    exact fun y hy => hx y hy x (mem_singleton_self x)

theorem mem_ofList_of_injective [DecidableEq κ] (hkey : Function.Injective key) :
    y ∈ ofList lt l ↔ y ∈ l := by
  rw [mem_ofList hlt]
  constructor
  · exact mem_of_find?_eq_some
  · intro hy
    rcases hfind : l.find? (fun z => decide (key z = key y)) with _ | z
    · have := find?_eq_none.mp hfind y hy
      simp at this
    · have hz : key z = key y := by simpa using find?_some hfind
      rw [hkey hz]

theorem nodup_ofList (l : List α) : (ofList lt l).Nodup :=
  (sorted_ofList hlt l).imp fun hab heq => hab.ne (congrArg key heq)

omit hlt in
theorem Sorted.eq_of_key_eq (hs : Sorted key l) (hx : x ∈ l) (hy : y ∈ l)
    (h : key x = key y) : x = y := by
  by_contra hne
  have hkeys : l.Pairwise fun a b => key a ≠ key b := hs.imp LT.lt.ne
  have : Std.Symm fun a b => key a ≠ key b := ⟨fun _ _ h => h.symm⟩
  exact hkeys.forall hx hy hne h

omit hlt in
theorem Sorted.find?_eq_some (hs : Sorted key l) {p : α → Bool}
    (h : l.find? p = some x) : x ∈ l ∧ p x = true ∧ ∀ y ∈ l, p y = true → key x ≤ key y := by
  obtain ⟨hx, before, after, rfl, hbefore⟩ := find?_eq_some_iff_append.mp h
  obtain ⟨-, hafter, -⟩ := pairwise_append.mp hs
  refine ⟨mem_append_right _ mem_cons_self, hx, fun y hy hp => ?_⟩
  rcases mem_append.mp hy with hy | hy
  · exact absurd (hbefore y hy) (by simp [hp])
  · rcases mem_cons.mp hy with rfl | hy
    · exact le_refl _
    · exact ((pairwise_cons.mp hafter).1 y hy).le

end Keyed

end OrdSet

namespace OrdMap

variable {κ ν : Type*}

/-- The map after `m[k] = f m[k]`, where `f` receives `none` when the access creates the entry. -/
def upsert (lt : κ → κ → Bool) (k : κ) (f : Option ν → ν) : List (κ × ν) → List (κ × ν)
  | [] => [(k, f none)]
  | (k', v) :: m =>
    if lt k' k then (k', v) :: upsert lt k f m
    else if lt k k' then (k, f none) :: (k', v) :: m
    else (k', f (some v)) :: m

variable {m : List (κ × ν)} {f : Option ν → ν} {k : κ} {lt : κ → κ → Bool}

/-- What an access leaves in the map: the old entries, a new entry under `k`, or an entry under a
key that the comparison cannot tell from `k`. -/
theorem mem_upsert {e : κ × ν} (h : e ∈ upsert lt k f m) : e ∈ m ∨ e = (k, f none) ∨
      ∃ k' v, (k', v) ∈ m ∧ lt k' k = false ∧ lt k k' = false ∧ e = (k', f (some v)) := by
  induction m with
  | nil => exact .inr (.inl (by simpa [upsert] using h))
  | cons p m ih =>
    obtain ⟨k', v⟩ := p
    unfold upsert at h
    split_ifs at h with h1 h2
    · rcases mem_cons.mp h with rfl | h
      · exact .inl mem_cons_self
      · rcases ih h with h | h | ⟨k'', v', hm, h⟩
        · exact .inl (mem_cons_of_mem _ h)
        · exact .inr (.inl h)
        · exact .inr (.inr ⟨k'', v', mem_cons_of_mem _ hm, h⟩)
    · rcases mem_cons.mp h with rfl | h
      · exact .inr (.inl rfl)
      · exact .inl h
    · rcases mem_cons.mp h with rfl | h
      · exact .inr (.inr ⟨k', v, mem_cons_self, by simpa using h1, by simpa using h2, rfl⟩)
      · exact .inl (mem_cons_of_mem _ h)

/-- With a comparison of keys in a linear order the keys stay strictly increasing. -/
theorem sorted_upsert {ι : Type*} [LinearOrder ι] {key : κ → ι}
    (hlt : ∀ a b, lt a b = true ↔ key a < key b) (hs : OrdSet.Sorted (fun e => key e.1) m) :
    OrdSet.Sorted (fun e => key e.1) (upsert lt k f m) := by
  induction m with
  | nil => simp [upsert, OrdSet.Sorted]
  | cons p m ih =>
    obtain ⟨k', v⟩ := p
    obtain ⟨hhead, htail⟩ := pairwise_cons.mp hs
    unfold upsert
    split_ifs with h1 h2
    · refine pairwise_cons.mpr ⟨?_, ih htail⟩
      intro e he
      rcases mem_upsert he with he | rfl | ⟨k'', v', hm, -, -, rfl⟩
      · exact hhead e he
      · exact (hlt k' k).mp h1
      · exact hhead (k'', v') hm
    · refine pairwise_cons.mpr ⟨?_, hs⟩
      have hk : key k < key k' := (hlt k k').mp h2
      exact forall_mem_cons.mpr ⟨hk, fun e he => hk.trans (hhead e he)⟩
    · exact pairwise_cons.mpr ⟨hhead, htail⟩

/-! ### Looking up -/

def get? [DecidableEq κ] (k : κ) : List (κ × ν) → Option ν
  | [] => none
  | (k', v) :: m => if k' = k then some v else get? k m

theorem mem_of_get? [DecidableEq κ] {v : ν} (h : get? k m = some v) : (k, v) ∈ m := by
  induction m with
  | nil => cases h
  | cons e m ih =>
    obtain ⟨k', v'⟩ := e
    unfold get? at h
    split_ifs at h with hk
    · rw [hk, Option.some.inj h]
      exact mem_cons_self
    · exact mem_cons_of_mem _ (ih h)

section Keyed

variable {ι : Type*} [LinearOrder ι] [DecidableEq κ] {key : κ → ι} {lt : κ → κ → Bool}
  (hinj : Function.Injective key) (hlt : ∀ a b, lt a b = true ↔ key a < key b)

theorem get?_eq_none_of_lt (h : ∀ e ∈ m, key k < key e.1) : get? k m = none := by
  induction m with
  | nil => rfl
  | cons e m ih =>
    obtain ⟨hhead, htail⟩ := forall_mem_cons.mp h
    obtain ⟨k', v⟩ := e
    rw [get?, if_neg fun hk => hhead.ne (by rw [hk]), ih htail]

theorem get?_of_mem {v : ν}
    (hs : OrdSet.Sorted (fun e => key e.1) m) (h : (k, v) ∈ m) : get? k m = some v := by
  induction m with
  | nil => cases h
  | cons e m ih =>
    obtain ⟨hhead, htail⟩ := pairwise_cons.mp hs
    obtain ⟨k', v'⟩ := e
    rcases mem_cons.mp h with heq | hmem
    · obtain ⟨rfl, rfl⟩ := Prod.mk.inj heq
      exact if_pos rfl
    · rw [get?, if_neg fun hk => (hhead _ hmem).ne (by rw [hk]), ih htail hmem]

include hinj hlt in
theorem get?_upsert (hs : OrdSet.Sorted (fun e => key e.1) m) (k' : κ) :
    get? k' (upsert lt k f m) = if k' = k then some (f (get? k m)) else get? k' m := by
  induction m with
  | nil =>
    unfold upsert get?
    exact ite_congr (propext eq_comm) (fun _ => rfl) fun _ => rfl
  | cons e m ih =>
    obtain ⟨hhead, htail⟩ := pairwise_cons.mp hs
    obtain ⟨k₀, v⟩ := e
    unfold upsert
    by_cases h₁ : lt k₀ k = true
    · have hne : k₀ ≠ k := fun h => ((hlt _ _).mp h₁).ne (by rw [h])
      rw [if_pos h₁, get?, ih htail, get?, get?, if_neg hne]
      by_cases hk : k' = k
      · rw [hk, if_pos rfl, if_neg hne, if_pos rfl]
      · rw [if_neg hk, if_neg hk]
    · by_cases h₂ : lt k k₀ = true
      · have hlt' : key k < key k₀ := (hlt _ _).mp h₂
        have hnone : get? k ((k₀, v) :: m) = none := get?_eq_none_of_lt
          (forall_mem_cons.mpr ⟨hlt', fun e he => hlt'.trans (hhead e he)⟩)
        rw [if_neg h₁, if_pos h₂, hnone, get?]
        exact ite_congr (propext eq_comm) (fun _ => rfl) fun _ => rfl
      · -- neither key is smaller
        have heq : k₀ = k := hinj (le_antisymm (not_lt.mp fun h => h₂ ((hlt _ _).mpr h))
          (not_lt.mp fun h => h₁ ((hlt _ _).mpr h)))
        rw [if_neg h₁, if_neg h₂, heq, get?, get?, if_pos rfl, get?]
        by_cases hk : k' = k
        · rw [hk, if_pos rfl, if_pos rfl]
        · rw [if_neg fun h => hk h.symm, if_neg hk, if_neg fun h => hk h.symm]

end Keyed

end OrdMap

end Verif
