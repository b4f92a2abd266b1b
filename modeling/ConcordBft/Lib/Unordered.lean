import Mathlib.Data.Finset.Card

/-!
# Unordered containers

An unordered map is the list of its entries in the order of their insertion. The order in which
such a map is iterated is not specified: it is a parameter, any function that permutes the
entries.

`Unordered.insert` keeps the entry that is already there for a key, so a map built by insertions
holds the first entry of every key.
-/

namespace Verif

open List

/-- An order of iteration over the entries of an unordered container. -/
structure IterationOrder (α : Type) where
  order : List α → List α
  perm : ∀ l, (order l).Perm l

namespace IterationOrder

variable {α : Type} (o : IterationOrder α)

def insertion (α : Type) : IterationOrder α := ⟨id, fun l => List.Perm.refl l⟩

theorem mem_order {l : List α} {a : α} : a ∈ o.order l ↔ a ∈ l := (o.perm l).mem_iff

theorem countP_order (p : α → Bool) (l : List α) : (o.order l).countP p = l.countP p :=
  (o.perm l).countP_eq p

end IterationOrder

namespace Unordered

variable {α κ : Type} [DecidableEq κ] (key : α → κ)

/-- Insertion of an entry; an entry with the same key stays. -/
def insert (x : α) (m : List α) : List α :=
  if m.any fun y => decide (key y = key x) then m else m ++ [x]

def ofList (l : List α) : List α := l.foldl (fun m x => insert key x m) []

theorem ofList_concat (l : List α) (x : α) :
    ofList key (l ++ [x]) = insert key x (ofList key l) := by
  unfold ofList
  rw [foldl_append]
  rfl

theorem insert_of_mem {x : α} {m : List α} (h : key x ∈ m.map key) : insert key x m = m := by
  unfold insert
  obtain ⟨y, hy, hyx⟩ := mem_map.mp h
  rw [if_pos (any_eq_true.mpr ⟨y, hy, by simpa using hyx⟩)]

theorem insert_of_not_mem {x : α} {m : List α} (h : key x ∉ m.map key) :
    insert key x m = m ++ [x] := by
  unfold insert
  rw [if_neg]
  intro hany
  obtain ⟨y, hy, hyx⟩ := any_eq_true.mp hany
  exact h (mem_map.mpr ⟨y, hy, by simpa using hyx⟩)

theorem nodup_ofList (l : List α) : ((ofList key l).map key).Nodup := by
  induction l using List.reverseRecOn with
  | nil => exact nodup_nil
  | append_singleton l x ih =>
    rw [ofList_concat]
    by_cases h : key x ∈ (ofList key l).map key
    · rw [insert_of_mem key h]
      exact ih
    · rw [insert_of_not_mem key h, map_append]
      exact nodup_append.mpr ⟨ih, by simp, by
        intro a ha b hb hab
        rw [map_singleton, mem_singleton] at hb
        rw [hab, hb] at ha
        exact h ha⟩

theorem ofList_eq_self {l : List α} (h : (l.map key).Nodup) : ofList key l = l := by
  induction l using List.reverseRecOn with
  | nil => rfl
  | append_singleton l x ih =>
    rw [map_append, map_singleton] at h
    have hl := ih (nodup_append.mp h).1
    have hx : key x ∉ (ofList key l).map key := by
      rw [hl]
      intro hmem
      exact (nodup_append.mp h).2.2 _ hmem _ (mem_singleton.mpr rfl) rfl
    rw [ofList_concat, insert_of_not_mem key hx, hl]

end Unordered

end Verif
