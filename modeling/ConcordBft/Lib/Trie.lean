import Mathlib.Data.List.Infix
import Mathlib.Data.Set.Insert

/-!
# Compact binary tries

A binary trie holds entries, each at a position on the path of its bits. It is compact if every
inner node has at least two entries below it, so that an entry alone in a subtree stands at the
root of that subtree. The operations are the subtrie at a position (`sub`) and its replacement
(`replace`). The hash of a compact trie is a function of the map that its entries form
(`hash_eq_refHash`).
-/

namespace Verif

open List

inductive Trie (α : Type)
  | empty
  | leaf (a : α)
  | node (l r : Trie α)

namespace Trie

variable {α : Type}

/-! ## Subtries -/

/-- The node whose child at `b` is `t` and whose other child is `s`. -/
def branch (b : Bool) (t s : Trie α) : Trie α := cond b (node s t) (node t s)

def child : Trie α → Bool → Trie α
  | node l r, b => cond b r l
  | _, _ => empty

/-- The subtrie at a position; below an entry there is nothing. -/
def sub (t : Trie α) (q : List Bool) : Trie α := q.foldl child t

def IsNode : Trie α → Prop
  | node _ _ => True
  | _ => False

def IsLeaf : Trie α → Prop
  | leaf _ => True
  | _ => False

@[simp] theorem not_isNode_empty : ¬ (empty : Trie α).IsNode := fun h => h

@[simp] theorem not_isNode_leaf (a : α) : ¬ (leaf a).IsNode := fun h => h

theorem IsNode.ne_empty {t : Trie α} (h : t.IsNode) : t ≠ empty := by
  rintro rfl
  exact h

theorem IsNode.not_isLeaf {t : Trie α} (h : t.IsNode) : ¬ t.IsLeaf := by
  cases t with
  | empty => exact fun h => h
  | leaf a => exact h.elim
  | node l r => exact fun h => h

@[simp] theorem child_branch (b : Bool) (t s : Trie α) : (branch b t s).child b = t := by
  cases b <;> rfl

@[simp] theorem child_branch_not (b : Bool) (t s : Trie α) : (branch b t s).child (!b) = s := by
  cases b <;> rfl

@[simp] theorem isNode_branch (b : Bool) (t s : Trie α) : (branch b t s).IsNode := by
  cases b <;> trivial

variable {t : Trie α} {q q' : List Bool}

theorem branch_child (h : t.IsNode) (b : Bool) : branch b (t.child b) (t.child !b) = t := by
  cases t with
  | empty => exact h.elim
  | leaf a => exact h.elim
  | node l r => cases b <;> rfl

@[simp] theorem child_empty (b : Bool) : (empty : Trie α).child b = empty := rfl

@[simp] theorem sub_nil (t : Trie α) : t.sub [] = t := rfl

@[simp] theorem sub_cons (t : Trie α) (b : Bool) (q : List Bool) :
    t.sub (b :: q) = (t.child b).sub q := rfl

theorem sub_append (t : Trie α) (q q' : List Bool) : t.sub (q ++ q') = (t.sub q).sub q' :=
  foldl_append

theorem sub_concat (t : Trie α) (q : List Bool) (b : Bool) :
    t.sub (q ++ [b]) = (t.sub q).child b := sub_append t q [b]

theorem sub_eq_node (h : (t.sub q).IsNode) :
    t.sub q = node (t.sub (q ++ [false])) (t.sub (q ++ [true])) := by
  rw [sub_concat, sub_concat]
  exact (branch_child h false).symm

@[simp] theorem sub_empty (q : List Bool) : (empty : Trie α).sub q = empty := by
  induction q with
  | nil => rfl
  | cons b q ih => exact ih

theorem sub_leaf {a : α} (h : q ≠ []) : (leaf a).sub q = empty := by
  cases q with
  | nil => exact absurd rfl h
  | cons b q => exact sub_empty q

theorem not_isNode_sub (h : ¬ t.IsNode) (q : List Bool) : ¬ (t.sub q).IsNode := by
  cases t with
  | empty => rwa [sub_empty]
  | leaf a =>
    by_cases hq : q = []
    · rwa [hq]
    · rw [sub_leaf hq]
      exact not_isNode_empty
  | node l r => exact absurd trivial h

theorem isNode_sub_of_ne_empty (hq' : q' ≠ [])
    (h : t.sub (q ++ q') ≠ empty) : (t.sub q).IsNode := by
  rw [sub_append] at h
  cases hsub : t.sub q with
  | empty => exact absurd (by rw [hsub, sub_empty]) h
  | leaf a => exact absurd (by rw [hsub, sub_leaf hq']) h
  | node l r => trivial

/-! ## Replacement -/

/-- The trie with another subtrie at the position. An entry above the position is dropped. -/
def replace : Trie α → List Bool → Trie α → Trie α
  | _, [], s => s
  | t, b :: q, s => branch b ((t.child b).replace q s) (t.child !b)

@[simp] theorem replace_nil (t s : Trie α) : t.replace [] s = s := by
  unfold replace
  rfl

theorem replace_cons (t : Trie α) (b : Bool) (q : List Bool) (s : Trie α) :
    t.replace (b :: q) s = branch b ((t.child b).replace q s) (t.child !b) := by
  rw [replace]

theorem isNode_replace (h : q ≠ []) (t s : Trie α) : (t.replace q s).IsNode := by
  cases q with
  | nil => exact absurd rfl h
  | cons b q =>
    rw [replace_cons]
    exact isNode_branch b _ _

theorem sub_replace_append (t : Trie α) (q q' : List Bool) (s : Trie α) :
    (t.replace (q ++ q') s).sub q = (t.sub q).replace q' s := by
  induction q generalizing t with
  | nil => rfl
  | cons b q ih => rw [cons_append, replace_cons, sub_cons, child_branch, ih, sub_cons]

@[simp] theorem sub_replace_self (t : Trie α) (q : List Bool) (s : Trie α) :
    (t.replace q s).sub q = s := by
  have h := sub_replace_append t q [] s
  rwa [append_nil, replace_nil] at h

theorem sub_replace_below (t : Trie α) (q q' : List Bool) (s : Trie α) :
    (t.replace q s).sub (q ++ q') = s.sub q' := by
  rw [sub_append, sub_replace_self]

theorem sub_replace_of_not_isPrefix {s : Trie α} (h : ¬ q <+: q')
    (h' : ¬ q' <+: q) : (t.replace q s).sub q' = t.sub q' := by
  induction q generalizing t q' with
  | nil => exact absurd nil_prefix h
  | cons b q ih =>
    cases q' with
    | nil => exact absurd nil_prefix h'
    | cons b' q' =>
      rw [replace_cons, sub_cons, sub_cons]
      by_cases hb : b' = b
      · subst hb
        rw [child_branch]
        exact ih (fun hpre => h (cons_prefix_cons.mpr ⟨rfl, hpre⟩))
          (fun hpre => h' (cons_prefix_cons.mpr ⟨rfl, hpre⟩))
      · rw [Bool.eq_not.mpr hb, child_branch_not]

theorem isNode_sub_replace (h : q' <+: q) (b : Bool) (t s : Trie α) :
    ((t.replace (q ++ [b]) s).sub q').IsNode := by
  obtain ⟨q'', rfl⟩ := h
  rw [append_assoc, sub_replace_append]
  exact isNode_replace (by simp) _ _

theorem replace_append (t : Trie α) (q q' : List Bool) (s : Trie α) :
    t.replace (q ++ q') s = t.replace q ((t.sub q).replace q' s) := by
  induction q generalizing t with
  | nil => rw [nil_append, replace_nil, sub_nil]
  | cons b q ih => rw [cons_append, replace_cons, replace_cons, ih, sub_cons]

/-! ## Entries -/

def Has (a : α) : Trie α → Prop
  | empty => False
  | leaf b => a = b
  | node l r => Has a l ∨ Has a r

instance : Membership α (Trie α) := ⟨fun t a => Has a t⟩

@[simp] theorem mem_empty (a : α) : ¬ a ∈ (empty : Trie α) := fun h => h

@[simp] theorem mem_leaf (a b : α) : a ∈ leaf b ↔ a = b := Iff.rfl

@[simp] theorem mem_node (a : α) (l r : Trie α) : a ∈ node l r ↔ a ∈ l ∨ a ∈ r := Iff.rfl

@[simp] theorem mem_branch (a : α) (b : Bool) (t s : Trie α) :
    a ∈ branch b t s ↔ a ∈ t ∨ a ∈ s := by
  cases b
  · exact Iff.rfl
  · exact or_comm

theorem mem_iff_child (h : ¬ t.IsLeaf) (a : α) (b : Bool) :
    a ∈ t ↔ a ∈ t.child b ∨ a ∈ t.child !b := by
  cases t with
  | empty => simp
  | leaf a => exact absurd trivial h
  | node l r =>
    have hnode : (node l r).IsNode := trivial
    rw [← mem_branch, branch_child hnode]

theorem mem_replace_of_not_isNode (h : ¬ t.IsNode) (q : List Bool) (s : Trie α)
    (a : α) : a ∈ t.replace q s ↔ a ∈ s := by
  induction q generalizing t with
  | nil => rw [replace_nil]
  | cons b q ih =>
    have hempty : t.replace (b :: q) s = empty.replace (b :: q) s := by
      cases t with
      | empty | leaf => rfl
      | node l r => exact absurd trivial h
    rw [hempty, replace_cons, mem_branch, child_empty, child_empty, ih not_isNode_empty]
    simp

section Placed

variable (bits : α → List Bool)

/-- Every entry below the position `p` stands on the path of its bits. -/
def Placed : List Bool → Trie α → Prop
  | _, empty => True
  | p, leaf a => p <+: bits a
  | p, node l r => Placed (p ++ [false]) l ∧ Placed (p ++ [true]) r

variable {bits} {p : List Bool} {t s : Trie α}

variable {a : α} {b : Bool} {q : List Bool}

theorem placed_leaf : Placed bits p (leaf a) ↔ p <+: bits a := Iff.rfl

theorem placed_branch :
    Placed bits p (branch b t s) ↔ Placed bits (p ++ [b]) t ∧ Placed bits (p ++ [!b]) s := by
  cases b
  · exact Iff.rfl
  · exact and_comm

theorem Placed.child (h : Placed bits p t) (b : Bool) : Placed bits (p ++ [b]) (t.child b) := by
  cases t with
  | empty => trivial
  | leaf a => trivial
  | node l r =>
    cases b
    · exact h.1
    · exact h.2

theorem Placed.sub (h : Placed bits p t) (q : List Bool) : Placed bits (p ++ q) (t.sub q) := by
  induction q generalizing p t with
  | nil => rwa [append_nil]
  | cons b q ih =>
    have hchild := ih (h.child b)
    rwa [append_assoc, singleton_append] at hchild

theorem Placed.prefix_bits (h : Placed bits p t) (ha : a ∈ t) : p <+: bits a := by
  induction t generalizing p with
  | empty => exact ha.elim
  | leaf b =>
    rw [mem_leaf] at ha
    subst ha
    exact h
  | node l r ihl ihr =>
    rcases ha with ha | ha
    · exact (prefix_append p _).trans (ihl h.1 ha)
    · exact (prefix_append p _).trans (ihr h.2 ha)

theorem Placed.replace (h : Placed bits p t) (hs : Placed bits (p ++ q) s) :
    Placed bits p (t.replace q s) := by
  induction q generalizing p t with
  | nil => rwa [replace_nil, ← append_nil p]
  | cons b q ih =>
    rw [replace_cons, placed_branch]
    refine ⟨ih (h.child b) ?_, h.child !b⟩
    rwa [append_assoc, singleton_append]

theorem not_prefix_of_ne {p l : List Bool} {b' : Bool} (h : p ++ [b] <+: l) (hb : b' ≠ b) :
    ¬ p ++ [b'] <+: l := by
  intro h'
  have heq := (prefix_of_prefix_length_le h h' (by simp)).eq_of_length (by simp)
  exact hb (cons.inj (append_cancel_left heq)).1.symm

theorem prefix_concat_not {u l : List Bool} (h : u <+: l) (hlt : u.length < l.length)
    (hnot : ¬ u ++ [b] <+: l) : u ++ [!b] <+: l := by
  obtain ⟨rest, rfl⟩ := h
  cases rest with
  | nil => simp at hlt
  | cons b' rest =>
    rcases Bool.eq_or_eq_not b' b with rfl | rfl
    · exact absurd ⟨rest, by simp⟩ hnot
    · exact ⟨rest, by simp⟩

/-- `t'` has the entries of `t` except that the one with the bits `k` is replaced by `o`. -/
def Updated (bits : α → List Bool) (k : List Bool) (o : Option α) (t t' : Trie α) : Prop :=
  ∀ a, a ∈ t' ↔ o = some a ∨ a ∈ t ∧ bits a ≠ k

/-- There is no entry on the way to the position. -/
def Open (t : Trie α) (q : List Bool) : Prop :=
  ∀ q' q'', q' ++ q'' = q → q'' ≠ [] → ¬ (t.sub q').IsLeaf

theorem Open.child (h : Open t (b :: q)) : Open (t.child b) q :=
  fun q' q'' heq => h (b :: q') q'' (by rw [cons_append, heq])

theorem open_of_sub_ne_empty (h : t.sub q ≠ empty) : Open t q := by
  intro q' q'' heq hq''
  rw [← heq] at h
  exact (isNode_sub_of_ne_empty hq'' h).not_isLeaf

theorem open_of_isNode (h : (t.sub q).IsNode) : Open t q := open_of_sub_ne_empty h.ne_empty

theorem Placed.mem_child (h : Placed bits p t) (hroot : ¬ t.IsLeaf) (ha : a ∈ t)
    (hb : p ++ [b] ++ q <+: bits a) : a ∈ t.child b := by
  refine ((mem_iff_child hroot a b).mp ha).resolve_right fun hside => ?_
  exact not_prefix_of_ne ((prefix_append _ q).trans hb) (by simp) ((h.child !b).prefix_bits hside)

theorem mem_sub (hplaced : Placed bits p t) (hopen : Open t q)
    (ha : a ∈ t) (hq : p ++ q <+: bits a) : a ∈ t.sub q := by
  induction q generalizing p t with
  | nil => exact ha
  | cons b q ih =>
    have hroot : ¬ t.IsLeaf := hopen [] (b :: q) rfl (by simp)
    rw [← singleton_append, ← append_assoc] at hq
    exact ih (hplaced.child b) hopen.child (hplaced.mem_child hroot ha hq) hq

theorem mem_of_mem_sub (h : a ∈ t.sub q) : a ∈ t := by
  induction q generalizing t with
  | nil => exact h
  | cons b q ih =>
    have ha : a ∈ t.child b := ih h
    cases t with
    | empty => exact ha
    | leaf c => exact ha.elim
    | node l r =>
      cases b with
      | false => exact .inl ha
      | true => exact .inr ha

/-- The leaf of an entry stands within the first `d` levels, or below a node at level `d`. -/
theorem leaf_or_isNode_of_mem (h : a ∈ t) (d : ℕ) : (∃ q, q.length ≤ d ∧ t.sub q = leaf a) ∨
      ∃ q, q.length = d ∧ (t.sub q).IsNode ∧ a ∈ t.sub q := by
  induction d with
  | zero =>
    cases t with
    | empty => exact h.elim
    | leaf b =>
      obtain rfl := (mem_leaf a b).mp h
      exact .inl ⟨[], le_rfl, rfl⟩
    | node l r => exact .inr ⟨[], rfl, trivial, h⟩
  | succ d ih =>
    rcases ih with ⟨q, hq, hleaf⟩ | ⟨q, hq, hnode, ha⟩
    · exact .inl ⟨q, Nat.le_succ_of_le hq, hleaf⟩
    · have hleaf := hnode.not_isLeaf
      obtain ⟨b, hb⟩ : ∃ b, a ∈ t.sub (q ++ [b]) := by
        simp only [sub_concat]
        rcases (mem_iff_child hleaf a false).mp ha with h | h
        · exact ⟨false, h⟩
        · exact ⟨true, h⟩
      have hlen : (q ++ [b]).length = d + 1 := by
        rw [length_append, hq, length_singleton]
      cases hsub : t.sub (q ++ [b]) with
      | empty =>
        rw [hsub] at hb
        exact hb.elim
      | leaf c =>
        rw [hsub] at hb
        obtain rfl := (mem_leaf a c).mp hb
        exact .inl ⟨q ++ [b], hlen.le, hsub⟩
      | node l r =>
        refine .inr ⟨q ++ [b], hlen, ?_, hb⟩
        rw [hsub]
        trivial

theorem isNode_of_two {b : α} (ha : a ∈ t) (hb : b ∈ t) (hne : a ≠ b) : t.IsNode := by
  cases t with
  | empty => exact ha
  | leaf c => exact hne (ha.trans hb.symm)
  | node l r => trivial

theorem isNode_sub_of_two {b : α} (hplaced : Placed bits p t) (ha : a ∈ t)
    (hb : b ∈ t) (hne : a ≠ b) (hqa : p ++ q <+: bits a) (hqb : p ++ q <+: bits b) :
    (t.sub q).IsNode := by
  induction q generalizing p t with
  | nil => exact isNode_of_two ha hb hne
  | cons d q ih =>
    have hroot := (isNode_of_two ha hb hne).not_isLeaf
    rw [← singleton_append, ← append_assoc] at hqa hqb
    exact ih (hplaced.child d) (hplaced.mem_child hroot ha hqa) (hplaced.mem_child hroot hb hqb)
      hqa hqb

theorem Updated.replace {k : List Bool} {o : Option α} (hplaced : Placed bits p t)
    (hopen : Open t q) (hk : p ++ q <+: k) (h : Updated bits k o (t.sub q) s) :
    Updated bits k o t (t.replace q s) := by
  induction q generalizing p t with
  | nil => rwa [replace_nil]
  | cons b q ih =>
    intro a
    have hb : p ++ [b] <+: k := (prefix_append (p ++ [b]) q).trans
      (by rwa [append_assoc, singleton_append])
    have hroot : ¬ t.IsLeaf := hopen [] (b :: q) rfl (by simp)
    have hside : a ∈ t.child (!b) → bits a ≠ k := by
      intro ha heq
      have hpre := (hplaced.child !b).prefix_bits ha
      rw [heq] at hpre
      exact not_prefix_of_ne hb (by simp) hpre
    rw [replace_cons, mem_branch, mem_iff_child hroot a b,
      ih (hplaced.child b) hopen.child (by rwa [append_assoc, singleton_append]) h a]
    constructor
    · rintro ((ho | ⟨ha, hne⟩) | ha)
      · exact .inl ho
      · exact .inr ⟨.inl ha, hne⟩
      · exact .inr ⟨.inr ha, hside ha⟩
    · rintro (ho | ⟨ha | ha, hne⟩)
      · exact .inl (.inl ho)
      · exact .inl (.inr ⟨ha, hne⟩)
      · exact .inr ha

/-! ## Compact tries -/

/-- Two subtries side by side hold at least two entries. -/
def Two (t s : Trie α) : Prop := t ≠ empty ∧ s ≠ empty ∨ t.IsNode ∨ s.IsNode

theorem Two.symm (h : Two t s) : Two s t := by
  rcases h with h | h | h
  · exact .inl h.symm
  · exact .inr (.inr h)
  · exact .inr (.inl h)

def Compact : Trie α → Prop
  | empty => True
  | leaf _ => True
  | node l r => Two l r ∧ Compact l ∧ Compact r

@[simp] theorem compact_empty : Compact (empty : Trie α) := trivial

@[simp] theorem compact_leaf (a : α) : Compact (leaf a) := trivial

theorem compact_branch : Compact (branch b t s) ↔ Two t s ∧ Compact t ∧ Compact s := by
  cases b
  · exact Iff.rfl
  · exact ⟨fun ⟨h, ht, hs⟩ => ⟨h.symm, hs, ht⟩, fun ⟨h, ht, hs⟩ => ⟨h.symm, hs, ht⟩⟩

theorem Compact.child (h : Compact t) (b : Bool) : Compact (t.child b) := by
  cases t with
  | empty => trivial
  | leaf a => trivial
  | node l r =>
    cases b
    · exact h.2.1
    · exact h.2.2

theorem Compact.sub (h : Compact t) (q : List Bool) : Compact (t.sub q) := by
  induction q generalizing t with
  | nil => exact h
  | cons b q ih => exact ih (h.child b)

/-- Beside an entry in a compact trie there is another one. -/
theorem Compact.two (h : Compact t) (hnode : t.IsNode) (b : Bool) :
    Two (t.child b) (t.child !b) := by
  rw [← branch_child hnode b, compact_branch] at h
  exact h.1

theorem Compact.replace (h : Compact t) (hs : Compact s)
    (hfits : ∀ q' b, q = q' ++ [b] → Two s (t.sub (q' ++ [!b]))) : Compact (t.replace q s) := by
  induction q generalizing t with
  | nil => rwa [replace_nil]
  | cons b q ih =>
    rw [replace_cons, compact_branch]
    refine ⟨?_, ih (h.child b) fun q' b' heq => hfits (b :: q') b' (by rw [heq]; rfl), h.child !b⟩
    rcases q with _ | ⟨b', q⟩
    · rw [replace_nil]
      exact hfits [] b rfl
    · exact .inr (.inl (isNode_replace (by simp) _ _))

/-- The root of a trie may have a single entry below it. -/
def ChildrenCompact (t : Trie α) : Prop := ∀ b, Compact (t.child b)

theorem Compact.childrenCompact (h : Compact t) : ChildrenCompact t := h.child

theorem ChildrenCompact.sub (h : ChildrenCompact t) (hq : q ≠ []) : Compact (t.sub q) := by
  cases q with
  | nil => exact absurd rfl hq
  | cons b q => exact (h b).sub q

theorem ChildrenCompact.two (h : ChildrenCompact t) (hq : q ≠ [])
    (hnode : (t.sub q).IsNode) (b : Bool) : Two (t.sub (q ++ [b])) (t.sub (q ++ [!b])) := by
  rw [sub_concat, sub_concat]
  exact (h.sub hq).two hnode b

theorem Two.of_empty (h : Two empty s) : s.IsNode := by
  rcases h with h | h | h
  · exact absurd rfl h.1
  · exact h.elim
  · exact h

theorem Two.of_leaf {a' : α} (h : Two (leaf a) s) : Two (leaf a') s := by
  rcases h with h | h | h
  · exact .inl ⟨by simp, h.2⟩
  · exact h.elim
  · exact .inr (.inr h)

theorem ChildrenCompact.replace (h : ChildrenCompact t) (hs : Compact s) (hq : q ≠ [])
    (hfits : ∀ q' b, q' ≠ [] → q = q' ++ [b] → Two s (t.sub (q' ++ [!b]))) :
    ChildrenCompact (t.replace q s) := by
  rcases q with _ | ⟨b, q⟩
  · exact absurd rfl hq
  · have hchild : Compact ((t.child b).replace q s) :=
      (h b).replace hs fun q' b' heq => hfits (b :: q') b' (by simp) (by rw [heq]; rfl)
    intro b'
    rw [replace_cons]
    by_cases hb : b' = b
    · rwa [hb, child_branch]
    · rw [Bool.eq_not.mpr hb, child_branch_not]
      exact h !b

theorem exists_mem_of_compact (h : Compact t) (hne : t ≠ empty) : ∃ a, a ∈ t := by
  induction t with
  | empty => exact absurd rfl hne
  | leaf a => exact ⟨a, rfl⟩
  | node l r ihl ihr =>
    obtain ⟨htwo, hl, hr⟩ := h
    by_cases hempty : l = empty
    · have hr' : r ≠ empty := by
        rintro rfl
        rw [hempty] at htwo
        rcases htwo with h | h | h
        · exact h.1 rfl
        · exact h
        · exact h
      obtain ⟨a, ha⟩ := ihr hr hr'
      exact ⟨a, .inr ha⟩
    · obtain ⟨a, ha⟩ := ihl hl hempty
      exact ⟨a, .inl ha⟩

theorem exists_two_of_compact (hplaced : Placed bits p t) (h : Compact t) (hnode : t.IsNode) :
    ∃ a ∈ t, ∃ b ∈ t, bits a ≠ bits b := by
  induction t generalizing p with
  | empty => exact hnode.elim
  | leaf a => exact hnode.elim
  | node l r ihl ihr =>
    obtain ⟨htwo, hl, hr⟩ := h
    rcases htwo with ⟨hl', hr'⟩ | hn | hn
    · obtain ⟨a, ha⟩ := exists_mem_of_compact hl hl'
      obtain ⟨b, hb⟩ := exists_mem_of_compact hr hr'
      refine ⟨a, .inl ha, b, .inr hb, fun heq => ?_⟩
      have hpa := hplaced.1.prefix_bits ha
      rw [heq] at hpa
      exact not_prefix_of_ne hpa (by simp) (hplaced.2.prefix_bits hb)
    · obtain ⟨a, ha, b, hb, hne⟩ := ihl hplaced.1 hl hn
      exact ⟨a, .inl ha, b, .inl hb, hne⟩
    · obtain ⟨a, ha, b, hb, hne⟩ := ihr hplaced.2 hr hn
      exact ⟨a, .inr ha, b, .inr hb, hne⟩

theorem ChildrenCompact.compact (h : ChildrenCompact t) {b : α} (ha : a ∈ t) (hb : b ∈ t)
    (hne : a ≠ b) : Compact t := by
  cases t with
  | empty => trivial
  | leaf a => trivial
  | node l r =>
    refine ⟨?_, h false, h true⟩
    cases l with
    | node => exact .inr (.inl trivial)
    | empty =>
      cases r with
      | node => exact .inr (.inr trivial)
      | empty => simp at ha
      | leaf c =>
        simp only [mem_node, mem_empty, mem_leaf, false_or] at ha hb
        exact absurd (ha.trans hb.symm) hne
    | leaf c =>
      cases r with
      | node => exact .inr (.inr trivial)
      | leaf d => exact .inl ⟨by simp, by simp⟩
      | empty =>
        simp only [mem_node, mem_empty, mem_leaf, or_false] at ha hb
        exact absurd (ha.trans hb.symm) hne

end Placed

/-! ## Hashes -/

section Hash

variable {β : Type} (parent : β → β → β) (placeholder : β)

def hash (val : α → β) : Trie α → β
  | empty => placeholder
  | leaf a => val a
  | node l r => parent (hash val l) (hash val r)

variable {κ : Type} (bits : κ → List Bool) (m : κ → Option β)

/-- The keys of the map whose bits start with `p`. -/
def keysUnder (p : List Bool) : Set κ := {k | p <+: bits k ∧ m k ≠ none}

/-- The map has exactly one key under `p`, with value `v`. -/
def OnlyValue (p : List Bool) (v : β) : Prop := ∃ k, keysUnder bits m p = {k} ∧ m k = some v

open Classical in
/-- The reference hash of the keys under `p`, with `n` further bits: a subtree without keys has
the placeholder, one with a single key has the value of the key, and any other the parent of its
two halves. -/
noncomputable def refHash (n : ℕ) (p : List Bool) : β :=
  if keysUnder bits m p = ∅ then placeholder
  else if h : ∃ v, OnlyValue bits m p v then h.choose
  else
    match n with
    | 0 => placeholder
    | n + 1 => parent (refHash n (p ++ [false])) (refHash n (p ++ [true]))

open Classical in
/-- The reference hash of a map whose keys have `n + 1` bits. A root with a single key is a parent
too. -/
noncomputable def refRoot (n : ℕ) : β :=
  if ∀ k, m k = none then placeholder
  else parent (refHash parent placeholder bits m n [false])
    (refHash parent placeholder bits m n [true])

variable {parent placeholder bits m} {key : α → κ} {val : α → β} {p : List Bool} {t : Trie α}
  {n : ℕ}

theorem refHash_of_onlyValue {v : β} (h : OnlyValue bits m p v) :
    refHash parent placeholder bits m n p = v := by
  obtain ⟨k, hk, hv⟩ := h
  have hne : keysUnder bits m p ≠ ∅ := by
    rw [hk]
    exact Set.singleton_ne_empty k
  have honly : ∃ v, OnlyValue bits m p v := ⟨v, k, hk, hv⟩
  rw [refHash.eq_def, if_neg hne, dif_pos honly]
  obtain ⟨k', hk', hv'⟩ := honly.choose_spec
  rw [hk, Set.singleton_eq_singleton_iff] at hk'
  rw [← hk', hv, Option.some.injEq] at hv'
  exact hv'.symm

/-- The entries of the trie are the map under `p`. -/
def Represents (bits : κ → List Bool) (m : κ → Option β) (key : α → κ) (val : α → β)
    (p : List Bool) (t : Trie α) : Prop :=
  ∀ k, p <+: bits k → ∀ v, m k = some v ↔ ∃ a ∈ t, key a = k ∧ val a = v

theorem Represents.mem_keysUnder (h : Represents bits m key val p t) {k : κ} :
    k ∈ keysUnder bits m p ↔ p <+: bits k ∧ ∃ a ∈ t, key a = k := by
  refine and_congr_right fun hk => ?_
  rw [Option.ne_none_iff_exists']
  constructor
  · rintro ⟨v, hv⟩
    obtain ⟨a, ha, hkey, -⟩ := (h k hk v).mp hv
    exact ⟨a, ha, hkey⟩
  · rintro ⟨a, ha, hkey⟩
    exact ⟨val a, (h k hk _).mpr ⟨a, ha, hkey, rfl⟩⟩

theorem Represents.child (h : Represents bits m key val p t) (hleaf : ¬ t.IsLeaf)
    (hplaced : Placed (bits ∘ key) p t) (b : Bool) :
    Represents bits m key val (p ++ [b]) (t.child b) := by
  intro k hk v
  rw [h k ((prefix_append p [b]).trans hk) v]
  refine exists_congr fun a => and_congr_left fun hval => ?_
  rw [mem_iff_child hleaf a b]
  refine ⟨fun ha => ha.resolve_right fun ha => ?_, .inl⟩
  have hpre := (hplaced.child !b).prefix_bits ha
  rw [Function.comp_apply, hval.1] at hpre
  exact not_prefix_of_ne hk (by simp) hpre

/-- **The hash of a compact trie** is the reference hash of the map that it represents. -/
theorem hash_eq_refHash (hplaced : Placed (bits ∘ key) p t) (hcompact : Compact t)
    (hlength : ∀ a ∈ t, (bits (key a)).length = p.length + n) (h : Represents bits m key val p t) :
    hash parent placeholder val t = refHash parent placeholder bits m n p := by
  induction t generalizing p n with
  | empty =>
    have hempty : keysUnder bits m p = ∅ := by
      ext k
      simp [h.mem_keysUnder]
    rw [refHash.eq_def, if_pos hempty, hash]
  | leaf a =>
    have hkeys : keysUnder bits m p = {key a} := by
      ext k
      rw [h.mem_keysUnder, Set.mem_singleton_iff]
      constructor
      · rintro ⟨-, b, hb, rfl⟩
        rw [(mem_leaf b a).mp hb]
      · rintro rfl
        exact ⟨hplaced, a, rfl, rfl⟩
    have hval : m (key a) = some (val a) := (h _ hplaced _).mpr ⟨a, rfl, rfl, rfl⟩
    rw [refHash_of_onlyValue ⟨key a, hkeys, hval⟩, hash]
  | node l r ihl ihr =>
    obtain ⟨a, ha, b, hb, hne⟩ := exists_two_of_compact hplaced hcompact trivial
    cases n with
    | zero =>
      -- two entries with the bits `p` would be the same
      have hpa := (hplaced.prefix_bits ha).eq_of_length (hlength a ha).symm
      have hpb := (hplaced.prefix_bits hb).eq_of_length (hlength b hb).symm
      exact absurd (hpa.symm.trans hpb) hne
    | succ n =>
      have hka : key a ∈ keysUnder bits m p := h.mem_keysUnder.mpr ⟨hplaced.prefix_bits ha, a, ha, rfl⟩
      have hkb : key b ∈ keysUnder bits m p := h.mem_keysUnder.mpr ⟨hplaced.prefix_bits hb, b, hb, rfl⟩
      have hlen : ∀ b : Bool, p.length + (n + 1) = (p ++ [b]).length + n := by
        intro b
        rw [length_append, length_singleton]
        omega
      have honly : ¬ ∃ v, OnlyValue bits m p v := by
        rintro ⟨v, k, hsingle, -⟩
        rw [hsingle, Set.mem_singleton_iff] at hka hkb
        exact hne (congrArg bits (hka.trans hkb.symm))
      rw [refHash.eq_def, if_neg (Set.nonempty_iff_ne_empty.mp ⟨_, hka⟩), dif_neg honly, hash,
        ihl hplaced.1 hcompact.2.1 (fun a ha => (hlength a (.inl ha)).trans (hlen false))
          (h.child (fun hleaf => hleaf) hplaced false),
        ihr hplaced.2 hcompact.2.2 (fun a ha => (hlength a (.inr ha)).trans (hlen true))
          (h.child (fun hleaf => hleaf) hplaced true)]

/-- **The hash of a trie with compact children** is the reference hash of its map. -/
theorem hash_eq_refRoot (hplaced : Placed (bits ∘ key) [] t) (hcompact : ChildrenCompact t)
    (hnode : t.IsNode) (hinhabited : ∃ a, a ∈ t)
    (hlength : ∀ a ∈ t, (bits (key a)).length = n + 1) (h : Represents bits m key val [] t) :
    hash parent placeholder val t = refRoot parent placeholder bits m n := by
  have hne : ¬ ∀ k, m k = none := by
    intro hnone
    obtain ⟨a, ha⟩ := hinhabited
    have hval := (h (key a) nil_prefix (val a)).mpr ⟨a, ha, rfl, rfl⟩
    rw [hnone] at hval
    cases hval
  cases t with
  | empty => exact hnode.elim
  | leaf a => exact hnode.elim
  | node l r =>
    have hchild := h.child (fun hleaf => hleaf) hplaced
    have hlen : ∀ b : Bool, ∀ a ∈ (node l r).child b, (bits (key a)).length = [b].length + n := by
      intro b a ha
      rw [hlength a (mem_of_mem_sub (q := [b]) ha), length_singleton, Nat.add_comm]
    rw [refRoot, if_neg hne, hash,
      hash_eq_refHash hplaced.1 (hcompact false) (hlen false) (hchild false),
      hash_eq_refHash hplaced.2 (hcompact true) (hlen true) (hchild true)]
    rfl

end Hash

end Trie

end Verif
