import ConcordBft.ActiveWindow.Sequence
import Mathlib.Data.Nat.ModEq

/-!
# The window is a finite map

`WindowMap` says what an active window is for: it maps each number to the item written for it since
the number entered the window. The circular buffer refines it as long as the counter of its loops
can reach the number of places (`refinesMap_iff`).

Numbers are multiples of the resolution, and the proofs count in these units: unit `u` is the number
`u * resolution`, and its place is `u - a` places after that of the unit `a` that begins the window.
-/

namespace ConcordBft

open Verif Verif.Exec Nat SequenceWithActiveWindow List Option Function

/-- The abstract window: its first number, how far it has advanced since the last reset, and what
was written for each number since it entered. -/
structure WindowMap (α : Type) where
  first : ℕ
  advanced : ℕ
  written : ℕ → Option α

namespace WindowMap

variable {α : Type} (p : WindowParams)

def fresh (windowFirst : ℕ) : WindowMap α := ⟨windowFirst, 0, fun _ => none⟩

variable (m : WindowMap α)

/-- The numbers of the window; its end must be a `uint64_t` too. -/
def Inside (n : ℕ) : Prop :=
  (m.first ≤ n ∧ n < m.first + p.windowSize) ∧ m.first + p.windowSize < 2 ^ 64

instance (n : ℕ) : Decidable (m.Inside p n) := inferInstanceAs (Decidable (_ ∧ _))

/-- How many numbers below the window are kept. -/
def history : ℕ := min m.advanced (p.windowHistory * p.windowSize)

def InHistory (n : ℕ) : Prop := m.first - m.history p ≤ n ∧ n < m.first

instance (n : ℕ) : Decidable (m.InHistory p n) := inferInstanceAs (Decidable (_ ∧ _))

/-- The window moves on by at most its size: what enters it is not written yet. -/
def slide (newFirst : ℕ) : WindowMap α where
  first := newFirst
  advanced := m.advanced + (newFirst - m.first)
  written n :=
    if m.first + p.windowSize ≤ n ∧ n < newFirst + p.windowSize then none else m.written n

def step (m : WindowMap α) : WindowOp α → Option (WindowMap α)
  | .modify n x =>
    if n % p.resolution = 0 ∧ m.Inside p n then
      some { m with written := Function.update m.written n (some x) }
    else none
  | .advanceActiveWindow newFirst =>
    if newFirst % p.resolution = 0 ∧ m.first ≤ newFirst ∧ newFirst < 2 ^ 64 then
      some (if newFirst - m.first > p.windowSize then fresh newFirst else m.slide p newFirst)
    else none
  | .resetAll windowFirst =>
    if windowFirst % p.resolution = 0 ∧ windowFirst < 2 ^ 64 then some (fresh windowFirst) else none

def after (windowFirst : ℕ) (ops : List (WindowOp α)) : Option (WindowMap α) :=
  if windowFirst % p.resolution = 0 ∧ windowFirst < 2 ^ 64 then
    ops.foldlM (step p) (fresh windowFirst)
  else none

end WindowMap

/-- The item is the one written, or a reset one if none was written. -/
def Held {α : Type} (funcs : ItemFuncs α) : Option α → α → Prop
  | some v, x => x = v
  | none, x => x ∈ Set.range funcs.reset

/-- What can be observed of the buffer is what the map says. -/
structure Observes {α : Type} (p : WindowParams) (funcs : ItemFuncs α) (m : WindowMap α)
    (s : SequenceWithActiveWindow α) : Prop where
  insideActiveWindow : ∀ n, s.insideActiveWindow p n = decide (m.Inside p n)
  get : ∀ n, n % p.resolution = 0 → m.Inside p n →
    ∃ x, s.get p n = .ok x ∧ Held funcs (m.written n) x
  isPressentInHistory : ∀ n, s.isPressentInHistory p n = .ok (decide (m.InHistory p n))
  /-- The numbers kept below the window are that many. -/
  history_le : m.history p ≤ m.first
  getFromHistory : ∀ n, n % p.resolution = 0 → m.InHistory p n →
    ∃ x, s.getFromHistory p n = .ok x ∧ Held funcs (m.written n) x
  present_of_getFromHistory : ∀ n x, s.getFromHistory p n = .ok x → m.InHistory p n

/-! ## The loops -/

section Loops

variable {α : Type} {f : α → α} {total : ℕ}

/-- The loop over all items ends if its counter can pass the last place. -/
theorem forEachItem_eq (htotal : total < 2 ^ 16) {fuel i : ℕ} (hfuel : total - i < fuel)
    (items : List α) :
    ∃ items', forEachItem f total fuel i items = .ok items' ∧ items'.length = items.length ∧
      ∀ q, items'[q]? = if i ≤ q ∧ q < total then items[q]?.map f else items[q]? := by
  induction fuel generalizing i items with
  | zero => omega
  | succ fuel ih =>
    rw [forEachItem]
    split_ifs with hi
    · rw [mod_eq_of_lt (by omega)]
      obtain ⟨items', heq, hlen, hitems⟩ := ih (i := i + 1) (by omega) (items.modify i f)
      refine ⟨items', heq, by rw [hlen, length_modify], fun q => ?_⟩
      rw [hitems]
      rcases lt_trichotomy q i with h | rfl | h
      · rw [if_neg (by omega), if_neg (by omega), getElem?_modify_ne _ _ h.ne']
      · rw [if_neg (by omega), if_pos ⟨le_rfl, hi⟩, getElem?_modify_eq]
        rfl
      · rw [getElem?_modify_ne _ _ h.ne]
        by_cases hq : q < total
        · rw [if_pos ⟨h, hq⟩, if_pos ⟨h.le, hq⟩]
        · rw [if_neg fun h => hq h.2, if_neg fun h => hq h.2]
    · exact ⟨items, rfl, rfl, fun q => by rw [if_neg (by omega)]⟩

/-- A counter of 16 bits is always below a larger number of places. -/
theorem forEachItem_unfinished (htotal : 2 ^ 16 ≤ total) (fuel : ℕ) {i : ℕ} (hi : i < 2 ^ 16)
    (items : List α) : forEachItem f total fuel i items = .error .unfinished := by
  induction fuel generalizing i items with
  | zero => rfl
  | succ fuel ih =>
    rw [forEachItem, if_pos (by omega)]
    exact ih (mod_lt _ (by decide)) _

/-- The places that the loop of `advanceActiveWindow` does not meet keep their items. -/
theorem resetItems_of_not (htotal : total < 2 ^ 16) {count i q : ℕ} (items : List α)
    (hi : i < total) (h : ∀ e < count, q ≠ (i + e) % total) :
    (resetItems f total count i items)[q]? = items[q]? := by
  induction count generalizing i items with
  | zero => rfl
  | succ count ih =>
    have hlt : (i + 1) % total < total := mod_lt _ (by omega)
    have hne : i ≠ q := by
      have h0 := h 0 (by omega)
      rw [add_zero, mod_eq_of_lt hi] at h0
      exact fun heq => h0 heq.symm
    rw [resetItems, mod_eq_of_lt (by omega), ih _ hlt, getElem?_modify_ne _ _ hne]
    intro e he
    rw [mod_add_mod, add_assoc, add_comm 1]
    exact h (e + 1) (by omega)

theorem length_resetItems (count i : ℕ) (items : List α) :
    (resetItems f total count i items).length = items.length := by
  induction count generalizing i items with
  | zero => rfl
  | succ count ih => rw [resetItems, ih, length_modify]

theorem resetItems_of_mem (htotal : total < 2 ^ 16) {count i e : ℕ} (items : List α)
    (hlen : items.length = total) (hi : i < total) (he : e < count) :
    ∃ y, (resetItems f total count i items)[(i + e) % total]? = some (f y) := by
  induction count generalizing i e items with
  | zero => omega
  | succ count ih =>
    have hlt : (i + 1) % total < total := mod_lt _ (by omega)
    have hlen' : (items.modify i f).length = total := by rw [length_modify, hlen]
    rw [resetItems, mod_eq_of_lt (lt_trans hlt htotal)]
    -- the place may be met again later
    by_cases hagain : ∃ e' < count, (i + e) % total = ((i + 1) % total + e') % total
    · obtain ⟨e', he', heq⟩ := hagain
      rw [heq]
      exact ih _ hlen' hlt he'
    · have hzero : e = 0 := by
        by_contra hne
        refine hagain ⟨e - 1, by omega, ?_⟩
        rw [Nat.mod_add_mod, Nat.add_assoc, Nat.add_sub_cancel' (by omega : 1 ≤ e)]
      subst hzero
      have hnot : ∀ e' < count, i ≠ ((i + 1) % total + e') % total := by
        intro e' he' heq
        refine hagain ⟨e', he', ?_⟩
        rw [add_zero, mod_eq_of_lt hi]
        exact heq
      rw [show (i + 0) % total = i from mod_eq_of_lt hi, resetItems_of_not htotal _ hlt hnot,
        getElem?_modify_eq, getElem?_eq_getElem (by omega)]
      exact ⟨_, rfl⟩

end Loops

/-! ## Units and places -/

namespace WindowParams

variable {p : WindowParams}

theorem windowSize_eq (p : WindowParams) :
    p.windowSize = p.numItemsInsideActiveWindow * p.resolution :=
  (Nat.div_mul_cancel (Nat.dvd_of_mod_eq_zero p.aligned)).symm

theorem totalItems_pos (p : WindowParams) : 0 < p.totalItems := by
  have : 0 < p.numItemsInsideActiveWindow := div_pos p.resolution_lt.le p.one_le
  unfold totalItems
  omega

/-- The place of unit `u` in a window that begins with unit `a` at place `first`. -/
def placeOf (p : WindowParams) (first a u : ℕ) : ℕ := (first + p.totalItems + u - a) % p.totalItems

theorem placeOf_lt (first a u : ℕ) : p.placeOf first a u < p.totalItems :=
  mod_lt _ p.totalItems_pos

theorem placeOf_ne {first a u v : ℕ} (hu : a ≤ p.totalItems + u) (huv : u < v)
    (hv : v < u + p.totalItems) : p.placeOf first a u ≠ p.placeOf first a v := by
  intro heq
  have hmod : first + p.totalItems + u - a ≡ first + p.totalItems + u - a + (v - u)
      [MOD p.totalItems] := by
    rw [show first + p.totalItems + u - a + (v - u) = first + p.totalItems + v - a by omega]
    exact heq
  have hdvd : p.totalItems ∣ v - u := left_modEq_add_iff.mp hmod
  have := eq_zero_of_dvd_of_lt hdvd (by omega)
  omega

/-- Moving the beginning of the window moves no unit. -/
theorem placeOf_slide {first a e u : ℕ} (hu : a + e ≤ p.totalItems + u) :
    p.placeOf ((first + e) % p.totalItems) (a + e) u = p.placeOf first a u := by
  unfold placeOf
  rw [show (first + e) % p.totalItems + p.totalItems + u - (a + e) =
      (first + e) % p.totalItems + (p.totalItems + u - (a + e)) by omega, mod_add_mod]
  congr 1
  omega

end WindowParams

/-! ## The refinement -/

/-- The buffer refines the map, for a window that begins with unit `a` and has advanced by `d`
units. -/
structure RefinesAt {α : Type} (p : WindowParams) (funcs : ItemFuncs α) (a d : ℕ)
    (m : WindowMap α) (s : SequenceWithActiveWindow α) : Prop where
  first : m.first = a * p.resolution
  advanced : m.advanced = d * p.resolution
  first_lt : m.first < 2 ^ 64
  le : d ≤ a
  beginning : s.beginningOfActiveWindow = m.first
  place_lt : s.firstItemOfActiveWindow < p.totalItems
  length : s.workingWindow.length = p.totalItems
  num : s.numItemsInsideInactiveWindow = min d p.maxNumItemsInsideInactiveWindow
  held : ∀ u, a - s.numItemsInsideInactiveWindow ≤ u → u < a + p.numItemsInsideActiveWindow →
    ∃ x, s.workingWindow[p.placeOf s.firstItemOfActiveWindow a u]? = some x ∧
      Held funcs (m.written (u * p.resolution)) x

namespace RefinesAt

open SequenceWithActiveWindow WindowParams

variable {α : Type} {p : WindowParams} {funcs : ItemFuncs α} {a d : ℕ} {m : WindowMap α}
  {s : SequenceWithActiveWindow α}

section

variable (H : RefinesAt p funcs a d m s)

include H

theorem history_eq : m.history p = s.numItemsInsideInactiveWindow * p.resolution := by
  unfold WindowMap.history
  rw [H.advanced, H.num, windowSize_eq, ← Nat.mul_assoc, Nat.mul_min_mul_right]
  rfl

theorem history_le : m.history p ≤ m.first := by
  have hnum := H.num
  have hle := H.le
  rw [H.history_eq, H.first]
  exact mul_le_mul_right _ (by omega)

theorem insideActiveWindow_eq (n : ℕ) : s.insideActiveWindow p n = decide (m.Inside p n) := by
  have hws := p.windowSize_lt
  have hlt := H.first_lt
  unfold insideActiveWindow
  rw [Bool.eq_iff_iff, Bool.and_eq_true, decide_eq_true_eq, decide_eq_true_eq, decide_eq_true_eq,
    H.beginning]
  unfold WindowMap.Inside
  by_cases hend : m.first + p.windowSize < 2 ^ 64
  · rw [mod_eq_of_lt hend]
    omega
  · rw [mod_eq_sub_mod (by omega), mod_eq_of_lt (by omega)]
    omega

theorem place_eq (htotal : p.totalItems < 2 ^ 16) {u : ℕ} (h : m.Inside p (u * p.resolution)) :
    (a ≤ u ∧ u < a + p.numItemsInsideActiveWindow) ∧
      s.place p (u * p.resolution) = .ok (p.placeOf s.firstItemOfActiveWindow a u) := by
  have hR := p.one_le
  obtain ⟨⟨hlow, hhigh⟩, -⟩ := id h
  rw [H.first] at hlow
  rw [H.first, windowSize_eq, ← Nat.add_mul] at hhigh
  have hau : a ≤ u := Nat.le_of_mul_le_mul_right hlow hR
  refine ⟨⟨hau, Nat.lt_of_mul_lt_mul_right hhigh⟩, ?_⟩
  have hinside : s.insideActiveWindow p (u * p.resolution) = true := by
    rw [H.insideActiveWindow_eq, decide_eq_true_eq]
    exact h
  have hlt := placeOf_lt (p := p) s.firstItemOfActiveWindow a u
  unfold place
  rw [Nat.mul_mod_left, beq_self_eq_true, ensure_true, ok_bind, hinside, ensure_true, ok_bind,
    H.beginning, H.first, ← Nat.sub_mul, Nat.mul_div_cancel _ hR, pure_eq_ok]
  unfold placeOf at hlt ⊢
  rw [show s.firstItemOfActiveWindow + p.totalItems + u - a =
    s.firstItemOfActiveWindow + (u - a) + p.totalItems by omega, add_mod_right] at hlt ⊢
  rw [mod_eq_of_lt (lt_trans hlt htotal)]

end

variable {n windowFirst fuel : ℕ}

theorem exists_unit (h : n % p.resolution = 0) : ∃ u, n = u * p.resolution :=
  ⟨n / p.resolution, (Nat.div_mul_cancel (Nat.dvd_of_mod_eq_zero h)).symm⟩

section

variable (H : RefinesAt p funcs a d m s)

include H

theorem get_eq (htotal : p.totalItems < 2 ^ 16) (hn : n % p.resolution = 0) (h : m.Inside p n) :
    ∃ x, s.get p n = .ok x ∧ Held funcs (m.written n) x := by
  obtain ⟨u, rfl⟩ := exists_unit hn
  obtain ⟨⟨hlow, hhigh⟩, hplace⟩ := H.place_eq htotal h
  obtain ⟨x, hx, hheld⟩ := H.held u (by omega) hhigh
  refine ⟨x, ?_, hheld⟩
  unfold SequenceWithActiveWindow.get item
  rw [hplace, ok_bind, hx]

theorem getBeginningOfInactiveWindow_eq (hpos : 0 < s.numItemsInsideInactiveWindow) :
    s.getBeginningOfInactiveWindow p = .ok (m.first - m.history p) := by
  have hle := H.history_le
  have hlt := H.first_lt
  unfold getBeginningOfInactiveWindow
  rw [ensure_decide hpos, H.beginning, ← H.history_eq,
    mod_eq_of_lt (a := m.history p) (by omega), pure_eq_ok,
    show m.first + 2 ^ 64 - m.history p = m.first - m.history p + 2 ^ 64 by omega,
    add_mod_right, mod_eq_of_lt (by omega)]

theorem isPressentInHistory_eq (n : ℕ) :
    s.isPressentInHistory p n = .ok (decide (m.InHistory p n)) := by
  unfold isPressentInHistory
  rcases Nat.eq_zero_or_pos s.numItemsInsideInactiveWindow with hzero | hpos
  · have hempty : ¬ m.InHistory p n := by
      unfold WindowMap.InHistory
      rw [H.history_eq, hzero, zero_mul]
      omega
    rw [if_neg (by omega), decide_eq_false hempty, pure_eq_ok]
  · rw [if_pos hpos, H.getBeginningOfInactiveWindow_eq hpos, ok_bind, pure_eq_ok, H.beginning,
      ← Bool.decide_and]
    rfl

section

variable (htotal : p.totalItems < 2 ^ 16)

include htotal

theorem getFromHistory_eq (hn : n % p.resolution = 0) (h : m.InHistory p n) :
    ∃ x, s.getFromHistory p n = .ok x ∧ Held funcs (m.written n) x := by
  have hR := p.one_le
  obtain ⟨u, rfl⟩ := exists_unit hn
  have hh := h
  unfold WindowMap.InHistory at hh
  rw [H.history_eq, H.first, ← Nat.sub_mul] at hh
  have hlow : a - s.numItemsInsideInactiveWindow ≤ u := Nat.le_of_mul_le_mul_right hh.1 hR
  have hhigh : u < a := Nat.lt_of_mul_lt_mul_right hh.2
  obtain ⟨x, hx, hheld⟩ := H.held u hlow (by omega)
  have hnum := H.num
  have hle := H.le
  have hplace := H.place_lt
  have hmax : p.maxNumItemsInsideInactiveWindow ≤ p.totalItems := le_add_right _ _
  refine ⟨x, ?_, hheld⟩
  have hoffset : (u * p.resolution - (m.first - m.history p)) / p.resolution =
      u - (a - s.numItemsInsideInactiveWindow) := by
    rw [H.history_eq, H.first, ← Nat.sub_mul, ← Nat.sub_mul, Nat.mul_div_cancel _ hR]
  have hindex : s.firstItemOfActiveWindow + 2 ^ 64 - s.numItemsInsideInactiveWindow +
      p.totalItems + (u - (a - s.numItemsInsideInactiveWindow)) =
      s.firstItemOfActiveWindow + p.totalItems + u - a + 2 ^ 64 := by omega
  unfold getFromHistory item
  rw [H.isPressentInHistory_eq, ok_bind, ensure_decide h, mul_mod_left,
    beq_self_eq_true, ensure_true, ok_bind, ensure_decide (by omega),
    ensure_decide (by omega), H.getBeginningOfInactiveWindow_eq (by omega), ok_bind, hoffset]
  dsimp only
  unfold placeOf at hx
  rw [hindex, add_mod_right, mod_eq_of_lt (a := _ - a) (by omega), hx]

theorem observes : Observes p funcs m s where
  insideActiveWindow := H.insideActiveWindow_eq
  get _ hn h := H.get_eq htotal hn h
  isPressentInHistory := H.isPressentInHistory_eq
  history_le := H.history_le
  getFromHistory _ hn h := H.getFromHistory_eq htotal hn h
  present_of_getFromHistory n x h := by
    unfold getFromHistory at h
    rw [H.isPressentInHistory_eq, ok_bind, ensure_bind_eq_ok] at h
    exact of_decide_eq_true h.1

/-! ## The calls -/

theorem modify_eq (hn : n % p.resolution = 0) (h : m.Inside p n) (x : α) :
    ∃ s', s.modify p n x = .ok s' ∧
      RefinesAt p funcs a d { m with written := update m.written n (some x) } s' := by
  obtain ⟨u, rfl⟩ := exists_unit hn
  obtain ⟨⟨hlow, hhigh⟩, hplace⟩ := H.place_eq htotal h
  have hnum := H.num
  have hlt : p.placeOf s.firstItemOfActiveWindow a u < s.workingWindow.length := by
    rw [H.length]
    exact placeOf_lt _ _ _
  have hmax : p.totalItems = p.maxNumItemsInsideInactiveWindow + p.numItemsInsideActiveWindow := rfl
  refine ⟨{ s with
    workingWindow := s.workingWindow.set (p.placeOf s.firstItemOfActiveWindow a u) x }, ?_, ?_⟩
  · unfold SequenceWithActiveWindow.modify
    rw [hplace, ok_bind, ensure_decide hlt, pure_eq_ok]
  · refine ⟨H.first, H.advanced, H.first_lt, H.le, H.beginning, H.place_lt, ?_, H.num, ?_⟩
    · show (s.workingWindow.set _ x).length = _
      rw [length_set, H.length]
    intro v hv1 hv2
    show ∃ y, (s.workingWindow.set _ x)[p.placeOf s.firstItemOfActiveWindow a v]? = some y ∧
      Held funcs (update m.written (u * p.resolution) (some x) (v * p.resolution)) y
    have hv1' : a - s.numItemsInsideInactiveWindow ≤ v := hv1
    by_cases huv : v = u
    · rw [huv, getElem?_set_self hlt, update_self]
      exact ⟨x, rfl, rfl⟩
    · have hne : p.placeOf s.firstItemOfActiveWindow a u ≠ p.placeOf s.firstItemOfActiveWindow a v := by
        rcases lt_or_gt_of_ne huv with hlt | hlt
        · exact (placeOf_ne (by omega) hlt (by omega)).symm
        · exact placeOf_ne (by omega) hlt (by omega)
      have hR : v * p.resolution ≠ u * p.resolution := fun h =>
        huv (eq_of_mul_eq_mul_right p.one_le h)
      rw [getElem?_set_ne hne, update_of_ne hR]
      exact H.held v hv1 hv2

end

end

theorem of_reset (hmod : windowFirst % p.resolution = 0) (hlt : windowFirst < 2 ^ 64) {first : ℕ}
    (hfirst : first < p.totalItems) {items : List α} (hlen : items.length = p.totalItems)
    (hitems : ∀ q < p.totalItems, ∃ y, items[q]? = some (funcs.reset y)) :
    ∃ a, RefinesAt p funcs a 0 (.fresh windowFirst) ⟨windowFirst, first, 0, items⟩ := by
  obtain ⟨a, ha⟩ := exists_unit hmod
  refine ⟨a, ha, (Nat.zero_mul _).symm, hlt, Nat.zero_le _, rfl, hfirst, hlen,
    (Nat.zero_min _).symm, fun u _ _ => ?_⟩
  obtain ⟨y, hy⟩ := hitems _ (placeOf_lt first a u)
  exact ⟨_, hy, y, rfl⟩

theorem forEachItem_all (htotal : p.totalItems < 2 ^ 16) (hfuel : p.totalItems < fuel)
    (f : α → α) {items : List α} (hlen : items.length = p.totalItems) :
    ∃ items', forEachItem f p.totalItems fuel 0 items = .ok items' ∧
      items'.length = p.totalItems ∧ ∀ q < p.totalItems, ∃ y, items'[q]? = some (f y) := by
  obtain ⟨items', heq, hlen', hitems⟩ :=
    forEachItem_eq (f := f) htotal (show p.totalItems - 0 < fuel by omega) items
  refine ⟨items', heq, hlen'.trans hlen, fun q hq => ?_⟩
  rw [hitems, if_pos ⟨zero_le _, hq⟩, getElem?_eq_getElem (by omega)]
  exact ⟨_, rfl⟩

theorem resetAll_eq (H : RefinesAt p funcs a d m s) (htotal : p.totalItems < 2 ^ 16)
    (hfuel : p.totalItems < fuel) (hmod : windowFirst % p.resolution = 0)
    (hlt : windowFirst < 2 ^ 64) :
    ∃ a' s', s.resetAll p funcs fuel windowFirst = .ok s' ∧
      RefinesAt p funcs a' 0 (.fresh windowFirst) s' := by
  obtain ⟨items, heq, hlen', hitems⟩ := forEachItem_all htotal hfuel funcs.reset H.length
  obtain ⟨a', H'⟩ := of_reset hmod hlt H.place_lt hlen' hitems
  refine ⟨a', _, ?_, H'⟩
  unfold resetAll
  rw [hmod, beq_self_eq_true, ensure_true, ok_bind, heq, ok_bind, pure_eq_ok]

/-- The buffer after the window moved on by `e` units. -/
def slid (p : WindowParams) (funcs : ItemFuncs α) (s : SequenceWithActiveWindow α) (e newFirst : ℕ) :
    SequenceWithActiveWindow α where
  beginningOfActiveWindow := newFirst
  firstItemOfActiveWindow := (s.firstItemOfActiveWindow + e) % p.totalItems
  numItemsInsideInactiveWindow :=
    min (s.numItemsInsideInactiveWindow + e) p.maxNumItemsInsideInactiveWindow
  workingWindow := resetItems funcs.reset p.totalItems e
    ((s.firstItemOfActiveWindow + p.numItemsInsideActiveWindow) % p.totalItems) s.workingWindow

section

variable (H : RefinesAt p funcs a d m s)

include H

section

variable (htotal : p.totalItems < 2 ^ 16)

include htotal

/-- The units that enter the window get reset items, the others keep theirs. -/
theorem refinesAt_slid {e : ℕ}
    (hlt : (a + e) * p.resolution < 2 ^ 64) (hle : e ≤ p.numItemsInsideActiveWindow) :
    RefinesAt p funcs (a + e) (d + e) (m.slide p ((a + e) * p.resolution))
      (slid p funcs s e ((a + e) * p.resolution)) := by
  have hnum := H.num
  have hda := H.le
  have hmax : p.totalItems = p.maxNumItemsInsideInactiveWindow + p.numItemsInsideActiveWindow := rfl
  have hend : (s.firstItemOfActiveWindow + p.numItemsInsideActiveWindow) % p.totalItems <
    p.totalItems := mod_lt _ p.totalItems_pos
  -- the place of a unit that enters, as the loop counts it
  have hplace : ∀ i, ((s.firstItemOfActiveWindow + p.numItemsInsideActiveWindow) % p.totalItems +
      i) % p.totalItems =
      p.placeOf s.firstItemOfActiveWindow a (a + p.numItemsInsideActiveWindow + i) := by
    intro i
    unfold placeOf
    rw [mod_add_mod, show s.firstItemOfActiveWindow + p.totalItems +
      (a + p.numItemsInsideActiveWindow + i) - a =
      s.firstItemOfActiveWindow + p.numItemsInsideActiveWindow + i + p.totalItems by omega,
      add_mod_right]
  refine ⟨rfl, ?_, hlt, by omega, rfl, mod_lt _ p.totalItems_pos, ?_, ?_, ?_⟩
  · show m.advanced + ((a + e) * p.resolution - m.first) = _
    rw [H.advanced, H.first, ← Nat.sub_mul, Nat.add_sub_cancel_left, Nat.add_mul]
  · show (resetItems _ _ _ _ _).length = _
    rw [length_resetItems, H.length]
  · show min (s.numItemsInsideInactiveWindow + e) _ = _
    omega
  intro u hlow hhigh
  have hlow' : a + e - min (s.numItemsInsideInactiveWindow + e) p.maxNumItemsInsideInactiveWindow ≤
    u := hlow
  show ∃ x, (resetItems funcs.reset p.totalItems e _ s.workingWindow)[p.placeOf
      ((s.firstItemOfActiveWindow + e) % p.totalItems) (a + e) u]? = some x ∧
    Held funcs (if m.first + p.windowSize ≤ u * p.resolution ∧
      u * p.resolution < (a + e) * p.resolution + p.windowSize then none
      else m.written (u * p.resolution)) x
  rw [placeOf_slide (by omega), H.first, windowSize_eq, ← add_mul, ← add_mul]
  by_cases hnew : a + p.numItemsInsideActiveWindow ≤ u
  · obtain ⟨i, rfl⟩ := Nat.exists_eq_add_of_le hnew
    have hie : i < e := by omega
    obtain ⟨y, hy⟩ := resetItems_of_mem (f := funcs.reset) htotal s.workingWindow H.length hend hie
    rw [hplace] at hy
    rw [if_pos ⟨Nat.mul_le_mul_right _ hnew, Nat.mul_lt_mul_of_pos_right hhigh p.one_le⟩, hy]
    exact ⟨_, rfl, y, rfl⟩
  · obtain ⟨x, hx, hheld⟩ := H.held u (by omega) (by omega)
    have hold : ¬ ((a + p.numItemsInsideActiveWindow) * p.resolution ≤ u * p.resolution ∧
        u * p.resolution < (a + e + p.numItemsInsideActiveWindow) * p.resolution) :=
      fun h => hnew (Nat.le_of_mul_le_mul_right h.1 p.one_le)
    rw [if_neg hold, resetItems_of_not htotal _ hend]
    · exact ⟨x, hx, hheld⟩
    · intro i hi
      rw [hplace]
      exact placeOf_ne (by omega) (by omega) (by omega)

theorem advanceActiveWindow_eq (hfuel : p.totalItems < fuel) {newFirst : ℕ}
    (hmod : newFirst % p.resolution = 0) (hle : m.first ≤ newFirst) (hlt : newFirst < 2 ^ 64) :
    ∃ a' d' s', s.advanceActiveWindow p funcs fuel newFirst = .ok s' ∧
      RefinesAt p funcs a' d' (if newFirst - m.first > p.windowSize then .fresh newFirst
        else m.slide p newFirst) s' := by
  have hR := p.one_le
  obtain ⟨b, rfl⟩ := exists_unit hmod
  have hab : a ≤ b := by
    rw [H.first] at hle
    exact Nat.le_of_mul_le_mul_right hle hR
  obtain ⟨e, rfl⟩ := Nat.exists_eq_add_of_le hab
  have hdist : (a + e) * p.resolution - m.first = e * p.resolution := by
    rw [H.first, ← Nat.sub_mul, Nat.add_sub_cancel_left]
  unfold advanceActiveWindow
  rw [hmod, beq_self_eq_true, ensure_true, ok_bind, H.beginning, ensure_decide hle]
  by_cases hsame : (a + e) * p.resolution = m.first
  · have he : e = 0 := by
      rw [hsame, Nat.sub_self] at hdist
      exact (Nat.mul_eq_zero.mp hdist.symm).resolve_right (by omega)
    subst he
    have hslide : m.slide p ((a + 0) * p.resolution) = m := by
      rw [hsame]
      unfold WindowMap.slide
      rw [Nat.sub_self, Nat.add_zero]
      congr 1
      funext n
      exact if_neg (by omega)
    rw [if_pos hsame, if_neg (by omega), hslide]
    exact ⟨a, d, s, rfl, H⟩
  · rw [if_neg hsame]
    by_cases hfar : (a + e) * p.resolution - m.first > p.windowSize
    · rw [if_pos hfar, if_pos hfar]
      obtain ⟨a', s', hreset, H'⟩ := H.resetAll_eq htotal hfuel hmod hlt
      exact ⟨a', 0, s', hreset, H'⟩
    · have hN : e ≤ p.numItemsInsideActiveWindow := by
        rw [hdist, windowSize_eq, gt_iff_lt, not_lt] at hfar
        exact Nat.le_of_mul_le_mul_right hfar hR
      have hpos : 0 < e := by
        rcases Nat.eq_zero_or_pos e with rfl | he
        · rw [zero_mul] at hdist
          omega
        · exact he
      have hws := p.windowSize_lt
      have hNws : p.numItemsInsideActiveWindow ≤ p.windowSize := div_le_self _ _
      have hplace : ∀ i, i % p.totalItems % 2 ^ 16 = i % p.totalItems := fun i =>
        mod_eq_of_lt (lt_trans (mod_lt _ p.totalItems_pos) htotal)
      refine ⟨a + e, d + e, slid p funcs s e ((a + e) * p.resolution), ?_, ?_⟩
      · rw [if_neg hfar, hdist, Nat.mul_div_cancel _ hR, mod_eq_of_lt (a := e) (by omega)]
        dsimp only
        rw [decide_eq_true hpos, decide_eq_true hN, Bool.and_true, ensure_true, ok_bind, pure_eq_ok,
          hplace, hplace]
        unfold slid
        congr 2
        split <;> omega
      · rw [if_neg hfar]
        exact H.refinesAt_slid htotal hlt hN

/-- **One call** on the buffer is one step of the map. -/
theorem apply_eq
    (hfuel : p.totalItems < fuel) {op : WindowOp α} {m' : WindowMap α} (h : m.step p op = some m') :
    ∃ a' d' s', s.apply p funcs fuel op = .ok s' ∧ RefinesAt p funcs a' d' m' s' := by
  cases op with
  | modify n x =>
    rw [WindowMap.step, ite_none_right_eq_some, some.injEq] at h
    obtain ⟨⟨hn, hinside⟩, rfl⟩ := h
    obtain ⟨s', heq, H'⟩ := H.modify_eq htotal hn hinside x
    exact ⟨a, d, s', heq, H'⟩
  | advanceActiveWindow newFirst =>
    rw [WindowMap.step, ite_none_right_eq_some, some.injEq] at h
    obtain ⟨⟨hmod, hle, hlt⟩, rfl⟩ := h
    exact H.advanceActiveWindow_eq htotal hfuel hmod hle hlt
  | resetAll windowFirst =>
    rw [WindowMap.step, ite_none_right_eq_some, some.injEq] at h
    obtain ⟨⟨hmod, hlt⟩, rfl⟩ := h
    obtain ⟨a', s', heq, H'⟩ := H.resetAll_eq htotal hfuel hmod hlt
    exact ⟨a', 0, s', heq, H'⟩

theorem run_eq (hfuel : p.totalItems < fuel) {ops : List (WindowOp α)} {m' : WindowMap α}
    (h : ops.foldlM (WindowMap.step p) m = some m') :
    ∃ a' d' s', run (apply p funcs fuel) s ops = .ok s' ∧ RefinesAt p funcs a' d' m' s' := by
  induction ops generalizing a d m s with
  | nil =>
    cases h
    exact ⟨a, d, s, rfl, H⟩
  | cons op ops ih =>
    rw [foldlM_cons, bind_eq_bind, bind_eq_some_iff] at h
    obtain ⟨m₁, hstep, hrest⟩ := h
    obtain ⟨a₁, d₁, s₁, hs₁, H₁⟩ := H.apply_eq htotal hfuel hstep
    obtain ⟨a', d', s', hrun, H'⟩ := ih H₁ hrest
    exact ⟨a', d', s', by rw [run_cons, hs₁, ok_bind, hrun], H'⟩

end

end

end RefinesAt

/-- Every sequence of calls that respects the preconditions returns, given enough rounds for its
loops, and leaves a buffer that behaves as the map. -/
def RefinesMap (p : WindowParams) : Prop :=
  ∀ (α : Type) (funcs : ItemFuncs α) (memory : List α) (windowFirst : ℕ) (ops : List (WindowOp α))
    (m : WindowMap α), memory.length = p.totalItems → WindowMap.after p windowFirst ops = some m →
    ∃ rounds, ∀ fuel ≥ rounds, ∃ s,
      (SequenceWithActiveWindow.construct p funcs fuel memory windowFirst >>= fun s =>
        run (SequenceWithActiveWindow.apply p funcs fuel) s ops) = .ok s ∧ Observes p funcs m s

theorem construct_unfinished {α : Type} {p : WindowParams} (htotal : 2 ^ 16 ≤ p.totalItems)
    (funcs : ItemFuncs α) (fuel : ℕ) (memory : List α) :
    construct p funcs fuel memory 0 = .error .unfinished := by
  unfold construct
  rw [zero_mod, beq_self_eq_true, ensure_true, ok_bind,
    forEachItem_unfinished htotal fuel (by decide), error_bind]

/-- **The window is a finite map** exactly if its places can be counted with 16 bits. -/
theorem refinesMap_iff (p : WindowParams) : RefinesMap p ↔ p.totalItems < 2 ^ 16 := by
  constructor
  · intro h
    by_contra htotal
    obtain ⟨rounds, hrun⟩ := h Unit ⟨id, id⟩ (List.replicate p.totalItems ()) 0 [] (.fresh 0)
      List.length_replicate (by
        unfold WindowMap.after
        rw [if_pos ⟨zero_mod _, by decide⟩]
        rfl)
    obtain ⟨s, hs, -⟩ := hrun rounds le_rfl
    rw [construct_unfinished (by omega), error_bind] at hs
    cases hs
  · intro htotal α funcs memory windowFirst ops m hlen hafter
    unfold WindowMap.after at hafter
    split at hafter
    · rename_i hpre
      refine ⟨p.totalItems + 1, fun fuel hfuel => ?_⟩
      obtain ⟨items, heq, hlen', hitems⟩ :=
        RefinesAt.forEachItem_all htotal hfuel (fun x => funcs.reset (funcs.init x)) hlen
      have hreset : ∀ q < p.totalItems, ∃ y, items[q]? = some (funcs.reset y) := fun q hq => by
        obtain ⟨y, hy⟩ := hitems q hq
        exact ⟨_, hy⟩
      obtain ⟨a, H⟩ := RefinesAt.of_reset hpre.1 hpre.2 p.totalItems_pos hlen' hreset
      obtain ⟨a', d', s', hrun, H'⟩ := H.run_eq htotal hfuel hafter
      refine ⟨s', ?_, H'.observes htotal⟩
      unfold SequenceWithActiveWindow.construct
      rw [hpre.1, beq_self_eq_true, ensure_true, ok_bind, heq, ok_bind, pure_eq_ok, ok_bind, hrun]
    · cases hafter

/-- A window of 8 numbers and 8192 windows of history satisfy the static assertions, and the
constructor never returns. -/
theorem construct_unfinished_eight :
    ∃ p : WindowParams, p.windowSize = 8 ∧ p.resolution = 1 ∧ p.windowHistory = 8192 ∧
      ∀ (α : Type) (funcs : ItemFuncs α) (fuel : ℕ) (memory : List α),
        SequenceWithActiveWindow.construct p funcs fuel memory 0 = .error .unfinished :=
  ⟨⟨8, 1, 8192, by decide, by decide, by decide, by decide, by decide, by decide⟩, rfl, rfl, rfl,
    fun _ funcs fuel memory => construct_unfinished (by decide) funcs fuel memory⟩

end ConcordBft
