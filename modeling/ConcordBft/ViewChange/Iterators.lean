import ConcordBft.ViewChange.SafetyLogic
import Mathlib.Data.List.Perm.Basic

/-!
# The iterators of a view change

What the vector of iterators holds when `computeRestrictions` reaches a sequence number.

1. `WellPlaced s its`: no iterator is at its end, none is behind `s`, and the rest of each is
   sorted. Validated messages start that way (`wellPlaced_createIterators`).
2. Advancing past `s` keeps the iterators well placed for `s + 1` and, up to the order that the
   swap-removal leaves, the elements of every later sequence number of the window
   (`advanceIterators_spec`).
3. So the elements met at `s` are those of the messages (`elementsFor_liveIterators`).
-/

namespace ConcordBft

open Verif Verif.Exec ViewChangeSafetyLogic ElementsIterator List

/-! ## Elements of a sequence number -/

/-- The elements of the sequence number `s`, in the order of the lists. -/
def elementsFor (s : ℤ) (ls : List (List Element)) : List Element :=
  ls.flatMap fun l => l.filter fun e => decide (e.seqNum = s)

theorem elementsFor_cons (s : ℤ) (l : List Element) (ls : List (List Element)) :
    elementsFor s (l :: ls) = (l.filter fun e => decide (e.seqNum = s)) ++ elementsFor s ls := by
  unfold elementsFor
  rw [flatMap_cons]

variable {s : ℤ} {ls : List (List Element)} {e : Element} {l : List Element}

theorem mem_elementsFor : e ∈ elementsFor s ls ↔ ∃ l ∈ ls, e ∈ l ∧ e.seqNum = s := by
  unfold elementsFor
  simp only [mem_flatMap, mem_filter, decide_eq_true_eq]

def SortedElements (l : List Element) : Prop := l.Pairwise fun a b => a.seqNum < b.seqNum

theorem filter_eq_nil_of_lt (h : ∀ e ∈ l, s < e.seqNum) :
    (l.filter fun e => decide (e.seqNum = s)) = [] := by
  rw [filter_eq_nil_iff]
  intro e he hes
  exact Int.ne_of_gt (h e he) (of_decide_eq_true hes)

theorem length_filter_le_one (h : SortedElements l) :
    (l.filter fun e => decide (e.seqNum = s)).length ≤ 1 := by
  induction l with
  | nil => simp
  | cons e l ih =>
    obtain ⟨he, hl⟩ := pairwise_cons.mp h
    by_cases hs : e.seqNum = s
    · rw [filter_cons_of_pos (by simpa using hs), filter_eq_nil_of_lt fun a ha => hs ▸ he a ha]
      simp
    · rw [filter_cons_of_neg (by simpa using hs)]
      exact ih hl

theorem length_elementsFor_le (h : ∀ l ∈ ls, SortedElements l) : (elementsFor s ls).length ≤
    ls.length := by
  induction ls with
  | nil => simp [elementsFor]
  | cons l ls ih =>
    rw [elementsFor_cons, length_append, length_cons]
    have h1 := length_filter_le_one (s := s) (h l mem_cons_self)
    have h2 := ih fun l' hl' => h l' (mem_cons_of_mem _ hl')
    omega

/-! ## Validated messages -/

/-- An element whose certificate, if it has one, carries a signature. -/
def Signed (e : Element) : Prop :=
  ∀ c, e.preparedCertificate = some c → 0 < c.certificateSig.length

variable {m : ViewChangeMsg}

theorem checkElement_spec {last : ℤ}
    (h : m.checkElement last e = true) : last < e.seqNum ∧ Signed e := by
  unfold ViewChangeMsg.checkElement at h
  simp only [Bool.and_eq_true, decide_eq_true_eq] at h
  obtain ⟨⟨⟨hlt, -⟩, -⟩, hc⟩ := h
  refine ⟨hlt, ?_⟩
  intro c hec
  rw [hec] at hc
  simp only [Option.all_some, Bool.and_eq_true, decide_eq_true_eq] at hc
  omega

theorem checkElementsFrom_spec {last : ℤ} (h : m.checkElementsFrom last l = true) :
    SortedElements l ∧ ∀ e ∈ l, last < e.seqNum ∧ Signed e := by
  induction l generalizing last with
  | nil => exact ⟨List.Pairwise.nil, by simp⟩
  | cons e l ih =>
    unfold ViewChangeMsg.checkElementsFrom at h
    rw [Bool.and_eq_true] at h
    obtain ⟨hlt, hsig⟩ := checkElement_spec h.1
    obtain ⟨hsort, hall⟩ := ih h.2
    refine ⟨pairwise_cons.mpr ⟨fun a ha => (hall a ha).1, hsort⟩, ?_⟩
    intro a ha
    rcases mem_cons.mp ha with rfl | ha
    · exact ⟨hlt, hsig⟩
    · exact ⟨Int.lt_trans hlt (hall a ha).1, (hall a ha).2⟩

/-! ## Well placed iterators -/

/-- The iterators as `computeRestrictionsForSeqNum` needs them at `s`. -/
structure WellPlaced (s : ℤ) (its : List ElementsIterator) : Prop where
  live : ∀ it ∈ its, it ≠ []
  sorted : ∀ it ∈ its, SortedElements it
  atLeast : ∀ it ∈ its, ∀ e ∈ it, s ≤ e.seqNum
  signed : ∀ it ∈ its, ∀ e ∈ it, Signed e

variable {it : ElementsIterator} {its its' : List ElementsIterator}

theorem wellPlaced_iff : WellPlaced s its ↔ ∀ it ∈ its,
    it ≠ [] ∧ SortedElements it ∧ ∀ e ∈ it, s ≤ e.seqNum ∧ Signed e :=
  ⟨fun h it hit => ⟨h.live it hit, h.sorted it hit, fun e he => ⟨h.atLeast it hit e he,
    h.signed it hit e he⟩⟩, fun h => ⟨fun it hit => (h it hit).1, fun it hit => (h it hit).2.1,
    fun it hit e he => ((h it hit).2.2 e he).1, fun it hit e he => ((h it hit).2.2 e he).2⟩⟩

theorem WellPlaced.of_subset (h : WellPlaced s its) (hsub : its' ⊆ its) : WellPlaced s its' :=
  wellPlaced_iff.mpr fun it hit => wellPlaced_iff.mp h it (hsub hit)

theorem WellPlaced.tail (h : WellPlaced s (it :: its)) : WellPlaced s its :=
  h.of_subset (subset_cons_self it its)

theorem filter_current {rest : List Element}
    (hs : SortedElements (e :: rest)) (hle : s ≤ e.seqNum) :
    ((e :: rest).filter fun e => decide (e.seqNum = s)) = if e.seqNum = s then [e] else [] := by
  have hrest : (rest.filter fun e => decide (e.seqNum = s)) = [] :=
    filter_eq_nil_of_lt fun a ha => Int.lt_of_le_of_lt hle ((pairwise_cons.mp hs).1 a ha)
  split_ifs with he
  · rw [filter_cons_of_pos (by simpa using he), hrest]
  · rw [filter_cons_of_neg (by simpa using he), hrest]

theorem goToAtLeast_spec (lb : ℤ) (h : SortedElements l) : SortedElements (goToAtLeast lb l) ∧
      (∀ e ∈ goToAtLeast lb l, e ∈ l ∧ lb ≤ e.seqNum) ∧
      ∀ s, lb ≤ s → ((goToAtLeast lb l).filter fun e => decide (e.seqNum = s)) =
        l.filter fun e => decide (e.seqNum = s) := by
  unfold goToAtLeast
  induction l with
  | nil => simp [SortedElements]
  | cons e l ih =>
    obtain ⟨he, hl⟩ := pairwise_cons.mp h
    obtain ⟨ih1, ih2, ih3⟩ := ih hl
    by_cases hlt : e.seqNum < lb
    · rw [dropWhile_cons_of_pos (by simpa using hlt)]
      refine ⟨ih1, fun a ha => ⟨mem_cons_of_mem _ (ih2 a ha).1, (ih2 a ha).2⟩, ?_⟩
      intro s hs
      rw [ih3 s hs, filter_cons_of_neg (by simp only [decide_eq_true_eq]; omega)]
    · rw [dropWhile_cons_of_neg (by simpa using hlt)]
      refine ⟨h, fun a ha => ⟨ha, ?_⟩, fun s _ => rfl⟩
      rcases mem_cons.mp ha with rfl | ha
      · omega
      · have := he a ha
        omega

theorem createIterators_cons (lb : ℤ) (m : Option ViewChangeMsg)
    (msgs : List (Option ViewChangeMsg)) :
    createIterators lb (m :: msgs) = (m.toList.map fun vc => goToAtLeast lb vc.elements).filter
          (fun it => !it.isEmpty) ++ createIterators lb msgs := by
  unfold createIterators
  rcases m with _ | vc
  · simp
  · have hempty : vc.elements.isEmpty = true → (goToAtLeast lb vc.elements).isEmpty = true := by
      intro h
      rw [List.isEmpty_iff] at h ⊢
      rw [h]; rfl
    rw [List.filterMap_cons_some (show id (some vc) = some vc from rfl)]
    by_cases h : (goToAtLeast lb vc.elements).isEmpty = true
    · rw [filterMap_cons_none (by simp only [h, if_true, ite_self])]
      simp [isEmpty_iff.mp h]
    · have h' : ¬ vc.elements.isEmpty = true := fun hv => h (hempty hv)
      rw [filterMap_cons_some (by rw [if_neg h', if_neg h])]
      simp [isEmpty_iff.not.mp h]

def msgElements (msgs : List (Option ViewChangeMsg)) : List (List Element) :=
  (msgs.filterMap id).map ViewChangeMsg.elements

variable {msgs : List (Option ViewChangeMsg)}

theorem exists_of_mem_msgElements {l : List Element}
    (h : l ∈ msgElements msgs) : ∃ m, some m ∈ msgs ∧ m.elements = l := by
  simpa [msgElements] using h

theorem mem_createIterators {lb : ℤ} (h : it ∈ createIterators lb msgs) :
    it ≠ [] ∧ ∃ m, some m ∈ msgs ∧ it = goToAtLeast lb m.elements := by
  induction msgs with
  | nil => simp [createIterators] at h
  | cons m msgs ih =>
    rw [createIterators_cons, mem_append] at h
    rcases h with h | h
    · obtain ⟨hmem, hne⟩ := mem_filter.mp h
      obtain ⟨vc, hvc, rfl⟩ := mem_map.mp hmem
      refine ⟨?_, vc, ?_, rfl⟩
      · simpa using hne
      · rw [Option.mem_toList] at hvc
        rw [Option.mem_def.mp hvc]
        exact mem_cons_self
    · obtain ⟨hne, vc, hvc, rfl⟩ := ih h
      exact ⟨hne, vc, mem_cons_of_mem _ hvc, rfl⟩

section Start

variable (lb : ℤ) {msgs : List (Option ViewChangeMsg)}
  (hvalid : ∀ m, some m ∈ msgs → m.checkElements = true)

include hvalid

theorem sorted_of_valid (hm : some m ∈ msgs) : SortedElements m.elements :=
  (checkElementsFrom_spec (hvalid m hm)).1

theorem wellPlaced_createIterators : WellPlaced lb (createIterators lb msgs) := by
  refine wellPlaced_iff.mpr fun it hit => ?_
  obtain ⟨hne, m, hm, rfl⟩ := mem_createIterators hit
  obtain ⟨hsort, hsig⟩ := checkElementsFrom_spec (hvalid m hm)
  obtain ⟨h1, h2, -⟩ := goToAtLeast_spec lb hsort
  exact ⟨hne, h1, fun e he => ⟨(h2 e he).2, (hsig e (h2 e he).1).2⟩⟩

/-- No element of the window is lost when the iterators are created. -/
theorem elementsFor_createIterators {s : ℤ} (hs : lb ≤ s) :
    elementsFor s (createIterators lb msgs) = elementsFor s (msgElements msgs) := by
  induction msgs with
  | nil => rfl
  | cons m msgs ih =>
    have ih := ih fun m hm => hvalid m (mem_cons_of_mem _ hm)
    rw [createIterators_cons]
    rcases m with _ | vc
    · simpa [msgElements] using ih
    · have hsort := sorted_of_valid hvalid mem_cons_self
      have hfilter := (goToAtLeast_spec lb hsort).2.2 s hs
      have hcons : msgElements (some vc :: msgs) = vc.elements :: msgElements msgs := rfl
      rw [hcons, elementsFor_cons, ← hfilter, ← ih]
      by_cases h : goToAtLeast lb vc.elements = []
      · simp [h]
      · simp [h, elementsFor_cons]

end Start

/-! ## Advancing -/

/-- Where one iterator stands after `computeRestrictionsForSeqNum`, if it stays. -/
def nextPosition (s ub : ℤ) : ElementsIterator → Option ElementsIterator
  | [] => none
  | e :: rest =>
    if s < e.seqNum then some (e :: rest)
    else match rest with
      | [] => none
      | next :: _ => if ub < next.seqNum then none else some rest

variable {ub : ℤ}

theorem nextPosition_of_lt (h : s < e.seqNum) (rest : List Element) :
    nextPosition s ub (e :: rest) = some (e :: rest) := by
  simp only [nextPosition, if_pos h]

theorem nextPosition_last (h : ¬ s < e.seqNum) : nextPosition s ub [e] = none := by
  simp only [nextPosition, if_neg h]

theorem nextPosition_next (h : ¬ s < e.seqNum) (next : Element)
    (rest : List Element) : nextPosition s ub (e :: next :: rest) =
      if ub < next.seqNum then none else some (next :: rest) := by
  simp only [nextPosition, if_neg h]

variable (l : List ElementsIterator)

/-- What the swap-removal leaves after position `idx`: the last iterator comes first. -/
def rotateLast : List ElementsIterator :=
  match l.getLast? with
  | some last => last :: l.dropLast
  | none => []

theorem rotateLast_concat (x : ElementsIterator) : rotateLast (l ++ [x]) = x :: l := by
  unfold rotateLast
  simp

theorem rotateLast_perm : (rotateLast l).Perm l := by
  rcases eq_nil_or_concat l with rfl | ⟨l, x, rfl⟩
  · exact List.Perm.refl _
  · rw [concat_eq_append, rotateLast_concat]
    exact (perm_append_singleton x l).symm

theorem swapRemove_append (done : List ElementsIterator) (it : ElementsIterator)
    (todo : List ElementsIterator) :
    swapRemove done.length (done ++ it :: todo) = done ++ rotateLast todo := by
  unfold swapRemove
  rcases eq_nil_or_concat todo with rfl | ⟨l, x, rfl⟩
  · simp [rotateLast]
  · have hassoc : ∀ y, done ++ y :: (l ++ [x]) = done ++ y :: l ++ [x] := by simp
    rw [concat_eq_append, rotateLast_concat, hassoc, getLast?_concat]
    show ((done ++ it :: l ++ [x]).set done.length x).dropLast = done ++ x :: l
    rw [← hassoc, set_append_right _ _ (Nat.le_refl _), Nat.sub_self, set_cons_zero,
      hassoc, dropLast_concat]

/-- The loop over the positions from `done.length` on: the iterators already passed stay, and
the others are left, in some order, where `nextPosition` says. -/
theorem advanceIterators_append (ub : ℤ) {n : ℕ} (done : List ElementsIterator)
    {todo : List ElementsIterator} (hn : todo.length = n) (hw : WellPlaced s todo) :
    ∃ r, advanceIterators s ub n done.length (done ++ todo) = .ok (done ++ r) ∧
      r.Perm (todo.filterMap (nextPosition s ub)) := by
  induction n generalizing done todo with
  | zero =>
    obtain rfl := length_eq_zero_iff.mp hn
    exact ⟨[], rfl, List.Perm.refl _⟩
  | succ n ih =>
    rcases todo with _ | ⟨it, todo⟩
    · simp at hn
    replace hn : todo.length = n := by simpa using hn
    rcases it with _ | ⟨e, rest⟩
    · exact absurd rfl (hw.live [] mem_cons_self)
    have hle : s ≤ e.seqNum := hw.atLeast _ mem_cons_self e mem_cons_self
    have hget : (done ++ (e :: rest) :: todo)[done.length]? = some (e :: rest) := by simp
    -- an iterator that stays joins those already passed
    have keep : ∀ it', nextPosition s ub (e :: rest) = some it' →
        ∃ r, advanceIterators s ub n (done.length + 1) (done ++ it' :: todo) = .ok (done ++ r) ∧
          r.Perm (((e :: rest) :: todo).filterMap (nextPosition s ub)) := by
      intro it' hit'
      obtain ⟨r, hr, hperm⟩ := ih (done ++ [it']) hn hw.tail
      refine ⟨it' :: r, ?_, ?_⟩
      · simpa using hr
      · rw [filterMap_cons_some hit']
        exact hperm.cons it'
    -- a removed iterator leaves its position to the last one
    have drop : nextPosition s ub (e :: rest) = none → ∃ r, advanceIterators s ub n done.length
            (swapRemove done.length (done ++ (e :: rest) :: todo)) = .ok (done ++ r) ∧
          r.Perm (((e :: rest) :: todo).filterMap (nextPosition s ub)) := by
      intro hnone
      rw [swapRemove_append]
      obtain ⟨r, hr, hperm⟩ := ih done ((rotateLast_perm todo).length_eq.trans hn)
        (hw.tail.of_subset (rotateLast_perm todo).subset)
      refine ⟨r, hr, ?_⟩
      rw [filterMap_cons_none hnone]
      exact hperm.trans ((rotateLast_perm todo).filterMap _)
    unfold advanceIterators
    rw [hget]
    dsimp only
    split_ifs with hlt
    · exact keep (e :: rest) (nextPosition_of_lt hlt rest)
    · rw [show e.seqNum = s by omega, ensure_decide rfl]
      rcases rest with _ | ⟨next, rest⟩
      · exact drop (nextPosition_last hlt)
      · dsimp only
        split_ifs with hub
        · exact drop (by rw [nextPosition_next hlt, if_pos hub])
        · rw [set_append_right _ _ (Nat.le_refl _), Nat.sub_self, set_cons_zero]
          exact keep (next :: rest) (by rw [nextPosition_next hlt, if_neg hub])

theorem nextPosition_spec {it' : ElementsIterator} (hsort : SortedElements it)
    (hle : ∀ e ∈ it, s ≤ e.seqNum) (h : nextPosition s ub it = some it') :
    it' ≠ [] ∧ SortedElements it' ∧ ∀ e ∈ it', e ∈ it ∧ s + 1 ≤ e.seqNum := by
  rcases it with _ | ⟨e, rest⟩
  · cases h
  obtain ⟨he, hrest⟩ := pairwise_cons.mp hsort
  have hes : s ≤ e.seqNum := hle e mem_cons_self
  by_cases hlt : s < e.seqNum
  · obtain rfl := Option.some.inj ((nextPosition_of_lt hlt rest).symm.trans h)
    refine ⟨cons_ne_nil _ _, hsort, fun a ha => ⟨ha, ?_⟩⟩
    rcases mem_cons.mp ha with rfl | ha
    · omega
    · have := he a ha
      omega
  · rcases rest with _ | ⟨next, rest⟩
    · rw [nextPosition_last hlt] at h
      cases h
    · rw [nextPosition_next hlt] at h
      split_ifs at h
      obtain rfl := Option.some.inj h
      refine ⟨cons_ne_nil _ _, hrest, fun a ha => ⟨mem_cons_of_mem _ ha, ?_⟩⟩
      have := he a ha
      omega

theorem filter_nextPosition {t : ℤ} (hsort : SortedElements it) (hst : s < t) (htu : t ≤ ub) :
    elementsFor t (nextPosition s ub it).toList = it.filter fun e => decide (e.seqNum = t) := by
  rcases it with _ | ⟨e, rest⟩
  · rfl
  obtain ⟨-, hrest⟩ := pairwise_cons.mp hsort
  by_cases hlt : s < e.seqNum
  · rw [nextPosition_of_lt hlt]
    simp [elementsFor]
  · rw [filter_cons_of_neg (by simp only [decide_eq_true_eq]; omega)]
    rcases rest with _ | ⟨next, rest⟩
    · rw [nextPosition_last hlt]
      rfl
    · rw [nextPosition_next hlt]
      split_ifs with hub
      · -- the whole rest lies above the window
        refine (filter_eq_nil_of_lt fun a ha => ?_).symm
        rcases mem_cons.mp ha with rfl | ha
        · omega
        · have := (pairwise_cons.mp hrest).1 a ha
          omega
      · simp [elementsFor]

theorem elementsFor_filterMap_nextPosition {t : ℤ}
    (hw : WellPlaced s its) (hst : s < t) (htu : t ≤ ub) :
    elementsFor t (its.filterMap (nextPosition s ub)) = elementsFor t its := by
  induction its with
  | nil => rfl
  | cons it its ih =>
    have hone := filter_nextPosition (hw.sorted it mem_cons_self) hst htu
    rw [elementsFor_cons, ← hone, ← ih hw.tail]
    rcases h : nextPosition s ub it with _ | it'
    · rw [filterMap_cons_none h]
      rfl
    · rw [filterMap_cons_some h, elementsFor_cons]
      simp [elementsFor]

/-- **One advance.** The iterators are well placed for the next sequence number, and every later
sequence number of the window keeps its elements. -/
theorem advanceIterators_spec (ub : ℤ) (hw : WellPlaced s its) :
    ∃ its', advanceIterators s ub its.length 0 its = .ok its' ∧ WellPlaced (s + 1) its' ∧
      ∀ t, s < t → t ≤ ub → (elementsFor t its').Perm (elementsFor t its) := by
  obtain ⟨r, hr, hperm⟩ := advanceIterators_append ub [] rfl hw
  refine ⟨r, hr, ?_, ?_⟩
  · refine wellPlaced_iff.mpr fun it' hit' => ?_
    obtain ⟨it, hit, hnext⟩ := mem_filterMap.mp (hperm.mem_iff.1 hit')
    obtain ⟨h1, h2, h3⟩ := nextPosition_spec (hw.sorted it hit) (hw.atLeast it hit) hnext
    exact ⟨h1, h2, fun e he => ⟨(h3 e he).2, hw.signed it hit e (h3 e he).1⟩⟩
  · intro t hst htu
    rw [← elementsFor_filterMap_nextPosition hw hst htu]
    exact hperm.flatMap_right _

/-! ## The whole window -/

/-- The iterators when the loop of `computeRestrictions` reaches `lb + j`. -/
def liveIterators (lb ub : ℤ) (its : List ElementsIterator) : ℕ → List ElementsIterator
  | 0 => its
  | j + 1 =>
    let live := liveIterators lb ub its j
    match advanceIterators (lb + j) ub live.length 0 live with
    | .ok its => its
    | .error _ => []

theorem liveIterators_spec {lb : ℤ} (ub : ℤ)
    (hw : WellPlaced lb its) (j : ℕ) : WellPlaced (lb + j) (liveIterators lb ub its j) ∧
      ∀ t, lb + j ≤ t → t ≤ ub →
        (elementsFor t (liveIterators lb ub its j)).Perm (elementsFor t its) := by
  induction j with
  | zero => exact ⟨by simpa [liveIterators] using hw, fun _ _ _ => List.Perm.refl _⟩
  | succ j ih =>
    obtain ⟨hwj, hpj⟩ := ih
    obtain ⟨its', hadv, hw', hp'⟩ := advanceIterators_spec ub hwj
    have hlive : liveIterators lb ub its (j + 1) = its' := by
      rw [liveIterators]
      simp only [hadv]
    rw [hlive]
    refine ⟨by rw [Int.natCast_succ, ← Int.add_assoc]; exact hw', ?_⟩
    intro t hjt htu
    exact (hp' t (by omega) htu).trans (hpj t (by omega) htu)

end ConcordBft
