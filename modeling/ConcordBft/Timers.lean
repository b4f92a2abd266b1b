import ConcordBft.Lib.Run
import Mathlib.Data.List.Nodup

/-!
# Timers

A `Timers` object keeps one-shot and recurring timers in a vector. `evaluate` runs the callbacks of
those that have expired, and a callback may add, reset or cancel timers of the same object while the
loop holds references into the vector. An erasure makes the references from its place on invalid,
and a move of the storage all of them. The loop does what it is for exactly as long as the callbacks
that run do neither to a timer it goes over (`evaluate_iff`).
-/

namespace ConcordBft

open List Except Verif Verif.Exec

structure Timer where
  duration : ℤ
  expiresAt : ℤ
  recurring : Bool
  id : ℕ
  deriving DecidableEq

namespace Timer

def expired (timer : Timer) (now : ℤ) : Bool := decide (timer.expiresAt ≤ now)

def reset (timer : Timer) (now d : ℤ) : Timer := { timer with duration := d, expiresAt := now + d }

end Timer

structure Timers where
  timers : List Timer
  capacity : ℕ
  idCounter : ℕ
  /-- Not in the code: the references into the vector, taken when an evaluation began, that are
  still valid are those to the first `valid` places. -/
  valid : ℕ
  nodup : (timers.map Timer.id).Nodup
  id_le : ∀ timer ∈ timers, timer.id ≤ idCounter

/-- The calls of a callback on the timers, `now` being the time of the call. -/
inductive TimersCall
  | add (d : ℤ) (recurring : Bool) (now : ℤ)
  | reset (handle : ℕ) (d now : ℤ)
  | cancel (handle : ℕ)
  deriving DecidableEq

namespace Timers

variable (ts : Timers) (now : ℤ)

def ids : List ℕ := ts.timers.map Timer.id

/-- The storage moves when the vector is full. -/
def add (d : ℤ) (recurring : Bool) : Timers where
  timers := ts.timers ++ [⟨d, now + d, recurring, ts.idCounter + 1⟩]
  capacity := if ts.capacity ≤ ts.timers.length then max 1 (2 * ts.capacity) else ts.capacity
  idCounter := ts.idCounter + 1
  valid := if ts.capacity ≤ ts.timers.length then 0 else ts.valid
  nodup := by
    rw [map_append]
    refine nodup_append.mpr ⟨ts.nodup, pairwise_singleton _ _, fun a ha b hb => ?_⟩
    obtain ⟨timer, hmem, rfl⟩ := mem_map.mp ha
    rw [mem_singleton.mp hb]
    exact Nat.ne_of_lt (Nat.lt_succ_of_le (ts.id_le timer hmem))
  id_le timer h := by
    rcases mem_append.mp h with h | h
    · exact Nat.le_succ_of_le (ts.id_le timer h)
    · rw [mem_singleton.mp h]

def resetTimer (handle : ℕ) (d : ℤ) (timer : Timer) : Timer :=
  if timer.id = handle then timer.reset now d else timer

theorem id_resetTimer (handle : ℕ) (d : ℤ) (timer : Timer) :
    (resetTimer now handle d timer).id = timer.id := by
  unfold resetTimer
  split_ifs <;> rfl

theorem map_id_resetTimer (handle : ℕ) (d : ℤ) (l : List Timer) :
    (l.map (resetTimer now handle d)).map Timer.id = l.map Timer.id := by
  rw [map_map]
  exact map_congr_left fun timer _ => id_resetTimer now handle d timer

/-- At most one timer has the handle. -/
def reset (handle : ℕ) (d : ℤ) : Timers :=
  { ts with
    timers := ts.timers.map (resetTimer now handle d)
    nodup := by
      rw [map_id_resetTimer]
      exact ts.nodup
    id_le := fun timer h => by
      obtain ⟨timer', hmem, rfl⟩ := mem_map.mp h
      rw [id_resetTimer]
      exact ts.id_le timer' hmem }

/-- The erasure of the timer with the handle, if there is one. -/
def cancel (handle : ℕ) : Timers :=
  { ts with
    timers := ts.timers.filter fun timer => timer.id ≠ handle
    valid := min ts.valid (ts.ids.idxOf handle)
    nodup := ts.nodup.sublist (filter_sublist.map _)
    id_le := fun timer h => ts.id_le timer (mem_filter.mp h).1 }

def call : TimersCall → Timers
  | .add d recurring now => ts.add now d recurring
  | .reset handle d now => ts.reset now handle d
  | .cancel handle => ts.cancel handle

/-- What a callback does. -/
def runCallback (calls : List TimersCall) : Timers := calls.foldl call ts

/-- The timer at a place, through a reference. -/
def deref (i : ℕ) : Exec Timer :=
  match ts.timers[i]? with
  | some timer => if i < ts.valid then .ok timer else .error .access
  | none => .error .access

/-- A loop over timers: the collection, the timers whose callback has run and those to cancel. -/
structure Pass where
  timers : Timers
  ran : List ℕ
  toCancel : List ℕ

-- The calls that the callback of each timer makes in this evaluation.
variable (callback : ℕ → List TimersCall)

/-- The body of the loop, at the `i`-th place. -/
def visit (s : Pass) (i : ℕ) : Exec Pass := do
  let timer ← s.timers.deref i
  if timer.expired now then
    let timers := s.timers.runCallback (callback timer.id)
    let ran := s.ran ++ [timer.id]
    let timer ← timers.deref i
    if timer.recurring then return ⟨timers.reset now timer.id timer.duration, ran, s.toCancel⟩
    else return ⟨timers, ran, s.toCancel ++ [timer.id]⟩
  else return s

def begin_ : Pass := ⟨{ ts with valid := ts.timers.length }, [], []⟩

/-- The timers after an evaluation, and the callbacks that ran. -/
def evaluate : Exec (Timers × List ℕ) := do
  let s ← run (visit now callback) ts.begin_ (range ts.timers.length)
  return (s.toCancel.foldl cancel s.timers, s.ran)

/-! ## What an evaluation is for -/

end Timers

namespace Timer

/-- What the calls of a callback do to a timer that they do not cancel. -/
def after (timer : Timer) (calls : List TimersCall) : Timer :=
  calls.foldl (fun timer c => match c with
    | .reset handle d now => Timers.resetTimer now handle d timer
    | _ => timer) timer

variable (now : ℤ) (callback : ℕ → List TimersCall)

/-- What the turn of `handle` does to a timer if its callback runs: its own timer, if recurring, is
due one current period later. -/
def fire (timer : Timer) (handle : ℕ) : Timer :=
  let timer := timer.after (callback handle)
  if timer.id = handle ∧ timer.recurring then timer.reset now timer.duration else timer

end Timer

namespace Timers

variable (ts : Timers) (now : ℤ) (callback : ℕ → List TimersCall)

/-- The callbacks that run for the first `i` timers: those of the timers that are due after what the
callbacks before them have done. -/
def dueAmong : ℕ → List ℕ
  | 0 => []
  | i + 1 =>
    match ts.timers[i]? with
    | some timer =>
      if ((dueAmong i).foldl (Timer.fire now callback) timer).expired now then
        dueAmong i ++ [timer.id]
      else dueAmong i
    | none => dueAmong i

/-- The same object without its timers. -/
def vacated : Timers := ⟨[], 0, ts.idCounter, 0, nodup_nil, fun _ h => absurd h not_mem_nil⟩

/-- The calls add timers only where there is room and cancel none that is held. -/
def harmless (held : List ℕ) : Timers → List TimersCall → Bool
  | _, [] => true
  | ts, c :: calls => (match c with
      | .add .. => decide (ts.timers.length < ts.capacity)
      | .reset .. => true
      | .cancel handle => decide (handle ∉ held)) && harmless held (ts.call c) calls

/-- If the timer at the place is due, the calls of its callback are harmless. -/
def HarmlessTurn (s : Pass) (i : ℕ) : Prop :=
  ∀ timer, s.timers.timers[i]? = some timer → timer.expired now = true →
    harmless ts.ids s.timers (callback timer.id) = true

variable {ts now callback} {held : List ℕ} {A : List Timer} {added : Timers}

theorem valid_call_le (c : TimersCall) : (ts.call c).valid ≤ ts.valid := by
  cases c with
  | add d recurring now =>
    show (if _ then 0 else ts.valid) ≤ _
    split_ifs <;> omega
  | reset handle d now => exact le_rfl
  | cancel handle => exact min_le_left _ _

theorem valid_runCallback_le (calls : List TimersCall) :
    (ts.runCallback calls).valid ≤ ts.valid :=
  calls.foldlRecOn (motive := fun ts' => ts'.valid ≤ ts.valid) call le_rfl
    fun _ h c _ => Nat.le_trans (valid_call_le c) h

/-- The vector is made of the timers `A`, which are held and to which the references are valid, and
of those that were added. -/
structure Parts (held : List ℕ) (A : List Timer) (ts added : Timers) : Prop where
  timers : ts.timers = A ++ added.timers
  front : A.map Timer.id = held
  idCounter : ts.idCounter = added.idCounter
  valid : held.length ≤ ts.valid

section

variable (h : Parts held A ts added)

include h

theorem Parts.ids_eq : ts.ids = held ++ added.ids := by
  rw [ids, h.timers, map_append, h.front, ids]

theorem Parts.notMem_of_added {timer : Timer} (hmem : timer ∈ added.timers) : timer.id ∉ held := by
  have hnodup : ts.ids.Nodup := ts.nodup
  rw [h.ids_eq] at hnodup
  exact fun hheld => (nodup_append.mp hnodup).2.2 _ hheld _ (mem_map_of_mem hmem) rfl

theorem Parts.reset_held (now : ℤ) {handle : ℕ} (hmem : handle ∈ held) (d : ℤ) :
    Parts held (A.map (resetTimer now handle d)) (ts.reset now handle d) added := by
  refine ⟨?_, (map_id_resetTimer now handle d A).trans h.front, h.idCounter, h.valid⟩
  show ts.timers.map _ = _
  rw [h.timers, map_append]
  congr 1
  refine (map_congr_left fun timer htimer => ?_).trans (List.map_id _)
  exact if_neg fun heq : timer.id = handle => h.notMem_of_added htimer (heq ▸ hmem)

variable (hpos : 0 < held.length)

include hpos

theorem Parts.valid_call_iff (c : TimersCall) :
    held.length ≤ (ts.call c).valid ↔ (match c with
      | .add .. => decide (ts.timers.length < ts.capacity)
      | .reset .. => true
      | .cancel handle => decide (handle ∉ held)) = true := by
  have hvalid := h.valid
  cases c with
  | add d recurring now =>
    show held.length ≤ (if _ then 0 else ts.valid) ↔ _
    rw [decide_eq_true_eq]
    split_ifs <;> omega
  | reset handle d now => exact iff_of_true hvalid rfl
  | cancel handle =>
    show held.length ≤ min ts.valid (ts.ids.idxOf handle) ↔ _
    rw [decide_eq_true_eq, Nat.le_min, and_iff_right hvalid, h.ids_eq]
    by_cases hmem : handle ∈ held
    · rw [idxOf_append_of_mem hmem]
      have := idxOf_lt_length_iff.mpr hmem
      exact iff_of_false (by omega) (not_not.mpr hmem)
    · rw [idxOf_append_of_notMem hmem]
      exact iff_of_true (by omega) hmem

theorem Parts.call {c : TimersCall} (hc : held.length ≤ (ts.call c).valid) :
    Parts held (A.map fun timer => timer.after [c]) (ts.call c) (added.call c) := by
  have hharmless := (h.valid_call_iff hpos c).mp hc
  cases c with
  | add d recurring now =>
    refine ⟨?_, (congrArg _ (List.map_id A)).trans h.front, congrArg (· + 1) h.idCounter, hc⟩
    show ts.timers ++ [_] = A.map id ++ (added.timers ++ [_])
    rw [List.map_id, h.timers, h.idCounter, append_assoc]
  | reset handle d now =>
    refine ⟨?_, (map_id_resetTimer now handle d A).trans h.front, h.idCounter, hc⟩
    exact (congrArg _ h.timers).trans map_append
  | cancel handle =>
    refine ⟨?_, (congrArg _ (List.map_id A)).trans h.front, h.idCounter, hc⟩
    show ts.timers.filter _ = A.map id ++ added.timers.filter _
    rw [List.map_id, h.timers, filter_append]
    refine congrArg (· ++ _) (filter_eq_self.mpr fun timer hmem => decide_eq_true fun heq => ?_)
    exact of_decide_eq_true hharmless (heq ▸ h.front ▸ mem_map_of_mem hmem)

theorem Parts.runCallback {calls : List TimersCall}
    (hvalid : held.length ≤ (ts.runCallback calls).valid) :
    Parts held (A.map fun timer => timer.after calls) (ts.runCallback calls)
      (added.runCallback calls) := by
  induction calls generalizing A ts added with
  | nil => exact (List.map_id A).symm ▸ h
  | cons c calls ih =>
    have hc := h.call hpos (Nat.le_trans hvalid (valid_runCallback_le calls))
    have hrest := ih hc hvalid
    rw [map_map] at hrest
    exact hrest

theorem Parts.harmless_iff (calls : List TimersCall) :
    harmless held ts calls = true ↔ held.length ≤ (ts.runCallback calls).valid := by
  induction calls generalizing A ts added with
  | nil => exact iff_of_true rfl h.valid
  | cons c calls ih =>
    rw [harmless.eq_def, Bool.and_eq_true, ← h.valid_call_iff hpos]
    refine ⟨fun ⟨hc, hrest⟩ => (ih (h.call hpos hc)).mp hrest, fun hvalid => ?_⟩
    have hc := Nat.le_trans hvalid (valid_runCallback_le calls)
    exact ⟨hc, (ih (h.call hpos hc)).mpr hvalid⟩

end

end Timers

namespace Timer

variable (timer : Timer)

/-- The handle and the kind of a timer are fixed. -/
theorem after_fixed (calls : List TimersCall) :
    (timer.after calls).id = timer.id ∧ (timer.after calls).recurring = timer.recurring := by
  refine calls.foldlRecOn (motive := fun t : Timer => t.id = timer.id ∧ t.recurring = timer.recurring) _
    ⟨rfl, rfl⟩ fun t ht c _ => ?_
  cases c with
  | add d recurring now => exact ht
  | reset handle d now =>
    show (Timers.resetTimer now handle d t).id = _ ∧ (Timers.resetTimer now handle d t).recurring = _
    unfold Timers.resetTimer
    split_ifs
    · exact ht
    · exact ht
  | cancel handle => exact ht

theorem fire_fixed (now : ℤ) (callback : ℕ → List TimersCall) (ran : List ℕ) :
    (ran.foldl (fire now callback) timer).id = timer.id ∧
      (ran.foldl (fire now callback) timer).recurring = timer.recurring := by
  refine ran.foldlRecOn (motive := fun t : Timer => t.id = timer.id ∧ t.recurring = timer.recurring) _
    ⟨rfl, rfl⟩ fun t ht handle _ => ?_
  have hafter := t.after_fixed (callback handle)
  rw [← ht.1, ← ht.2, ← hafter.1, ← hafter.2]
  show (if _ then _ else _ : Timer).id = _ ∧ (if _ then _ else _ : Timer).recurring = _
  split_ifs
  · exact ⟨rfl, rfl⟩
  · exact ⟨rfl, rfl⟩

end Timer

namespace Timers

variable {ts : Timers} {now : ℤ} {callback : ℕ → List TimersCall} {s s' : Pass} {k : ℕ}
  {timer : Timer}

theorem deref_eq_ok : ts.deref k = .ok timer ↔ ts.timers[k]? = some timer ∧ k < ts.valid := by
  unfold deref
  rcases ts.timers[k]? with _ | t
  · simp
  · by_cases hk : k < ts.valid
    · simp [hk]
    · simp [hk]

/-- The state of the loop after the first `k` turns. -/
structure Loop (ts : Timers) (now : ℤ) (callback : ℕ → List TimersCall) (k : ℕ) (s : Pass) :
    Prop where
  ran : s.ran = ts.dueAmong now callback k
  parts : Parts ts.ids (ts.timers.map fun timer => s.ran.foldl (Timer.fire now callback) timer)
    s.timers (ts.vacated.runCallback (s.ran.flatMap callback))
  toCancel : ∀ handle, handle ∈ s.toCancel ↔
    handle ∈ s.ran ∧ ∃ timer ∈ ts.timers, timer.id = handle ∧ timer.recurring = false

theorem Loop.get (h : Loop ts now callback k s) (hget : ts.timers[k]? = some timer) :
    s.timers.timers[k]? = some (s.ran.foldl (Timer.fire now callback) timer) := by
  have hk := (List.getElem?_eq_some_iff.mp hget).1
  rw [h.parts.timers, getElem?_append_left (by rwa [length_map]), getElem?_map, hget]
  rfl

/-- What the turn of a timer that is due does to the timers that are held. -/
theorem Parts.turn (now : ℤ) {held : List ℕ} {A : List Timer} {added : Timers}
    (h : Parts held A ts added) (hget : A[k]? = some timer)
    (hvalid : held.length ≤ (ts.runCallback (callback timer.id)).valid) :
    Parts held (A.map fun t => Timer.fire now callback t timer.id)
      (if timer.recurring then
        (ts.runCallback (callback timer.id)).reset now timer.id
          (timer.after (callback timer.id)).duration
      else ts.runCallback (callback timer.id)) (added.runCallback (callback timer.id)) := by
  have hmem : timer ∈ A := mem_of_getElem? hget
  have hid : timer.id ∈ held := h.front ▸ mem_map_of_mem hmem
  have hpos : 0 < held.length := length_pos_of_mem hid
  -- Only the timer whose turn it is has its handle.
  have hown : ∀ t ∈ A, (t.after (callback timer.id)).id = timer.id → t = timer := by
    intro t ht heq
    rw [(t.after_fixed _).1] at heq
    have hnodup : (A.map Timer.id).Nodup := by
      have := ts.nodup
      rw [h.timers, map_append] at this
      exact this.of_append_left
    exact inj_on_of_nodup_map hnodup ht hmem heq
  have hrun := h.runCallback hpos hvalid
  split_ifs with hrecurring
  · have hreset := hrun.reset_held now hid (timer.after (callback timer.id)).duration
    rw [map_map] at hreset
    convert hreset using 1
    refine map_congr_left fun t ht => ?_
    show Timer.fire now callback t timer.id = resetTimer now timer.id _ (t.after _)
    unfold Timer.fire resetTimer
    by_cases heq : (t.after (callback timer.id)).id = timer.id
    · obtain rfl := hown t ht heq
      rw [if_pos heq, if_pos ⟨heq, by rwa [(t.after_fixed _).2]⟩]
    · rw [if_neg heq, if_neg fun h => heq h.1]
  · convert hrun using 1
    refine map_congr_left fun t ht => if_neg ?_
    rintro ⟨heq, hrec⟩
    obtain rfl := hown t ht heq
    rw [(t.after_fixed _).2] at hrec
    exact hrecurring hrec

theorem visit_of_not_expired (hget : s.timers.timers[k]? = some timer) (hk : k < s.timers.valid)
    (hexp : timer.expired now = false) : visit now callback s k = .ok s := by
  rw [visit, deref_eq_ok.mpr ⟨hget, hk⟩, ok_bind, hexp]
  rfl

theorem visit_of_expired (hget : s.timers.timers[k]? = some timer) (hk : k < s.timers.valid)
    (hexp : timer.expired now = true) :
    visit now callback s k = (s.timers.runCallback (callback timer.id)).deref k >>= fun t =>
      if t.recurring then
        .ok ⟨(s.timers.runCallback (callback timer.id)).reset now t.id t.duration,
          s.ran ++ [timer.id], s.toCancel⟩
      else .ok ⟨s.timers.runCallback (callback timer.id), s.ran ++ [timer.id],
        s.toCancel ++ [t.id]⟩ := by
  rw [visit, deref_eq_ok.mpr ⟨hget, hk⟩, ok_bind, if_pos hexp]
  rfl

theorem dueAmong_succ (now : ℤ) (callback : ℕ → List TimersCall)
    (hget : ts.timers[k]? = some timer) :
    ts.dueAmong now callback (k + 1) =
      if ((ts.dueAmong now callback k).foldl (Timer.fire now callback) timer).expired now then
        ts.dueAmong now callback k ++ [timer.id]
      else ts.dueAmong now callback k := by
  rw [dueAmong, hget]

/-- **One turn.** -/
theorem Loop.visit (h : Loop ts now callback k s) (hk : k < ts.timers.length)
    (hturn : ts.HarmlessTurn now callback s k) :
    ∃ s', visit now callback s k = .ok s' ∧ Loop ts now callback (k + 1) s' := by
  have hget := getElem?_eq_getElem hk
  generalize ts.timers[k] = timer at hget
  have hget' := h.get hget
  have hids : ts.ids.length = ts.timers.length := length_map _
  have hvalid := h.parts.valid
  obtain ⟨hid, hrec⟩ := timer.fire_fixed now callback s.ran
  have hran := dueAmong_succ now callback hget
  rw [← h.ran] at hran
  generalize hcur : s.ran.foldl (Timer.fire now callback) timer = current at hget' hid hrec hran
  cases hexp : current.expired now with
  | false =>
    refine ⟨s, visit_of_not_expired hget' (by omega) hexp, ?_, h.parts, h.toCancel⟩
    rw [hran, hexp]
    rfl
  | true =>
    rw [hexp, if_pos rfl] at hran
    have hpos : 0 < ts.ids.length := by omega
    have hcalls := (h.parts.harmless_iff hpos _).mp (hturn current hget' hexp)
    have hA : (ts.timers.map fun timer => s.ran.foldl (Timer.fire now callback) timer)[k]? =
        some current := by
      rw [getElem?_map, hget, Option.map_some, hcur]
    have hparts := h.parts.turn now hA hcalls
    have hafter := (h.parts.runCallback hpos hcalls).timers
    have hderef : (s.timers.runCallback (callback current.id)).deref k =
        .ok (current.after (callback current.id)) := by
      refine deref_eq_ok.mpr ⟨?_, by omega⟩
      rw [hafter, getElem?_append_left (by rwa [length_map, length_map]), getElem?_map, hA]
      rfl
    obtain ⟨hid', hrec'⟩ := current.after_fixed (callback current.id)
    rw [visit_of_expired hget' (by omega) hexp, hderef, ok_bind, hid', hrec']
    rw [map_map] at hparts
    have hfold : (fun timer => (s.ran ++ [current.id]).foldl (Timer.fire now callback) timer) =
        (fun t => Timer.fire now callback t current.id) ∘
          fun timer => s.ran.foldl (Timer.fire now callback) timer :=
      funext fun t => foldl_append
    have hadded : ts.vacated.runCallback ((s.ran ++ [current.id]).flatMap callback) =
        (ts.vacated.runCallback (s.ran.flatMap callback)).runCallback (callback current.id) := by
      rw [flatMap_append, flatMap_singleton]
      exact foldl_append
    rw [← hfold, ← hadded] at hparts
    rw [← hid] at hran
    have hmem := mem_of_getElem? hget
    split_ifs at hparts ⊢ with hrecurring
    · refine ⟨_, rfl, hran.symm, hparts, fun handle => (h.toCancel handle).trans ?_⟩
      rw [mem_append, mem_singleton, or_and_right]
      refine (or_iff_left ?_).symm
      rintro ⟨rfl, t, ht, heq, hone⟩
      obtain rfl := inj_on_of_nodup_map ts.nodup ht hmem (heq.trans hid)
      rw [hrec, hone] at hrecurring
      cases hrecurring
    · refine ⟨_, rfl, hran.symm, hparts, fun handle => ?_⟩
      rw [mem_append, mem_singleton, mem_append, mem_singleton, h.toCancel, or_and_right]
      refine or_congr_right (iff_self_and.mpr fun heq => ⟨timer, hmem, hid.symm.trans heq.symm, ?_⟩)
      rw [← hrec]
      exact Bool.not_eq_true _ ▸ hrecurring

def empty : Timers := ⟨[], 0, 0, 0, nodup_nil, by simp⟩

-- The first callback postpones the third timer, the second one adds a timer where there is room.
example : ((((empty.add 0 5 true).add 0 5 false).add 0 5 true).evaluate 10 fun handle =>
      if handle = 1 then [.reset 3 7 10] else [.add 1 false 10]).map (fun r => (r.1.timers, r.2)) =
    .ok ([⟨5, 15, true, 1⟩, ⟨7, 17, true, 3⟩, ⟨1, 11, false, 4⟩], [1, 2]) := rfl

end Timers

end ConcordBft
