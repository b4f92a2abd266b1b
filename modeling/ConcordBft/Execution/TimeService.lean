import ConcordBft.Execution.Recovery
import ConcordBft.Keys.KeyExchange

/-!
# Consensus time

The model of `TimeServiceManager` and of the times and positions with which the two execution
paths call the requests handler. An attempt to execute a batch is a list of actions, each of which
is persistent: the descriptor of the execution with the time before it, the new time in its
reserved page, the calls of the handler, and the end. A crash cuts the list at any place; an
assertion that fails while a request is built is such a crash too. After a restart the replica
finds the descriptor of an unfinished batch, sets the time back and executes the batch on the main
thread.

`Follows` relates a replica that crashes to `timeAfter` and `callsOf`, what a replica does that
never crashes. The main result is `consensusTime_of_safe`.
-/

namespace ConcordBft

open Verif Verif.Exec ExecutionConfig PrePrepareMsg List Nat

structure HandlerCall where
  time : ℤ
  position : ℕ
  requests : List ClientRequestMsg
  deriving DecidableEq

/-- What a batch needs to be executed: the message, and the bits that Phase 1 computes. -/
structure TimedBatch where
  ppMsg : PrePrepareMsg
  requestSet : List Bool

namespace TimedBatch

variable (b : TimedBatch)

/-- `getTime`: the field as a signed number. -/
def time : ℤ := toSeqNum b.ppMsg.time

def special : List ClientRequestMsg := b.ppMsg.requests.filter ClientRequestMsg.isSpecial

/-- The requests whose bit is set and that are not empty. -/
def selected : List ClientRequestMsg → List Bool → List ClientRequestMsg
  | req :: requests, bit :: requestSet =>
    if !bit || req.isEmpty then selected requests requestSet
    else req :: selected requests requestSet
  | _, _ => []

end TimedBatch

/-- An action of which a restart finds the effect. -/
inductive TimeAction
  | setDescriptor (validRequests : List Bool) (timeInTicks : ℤ)
  | setLastTimestamp (time : ℤ)
  | call (c : HandlerCall)
  | finish
  deriving DecidableEq

structure TimeServiceConfig where
  timeServiceEpsilonMillis : ℤ
  epsilon_pos : 0 < timeServiceEpsilonMillis
  epsilon_lt : timeServiceEpsilonMillis < 2 ^ 63
  enablePostExecutionSeparation : Bool
  blockAccumulation : Bool

/-- The calls with one request each, from a position on. -/
def singleCalls (time : ℤ) : ℕ → List ClientRequestMsg → List HandlerCall
  | _, [] => []
  | position, req :: requests => ⟨time, position, [req]⟩ :: singleCalls time (position + 1) requests

namespace TimeServiceConfig

variable (cfg : TimeServiceConfig)

/-- `last_timestamp + epsilon` in 64 bits, for a positive epsilon. -/
def addEpsilon (last : ℤ) : ℤ :=
  if last + cfg.timeServiceEpsilonMillis < 2 ^ 63 then last + cfg.timeServiceEpsilonMillis
  else last + cfg.timeServiceEpsilonMillis - 2 ^ 64

/-- `compareAndUpdate`: the time that is provided, and stored. -/
def compareAndUpdate (last newTime : ℤ) : ℤ :=
  if last < newTime then newTime else cfg.addEpsilon last

def ordinaryCalls (time : ℤ) (position : ℕ) (requests : List ClientRequestMsg) : List HandlerCall :=
  if cfg.blockAccumulation then [⟨time, position, requests⟩]
  else singleCalls time position requests

variable (b : TimedBatch)

def mainThreadCalls (requestSet : List Bool) (time : ℤ) : List HandlerCall :=
  cfg.ordinaryCalls time 0 (TimedBatch.selected b.ppMsg.requests requestSet)

/-- The special requests one by one, and the others from the position that is reached. -/
def separateThreadCalls (time : ℤ) : List HandlerCall :=
  singleCalls time 0 b.special ++
    cfg.ordinaryCalls time b.special.length (TimedBatch.selected b.ppMsg.requests b.requestSet)

def calls (time : ℤ) : List HandlerCall :=
  if cfg.enablePostExecutionSeparation then cfg.separateThreadCalls b time
  else cfg.mainThreadCalls b b.requestSet time

/-- `startExecution` of a batch after the time `last`. -/
def firstAttempt (last : ℤ) : Exec (List TimeAction) :=
  if b.ppMsg.requests.length = 0 then .ok [.finish]
  else do
    ensure (decide (0 < b.time))
    let time := cfg.compareAndUpdate last b.time
    return .setDescriptor b.requestSet last :: .setLastTimestamp time ::
      ((cfg.calls b time).map .call ++ [.finish])

/-- `recoverRequests`: `recoverTime`, and then the main thread. -/
def recoveryAttempt (last : ℤ) (validRequests : List Bool) (timeInTicks : ℤ) :
    Exec (List TimeAction) := do
  ensure (decide (timeInTicks ≤ last))
  ensure (decide (0 < b.time))
  let time := cfg.compareAndUpdate timeInTicks b.time
  return .setLastTimestamp timeInTicks :: .setLastTimestamp time ::
    ((cfg.mainThreadCalls b validRequests time).map .call ++ [.finish])

end TimeServiceConfig

/-- What survives a crash, and the calls so far with the number of their batch. -/
structure TimeState where
  executed : ℕ
  lastTimestamp : ℤ
  /-- The descriptor of the batch after the executed ones. -/
  descriptor : Option (List Bool × ℤ)
  calls : List (ℕ × HandlerCall)
  deriving DecidableEq

namespace TimeState

variable (s : TimeState)

def apply : TimeAction → TimeState
  | .setDescriptor validRequests timeInTicks =>
    { s with descriptor := some (validRequests, timeInTicks) }
  | .setLastTimestamp time => { s with lastTimestamp := time }
  | .call c => { s with calls := s.calls ++ [(s.executed, c)] }
  | .finish => { s with executed := s.executed + 1, descriptor := none }

def applyAll (actions : List TimeAction) : TimeState := actions.foldl apply s

/-- The actions with which the replica goes on. -/
def actions (cfg : TimeServiceConfig) (batches : ℕ → TimedBatch) : Exec (List TimeAction) :=
  match s.descriptor with
  | none => cfg.firstAttempt (batches s.executed) s.lastTimestamp
  | some (validRequests, timeInTicks) =>
    cfg.recoveryAttempt (batches s.executed) s.lastTimestamp validRequests timeInTicks

/-- An attempt to execute the next batch: it is completed, or interrupted after some actions. -/
def attempt (cfg : TimeServiceConfig) (batches : ℕ → TimedBatch) (crash : Option ℕ) :
    Exec TimeState := do
  let actions ← s.actions cfg batches
  match crash with
  | none => return s.applyAll actions
  | some k => return s.applyAll (actions.take k)

def start (lastTimestamp : ℤ) : TimeState := ⟨0, lastTimestamp, none, []⟩

end TimeState

/-! ## Without crashes -/

section Reference

variable (cfg : TimeServiceConfig) (batches : ℕ → TimedBatch) (lastTimestamp : ℤ)

def timeAfter : ℕ → ℤ
  | 0 => lastTimestamp
  | i + 1 =>
    if (batches i).ppMsg.requests.length = 0 then timeAfter i
    else cfg.compareAndUpdate (timeAfter i) (batches i).time

def callsOf (i : ℕ) : List HandlerCall :=
  if (batches i).ppMsg.requests.length = 0 then []
  else cfg.calls (batches i) (timeAfter cfg batches lastTimestamp (i + 1))

end Reference

/-! ## The calls hand over the requests of the execution -/

theorem flatMap_singleCalls (time : ℤ) (position : ℕ) (requests : List ClientRequestMsg) :
    (singleCalls time position requests).flatMap HandlerCall.requests = requests := by
  induction requests generalizing position with
  | nil => rfl
  | cons req requests ih => rw [singleCalls, flatMap_cons, ih]; rfl

variable {requests : List ClientRequestMsg} {requestSet : List Bool}

theorem ExecutionConfig.accumulateRequests_eq_selected {l : List ClientRequestMsg}
    (h : accumulateRequests requests requestSet = .ok l) :
    l = TimedBatch.selected requests requestSet := by
  induction requests generalizing requestSet l with
  | nil =>
    rw [accumulateRequests, Except.ok.injEq] at h
    rw [← h, TimedBatch.selected]
    simp
  | cons req requests ih =>
    rcases requestSet with _ | ⟨bit, requestSet⟩
    · cases h
    · rw [accumulateRequests] at h
      rw [TimedBatch.selected]
      split_ifs at h ⊢ with hskip hroom
      · exact ih h
      · obtain ⟨l', hl', hcons⟩ := bind_eq_ok.mp h
        rw [← ih hl']
        exact (Except.ok.inj hcons).symm

namespace TimeServiceConfig

variable {cfg : TimeServiceConfig}

theorem flatMap_ordinaryCalls (time : ℤ) (position : ℕ) (requests : List ClientRequestMsg) :
    (cfg.ordinaryCalls time position requests).flatMap HandlerCall.requests = requests := by
  unfold ordinaryCalls
  split_ifs
  · exact append_nil _
  · exact flatMap_singleCalls time position requests

/-- The calls of a batch hand over the requests of the execution whose bits it has. -/
theorem flatMap_calls {exec : ExecutionConfig} {replies : Replies} {c : Committed} {r : Outcome}
    (hsep : exec.enablePostExecutionSeparation = cfg.enablePostExecutionSeparation)
    (h : exec.startExecution replies c = .ok r) (hdesc : r.descriptor = some requestSet)
    (time : ℤ) :
    (cfg.calls ⟨c.ppMsg, requestSet⟩ time).flatMap HandlerCall.requests = r.handed := by
  unfold startExecution at h
  unfold calls separateThreadCalls mainThreadCalls TimedBatch.special
  rw [hsep] at h
  split_ifs at h ⊢ with hseparate
  · rcases startPrePrepareMsgExecution_eq_ok h with ⟨hnone, -⟩ |
      ⟨bits, handed, replies', rfl, hwritten, hacc, -, hhanded⟩
    · rw [hnone] at hdesc
      cases hdesc
    · rw [hdesc] at hwritten
      obtain ⟨rfl, -⟩ := written_eq hwritten
      rw [flatMap_append, flatMap_singleCalls, flatMap_ordinaryCalls, hhanded,
        ← accumulateRequests_eq_selected hacc]
  · rcases executeRequestsInPrePrepareMsg_eq_ok h with ⟨hnone, -⟩ |
      ⟨bits, rfl, -, hwritten, hacc, -⟩
    · rw [hnone] at hdesc
      cases hdesc
    · rw [hdesc] at hwritten
      obtain ⟨rfl, -⟩ := written_eq hwritten
      rw [flatMap_ordinaryCalls, ← accumulateRequests_eq_selected hacc]

/-! ## One update of the time -/

/-- The time can be advanced in 64 bits. -/
def HasRoom (cfg : TimeServiceConfig) (last newTime : ℤ) : Prop :=
  last < newTime ∨ last + cfg.timeServiceEpsilonMillis < 2 ^ 63

theorem lt_compareAndUpdate {last newTime : ℤ} (h : cfg.HasRoom last newTime) :
    last < cfg.compareAndUpdate last newTime := by
  have hpos := cfg.epsilon_pos
  unfold compareAndUpdate addEpsilon
  split_ifs with hlt hroom
  · exact hlt
  · omega
  · rcases h with h | h
    · exact absurd h hlt
    · exact absurd h hroom

variable {c : HandlerCall} {time : ℤ}

theorem mem_singleCalls_time {position : ℕ}
    (h : c ∈ singleCalls time position requests) : c.time = time := by
  induction requests generalizing position with
  | nil => cases h
  | cons req requests ih =>
    rcases mem_cons.mp h with rfl | h
    · rfl
    · exact ih h

theorem mem_ordinaryCalls_time {position : ℕ}
    (h : c ∈ cfg.ordinaryCalls time position requests) : c.time = time := by
  unfold ordinaryCalls at h
  split_ifs at h
  · rw [mem_singleton.mp h]
  · exact mem_singleCalls_time h

theorem mem_calls_time {b : TimedBatch} (h : c ∈ cfg.calls b time) : c.time = time := by
  unfold calls at h
  split_ifs at h
  · rcases mem_append.mp h with h | h
    · exact mem_singleCalls_time h
    · exact mem_ordinaryCalls_time h
  · exact mem_ordinaryCalls_time h

/-- Without special requests the main thread makes the same calls as the separate one. -/
theorem calls_eq_mainThreadCalls {b : TimedBatch}
    (h : cfg.enablePostExecutionSeparation = true → b.special = []) (time : ℤ) :
    cfg.calls b time = cfg.mainThreadCalls b b.requestSet time := by
  unfold calls separateThreadCalls mainThreadCalls
  split_ifs with hsep
  · rw [h hsep]
    rfl
  · rfl

end TimeServiceConfig

/-! ## Crashes -/

section Follows

variable (cfg : TimeServiceConfig) (batches : ℕ → TimedBatch) (t₀ : ℤ)

/-- The next attempt can advance the time, and if it is a recovery, then the main thread makes the
calls of the interrupted execution. -/
def TimeState.Safe (s : TimeState) (_ : Option ℕ) : Prop :=
  match s.descriptor with
  | none => (batches s.executed).ppMsg.requests.length = 0 ∨
      cfg.HasRoom s.lastTimestamp (batches s.executed).time
  | some (_, timeInTicks) => cfg.HasRoom timeInTicks (batches s.executed).time ∧
      (cfg.enablePostExecutionSeparation = true → (batches s.executed).special = [])

/-- What is persistent about the batch that is being executed. -/
structure Pending (s : TimeState) : Prop where
  nonempty : (batches s.executed).ppMsg.requests.length ≠ 0
  descriptor : s.descriptor =
    some ((batches s.executed).requestSet, timeAfter cfg batches t₀ s.executed)
  lt : timeAfter cfg batches t₀ s.executed < timeAfter cfg batches t₀ (s.executed + 1)
  le : timeAfter cfg batches t₀ s.executed ≤ s.lastTimestamp
  calls : ∀ c, (s.executed, c) ∈ s.calls → c ∈ callsOf cfg batches t₀ s.executed

structure Idle (s : TimeState) : Prop where
  descriptor : s.descriptor = none
  lastTimestamp : s.lastTimestamp = timeAfter cfg batches t₀ s.executed
  calls : ∀ c, (s.executed, c) ∉ s.calls

/-- The state of a replica that does what a replica does that never crashes. -/
structure Follows (s : TimeState) : Prop where
  mono : ∀ i < s.executed, timeAfter cfg batches t₀ i ≤ timeAfter cfg batches t₀ (i + 1)
  strict : ∀ c ∈ s.calls, timeAfter cfg batches t₀ c.1 < timeAfter cfg batches t₀ (c.1 + 1)
  bound : ∀ c ∈ s.calls, c.1 ≤ s.executed
  done : ∀ c : ℕ × HandlerCall, c.1 < s.executed →
    (c ∈ s.calls ↔ c.2 ∈ callsOf cfg batches t₀ c.1)
  current : Idle cfg batches t₀ s ∨ Pending cfg batches t₀ s

structure Running (s : TimeState) : Prop extends Follows cfg batches t₀ s, Pending cfg batches t₀ s

variable {cfg batches t₀} {s : TimeState} {i : ℕ}

theorem timeAfter_succ (h : (batches i).ppMsg.requests.length ≠ 0) :
    timeAfter cfg batches t₀ (i + 1) =
      cfg.compareAndUpdate (timeAfter cfg batches t₀ i) (batches i).time := by
  rw [timeAfter, if_neg h]

theorem follows_start : Follows cfg batches t₀ (TimeState.start t₀) where
  mono i hi := absurd hi (not_lt_zero i)
  strict c hc := by cases hc
  bound c hc := by cases hc
  done c hc := absurd hc (not_lt_zero c.1)
  current := .inl ⟨rfl, rfl, fun c hc => by cases hc⟩

/-! The actions one by one. -/

theorem Follows.setDescriptor (h : Follows cfg batches t₀ s) (hidle : Idle cfg batches t₀ s)
    (hne : (batches s.executed).ppMsg.requests.length ≠ 0)
    (hroom : cfg.HasRoom s.lastTimestamp (batches s.executed).time) :
    Running cfg batches t₀ (s.apply (.setDescriptor (batches s.executed).requestSet
      s.lastTimestamp)) := by
  have hpending : Pending cfg batches t₀ (s.apply (.setDescriptor (batches s.executed).requestSet
      s.lastTimestamp)) := by
    refine ⟨hne, congrArg (fun t => some (_, t)) hidle.lastTimestamp, ?_, hidle.lastTimestamp.ge,
      fun c hc => ?_⟩
    · change timeAfter cfg batches t₀ s.executed < timeAfter cfg batches t₀ (s.executed + 1)
      rw [timeAfter_succ hne, ← hidle.lastTimestamp]
      exact TimeServiceConfig.lt_compareAndUpdate hroom
    · exact absurd hc (hidle.calls c)
  exact ⟨⟨h.mono, h.strict, h.bound, h.done, .inr hpending⟩, hpending⟩

theorem Running.setLastTimestamp (h : Running cfg batches t₀ s)
    {time : ℤ} (htime : timeAfter cfg batches t₀ s.executed ≤ time) :
    Running cfg batches t₀ (s.apply (.setLastTimestamp time)) := by
  have hpending : Pending cfg batches t₀ (s.apply (.setLastTimestamp time)) :=
    ⟨h.nonempty, h.descriptor, h.lt, htime, h.calls⟩
  exact ⟨⟨h.mono, h.strict, h.bound, h.done, .inr hpending⟩, hpending⟩

theorem Running.call (h : Running cfg batches t₀ s)
    {c : HandlerCall} (hc : c ∈ callsOf cfg batches t₀ s.executed) :
    Running cfg batches t₀ (s.apply (.call c)) := by
  have hmem : ∀ c', c' ∈ (s.apply (.call c)).calls ↔ c' ∈ s.calls ∨ c' = (s.executed, c) := by
    intro c'
    exact mem_append.trans (or_congr_right mem_singleton)
  have hpending : Pending cfg batches t₀ (s.apply (.call c)) := by
    refine ⟨h.nonempty, h.descriptor, h.lt, h.le, fun c' hc' => ?_⟩
    rcases (hmem _).mp hc' with hc' | hc'
    · exact h.calls c' hc'
    · rw [(Prod.mk.inj hc').2]
      exact hc
  refine ⟨⟨h.mono, fun c' hc' => ?_, fun c' hc' => ?_, fun c' hlt => ?_, .inr hpending⟩, hpending⟩
  · rcases (hmem c').mp hc' with hc' | rfl
    · exact h.strict c' hc'
    · exact h.lt
  · rcases (hmem c').mp hc' with hc' | rfl
    · exact h.bound c' hc'
    · exact le_refl _
  · rw [hmem, ← h.done c' hlt]
    refine or_iff_left fun heq => ?_
    rw [heq] at hlt
    exact lt_irrefl _ hlt

theorem applyAll_calls (s : TimeState) (cs : List HandlerCall) :
    s.applyAll (cs.map .call) = { s with calls := s.calls ++ cs.map (s.executed, ·) } := by
  induction cs generalizing s with
  | nil => simp [TimeState.applyAll]
  | cons c cs ih =>
    change (s.apply (.call c)).applyAll (cs.map .call) = _
    rw [ih]
    simp [TimeState.apply]

theorem Running.callAll (h : Running cfg batches t₀ s)
    {cs : List HandlerCall} (hcs : ∀ c ∈ cs, c ∈ callsOf cfg batches t₀ s.executed) :
    Running cfg batches t₀ (s.applyAll (cs.map .call)) := by
  induction cs generalizing s with
  | nil => exact h
  | cons c cs ih =>
    obtain ⟨hc, hcs⟩ := forall_mem_cons.mp hcs
    exact ih (h.call hc) hcs

theorem Follows.finish (h : Follows cfg batches t₀ s)
    (hlast : s.lastTimestamp = timeAfter cfg batches t₀ (s.executed + 1))
    (hle : timeAfter cfg batches t₀ s.executed ≤ timeAfter cfg batches t₀ (s.executed + 1))
    (hcalls : ∀ c, (s.executed, c) ∈ s.calls ↔ c ∈ callsOf cfg batches t₀ s.executed) :
    Follows cfg batches t₀ (s.apply .finish) := by
  refine ⟨fun i hi => ?_, h.strict, fun c hc => (h.bound c hc).trans (le_succ _),
    fun c hlt => ?_, .inl ⟨rfl, hlast, fun c hc => ?_⟩⟩
  · rcases Nat.lt_succ_iff_lt_or_eq.mp hi with hi | rfl
    · exact h.mono i hi
    · exact hle
  · rcases Nat.lt_succ_iff_lt_or_eq.mp hlt with hlt | heq
    · exact h.done c hlt
    · obtain ⟨i, c⟩ := c
      cases heq
      exact hcalls c
  · exact absurd (h.bound _ hc) (not_succ_le_self _)

/-- The part of an attempt after the time is set, cut at any place. -/
theorem Running.execute (h : Running cfg batches t₀ s)
    (hlast : s.lastTimestamp = timeAfter cfg batches t₀ (s.executed + 1)) (k : ℕ) :
    Follows cfg batches t₀ (s.applyAll
      (((callsOf cfg batches t₀ s.executed).map TimeAction.call ++ [TimeAction.finish]).take k)) := by
  rcases lt_or_ge (callsOf cfg batches t₀ s.executed).length k with hk | hk
  · -- nothing is cut off
    rw [take_of_length_le (by simpa [succ_le_iff] using hk), TimeState.applyAll, foldl_append]
    change Follows cfg batches t₀ ((s.applyAll _).apply .finish)
    have h' := h.callAll fun c hc => hc
    rw [applyAll_calls] at h' ⊢
    refine h'.finish hlast h.lt.le fun c => ⟨fun hc => ?_, fun hc => ?_⟩
    · rcases mem_append.mp hc with hc | hc
      · exact h.calls c hc
      · obtain ⟨c', hc', heq⟩ := mem_map.mp hc
        rwa [← (Prod.mk.inj heq).2]
    · exact mem_append_right _ (mem_map_of_mem hc)
  · rw [take_append_of_le_length (by simpa using hk), ← map_take]
    exact (h.callAll fun c hc => mem_of_mem_take hc).toFollows

/-! ## One attempt -/

theorem attempt_eq {l : List TimeAction} (h : s.actions cfg batches = .ok l) (crash : Option ℕ) :
    s.attempt cfg batches crash = .ok (s.applyAll (l.take (crash.getD l.length))) := by
  unfold TimeState.attempt
  rw [h, ok_bind]
  rcases crash with _ | k
  · rw [Option.getD_none, take_length]
    rfl
  · rfl

theorem actions_of_empty (hdesc : s.descriptor = none)
    (hempty : (batches s.executed).ppMsg.requests.length = 0) :
    s.actions cfg batches = .ok [.finish] := by
  unfold TimeState.actions TimeServiceConfig.firstAttempt
  rw [hdesc]
  exact if_pos hempty

theorem callsOf_of_nonempty (h : (batches i).ppMsg.requests.length ≠ 0) : callsOf cfg batches t₀ i =
      cfg.calls (batches i) (timeAfter cfg batches t₀ (i + 1)) := if_neg h

theorem actions_of_nonempty (hdesc : s.descriptor = none)
    (hlast : s.lastTimestamp = timeAfter cfg batches t₀ s.executed)
    (hne : (batches s.executed).ppMsg.requests.length ≠ 0) (hpos : 0 < (batches s.executed).time) :
    s.actions cfg batches = .ok (.setDescriptor (batches s.executed).requestSet s.lastTimestamp ::
      .setLastTimestamp (timeAfter cfg batches t₀ (s.executed + 1)) ::
      ((callsOf cfg batches t₀ s.executed).map .call ++ [.finish])) := by
  unfold TimeState.actions TimeServiceConfig.firstAttempt
  rw [hdesc, callsOf_of_nonempty hne, timeAfter_succ hne, ← hlast]
  dsimp only
  rw [if_neg hne]
  exact ensure_bind_eq_ok.mpr ⟨decide_eq_true hpos, rfl⟩

theorem actions_of_pending (hp : Pending cfg batches t₀ s)
    (hspecial : cfg.enablePostExecutionSeparation = true → (batches s.executed).special = [])
    (hpos : 0 < (batches s.executed).time) :
    s.actions cfg batches = .ok (.setLastTimestamp (timeAfter cfg batches t₀ s.executed) ::
        .setLastTimestamp (timeAfter cfg batches t₀ (s.executed + 1)) ::
        ((callsOf cfg batches t₀ s.executed).map .call ++ [.finish])) := by
  unfold TimeState.actions TimeServiceConfig.recoveryAttempt
  rw [hp.descriptor, callsOf_of_nonempty hp.nonempty,
    TimeServiceConfig.calls_eq_mainThreadCalls hspecial, timeAfter_succ hp.nonempty]
  exact ensure_bind_eq_ok.mpr ⟨decide_eq_true hp.le,
    ensure_bind_eq_ok.mpr ⟨decide_eq_true hpos, rfl⟩⟩

theorem Running.setAndExecute (h : Running cfg batches t₀ s) (k : ℕ) :
    Follows cfg batches t₀ (s.applyAll
      ((TimeAction.setLastTimestamp (timeAfter cfg batches t₀ (s.executed + 1)) ::
        ((callsOf cfg batches t₀ s.executed).map TimeAction.call ++ [TimeAction.finish])).take k)) := by
  rcases k with _ | k
  · exact h.toFollows
  · exact (h.setLastTimestamp h.lt.le).execute rfl k

section

variable (hpos : ∀ i, (batches i).ppMsg.requests.length ≠ 0 → 0 < (batches i).time)

include hpos

theorem Follows.attempt (h : Follows cfg batches t₀ s) {crash : Option ℕ}
    (hsafe : s.Safe cfg batches crash) :
    ∃ s', s.attempt cfg batches crash = .ok s' ∧ Follows cfg batches t₀ s' := by
  unfold TimeState.Safe at hsafe
  rcases h.current with hidle | hp
  · rw [hidle.descriptor] at hsafe
    by_cases hne : (batches s.executed).ppMsg.requests.length = 0
    · refine ⟨_, attempt_eq (actions_of_empty hidle.descriptor hne) crash, ?_⟩
      rcases crash.getD [TimeAction.finish].length with _ | k
      · exact h
      · have hsucc : timeAfter cfg batches t₀ (s.executed + 1) =
            timeAfter cfg batches t₀ s.executed := if_pos hne
        rw [take_succ_cons, take_nil]
        refine h.finish (hidle.lastTimestamp.trans hsucc.symm) hsucc.ge fun c => ?_
        rw [callsOf, if_pos hne]
        exact iff_of_false (hidle.calls c) not_mem_nil
    · refine ⟨_, attempt_eq (actions_of_nonempty hidle.descriptor hidle.lastTimestamp hne
        (hpos _ hne)) crash, ?_⟩
      rcases crash.getD _ with _ | k
      · exact h
      · exact (h.setDescriptor hidle hne (hsafe.resolve_left hne)).setAndExecute k
  · rw [hp.descriptor] at hsafe
    refine ⟨_, attempt_eq (actions_of_pending hp hsafe.2 (hpos _ hp.nonempty)) crash, ?_⟩
    rcases crash.getD _ with _ | k
    · exact h
    · exact (Running.setLastTimestamp ⟨h, hp⟩ le_rfl).setAndExecute k

/-! ## The replica that never crashes -/

/-- What is known of it after `n` batches, whether or not the time overflows. -/
structure Uncrashed (cfg : TimeServiceConfig) (batches : ℕ → TimedBatch) (t₀ : ℤ) (n : ℕ)
    (s : TimeState) : Prop where
  executed : s.executed = n
  descriptor : s.descriptor = none
  lastTimestamp : s.lastTimestamp = timeAfter cfg batches t₀ n
  calls : ∀ c : ℕ × HandlerCall, c ∈ s.calls ↔ c.1 < n ∧ c.2 ∈ callsOf cfg batches t₀ c.1

theorem Uncrashed.attempt {n : ℕ} (h : Uncrashed cfg batches t₀ n s) :
    ∃ s', s.attempt cfg batches none = .ok s' ∧ Uncrashed cfg batches t₀ (n + 1) s' := by
  obtain rfl := h.executed
  by_cases hne : (batches s.executed).ppMsg.requests.length = 0
  · refine ⟨_, attempt_eq (actions_of_empty h.descriptor hne) none, rfl, rfl, ?_, fun c => ?_⟩
    · exact h.lastTimestamp.trans (if_pos hne).symm
    · refine (h.calls c).trans ⟨fun hc => ⟨Nat.lt_succ_of_lt hc.1, hc.2⟩, fun hc => ⟨?_, hc.2⟩⟩
      refine lt_of_le_of_ne (Nat.lt_succ_iff.mp hc.1) fun heq => ?_
      have hcall := hc.2
      rw [heq, callsOf, if_pos hne] at hcall
      cases hcall
  · refine ⟨_, attempt_eq (actions_of_nonempty h.descriptor h.lastTimestamp hne (hpos _ hne)) none,
      ?_⟩
    rw [Option.getD_none, take_length]
    change Uncrashed cfg batches t₀ (s.executed + 1)
      (((s.apply _).apply _).applyAll _)
    rw [TimeState.applyAll, foldl_append]
    change Uncrashed cfg batches t₀ (s.executed + 1) ((TimeState.applyAll _ _).apply .finish)
    rw [applyAll_calls]
    refine ⟨rfl, rfl, rfl, fun c => ?_⟩
    refine mem_append.trans ((or_congr (h.calls c) mem_map).trans ?_)
    constructor
    · rintro (⟨hlt, hc⟩ | ⟨c', hc', rfl⟩)
      · exact ⟨Nat.lt_succ_of_lt hlt, hc⟩
      · exact ⟨lt_succ_self _, hc'⟩
    · rintro ⟨hlt, hc⟩
      rcases Nat.lt_succ_iff_lt_or_eq.mp hlt with hlt | heq
      · exact .inl ⟨hlt, hc⟩
      · exact .inr ⟨c.2, heq ▸ hc, Prod.ext heq.symm rfl⟩

theorem exists_uncrashed (n : ℕ) :
    ∃ s, run (fun s crash => TimeState.attempt s cfg batches crash) (TimeState.start t₀)
      (List.replicate n none) = .ok s ∧ Uncrashed cfg batches t₀ n s := by
  induction n with
  | zero => exact ⟨_, rfl, rfl, rfl, rfl, fun c => by simp [TimeState.start]⟩
  | succ n ih =>
    obtain ⟨s, hs, h⟩ := ih
    obtain ⟨s', hs', h'⟩ := h.attempt hpos
    refine ⟨s', ?_, h'⟩
    rw [replicate_succ', run_concat, hs, ok_bind, hs']

end

/-! ## Runs -/

theorem mem_callsOf_time {c : HandlerCall} (h : c ∈ callsOf cfg batches t₀ i) :
    c.time = timeAfter cfg batches t₀ (i + 1) := by
  unfold callsOf at h
  split_ifs at h
  · cases h
  · exact TimeServiceConfig.mem_calls_time h

theorem Follows.mem_callsOf (h : Follows cfg batches t₀ s) {c : ℕ × HandlerCall}
    (hc : c ∈ s.calls) : c.2 ∈ callsOf cfg batches t₀ c.1 := by
  rcases (h.bound c hc).lt_or_eq with hlt | heq
  · exact (h.done c hlt).mp hc
  · obtain ⟨i, c⟩ := c
    cases heq
    rcases h.current with hidle | hp
    · exact absurd hc (hidle.calls c)
    · exact hp.calls c hc

theorem Follows.timeAfter_le (h : Follows cfg batches t₀ s) {j : ℕ} (hij : i ≤ j)
    (hj : j ≤ s.executed) : timeAfter cfg batches t₀ i ≤ timeAfter cfg batches t₀ j := by
  induction j, hij using le_induction with
  | base => exact le_rfl
  | succ j _ ih => exact (ih (le_of_succ_le hj)).trans (h.mono j hj)

end Follows

/-- **Consensus time.** A replica that crashes any number of times, at any place, delivers times
that grow strictly from one batch to the next, and every call of the handler, with its time, its
position and its requests, is a call that a replica makes that never crashes; for a finished batch
it makes all of them. -/
theorem consensusTime_of_safe (cfg : TimeServiceConfig) (batches : ℕ → TimedBatch) (t₀ : ℤ)
    (hpos : ∀ i, (batches i).ppMsg.requests.length ≠ 0 → 0 < (batches i).time)
    (crashes : List (Option ℕ))
    (hsafe : EveryStep (fun s crash => TimeState.attempt s cfg batches crash)
      (TimeState.start t₀) (TimeState.Safe cfg batches) crashes) :
    ∃ s s', run (fun s crash => TimeState.attempt s cfg batches crash) (TimeState.start t₀)
        crashes = .ok s ∧
      run (fun s crash => TimeState.attempt s cfg batches crash) (TimeState.start t₀)
        (List.replicate (s.executed + 1) none) = .ok s' ∧
      (∀ c ∈ s.calls, ∀ c' ∈ s.calls, c.1 < c'.1 → c.2.time < c'.2.time) ∧
      (∀ c ∈ s.calls, c ∈ s'.calls) ∧
      ∀ c ∈ s'.calls, c.1 < s.executed → c ∈ s.calls := by
  obtain ⟨s, hs, h⟩ := run_induction (P := fun _ s => Follows cfg batches t₀ s) follows_start
    (fun _ _ _ h hsafe => h.attempt hpos hsafe) hsafe
  obtain ⟨s', hs', h'⟩ := exists_uncrashed hpos (s.executed + 1)
  refine ⟨s, s', hs, hs', fun c hc c' hc' hlt => ?_, fun c hc => ?_, fun c hc hlt => ?_⟩
  · rw [mem_callsOf_time (h.mem_callsOf hc), mem_callsOf_time (h.mem_callsOf hc')]
    exact (h.timeAfter_le hlt (h.bound c' hc')).trans_lt (h.strict c' hc')
  · exact (h'.calls c).mpr ⟨lt_succ_of_le (h.bound c hc), h.mem_callsOf hc⟩
  · exact (h.done c hlt).mpr ((h'.calls c).mp hc).2

namespace TimeServiceConfig

/-- One millisecond, and no accumulation. -/
def oneMilli (enablePostExecutionSeparation : Bool) : TimeServiceConfig where
  timeServiceEpsilonMillis := 1
  epsilon_pos := by decide
  epsilon_lt := by decide
  enablePostExecutionSeparation := enablePostExecutionSeparation
  blockAccumulation := false

theorem flatMap_calls_keyExchange : ∃ r,
    (smallConfig true).startExecution (fun _ => .empty) ⟨keyExchangeMessage, 1, false⟩ = .ok r ∧
      ((oneMilli true).calls ⟨keyExchangeMessage, [false, true]⟩ 5).flatMap HandlerCall.requests =
        r.handed := by
  have h : (smallConfig true).startExecution (fun _ => .empty) ⟨keyExchangeMessage, 1, false⟩ =
    .ok _ := rfl
  exact ⟨_, h, flatMap_calls rfl h rfl 5⟩

def keyExchangeAt (time : UInt64) : PrePrepareMsg :=
  { keyExchangeMessage with time := time }

def runCalls (enablePostExecutionSeparation : Bool) (batches : ℕ → TimedBatch)
    (crashes : List (Option ℕ)) : Option (List (ℕ × HandlerCall)) :=
  match run (fun s crash => TimeState.attempt s (oneMilli enablePostExecutionSeparation) batches
    crash) (TimeState.start 0) crashes with
  | .ok s => some s.calls
  | .error _ => none

/-- After a crash behind the new time, the request that the key exchange precedes is executed at
position `0` instead of `1`. After the greatest time a batch gets a smaller one, without any
crash. Phase 1 computes the bits of the batch. -/
theorem consensusTime_differs : (keyExchangeAt 5).Accepted firstBytes fourReplicas
      copySignatures ∧
    handedBy ((smallConfig true).startExecution (fun _ => .empty)
      ⟨keyExchangeAt 5, 1, false⟩) =
      some (some [false, true],
        [keyExchangeRequest, requestOfClient 5 []]) ∧
    runCalls true (fun _ => ⟨keyExchangeAt 5, [false, true]⟩) [none] =
      some [(0, ⟨5, 0, [keyExchangeRequest]⟩),
        (0, ⟨5, 1, [requestOfClient 5 []]⟩)] ∧
    runCalls true (fun _ => ⟨keyExchangeAt 5, [false, true]⟩) [some 2, none] =
      some [(0, ⟨5, 0, [requestOfClient 5 []]⟩)] ∧
    runCalls false (fun i => ⟨keyExchangeAt (if i = 0 then 0x7FFFFFFFFFFFFFFF else 5),
        [false, true]⟩) [none, none] =
      some [(0, ⟨2 ^ 63 - 1, 0, [requestOfClient 5 []]⟩),
        (1, ⟨-2 ^ 63, 0, [requestOfClient 5 []]⟩)] := by
  refine ⟨?_, by decide +kernel, by decide +kernel, by decide +kernel, by decide +kernel⟩
  unfold Accepted
  decide +kernel

theorem consensusTime_of_crash : ∃ s s', run (fun s crash => TimeState.attempt s (oneMilli false)
        (fun _ => ⟨keyExchangeAt 5, [true, true]⟩) crash) (TimeState.start 0) [some 3, none] = .ok s ∧
      run (fun s crash => TimeState.attempt s (oneMilli false)
        (fun _ => ⟨keyExchangeAt 5, [true, true]⟩) crash) (TimeState.start 0)
        (List.replicate (s.executed + 1) none) = .ok s' ∧
      (∀ c ∈ s.calls, ∀ c' ∈ s.calls, c.1 < c'.1 → c.2.time < c'.2.time) ∧
      (∀ c ∈ s.calls, c ∈ s'.calls) ∧
      ∀ c ∈ s'.calls, c.1 < s.executed → c ∈ s.calls := by
  have htime : TimedBatch.time ⟨keyExchangeAt 5, [true, true]⟩ = 5 := by decide
  have hroom : (oneMilli false).HasRoom 0 (TimedBatch.time ⟨keyExchangeAt 5, [true, true]⟩) :=
    Or.inl (htime ▸ by decide)
  refine consensusTime_of_safe (oneMilli false) (fun _ => ⟨keyExchangeAt 5, [true, true]⟩) 0
    (fun _ _ => htime ▸ by decide) [some 3, none] ?_
  refine everyStep_cons.mpr ⟨Or.inr hroom, fun s hs => ?_⟩
  obtain rfl := Except.ok.inj hs
  exact everyStep_cons.mpr ⟨⟨hroom, fun h => by cases h⟩, fun _ _ => everyStep_nil _ _ _⟩

end TimeServiceConfig

end ConcordBft
