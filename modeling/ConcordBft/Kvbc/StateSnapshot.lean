import Mathlib.Data.List.Infix
import Mathlib.Data.Nat.Notation
import Mathlib.Tactic.SplitIfs

/-!
# Resuming a state snapshot

A client reads the public state from one server after another. It asks the next server for what
comes after the last key it read, where the empty string stands for none. It pushes each pair after
the caller's key once, in the order of keys, exactly if the first stream that delivers anything does
not break behind the empty key: that position is forgotten (`receiveSnapshot_eq_iff`).
-/

namespace ConcordBft.Kvbc

open List

/-- A checkpoint whose public state has all its values. -/
structure StateSnapshot (V : Type) where
  keys : List (List UInt8)
  sorted : keys.Pairwise (· < ·)
  value : List UInt8 → V
  /-- `stateIterationMultiGetBatchSize` -/
  batchSize : ℕ
  batchSize_pos : 0 < batchSize

namespace StateSnapshot

variable {V : Type} (s : StateSnapshot V)

def pair (key : List UInt8) : List UInt8 × V := (key, s.value key)

/-- The loop over the batches from index `idx` on. -/
def iterateFrom : ℕ → ℕ → List (List UInt8 × V)
  | 0, _ => []
  | fuel + 1, idx =>
    if idx < s.keys.length then
      let batch := (s.keys.drop idx).take s.batchSize
      batch.map s.pair ++ iterateFrom fuel (idx + batch.length)
    else []

/-- What is handed over, or `none` if the key is not there. -/
def iteratePublicStateKeyValues : Option (List UInt8) → Option (List (List UInt8 × V))
  | none => some (s.iterateFrom s.keys.length 0)
  | some after_key =>
    -- `std::lower_bound`
    let it := s.keys.findIdx fun key => !decide (key < after_key)
    if s.keys[it]? = some after_key then some (s.iterateFrom s.keys.length (it + 1)) else none

variable (last_received_key : Option (List UInt8))

/-- `StreamSnapshot`, asked by a client that has read up to `last_read_key`. -/
def stream (last_read_key : List UInt8) : List (List UInt8 × V) :=
  -- a status of `INVALID_ARGUMENT` delivers nothing
  (s.iteratePublicStateKeyValues
    (if last_read_key.isEmpty then last_received_key else some last_read_key)).getD []

/-- What is pushed when the streams of the servers break after so many pairs, and then one server
reports the end. -/
def receiveSnapshot : List ℕ → List UInt8 → List (List UInt8 × V)
  | [], last_read_key => s.stream last_received_key last_read_key
  | n :: breaks, last_read_key =>
    let read := (s.stream last_received_key last_read_key).take n
    read ++ receiveSnapshot breaks ((read.getLast?.map Prod.fst).getD last_read_key)

/-- The part of the public state that was asked for. -/
def keysAfter : List (List UInt8) :=
  s.keys.filter fun key => last_received_key.all (· < key)

variable {s last_received_key} {before after : List (List UInt8)} {key : List UInt8}

theorem iterateFrom_eq {fuel idx : ℕ} (h : s.keys.length ≤ idx + fuel) :
    s.iterateFrom fuel idx = (s.keys.drop idx).map s.pair := by
  induction fuel generalizing idx with
  | zero => exact (congrArg (map s.pair) (drop_eq_nil_of_le h)).symm
  | succ fuel ih =>
    rw [iterateFrom]
    split_ifs with hlt
    · have hpos := s.batchSize_pos
      dsimp only
      rw [ih (by rw [length_take, length_drop]; omega), ← map_append, ← drop_drop,
        ← prefix_append_drop ( take_prefix _ _)]
    · rw [drop_eq_nil_of_le (by omega)]
      rfl

theorem lt_of_eq (hkeys : s.keys = before ++ key :: after) :
    (∀ x ∈ before, x < key) ∧ ∀ x ∈ after, key < x := by
  have hsorted := pairwise_append.mp (hkeys ▸ s.sorted)
  exact ⟨fun x hx => hsorted.2.2 x hx key mem_cons_self, (pairwise_cons.mp hsorted.2.1).1⟩

theorem iterate_after (hkeys : s.keys = before ++ key :: after) :
    s.iteratePublicStateKeyValues (some key) = some (after.map s.pair) := by
  have hidx : s.keys.findIdx (fun x => !decide (x < key)) = before.length := by
    have hbefore : before.findIdx (fun x => !decide (x < key)) = before.length :=
      findIdx_eq_length.mpr fun x hx => by simp [(lt_of_eq hkeys).1 x hx]
    rw [hkeys, findIdx_append, hbefore, if_neg (Nat.lt_irrefl _), findIdx_cons]
    simp [List.lt_irrefl]
  unfold iteratePublicStateKeyValues
  dsimp only
  rw [hidx, iterateFrom_eq (by omega)]
  simp [hkeys]

theorem receive_spec (breaks : List ℕ) {E : List (List UInt8)} (hkeys : s.keys = before ++ E)
    (hstream : s.stream last_received_key key = E.map s.pair) (hkey : key ≠ [] → [] ∉ E) :
    (s.receiveSnapshot last_received_key breaks key = E.map s.pair ↔
      ∀ n ∈ breaks.find? (0 < ·), E.take n ≠ [[]]) ∧
    E.length ≤ (s.receiveSnapshot last_received_key breaks key).length := by
  induction breaks generalizing before E key with
  | nil => simp [receiveSnapshot, hstream]
  | cons n breaks ih =>
    rw [receiveSnapshot, hstream, ← map_take, getLast?_map, Option.map_map]
    simp only [pair, Function.comp_def, Option.map_id']
    cases n with
    | zero => simpa using ih hkeys hstream hkey
    | succ n =>
    have hfind : ((n + 1) :: breaks).find? (0 < ·) = some (n + 1) := by simp
    rw [hfind]
    rcases eq_nil_or_concat' (E.take (n + 1)) with hnil | ⟨a, x, hx⟩
    · obtain rfl := (take_eq_nil_iff.mp hnil).resolve_left n.succ_ne_zero
      simpa using ih hkeys hstream hkey
    have hE : E = a ++ x :: E.drop (n + 1) := by simpa [hx] using (take_append_drop (n + 1) E).symm
    have hkeys' : s.keys = before ++ a ++ x :: E.drop (n + 1) := by
      rw [append_assoc, ← hE, hkeys]
    rw [hx, getLast?_concat, Option.getD_some]
    by_cases hempty : x = []
    · -- nothing comes before the empty key, and the next server begins again
      subst hempty
      obtain rfl : a = [] := eq_nil_iff_forall_not_mem.mpr fun y hy =>
        not_lt_nil y ((lt_of_eq hkeys').1 y (mem_append_right before hy))
      obtain rfl : key = [] := not_not.mp fun hne => hkey hne (by rw [hE]; simp)
      have hlen := (ih hkeys hstream hkey).2
      refine ⟨iff_of_false (fun heq => ?_) (by simp [hx]), ?_⟩
      · have hlong := congrArg length heq
        simp at hlong
        omega
      · rw [length_append]
        omega
    · have hrest : [] ∉ E.drop (n + 1) := fun hmem => not_lt_nil _ ((lt_of_eq hkeys').2 [] hmem)
      have hstream' : s.stream last_received_key x = (E.drop (n + 1)).map s.pair := by
        simp [stream, hempty, iterate_after hkeys']
      have hnext := (ih (hkeys'.trans (append_cons ..)) hstream' fun _ => hrest).1.mpr
        fun m _ heq => hrest (mem_of_mem_take (heq ▸ mem_singleton_self []))
      rw [hnext, ← map_append, ← hx, take_append_drop]
      exact ⟨iff_of_true rfl (by simp [hx, append_eq_cons_iff, hempty]), (length_map ..).ge⟩

/-- **A snapshot resumes exactly if no position is forgotten.** -/
theorem receiveSnapshot_eq_iff (s : StateSnapshot V) (last_received_key : Option {k // k ∈ s.keys})
    (breaks : List ℕ) :
    s.receiveSnapshot (last_received_key.map (↑)) breaks [] =
        (s.keysAfter (last_received_key.map (↑))).map s.pair ↔
      ∀ n ∈ breaks.find? (0 < ·), (s.keysAfter (last_received_key.map (↑))).take n ≠ [[]] := by
  rcases last_received_key with _ | ⟨key, hkey⟩
  · have hall : s.keysAfter none = s.keys := by simp [keysAfter]
    refine (receive_spec breaks ((nil_append _).trans hall).symm ?_ (absurd rfl)).1
    simp [stream, iteratePublicStateKeyValues, iterateFrom_eq, hall]
  · obtain ⟨before, after, hkeys⟩ := append_of_mem hkey
    obtain ⟨hlow, hhigh⟩ := lt_of_eq hkeys
    have hafter : s.keysAfter (some key) = after := by
      rw [keysAfter, hkeys, filter_append, filter_cons_of_neg (by simp [List.lt_irrefl]),
        filter_eq_nil_iff.mpr fun x hx => by simpa using List.lt_asymm (hlow x hx),
        filter_eq_self.mpr fun x hx => by simpa using hhigh x hx, nil_append]
    refine (receive_spec breaks (hafter ▸ hkeys.trans (append_cons ..)) ?_ (absurd rfl)).1
    simp [stream, iterate_after hkeys, hafter]

def twoKeys : StateSnapshot Unit := ⟨[[], [1]], by decide, fun _ => (), 1, Nat.one_pos⟩

/-- The first stream breaks behind the empty key, which is pushed again. -/
theorem twoKeys_repeated :
    twoKeys.receiveSnapshot none [1] [] ≠ (twoKeys.keysAfter none).map twoKeys.pair := by
  decide

end StateSnapshot

end ConcordBft.Kvbc
