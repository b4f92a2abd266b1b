import ConcordBft.Kvbc.V4Blockchain
import Mathlib.Data.List.Destutter

/-!
# Reads from the v4 blockchain

The last value of a key is read from its column family; a value of a given version, and every
immutable value, from the block that wrote it. Reads of many keys fetch each block once. Keys that
are stale on update leave the column families when a compaction meets them after their block was
pruned.
-/

namespace ConcordBft.Kvbc.V4

open Verif Exec Except Function List

structure Value where
  type : CategoryType
  blockId : ℕ
  data : List UInt8

variable {D : Type} {cfg : Config D} (s : Blockchain D) (categoryType : String → CategoryType)
  (category : String)

def getValueFromUpdate (blockId : ℕ) (key : String) (input : CategoryInput) : Option Value :=
  (input.kv key).map fun value => ⟨input.type, blockId, value.1⟩

variable (key : String)

def get (blockId : ℕ) : Option Value :=
  (s.blocks blockId).bind fun block =>
    (block.updates.kv category).bind (getValueFromUpdate blockId key)

def latestEntry : Option Entry :=
  s.keys (categoryType category).columnFamily category key

def getLatestVersion : Option ℕ :=
  (latestEntry s categoryType category key).map Entry.version

def getValue : Option Value :=
  (latestEntry s categoryType category key).map fun entry =>
    ⟨categoryType category, entry.version, entry.data⟩

def getLatest : Option Value :=
  if categoryType category = .immutable then
    (getLatestVersion s categoryType category key).bind (get s category key)
  else getValue s categoryType category key

/-! ## Reading many keys -/

variable (keys : List String)

def multiGetLatestVersion : List (Option ℕ) :=
  keys.map (getLatestVersion s categoryType category)

def multiGetValue : List (Option Value) :=
  keys.map (getValue s categoryType category)

/-- A repeated id is refused. -/
def multiGetBlockData (ids : List ℕ) : Exec (List (ℕ × Option (Block D))) :=
  ids.foldlM (fun values id => if id ∈ values.map Prod.fst then .error .exception
    else .ok (values ++ [(id, s.blocks id)])) []

/-- `std::unique` drops the repetitions that stand next to each other. -/
def multiGetBlockUpdates (ids : List ℕ) : Exec (List (ℕ × Option Updates)) := do
  let ids := ids.destutter (· ≠ ·)
  let values ← multiGetBlockData s ids
  ensure (ids.length = values.length)
  return values.map (Prod.map id (Option.map Block.updates))

def multiGet (versions : List ℕ) : Exec (List (Option Value)) := do
  ensure (keys.length = versions.length)
  let blocks ← multiGetBlockUpdates s versions
  return zipWith (fun key blockId => (blocks.lookup blockId).join.bind fun updates =>
    (updates.kv category).bind (getValueFromUpdate blockId key)) keys versions

def multiGetLatest : Exec (List (Option Value)) :=
  if categoryType category = .immutable then
    multiGet s category keys ((multiGetLatestVersion s categoryType category keys).map (·.getD 0))
  else .ok (multiGetValue s categoryType category keys)

/-- Equal ids stand next to each other. -/
abbrev Grouped (versions : List ℕ) : Prop := (versions.destutter (· ≠ ·)).Nodup

variable {s categoryType category} {keys : List String} {versions : List ℕ}

theorem multiGetBlockData_eq (ids : List ℕ) : multiGetBlockData s ids =
    if ids.Nodup then .ok (ids.map fun id => (id, s.blocks id)) else .error .exception := by
  suffices h : ∀ values : List (ℕ × Option (Block D)), (values.map Prod.fst).Nodup →
      ids.foldlM (fun values id => if id ∈ values.map Prod.fst then .error .exception
        else .ok (values ++ [(id, s.blocks id)])) values =
      if (values.map Prod.fst ++ ids).Nodup then
        (.ok (values ++ ids.map fun id => (id, s.blocks id)) : Exec _) else .error .exception from
    h [] nodup_nil
  induction ids with
  | nil => intro values h; simp [h]
  | cons id ids ih =>
    intro values h
    rw [foldlM_cons]
    split
    · rename_i hmem
      rw [error_bind, if_neg]
      exact fun hnodup => (disjoint_of_nodup_append hnodup) hmem mem_cons_self
    · rename_i hmem
      rw [ok_bind, ih _ (by simpa [nodup_append] using ⟨h, by grind⟩)]
      simp

theorem mem_destutter_ne {a : ℕ} {l : List ℕ} (h : a ∈ l) : a ∈ l.destutter (· ≠ ·) := by
  rcases l with _ | ⟨b, l⟩
  · exact h
  rw [destutter_cons']
  induction l generalizing b with
  | nil => exact h
  | cons c l ih =>
    by_cases hbc : b = c
    · simpa [hbc] using ih c (by simpa [hbc] using h)
    · simp only [ne_eq, hbc, not_false_eq_true, destutter'_cons_pos]
      exact (mem_cons.mp h).elim (fun h => h ▸ mem_cons_self) fun h =>
        mem_cons_of_mem _ (ih c h)

theorem multiGet_eq (hlen : keys.length = versions.length) : multiGet s category keys versions =
    if Grouped versions then .ok (zipWith (get s category) keys versions)
    else .error .exception := by
  simp only [multiGet, multiGetBlockUpdates, multiGetBlockData_eq]
  rw [ensure_decide hlen]
  by_cases hnodup : (versions.destutter (· ≠ ·)).Nodup
  · simp only [if_pos hnodup, ok_bind, length_map, decide_true, ensure_true, map_map,
      pure_eq_ok, ← map_uncurry_zip_eq_zipWith]
    congr 1
    refine map_congr_left fun ⟨key, blockId⟩ hmem => ?_
    have hlookup := lookup_graph (fun id => (s.blocks id).map Block.updates)
      (mem_destutter_ne (of_mem_zip hmem).2)
    exact (congrArg (fun found => found.join.bind fun updates =>
      (updates.kv category).bind (getValueFromUpdate blockId key)) hlookup).trans Option.bind_map
  · simp only [if_neg hnodup, error_bind]

variable (categoryType) in
theorem bulkReads_iff (hs : WellFormed s) (hlen : keys.length = versions.length) :
    (multiGet s category keys versions = .ok (zipWith (get s category) keys versions) ↔
      Grouped versions) ∧
    (multiGetLatest s categoryType category keys =
        .ok (keys.map (getLatest s categoryType category)) ↔
      (categoryType category = .immutable →
        Grouped (keys.map fun key => (getLatestVersion s categoryType category key).getD 0))) := by
  have hiff : ∀ (versions : List ℕ) (values : List (Option Value)), (if Grouped versions then
      .ok values else .error .exception : Exec _) = .ok values ↔ Grouped versions := by
    intro versions values
    split <;> simp [*]
  refine ⟨by rw [multiGet_eq hlen]; exact hiff _ _, ?_⟩
  by_cases himm : categoryType category = .immutable
  · have hget : ∀ key, get s category key ((getLatestVersion s categoryType category key).getD 0) =
        getLatest s categoryType category key := by
      intro key
      rw [getLatest, if_pos himm]
      rcases getLatestVersion s categoryType category key with _ | version
      · simp [get, hs.zero]
      · rfl
    rw [multiGetLatest, if_pos himm, multiGetLatestVersion, map_map,
      multiGet_eq (length_map _).symm, zipWith_map_right, zipWith_self]
    simp only [comp_apply, hget, himm, true_imp_iff]
    exact hiff _ _
  · have hget : getLatest s categoryType category = getValue s categoryType category :=
      funext fun _ => if_neg himm
    simp [multiGetLatest, himm, hget, multiGetValue]

def blank : Blockchain ℕ := empty

/-- An immutable key in the category `c`. -/
def immutableKey (key : String) : Updates where
  kv category := if category = "c" then
    some ⟨.immutable, fun k => if k = key then some ([], true) else none, []⟩ else none
  categories := ["c"]
  mem_categories category := by split_ifs with h <;> simp [h]
  internal := nofun

theorem multiGet_grouped : ∃ s,
    run (step numbered) empty [.add (immutableKey "a"), .add (immutableKey "b")] = .ok s ∧
    multiGet s "c" ["a", "b", "c"] [1, 2, 2] =
      .ok (zipWith (get s "c") ["a", "b", "c"] [1, 2, 2]) ∧
    multiGetLatest s (fun _ => .immutable) "c" ["b", "b", "a"] =
      .ok (["b", "b", "a"].map (getLatest s (fun _ => .immutable) "c")) := by
  have hrun : run (step numbered) empty [.add (immutableKey "a"), .add (immutableKey "b")] =
    .ok _ := rfl
  have hs := wellFormed_of_run hrun
  have hlen : ["b", "b", "a"].length = [2, 2, 1].length := rfl
  exact ⟨_, hrun, (bulkReads_iff (fun _ => .immutable) hs rfl).1.mpr (by decide),
    (bulkReads_iff (fun _ => .immutable) hs hlen).2.mpr fun _ => by decide⟩

theorem multiGet_interleaved : multiGet blank "c" ["a", "b", "a"] [1, 2, 1] ≠
    .ok (zipWith (get blank "c") ["a", "b", "a"] [1, 2, 1]) :=
  nofun

/-! ## Compaction -/

/-- `LKCompactionFilter::Filter` -/
def filter (s : Blockchain D) (entry : Entry) : Bool :=
  entry.staleOnUpdate && decide (entry.version < s.genesisBlockId)

/-- A compaction drops some of the entries that pass the filter. -/
def compaction (s : Blockchain D) (dropped : ColumnFamily → String → String → Bool) :
    Blockchain D :=
  { s with keys := fun cf category key =>
      (s.keys cf category key).filter fun entry => !(dropped cf category key && filter s entry) }

inductive Event
  | op (op : Op)
  | compaction (dropped : ColumnFamily → String → String → Bool)

def Event.operation : Event → Option Op
  | .op operation => some operation
  | .compaction _ => none

def stepWith (cfg : Config D) (s : Blockchain D) : Event → Exec (Blockchain D)
  | .op op => step cfg s op
  | .compaction dropped => .ok (compaction s dropped)

/-- No key that is stale on update has its last version below `n`. -/
def AllFrom (s : Blockchain D) (n : ℕ) : Prop :=
  ∀ cf category key, ∀ entry ∈ s.keys cf category key, entry.staleOnUpdate → n ≤ entry.version

/-- Blocks are added, and pruned once their keys that are stale on update were written again or
deleted. -/
def Keeps (s : Blockchain D) : Op → Prop
  | .add _ => True
  | .deleteGenesisBlock => AllFrom s (s.genesisBlockId + 1)
  | .deleteBlocksUntil until_ _ => AllFrom s (min s.lastReachable until_)
  | _ => False

/-- The four reads of the last values return the same. -/
def SameReads (categoryType : String → CategoryType) (s s' : Blockchain D) : Prop :=
  ∀ category keys, getLatest s categoryType category = getLatest s' categoryType category ∧
    multiGetLatest s categoryType category keys = multiGetLatest s' categoryType category keys ∧
    getLatestVersion s categoryType category = getLatestVersion s' categoryType category ∧
    multiGetLatestVersion s categoryType category keys =
      multiGetLatestVersion s' categoryType category keys

theorem compaction_eq (h : AllFrom s s.genesisBlockId)
    (dropped : ColumnFamily → String → String → Bool) : compaction s dropped = s := by
  have hkeys : (compaction s dropped).keys = s.keys := by
    funext cf category key
    rcases hentry : s.keys cf category key with _ | entry
    · simp [compaction, hentry]
    · have hfrom := h cf category key entry hentry
      have hkeep : filter s entry = false := by grind [filter]
      simp [compaction, hentry, hkeep]
  exact congrArg (fun keys => { s with keys }) hkeys

theorem AllFrom.mono {m n : ℕ} (h : AllFrom s n) (hmn : m ≤ n) : AllFrom s m :=
  fun cf category key entry hentry hstale => hmn.trans (h cf category key entry hentry hstale)

theorem AllFrom.addBlockKeys {n blockId : ℕ} {updates : Updates} (h : AllFrom s n)
    (hn : n ≤ blockId) : AllFrom { s with keys := addBlockKeys updates blockId s.keys } n := by
  intro cf category key entry hentry hstale
  have hold := h cf category key entry
  simp only [V4.addBlockKeys, Option.mem_def] at hentry hold
  split at hentry
  · exact hold hentry hstale
  rename_i input _
  split_ifs at hentry
  · exact hold hentry hstale
  · rcases hkv : input.kv key with _ | value
    · rw [hkv] at hentry
      exact hold hentry hstale
    · rw [hkv] at hentry
      obtain rfl := Option.some.inj hentry
      unfold CategoryInput.entry
      split <;> exact hn

theorem AllFrom.step {op : Op} {s' : Blockchain D} (hs : WellFormed s)
    (h : AllFrom s (max 1 s.genesisBlockId)) (hop : Keeps s op) (hstep : step cfg s op = .ok s') :
    AllFrom s' (max 1 s'.genesisBlockId) := by
  have hle := hs.genesis_le
  have hpos := hs.genesis_pos
  cases op with
  | add updates =>
    obtain ⟨r, hr, hstep⟩ := bind_eq_ok.mp hstep
    obtain ⟨digest, hadd, -⟩ := addBlock_eq cfg hs (addGenesisBlockKey updates s.genesisBlockId)
    obtain rfl := ok.inj (hadd.symm.trans hr)
    obtain rfl := ok.inj hstep
    split_ifs
    · refine (h.addBlockKeys ?_).mono ?_
      · omega
      · grind [Blockchain.append]
    · exact h
  | deleteGenesisBlock =>
    obtain ⟨-, hstep⟩ := ensure_bind_eq_ok.mp hstep
    obtain ⟨-, hstep⟩ := ensure_bind_eq_ok.mp hstep
    obtain rfl := ok.inj hstep
    exact hop.mono (by grind)
  | deleteBlocksUntil until_ leaked =>
    obtain ⟨-, hstep⟩ := ensure_bind_eq_ok.mp hstep
    obtain ⟨huntil, hstep⟩ := ensure_bind_eq_ok.mp hstep
    split at hstep
    · exact ok.inj hstep ▸ h
    · obtain rfl := ok.inj hstep
      exact hop.mono (by grind)
  | _ => exact hop.elim

theorem run_schedule {events : List Event} (hs : Stored cfg False s)
    (h : AllFrom s (max 1 s.genesisBlockId))
    (hops : EveryStep (step cfg) s Keeps (events.filterMap Event.operation)) :
    run (stepWith cfg) s events = run (step cfg) s (events.filterMap Event.operation) := by
  induction events generalizing s with
  | nil => rfl
  | cons event events ih =>
    cases event with
    | op op =>
      have hcons : (Event.op op :: events).filterMap Event.operation =
        op :: events.filterMap Event.operation := rfl
      rw [hcons] at hops ⊢
      obtain ⟨hop, hops⟩ := everyStep_cons.mp hops
      rw [run_cons, run_cons, stepWith]
      rcases hstep : step cfg s op with e | s'
      · rfl
      · exact ih (hs.step nofun hstep) (h.step hs.toWellFormed hop hstep) (hops s' hstep)
    | compaction dropped =>
      rw [filterMap_cons_none rfl] at hops ⊢
      rw [run_cons, stepWith, ok_bind, compaction_eq (h.mono (le_max_right ..))]
      exact ih hs h hops

theorem sameReads_of_keeps (schedule schedule' : List Event)
    (h : schedule'.filterMap Event.operation = schedule.filterMap Event.operation)
    (hops : EveryStep (step cfg) empty Keeps (schedule.filterMap Event.operation))
    (hrun : run (stepWith cfg) empty schedule = .ok s) :
    ∃ s', run (stepWith cfg) empty schedule' = .ok s' ∧ SameReads categoryType s s' := by
  have hstored : Stored cfg False empty := stored_of_run (fun h => h.elim) (run_nil _ _)
  refine ⟨s, ?_, fun _ _ => ⟨rfl, rfl, rfl, rfl⟩⟩
  rw [run_schedule hstored nofun (h ▸ hops), h, ← run_schedule hstored nofun hops, hrun]

def pruning (updates : Updates) : List Op := [.add updates, .add noUpdates, .deleteGenesisBlock]

def compactAll : Event := .compaction fun _ _ _ => true

theorem sameReads_pruning :
    ∃ s, run (stepWith numbered) empty ((pruning noUpdates).map .op) = .ok s ∧
      ∃ s', run (stepWith numbered) empty ((pruning noUpdates).map .op ++ [compactAll]) = .ok s' ∧
        SameReads (fun _ => .versioned_kv) s s' := by
  have hrun : run (stepWith numbered) empty ((pruning noUpdates).map .op) = .ok _ := rfl
  refine ⟨_, hrun, sameReads_of_keeps ((pruning noUpdates).map .op) _ rfl ?_ hrun⟩
  iterate 2 refine .cons trivial fun s hs => ?_; obtain rfl := ok.inj hs
  refine .cons ?_ fun s hs => everyStep_nil _ _ _
  intro cf category key entry hentry hstale
  change entry ∈ addBlockKeys (addGenesisBlockKey noUpdates 1) 2
    (addBlockKeys (addGenesisBlockKey noUpdates 0) 1 fun _ _ _ => none) cf category key at hentry
  simp only [addBlockKeys, addGenesisBlockKey, noUpdates, update_apply] at hentry
  change 2 ≤ entry.version
  clear hrun
  grind [CategoryInput.entry, update_apply]

def staleKey : Updates where
  kv category := if category = "c" then
    some ⟨.versioned_kv, fun key => if key = "k" then some ([], true) else none, []⟩ else none
  categories := ["c"]
  mem_categories category := by split_ifs with h <;> simp [h]
  internal := nofun

theorem not_sameReads : ∃ s s', run (stepWith numbered) empty ((pruning staleKey).map .op) = .ok s ∧
    run (stepWith numbered) empty ((pruning staleKey).map .op ++ [compactAll]) = .ok s' ∧
    ¬ SameReads (fun _ => .versioned_kv) s s' := by
  refine ⟨_, _, rfl, rfl, fun h => ?_⟩
  have hversion := congrFun (h "c" []).2.2.1 "k"
  exact absurd hversion (by decide : some 1 ≠ none)

end ConcordBft.Kvbc.V4
