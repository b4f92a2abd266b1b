import ConcordBft.Lib.Run
import ConcordBft.SparseMerkle.RootState

/-!
# The operations of an update

An update starts from the stored root with an empty cache, removes the deleted keys and inserts the
updated pairs. After all operations the root represents the map with the update applied; the stale
keys are those that were reachable at the start and are no longer.
-/

namespace ConcordBft.SparseMerkle

open Verif Verif.Exec BatchedInternalNode List

variable {hasher : Hasher} {T T' T₀ : LeafTrie} {k : List Bool} {o : Option LeafChild}
  {cache cache' cache₀ : UpdateCache} {m : Hash → Option Hash}

/-! ## The map of a tree -/

def deleteKey (hasher : Hasher) (m : Hash → Option Hash) (key : List UInt8) : Hash → Option Hash :=
  Function.update m (hasher.hash key) none

def insertPair (hasher : Hasher) (m : Hash → Option Hash) (keyValue : List UInt8 × List UInt8) :
    Hash → Option Hash :=
  Function.update m (hasher.hash keyValue.1) (some (hasher.hash keyValue.2))

/-- The map from key hashes to value hashes after an update. -/
def applyUpdate (hasher : Hasher) (m : Hash → Option Hash) (update : Update) : Hash → Option Hash :=
  update.updates.foldl (insertPair hasher) (update.deletedKeys.foldl (deleteKey hasher) m)

/-- The leaves of the trie are the entries of the map. -/
def Contents (m : Hash → Option Hash) (T : LeafTrie) : Prop :=
  ∀ h v, m h = some v ↔ ∃ a ∈ T, a.key.hash = h ∧ a.hash = v

theorem Contents.updated {h : Hash} (hm : Contents m T)
    (ho : ∀ c, o = some c → c.key.hash = h) (hupdated : Trie.Updated keyBits h.bits o T T') :
    Contents (Function.update m h (o.map LeafChild.hash)) T' := by
  intro h' v
  have hbits : ∀ a : LeafChild, keyBits a ≠ h.bits ↔ a.key.hash ≠ h := fun a =>
    not_congr Hash.bits_injective.eq_iff
  by_cases hh : h' = h
  · subst hh
    rw [Function.update_self, Option.map_eq_some_iff]
    constructor
    · rintro ⟨c, rfl, hc⟩
      exact ⟨c, (hupdated c).mpr (.inl rfl), ho c rfl, hc⟩
    · rintro ⟨a, ha, hkey, hv⟩
      rcases (hupdated a).mp ha with h | ⟨-, h⟩
      · exact ⟨a, h, hv⟩
      · exact absurd hkey ((hbits a).mp h)
  · rw [Function.update_of_ne hh, hm h' v]
    refine exists_congr fun a => and_congr_left fun hkey => ?_
    rw [hupdated a, hbits a, hkey.1]
    constructor
    · exact fun ha => .inr ⟨ha, hh⟩
    · rintro (h | ⟨ha, -⟩)
      · exact absurd (hkey.1.symm.trans (ho a h)) hh
      · exact ha

/-! ## Stale keys -/

/-- Since the start of the update. -/
structure KeysStep (cache₀ cache : UpdateCache) : Prop where
  same : cache₀.Same cache
  mem : ∀ key, key ∈ cache.staleInternalKeys ↔ key ∈ cache₀.staleInternalKeys ∨
    key.version ≠ cache₀.version ∧ cache₀.RootKey key ∧ ¬ cache.RootKey key
  old : ∀ key, key.version ≠ cache₀.version → cache.RootKey key → cache₀.RootKey key

theorem KeysStep.refl (cache : UpdateCache) : KeysStep cache cache :=
  ⟨.refl cache, fun key => by simp, fun _ _ h => h⟩

theorem KeysStep.step (h : KeysStep cache₀ cache) (hstep : RootStep hasher k o cache T cache' T') :
    KeysStep cache₀ cache' := by
  have hversion := h.same.version
  refine ⟨h.same.trans hstep.same, fun key => ?_, fun key hk hkey => ?_⟩
  · rw [hstep.stale key, h.mem key, hversion]
    constructor
    · rintro ((hmem | ⟨hk, h₀, hnot⟩) | ⟨hk, hkey, hnot⟩)
      · exact .inl hmem
      · exact .inr ⟨hk, h₀, fun h' => hnot (hstep.old key (by rwa [hversion]) h')⟩
      · exact .inr ⟨hk, h.old key hk hkey, hnot⟩
    · rintro (hmem | ⟨hk, h₀, hnot⟩)
      · exact .inl (.inl hmem)
      · by_cases hkey : cache.RootKey key
        · exact .inr ⟨hk, hkey, hnot⟩
        · exact .inl (.inr ⟨hk, h₀, hkey⟩)
  · exact h.old key hk (hstep.old key (by rwa [hversion]) hkey)

/-- The stale leaf keys, if the keys `ins` have been inserted so far. -/
structure LeavesStep (T₀ : LeafTrie) (cache : UpdateCache) (T : LeafTrie) (ins : List Hash) :
    Prop where
  mem : ∀ l, l ∈ cache.staleLeafKeys ↔ (∃ a ∈ T₀, a.key = l) ∧ ¬ ∃ a ∈ T, a.key = l
  old : ∀ a ∈ T, a ∈ T₀ ∨ a.key.version = cache.version ∧ a.key.hash ∈ ins

variable {ins : List Hash}

theorem LeavesStep.step {h : Hash} (hleaves : LeavesStep T₀ cache T ins)
    (hold : ∀ a ∈ T₀, a.key.version < cache.version)
    (ho : ∀ c, o = some c → c.key = ⟨h, cache.version⟩) (hnew : h ∉ ins)
    (hstep : RootStep hasher h.bits o cache T cache' T') :
    LeavesStep T₀ cache' T' (ins ++ (o.map fun _ => h).toList) := by
  have hbits : ∀ a : LeafChild, keyBits a = h.bits ↔ a.key.hash = h := fun a =>
    Hash.bits_injective.eq_iff
  have hupdated : ∀ a, a ∈ T' ↔ o = some a ∨ a ∈ T ∧ a.key.hash ≠ h := by
    intro a
    rw [hstep.updated a, Ne, hbits a]
  -- the leaf that is replaced was there at the start
  have hreplaced : ∀ a ∈ T, a.key.hash = h → a ∈ T₀ := by
    intro a ha heq
    refine (hleaves.old a ha).resolve_right fun hin => hnew ?_
    rw [← heq]
    exact hin.2
  constructor
  · intro l
    rw [hstep.leaves l, hleaves.mem l]
    constructor
    · rintro (⟨h₀, hnot⟩ | ⟨a, ha, hk, rfl⟩)
      · refine ⟨h₀, ?_⟩
        rintro ⟨a, ha, rfl⟩
        rcases (hupdated a).mp ha with hoa | ⟨ha, -⟩
        · obtain ⟨b, hb, hkey⟩ := h₀
          have hlt := hold b hb
          rw [hkey, ho a hoa] at hlt
          exact lt_irrefl _ hlt
        · exact hnot ⟨a, ha, rfl⟩
      · rw [hbits a] at hk
        refine ⟨⟨a, hreplaced a ha hk, rfl⟩, ?_⟩
        rintro ⟨b, hb, hkey⟩
        rcases (hupdated b).mp hb with hob | ⟨-, hne⟩
        · have hlt := hold a (hreplaced a ha hk)
          rw [← hkey, ho b hob] at hlt
          exact lt_irrefl _ hlt
        · rw [hkey] at hne
          exact hne hk
    · rintro ⟨h₀, hnot⟩
      by_cases hT : ∃ a ∈ T, a.key = l
      · obtain ⟨a, ha, rfl⟩ := hT
        refine .inr ⟨a, ha, ?_, rfl⟩
        rw [hbits a]
        by_contra hne
        exact hnot ⟨a, (hupdated a).mpr (.inr ⟨ha, hne⟩), rfl⟩
      · exact .inl ⟨h₀, hT⟩
  · intro a ha
    rw [hstep.same.version]
    rcases (hupdated a).mp ha with hoa | ⟨ha, -⟩
    · refine .inr ⟨by rw [ho a hoa], ?_⟩
      rw [hoa, ho a hoa]
      simp
    · exact (hleaves.old a ha).imp_right fun h => ⟨h.1, mem_append_left _ h.2⟩

/-! ## All operations -/

/-- The state of an update that started with `cache₀` and `T₀` and has the map `m`, after the keys
`ins` have been inserted. -/
structure UpdateInv (hasher : Hasher) (cache₀ : UpdateCache) (T₀ : LeafTrie)
    (m : Hash → Option Hash) (ins : List Hash) (cache : UpdateCache) (T : LeafTrie) : Prop where
  rep : RootRep hasher cache T
  keys : KeysStep cache₀ cache
  contents : Contents m T
  versions : ∀ a ∈ T, a ∈ T₀ ∨
    a.key.version = cache₀.version ∧ (cache.internalNodes.lookup []).isSome
  leaves : ins.Nodup → LeavesStep T₀ cache T ins
  inserted : ∀ h ∈ ins, ∃ a ∈ T, a.key = ⟨h, cache₀.version⟩

theorem UpdateInv.versions_step (h : UpdateInv hasher cache₀ T₀ m ins cache T)
    (ho : ∀ c, o = some c → c.key.version = cache.version)
    (hstep : RootStep hasher k o cache T cache' T') :
    ∀ a ∈ T', a ∈ T₀ ∨
      a.key.version = cache₀.version ∧ (cache'.internalNodes.lookup []).isSome := by
  intro a ha
  rcases (hstep.updated a).mp ha with hoa | ⟨ha, -⟩
  · refine .inr ⟨(ho a hoa).trans h.keys.same.version, hstep.root (.inr ?_)⟩
    rw [hoa]
    simp
  · exact (h.versions a ha).imp_right fun hv => ⟨hv.1, hstep.root (.inl hv.2)⟩

theorem UpdateInv.removeKey (h : UpdateInv hasher cache₀ T₀ m [] cache T)
    (hold : ∀ a ∈ T₀, a.key.version < cache₀.version) (key : List UInt8) :
    ∃ cache' T', removeKey hasher cache key = .ok cache' ∧
      UpdateInv hasher cache₀ T₀ (deleteKey hasher m key) [] cache' T' := by
  obtain ⟨cache', T', hok, hstep⟩ := h.rep.remove (hasher.hash key)
  refine ⟨cache', T', hok, hstep.rep, h.keys.step hstep, ?_,
    h.versions_step (fun _ h => by cases h) hstep, fun _ => ?_, fun _ hin => by cases hin⟩
  · exact h.contents.updated (fun _ h => by cases h) hstep.updated
  · have hversion := h.keys.same.version
    exact (h.leaves nodup_nil).step (by rwa [hversion]) (fun _ h => by cases h)
      not_mem_nil hstep

theorem UpdateInv.insertKeyValue (h : UpdateInv hasher cache₀ T₀ m ins cache T)
    (hold : ∀ a ∈ T₀, a.key.version < cache₀.version) (keyValue : List UInt8 × List UInt8) :
    ∃ cache' T', insertKeyValue hasher cache keyValue = .ok cache' ∧
      UpdateInv hasher cache₀ T₀ (insertPair hasher m keyValue)
        (ins ++ [hasher.hash keyValue.1]) cache' T' := by
  obtain ⟨cache', T', hok, hstep⟩ := h.rep.insert (leafOf hasher cache.version keyValue) rfl
  have hbits : keyBits (leafOf hasher cache.version keyValue) = (hasher.hash keyValue.1).bits := rfl
  rw [hbits] at hstep
  refine ⟨cache', T', hok, hstep.rep, h.keys.step hstep, ?_,
    h.versions_step (fun _ h => by cases h; rfl) hstep, fun hnodup => ?_, fun h' hin => ?_⟩
  · exact h.contents.updated (fun _ h => by cases h; rfl) hstep.updated
  · have hversion := h.keys.same.version
    rw [nodup_append] at hnodup
    refine (h.leaves hnodup.1).step (by rwa [hversion]) (fun _ h => by cases h; rfl) (fun hin => ?_)
      hstep
    exact hnodup.2.2 _ hin _ (mem_singleton_self _) rfl
  · have hnew : (leafOf hasher cache.version keyValue).key =
        ⟨hasher.hash keyValue.1, cache₀.version⟩ := by
      rw [h.keys.same.version]
      rfl
    by_cases hh : h' = hasher.hash keyValue.1
    · rw [hh]
      exact ⟨_, (hstep.updated _).mpr (.inl rfl), hnew⟩
    · -- an earlier key, whose leaf is kept
      rw [mem_append, mem_singleton] at hin
      obtain ⟨a, ha, hkey⟩ := h.inserted h' (hin.resolve_right hh)
      refine ⟨a, (hstep.updated a).mpr (.inr ⟨ha, fun heq => hh ?_⟩), hkey⟩
      rw [← Hash.bits_injective heq, hkey]

/-- **The operations of an update** succeed, and leave the root of the map after the update. -/
theorem UpdateInv.update (h : UpdateInv hasher cache₀ T₀ m [] cache₀ T₀)
    (hold : ∀ a ∈ T₀, a.key.version < cache₀.version) (update : Update) :
    ∃ cache' T', (do
      let cache ← update.deletedKeys.foldlM (SparseMerkle.removeKey hasher) cache₀
      update.updates.foldlM (SparseMerkle.insertKeyValue hasher) cache) = .ok cache' ∧
      UpdateInv hasher cache₀ T₀ (applyUpdate hasher m update)
        (update.updates.map fun keyValue => hasher.hash keyValue.1) cache' T' := by
  obtain ⟨cache₁, hrun₁, T₁, h₁⟩ :
      ∃ cache₁, run (SparseMerkle.removeKey hasher) cache₀ update.deletedKeys = .ok cache₁ ∧
        ∃ T₁, UpdateInv hasher cache₀ T₀ (update.deletedKeys.foldl (deleteKey hasher) m) []
          cache₁ T₁ := by
    refine run_invariant (P := fun keys cache => ∃ T, UpdateInv hasher cache₀ T₀
      (keys.foldl (deleteKey hasher) m) [] cache T) ⟨T₀, h⟩ ?_ update.deletedKeys
    rintro before cache key ⟨T, hinv⟩
    obtain ⟨cache', T', hok, hinv'⟩ := hinv.removeKey hold key
    exact ⟨cache', hok, T', by rwa [foldl_append]⟩
  obtain ⟨cache₂, hrun₂, T₂, h₂⟩ :
      ∃ cache₂, run (SparseMerkle.insertKeyValue hasher) cache₁ update.updates = .ok cache₂ ∧
        ∃ T₂, UpdateInv hasher cache₀ T₀ (applyUpdate hasher m update)
          (update.updates.map fun keyValue => hasher.hash keyValue.1) cache₂ T₂ := by
    refine run_invariant (P := fun pairs cache => ∃ T, UpdateInv hasher cache₀ T₀
      (pairs.foldl (insertPair hasher) (update.deletedKeys.foldl (deleteKey hasher) m))
      (pairs.map fun keyValue => hasher.hash keyValue.1) cache T) ⟨T₁, h₁⟩ ?_ update.updates
    rintro before cache keyValue ⟨T, hinv⟩
    obtain ⟨cache', T', hok, hinv'⟩ := hinv.insertKeyValue hold keyValue
    exact ⟨cache', hok, T', by rwa [foldl_append, map_append]⟩
  refine ⟨cache₂, T₂, ?_, h₂⟩
  show (run (SparseMerkle.removeKey hasher) cache₀ update.deletedKeys >>= fun cache =>
    run (SparseMerkle.insertKeyValue hasher) cache update.updates) = _
  rw [hrun₁, ok_bind, hrun₂]

end ConcordBft.SparseMerkle
