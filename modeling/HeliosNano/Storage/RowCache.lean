import HeliosNano.Foundation.Lru
import HeliosNano.Foundation.Runs
import Mathlib.Algebra.Group.Nat.Defs

namespace HeliosNano.Storage.RowCaching
open Foundation List Function

structure RowCacheKey where
  table : String
  row_id : Nat
deriving DecidableEq

structure CachedRow (Tuple : Type) where
  tuple : Tuple
  cached_at : Nat
  ttl : Nat
  access_count : Nat

structure RowCacheConfig where
  max_entries : Nat
  default_ttl : Nat
  min_ttl : Nat
  enabled : Bool

def rowCacheShards : Nat := 16

/-- The tables written recently keep their rows for a shorter time; the set is dropped after a minute. -/
def hotTablesReset : Nat := 60*10^9

structure RowCache (Tuple : Type) where
  shards : Nat → Lru RowCacheKey (CachedRow Tuple)
  hot_tables : List String
  hot_tables_last_reset : Nat

variable {Tuple : Type}

namespace CachedRow

def fromArc (tuple : Tuple) (ttl now : Nat) : CachedRow Tuple := ⟨tuple,now,ttl,1⟩

def isExpired (entry : CachedRow Tuple) (now : Nat) : Bool := decide (now-entry.cached_at > entry.ttl)

def access (entry : CachedRow Tuple) : CachedRow Tuple := { entry with access_count := entry.access_count+1 }

end CachedRow

/-- What a look-up finds in its first critical section. -/
inductive Lookup (Tuple : Type)
  | hit (tuple : Tuple)
  | miss
  | expired

namespace RowCache

def numShards (config : RowCacheConfig) : Nat := if config.max_entries ≥ rowCacheShards then rowCacheShards else 1

def perShard (config : RowCacheConfig) : Nat := max (config.max_entries / numShards config) 1

def withConfig (config : RowCacheConfig) (now : Nat) : RowCache Tuple where
  shards _ := .empty (perShard config) (Nat.lt_of_lt_of_le Nat.one_pos (Nat.le_max_right _ _))
  hot_tables := []
  hot_tables_last_reset := now

section
variable (hash : RowCacheKey → Nat) (config : RowCacheConfig)

def shardFor (key : RowCacheKey) : Nat := hash key &&& (numShards config - 1)

variable (cache : RowCache Tuple) (key : RowCacheKey) (now : Nat)

def shard : Lru RowCacheKey (CachedRow Tuple) := cache.shards (shardFor hash config key)

def setShard (shard : Lru RowCacheKey (CachedRow Tuple)) : RowCache Tuple :=
  { cache with shards := Function.update cache.shards (shardFor hash config key) shard }

/-- The look-up under the shared lock, which leaves the recency as it is. -/
def getShared : Lookup Tuple :=
  match (cache.shard hash config key).peek key with
  | some entry => if entry.isExpired now then .expired else .hit entry.tuple
  | none => .miss

/-- The look-up of an expired entry again, under the exclusive lock. -/
def getExclusive : RowCache Tuple × Option Tuple :=
  match (cache.shard hash config key).peek key with
  | some entry =>
    if entry.isExpired now then (cache.setShard hash config key ((cache.shard hash config key).pop key),none)
    else (cache,some entry.tuple)
  | none => (cache,none)

/-- The look-up of the legacy path, which counts the access. -/
def getLegacy : RowCache Tuple × Option Tuple :=
  match (cache.shard hash config key).peek key with
  | some entry =>
    if entry.isExpired now then (cache.setShard hash config key ((cache.shard hash config key).pop key),none)
    else (cache.setShard hash config key ((cache.shard hash config key).touch key CachedRow.access),some entry.tuple)
  | none => (cache,none)

def getTtlForTable (table : String) : Nat :=
  if cache.hot_tables.contains table then config.min_ttl else config.default_ttl

/-- The critical section of a fill: the generation is compared under the lock of the shard. -/
def putArcChecked (tuple : Tuple) (ttl current expected : Nat) : RowCache Tuple × Bool :=
  if current ≠ expected then (cache,false)
  else (cache.setShard hash config key ((cache.shard hash config key).put key (.fromArc tuple ttl now)),true)

/-- The critical section of an invalidation, and whether it removed a row. -/
def invalidateInner : RowCache Tuple × Bool :=
  (cache.setShard hash config key ((cache.shard hash config key).pop key),
    ((cache.shard hash config key).peek key).isSome)

def markTableHot (table : String) : RowCache Tuple :=
  if now-cache.hot_tables_last_reset > hotTablesReset then
    { cache with hot_tables := [table], hot_tables_last_reset := now }
  else { cache with hot_tables := cache.hot_tables.insert table }

end
end RowCache
open RowCache

/-- A row in storage, with the number of the write that stored it. -/
structure Versioned (Row : Type) where
  version : Nat
  row : Row

/-- Where a thread is: in a fill, in a write, or in a look-up that found an expired entry. -/
inductive Phase (Tuple : Type)
  | idle
  | captured (key : RowCacheKey) (generation since : Nat)
  | fetched (key : RowCacheKey) (generation since : Nat) (row : Versioned Tuple)
  | filling (key : RowCacheKey) (generation since : Nat) (row : Versioned Tuple) (ttl : Nat)
  | mutated (key : RowCacheKey) (version : Nat)
  | marking (table : String)
  | reaping (key : RowCacheKey)

/-- What a look-up returned, with the newest write of the row whose invalidation was complete when it read. -/
structure Get (Tuple : Type) where
  key : RowCacheKey
  announced : Nat
  result : Option (Versioned Tuple)

/-- A guarded fill, with the numbers of invalidations before its capture and before its critical section. -/
structure Fill where
  key : RowCacheKey
  since : Nat
  reached : Nat
  accepted : Bool
deriving DecidableEq

structure World (Tuple : Type) where
  cache : RowCache (Versioned Tuple)
  generation : Nat
  storage : RowCacheKey → Versioned (Option Tuple)
  now : Nat
  phases : Nat → Phase Tuple
  invalidations : Nat
  announced : RowCacheKey → Nat
  gets : List (Get Tuple)
  fills : List Fill

inductive Step (Tuple : Type)
  | capture (id : Nat) (key : RowCacheKey)
  | fetch (id : Nat)
  | chooseTtl (id : Nat)
  | fill (id : Nat)
  | mutate (id : Nat) (key : RowCacheKey) (row : Option Tuple)
  | invalidate (id : Nat)
  | mark (id : Nat)
  | get (id : Nat) (key : RowCacheKey)
  | reap (id : Nat)
  | bump
  | tick (elapsed : Nat)

namespace World
variable (hash : RowCacheKey → Nat) (config : RowCacheConfig) (legacy : Bool)

def setPhase (w : World Tuple) (id : Nat) (phase : Phase Tuple) : World Tuple :=
  { w with phases := Function.update w.phases id phase }

def returned (w : World Tuple) (key : RowCacheKey) (result : Option (Versioned Tuple)) : World Tuple :=
  { w with gets := w.gets ++ [⟨key,w.announced key,result⟩] }

def announce (w : World Tuple) (key : RowCacheKey) (version : Nat) : World Tuple :=
  { w with
    generation := w.generation+1
    invalidations := w.invalidations+1
    announced := Function.update w.announced key (max (w.announced key) version) }

def step (w : World Tuple) : Step Tuple → World Tuple
  | .capture id key =>
    match w.phases id with
    | .idle => w.setPhase id (.captured key w.generation w.invalidations)
    | _ => w
  | .fetch id =>
    match w.phases id with
    | .captured key generation since =>
      match (w.storage key).row with
      | some row => w.setPhase id (.fetched key generation since ⟨(w.storage key).version,row⟩)
      | none => w.setPhase id .idle
    | _ => w
  | .chooseTtl id =>
    match w.phases id with
    | .fetched key generation since row =>
      if config.enabled then w.setPhase id (.filling key generation since row (w.cache.getTtlForTable config key.table))
      else { w.setPhase id .idle with fills := w.fills ++ [⟨key,since,w.invalidations,false⟩] }
    | _ => w
  | .fill id =>
    match w.phases id with
    | .filling key generation since row ttl =>
      let (cache,accepted) := w.cache.putArcChecked hash config key w.now row ttl w.generation generation
      { w.setPhase id .idle with cache := cache, fills := w.fills ++ [⟨key,since,w.invalidations,accepted⟩] }
    | _ => w
  | .mutate id key row =>
    match w.phases id with
    | .idle =>
      { w.setPhase id (.mutated key ((w.storage key).version + 1)) with
        storage := Function.update w.storage key ⟨(w.storage key).version + 1,row⟩ }
    | _ => w
  | .invalidate id =>
    match w.phases id with
    | .mutated key version =>
      if config.enabled then
        let (cache,removed) := w.cache.invalidateInner hash config key
        { (w.announce key version).setPhase id (if removed then .marking key.table else .idle) with cache := cache }
      else (w.announce key version).setPhase id .idle
    | _ => w
  | .mark id =>
    match w.phases id with
    | .marking table => { w.setPhase id .idle with cache := w.cache.markTableHot w.now table }
    | _ => w
  | .get id key =>
    match w.phases id with
    | .idle =>
      if !config.enabled then w.returned key none
      else if legacy then
        let (cache,result) := w.cache.getLegacy hash config key w.now
        { w.returned key result with cache := cache }
      else
        match w.cache.getShared hash config key w.now with
        | .hit tuple => w.returned key (some tuple)
        | .miss => w.returned key none
        | .expired => w.setPhase id (.reaping key)
    | _ => w
  | .reap id =>
    match w.phases id with
    | .reaping key =>
      let (cache,result) := w.cache.getExclusive hash config key w.now
      { (w.returned key result).setPhase id .idle with cache := cache }
    | _ => w
  | .bump => { w with generation := w.generation+1 }
  | .tick elapsed => { w with now := w.now+elapsed }

end World

namespace RowCache
variable {hash : RowCacheKey → Nat} {config : RowCacheConfig} {cache : RowCache Tuple} {key key' : RowCacheKey}

def peekRow (hash : RowCacheKey → Nat) (config : RowCacheConfig) (cache : RowCache Tuple) (key : RowCacheKey) :
    Option (CachedRow Tuple) :=
  (cache.shard hash config key).peek key

def Within (hash : RowCacheKey → Nat) (config : RowCacheConfig) (cache cache' : RowCache Tuple) : Prop :=
  ∀ key entry, cache.peekRow hash config key = some entry →
    ∃ entry', cache'.peekRow hash config key = some entry' ∧ entry'.tuple = entry.tuple

theorem within_refl : cache.Within hash config cache := fun _ entry h => ⟨entry,h,rfl⟩

theorem peekRow_setShard {shard : Lru RowCacheKey (CachedRow Tuple)} :
    (cache.setShard hash config key shard).peekRow hash config key' =
      if shardFor hash config key' = shardFor hash config key then shard.peek key'
      else cache.peekRow hash config key' := by
  simp only [peekRow,setShard,RowCache.shard,update_apply]
  split
  · rfl
  · rfl

theorem peek_shard (h : shardFor hash config key' = shardFor hash config key) :
    (cache.shard hash config key).peek key' = cache.peekRow hash config key' := by
  simp only [peekRow,shard,h]

theorem peekRow_pop : (cache.setShard hash config key ((cache.shard hash config key).pop key)).peekRow hash config key' =
      if key' = key then none else cache.peekRow hash config key' := by
  rw [peekRow_setShard,Lru.peek_pop]
  by_cases hkey : key' = key
  · simp [hkey]
  simp only [hkey,if_false]
  split
  · next h => exact peek_shard h
  · rfl

theorem within_pop : (cache.setShard hash config key ((cache.shard hash config key).pop key)).Within hash config cache := by
  intro key' entry h
  rw [peekRow_pop] at h
  split at h
  · cases h
  · exact ⟨entry,h,rfl⟩

theorem within_touch {f : CachedRow Tuple → CachedRow Tuple} (hf : ∀ entry, (f entry).tuple = entry.tuple) :
    (cache.setShard hash config key ((cache.shard hash config key).touch key f)).Within hash config cache := by
  intro key' entry h
  rw [peekRow_setShard] at h
  split at h
  · next hs =>
    by_cases hkey : key' = key
    · subst hkey
      rw [Lru.peek_touch_self,Option.map_eq_some_iff] at h
      obtain ⟨entry',he,rfl⟩ := h
      exact ⟨entry',he,(hf entry').symm⟩
    · refine ⟨entry,?_,rfl⟩
      rw [← peek_shard hs]
      exact Lru.peek_of_peek_touch hkey h
  · exact ⟨entry,h,rfl⟩

variable {now : Nat} {tuple : Tuple}

theorem within_getExclusive : (cache.getExclusive hash config key now).1.Within hash config cache := by
  rw [getExclusive]
  split
  · split
    · exact within_pop
    · exact within_refl
  · exact within_refl

theorem within_getLegacy : (cache.getLegacy hash config key now).1.Within hash config cache := by
  rw [getLegacy]
  split
  · split
    · exact within_pop
    · exact within_touch fun _ => rfl
  · exact within_refl

theorem within_markTableHot {table : String} : (cache.markTableHot now table).Within hash config cache := by
  rw [markTableHot]
  split
  · exact within_refl
  · exact within_refl

theorem getShared_hit (h : cache.getShared hash config key now = .hit tuple) :
    ∃ entry, cache.peekRow hash config key = some entry ∧ entry.tuple = tuple := by
  rw [getShared] at h
  split at h
  · next entry he =>
    split at h
    · cases h
    · exact ⟨entry,he,by simpa using h⟩
  · cases h

theorem getExclusive_some (h : (cache.getExclusive hash config key now).2 = some tuple) :
    ∃ entry, cache.peekRow hash config key = some entry ∧ entry.tuple = tuple := by
  rw [getExclusive] at h
  split at h
  · next entry he =>
    split at h
    · cases h
    · exact ⟨entry,he,by simpa using h⟩
  · cases h

theorem getLegacy_some (h : (cache.getLegacy hash config key now).2 = some tuple) :
    ∃ entry, cache.peekRow hash config key = some entry ∧ entry.tuple = tuple := by
  rw [getLegacy] at h
  split at h
  · next entry he =>
    split at h
    · cases h
    · exact ⟨entry,he,by simpa using h⟩
  · cases h

variable {expected ttl current : Nat}

theorem peekRow_putArcChecked {entry : CachedRow Tuple}
    (h : (cache.putArcChecked hash config key now tuple ttl current expected).1.peekRow hash config key' = some entry) :
    (key' = key ∧ entry.tuple = tuple ∧ current = expected) ∨ cache.peekRow hash config key' = some entry := by
  rw [putArcChecked] at h
  split at h
  · exact .inr h
  next hc =>
  rw [peekRow_setShard] at h
  split at h
  · next hs =>
    by_cases hkey : key' = key
    · subst hkey
      rw [Lru.peek_put_self] at h
      cases h
      exact .inl ⟨rfl,rfl,by simpa using hc⟩
    · right
      rw [← peek_shard hs]
      exact Lru.peek_of_peek_put hkey h
  · exact .inr h

theorem putArcChecked_accepted
    (h : (cache.putArcChecked hash config key now tuple ttl current expected).2 = true) : expected = current := by
  rw [putArcChecked] at h
  split at h
  · cases h
  · next hc => exact (by simpa using hc : current = expected).symm

end RowCache

namespace World
variable {hash : RowCacheKey → Nat} {config : RowCacheConfig} {legacy : Bool} {w w' : World Tuple}

/-- A reader that captured the current generation has seen every invalidation. -/
def Current (w : World Tuple) (generation since : Nat) : Prop :=
  generation ≤ w.generation ∧ (generation = w.generation → since = w.invalidations)

/-- A row that was read under the current generation is not older than what is announced. -/
def FreshUnder (w : World Tuple) (key : RowCacheKey) (generation : Nat) (row : Versioned Tuple) : Prop :=
  generation = w.generation → w.announced key ≤ row.version

def PhaseCoherent (config : RowCacheConfig) (w : World Tuple) : Phase Tuple → Prop
  | .captured _ generation since => w.Current generation since
  | .fetched key generation since row => w.Current generation since ∧ w.FreshUnder key generation row
  | .filling key generation since row _ => w.Current generation since ∧ w.FreshUnder key generation row
  | .mutated key version => version ≤ (w.storage key).version
  | .reaping _ => config.enabled = true
  | _ => True

structure Coherent (hash : RowCacheKey → Nat) (config : RowCacheConfig) (w : World Tuple) : Prop where
  entries : config.enabled = true → ∀ key entry, w.cache.peekRow hash config key = some entry →
    w.announced key ≤ entry.tuple.version
  announced : ∀ key, w.announced key ≤ (w.storage key).version
  phases : ∀ id, w.PhaseCoherent config (w.phases id)
  gets : ∀ get ∈ w.gets, ∀ row, get.result = some row → get.announced ≤ row.version
  fills : ∀ fill ∈ w.fills, fill.accepted = true → fill.since = fill.reached

/-- Either nothing is announced or the generation moves on, and no row gets older. -/
structure Advances (w w' : World Tuple) : Prop where
  quiet : (w'.generation = w.generation ∧ w'.invalidations = w.invalidations ∧ w'.announced = w.announced) ∨
    w.generation < w'.generation
  storage : ∀ key, (w.storage key).version ≤ (w'.storage key).version

theorem advances_of_eq (hg : w'.generation = w.generation) (hi : w'.invalidations = w.invalidations)
    (ha : w'.announced = w.announced) (hs : w'.storage = w.storage) : w.Advances w' :=
  ⟨.inl ⟨hg,hi,ha⟩,fun _ => hs ▸ Nat.le_refl _⟩

variable {generation since : Nat} {row : Versioned Tuple} {key : RowCacheKey} {id : Nat} {cache : RowCache (Versioned Tuple)}

theorem Advances.current (h : w.Advances w') (hc : w.Current generation since) : w'.Current generation since := by
  rcases h.quiet with ⟨hg,hi,-⟩ | hlt
  · rw [Current,hg,hi]
    exact hc
  · have := hc.1
    exact ⟨by omega,fun heq => by omega⟩

theorem Advances.freshUnder (h : w.Advances w')
    (hle : generation ≤ w.generation) (hf : w.FreshUnder key generation row) : w'.FreshUnder key generation row := by
  rcases h.quiet with ⟨hg,-,ha⟩ | hlt
  · rw [FreshUnder,hg,ha]
    exact hf
  · intro heq
    omega

theorem Advances.phase {phase : Phase Tuple} (h : w.Advances w') (hp : w.PhaseCoherent config phase) :
    w'.PhaseCoherent config phase := by
  cases phase with
  | captured key generation since => exact h.current hp
  | fetched key generation since row | filling key generation since row ttl => exact ⟨h.current hp.1,h.freshUnder hp.1.1 hp.2⟩
  | mutated key version => exact Nat.le_trans hp (h.storage key)
  | reaping key => exact hp
  | idle | marking => trivial

variable (hw : w.Coherent hash config)
include hw

theorem Coherent.phases_update {phase : Phase Tuple} (h : w.Advances w')
    (hp : w'.phases = Function.update w.phases id phase) (hs : w'.PhaseCoherent config phase) :
    ∀ other, w'.PhaseCoherent config (w'.phases other) := by
  rw [hp,forall_update_iff w.phases fun _ phase => w'.PhaseCoherent config phase]
  exact ⟨hs,fun other _ => h.phase (hw.phases other)⟩

theorem Coherent.entries_within (hc : cache.Within hash config w.cache) :
    config.enabled = true → ∀ key entry, cache.peekRow hash config key = some entry → w.announced key ≤ entry.tuple.version := by
  intro he key entry hen
  obtain ⟨entry',he',htp⟩ := hc key entry hen
  rw [← htp]
  exact hw.entries he key entry' he'

variable {result : Option (Versioned Tuple)}

theorem Coherent.gets_returned (hrs : ∀ row, result = some row → w.announced key ≤ row.version) :
    ∀ get ∈ (w.returned key result).gets, ∀ row, get.result = some row → get.announced ≤ row.version := by
  intro get hg row hr
  simp only [returned,mem_append,mem_singleton] at hg
  rcases hg with hg | rfl
  · exact hw.gets get hg row hr
  · exact hrs row hr

theorem Coherent.fills_append {fill : Fill} (hfl : fill.accepted = true → fill.since = fill.reached) :
    ∀ f ∈ w.fills ++ [fill], f.accepted = true → f.since = f.reached := by
  intro f hf
  simp only [mem_append,mem_singleton] at hf
  rcases hf with hf | rfl
  · exact hw.fills f hf
  · exact hfl

theorem Coherent.of_entry
    (he : config.enabled = true) (h : ∃ entry, w.cache.peekRow hash config key = some entry ∧ entry.tuple = row) :
    w.announced key ≤ row.version := by
  obtain ⟨entry,hen,rfl⟩ := h
  exact hw.entries he key entry hen

theorem Coherent.capture (id : Nat) (key : RowCacheKey) :
    (w.setPhase id (.captured key w.generation w.invalidations)).Coherent hash config :=
  ⟨hw.entries,hw.announced,hw.phases_update (advances_of_eq rfl rfl rfl rfl) rfl ⟨Nat.le_refl _,fun _ => rfl⟩,hw.gets,
    hw.fills⟩

theorem Coherent.setPhase_idle (id : Nat) : (w.setPhase id .idle).Coherent hash config :=
  ⟨hw.entries,hw.announced,hw.phases_update (advances_of_eq rfl rfl rfl rfl) rfl trivial,hw.gets,hw.fills⟩

theorem Coherent.fetch (hph : w.phases id = .captured key generation since) (row : Tuple) :
    (w.setPhase id (.fetched key generation since ⟨(w.storage key).version,row⟩)).Coherent hash config := by
  have hc := hw.phases id
  rw [hph] at hc
  exact ⟨hw.entries,hw.announced,hw.phases_update (advances_of_eq rfl rfl rfl rfl) rfl
    ⟨hc,fun _ => hw.announced key⟩,hw.gets,hw.fills⟩

theorem Coherent.chooseTtl (hph : w.phases id = .fetched key generation since row) (ttl : Nat) :
    (w.setPhase id (.filling key generation since row ttl)).Coherent hash config := by
  have hf := hw.phases id
  rw [hph] at hf
  exact ⟨hw.entries,hw.announced,hw.phases_update (advances_of_eq rfl rfl rfl rfl) rfl hf,hw.gets,hw.fills⟩

theorem Coherent.refuse (id since : Nat) (key : RowCacheKey) : World.Coherent hash config
      { w.setPhase id .idle with fills := w.fills ++ [⟨key,since,w.invalidations,false⟩] } :=
  ⟨hw.entries,hw.announced,hw.phases_update (advances_of_eq rfl rfl rfl rfl) rfl trivial,hw.gets,
    hw.fills_append (by simp)⟩

theorem Coherent.fill {ttl : Nat} (hph : w.phases id = .filling key generation since row ttl) :
    (w.step hash config legacy (.fill id)).Coherent hash config := by
  have hf := hw.phases id
  rw [hph] at hf
  obtain ⟨⟨-,hc⟩,hf⟩ := hf
  simp only [step,hph]
  refine ⟨fun he key' entry hen => ?_,hw.announced,hw.phases_update (advances_of_eq rfl rfl rfl rfl) rfl trivial,hw.gets,
    hw.fills_append fun ha => ?_⟩
  · rcases peekRow_putArcChecked hen with ⟨rfl,htp,hg⟩ | hold
    · rw [htp]
      exact hf hg.symm
    · exact hw.entries he key' entry hold
  · exact hc (putArcChecked_accepted ha)

theorem Coherent.mutate (hph : w.phases id = .idle) (key : RowCacheKey)
    (row : Option Tuple) : (w.step hash config legacy (.mutate id key row)).Coherent hash config := by
  simp only [step,hph]
  have hs : ∀ key', (w.storage key').version ≤
      (Function.update w.storage key ⟨(w.storage key).version + 1,row⟩ key').version := by
    intro key'
    by_cases hkey : key' = key
    · subst hkey
      simp
    · simp [hkey]
  refine ⟨hw.entries,fun key' => Nat.le_trans (hw.announced key') (hs key'),
    hw.phases_update ⟨.inl ⟨rfl,rfl,rfl⟩,hs⟩ rfl ?_,hw.gets,hw.fills⟩
  simp [PhaseCoherent]

variable {version : Nat}

theorem Coherent.announce
    (hph : w.phases id = .mutated key version) (phase : Phase Tuple) (hs : phase = .idle ∨ ∃ table, phase = .marking table)
    (hc : config.enabled = true → ∀ key' entry,
      cache.peekRow hash config key' = some entry → key' ≠ key ∧ w.cache.peekRow hash config key' = some entry) :
    World.Coherent hash config { (w.announce key version).setPhase id phase with cache := cache } := by
  have hv := hw.phases id
  rw [hph] at hv
  have ha : w.Advances { (w.announce key version).setPhase id phase with cache := cache } :=
    ⟨.inr (Nat.lt_succ_self _),fun _ => Nat.le_refl _⟩
  refine ⟨fun he key' entry hen => ?_,fun key' => ?_,hw.phases_update ha rfl ?_,hw.gets,hw.fills⟩
  · obtain ⟨hne,hold⟩ := hc he key' entry hen
    simpa [World.announce,setPhase,hne] using hw.entries he key' entry hold
  · by_cases hkey : key' = key
    · subst hkey
      have := hw.announced key'
      simp only [World.announce,setPhase,update_self]
      exact Nat.max_le.mpr ⟨this,hv⟩
    · simpa [World.announce,setPhase,hkey] using hw.announced key'
  · rcases hs with rfl | ⟨table,rfl⟩
    · trivial
    · trivial

theorem Coherent.cache_within (hc : cache.Within hash config w.cache) : World.Coherent hash config { w with cache := cache } :=
  ⟨hw.entries_within hc,hw.announced,fun id => (advances_of_eq rfl rfl rfl rfl).phase (hw.phases id),hw.gets,
    hw.fills⟩

theorem Coherent.returned {key : RowCacheKey}
    (hr : ∀ row, result = some row → w.announced key ≤ row.version) : (w.returned key result).Coherent hash config :=
  ⟨hw.entries,hw.announced,fun id => (advances_of_eq rfl rfl rfl rfl).phase (hw.phases id),hw.gets_returned hr,
    hw.fills⟩

theorem Coherent.get (hph : w.phases id = .idle) (key : RowCacheKey) :
    (w.step hash config legacy (.get id key)).Coherent hash config := by
  simp only [step,hph]
  cases he : config.enabled with
  | false => exact hw.returned (by simp)
  | true =>
    simp only [Bool.not_true,Bool.false_eq_true,if_false]
    split
    · have hf : ∀ row, (w.cache.getLegacy hash config key w.now).2 = some row → w.announced key ≤ row.version :=
        fun row h => hw.of_entry he (getLegacy_some h)
      exact (hw.returned hf).cache_within within_getLegacy
    · split
      · next tuple hh =>
        refine hw.returned fun row h => ?_
        cases h
        exact hw.of_entry he (getShared_hit hh)
      · exact hw.returned (by simp)
      · exact ⟨hw.entries,hw.announced,hw.phases_update (advances_of_eq rfl rfl rfl rfl) rfl he,hw.gets,hw.fills⟩

theorem Coherent.invalidate (hph : w.phases id = .mutated key version) :
    (w.step hash config legacy (.invalidate id)).Coherent hash config := by
  simp only [step,hph]
  cases hen : config.enabled with
  | false => exact hw.announce hph .idle (.inl rfl) (by simp [hen])
  | true =>
    refine hw.announce hph _ ?_ fun _ key' entry he => ?_
    · split
      · exact .inr ⟨_,rfl⟩
      · exact .inl rfl
    · rw [invalidateInner,peekRow_pop] at he
      split at he
      · cases he
      · next hne => exact ⟨hne,he⟩

theorem Coherent.bump : World.Coherent hash config { w with generation := w.generation+1 } :=
  have ha : w.Advances { w with generation := w.generation+1 } :=
    ⟨.inr (Nat.lt_succ_self _),fun _ => Nat.le_refl _⟩
  ⟨hw.entries,hw.announced,fun id => ha.phase (hw.phases id),hw.gets,hw.fills⟩

theorem Coherent.step (s : Step Tuple) : (w.step hash config legacy s).Coherent hash config := by
  cases s with
  | capture id key =>
    cases hph : w.phases id with
    | idle =>
      simp only [World.step,hph]
      exact hw.capture id key
    | _ => simpa only [World.step,hph] using hw
  | fetch id =>
    cases hph : w.phases id with
    | captured key generation since =>
      simp only [World.step,hph]
      split
      · next row _ => exact hw.fetch hph row
      · exact hw.setPhase_idle id
    | _ => simpa only [World.step,hph] using hw
  | chooseTtl id =>
    cases hph : w.phases id with
    | fetched key generation since row =>
      simp only [World.step,hph]
      split
      · exact hw.chooseTtl hph _
      · exact hw.refuse id since key
    | _ => simpa only [World.step,hph] using hw
  | fill id =>
    cases hph : w.phases id with
    | filling key generation since row ttl => exact hw.fill hph
    | _ => simpa only [World.step,hph] using hw
  | mutate id key row =>
    cases hph : w.phases id with
    | idle => exact hw.mutate hph key row
    | _ => simpa only [World.step,hph] using hw
  | invalidate id =>
    cases hph : w.phases id with
    | mutated key version => exact hw.invalidate hph
    | _ => simpa only [World.step,hph] using hw
  | mark id =>
    cases hph : w.phases id with
    | marking table =>
      simp only [World.step,hph]
      exact (hw.setPhase_idle id).cache_within within_markTableHot
    | _ => simpa only [World.step,hph] using hw
  | get id key =>
    cases hph : w.phases id with
    | idle => exact hw.get hph key
    | _ => simpa only [World.step,hph] using hw
  | reap id =>
    cases hph : w.phases id with
    | reaping key =>
      simp only [World.step,hph]
      have he := hw.phases id
      rw [hph] at he
      have hf : ∀ row, (w.cache.getExclusive hash config key w.now).2 = some row → w.announced key ≤ row.version :=
        fun row h => hw.of_entry he (getExclusive_some h)
      exact ((hw.returned hf).setPhase_idle id).cache_within within_getExclusive
    | _ => simpa only [World.step,hph] using hw
  | bump => exact hw.bump
  | tick elapsed =>
    exact ⟨hw.entries,hw.announced,fun id => (advances_of_eq rfl rfl rfl rfl).phase (hw.phases id),hw.gets,hw.fills⟩

omit hw

/-- An empty cache before the first reader, over any storage and generation. -/
def new (config : RowCacheConfig) (storage : RowCacheKey → Versioned (Option Tuple)) (generation now : Nat) :
    World Tuple where
  cache := .withConfig config now
  generation := generation
  storage := storage
  now := now
  phases _ := .idle
  invalidations := 0
  announced _ := 0
  gets := []
  fills := []

theorem coherent_new (storage : RowCacheKey → Versioned (Option Tuple)) (generation now : Nat) :
    (new config storage generation now).Coherent hash config where
  entries _ key entry h := by simp [new,withConfig,peekRow,shard] at h
  announced _ := Nat.zero_le _
  phases _ := trivial
  gets get h := by simp [new] at h
  fills fill h := by simp [new] at h

/-- In every interleaving no look-up returns a row older than a write whose invalidation was complete when it read, and
no fill succeeds when an invalidation came after its capture. -/
theorem row_cache_coherent (hash : RowCacheKey → Nat) (config : RowCacheConfig) (legacy : Bool)
    (storage : RowCacheKey → Versioned (Option Tuple)) (generation now : Nat) (steps : List (Step Tuple)) :
    (∀ get ∈ (run (step hash config legacy) (new config storage generation now) steps).gets, ∀ row,
      get.result = some row → get.announced ≤ row.version) ∧
    ∀ fill ∈ (run (step hash config legacy) (new config storage generation now) steps).fills,
      fill.accepted = true → fill.since = fill.reached := by
  have hrun := run_invariant (step hash config legacy) (World.Coherent hash config) (fun _ s hw => hw.step s)
    (coherent_new storage generation now) steps
  exact ⟨hrun.gets,hrun.fills⟩

/-- A reader that captured the generation before a write may not put back the row that it read. -/
example : (run (step (fun _ => 0) ⟨16,60,5,true⟩ false) (new ⟨16,60,5,true⟩ (fun _ => ⟨1,some "old"⟩) 7 0)
    [.capture 0 ⟨"users",1⟩,.fetch 0,.mutate 1 ⟨"users",1⟩ (some "new"),.chooseTtl 0,.invalidate 1,.fill 0]).fills
      = [⟨⟨"users",1⟩,0,1,false⟩] := by
  decide

end World
end HeliosNano.Storage.RowCaching
