import HeliosNano.Foundation.Interleaving
import HeliosNano.Foundation.Lru
import HeliosNano.Foundation.Runs
import Mathlib.Algebra.Group.Nat.Defs
import Mathlib.Logic.Function.Basic

/-! The cache of query results beside queries, changes and invalidations on any number of threads, which take turns on the
shared state one atomic access at a time. A counter stands for its increments and is read modulo 2^64. -/
namespace HeliosNano.Storage.ResultCaching
open Foundation List Function Program

def shardCount : Nat := 16

structure ShardedLruCache (Key Value : Type) where
  shards : Nat → Lru Key Value
  epoch : Nat

namespace ShardedLruCache
variable {Key Value : Type} [DecidableEq Key]

def new (totalCapacity : Nat) : ShardedLruCache Key Value where
  shards _ := .empty (max (totalCapacity/shardCount) 1) (Nat.lt_of_lt_of_le Nat.one_pos (Nat.le_max_right _ _))
  epoch := 0

variable (hash : Key → Nat) (cache : ShardedLruCache Key Value) (key : Key)

/-- The hash of a key is masked to a shard. -/
def shardFor : Nat := hash key &&& (shardCount-1)

def onShard (index : Nat) (f : Lru Key Value → Lru Key Value) : ShardedLruCache Key Value :=
  { cache with shards := update cache.shards index (f (cache.shards index)) }

def get : Option Value × ShardedLruCache Key Value :=
  ((cache.shards (shardFor hash key)).peek key,cache.onShard (shardFor hash key) (·.touch key id))

def put (value : Value) : ShardedLruCache Key Value := cache.onShard (shardFor hash key) (·.put key value)

def clearShard (index : Nat) : ShardedLruCache Key Value := cache.onShard index fun shard => .empty shard.capacity shard.pos

variable {hash cache key} {index i : Nat} {key' : Key} {value value' : Value}

omit [DecidableEq Key] in
theorem shards_onShard {f : Lru Key Value → Lru Key Value} :
    (cache.onShard i f).shards index = if index = i then f (cache.shards i) else cache.shards index :=
  update_apply cache.shards i _ index

theorem peek_get (h : ((cache.get hash key).2.shards index).peek key' = some value') :
    (cache.shards index).peek key' = some value' := by
  rw [get,shards_onShard] at h
  split at h
  next hi =>
    rw [hi]
    by_cases hk : key' = key
    · subst hk
      rwa [Lru.peek_touch_self,Option.map_id_fun] at h
    · exact Lru.peek_of_peek_touch hk h
  · exact h

theorem peek_put (h : ((cache.put hash key value).shards index).peek key' = some value') :
    key = key' ∧ value = value' ∨ (cache.shards index).peek key' = some value' := by
  rw [put,shards_onShard] at h
  split at h
  next hi =>
    rw [hi]
    by_cases hk : key' = key
    · subst hk
      rw [Lru.peek_put_self] at h
      exact .inl ⟨rfl,Option.some.inj h⟩
    · exact .inr (Lru.peek_of_peek_put hk h)
  · exact .inr h

theorem peek_clearShard (h : ((cache.clearShard i).shards index).peek key' = some value') :
    (cache.shards index).peek key' = some value' := by
  rw [clearShard,shards_onShard] at h
  split at h
  · cases h
  · exact h

end ShardedLruCache

structure ResultCacheEpoch where
  localEpoch : Nat
  storage : Nat
deriving DecidableEq

structure CachedRows (Rows : Type) where
  login : Option String
  rows : Rows
  epoch : ResultCacheEpoch

/-- What the threads share: the database after each change, of which the last is the present one, and the caches. -/
structure Shared (Db Rows : Type) where
  states : Nat → Db
  version : Nat
  schemaGeneration : Nat
  resultCacheEpoch : Nat
  seenSchemaGeneration : Nat
  hotResultCacheEntry : Option (String × CachedRows Rows)
  resultCache : ShardedLruCache String (CachedRows Rows)
  resultCacheNonempty : Bool

/-- Who asks: the login identity, the tenant context, and the schema of the search path if it is not the public one. -/
structure Session (Tenant : Type) where
  login : Option String
  tenant : Option Tenant
  schema : Option String
deriving DecidableEq

/-- Whether a fast path answers before the shared cache is asked, and whether the rows are worth a place in the caches,
depends on the text and on what was asked before. -/
structure Query (Tenant : Type) where
  sql : String
  session : Session Tenant
  fast : Bool
  admitted : Bool

abbrev Turns (Db Rows α : Type) := Program (Shared Db Rows) Unit α

section
variable {Db Rows Tenant α : Type}

def load (f : Shared Db Rows → α) : Turns Db Rows α := perform fun _ s => (f s,s)

def store (f : Shared Db Rows → Shared Db Rows) : Turns Db Rows Unit := perform fun _ s => ((),f s)

def resultCacheEpoch : Turns Db Rows ResultCacheEpoch := do
  let localEpoch ← load fun s => s.resultCacheEpoch%2^64
  let storage ← load fun s => s.schemaGeneration%2^64
  return ⟨localEpoch,storage⟩

def clearShards : List Nat → Turns Db Rows Unit
  | [] => return ()
  | index::rest => do
    store fun s => { s with resultCache := s.resultCache.clearShard index }
    clearShards rest

/-- The shards are cleared one at a time. -/
def clear : Turns Db Rows Unit := do
  store fun s => { s with resultCache := { s.resultCache with epoch := s.resultCache.epoch+1 } }
  clearShards (range shardCount)

def invalidateResultCache : Turns Db Rows Unit := do
  store fun s => { s with resultCacheEpoch := s.resultCacheEpoch+1 }
  let generation ← load fun s => s.schemaGeneration%2^64
  store fun s => { s with seenSchemaGeneration := generation }
  store fun s => { s with hotResultCacheEntry := none }
  let nonempty ← perform fun _ s => (s.resultCacheNonempty,{ s with resultCacheNonempty := false })
  if nonempty then clear else return ()

def reconcileResultCacheWithStorage : Turns Db Rows Unit := do
  let current ← load fun s => s.schemaGeneration%2^64
  let seen ← load fun s => s.seenSchemaGeneration
  if seen ≠ current then
    store fun s => { s with seenSchemaGeneration := current }
    invalidateResultCache
  else return ()

variable (hash : String → Nat) (session : Session Tenant) (sql : String)

/-- The entry is served to its own login, while no invalidation has come since its tag was taken. -/
def serve (entry : CachedRows Rows) : Turns Db Rows (Option Rows) := do
  let epoch ← resultCacheEpoch
  return if entry.epoch = epoch ∧ entry.login = session.login then some entry.rows else none

def cacheQueryResult (results : Rows) (cacheEpoch : ResultCacheEpoch) : Turns Db Rows Unit := do
  if session.tenant.isSome then return ()
  else
    let epoch ← resultCacheEpoch
    if epoch ≠ cacheEpoch then return ()
    else
      let cached : CachedRows Rows := ⟨session.login,results,cacheEpoch⟩
      store fun s => { s with resultCache := s.resultCache.put hash sql cached }
      store fun s => { s with hotResultCacheEntry := some (sql,cached) }
      store fun s => { s with resultCacheNonempty := true }

def hotCachedQueryResult : Turns Db Rows (Option Rows) := do
  if session.tenant.isSome then return none
  else
    reconcileResultCacheWithStorage
    let hot ← load fun s => s.hotResultCacheEntry
    match hot with
    | none => return none
    | some (hotSql,entry) => if hotSql = sql then serve session entry else return none

def cachedQueryResult : Turns Db Rows (Option Rows) := do
  if session.tenant.isSome then return none
  else
    let hot ← hotCachedQueryResult session sql
    match hot with
    | some rows => return some rows
    | none =>
      let shared ← perform fun _ s =>
        let (entry,cache) := s.resultCache.get hash sql
        (entry,{ s with resultCache := cache })
      match shared with
      | none => return none
      | some entry =>
        let rows ← serve session entry
        match rows with
        | none => return none
        | some rows =>
          store fun s => { s with hotResultCacheEntry := some (sql,entry) }
          return some rows

def lookIf (asks : Bool) (look : Turns Db Rows (Option Rows)) : Turns Db Rows (Option Rows) :=
  if asks then look else return none

variable (answer : String → Session Tenant → Db → Rows)

/-- `query` outside of a transaction, for a text whose rows depend on the database and the session alone. -/
def query (q : Query Tenant) : Turns Db Rows Rows := do
  let cacheEpoch ← resultCacheEpoch
  let nonempty ← load fun s => s.resultCacheNonempty
  let shares : Bool := q.session.schema.isNone && nonempty
  let hot ← lookIf shares (hotCachedQueryResult q.session q.sql)
  match hot with
  | some rows => return rows
  | none =>
    let cached ← lookIf (!q.fast && shares) (cachedQueryResult hash q.session q.sql)
    match cached with
    | some rows => return rows
    | none =>
      let rows ← load fun s => answer q.sql q.session (s.states s.version)
      if q.admitted && q.session.schema.isNone then
        cacheQueryResult hash q.session q.sql rows cacheEpoch
        return rows
      else return rows

/-- A change of the database, with its number. -/
def change (f : Db → Db) : Turns Db Rows Nat := perform fun _ s =>
  (s.version+1,{ s with states := update s.states (s.version+1) (f (s.states s.version)), version := s.version+1 })

/-- A change through the handle, which invalidates its caches. -/
def execute (f : Db → Db) : Turns Db Rows Nat := do
  let version ← change f
  invalidateResultCache
  return version

/-- A change below the handle: the refresh of a view, or the replay of a log. -/
def refresh (f : Db → Db) : Turns Db Rows Nat := do
  let version ← change f
  store fun s => { s with schemaGeneration := s.schemaGeneration+1 }
  return version

end

inductive Call (Db Tenant : Type)
  | query (q : Query Tenant)
  | execute (f : Db → Db)
  | refresh (f : Db → Db)

/-- The rows of a query, with the newest change whose call had returned when the query began. -/
structure Answer (Rows Tenant : Type) where
  sql : String
  session : Session Tenant
  since : Nat
  rows : Rows
deriving DecidableEq

inductive Outcome (Rows Tenant : Type)
  | answered (a : Answer Rows Tenant)
  | changed (version : Nat)

structure World (Db Rows Tenant : Type) where
  shared : Shared Db Rows
  threads : Nat → Option (Turns Db Rows (Outcome Rows Tenant))
  returned : Nat
  answers : List (Answer Rows Tenant)

inductive Event (Db Tenant : Type)
  | begin (id : Nat) (call : Call Db Tenant)
  | turn (id : Nat)

variable {Db Rows Tenant α : Type}

section
variable (answer : String → Session Tenant → Db → Rows) (hash : String → Nat)

def Call.program (since : Nat) : Call Db Tenant → Turns Db Rows (Outcome Rows Tenant)
  | .query q => do
    let rows ← ResultCaching.query hash answer q
    return .answered ⟨q.sql,q.session,since,rows⟩
  | .execute f => do
    let version ← ResultCaching.execute f
    return .changed version
  | .refresh f => do
    let version ← ResultCaching.refresh f
    return .changed version

namespace World

def finish (w : World Db Rows Tenant) : Option (Outcome Rows Tenant) → World Db Rows Tenant
  | none => w
  | some (.answered a) => { w with answers := w.answers ++ [a] }
  | some (.changed version) => { w with returned := max w.returned version }

def step (w : World Db Rows Tenant) : Event Db Tenant → World Db Rows Tenant
  | .begin id call =>
    match w.threads id with
    | some _ => w
    | none => { w with threads := update w.threads id (some (call.program answer hash w.returned)) }
  | .turn id =>
    match w.threads id with
    | none => w
    | some program =>
      let turn := program.advance () w.shared
      finish { w with
        shared := turn.2
        threads := update w.threads id (if turn.1.result?.isSome then none else some turn.1) } turn.1.result?

/-- A handle that has just been opened. -/
def new (db : Db) (capacity schemaGeneration : Nat) : World Db Rows Tenant where
  shared := ⟨fun _ => db,0,schemaGeneration,0,schemaGeneration%2^64,none,.new capacity,false⟩
  threads _ := none
  returned := 0
  answers := []

end World
end

section
variable {answer : String → Session Tenant → Db → Rows} {s t u : Shared Db Rows × Nat}

/-- Beside the shared state: the number of the present state at the last invalidation. While the counters stand at a tag, the
state that was read under it is not older. -/
def Tagged (s : Shared Db Rows × Nat) (tag : ResultCacheEpoch) (i : Nat) : Prop :=
  ∃ e g, tag = ⟨e%2^64,g%2^64⟩ ∧ e ≤ s.1.resultCacheEpoch ∧ g ≤ s.1.schemaGeneration ∧
    (e = s.1.resultCacheEpoch → g = s.1.schemaGeneration → s.2 ≤ i)

/-- The rows are those of the text for a session of the login, in a state under the tag. -/
def Good (answer : String → Session Tenant → Db → Rows) (s : Shared Db Rows × Nat) (sql : String) (entry : CachedRows Rows) :
    Prop :=
  ∃ i ≤ s.1.version, Tagged s entry.epoch i ∧ entry.rows = answer sql ⟨entry.login,none,none⟩ (s.1.states i)

structure Sound (answer : String → Session Tenant → Db → Rows) (s : Shared Db Rows × Nat) : Prop where
  settled : s.2 ≤ s.1.version
  hot : ∀ sql entry, s.1.hotResultCacheEntry = some (sql,entry) → Good answer s sql entry
  shared : ∀ index sql entry, (s.1.resultCache.shards index).peek sql = some entry → Good answer s sql entry

/-- No state is lost, and what was invalidated moves with one of the counters. -/
structure Ahead (s t : Shared Db Rows × Nat) : Prop where
  epoch : s.1.resultCacheEpoch ≤ t.1.resultCacheEpoch
  generation : s.1.schemaGeneration ≤ t.1.schemaGeneration
  version : s.1.version ≤ t.1.version
  states : ∀ i ≤ s.1.version, t.1.states i = s.1.states i
  settled : s.2 ≤ t.2
  quiet : s.1.resultCacheEpoch = t.1.resultCacheEpoch → s.1.schemaGeneration = t.1.schemaGeneration → t.2 = s.2

structure Later (answer : String → Session Tenant → Db → Rows) (s t : Shared Db Rows × Nat) : Prop extends Ahead s t where
  sound : Sound answer s → Sound answer t

theorem Later.refl (s : Shared Db Rows × Nat) : Later answer s s where
  epoch := Nat.le_refl _
  generation := Nat.le_refl _
  version := Nat.le_refl _
  states _ _ := rfl
  settled := Nat.le_refl _
  quiet _ _ := rfl
  sound := id

theorem Later.trans (h : Later answer s t) (h' : Later answer t u) : Later answer s u where
  epoch := Nat.le_trans h.epoch h'.epoch
  generation := Nat.le_trans h.generation h'.generation
  version := Nat.le_trans h.version h'.version
  states i hi := (h'.states i (Nat.le_trans hi h.version)).trans (h.states i hi)
  settled := Nat.le_trans h.settled h'.settled
  quiet he hg := by
    have := h.epoch
    have := h'.epoch
    have := h.generation
    have := h'.generation
    rw [h'.quiet (by omega) (by omega),h.quiet (by omega) (by omega)]
  sound hs := h'.sound (h.sound hs)

theorem Ahead.good {sql : String} {entry : CachedRows Rows} (h : Ahead s t) (hg : Good answer s sql entry) :
    Good answer t sql entry := by
  obtain ⟨i,hi,⟨e,g,htag,he,hgn,hn⟩,hrows⟩ := hg
  have hep := h.epoch
  have hgen := h.generation
  refine ⟨i,Nat.le_trans hi h.version,⟨e,g,htag,by omega,by omega,fun hse hsg => ?_⟩,by rw [hrows,h.states i hi]⟩
  rw [h.quiet (by omega) (by omega)]
  exact hn (by omega) (by omega)

variable (answer) in
def later : Rely (Shared Db Rows × Nat) := ⟨Later answer,Later.refl,Later.trans⟩

variable (answer) in
abbrev Safe (x : Turns Db Rows α) (Q : α → Shared Db Rows × Nat → Prop) (s : Shared Db Rows × Nat) : Prop :=
  Ensures (later answer) (Later answer) x Q s

/-- A step that leaves the database and the counters alone, from what it leaves in the caches. -/
theorem later_of_caches {hot : Option (String × CachedRows Rows)} {cache : ShardedLruCache String (CachedRows Rows)}
    {seen : Nat} {nonempty : Bool}
    (hh : Sound answer s → ∀ sql entry, hot = some (sql,entry) → Good answer s sql entry)
    (hc : Sound answer s → ∀ index sql entry, (cache.shards index).peek sql = some entry → Good answer s sql entry) :
    Later answer s ({ s.1 with
      seenSchemaGeneration := seen, hotResultCacheEntry := hot, resultCache := cache, resultCacheNonempty := nonempty },s.2) where
  epoch := Nat.le_refl _
  generation := Nat.le_refl _
  version := Nat.le_refl _
  states _ _ := rfl
  settled := Nat.le_refl _
  quiet _ _ := rfl
  sound hs := ⟨hs.settled,hh hs,hc hs⟩

variable {Q : α → Shared Db Rows × Nat → Prop}

theorem safe_load {f : Shared Db Rows → α} (h : ∀ t u, Later answer s t → Later answer t u → Q (f t.1) u) :
    Safe answer (load f) Q s :=
  fun t ht _ => ⟨t.2,Later.refl t,fun u hu => h t u ht hu⟩

/-- What the step does it may rely on whatever came before it. -/
theorem safe_store {f : Shared Db Rows → Shared Db Rows} {Q : Unit → Shared Db Rows × Nat → Prop}
    (hf : ∀ t, Later answer s t → Later answer t (f t.1,t.2)) (h : ∀ u, Later answer s u → Q () u) : Safe answer (store f) Q s :=
  fun t ht _ => ⟨t.2,hf t ht,fun _ hu => h _ ((ht.trans (hf t ht)).trans hu)⟩

theorem Safe.since {x : Turns Db Rows α} (h : Safe answer x Q s) : Safe answer x (fun a t => Later answer s t ∧ Q a t) s :=
  Ensures.since (fun _ _ => id) h

theorem safe_resultCacheEpoch : Safe answer resultCacheEpoch (fun tag t => ∃ e g, tag = ⟨e%2^64,g%2^64⟩ ∧
    s.1.resultCacheEpoch ≤ e ∧ e ≤ t.1.resultCacheEpoch ∧ s.1.schemaGeneration ≤ g ∧ g ≤ t.1.schemaGeneration) s := by
  refine Ensures.bind (safe_load fun t u ht hu => Ensures.bind (safe_load fun t' u' ht' hu' v hv => ?_))
  have hut := hu.trans (ht'.trans (hu'.trans hv))
  have hst := ht.trans (hu.trans ht')
  exact ⟨_,_,rfl,ht.epoch,hut.epoch,hst.generation,(hu'.trans hv).generation⟩

theorem safe_clearShards (indices : List Nat) : Safe answer (clearShards indices) (fun _ _ => True) s := by
  induction indices generalizing s with
  | nil => exact fun _ _ => trivial
  | cons index rest ih =>
    refine Ensures.bind (safe_store (fun t _ => later_of_caches Sound.hot fun hs index sql entry hp => ?_) fun _ _ => ih)
    exact hs.shared index sql entry (ShardedLruCache.peek_clearShard hp)

theorem safe_clear : Safe answer (clear : Turns Db Rows Unit) (fun _ _ => True) s :=
  Ensures.bind (safe_store (fun _ _ => later_of_caches Sound.hot Sound.shared) fun _ _ => safe_clearShards _)

/-- An increment settles the states so far. -/
theorem later_of_increment {epoch generation : Nat} (hs : Sound answer s) (he : s.1.resultCacheEpoch ≤ epoch)
    (hg : s.1.schemaGeneration ≤ generation) (hne : s.1.resultCacheEpoch < epoch ∨ s.1.schemaGeneration < generation) :
    Later answer s ({ s.1 with resultCacheEpoch := epoch, schemaGeneration := generation },s.1.version) := by
  have ha : Ahead s ({ s.1 with resultCacheEpoch := epoch, schemaGeneration := generation },s.1.version) :=
    ⟨he,hg,Nat.le_refl _,fun _ _ => rfl,hs.settled,fun h h' => by dsimp only at h h'; omega⟩
  exact ⟨ha,fun hs => ⟨Nat.le_refl _,fun sql entry hh => ha.good (hs.hot sql entry hh),
    fun index sql entry hp => ha.good (hs.shared index sql entry hp)⟩⟩

theorem safe_invalidateResultCache (hs : Sound answer s) :
    Safe answer (invalidateResultCache : Turns Db Rows Unit) (fun _ t => s.1.version ≤ t.2) s := by
  refine Ensures.bind fun t ht _ => ?_
  have hi := later_of_increment (ht.sound hs) (Nat.le_succ _) (Nat.le_refl _) (.inl (Nat.lt_succ_self _))
  refine ⟨t.1.version,hi,fun u hu => ?_⟩
  have hv : s.1.version ≤ u.2 := Nat.le_trans ht.version hu.settled
  refine Ensures.bind (safe_load fun _ u₁ h₁ h₁' => ?_)
  refine Ensures.bind (safe_store (fun _ _ => later_of_caches Sound.hot Sound.shared) fun u₂ h₂ => ?_)
  refine Ensures.bind (safe_store (fun _ _ => later_of_caches (fun _ => nofun) Sound.shared) fun u₃ h₃ => ?_)
  refine Ensures.bind fun u₄ h₄ _ => ⟨u₄.2,later_of_caches Sound.hot Sound.shared,fun u₅ h₅ => ?_⟩
  have hl : Later answer u u₅ := (h₁.trans h₁').trans (h₂.trans (h₃.trans (h₄.trans ((later_of_caches Sound.hot Sound.shared).trans h₅))))
  have hk : ∀ v, Later answer u₅ v → s.1.version ≤ v.2 := fun v hv' => Nat.le_trans hv (hl.trans hv').settled
  dsimp only
  split
  · exact (Safe.since safe_clear).mono fun _ v hv' => hk v hv'.1
  · exact fun v hv' => hk v hv'

theorem safe_reconcile (hs : Sound answer s) : Safe answer (reconcileResultCacheWithStorage : Turns Db Rows Unit) (fun _ _ => True) s := by
  refine Ensures.bind (safe_load fun _ u h h' => ?_)
  refine Ensures.bind (safe_load fun _ u' h₁ h₁' => ?_)
  have hs' := (h.trans (h'.trans (h₁.trans h₁'))).sound hs
  split
  · refine Ensures.bind (safe_store (fun _ _ => later_of_caches Sound.hot Sound.shared) fun v hv => ?_)
    exact (safe_invalidateResultCache (hv.sound hs')).mono fun _ _ _ => trivial
  · exact fun _ _ => trivial

/-- The rows are those of a state that is not older, as long as the counters have not gone around. -/
def Reflects (answer : String → Session Tenant → Db → Rows) (a : Answer Rows Tenant) (s : Shared Db Rows × Nat) : Prop :=
  s.1.resultCacheEpoch < 2^64 → s.1.schemaGeneration < 2^64 →
    ∃ i, a.since ≤ i ∧ i ≤ s.1.version ∧ a.rows = answer a.sql a.session (s.1.states i)

theorem Reflects.later {a : Answer Rows Tenant} (h : Reflects answer a s) (hl : Later answer s t) : Reflects answer a t := by
  intro he hg
  obtain ⟨i,hsince,hi,hrows⟩ := h (Nat.lt_of_le_of_lt hl.epoch he) (Nat.lt_of_le_of_lt hl.generation hg)
  exact ⟨i,hsince,Nat.le_trans hi hl.version,by rw [hrows,hl.states i hi]⟩

variable {hash : String → Nat} {session : Session Tenant} {sql : String} {since : Nat}

variable (answer session sql since) in
/-- What a look-up may serve. -/
abbrev Served (found : Option Rows) (t : Shared Db Rows × Nat) : Prop :=
  ∀ rows, found = some rows → Reflects answer ⟨sql,session,since,rows⟩ t

theorem safe_serve {entry : CachedRows Rows} (ht : session.tenant = none) (hsc : session.schema = none) (hg : Good answer s sql entry)
    (hsince : since ≤ s.2) : Safe answer (serve session entry) (Served answer session sql since) s := by
  refine Ensures.bind ((Safe.since safe_resultCacheEpoch).mono fun tag t => ?_)
  rintro ⟨hl,e,g,rfl,he,he',hgn,hgn'⟩ u hu rows hrows
  split at hrows
  next hserve =>
    cases hrows
    obtain ⟨i,hi,⟨e₀,g₀,htag,he₀,hg₀,hn⟩,heq⟩ := hg
    refine Reflects.later (fun hte htg => ⟨i,?_,Nat.le_trans hi hl.version,?_⟩) hu
    · -- Below 2^64 equal remainders are equal counters, and these have not moved since the entry was there.
      obtain ⟨h₁,h₂⟩ := ResultCacheEpoch.mk.inj (htag.symm.trans hserve.1)
      rw [Nat.mod_eq_of_lt (by omega),Nat.mod_eq_of_lt (by omega)] at h₁ h₂
      exact Nat.le_trans hsince (hn (by omega) (by omega))
    · obtain ⟨login,tenant,schema⟩ := session
      obtain rfl : tenant = none := ht
      obtain rfl : schema = none := hsc
      rw [heq,hl.states i hi,hserve.2]
  · cases hrows

theorem safe_cacheQueryResult {rows : Rows} {tag : ResultCacheEpoch}
    (hg : session.tenant = none → Good answer s sql ⟨session.login,rows,tag⟩) :
    Safe answer (cacheQueryResult hash session sql rows tag) (fun _ _ => True) s := by
  rw [cacheQueryResult]
  split
  · exact fun _ _ => trivial
  next ht =>
    replace hg := hg (by simpa using ht)
    refine Ensures.bind ((Safe.since safe_resultCacheEpoch).mono fun _ t h => ?_)
    split
    · exact fun _ _ => trivial
    · refine Ensures.bind (safe_store (fun u hu => ?_) fun v hv => Ensures.bind (safe_store (fun u hu => ?_) fun v' hv' => ?_))
      · refine later_of_caches Sound.hot fun hs index sql' entry hp => ?_
        obtain ⟨rfl,rfl⟩ | hold := ShardedLruCache.peek_put hp
        · exact (h.1.trans hu).good hg
        · exact hs.shared index sql' entry hold
      · refine later_of_caches (fun _ sql' entry hh => ?_) Sound.shared
        obtain ⟨rfl,rfl⟩ := Prod.mk.inj (Option.some.inj hh)
        exact (h.1.trans (hv.trans hu)).good hg
      · exact safe_store (fun _ _ => later_of_caches Sound.hot Sound.shared) fun _ _ => trivial

theorem safe_hotCachedQueryResult (hs : Sound answer s) (hsc : session.schema = none) (hsince : since ≤ s.2) :
    Safe answer (hotCachedQueryResult session sql) (Served answer session sql since) s := by
  rw [hotCachedQueryResult]
  split
  · exact fun _ _ => nofun
  next ht =>
    refine Ensures.bind ((Safe.since (safe_reconcile hs)).mono fun _ t h => ?_)
    refine Ensures.bind (safe_load fun u v hu hv => ?_)
    split
    · exact fun _ _ => nofun
    next hotSql entry hh =>
      split
      next hsql =>
        subst hsql
        have hg := ((h.1.trans hu).sound hs).hot hotSql entry hh
        exact safe_serve (by simpa using ht) hsc (hv.good hg) (Nat.le_trans hsince (h.1.trans (hu.trans hv)).settled)
      · exact fun _ _ => nofun

theorem safe_cachedQueryResult (hs : Sound answer s) (hsc : session.schema = none) (hsince : since ≤ s.2) :
    Safe answer (cachedQueryResult hash session sql) (Served answer session sql since) s := by
  rw [cachedQueryResult]
  split
  · exact fun _ _ => nofun
  next ht =>
    refine Ensures.bind ((Safe.since (safe_hotCachedQueryResult hs hsc hsince)).mono fun found t h => ?_)
    obtain ⟨hl,hserved⟩ := h
    split
    next rows =>
      intro u hu rows' heq
      cases heq
      exact (hserved rows rfl).later hu
    refine Ensures.bind fun u hu _ => ?_
    have hget : Later answer u ({ u.1 with resultCache := (u.1.resultCache.get hash sql).2 },u.2) :=
      later_of_caches Sound.hot fun hs index sql' entry hp => hs.shared index sql' entry (ShardedLruCache.peek_get hp)
    refine ⟨u.2,hget,fun v hv => ?_⟩
    dsimp only
    split
    · exact fun _ _ => nofun
    next entry hp =>
      have hg : Good answer v sql entry := (hget.trans hv).good (((hl.trans hu).sound hs).shared _ sql entry hp)
      have hle : since ≤ v.2 := Nat.le_trans hsince (hl.trans (hu.trans (hget.trans hv))).settled
      refine Ensures.bind ((Safe.since (safe_serve (by simpa using ht) hsc hg hle)).mono fun found t h => ?_)
      split
      · exact fun _ _ => nofun
      next rows =>
        refine Ensures.bind (safe_store (fun w hw => ?_) fun w hw w' hw' rows' heq => ?_)
        · refine later_of_caches (fun _ sql' entry' hh => ?_) Sound.shared
          obtain ⟨rfl,rfl⟩ := Prod.mk.inj (Option.some.inj hh)
          exact (h.1.trans hw).good hg
        · cases heq
          exact (h.2 rows rfl).later (hw.trans hw')

theorem safe_lookIf {asks : Bool} {look : Turns Db Rows (Option Rows)}
    (h : asks = true → Safe answer look (Served answer session sql since) s) :
    Safe answer (lookIf asks look) (Served answer session sql since) s := by
  rw [lookIf]
  split
  next hc => exact h hc
  · exact fun _ _ => nofun

theorem safe_query (hs : Sound answer s) (hsince : since ≤ s.2) (q : Query Tenant) :
    Safe answer (query hash answer q) (fun rows => Reflects answer ⟨q.sql,q.session,since,rows⟩) s := by
  refine Ensures.bind ((Safe.since safe_resultCacheEpoch).mono fun tag t h => ?_)
  obtain ⟨hl,e,g,rfl,-,he,-,hg⟩ := h
  refine Ensures.bind (safe_load fun t' u ht' hu => ?_)
  have hlu := hl.trans (ht'.trans hu)
  have hhot : Safe answer (lookIf (q.session.schema.isNone && t'.1.resultCacheNonempty) (hotCachedQueryResult q.session q.sql))
      (Served answer q.session q.sql since) u :=
    safe_lookIf fun hc => safe_hotCachedQueryResult (hlu.sound hs) (by simp_all) (Nat.le_trans hsince hlu.settled)
  refine Ensures.bind ((Safe.since hhot).mono fun found v hv => ?_)
  split
  next rows => exact fun w hw => (hv.2 rows rfl).later hw
  have hlv := hlu.trans hv.1
  have hcached : Safe answer (lookIf (!q.fast && (q.session.schema.isNone && t'.1.resultCacheNonempty))
      (cachedQueryResult hash q.session q.sql)) (Served answer q.session q.sql since) v :=
    safe_lookIf fun hc => safe_cachedQueryResult (hlv.sound hs) (by simp_all) (Nat.le_trans hsince hlv.settled)
  refine Ensures.bind ((Safe.since hcached).mono fun found w hw => ?_)
  split
  next rows => exact fun w' hw' => (hw.2 rows rfl).later hw'
  refine Ensures.bind (safe_load fun x y hx hy => ?_)
  have hlx := hlv.trans (hw.1.trans hx)
  have hsettled := (hlx.sound hs).settled
  have htx := ht'.trans (hu.trans (hv.1.trans (hw.1.trans hx)))
  have hrows : Reflects answer ⟨q.sql,q.session,since,answer q.sql q.session (x.1.states x.1.version)⟩ y :=
    Reflects.later (fun _ _ => ⟨_,Nat.le_trans (Nat.le_trans hsince hlx.settled) hsettled,Nat.le_refl _,rfl⟩) hy
  split
  next hc =>
    refine Ensures.bind ((Safe.since (safe_cacheQueryResult fun htn => ?_)).mono fun _ z hz w' hw' => hrows.later (hz.1.trans hw'))
    -- The rows were read after the counters, and what is settled by then is not newer.
    refine hy.good ⟨_,Nat.le_refl _,⟨e,g,rfl,Nat.le_trans he htx.epoch,Nat.le_trans hg htx.generation,fun _ _ => hsettled⟩,?_⟩
    obtain ⟨sql,⟨login,tenant,schema⟩,fast,admitted⟩ := q
    obtain rfl : tenant = none := htn
    obtain rfl : schema = none := by simp_all
    rfl
  · exact fun w' hw' => hrows.later hw'

theorem safe_change (f : Db → Db) : Safe answer (change f : Turns Db Rows Nat) (fun version t => version ≤ t.1.version) s := by
  refine fun t ht _ => ⟨t.2,?_,fun u hu => hu.version⟩
  have hst : ∀ i ≤ t.1.version, update t.1.states (t.1.version+1) (f (t.1.states t.1.version)) i = t.1.states i :=
    fun i hi => update_of_ne (by omega) _ _
  have ha : Ahead t ((((),{ t.1 with
      states := update t.1.states (t.1.version+1) (f (t.1.states t.1.version)), version := t.1.version+1 }) : Unit × Shared Db Rows).2,t.2) :=
    ⟨Nat.le_refl _,Nat.le_refl _,Nat.le_succ _,hst,Nat.le_refl _,fun _ _ => rfl⟩
  exact ⟨ha,fun hs => ⟨Nat.le_succ_of_le hs.settled,fun sql entry hh => ha.good (hs.hot sql entry hh),
    fun index sql entry hp => ha.good (hs.shared index sql entry hp)⟩⟩

theorem safe_execute (hs : Sound answer s) (f : Db → Db) :
    Safe answer (execute f : Turns Db Rows Nat) (fun version t => version ≤ t.2) s := by
  refine Ensures.bind ((Safe.since (safe_change f)).mono fun version t h => ?_)
  refine Ensures.bind ((safe_invalidateResultCache (h.1.sound hs)).mono fun _ u hu v hv => ?_)
  exact Nat.le_trans (Nat.le_trans h.2 hu) hv.settled

theorem safe_refresh (hs : Sound answer s) (f : Db → Db) :
    Safe answer (refresh f : Turns Db Rows Nat) (fun version t => version ≤ t.2) s := by
  refine Ensures.bind ((Safe.since (safe_change f)).mono fun version t h => Ensures.bind fun u hu _ => ?_)
  have hi := later_of_increment ((h.1.trans hu).sound hs) (Nat.le_refl _) (Nat.le_succ _) (.inr (Nat.lt_succ_self _))
  refine ⟨u.1.version,hi,fun v hv w hw => ?_⟩
  exact Nat.le_trans (Nat.le_trans h.2 hu.version) (hv.trans hw).settled

variable (answer) in
def Meets (outcome : Outcome Rows Tenant) (t : Shared Db Rows × Nat) : Prop :=
  match outcome with
  | .answered a => Reflects answer a t
  | .changed version => version ≤ t.2

theorem Call.safe (hs : Sound answer s) (hsince : since ≤ s.2) (call : Call Db Tenant) :
    Safe answer (call.program answer hash since) (Meets answer) s := by
  cases call with
  | query q => exact Ensures.bind ((safe_query hs hsince q).mono fun rows t h u hu => h.later hu)
  | execute f => exact Ensures.bind ((safe_execute hs f).mono fun version t h u hu => Nat.le_trans h hu.settled)
  | refresh f => exact Ensures.bind ((safe_refresh hs f).mono fun version t h u hu => Nat.le_trans h hu.settled)

namespace World

structure Coherent (answer : String → Session Tenant → Db → Rows) (w : World Db Rows Tenant) (settled : Nat) : Prop where
  sound : Sound answer (w.shared,settled)
  returned : w.returned ≤ settled
  threads : ∀ id program, w.threads id = some program → Safe answer program (Meets answer) (w.shared,settled)
  answers : ∀ a ∈ w.answers, Reflects answer a (w.shared,settled)

variable {w : World Db Rows Tenant} {settled : Nat}

theorem Coherent.finish (h : w.Coherent answer settled) {outcome : Option (Outcome Rows Tenant)}
    (ho : ∀ o, outcome = some o → Meets answer o (w.shared,settled)) : (w.finish outcome).Coherent answer settled := by
  cases outcome with
  | none => exact h
  | some outcome =>
    replace ho := ho outcome rfl
    cases outcome with
    | answered a => exact ⟨h.sound,h.returned,h.threads,forall_mem_append.mpr ⟨h.answers,forall_mem_singleton.mpr ho⟩⟩
    | changed version => exact ⟨h.sound,Nat.max_le.mpr ⟨h.returned,ho⟩,h.threads,h.answers⟩

theorem Coherent.step (h : w.Coherent answer settled) (event : Event Db Tenant) :
    ∃ settled', (w.step answer hash event).Coherent answer settled' := by
  cases event with
  | begin id call =>
    rw [World.step]
    split
    · exact ⟨settled,h⟩
    refine ⟨settled,h.sound,h.returned,fun other program hp => ?_,h.answers⟩
    dsimp only at hp
    rw [update_apply] at hp
    split at hp
    · cases hp
      exact call.safe h.sound h.returned
    · exact h.threads other program hp
  | turn id =>
    rw [World.step]
    split
    · exact ⟨settled,h⟩
    next program hp =>
      obtain ⟨settled',hl,hn⟩ := (h.threads id program hp).advance (Later.refl _) ()
      have hthreads : ∀ other program', update w.threads id
          (if (program.advance () w.shared).1.result?.isSome then none else some (program.advance () w.shared).1) other =
            some program' → Safe answer program' (Meets answer) ((program.advance () w.shared).2,settled') := by
        intro other program' hp'
        rw [update_apply] at hp'
        split at hp'
        · split at hp'
          · cases hp'
          · cases hp'
            exact hn
        · exact (h.threads other program' hp').later hl
      have hw : (⟨(program.advance () w.shared).2,_,w.returned,w.answers⟩ : World Db Rows Tenant).Coherent answer settled' :=
        ⟨hl.sound h.sound,Nat.le_trans h.returned hl.settled,hthreads,fun a ha => (h.answers a ha).later hl⟩
      exact ⟨settled',hw.finish fun o ho => hn.result ho⟩

/-- In every interleaving of queries, changes and invalidations, cached or not, the rows of a query are those of its text for
its session in a state of the database that has all changes whose calls had returned when the query began. -/
theorem query_reflects_returned_changes (answer : String → Session Tenant → Db → Rows) (hash : String → Nat) (db : Db)
    (capacity schemaGeneration : Nat) (events : List (Event Db Tenant)) :
    let w := run (step answer hash) (new db capacity schemaGeneration : World Db Rows Tenant) events
    w.shared.resultCacheEpoch < 2^64 → w.shared.schemaGeneration < 2^64 → ∀ a ∈ w.answers,
      ∃ i, a.since ≤ i ∧ i ≤ w.shared.version ∧ a.rows = answer a.sql a.session (w.shared.states i) := by
  intro w he hg a ha
  have hnew : (new db capacity schemaGeneration : World Db Rows Tenant).Coherent answer 0 :=
    ⟨⟨Nat.le_refl _,fun _ _ => nofun,fun _ _ _ => nofun⟩,Nat.le_refl _,fun _ _ => nofun,nofun⟩
  obtain ⟨settled,h⟩ := run_invariant (step answer hash) (fun w => ∃ settled, w.Coherent answer settled)
    (fun _ event ⟨_,h⟩ => h.step event) ⟨0,hnew⟩ events
  exact h.answers a ha he hg

/-- A reader that a change overtakes publishes nothing, and the next one sees the change. -/
theorem query_overtaken :
    let q : Query Unit := ⟨"SELECT n FROM t",⟨none,none,none⟩,false,true⟩
    let again := Event.begin 0 (.query q) :: replicate 16 (.turn 0)
    let events := again.take 5 ++ .begin 1 (.execute (·+1)) :: replicate 6 (.turn 1) ++ replicate 9 (.turn 0) ++ again ++ again
    let w := run (step (fun _ _ db => db) fun _ => 0) (new 0 256 0 : World Nat Nat Unit) events
    w.answers.map (fun a => (a.since,a.rows)) = [(0,0),(1,1),(1,1)] ∧ ∀ a ∈ w.answers,
      ∃ i, a.since ≤ i ∧ i ≤ w.shared.version ∧ a.rows = w.shared.states i :=
  ⟨by decide +kernel,query_reflects_returned_changes _ _ 0 256 0 _ (by decide +kernel) (by decide +kernel)⟩

end World
end
end HeliosNano.Storage.ResultCaching
