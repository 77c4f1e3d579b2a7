import HeliosNano.Storage.CommitEffect
import HeliosNano.Storage.OwnWrites

namespace HeliosNano.Storage.OwnWrites
open Foundation List

/-- What the engine that replays has: its key, its catalog and the serializer of counters. -/
structure ReplayContext where
  keyManager : Option KeyManager
  tableExists : Bytes → Bool
  serializeCounter : RowId → Except String Bytes

namespace ReplayContext

/-- What an operation adds to the batch, and whether it counts as one of its operations. -/
def applyWalOperationToBatch (rc : ReplayContext) : WalOperation → Except Error (WriteBatch × Bool)
  | .insert table key tuple =>
    if rc.tableExists table then do
      let data ← sealRowValue rc.keyManager key tuple
      .ok ([.put key data],true)
    else .ok ([],false)
  | .update table key tuple =>
    if rc.tableExists table then do
      let data ← sealRowValue rc.keyManager key tuple
      .ok ([.put key data],true)
    else .ok ([],false)
  | .delete table key => if rc.tableExists table then .ok ([.delete key],true) else .ok ([],false)
  | .updateCounter tableName newValue =>
    match rc.serializeCounter newValue with
    | .error message => .error (.storage ("Failed to serialize counter: " ++ message))
    | .ok value => do
      let stored ← sealStored rc.keyManager (counterPrefix ++ textBytes tableName) value
      .ok ([.put (counterPrefix ++ textBytes tableName) stored],false)

/-- The operation's part of what is written: one that fails has none. -/
def opsOf (rc : ReplayContext) (operation : WalOperation) : WriteBatch :=
  match rc.applyWalOperationToBatch operation with
  | .ok (ops,_) => ops
  | .error _ => []

end ReplayContext
open ReplayContext

def replayBatchSize : Nat := 100

structure Replay where
  db : Db
  batch : WriteBatch
  batchCount : Nat
  errorCount : Nat

/-- One operation of a number of them. A full batch is written, an operation that fails is passed over unless too many have. -/
def Replay.apply (rc : ReplayContext) (count : Nat) (r : Replay) (operation : WalOperation) : Except Error Replay :=
  match rc.applyWalOperationToBatch operation with
  | .ok (ops,added) =>
    let batch := r.batch ++ ops
    let batchCount := if added then r.batchCount+1 else r.batchCount
    if replayBatchSize ≤ batchCount then
      match r.db.write batch with
      | .error message => .error (.storage ("Batch write failed: " ++ message))
      | .ok db => .ok { r with db := db, batch := [], batchCount := 0 }
    else .ok { r with batch := batch, batchCount := batchCount }
  | .error _ =>
    let errorCount := r.errorCount+1
    if count/10 < errorCount then
      .error (.storage ("Too many errors during WAL replay: " ++ toString errorCount ++ "/" ++ toString count))
    else .ok { r with errorCount := errorCount }

/-- The second pass of `replay_wal_after`. Counters alone are no reason to write a last batch. -/
def replayWal (rc : ReplayContext) (db : Db) (operations : List WalOperation) : Except Error Db := do
  let r ← operations.foldlM (Replay.apply rc operations.length) ⟨db,[],0,0⟩
  if 0 < r.batchCount then
    match r.db.write r.batch with
    | .error message => .error (.storage ("Final batch write failed: " ++ message))
    | .ok db => .ok db
  else .ok r.db

def sealStaged (km : Option KeyManager) (key : Key) : Option Bytes → Except Error (Option Bytes)
  | none => .ok none
  | some value => (sealRowValue km key value).map some

/-- The operations of a batch on a key all store what is staged for it. -/
structure Carries (km : Option KeyManager) (batch : WriteBatch) (key : Key) (staged : Option (Option Bytes)) : Prop where
  agrees : ∀ op ∈ batch, op.key = key → ∃ value, staged = some value ∧ sealStaged km key value = .ok op.value
  reaches : staged ≠ none → ∃ op ∈ batch, op.key = key

section
variable {km : Option KeyManager} {batch : WriteBatch} {key : Key} {staged : Option (Option Bytes)}

theorem isRowValueKey_of_data (h : dataPrefix <+: key) : isRowValueKey key = true :=
  any_eq_true.mpr ⟨dataPrefix,mem_cons_self,decide_eq_true h⟩

theorem open_sealStaged (hs : SoundSeal km) (hkey : dataPrefix <+: key) {value stored : Option Bytes}
    (h : sealStaged km key value = .ok stored) : stored.map (openOwned km) = value := by
  cases value with
  | none =>
    cases h
    rfl
  | some value =>
    obtain ⟨found, hsl, hopen⟩ := hs.seal_open key value
    rw [sealStaged,sealRowValue,if_pos (isRowValueKey_of_data hkey), hsl] at h
    cases h
    rw [Option.map_some, hopen]

theorem Carries.committed (h : Carries km batch key staged) (hs : SoundSeal km) (hkey : dataPrefix <+: key) (store : Store) :
    committed km (store.write batch) key = staged.getD (committed km store key) := by
  cases staged with
  | none =>
    have hn : ∀ op ∈ batch, op.key ≠ key := by
      intro op hop heq
      obtain ⟨value,hv,-⟩ := h.agrees op hop heq
      cases hv
    rw [OwnWrites.committed,Map.lookup_write_of_not_mem store hn]
    rfl
  | some value =>
    obtain ⟨op,hop,heq⟩ := h.reaches (Option.some_ne_none value)
    obtain ⟨value',hv',hsl⟩ := h.agrees op hop heq
    obtain rfl := Option.some.inj hv'
    have ha : ∀ other ∈ batch, other.key = key → other.value = op.value := by
      intro other ho hk'
      obtain ⟨value',hv',hs'⟩ := h.agrees other ho hk'
      obtain rfl := Option.some.inj hv'
      rw [hsl,Except.ok.injEq] at hs'
      exact hs'.symm
    rw [OwnWrites.committed,Map.lookup_write_of_agree store ha,if_pos ⟨op,hop,heq⟩,open_sealStaged hs hkey hsl]
    rfl

theorem StagesRows.carries {Value : Type} {codec : RowCodec Value} {store : Store} {t : Transaction} (h : StagesRows codec store t)
    (hkey : dataPrefix <+: key)
    (hf : ∀ op ∈ batch, op.key = key → (∃ data, (key,data) ∈ t.freshInserts ∧ sealStaged km key (some data) = .ok op.value) ∨
      ∃ staged, t.writeSet.lookup key = some staged ∧ sealStaged km key staged = .ok op.value)
    (hi : ∀ data, (key,data) ∈ t.freshInserts → ∃ op ∈ batch, op.key = key)
    (hwr : ∀ staged, t.writeSet.lookup key = some staged → ∃ op ∈ batch, op.key = key) :
    Carries km batch key (t.staged key) where
  agrees op hop heq := by
    obtain ⟨data,hm,hs⟩ | ⟨staged,hlk,hs⟩ := hf op hop heq
    · obtain ⟨hm,hn⟩ := mem_filter.mp hm
      exact ⟨some data,h.staged_insert hkey (AList.lookup_eq_none.mpr (of_decide_eq_true hn)) hm,hs⟩
    · exact ⟨staged,staged_write hlk,hs⟩
  reaches hne := by
    cases hlk : t.writeSet.lookup key with
    | some staged => exact hwr staged hlk
    | none =>
      obtain ⟨staged,hst⟩ := Option.ne_none_iff_exists'.mp hne
      obtain ⟨data,-,hm⟩ := insert_of_staged hlk hst
      exact hi data (mem_filter.mpr ⟨hm,decide_eq_true (AList.lookup_eq_none.mp hlk)⟩)

end

section
variable {ctx : CommitContext} {m : SnapshotManager} {db : Db} {ts : Timestamp} {t : Transaction} {key : Key}

/-- The operations of one entry: one on its key, and those of versions. -/
def Stores (km : Option KeyManager) (key : Key) (staged : Option Bytes) (own : WriteBatch) : Prop :=
  ∃ before op after, own = before ++ op::after ∧ op.key = key ∧ sealStaged km key staged = .ok op.value ∧
    InSpaces Keyspace.IsVersion before ∧ InSpaces Keyspace.IsVersion after

theorem not_data_of_inSpaces {P : Keyspace → Prop} {batch : WriteBatch} (h : InSpaces P batch) (hP : ¬P .data) (hkey : dataPrefix <+: key) :
    ∀ op ∈ batch, op.key ≠ key := by
  intro op hop heq
  obtain ⟨space,hs,tail,htl⟩ := h op hop
  obtain ⟨rest,hrest⟩ := hkey
  have hne : space ≠ .data := fun he => hP (he ▸ hs)
  exact keyspace_disjoint hne tail rest (htl.trans (heq.trans hrest.symm))

theorem not_isVersion_data : ¬Keyspace.IsVersion .data := by
  rintro (h | h) <;> cases h

theorem not_isLog_data : ¬Keyspace.IsLog .data := by
  rintro (h | h | h) <;> cases h

variable {km : Option KeyManager} {staged : Option Bytes}

theorem Stores.only {key' : Key} {own : WriteBatch} (h : Stores km key' staged own)
    (hkey : dataPrefix <+: key) {op : BatchOp Key Bytes} (hop : op ∈ own) (heq : op.key = key) :
    key' = key ∧ sealStaged km key' staged = .ok op.value := by
  obtain ⟨before,main,after,rfl,hm,hs,hb,ha⟩ := h
  rcases mem_append.mp hop with hop | hop
  · exact absurd heq (not_data_of_inSpaces hb not_isVersion_data hkey op hop)
  · rcases mem_cons.mp hop with rfl | hop
    · exact ⟨hm.symm.trans heq,hs⟩
    · exact absurd heq (not_data_of_inSpaces ha not_isVersion_data hkey op hop)

theorem Stores.mem {own : WriteBatch} (h : Stores km key staged own) : ∃ op ∈ own, op.key = key := by
  obtain ⟨before,main,after,rfl,hm,-⟩ := h
  exact ⟨main,mem_append_right _ mem_cons_self,hm⟩

theorem stores_stageInsert {entry : Key × Bytes} {own : WriteBatch} (h : ctx.stageInsert m ts entry = .ok own) :
    Stores ctx.keyManager entry.1 (some entry.2) own := by
  obtain ⟨stored,versions, hs,rfl,hv⟩ := putRow_ops (mapError_eq_ok.mp h)
  refine ⟨[],.put entry.1 stored,versions,rfl,rfl,?_,inSpaces_nil,hv⟩
  rw [sealStaged, hs]
  rfl

theorem stores_stageWrite {entry : Key × Option Bytes} {own : WriteBatch} (h : ctx.stageWrite m db ts entry = .ok own) :
    Stores ctx.keyManager entry.1 entry.2 own := by
  obtain ⟨key,staged⟩ := entry
  obtain ⟨before,hb,h⟩ := bind_eq_ok.mp h
  have hv := isVersion_preImages (mapError_eq_ok.mp hb)
  cases staged with
  | none =>
    cases h
    exact ⟨before,.delete key,[],rfl,rfl,rfl,hv,inSpaces_nil⟩
  | some value =>
    obtain ⟨put,hp,h⟩ := bind_eq_ok.mp h
    obtain ⟨stored,versions, hs,rfl,ha⟩ := putRow_ops (mapError_eq_ok.mp hp)
    cases h
    refine ⟨before,.put key stored,versions,rfl,rfl,?_,hv,ha⟩
    rw [sealStaged, hs]
    rfl

/-- The commit gets to the write of its batch, and that goes well. What may fail after it is the group fsync. -/
def Applies (ctx : CommitContext) (m : SnapshotManager) (db : Db) (conflict : Option ConflictState) (locks : LockManager) (t : Transaction)
    (ts : Timestamp) : Prop :=
  (t.commitWithTimestamp { ctx with groupFsyncError := none } m db conflict locks ts).result = .ok ()

variable {conflict : Option ConflictState} {locks : LockManager}

theorem applyBatch_store {batch : WriteBatch} {inflight : Bool}
    (h : (t.applyBatch { ctx with groupFsyncError := none } db batch inflight ts conflict locks).result = .ok ()) :
    (t.applyBatch ctx db batch inflight ts conflict locks).db.store = db.store.write batch := by
  rw [Transaction.applyBatch.eq_def] at h ⊢
  cases hwr : db.write batch with
  | error message =>
    rw [hwr] at h
    cases h
  | ok db' =>
    dsimp only
    split
    · exact Db.store_of_write hwr
    · exact Db.store_of_write hwr

theorem Applies.written (h : Applies ctx m db conflict locks t ts) :
    ∃ rows log, ctx.buildBatch m db ts t = .ok rows ∧ InSpaces Keyspace.IsLog log ∧
      (t.commitWithTimestamp ctx m db conflict locks ts).db.store = db.store.write (rows ++ log) := by
  have hvl : t.validate { ctx with groupFsyncError := none } conflict ts = t.validate ctx conflict ts := rfl
  have hb : CommitContext.buildBatch { ctx with groupFsyncError := none } m db ts t = ctx.buildBatch m db ts t := rfl
  have hp : t.walPlan { ctx with groupFsyncError := none } = t.walPlan ctx := rfl
  rw [Applies,Transaction.commitWithTimestamp.eq_def,hvl,hb,hp] at h
  rw [Transaction.commitWithTimestamp.eq_def]
  dsimp only at h ⊢
  by_cases ha : t.state ≠ .active
  · rw [if_pos ha] at h
    cases h
  rw [if_neg ha] at h ⊢
  rcases hv : t.validate ctx conflict ts with ⟨conflict',_ | conflictKey⟩
  · rw [hv] at h
    rcases hr : ctx.buildBatch m db ts t with exit | rows
    · rw [hr] at h
      cases exit <;> cases h
    rw [hr] at h
    rcases hw : t.walPlan ctx with _ | ⟨wal,ops⟩
    · rw [hw] at h
      refine ⟨rows,[],rfl,inSpaces_nil,?_⟩
      rw [append_nil]
      exact applyBatch_store h
    · rw [hw] at h
      dsimp only at h ⊢
      rcases he : wal.stage ops with error | entries
      · rw [he] at h
        cases h
      · rw [he] at h
        exact ⟨rows,entries,rfl,isLog_walStage he,applyBatch_store h⟩
  · rw [hv] at h
    cases h

theorem StagesRows.committed_commit {Value : Type} {codec : RowCodec Value} (h : StagesRows codec db.store t) (hs : SoundSeal ctx.keyManager)
    (ha : Applies ctx m db conflict locks t ts) (hkey : dataPrefix <+: key) :
    committed ctx.keyManager (t.commitWithTimestamp ctx m db conflict locks ts).db.store key = own ctx.keyManager t db.store key := by
  obtain ⟨rows,log,hb,hl,hst⟩ := ha.written
  obtain ⟨inserts,hi,hb⟩ := bind_eq_ok.mp hb
  obtain ⟨writes,hw,hb⟩ := bind_eq_ok.mp hb
  obtain ⟨counters,hcn,hb⟩ := bind_eq_ok.mp hb
  cases hb
  have hc : InSpaces Keyspace.IsLog counters := stageAll_inSpaces (fun entry _ own ho => isLog_stageCounter ho) hcn
  have hcr : Carries ctx.keyManager (inserts ++ writes ++ counters ++ log) key (t.staged key) := by
    refine h.carries hkey (fun op hop heq => ?_) (fun data hm => ?_) (fun staged hlk => ?_)
    · rcases mem_append.mp hop with hop | hop
      · rcases mem_append.mp hop with hop | hop
        · rcases mem_append.mp hop with hop | hop
          · obtain ⟨entry,he,own,ho,hop⟩ := mem_stageAll hi op hop
            obtain ⟨rfl,hsl⟩ := (stores_stageInsert ho).only hkey hop heq
            exact .inl ⟨entry.2,he,hsl⟩
          · obtain ⟨entry,he,own,ho,hop⟩ := mem_stageAll hw op hop
            obtain ⟨rfl,hsl⟩ := (stores_stageWrite ho).only hkey hop heq
            exact .inr ⟨entry.2,(mem_stagedEntries t entry).mp he,hsl⟩
        · exact absurd heq (not_data_of_inSpaces hc not_isLog_data hkey op hop)
      · exact absurd heq (not_data_of_inSpaces hl not_isLog_data hkey op hop)
    · obtain ⟨own,ho,hsb⟩ := stageAll_subset hi hm
      obtain ⟨op,hop,heq⟩ := (stores_stageInsert ho).mem
      exact ⟨op,mem_append_left _ (mem_append_left _ (mem_append_left _ (hsb hop))),heq⟩
    · obtain ⟨own,ho,hsb⟩ := stageAll_subset hw ((mem_stagedEntries t (key,staged)).mpr hlk)
      obtain ⟨op,hop,heq⟩ := (stores_stageWrite ho).mem
      exact ⟨op,mem_append_left _ (mem_append_left _ (mem_append_right _ (hsb hop))),heq⟩
  rw [hst,hcr.committed hs hkey,own]

end

section
variable {rc : ReplayContext} {count : Nat} {key : Key}

/-- While no operation of the batch counts, none of it is a row. -/
def Replay.Pending (r : Replay) : Prop := r.batchCount = 0 → ∀ op ∈ r.batch, ¬dataPrefix <+: op.key

def Replay.pendingStore (r : Replay) : Store := r.db.store.write r.batch

variable {operation : WalOperation}

theorem not_data_of_not_added {ops : WriteBatch} (h : rc.applyWalOperationToBatch operation = .ok (ops,false)) :
    ∀ op ∈ ops, ¬dataPrefix <+: op.key := by
  cases operation with
  | insert table key tuple | update table key tuple =>
    rw [applyWalOperationToBatch] at h
    split at h
    · obtain ⟨data,-,h⟩ := bind_eq_ok.mp h
      cases h
    · cases h
      exact fun _ hop => absurd hop not_mem_nil
  | delete table key =>
    rw [applyWalOperationToBatch] at h
    split at h
    · cases h
    · cases h
      exact fun _ hop => absurd hop not_mem_nil
  | updateCounter tableName newValue =>
    rw [applyWalOperationToBatch] at h
    split at h
    · cases h
    obtain ⟨stored,-,h⟩ := bind_eq_ok.mp h
    cases h
    intro op hop hdata
    obtain rfl := mem_singleton.mp hop
    obtain ⟨rest,hrest⟩ := hdata
    exact keyspace_disjoint (show Keyspace.data ≠ Keyspace.counter by decide) rest _ hrest

theorem Replay.apply_spec {r r' : Replay} (hr : r.Pending) (h : Replay.apply rc count r operation = .ok r') :
    r'.Pending ∧ r'.pendingStore = r.pendingStore.write (rc.opsOf operation) := by
  rw [Replay.apply.eq_def] at h
  split at h
  next ops added ho =>
    have hs : r.db.store.write (r.batch ++ ops) = r.pendingStore.write (rc.opsOf operation) := by
      rw [opsOf,ho,Map.write_append]
      rfl
    dsimp only at h
    by_cases hf : replayBatchSize ≤ if added = true then r.batchCount+1 else r.batchCount
    · rw [if_pos hf] at h
      split at h
      · cases h
      next db hwr =>
        cases h
        refine ⟨fun _ op hop => absurd hop not_mem_nil,?_⟩
        rw [← hs,← Db.store_of_write hwr]
        rfl
    · rw [if_neg hf] at h
      cases h
      refine ⟨fun hz op hop => ?_,hs⟩
      cases added with
      | true => exact absurd hz (Nat.succ_ne_zero _)
      | false =>
        rcases mem_append.mp hop with hop | hop
        · exact hr hz op hop
        · exact not_data_of_not_added ho op hop
  next error ho =>
    have hn : rc.opsOf operation = [] := by rw [opsOf,ho]
    dsimp only at h
    split at h
    · cases h
    · cases h
      rw [hn]
      exact ⟨hr,rfl⟩

variable {operations : List WalOperation}

theorem Replay.foldlM_spec {r r' : Replay} (hr : r.Pending) (h : operations.foldlM (Replay.apply rc count) r = .ok r') :
    r'.Pending ∧ r'.pendingStore = r.pendingStore.write (operations.flatMap rc.opsOf) := by
  induction operations generalizing r with
  | nil =>
    cases h
    exact ⟨hr,rfl⟩
  | cons operation rest ih =>
    rw [foldlM_cons] at h
    obtain ⟨next,hn,h⟩ := bind_eq_ok.mp h
    obtain ⟨hp,hs⟩ := Replay.apply_spec hr hn
    obtain ⟨hl,hrest⟩ := ih hp h
    refine ⟨hl,?_⟩
    rw [hrest,hs,flatMap_cons,Map.write_append]

theorem lookup_replayWal {db db' : Db} (h : replayWal rc db operations = .ok db') (hkey : dataPrefix <+: key) :
    db'.store.lookup key = (db.store.write (operations.flatMap rc.opsOf)).lookup key := by
  obtain ⟨r,hr,h⟩ := bind_eq_ok.mp h
  have hs : Replay.Pending ⟨db,[],0,0⟩ := fun _ op hop => absurd hop not_mem_nil
  obtain ⟨hp,hst⟩ := Replay.foldlM_spec hs hr
  have ha : r.pendingStore = db.store.write (operations.flatMap rc.opsOf) := hst
  rw [← ha,Replay.pendingStore]
  split at h
  · split at h
    · cases h
    next db'' hwr =>
      cases h
      rw [Db.store_of_write hwr]
  next hc =>
    cases h
    -- the counters that are left in the batch are of another key space
    refine (Map.lookup_write_of_not_mem _ fun op hop heq => ?_).symm
    exact hp (Nat.eq_zero_of_not_pos hc) op hop (heq ▸ hkey)

end

section
variable {Value : Type} {codec : RowCodec Value} {store : Store} {t : Transaction} {rc : ReplayContext} {table : TableName} {row : RowId}

theorem parseDataKeyTable_dataKey (table : TableName) (row : RowId) : parseDataKeyTable (dataKey table.bytes row) = some table.bytes := by
  have hu : (fromUtf8 (rowText table.bytes row)).isSome = true := (isSome_fromUtf8 _).mpr (isUtf8_rowText table row)
  have hs : splitLast colon (rowText table.bytes row) = some (table.bytes,decimal row) := splitLast_append _ _ (colon_not_mem_decimal row)
  simp only [parseDataKeyTable,dataKey,stripPrefix_append,Option.bind_eq_bind,Option.bind_some,hu,if_true,hs,decimal_ne_nil,
    decimal_all_digits,Bool.true_eq_false,or_self,if_false]

def rowOperation (table : Bytes) (key : Key) : Option Bytes → WalOperation
  | some value => .update table key value
  | none => .delete table key

theorem mem_collectLogicalWalOps {operation : WalOperation} : operation ∈ t.collectLogicalWalOps ↔
    (∃ entry ∈ t.freshInserts, ∃ table, parseDataKeyTable entry.1 = some table ∧ operation = .insert table entry.1 entry.2) ∨
    (∃ entry ∈ t.stagedEntries, ∃ table, parseDataKeyTable entry.1 = some table ∧ operation = rowOperation table entry.1 entry.2) ∨
      ∃ entry ∈ t.rowCounterStages.entries, operation = .updateCounter entry.1 entry.2 := by
  rw [Transaction.collectLogicalWalOps,mem_append,mem_append,mem_filterMap,mem_filterMap,mem_map,or_assoc]
  refine or_congr ?_ (or_congr ?_ ?_)
  · simp only [Option.map_eq_some_iff,eq_comm (b := operation)]
  · refine exists_congr fun entry => and_congr_right fun _ => ?_
    rw [Option.map_eq_some_iff]
    refine exists_congr fun table => and_congr_right fun _ => ?_
    rw [eq_comm]
    cases entry.2 with
    | none | some value => rfl
  · simp only [eq_comm (b := operation)]

theorem opsOf_insert (rc : ReplayContext) (table : Bytes) (key : Key) (data : Bytes) :
    rc.opsOf (.insert table key data) = rc.opsOf (rowOperation table key (some data)) := rfl

theorem mem_opsOf_rowOperation {name : Bytes} {key : Key} {staged : Option Bytes} {op : BatchOp Key Bytes}
    (h : op ∈ rc.opsOf (rowOperation name key staged)) : op.key = key ∧ sealStaged rc.keyManager key staged = .ok op.value := by
  cases staged with
  | none =>
    rw [rowOperation,opsOf,applyWalOperationToBatch] at h
    by_cases hexists : rc.tableExists name = true
    · rw [if_pos hexists] at h
      obtain rfl := mem_singleton.mp h
      exact ⟨rfl,rfl⟩
    · rw [if_neg hexists] at h
      exact absurd h not_mem_nil
  | some value =>
    rw [rowOperation,opsOf,applyWalOperationToBatch] at h
    by_cases hexists : rc.tableExists name = true
    · rw [if_pos hexists] at h
      cases hs : sealRowValue rc.keyManager key value with
      | error error =>
        rw [hs] at h
        exact absurd h not_mem_nil
      | ok stored =>
        rw [hs] at h
        obtain rfl := mem_singleton.mp h
        refine ⟨rfl,?_⟩
        rw [sealStaged, hs]
        rfl
    · rw [if_neg hexists] at h
      exact absurd h not_mem_nil

theorem exists_mem_opsOf_rowOperation {name : Bytes} (key : Key) (hs : SoundSeal rc.keyManager) (hexists : rc.tableExists name = true)
    (staged : Option Bytes) : ∃ op ∈ rc.opsOf (rowOperation name key staged), op.key = key := by
  cases staged with
  | none =>
    refine ⟨.delete key,?_,rfl⟩
    rw [rowOperation,opsOf,applyWalOperationToBatch,if_pos hexists]
    exact mem_singleton_self _
  | some value =>
    obtain ⟨stored, hsl⟩ : ∃ stored, sealRowValue rc.keyManager key value = .ok stored := by
      rw [sealRowValue]
      split
      · obtain ⟨stored, hsl,-⟩ := hs.seal_open key value
        exact ⟨stored, hsl⟩
      · exact ⟨value,rfl⟩
    refine ⟨.put key stored,?_,rfl⟩
    rw [rowOperation,opsOf,applyWalOperationToBatch,if_pos hexists, hsl]
    exact mem_singleton_self _

theorem not_data_of_updateCounter {tableName : String} {newValue : RowId} :
    ∀ op ∈ rc.opsOf (.updateCounter tableName newValue), ¬dataPrefix <+: op.key := by
  intro op hop
  rw [opsOf] at hop
  split at hop
  next ops added ho =>
    cases added with
    | false => exact not_data_of_not_added ho op hop
    | true =>
      rw [applyWalOperationToBatch] at ho
      split at ho
      · cases ho
      · obtain ⟨stored,-,ho⟩ := bind_eq_ok.mp ho
        cases ho
  · exact absurd hop not_mem_nil

theorem StagesRows.carries_logged (h : StagesRows codec store t) (row : RowId) (hs : SoundSeal rc.keyManager) (hexists : rc.tableExists table.bytes = true) :
    Carries rc.keyManager (t.collectLogicalWalOps.flatMap rc.opsOf) (dataKey table.bytes row) (t.staged (dataKey table.bytes row)) := by
  refine h.carries (dataPrefix_dataKey _ _) (fun op hop heq => ?_) (fun data hm => ?_) (fun staged hlk => ?_)
  · obtain ⟨operation,ho,hop⟩ := mem_flatMap.mp hop
    rcases mem_collectLogicalWalOps.mp ho with ⟨entry,he,name,-,rfl⟩ | ⟨entry,he,name,-,rfl⟩ | ⟨entry,-,rfl⟩
    · rw [opsOf_insert] at hop
      obtain ⟨hkey,hsl⟩ := mem_opsOf_rowOperation hop
      rw [← heq,hkey]
      exact .inl ⟨entry.2,he,hsl⟩
    · obtain ⟨hkey,hsl⟩ := mem_opsOf_rowOperation hop
      rw [← heq,hkey]
      exact .inr ⟨entry.2,(mem_stagedEntries t entry).mp he,hsl⟩
    · exact absurd (heq ▸ dataPrefix_dataKey _ _) (not_data_of_updateCounter op hop)
  · obtain ⟨op,hop,heq⟩ := exists_mem_opsOf_rowOperation (dataKey table.bytes row) hs hexists (some data)
    refine ⟨op,mem_flatMap.mpr ⟨.insert table.bytes (dataKey table.bytes row) data,?_,hop⟩,heq⟩
    exact mem_collectLogicalWalOps.mpr (.inl ⟨_,hm,_,parseDataKeyTable_dataKey table row,rfl⟩)
  · obtain ⟨op,hop,heq⟩ := exists_mem_opsOf_rowOperation (dataKey table.bytes row) hs hexists staged
    refine ⟨op,mem_flatMap.mpr ⟨rowOperation table.bytes (dataKey table.bytes row) staged,?_,hop⟩,heq⟩
    exact mem_collectLogicalWalOps.mpr
      (.inr (.inl ⟨_,(mem_stagedEntries t (dataKey table.bytes row,staged)).mpr hlk,_,parseDataKeyTable_dataKey table row,rfl⟩))

theorem StagesRows.committed_replayWal (h : StagesRows codec store t) (hs : SoundSeal rc.keyManager) (hexists : rc.tableExists table.bytes = true)
    {km : Option KeyManager} {copy copy' : Db}
    (hcp : committed rc.keyManager copy.store (dataKey table.bytes row) = committed km store (dataKey table.bytes row))
    (hr : replayWal rc copy t.collectLogicalWalOps = .ok copy') :
    committed rc.keyManager copy'.store (dataKey table.bytes row) = own km t store (dataKey table.bytes row) := by
  have hc := (h.carries_logged row hs hexists).committed hs (dataPrefix_dataKey _ _) copy.store
  rw [committed,lookup_replayWal hr (dataPrefix_dataKey _ _),← committed,hc,hcp,own]

end
end HeliosNano.Storage.OwnWrites
