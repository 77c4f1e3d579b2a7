import HeliosNano.Storage.Branch.Manager
import HeliosNano.Storage.Commit

namespace HeliosNano.Storage.Branch
open Foundation List Option AList Transaction

/-- The keys of a branch are no `data:` keys: a transaction reads them as they are stored. -/
def readRawDecoded (keyManager : Option KeyManager) (rows : Store) (key : Key) : Option Bytes :=
  (rows.lookup key).map (openOwned keyManager)

structure BranchTransaction where
  tx : Transaction
  branchId : Nat
  parentChain : List (Nat × Timestamp)

namespace BranchTransaction

/-- The transaction has no lock manager, and the lowest isolation level. -/
def new (transactionId : TxnId) (branchId : Nat) (parentChain : List (Nat × Timestamp)) (snapshotId : Timestamp) :
    BranchTransaction := ⟨.newWithSession transactionId snapshotId .readCommitted,branchId,parentChain⟩

/-- The walk over the parents. The main branch has its rows under the keys themselves. -/
def readParents (keyManager : Option KeyManager) (rows : Store) (key : Key) : List (Nat × Timestamp) → Option Bytes
  | [] => none
  | (parentId,_)::rest =>
    let parentKey := if parentId = 1 then key else encodeBranchDataKey parentId (lossyBytes key)
    match readRawDecoded keyManager rows parentKey with
    | some value => some value
    | none => readParents keyManager rows key rest

def get (keyManager : Option KeyManager) (rows : Store) (t : BranchTransaction) (key : Key) : CallResult (Option Bytes) :=
  if t.tx.state ≠ .active then .err notActive
  else
    match t.tx.lookup (fun key _ => .ok (readRawDecoded keyManager rows key))
        (encodeBranchDataKey t.branchId (lossyBytes key)) with
    | .ok none => .ok (readParents keyManager rows key t.parentChain)
    | result => result

def put (t : BranchTransaction) (key : Key) (value : Bytes) : BranchTransaction × CallResult Unit :=
  if t.tx.state ≠ .active then (t,.err notActive)
  else
    let branchKey := encodeBranchDataKey t.branchId (lossyBytes key)
    ({ t with tx := { t.tx with writeSet := t.tx.writeSet.insert branchKey (some value) } },.ok ())

def delete (t : BranchTransaction) (key : Key) : BranchTransaction × CallResult Unit :=
  let (tx,result) := t.tx.delete (encodeBranchDataKey t.branchId (lossyBytes key))
  ({ t with tx := tx },result)

/-- What `Transaction::new` sets: versions are kept, nothing is logged or validated. -/
def commitContext (keyManager : Option KeyManager) : CommitContext where
  versioningEnabled := true
  conflictValidation := false
  keyManager := keyManager
  hasRowCache := false
  wal := none
  statementWal := none
  serializeCounter := fun row => .ok (beBytes 8 row).reverse
  groupFsyncError := none

def commit (keyManager : Option KeyManager) (snapshots : SnapshotManager) (rows : Store) (t : BranchTransaction) :
    CommitOutcome :=
  t.tx.commitWithTimestamp (commitContext keyManager) snapshots (.healthy rows) none (.new 0) t.tx.snapshotTs

end BranchTransaction

def BranchManager.beginBranchTransaction (m : BranchManager) (name : String) (transactionId : TxnId) :
    BranchManager × Except BranchError BranchTransaction :=
  match m.getBranchByName name with
  | .error error => (m,.error error)
  | .ok branch =>
    match m.buildParentChain branch.branchId with
    | (m,.error error) => (m,.error error)
    | (m,.ok parentChain) =>
      let m := m.nextTimestamp
      (m,.ok (.new transactionId branch.branchId parentChain m.timestamp))

theorem branchDataPrefix_encode (id : Nat) (key : Bytes) : branchDataPrefix <+: encodeBranchDataKey id key :=
  ⟨beBytes 8 id ++ ([colon] ++ key),by simp only [encodeBranchDataKey,branchLead,append_assoc]⟩

theorem encodeBranchDataKey_inj {id id' : Nat} {key key' : Bytes} (hid : id ≤ u64Max) (hid' : id' ≤ u64Max)
    (h : encodeBranchDataKey id key = encodeBranchDataKey id' key') : id = id' ∧ key = key' := by
  have hb : beBytes 8 id ++ ([colon] ++ key) = beBytes 8 id' ++ ([colon] ++ key') := by
    simp only [encodeBranchDataKey,branchLead,append_assoc] at h
    exact append_cancel_left h
  obtain ⟨hl,hrest⟩ := append_inj hb (by rw [length_beBytes,length_beBytes])
  refine ⟨?_,append_cancel_left hrest⟩
  have hlt : ∀ {n : Nat}, n ≤ u64Max → n < 256^8 := by
    intro n hn
    rw [u64Max] at hn
    omega
  rw [← beValue_beBytes (hlt hid),hl,beValue_beBytes (hlt hid')]

theorem stripPrefix_data_encode (id : Nat) (key : Bytes) : stripPrefix dataPrefix (encodeBranchDataKey id key) = none := by
  rw [stripPrefix,if_neg]
  rintro ⟨rest,heq⟩
  have hh := congrArg List.head? heq
  rw [encodeBranchDataKey,branchLead,branchDataPrefix,dataPrefix] at hh
  exact absurd (Option.some.inj hh) (by decide)

structure UserKey where
  bytes : Bytes
  utf8 : IsUtf8 bytes

inductive BranchOp
  | put (key : UserKey) (value : Bytes)
  | delete (key : UserKey)

namespace BranchOp

def key : BranchOp → UserKey
  | put key _ => key
  | delete key => key

def outcome : BranchOp → Option Bytes
  | put _ value => some value
  | delete _ => none

end BranchOp

namespace BranchTransaction

def apply (t : BranchTransaction) : BranchOp → BranchTransaction
  | .put key value => (t.put key.bytes value).1
  | .delete key => (t.delete key.bytes).1

def lastOp (key : Bytes) : List BranchOp → Option (Option Bytes)
  | [] => none
  | op::rest => (lastOp key rest).or (if op.key.bytes = key then some op.outcome else none)

/-- An active transaction that has staged nothing but keys of its branch. -/
structure Staged (t : BranchTransaction) : Prop where
  active : t.tx.state = .active
  insertLog : t.tx.insertLog = []
  counters : t.tx.rowCounterStages = ∅
  keys : ∀ key ∈ t.tx.writeSet, ∃ userKey, key = encodeBranchDataKey t.branchId userKey

theorem staged_new (transactionId : TxnId) (branchId : Nat) (parentChain : List (Nat × Timestamp)) (snapshotId : Timestamp) :
    (new transactionId branchId parentChain snapshotId).Staged :=
  ⟨rfl,rfl,rfl,fun key hkey => absurd hkey (notMem_empty key)⟩

theorem get_new (keyManager : Option KeyManager) (rows : Store) (transactionId : TxnId) (branchId : Nat)
    (parentChain : List (Nat × Timestamp)) (snapshotId : Timestamp) (key : Key) :
    (new transactionId branchId parentChain snapshotId).get keyManager rows key =
      .ok ((readRawDecoded keyManager rows (encodeBranchDataKey branchId (lossyBytes key))).or
        (readParents keyManager rows key parentChain)) := by
  have ho : (new transactionId branchId parentChain snapshotId).tx.lookup
      (fun key _ => .ok (readRawDecoded keyManager rows key)) (encodeBranchDataKey branchId (lossyBytes key)) =
      .ok (readRawDecoded keyManager rows (encodeBranchDataKey branchId (lossyBytes key))) := rfl
  have ha : (new transactionId branchId parentChain snapshotId).tx.state = .active := rfl
  have hbr : (new transactionId branchId parentChain snapshotId).branchId = branchId := rfl
  rw [get,ha,if_neg (fun h => h rfl),hbr,ho]
  cases readRawDecoded keyManager rows (encodeBranchDataKey branchId (lossyBytes key)) <;> rfl

variable {t : BranchTransaction} {keyManager : Option KeyManager}

theorem apply_eq (h : t.Staged) (op : BranchOp) : t.apply op = { t with tx := { t.tx with
      writeSet := t.tx.writeSet.insert (encodeBranchDataKey t.branchId op.key.bytes) op.outcome } } := by
  cases op with
  | put key value =>
    simp only [apply,put,h.active,ne_eq,not_true_eq_false,if_false,lossyBytes_eq key.utf8]
    rfl
  | delete key =>
    simp only [apply,delete,Transaction.delete,h.active,ne_eq,not_true_eq_false,if_false,lossyBytes_eq key.utf8]
    rfl

theorem Staged.apply (h : t.Staged) (op : BranchOp) : (t.apply op).Staged := by
  rw [apply_eq h op]
  refine ⟨h.active,h.insertLog,h.counters,fun key hkey => ?_⟩
  rcases (mem_insert _).mp hkey with rfl | hold
  · exact ⟨_,rfl⟩
  · exact h.keys key hold

theorem Staged.applyAll (h : t.Staged) (ops : List BranchOp) :
    (ops.foldl BranchTransaction.apply t).Staged ∧ (ops.foldl BranchTransaction.apply t).branchId = t.branchId ∧
      (ops.foldl BranchTransaction.apply t).parentChain = t.parentChain ∧
      ∀ key, (ops.foldl BranchTransaction.apply t).tx.writeSet.lookup (encodeBranchDataKey t.branchId key) =
        (lastOp key ops).or (t.tx.writeSet.lookup (encodeBranchDataKey t.branchId key)) := by
  induction ops generalizing t with
  | nil => exact ⟨h,rfl,rfl,fun key => rfl⟩
  | cons op rest ih =>
    obtain ⟨hs,hbr,hc,hlk⟩ := ih (h.apply op)
    have heq := apply_eq h op
    have hid : (t.apply op).branchId = t.branchId := congrArg (·.branchId) heq
    rw [foldl_cons]
    refine ⟨hs,hbr.trans hid,hc.trans (congrArg (·.parentChain) heq),fun key => ?_⟩
    have hkey := hlk key
    rw [hid] at hkey
    rw [hkey,heq,lastOp]
    simp only [Map.lookup_insert_ite]
    by_cases hop : op.key.bytes = key
    · rw [hop,if_pos rfl,if_pos rfl]
      cases lastOp key rest <;> rfl
    · have hne : encodeBranchDataKey t.branchId key ≠ encodeBranchDataKey t.branchId op.key.bytes :=
        fun h => hop (append_cancel_left h).symm
      rw [if_neg hne,if_neg hop,or_none]

def batchOp (keyManager : Option KeyManager) (entry : Key × Option Bytes) : BatchOp Key Bytes :=
  match entry.2 with
  | none => .delete entry.1
  | some value =>
    match sealStored keyManager entry.1 value with
    | .ok stored => .put entry.1 stored
    | .error _ => .delete entry.1

theorem batchOp_key (keyManager : Option KeyManager) (entry : Key × Option Bytes) : (batchOp keyManager entry).key = entry.1 := by
  unfold batchOp
  split
  · rfl
  · split <;> rfl

theorem batchOp_value (h : SoundSeal keyManager) (entry : Key × Option Bytes) :
    (batchOp keyManager entry).value.map (openOwned keyManager) = entry.2 := by
  obtain ⟨key,staged⟩ := entry
  cases staged with
  | none => rfl
  | some value =>
    obtain ⟨stored, hs, hopen⟩ := h.seal_open key value
    simp only [batchOp, hs,BatchOp.value,map_some, hopen]

theorem stageWrite_encode (h : SoundSeal keyManager) (snapshots : SnapshotManager) (db : Db)
    (ts : Timestamp) {entry : Key × Option Bytes} {id : Nat} {key : Bytes} (hkey : entry.1 = encodeBranchDataKey id key) :
    (commitContext keyManager).stageWrite snapshots db ts entry = .ok [batchOp keyManager entry] := by
  obtain ⟨raw,staged⟩ := entry
  change raw = _ at hkey
  subst hkey
  have hr : parseRowKey (encodeBranchDataKey id key) = none := by simp [parseRowKey,stripPrefix_data_encode]
  have hp : (commitContext keyManager).preImages snapshots db ts (encodeBranchDataKey id key) = .ok [] := by
    simp only [CommitContext.preImages,materializeEntry,hr]
    split <;> rfl
  cases staged with
  | none => simp only [CommitContext.stageWrite,hp,batchOp,Except.mapError,bind,Except.bind,nil_append]
  | some value =>
    obtain ⟨stored, hsl,-⟩ := h.seal_open (encodeBranchDataKey id key) value
    have hsp : isRowValueKey (encodeBranchDataKey id key) = true := by
      simp only [isRowValueKey,any_cons,Bool.or_eq_true,decide_eq_true_eq]
      exact .inr (.inr (.inr (.inr (.inl (branchDataPrefix_encode id key)))))
    have hv : versionedRow (encodeBranchDataKey id key) = none := by simp [versionedRow,stripPrefix_data_encode]
    have hpt : (commitContext keyManager).putRow snapshots ts (encodeBranchDataKey id key) value =
        .ok [.put (encodeBranchDataKey id key) stored] := by
      have hs : sealRowValue (commitContext keyManager).keyManager (encodeBranchDataKey id key) value = .ok stored := by
        rw [sealRowValue,if_pos hsp]
        exact hsl
      simp only [CommitContext.putRow,putVersionedBatch,hs,putVersionIndexBatch,hv,bind,
        Except.bind,ite_self]
    simp only [CommitContext.stageWrite,hp,hpt,batchOp, hsl,Except.mapError,bind,Except.bind,nil_append]

theorem stageAll_single {α ε : Type} {stage : α → Except ε WriteBatch} {f : α → BatchOp Key Bytes} {xs : List α}
    (h : ∀ x ∈ xs, stage x = .ok [f x]) : stageAll stage xs = .ok (xs.map f) := by
  induction xs with
  | nil => rfl
  | cons x rest ih =>
    obtain ⟨hx,hrest⟩ := forall_mem_cons.mp h
    simp only [stageAll,hx,ih hrest,bind,Except.bind,map_cons,singleton_append]

theorem Staged.commit (h : t.Staged) (hs : SoundSeal keyManager) (snapshots : SnapshotManager) (rows : Store) :
    (t.commit keyManager snapshots rows).result = .ok () ∧
      ∀ key, readRawDecoded keyManager (t.commit keyManager snapshots rows).db.store key =
        (t.tx.writeSet.lookup key).getD (readRawDecoded keyManager rows key) := by
  have hen : ∀ entry ∈ t.tx.stagedEntries, t.tx.writeSet.lookup entry.1 = some entry.2 := by
    intro entry he
    obtain ⟨raw,hr,rfl⟩ := mem_map.mp he
    exact mem_lookup_iff.mpr hr
  have hb : (commitContext keyManager).buildBatch snapshots (.healthy rows) t.tx.snapshotTs t.tx =
      .ok (t.tx.stagedEntries.map (batchOp keyManager)) := by
    have hw : stageAll ((commitContext keyManager).stageWrite snapshots (.healthy rows) t.tx.snapshotTs) t.tx.stagedEntries =
        .ok (t.tx.stagedEntries.map (batchOp keyManager)) := by
      refine stageAll_single fun entry he => ?_
      obtain ⟨userKey,hkey⟩ := h.keys entry.1 (lookup_isSome.mp (by rw [hen entry he]; rfl))
      exact stageWrite_encode hs snapshots _ _ hkey
    have hf : t.tx.freshInserts = [] := by rw [freshInserts,h.insertLog]; rfl
    simp only [CommitContext.buildBatch,hw,hf,h.counters,stageAll,bind,Except.bind,nil_append]
    rw [show (∅ : Map String RowId).entries.map (fun entry => (entry.1,entry.2)) = [] from rfl,stageAll]
    simp
  have hc : t.commit keyManager snapshots rows = t.tx.applyBatch (commitContext keyManager) (.healthy rows)
      (t.tx.stagedEntries.map (batchOp keyManager)) false t.tx.snapshotTs none (dropLocks t.tx.acquiredLocks (.new 0)) := by
    have hv : t.tx.validate (commitContext keyManager) none t.tx.snapshotTs = (none,none) := rfl
    have hp : t.tx.walPlan (commitContext keyManager) = none := rfl
    have htr : t.tx.hasTrackedWrites none = false := rfl
    simp only [BranchTransaction.commit,commitWithTimestamp,h.active,ne_eq,not_true_eq_false,if_false,
      hv,hb,hp,htr]
  refine ⟨by rw [hc]; rfl,fun key => ?_⟩
  have hst : (t.commit keyManager snapshots rows).db.store = rows.write (t.tx.stagedEntries.map (batchOp keyManager)) := by
    rw [hc]
    rfl
  rw [readRawDecoded,hst]
  cases hlk : t.tx.writeSet.lookup key with
  | none =>
    rw [Map.lookup_write_of_not_mem]
    · rfl
    · intro op hop heq
      obtain ⟨entry,he,rfl⟩ := mem_map.mp hop
      rw [batchOp_key] at heq
      rw [← heq,hen entry he] at hlk
      cases hlk
  | some staged =>
    have hm : (key,staged) ∈ t.tx.stagedEntries :=
      mem_map.mpr ⟨⟨key,staged⟩,mem_lookup_iff.mp hlk,rfl⟩
    rw [Map.lookup_write_of_agree rows (v := (batchOp keyManager (key,staged)).value),if_pos]
    · exact batchOp_value hs (key,staged)
    · exact ⟨_,mem_map_of_mem hm,batchOp_key keyManager (key,staged)⟩
    · intro op hop heq
      obtain ⟨entry,he,rfl⟩ := mem_map.mp hop
      rw [batchOp_key] at heq
      have hsame := hen entry he
      rw [heq,hlk] at hsame
      rw [← heq,Option.some.inj hsame]

end BranchTransaction
end HeliosNano.Storage.Branch
