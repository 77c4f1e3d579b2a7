import HeliosNano.Storage.OwnWritesAgree

namespace HeliosNano.Storage.OwnWrites
open Foundation List Option Transaction

/-- A transaction with the snapshots of its staged writes that have been taken. -/
structure Session where
  txn : Transaction
  taken : List TransactionSavepointSnapshot

inductive StagingCall
  | put (locks : Option LockManager) (key : Key) (value : Bytes) (timedOut : Bool)
  | putInsertFast (locks : Option LockManager) (key : Key) (value : Bytes) (timedOut : Bool)
  | delete (key : Key)
  | stageRowCounter (tableName : String) (rowId : RowId)
  | discardStagedForTable (tableName : String)
  | savepointSnapshot
  | rollbackToSavepoint (snapshot : TransactionSavepointSnapshot)

def step (s : Session) : StagingCall → Session
  | .put locks key value timedOut => { s with txn := (s.txn.stagePut locks key value timedOut).1 }
  | .putInsertFast locks key value timedOut => { s with txn := (s.txn.putInsertFast locks key value timedOut).1 }
  | .delete key => { s with txn := (s.txn.delete key).1 }
  | .stageRowCounter tableName rowId => { s with txn := (s.txn.stageRowCounter tableName rowId).1 }
  | .discardStagedForTable tableName => { s with txn := s.txn.discardStagedForTable tableName }
  | .savepointSnapshot => { s with taken := s.txn.savepointSnapshot::s.taken }
  | .rollbackToSavepoint snapshot => { s with txn := s.txn.rollbackToSavepoint snapshot }

section
variable {Value : Type} (codec : RowCodec Value) (store : Store)

/-- Under `data:` a call stages the tuple of a row, and a fast insert has a row id that is neither stored nor logged. A transaction
goes back to its own snapshots. -/
def Admitted (s : Session) : StagingCall → Prop
  | .put _ key value _ => FitsRow codec key (some value)
  | .putInsertFast _ key value _ =>
    FitsRow codec key (some value) ∧ (dataPrefix <+: key → store.lookup key = none ∧ ∀ entry ∈ s.txn.insertLog, entry.1 ≠ key)
  | .delete key => FitsRow codec key none
  | .rollbackToSavepoint snapshot => snapshot ∈ s.taken
  | _ => True

def RowSnapshot (snapshot : TransactionSavepointSnapshot) : Prop :=
  ∃ saved : Map Key (Option Bytes), snapshot.writeSet = (saved.entries.map fun entry => (entry.1,entry.2)) ∧
    ∀ key staged, saved.lookup key = some staged → FitsRow codec key staged

structure Sound (s : Session) : Prop where
  active : s.txn.state = .active
  rows : StagesRows codec store s.txn
  saved : ∀ snapshot ∈ s.taken, RowSnapshot codec snapshot

variable {codec store} {t t' : Transaction} {s : Session}
variable {value : Bytes} {key : Key}

variable (h : StagesRows codec store t)
include h

theorem StagesRows.mayPut (hf : FitsRow codec key (some value)) (hp : t.MayPut t' key value) : StagesRows codec store t' where
  writes key' staged hlookup := by
    rcases hp.writeSet with heq | heq
    · rw [heq,Map.lookup_insert_ite] at hlookup
      split at hlookup
      next hkey =>
        cases hlookup
        exact hkey ▸ hf
      · exact h.writes key' staged hlookup
    · rw [heq] at hlookup
      exact h.writes key' staged hlookup
  inserts := by
    rw [hp.insertLog]
    exact h.inserts
  fresh := by
    rw [hp.insertLog]
    exact h.fresh
  distinct := by
    rw [hp.insertLog]
    exact h.distinct

theorem StagesRows.log (hft : FitsRow codec key (some value))
    (hf : dataPrefix <+: key → store.lookup key = none ∧ ∀ entry ∈ t.insertLog, entry.1 ≠ key) :
    StagesRows codec store { t with insertLog := t.insertLog ++ [(key,value)] } where
  writes := h.writes
  inserts := forall_mem_append.mpr ⟨h.inserts,forall_mem_singleton.mpr hft⟩
  fresh := forall_mem_append.mpr ⟨h.fresh,forall_mem_singleton.mpr fun hkey => (hf hkey).1⟩
  distinct := by
    refine pairwise_append.mpr ⟨h.distinct,pairwise_singleton _ _,fun entry hm other ho hkey heq => ?_⟩
    obtain rfl := mem_singleton.mp ho
    rw [heq] at hkey
    exact (hf hkey).2 entry hm heq

theorem StagesRows.restrict (hl : t'.insertLog.Sublist t.insertLog)
    (hw : ∀ key staged, t'.writeSet.lookup key = some staged → FitsRow codec key staged) : StagesRows codec store t' where
  writes := hw
  inserts entry hmem := h.inserts entry (hl.subset hmem)
  fresh entry hmem := h.fresh entry (hl.subset hmem)
  distinct := h.distinct.sublist hl

omit h in
theorem state_put (t : Transaction) (locks : LockManager) (key : Key) (value : Bytes) (timedOut : Bool) :
    (t.put locks key value timedOut).1.state = t.state := by
  rw [put.eq_def]
  split
  · rfl
  rw [withLock]
  split
  · rfl
  · rfl
  · rfl
  · rfl

omit h in
theorem state_stagePut (t : Transaction) (locks : Option LockManager) (key : Key) (value : Bytes) (timedOut : Bool) :
    (t.stagePut locks key value timedOut).1.state = t.state := by
  cases locks with
  | some locks => exact state_put t locks key value timedOut
  | none =>
    rw [stagePut.eq_def]
    dsimp only
    split
    · rfl
    · rfl

omit h in
theorem state_putInsertFast (t : Transaction) (locks : Option LockManager) (key : Key) (value : Bytes) (timedOut : Bool) :
    (t.putInsertFast locks key value timedOut).1.state = t.state := by
  rw [putInsertFast.eq_def]
  split
  · rfl
  · cases locks with
    | some locks => exact state_stagePut t (some locks) key value timedOut
    | none => rfl

theorem rowSnapshot_savepointSnapshot : RowSnapshot codec t.savepointSnapshot := ⟨t.writeSet,rfl,h.writes⟩

theorem StagesRows.rollbackToSavepoint {snapshot : TransactionSavepointSnapshot}
    (hsn : RowSnapshot codec snapshot) : StagesRows codec store (t.rollbackToSavepoint snapshot) := by
  obtain ⟨saved,hs,hr⟩ := hsn
  refine h.restrict (take_sublist _ _) fun key staged hlk => hr key staged ?_
  have heq : snapshot = ⟨saved.entries.map fun entry => (entry.1,entry.2),snapshot.insertLogLen⟩ := by rw [← hs]
  rw [heq,lookup_rollbackToSavepoint] at hlk
  exact hlk

omit h

theorem Sound.step (h : Sound codec store s) (call : StagingCall) (ha : Admitted codec store s call) :
    Sound codec store (step s call) := by
  cases call with
  | put locks key value timedOut =>
    exact ⟨(state_stagePut _ _ _ _ _).trans h.active,h.rows.mayPut ha (s.txn.stagePut_mayPut locks key value timedOut),h.saved⟩
  | putInsertFast locks key value timedOut =>
    refine ⟨(state_putInsertFast _ _ _ _ _).trans h.active,?_,h.saved⟩
    obtain heq | hput := s.txn.putInsertFast_staged locks key value timedOut
    · rw [OwnWrites.step,heq]
      exact h.rows.log ha.1 ha.2
    · exact h.rows.mayPut ha.1 hput
  | delete key =>
    rw [OwnWrites.step,delete,if_neg (not_not.mpr h.active)]
    refine ⟨h.active,h.rows.restrict (List.Sublist.refl _) fun key' staged hlk => ?_,h.saved⟩
    rw [Map.lookup_insert_ite] at hlk
    split at hlk
    next hkey =>
      cases hlk
      exact hkey ▸ ha
    · exact h.rows.writes key' staged hlk
  | stageRowCounter tableName rowId =>
    rw [OwnWrites.step,stageRowCounter,if_neg (not_not.mpr h.active)]
    exact ⟨h.active,h.rows.restrict (List.Sublist.refl _) h.rows.writes,h.saved⟩
  | discardStagedForTable tableName =>
    refine ⟨h.active,h.rows.restrict filter_sublist fun key staged hlk => ?_,h.saved⟩
    rw [OwnWrites.step,discardStagedForTable,Map.lookup_retain] at hlk
    exact h.rows.writes key staged (filter_eq_some_iff.mp hlk).1
  | savepointSnapshot =>
    exact ⟨h.active,h.rows,forall_mem_cons.mpr ⟨rowSnapshot_savepointSnapshot h.rows,h.saved⟩⟩
  | rollbackToSavepoint snapshot =>
    exact ⟨h.active,h.rows.rollbackToSavepoint (h.saved snapshot ha),h.saved⟩

theorem sound_start (ha : t.state = .active) (hw : t.writeSet = ∅) (hl : t.insertLog = []) : Sound codec store ⟨t,[]⟩ := by
  refine ⟨ha,⟨fun key staged hlk => ?_,?_,?_,?_⟩,fun _ hno => absurd hno not_mem_nil⟩
  · rw [hw] at hlk
    cases hlk
  · rw [hl]
    exact fun _ hno => absurd hno not_mem_nil
  · rw [hl]
    exact fun _ hno => absurd hno not_mem_nil
  · rw [hl]
    exact .nil

end

section
variable {Value : Type} {codec : RowCodec Value} {store : Store} {t : Transaction} {key : Key}
  {readAtVersion : Key → Timestamp → Except Error (Option Bytes)}

theorem StagesRows.lookup_staged (h : StagesRows codec store t) (readAtVersion : Key → Timestamp → Except Error (Option Bytes)) (hkey : dataPrefix <+: key) {staged : Option Bytes}
    (hs : t.staged key = some staged) : t.lookup readAtVersion key = .ok staged := by
  rw [Transaction.lookup.eq_def]
  cases hlk : t.writeSet.lookup key with
  | some found =>
    rw [staged_write hlk] at hs
    cases hs
    rfl
  | none =>
    obtain ⟨data,rfl,hm⟩ := insert_of_staged hlk hs
    obtain ⟨found,hf⟩ : ∃ found, t.insertLog.reverse.find? (fun entry => entry.1 == key) = some found := by
      rw [← isSome_iff_exists,find?_isSome]
      exact ⟨_,mem_reverse.mpr hm,beq_self_eq_true key⟩
    have hsame : found.1 = key := by simpa using find?_some hf
    have heq : (key,data) = found := h.entry_unique hm (mem_reverse.mp (mem_of_find?_eq_some hf)) hkey hsame.symm
    dsimp only
    rw [hf,← heq]

variable {answer : Option Bytes} {timedOut : Bool}

theorem withLock_ok {locks : LockManager} {lockType : LockType}
    (h : (t.withLock locks key lockType timedOut fun t => (t,t.lookup readAtVersion key)).2.2 = .ok answer) :
    t.lookup readAtVersion key = .ok answer := by
  rw [withLock] at h
  split at h
  · exact h
  · cases h
  · cases h
  · cases h

theorem stageGet_ok {locks : Option LockManager}
    (h : (t.stageGet readAtVersion locks key timedOut).2.2 = .ok answer) : t.lookup readAtVersion key = .ok answer := by
  cases locks with
  | none =>
    rw [Transaction.stageGet.eq_def] at h
    dsimp only at h
    split at h
    · cases h
    · exact h
  | some locks =>
    change (t.get readAtVersion locks key timedOut).2.2 = .ok answer at h
    rw [Transaction.get.eq_def] at h
    split at h
    · cases h
    split at h
    · exact h
    · exact withLock_ok h
    · exact withLock_ok h

end

def Holds {Value : Type} (codec : RowCodec Value) (km : Option KeyManager) (width : Option Nat) (store : Store) (table : TableName) (row : RowId)
    (tuple : Tuple Value) : Prop :=
  rowAt codec width row (committed km store (dataKey table.bytes row)) = some tuple

section
variable {Value : Type} {codec : RowCodec Value} {km km' : Option KeyManager} {width : Option Nat} {table : TableName} {store store' : Store}
  {t : Transaction} {merged : List (Tuple Value)}

def Owns {Value : Type} (codec : RowCodec Value) (km : Option KeyManager) (width : Option Nat) (t : Transaction) (store : Store) (table : TableName)
    (row : RowId) (tuple : Tuple Value) : Prop :=
  rowAt codec width row (own km t store (dataKey table.bytes row)) = some tuple

variable (h : Lists (·.rowId) merged (Owns codec km width t store table))
include h

theorem lists_of_own (ho : ∀ row, committed km' store' (dataKey table.bytes row) = own km t store (dataKey table.bytes row)) :
    Lists (·.rowId) merged (Holds codec km' width store' table) := by
  refine h.congr fun row tuple => ?_
  rw [Owns,Holds,ho]

theorem mem_merged_iff {row : RowId} {staged : Option Bytes}
    (hr : row ≤ u64Max) (hst : t.staged (dataKey table.bytes row) = some staged) {tuple : Tuple Value} (hid : tuple.rowId = some row) :
    tuple ∈ merged ↔ staged.bind (readRow codec width row) = some tuple := by
  have how : ∀ other, Owns codec km width t store table other tuple → Owns codec km width t store table row tuple := by
    intro other ho
    obtain rfl := Option.some.inj ((rowId_of_rowAt ho).symm.trans hid)
    exact ho
  have hrd : Owns codec km width t store table row tuple ↔ staged.bind (readRow codec width row) = some tuple := by
    rw [Owns,own,hst,getD_some,rowAt_eq_some]
    exact and_iff_right hr
  rw [h.listed,← hrd]
  exact ⟨fun hs => hs.elim how,fun hr => ⟨row,hr⟩⟩

end

/-- After any run of staging calls, the merge of a table's committed rows with what is staged has the rows that a commit of the transaction
leaves in the store, that the replay of the operations it logs leaves in a copy, and that point reads of staged keys answer. -/
theorem merge_matches_commit {Value : Type} {codec : RowCodec Value} {km : Option KeyManager} (hseal : SoundSeal km) {db : Db} {t : Transaction}
    (hactive : t.state = .active) (hwrites : t.writeSet = ∅) (hlog : t.insertLog = []) {calls : List StagingCall}
    (hcalls : Guarded step (Admitted codec db.store) ⟨t,[]⟩ calls) (table : TableName) (width : Option Nat) {tuples : List (Tuple Value)}
    (htuples : Lists (·.rowId) tuples (Holds codec km width db.store table)) :
    let txn := (run step ⟨t,[]⟩ calls).txn
    ∃ merged, mergeWithWriteSetInner codec txn table.bytes width tuples = .ok merged ∧
      (∀ ctx m conflict locks ts, ctx.keyManager = km → Applies ctx m db conflict locks txn ts →
        Lists (·.rowId) merged (Holds codec km width (txn.commitWithTimestamp ctx m db conflict locks ts).db.store table)) ∧
      (∀ rc copy copy', SoundSeal rc.keyManager → rc.tableExists table.bytes = true →
        (∀ row, committed rc.keyManager copy.store (dataKey table.bytes row) = committed km db.store (dataKey table.bytes row)) →
        replayWal rc copy txn.collectLogicalWalOps = .ok copy' →
        Lists (·.rowId) merged (Holds codec rc.keyManager width copy'.store table)) ∧
      ∀ row staged, row ≤ u64Max → txn.staged (dataKey table.bytes row) = some staged → ∀ readAtVersion timedOut,
        (txn.stageGet readAtVersion none (dataKey table.bytes row) timedOut).2.2 = .ok staged ∧
        (∀ locks answer, (txn.stageGet readAtVersion locks (dataKey table.bytes row) timedOut).2.2 = .ok answer → answer = staged) ∧
        ∀ tuple, tuple.rowId = some row → (tuple ∈ merged ↔ staged.bind (readRow codec width row) = some tuple) := by
  intro txn
  have hsound : Sound codec db.store (run step ⟨t,[]⟩ calls) :=
    guarded_run_invariant step (Sound codec db.store) (fun _ call h hadmitted => h.step call hadmitted) (sound_start hactive hwrites hlog) hcalls
  have hrows : StagesRows codec db.store txn := hsound.rows
  obtain ⟨merged,hmerged,hlists⟩ := hrows.merge_lists table width htuples
  refine ⟨merged,hmerged,?_,?_,?_⟩
  · rintro ctx m conflict locks ts rfl happlies
    exact lists_of_own hlists fun row => hrows.committed_commit hseal happlies (dataPrefix_dataKey _ _)
  · intro rc copy copy' hs hexists hcopy hreplay
    exact lists_of_own hlists fun row => hrows.committed_replayWal hs hexists (hcopy row) hreplay
  · intro row staged hrow hstaged readAtVersion timedOut
    have hlookup := hrows.lookup_staged readAtVersion (dataPrefix_dataKey _ _) hstaged
    refine ⟨?_,fun locks answer hanswer => ?_,fun tuple hid => mem_merged_iff hlists hrow hstaged hid⟩
    · rw [Transaction.stageGet,if_neg (not_not.mpr hsound.active)]
      exact hlookup
    · have hsame := (stageGet_ok hanswer).symm.trans hlookup
      exact CallResult.ok.inj hsame

/-! A table `t` with one nullable flag. -/

theorem isUtf8_flags : IsUtf8 [116] := isUtf8_of_ascii (by decide +kernel)

def flagTable : TableName := ⟨[116],isUtf8_flags⟩

def flagKey (row : RowId) : Key := dataKey flagTable.bytes row

/-- A tuple with one boolean and no row id: the number of values, the variant, the flag, and no row id. -/
def flagBytes (flag : Bool) : Bytes := [1,0,0,0,0,0,0,0,1,0,0,0,if flag then 1 else 0,0]

def flagCodec : RowCodec (Option Bool) where
  deserialize bytes :=
    if bytes = flagBytes true then .ok ⟨[some true],none⟩
    else if bytes = flagBytes false then .ok ⟨[some false],none⟩
    else .error "io error: unexpected end of file"
  null := none

def flagStore : Store := ((∅ : Store).insert (flagKey 1) (flagBytes false)).insert (flagKey 2) (flagBytes false)

/-- Row 1 is updated, row 2 deleted and row 3 is new. A fourth row is taken back. -/
def flagCalls : List StagingCall :=
  [.put none (flagKey 1) (flagBytes true) false,.delete (flagKey 2),.putInsertFast none (flagKey 3) (flagBytes true) false,
    .savepointSnapshot,.putInsertFast none (flagKey 4) (flagBytes false) false,
    .rollbackToSavepoint ⟨[(flagKey 2,none),(flagKey 1,some (flagBytes true))],1⟩]

def flagContext : CommitContext where
  versioningEnabled := false
  conflictValidation := false
  keyManager := none
  hasRowCache := false
  wal := none
  statementWal := none
  serializeCounter row := .ok (beBytes 8 row).reverse
  groupFsyncError := none

theorem fitsRow_flag {row : RowId} (hr : row ≤ u64Max) (flag : Bool) : FitsRow flagCodec (flagKey row) (some (flagBytes flag)) where
  isRow _ := ⟨flagTable,row,hr,rfl⟩
  decodes _ value hvalue := by
    cases hvalue
    cases flag with
    | true | false => exact ⟨_,rfl⟩

theorem flagCalls_admitted : Guarded step (Admitted flagCodec flagStore) ⟨.new 1 5,[]⟩ flagCalls := by
  refine ⟨fitsRow_flag (by decide) true,⟨fun _ => ⟨flagTable,2,by decide,rfl⟩,nofun⟩,
    ⟨fitsRow_flag (by decide) true,fun _ => ⟨by decide +kernel,by decide +kernel⟩⟩,trivial,
    ⟨fitsRow_flag (by decide) false,fun _ => ⟨by decide +kernel,by decide +kernel⟩⟩,?_,trivial⟩
  exact mem_singleton.mpr (by decide +kernel)

theorem flagStore_lists : Lists (·.rowId) [⟨[some false],some 1⟩,⟨[some false],some 2⟩] (Holds flagCodec none none flagStore flagTable) where
  distinct := by decide
  listed tuple := by
    have hlk : ∀ row, flagStore.lookup (dataKey flagTable.bytes row) = if row = 2 ∨ row = 1 then some (flagBytes false) else none := by
      intro row
      have hkey : ∀ other, dataKey flagTable.bytes row = flagKey other ↔ row = other :=
        fun other => ⟨fun heq => (dataKey_inj heq).2,fun heq => by rw [heq]; rfl⟩
      rw [flagStore,Map.lookup_insert_ite,Map.lookup_insert_ite,AList.lookup_empty,ite_or]
      simp only [hkey]
    have hrd : ∀ row, readRow flagCodec none row (flagBytes false) = some ⟨[some false],some row⟩ := fun row => rfl
    simp only [Holds,rowAt_eq_some,committed,hlk]
    constructor
    · intro hm
      rcases mem_cons.mp hm with rfl | hm
      · exact ⟨1,by decide,rfl⟩
      · obtain rfl := mem_singleton.mp hm
        exact ⟨2,by decide,rfl⟩
    · rintro ⟨row,-,hr⟩
      split at hr
      next hc =>
        obtain rfl | rfl := hc
        · cases hr
          exact mem_cons_of_mem _ (mem_singleton_self _)
        · cases hr
          exact mem_cons_self
      · cases hr

/-- The commit leaves rows 1 and 3, and they are what the merge has. -/
theorem merge_matches_commit_flags :
    let txn := (run step ⟨.new 1 5,[]⟩ flagCalls).txn
    ∃ merged, mergeWithWriteSet flagCodec txn flagTable.bytes [⟨[some false],some 1⟩,⟨[some false],some 2⟩] = .ok merged ∧
      Lists (·.rowId) merged
        (Holds flagCodec none none (txn.commitWithTimestamp flagContext (.new none) (.healthy flagStore) none (.new 1000) 6).db.store flagTable) := by
  intro txn
  have hok : (txn.commitWithTimestamp { flagContext with groupFsyncError := none } (.new none) (.healthy flagStore) none (.new 1000) 6).result.isOk =
      true := by decide +kernel
  have happlies : Applies flagContext (.new none) (.healthy flagStore) none (.new 1000) txn 6 := by
    rw [Applies]
    cases hresult : (txn.commitWithTimestamp { flagContext with groupFsyncError := none } (.new none) (.healthy flagStore) none (.new 1000) 6).result with
    | ok value => rfl
    | error error =>
      rw [hresult] at hok
      cases hok
  have hseal : SoundSeal none := by rintro _ ⟨⟩
  obtain ⟨merged,hmerged,hcommit,-⟩ := @merge_matches_commit _ flagCodec none hseal (.healthy flagStore) (.new 1 5) rfl rfl rfl
    flagCalls flagCalls_admitted flagTable none _ flagStore_lists
  exact ⟨merged,hmerged,hcommit flagContext (.new none) none (.new 1000) 6 rfl happlies⟩

end HeliosNano.Storage.OwnWrites
