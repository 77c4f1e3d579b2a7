import HeliosNano.Storage.Commit

namespace HeliosNano.Storage.CommitEnds
open Foundation Transaction CommitContext

/-- Everything before a failed materialization went well: the commit leaves the loop
over the write set by `?`. -/
def Escapes (ctx : CommitContext) (m : SnapshotManager) (db : Db) (commitTs : Timestamp) (t : Transaction) : Prop :=
  (∀ entry ∈ t.freshInserts, ∃ batch, ctx.putRow m commitTs entry.1 entry.2 = .ok batch) ∧
  ∃ before entry after, t.stagedEntries = before ++ entry::after ∧
    (∀ earlier ∈ before, (∃ batch, ctx.preImages m db commitTs earlier.1 = .ok batch) ∧
      ∀ val, earlier.2 = some val → ∃ batch, ctx.putRow m commitTs earlier.1 val = .ok batch) ∧
    ∃ error, ctx.preImages m db commitTs entry.1 = .error error

section
variable (ctx : CommitContext) (m : SnapshotManager) (db : Db) (commitTs : Timestamp)

theorem stageInsert_ok_iff (entry : Key × Bytes) : (∃ batch, ctx.stageInsert m commitTs entry = .ok batch) ↔
      ∃ batch, ctx.putRow m commitTs entry.1 entry.2 = .ok batch := by
  unfold stageInsert
  cases ctx.putRow m commitTs entry.1 entry.2 <;> simp [Except.mapError]

theorem stageInsert_not_escaped (entry : Key × Bytes) (error : Error) :
    ctx.stageInsert m commitTs entry ≠ .error (.escaped error) := by
  unfold stageInsert
  cases ctx.putRow m commitTs entry.1 entry.2 <;> simp [Except.mapError]

theorem stageWrite_ok_iff (entry : Key × Option Bytes) : (∃ batch, ctx.stageWrite m db commitTs entry = .ok batch) ↔
      (∃ batch, ctx.preImages m db commitTs entry.1 = .ok batch) ∧
        ∀ val, entry.2 = some val → ∃ batch, ctx.putRow m commitTs entry.1 val = .ok batch := by
  obtain ⟨key,staged⟩ := entry
  unfold stageWrite
  cases hpr : ctx.preImages m db commitTs key with
  | error e => simp [Except.mapError,bind,Except.bind]
  | ok before =>
    cases staged with
    | none => simp [Except.mapError,bind,Except.bind]
    | some val =>
      cases hp : ctx.putRow m commitTs key val <;> simp [Except.mapError,bind,Except.bind,hp]

theorem stageWrite_escaped_iff (entry : Key × Option Bytes) (error : Error) :
    ctx.stageWrite m db commitTs entry = .error (.escaped error) ↔ ctx.preImages m db commitTs entry.1 = .error error := by
  obtain ⟨key,staged⟩ := entry
  unfold stageWrite
  cases hpr : ctx.preImages m db commitTs key with
  | error e => simp [Except.mapError,bind,Except.bind]
  | ok before =>
    cases staged with
    | none => simp [Except.mapError,bind,Except.bind]
    | some val =>
      cases hp : ctx.putRow m commitTs key val <;> simp [Except.mapError,bind,Except.bind,hp]

theorem stageCounter_not_escaped (entry : String × RowId) (error : Error) : ctx.stageCounter entry ≠ .error (.escaped error) := by
  unfold stageCounter
  split
  · simp
  · split <;> simp

theorem buildBatch_escaped_iff (t : Transaction) :
    (∃ error, ctx.buildBatch m db commitTs t = .error (.escaped error)) ↔ Escapes ctx m db commitTs t := by
  have hin : (∃ batch, stageAll (ctx.stageInsert m commitTs) t.freshInserts = .ok batch) ↔
      ∀ entry ∈ t.freshInserts, ∃ batch, ctx.putRow m commitTs entry.1 entry.2 = .ok batch := by
    rw [stageAll_ok_iff]
    exact forall₂_congr fun entry _ => stageInsert_ok_iff ctx m commitTs entry
  have hwr : (∃ error, stageAll (ctx.stageWrite m db commitTs) t.stagedEntries = .error (.escaped error)) ↔
      ∃ before entry after, t.stagedEntries = before ++ entry::after ∧
        (∀ earlier ∈ before, (∃ batch, ctx.preImages m db commitTs earlier.1 = .ok batch) ∧
          ∀ val, earlier.2 = some val → ∃ batch, ctx.putRow m commitTs earlier.1 val = .ok batch) ∧
        ∃ error, ctx.preImages m db commitTs entry.1 = .error error := by
    constructor
    · rintro ⟨error,h⟩
      obtain ⟨before,entry,after,hs,hb,hen⟩ := (stageAll_error_iff _ _).mp h
      exact ⟨before,entry,after,hs,
        fun earlier he => (stageWrite_ok_iff ctx m db commitTs earlier).mp (hb earlier he),
        error,(stageWrite_escaped_iff ctx m db commitTs entry error).mp hen⟩
    · rintro ⟨before,entry,after,hs,hb,error,hen⟩
      exact ⟨error,(stageAll_error_iff _ _).mpr ⟨before,entry,after,hs,
        fun earlier he => (stageWrite_ok_iff ctx m db commitTs earlier).mpr (hb earlier he),
        (stageWrite_escaped_iff ctx m db commitTs entry error).mpr hen⟩⟩
  rw [Escapes,← hin,← hwr]
  unfold buildBatch
  cases hi : stageAll (ctx.stageInsert m commitTs) t.freshInserts with
  | error exit =>
    simp only [bind,Except.bind,reduceCtorEq,exists_false,false_and,iff_false,Except.error.injEq]
    rintro ⟨error,rfl⟩
    obtain ⟨_,entry,_,_,_,hen⟩ := (stageAll_error_iff _ _).mp hi
    exact stageInsert_not_escaped ctx m commitTs entry error hen
  | ok inserts =>
    cases hw : stageAll (ctx.stageWrite m db commitTs) t.stagedEntries with
    | error exit => simp [bind,Except.bind]
    | ok writes =>
      simp only [bind,Except.bind,reduceCtorEq,exists_false,and_false,iff_false]
      rintro ⟨error,h⟩
      split at h
      next exit hc =>
        cases h
        obtain ⟨_,entry,_,_,_,hen⟩ := (stageAll_error_iff _ _).mp hc
        exact stageCounter_not_escaped ctx entry error hen
      · cases h

end

def ledgerAfter (out : CommitOutcome) : Option InflightLedger := out.conflict.map (·.ledger)

section
variable (ctx : CommitContext) (m : SnapshotManager) (db : Db) (registry : WriteConflictRegistry)
  (ledger : InflightLedger) (locks : LockManager) (t : Transaction) (commitTs : Timestamp)

theorem applyBatch_conflict (batch : WriteBatch) (inflight : Bool) (conflict : Option ConflictState) :
    (t.applyBatch ctx db batch inflight commitTs conflict locks).conflict =
      endInflight inflight commitTs conflict := by
  simp only [applyBatch]
  cases db.write batch with
  | error message => rfl
  | ok db' => cases ctx.groupFsyncError <;> rfl

variable {t} in
theorem validate_cases (hne : t.writeSet.keys ≠ []) :
    ∃ registry', (registry.Conflicts t.writeSet ctx.conflictValidation t.snapshotTs ∧
        ∃ key, t.validate ctx (some ⟨registry,ledger⟩) commitTs = (some ⟨registry',ledger⟩,some key)) ∨
      (¬registry.Conflicts t.writeSet ctx.conflictValidation t.snapshotTs ∧
        t.validate ctx (some ⟨registry,ledger⟩) commitTs = (some ⟨registry',ledger⟩,none)) := by
  refine ⟨(registry.validateAndRecord t.writeSet ctx.conflictValidation t.snapshotTs commitTs).1,?_⟩
  cases hv : registry.validateAndRecord t.writeSet ctx.conflictValidation t.snapshotTs commitTs with
  | mk registry' result =>
    by_cases hc : registry.Conflicts t.writeSet ctx.conflictValidation t.snapshotTs
    · obtain ⟨⟨key,hkey⟩,-,-⟩ := WriteConflictRegistry.validateAndRecord_of_conflicts commitTs hc
      rw [hv] at hkey
      dsimp only at hkey
      subst hkey
      exact .inl ⟨hc,key,by simp [validate,hv]⟩
    · obtain ⟨hok,-,-⟩ := WriteConflictRegistry.validateAndRecord_of_not_conflicts commitTs hc hne
      rw [hv] at hok
      dsimp only at hok
      subst hok
      exact .inr ⟨hc,by simp [validate,hv]⟩

def Ends (ctx : CommitContext) (m : SnapshotManager) (db : Db) (registry : WriteConflictRegistry) (t : Transaction)
    (commitTs : Timestamp) : Prop :=
  t.state = .active ∧ (registry.Conflicts t.writeSet ctx.conflictValidation t.snapshotTs ∨
    ¬Escapes ctx m db commitTs t)

variable {t} in
theorem ledger_after (hne : t.writeSet.keys ≠ []) : (Ends ctx m db registry t commitTs → ledgerAfter
      (t.commitWithTimestamp ctx m db (some ⟨registry,ledger⟩) locks commitTs) = some (ledger.endCommit commitTs)) ∧
    (¬Ends ctx m db registry t commitTs → ledgerAfter
      (t.commitWithTimestamp ctx m db (some ⟨registry,ledger⟩) locks commitTs) = some ledger) := by
  have hi : t.hasTrackedWrites (some ⟨registry,ledger⟩) = true := by
    simp [hasTrackedWrites,hne]
  by_cases ha : t.state = .active
  · obtain ⟨registry',⟨hc,key,hv⟩ | ⟨hc,hv⟩⟩ :=
      validate_cases ctx registry ledger commitTs hne
    · have hen : Ends ctx m db registry t commitTs := ⟨ha,.inl hc⟩
      refine ⟨fun _ => ?_,fun hno => absurd hen hno⟩
      simp only [commitWithTimestamp,ha,ne_eq,not_true,if_false,hv,hi]
      rfl
    · have hes := buildBatch_escaped_iff ctx m db commitTs t
      have hen : Ends ctx m db registry t commitTs ↔ ¬Escapes ctx m db commitTs t := by
        simp [Ends,ha,hc]
      rw [hen,not_not]
      simp only [commitWithTimestamp,ha,ne_eq,not_true,if_false,hv,hi]
      cases hb : ctx.buildBatch m db commitTs t with
      | error exit =>
        cases exit with
        | escaped error =>
          exact ⟨fun hno => absurd (hes.mp ⟨error,hb⟩) hno,fun _ => rfl⟩
        | aborted error =>
          refine ⟨fun _ => rfl,fun he => ?_⟩
          obtain ⟨error',he'⟩ := hes.mpr he
          rw [hb] at he'
          cases he'
      | ok batch =>
        have hno : ¬Escapes ctx m db commitTs t := by
          intro he
          obtain ⟨error,he'⟩ := hes.mpr he
          rw [hb] at he'
          cases he'
        refine ⟨fun _ => ?_,fun he => absurd he hno⟩
        dsimp only
        split
        · rw [ledgerAfter,applyBatch_conflict]
          rfl
        split
        · rfl
        · rw [ledgerAfter,applyBatch_conflict]
          rfl
  · refine ⟨fun he => absurd he.1 ha,fun _ => ?_⟩
    simp only [commitWithTimestamp,ne_eq,ha,not_false_eq_true,if_true]
    rfl

end

/-- The announced commit is ended before the call returns: its entry leaves the ledger
as `end_commit` does it, and a barrier at or above its timestamp waits for other
commits only. -/
def EndsCommit (out : CommitOutcome) (ledger : InflightLedger) (commitTs : Timestamp) : Prop :=
  ∃ after, ledgerAfter out = some after ∧ after = ledger.endCommit commitTs ∧
    ∀ s, commitTs ≤ s → after.snapshotBarrier s = false → ∃ ts ≤ s, ts ≠ commitTs ∧ after.Pending ts

section
variable {ctx : CommitContext} {m : SnapshotManager} {db : Db} {registry : WriteConflictRegistry}
  {ledger : InflightLedger} {locks : LockManager} {t : Transaction} {commitTs : Timestamp}

theorem endsCommit_of_ends (hwf : ledger.Wf) (hne : t.writeSet.keys ≠ []) (h : Ends ctx m db registry t commitTs) :
    EndsCommit (t.commitWithTimestamp ctx m db (some ⟨registry,ledger⟩) locks commitTs) ledger commitTs := by
  obtain ⟨hwf',hpn⟩ := hwf.endCommit commitTs
  refine ⟨ledger.endCommit commitTs,(ledger_after ctx m db registry ledger locks commitTs hne).1 h,rfl,
    fun s _ hb => ?_⟩
  obtain ⟨ts,hle,hp⟩ := (hwf'.snapshotBarrier_iff s).mp hb
  exact ⟨ts,hle,((hpn ts).mp hp).2,hp⟩

theorem not_endsCommit (hwf : ledger.Wf) (han : ledger.Pending commitTs) (hne : t.writeSet.keys ≠ [])
    (h : ¬Ends ctx m db registry t commitTs) :
    ¬EndsCommit (t.commitWithTimestamp ctx m db (some ⟨registry,ledger⟩) locks commitTs) ledger commitTs := by
  rintro ⟨after,ha,rfl,-⟩
  rw [(ledger_after ctx m db registry ledger locks commitTs hne).2 h,Option.some.injEq] at ha
  rw [ha,(hwf.endCommit commitTs).2] at han
  exact han.2 rfl

end

/-- An announced commit is ended exactly when the transaction is active and validation
conflicts or no materialization is the first step of the batch that fails. -/
theorem announced_commit_ends_iff (ctx : CommitContext) (m : SnapshotManager) (db : Db)
    (registry : WriteConflictRegistry) (ledger : InflightLedger) (locks : LockManager) (t : Transaction)
    (commitTs : Timestamp) (hwf : ledger.Wf) (hannounced : ledger.Pending commitTs)
    (hinflight : t.hasTrackedWrites (some ⟨registry,ledger⟩) = true) :
    EndsCommit (t.commitWithTimestamp ctx m db (some ⟨registry,ledger⟩) locks commitTs) ledger commitTs ↔
      Ends ctx m db registry t commitTs := by
  have hne : t.writeSet.keys ≠ [] := by simpa [Transaction.hasTrackedWrites] using hinflight
  constructor
  · intro h
    by_contra hno
    exact not_endsCommit hwf hannounced hne hno h
  · exact endsCommit_of_ends hwf hne

/-! A commit of one row of table `t`, announced at timestamp 5. -/

def sampleContext : CommitContext where
  versioningEnabled := true
  conflictValidation := true
  keyManager := none
  hasRowCache := false
  wal := none
  statementWal := none
  serializeCounter := fun row => .ok (beBytes 8 row).reverse
  groupFsyncError := none

def sampleTransaction : Transaction :=
  { newWithSession 1 4 .readCommitted with
    writeSet := (∅ : Map Key (Option Bytes)).insert (dataKey [116] 1) (some [1]) }

def sampleLedger : InflightLedger := (InflightLedger.new.beginCommit 5).getD .new

theorem sampleLedger_wf : sampleLedger.Wf ∧ sampleLedger.Pending 5 := by
  have hb : InflightLedger.new.Below 5 := ⟨by decide,fun seq _ h => absurd h (Nat.not_lt_zero seq)⟩
  obtain ⟨hwf,hp⟩ := InflightLedger.wf_new.beginCommit hb (show _ = some sampleLedger from rfl)
  exact ⟨hwf,(hp 5).mpr (.inr rfl)⟩

/-- Without failures the commit is ended. -/
theorem announced_commit_ends_sample : sampleLedger.Pending 5 ∧
      EndsCommit (sampleTransaction.commitWithTimestamp sampleContext (.new none) (.healthy ∅)
        (some ⟨.new,sampleLedger⟩) (.new 1000) 5) sampleLedger 5 := by
  refine ⟨sampleLedger_wf.2,(announced_commit_ends_iff sampleContext (.new none) (.healthy ∅) .new sampleLedger
    (.new 1000) sampleTransaction 5 sampleLedger_wf.1 sampleLedger_wf.2 rfl).mpr ⟨rfl,.inr ?_⟩⟩
  rintro ⟨-,before,entry,after,-,-,error,herror⟩
  -- No gate is armed, so there is nothing to materialize.
  cases herror

/-- A manager that has to look for elided versions. -/
def armedManager : SnapshotManager := { SnapshotManager.new none with maybeElidedRows := true }

/-- A database whose iterators report an error. -/
def brokenDb : Db := { Db.healthy ∅ with nextError := fun _ => some "IO error" }

/-- The seek for an elided version fails: the commit returns and stays announced. -/
theorem failed_materialization_stays_announced :
    ¬∀ (ctx : CommitContext) (m : SnapshotManager) (db : Db) (registry : WriteConflictRegistry)
      (ledger : InflightLedger) (locks : LockManager) (t : Transaction) (commitTs : Timestamp),
      ledger.Wf → ledger.Pending commitTs → t.state = .active → t.hasTrackedWrites (some ⟨registry,ledger⟩) = true →
      EndsCommit (t.commitWithTimestamp ctx m db (some ⟨registry,ledger⟩) locks commitTs) ledger commitTs := by
  intro h
  have hends := h sampleContext armedManager brokenDb .new sampleLedger (.new 1000) sampleTransaction 5
    sampleLedger_wf.1 sampleLedger_wf.2 rfl rfl
  refine not_endsCommit sampleLedger_wf.1 sampleLedger_wf.2 (by decide +kernel) ?_ hends
  rintro ⟨-,⟨hvalidate,key,-,ts,hts,-⟩ | hno⟩
  · cases hts
  · have hinserts : sampleTransaction.freshInserts = [] := rfl
    refine hno ⟨by simp [hinserts],[],(dataKey [116] 1,some [1]),[],rfl,by simp,
      .storage "flagged version seek failed: IO error",?_⟩
    have hparse : parseRowKey (dataKey [116] 1) = some ([116],1) := by decide +kernel
    simp only [CommitContext.preImages,Transaction.materializeEntry,hparse]
    rfl

end HeliosNano.Storage.CommitEnds
