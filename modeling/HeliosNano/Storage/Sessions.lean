import HeliosNano.Storage.CopyBatch

namespace HeliosNano.Storage
open Foundation List SnapshotManager RowHistory

structure Session where
  manager : SnapshotManager
  store : Store

/-- A step of a history. What a commit finds in the registries of locks and conflicts is
part of the step. -/
inductive Operation
  | commit (ctx : CommitContext) (conflict : Option ConflictState) (locks : LockManager) (txn : Transaction)
      (commitTs : Timestamp)
  | copy (ctx : CopyContext) (table : TableName) (prepared : List (RowId × Bytes)) (commitTs : Timestamp)
  | reopen (elideLatestVersion : Bool)

/-- Whether COPY writes markers, and whether a session may elide. -/
structure Mode where
  markers : Bool
  elision : Bool

namespace Session
variable (km : Option KeyManager) (mode : Mode)

def start : Session := ⟨.new km,∅⟩

/-- On opening, markers are recovered before elision is configured. -/
def step (s : Session) : Operation → Session
  | .commit ctx conflict locks txn commitTs =>
    { s with store := (txn.commitWithTimestamp ctx s.manager (.healthy s.store) conflict locks commitTs).db.store }
  | .copy ctx table prepared commitTs =>
    let (m,db,_) := { ctx with copyVrangeEnabled := mode.markers }.insertPreparedTuplesFastBatch table s.manager
      (.healthy s.store) prepared (some commitTs)
    ⟨m,db.store⟩
  | .reopen elideLatestVersion =>
    let (m,db) := ((new km).recoverMarkers (.healthy s.store)).configureElision (.healthy s.store)
      (mode.elision && elideLatestVersion)
    ⟨m,db.store⟩

def read (s : Session) (table : TableName) (row : RowId) (snapshotTs : Timestamp) : Except Error (Option Bytes) :=
  (s.manager.readAtSnapshot (.healthy s.store) table.bytes row snapshotTs).2

end Session

namespace Operation

def timestamp : Operation → Option Timestamp
  | commit _ _ _ _ commitTs => some commitTs
  | copy _ _ _ commitTs => some commitTs
  | reopen _ => none

def Touches (table : TableName) (row : RowId) : Operation → Prop
  | commit _ _ _ txn _ =>
    dataKey table.bytes row ∈ txn.writeSet ∨ ∃ value, (dataKey table.bytes row,value) ∈ txn.insertLog
  | copy _ other prepared _ => other = table ∧ row ∈ prepared.map (·.1)
  | reopen _ => False

/-- The operation takes the row to be new: its id was never given out before. -/
def Inserts (table : TableName) (row : RowId) : Operation → Prop
  | commit _ _ _ txn _ => ∃ value, (dataKey table.bytes row,value) ∈ txn.insertLog
  | copy _ other prepared _ => other = table ∧ row ∈ prepared.map (·.1)
  | reopen _ => False

/-- Commits stage rows, COPY batches have contiguous row ids, timestamps are below 2^63. -/
def Sound (km : Option KeyManager) : Operation → Prop
  | commit ctx _ _ txn commitTs =>
    ctx.Sound km ∧ txn.RowsOnly (fun _ _ => True) ∧ commitTs < versionValueElidedFlag
  | copy ctx _ prepared commitTs =>
    ctx.Sound km ∧ Contiguous prepared ∧ (∀ entry ∈ prepared, entry.1 ≤ u64Max) ∧ commitTs < versionValueElidedFlag
  | reopen _ => True

/-- The step of the row's history. An operation that fails leaves no trace. -/
def advance (table : TableName) (row : RowId) (h : RowHistory) : Operation → RowHistory
  | commit ctx conflict _ txn commitTs =>
    if txn.commits ctx conflict commitTs then
      h.apply (versionedTable table.bytes) commitTs (txn.staged (dataKey table.bytes row))
    else h
  | copy ctx other prepared commitTs =>
    if ctx.copies other prepared then h.copy commitTs (copiedValue other prepared table row) else h
  | reopen _ => h

end Operation
open Operation

/-- Timestamps increase strictly, and row ids of inserts are never reused. -/
structure ProperHistory (km : Option KeyManager) (ops : List Operation) : Prop where
  sound : ∀ op ∈ ops, op.Sound km
  increasing : (ops.filterMap timestamp).Pairwise (· < ·)
  fresh : ops.Pairwise fun earlier later => ∀ table row, later.Inserts table row → ¬earlier.Touches table row

/-- No COPY goes into a table whose index keys lie in the range of the row. -/
def NotAliased (table : TableName) (row : RowId) (ops : List Operation) : Prop :=
  ∀ ctx other prepared commitTs, copy ctx other prepared commitTs ∈ ops → ¬Aliases other.bytes table.bytes row

def historyOf (table : TableName) (row : RowId) (ops : List Operation) : RowHistory :=
  ops.foldl (advance table row) .empty

section
variable {km : Option KeyManager} {table : TableName} {row : RowId} {ops : List Operation} {op : Operation}

theorem historyOf_append (table : TableName) (row : RowId) (ops : List Operation) (op : Operation) :
    historyOf table row (ops ++ [op]) = op.advance table row (historyOf table row ops) := by
  simp [historyOf]

theorem Operation.advance_of_not_touches (h : ¬op.Touches table row) (history : RowHistory) :
    op.advance table row history = history := by
  cases op with
  | commit ctx conflict locks txn ts =>
    obtain ⟨hw,hi⟩ := not_or.mp h
    have hn : txn.staged (dataKey table.bytes row) = none :=
      staged_eq_none (AList.lookup_eq_none.mpr hw) fun value hv => hi ⟨value,hv⟩
    simp [advance,hn,RowHistory.apply]
  | copy ctx other prepared ts =>
    simp [advance,copiedValue_eq_none h,RowHistory.copy]
  | reopen elide => rfl

theorem historyOf_untouched (h : ∀ op ∈ ops, ¬op.Touches table row) : historyOf table row ops = .empty := by
  induction ops using List.reverseRecOn with
  | nil => rfl
  | append_singleton ops op ih =>
    rw [historyOf_append,advance_of_not_touches (h op (by simp))]
    exact ih fun o ho => h o (by simp [ho])

variable {event : Timestamp × Bytes} {h : RowHistory}

theorem RowHistory.mem_put {versioned : Bool} {ts : Timestamp} {value : Bytes}
    (he : event ∈ (h.put versioned ts value).events) : ts = event.1 ∨ event ∈ h.events := by
  unfold put at he
  split at he
  · rcases mem_cons.mp he with rfl | he
    · exact .inl rfl
    · exact .inr he
  · exact .inr he

theorem Operation.mem_advance
    (he : event ∈ (op.advance table row h).events) : op.timestamp = some event.1 ∨ event ∈ h.events := by
  cases op with
  | commit ctx conflict locks txn ts =>
    simp only [advance] at he
    split at he
    · cases hst : txn.staged (dataKey table.bytes row) with
      | none =>
        rw [hst] at he
        exact .inr he
      | some staged =>
        rw [hst] at he
        cases staged with
        | none => exact .inr he
        | some value => exact (mem_put he).imp_left (congrArg some)
    · exact .inr he
  | copy ctx other prepared ts =>
    simp only [advance] at he
    split at he
    · cases hcv : copiedValue other prepared table row with
      | none =>
        rw [hcv] at he
        exact .inr he
      | some value =>
        rw [hcv] at he
        exact (mem_put he).imp_left (congrArg some)
    · exact .inr he
  | reopen elide => exact .inr he

theorem mem_events_timestamp (he : event ∈ (historyOf table row ops).events) : event.1 ∈ ops.filterMap timestamp := by
  induction ops using List.reverseRecOn with
  | nil => simp [historyOf,empty] at he
  | append_singleton ops op ih =>
    rw [historyOf_append] at he
    rcases mem_advance he with hts | hold
    · exact mem_filterMap.mpr ⟨op,by simp,hts⟩
    · rw [filterMap_append]
      exact mem_append_left _ (ih hold)

theorem ProperHistory.last (h : ProperHistory km (ops ++ [op])) (table : TableName) (row : RowId) : ProperHistory km ops ∧ op.Sound km ∧
    (∀ ts, op.timestamp = some ts → ∀ event ∈ (historyOf table row ops).events, event.1 < ts) ∧
    (op.Inserts table row → historyOf table row ops = .empty) := by
  obtain ⟨hs,hi,hf⟩ := h
  rw [filterMap_append,pairwise_append] at hi
  rw [pairwise_append] at hf
  refine ⟨⟨fun o ho => hs o (by simp [ho]),hi.1,hf.1⟩,hs op (by simp),fun ts hts event he => ?_,
    fun hin => historyOf_untouched fun o ho => ?_⟩
  · exact hi.2.2 event.1 (mem_events_timestamp he) ts (by simp [hts])
  · exact hf.2.2 o ho op (by simp) table row hin

end

/-- The session represents the history of the row, its markers are durable, and the
gate before overwriting is armed when a version of the row may be elided. -/
structure Session.Holds (km : Option KeyManager) (s : Session) (table : TableName) (row : RowId)
    (h : RowHistory) : Prop where
  keyManager : s.manager.keyManager = km
  cold : s.manager.snapshotCache = []
  represents : Represents km s.manager s.store table row h
  armed : ∀ e, HasEvent s.store table row e true →
    s.manager.maybeElidedRows = true ∧ (s.store.lookup elideSentinelKey).isSome = true
  eliding : s.manager.elideLatestVersion = true →
    s.manager.maybeElidedRows = true ∧ (s.store.lookup elideSentinelKey).isSome = true
  markersWf : s.manager.copyMarkers.Wf
  durable : DurableMarkers s.store table row (s.manager.copyMarkers.coveringTs table.bytes row)
  quiet : ∀ other row', Aliases other.bytes table.bytes row →
    s.manager.copyMarkers.coveringTs other.bytes row' = none ∧ DurableMarkers s.store other row' none

section
variable {km : Option KeyManager} {mode : Mode} {s : Session} {table : TableName} {row : RowId} {h : RowHistory}
  {op : Operation} {ops : List Operation}

theorem Session.holds_start (km : Option KeyManager) (table : TableName) (row : RowId) :
    (start km).Holds km table row .empty := by
  have hno : ∀ e elided, ¬HasEvent (start km).store table row e elided := by
    rintro e elided ⟨-,value,hl,-⟩
    simp [start] at hl
  have hd : ∀ (other : TableName) (row' : RowId), DurableMarkers (start km).store other row' none := by
    refine fun other row' => ⟨fun key value _ hl => ?_,fun ts hts => ?_⟩
    · simp [start] at hl
    · cases hts
  refine ⟨rfl,rfl,⟨?_,.nil,?_,rfl,.inr ⟨?_,?_,fun _ => rfl⟩⟩,?_,?_,CopyMarkers.wf_new,hd table row,
    fun other row' _ => ⟨rfl,hd other row'⟩⟩
  · intro rest value hl
    simp [start] at hl
  · simp [empty]
  · exact fun e elided hev => absurd hev (hno e elided)
  · simp [empty]
  · exact fun e hev => absurd hev (hno e true)
  · intro he
    cases he

theorem Session.Holds.read (hs : s.Holds km table row h) (snapshotTs : Timestamp) :
    s.read table row snapshotTs = .ok (h.answer snapshotTs) := by
  obtain ⟨stored,hr,ha⟩ := hs.represents.readAtSnapshotUncached snapshotTs
  have hm : s.manager.cached table.bytes row snapshotTs = none := by
    simp [cached,hs.cold]
  simp only [Session.read,readAtSnapshot,hm,hr,hs.keyManager,ha]
  cases s.manager.cacheEnabled <;> rfl

theorem configureElision_healthy (m : SnapshotManager) (hp : m.persistMetadata = true) (store : Store) (elide : Bool) :
    m.configureElision (.healthy store) elide =
      ({ m with elideLatestVersion := elide,
                maybeElidedRows := m.maybeElidedRows || (store.lookup elideSentinelKey).isSome || elide },
        .healthy (if elide && (store.lookup elideSentinelKey).isNone then store.write [.put elideSentinelKey [1]]
          else store)) := by
  unfold configureElision
  cases hl : store.lookup elideSentinelKey <;> cases elide <;> cases m.maybeElidedRows <;> simp [hl,hp]

theorem sentinel_frame (store : Store) : Avoids table row [.put elideSentinelKey [1]] ∧
    ∀ key, vmetaPrefix <+: key → (store.write [.put elideSentinelKey [1]]).lookup key = store.lookup key := by
  refine ⟨fun op hop => ?_,fun key hk => ?_⟩
  · rw [mem_singleton.mp hop]
    have hno : ¬RowKey table row (Keyspace.elideSentinel.lead ++ []) :=
      not_rowKey_of_keyspace (by decide) (by decide) (by decide) []
    rwa [append_nil] at hno
  · obtain ⟨rest,rfl⟩ := hk
    rw [Map.write_cons,Map.write_nil,Map.lookup_apply_put,if_neg]
    intro heq
    exact keyspace_disjoint (show Keyspace.vmeta ≠ Keyspace.elideSentinel by decide) rest []
      (heq.trans (append_nil _).symm)

section
variable {ctx : CommitContext} {txn : Transaction} {ts : Timestamp}
variable (hs : s.Holds km table row h)
include hs

theorem Session.Holds.quietRows (hr : txn.RowsOnly fun _ _ => True) : txn.RowsOnly (Quiet s.manager table row) := by
  refine ⟨fun key hk => ?_,fun entry he => ?_,hr.distinct⟩
  · obtain ⟨other,row',heq,hle,-⟩ := hr.writes key hk
    exact ⟨other,row',heq,hle,fun ha => (hs.quiet other row' ha).1⟩
  · obtain ⟨other,row',heq,hle,-⟩ := hr.inserts entry he
    exact ⟨other,row',heq,hle,fun ha => (hs.quiet other row' ha).1⟩

theorem Session.Holds.commit_result (hrw : row ≤ u64Max) (hc : ctx.Sound km)
    (hts : ts < versionValueElidedFlag) (hr : txn.RowsOnly fun _ _ => True) (hnew : ∀ event ∈ h.events, event.1 < ts)
    (hfr : ∀ value, (dataKey table.bytes row,value) ∈ txn.insertLog → h.events = [])
    (conflict : Option ConflictState) (locks : LockManager) : (txn.commits ctx conflict ts = true →
      (txn.commitWithTimestamp ctx s.manager (.healthy s.store) conflict locks ts).result = .ok ()) ∧
    (txn.commits ctx conflict ts = false → ∃ error,
      (txn.commitWithTimestamp ctx s.manager (.healthy s.store) conflict locks ts).result = .error error) := by
  rcases hs.represents.commit hc hrw hnew hts (fun e he => (hs.armed e he).1) (hs.quietRows hr) hfr conflict
    locks with ⟨hcm,batch,hok,-⟩ | ⟨hfl,her,-⟩
  · exact ⟨fun _ => hok,fun hf => by simp [hcm] at hf⟩
  · exact ⟨fun ht => by simp [hfl] at ht,fun _ => her⟩

theorem Session.Holds.commit (mode : Mode) (hrw : row ≤ u64Max) (hc : ctx.Sound km)
    (hts : ts < versionValueElidedFlag) (hr : txn.RowsOnly fun _ _ => True) (hnew : ∀ event ∈ h.events, event.1 < ts)
    (hfr : ∀ value, (dataKey table.bytes row,value) ∈ txn.insertLog → h.events = [])
    (conflict : Option ConflictState) (locks : LockManager) :
    (s.step km mode (.commit ctx conflict locks txn ts)).Holds km table row
      ((commit ctx conflict locks txn ts).advance table row h) := by
  rcases hs.represents.commit hc hrw hnew hts (fun e he => (hs.armed e he).1) (hs.quietRows hr) hfr conflict
    locks with ⟨hcm,batch,-,hdb, hm,hrp,hfl⟩ | ⟨hf,-,hdb⟩
  · simp only [Session.step,advance,hcm,if_true,hdb,Db.healthy_store]
    refine ⟨hs.keyManager,hs.cold,hrp,fun e he => ?_,fun hel => ?_,hs.markersWf,
      hs.durable.congr fun key hk => hm.marker hk,fun other row' ha => ?_⟩
    · rw [hm.sentinel]
      rcases hfl e he with hold | hel
      · exact hs.armed e hold
      · exact hs.eliding (Bool.and_eq_true_iff.mp hel).2
    · rw [hm.sentinel]
      exact hs.eliding hel
    · exact ⟨(hs.quiet other row' ha).1,(hs.quiet other row' ha).2.congr fun key hk => hm.marker hk⟩
  · simp only [Session.step,advance,hf,hdb,Db.healthy_store]
    exact hs

end

theorem Session.Holds.copy (hs : s.Holds km table row h) (mode : Mode) {ctx : CopyContext} {other : TableName}
    {prepared : List (RowId × Bytes)} {ts : Timestamp} (hc : ctx.Sound km) (hts : ts < versionValueElidedFlag)
    (hcn : Contiguous prepared) (hle : ∀ entry ∈ prepared, entry.1 ≤ u64Max) (hal : ¬Aliases other.bytes table.bytes row)
    (hfr : other = table → row ∈ prepared.map (·.1) → h = .empty) :
    (s.step km mode (.copy ctx other prepared ts)).Holds km table row
      ((copy ctx other prepared ts).advance table row h) := by
  have hc' : CopyContext.Sound { ctx with copyVrangeEnabled := mode.markers } km := ⟨hc.sealing,hc.keyManager⟩
  have hsame : CopyContext.copies { ctx with copyVrangeEnabled := mode.markers } other prepared =
      ctx.copies other prepared := rfl
  rcases hs.represents.copyCall hc' hs.markersWf hs.durable hal hcn hle hfr hts with
    ⟨hcp,batch,markers,hcall,hst⟩ | ⟨hf,result,hcall⟩
  · rw [hsame] at hcp
    simp only [Session.step,advance,hcp,if_true,hcall,Db.healthy_store]
    refine ⟨hs.keyManager,hs.cold,hst.represents,fun e he => ?_,fun hel => ?_,hst.wf,hst.durable,
      fun other' row' ha => ?_⟩
    · rw [hst.sentinel]
      exact hs.armed e (hst.flagged e he)
    · rw [hst.sentinel]
      exact hs.eliding hel
    · obtain ⟨hcv,hd⟩ := hst.elsewhere other' row' fun heq => hal (heq ▸ ha)
      exact ⟨hcv.trans (hs.quiet other' row' ha).1,hd none (hs.quiet other' row' ha).2⟩
  · rw [hsame] at hf
    simp only [Session.step,advance,hf,hcall,Db.healthy_store]
    exact hs

theorem Session.Holds.reopen (hs : s.Holds km table row h) (mode : Mode) (elideLatestVersion : Bool) :
    (s.step km mode (.reopen elideLatestVersion)).Holds km table row h := by
  obtain ⟨hwf,hc⟩ := hs.durable.recover (.new km) rfl
  obtain ⟨hav,hm⟩ := @sentinel_frame table row s.store
  simp only [Session.step,configureElision_healthy _ (show ((new km).recoverMarkers
    (.healthy s.store)).persistMetadata = true from rfl),Db.healthy_store]
  -- Whether the sentinel is written now or not, the keys of the row and the markers stay.
  have hky : ∀ key, RowKey table row key → (if ((mode.elision && elideLatestVersion) &&
      (s.store.lookup elideSentinelKey).isNone) = true then s.store.write [.put elideSentinelKey [1]] else
      s.store).lookup key = s.store.lookup key := by
    intro key hk
    split
    · exact hav.lookup hk
    · rfl
  have hv : ∀ key, vmetaPrefix <+: key → (if ((mode.elision && elideLatestVersion) &&
      (s.store.lookup elideSentinelKey).isNone) = true then s.store.write [.put elideSentinelKey [1]] else
      s.store).lookup key = s.store.lookup key := by
    intro key hk
    split
    · exact hm key hk
    · rfl
  have hsn : ((if ((mode.elision && elideLatestVersion) && (s.store.lookup elideSentinelKey).isNone) = true then
      s.store.write [.put elideSentinelKey [1]] else s.store).lookup elideSentinelKey).isSome =
      ((s.store.lookup elideSentinelKey).isSome || (mode.elision && elideLatestVersion)) := by
    cases hl : s.store.lookup elideSentinelKey <;> cases mode.elision && elideLatestVersion <;>
      simp [hl,Map.write_cons,Map.lookup_apply_put]
  refine ⟨rfl,rfl,hs.represents.congr hky hc,fun e he => ?_,fun hel => ?_,hwf,?_,fun other row' ha =>
    ⟨((hs.quiet other row' ha).2.recover (.new km) rfl).2,(hs.quiet other row' ha).2.congr hv⟩⟩
  · have hold := (hs.armed e ((HasEvent.congr hky).mp he)).2
    rw [hsn]
    simp [hold]
  · rw [hsn]
    dsimp only at hel ⊢
    simp [hel]
  · have hc' : (SnapshotManager.recoverMarkers (.new km) (.healthy s.store)).copyMarkers.coveringTs table.bytes row =
      s.manager.copyMarkers.coveringTs table.bytes row := hc
    dsimp only
    rw [hc']
    exact hs.durable.congr hv

theorem Session.holds_run (mode : Mode) (hrw : row ≤ u64Max) (hop : ProperHistory km ops) (hn : NotAliased table row ops) :
    (run (step km mode) (start km) ops).Holds km table row (historyOf table row ops) := by
  induction ops using List.reverseRecOn with
  | nil => exact holds_start km table row
  | append_singleton ops op ih =>
    obtain ⟨hp,hsn,hnew,hi⟩ := hop.last table row
    have hs := ih hp fun ctx other prepared ts ho => hn ctx other prepared ts (by simp [ho])
    rw [run_append,historyOf_append]
    cases op with
    | commit ctx conflict locks txn ts =>
      obtain ⟨hc,hr,hts⟩ := hsn
      refine hs.commit mode hrw hc hts hr (hnew ts rfl) (fun value hv => ?_) conflict locks
      rw [hi ⟨value,hv⟩]
      rfl
    | copy ctx other prepared ts =>
      obtain ⟨hc,hcn,hle,hts⟩ := hsn
      exact hs.copy mode hc hts hcn hle (hn ctx other prepared ts (by simp)) fun heq hm => hi ⟨heq,hm⟩
    | reopen elide => exact hs.reopen mode elide

end
end HeliosNano.Storage
