import HeliosNano.Storage.CommitEnds
import HeliosNano.Storage.Sessions

namespace HeliosNano.Storage.SnapshotReads
open Foundation List Option AList RowHistory

/-- What one operation did to the row, if the call returned without an error. -/
def action (mode : Mode) (table : TableName) (row : RowId) (s : Session) :
    Operation → List (Timestamp × Option Bytes)
  | .commit ctx conflict locks txn commitTs =>
    match (txn.commitWithTimestamp ctx s.manager (.healthy s.store) conflict locks commitTs).result with
    | .ok () => (txn.staged (dataKey table.bytes row)).toList.map fun staged => (commitTs,staged)
    | .error _ => []
  | .copy ctx other prepared commitTs =>
    match ({ ctx with copyVrangeEnabled := mode.markers }.insertPreparedTuplesFastBatch other s.manager
        (.healthy s.store) prepared (some commitTs)).2.2 with
    | .ok _ => (copiedValue other prepared table row).toList.map fun value => (commitTs,some value)
    | .error _ => []
  | .reopen _ => []

/-- The puts and deletes of the row along a history, newest first. A delete has no value. -/
def actions (km : Option KeyManager) (mode : Mode) (table : TableName) (row : RowId) :
    Session → List Operation → List (Timestamp × Option Bytes)
  | _, [] => []
  | s, op::rest => actions km mode table row (s.step km mode op) rest ++ action mode table row s op

/-- The value of the last put at or before the snapshot, unless the row was deleted after
it at or before the snapshot. -/
def valueAsOf (actions : List (Timestamp × Option Bytes)) (snapshotTs : Timestamp) : Option Bytes :=
  (actions.find? fun action => decide (action.1 ≤ snapshotTs)).bind (·.2)

def currentValue (actions : List (Timestamp × Option Bytes)) : Option Bytes := actions.head?.bind (·.2)

/-- The row was put at or before the snapshot, and the last action on it up to the
snapshot is a delete. -/
def DeletedAsOf (actions : List (Timestamp × Option Bytes)) (snapshotTs : Timestamp) : Prop :=
  (∃ put ∈ actions, put.1 ≤ snapshotTs ∧ put.2 ≠ none) ∧
    ∃ deleted, actions.find? (fun action => decide (action.1 ≤ snapshotTs)) = some deleted ∧ deleted.2 = none

def CommitsOnly (ops : List Operation) : Prop :=
  ∀ ctx other prepared commitTs, Operation.copy ctx other prepared commitTs ∉ ops

def puts (actions : List (Timestamp × Option Bytes)) : List (Timestamp × Bytes) :=
  actions.filterMap fun action => action.2.map fun value => (action.1,value)

def traceOf (versioned : Bool) (actions : List (Timestamp × Option Bytes)) : RowHistory :=
  ⟨if versioned then puts actions else [],currentValue actions⟩

theorem traceOf_cons (versioned : Bool) (ts : Timestamp) (staged : Option Bytes) (actions : List (Timestamp × Option Bytes)) :
    traceOf versioned ((ts,staged)::actions) = (traceOf versioned actions).apply versioned ts (some staged) := by
  cases staged <;> cases versioned <;> simp [traceOf,puts,currentValue,apply,put,delete]

theorem currentValue_of_no_put {actions : List (Timestamp × Option Bytes)} (h : puts actions = []) :
    currentValue actions = none := by
  cases actions with
  | nil => rfl
  | cons first rest =>
    obtain ⟨ts,staged⟩ := first
    cases staged with
    | none => rfl
    | some value => simp [puts] at h

theorem find?_puts_of_put {actions : List (Timestamp × Option Bytes)} {s ts : Timestamp} {value : Bytes}
    (h : actions.find? (fun action => decide (action.1 ≤ s)) = some (ts,some value)) :
    (puts actions).find? (fun event => decide (event.1 ≤ s)) = some (ts,value) := by
  induction actions with
  | nil => simp at h
  | cons first rest ih =>
    obtain ⟨ts',staged⟩ := first
    by_cases hle : ts' ≤ s
    · rw [find?_cons_of_pos (by simpa using hle)] at h
      cases h
      simp [puts,hle]
    · rw [find?_cons_of_neg (by simpa using hle)] at h
      have hrest := ih h
      cases staged with
      | none => exact hrest
      | some old => simpa [puts,hle] using hrest

theorem find?_puts_eq_none_iff (actions : List (Timestamp × Option Bytes)) (s : Timestamp) :
    (puts actions).find? (fun event => decide (event.1 ≤ s)) = none ↔ ¬∃ put ∈ actions, put.1 ≤ s ∧ put.2 ≠ none := by
  rw [find?_eq_none]
  constructor
  · rintro h ⟨⟨ts,staged⟩,hm,hle,hne⟩
    obtain ⟨value,hv⟩ := ne_none_iff_exists'.mp hne
    dsimp only at hv
    exact h (ts,value) (mem_filterMap.mpr ⟨_,hm,by simp [hv]⟩) (by simpa using hle)
  · intro h event he hle
    obtain ⟨⟨ts,staged⟩,hm,heq⟩ := mem_filterMap.mp he
    obtain ⟨value,hv,rfl⟩ := map_eq_some_iff.mp heq
    exact h ⟨(ts,staged),hm,by simpa using hle,by rw [hv]; simp⟩

theorem answer_versioned_iff (actions : List (Timestamp × Option Bytes)) (s : Timestamp) :
    (traceOf true actions).answer s = valueAsOf actions s ↔ ¬DeletedAsOf actions s := by
  -- Without a put up to the snapshot nothing is found.
  have hn : (puts actions).find? (fun event => decide (event.1 ≤ s)) = none →
      (traceOf true actions).answer s = none := by
    intro hnn
    simp only [traceOf,answer,if_true,hnn,List.isEmpty_iff]
    split
    · exact currentValue_of_no_put ‹_›
    · rfl
  cases hf : actions.find? (fun action => decide (action.1 ≤ s)) with
  | none =>
    have hno : ¬∃ put ∈ actions, put.1 ≤ s ∧ put.2 ≠ none := by
      rintro ⟨put,hm,hle,-⟩
      exact find?_eq_none.mp hf put hm (by simpa using hle)
    rw [hn ((find?_puts_eq_none_iff actions s).mpr hno)]
    simp [valueAsOf,DeletedAsOf,hf]
  | some last =>
    obtain ⟨ts,staged⟩ := last
    cases staged with
    | some value =>
      have hpt := find?_puts_of_put hf
      simp [traceOf,answer,hpt,valueAsOf,DeletedAsOf,hf]
    | none =>
      have hv : valueAsOf actions s = none := by simp [valueAsOf,hf]
      have hd : DeletedAsOf actions s ↔ ∃ put ∈ actions, put.1 ≤ s ∧ put.2 ≠ none := by
        simp [DeletedAsOf,hf]
      rw [hv,hd]
      cases hp : (puts actions).find? (fun event => decide (event.1 ≤ s)) with
      | none => simp [hn hp,(find?_puts_eq_none_iff actions s).mp hp]
      | some event =>
        have hex : ∃ put ∈ actions, put.1 ≤ s ∧ put.2 ≠ none := by
          by_contra hno
          rw [(find?_puts_eq_none_iff actions s).mpr hno] at hp
          cases hp
        simp [traceOf,answer,hp,hex]

theorem answer_unversioned (actions : List (Timestamp × Option Bytes)) (s : Timestamp) :
    (traceOf false actions).answer s = currentValue actions := by
  simp [traceOf,answer]

section
variable {km : Option KeyManager} {mode : Mode} {table : TableName} {row : RowId} {ops : List Operation}

theorem actions_append (s : Session) (ops : List Operation) (op : Operation) : actions km mode table row s (ops ++ [op]) =
      action mode table row (run (Session.step km mode) s ops) op ++ actions km mode table row s ops := by
  induction ops generalizing s with
  | nil => simp [actions]
  | cons first rest ih => simp [actions,ih]

theorem notAliased_of_commitsOnly (h : CommitsOnly ops) : NotAliased table row ops :=
  fun ctx other prepared ts hm => absurd hm (h ctx other prepared ts)

theorem historyOf_eq_traceOf (mode : Mode) (hrw : row ≤ u64Max) (hop : ProperHistory km ops) (ho : CommitsOnly ops) :
    historyOf table row ops = traceOf (versionedTable table.bytes) (actions km mode table row (.start km) ops) := by
  induction ops using List.reverseRecOn with
  | nil => cases versionedTable table.bytes <;> rfl
  | append_singleton ops op ih =>
    have ho' : CommitsOnly ops := fun ctx other prepared ts hm => ho ctx other prepared ts (by simp [hm])
    obtain ⟨hp,hsn,hnew,hi⟩ := hop.last table row
    have hs : (run (Session.step km mode) (.start km) ops).Holds km table row (historyOf table row ops) :=
      Session.holds_run mode hrw hp (notAliased_of_commitsOnly ho')
    rw [historyOf_append,actions_append]
    cases op with
    | copy ctx other prepared ts => exact absurd (by simp) (ho ctx other prepared ts)
    | reopen elide => exact ih hp ho'
    | commit ctx conflict locks txn ts =>
      obtain ⟨hc,hrs,hts⟩ := hsn
      have hr := hs.commit_result hrw hc hts hrs (hnew ts rfl)
        (fun value hv => by rw [hi ⟨value,hv⟩]; rfl) conflict locks
      simp only [Operation.advance,action]
      cases hcm : txn.commits ctx conflict ts with
      | false =>
        obtain ⟨error,he⟩ := hr.2 hcm
        simpa [he] using ih hp ho'
      | true =>
        rw [hr.1 hcm,if_pos rfl]
        cases hst : txn.staged (dataKey table.bytes row) with
        | none => simpa [apply] using ih hp ho'
        | some staged =>
          simp only [toList_some,map_cons,map_nil,cons_append,nil_append]
          rw [traceOf_cons,ih hp ho']

end

/-- A read at a snapshot returns the value of the last put, or nothing after a delete,
exactly when the row was not put and then deleted up to the snapshot. In a table without
a name no versions are kept, and the row is always read as it is now. -/
theorem read_at_snapshot_iff (km : Option KeyManager) (mode : Mode) (ops : List Operation)
    (hops : ProperHistory km ops) (honly : CommitsOnly ops) (table : TableName) (row : RowId) (hrow : row ≤ u64Max)
    (hcolon : colon ∉ table.bytes) (snapshotTs : Timestamp) :
    (run (Session.step km mode) (.start km) ops).read table row snapshotTs =
        .ok (valueAsOf (actions km mode table row (.start km) ops) snapshotTs) ↔
      if table.bytes = [] then
        currentValue (actions km mode table row (.start km) ops) =
          valueAsOf (actions km mode table row (.start km) ops) snapshotTs
      else ¬DeletedAsOf (actions km mode table row (.start km) ops) snapshotTs := by
  have hs : (run (Session.step km mode) (.start km) ops).Holds km table row (historyOf table row ops) :=
    Session.holds_run mode hrow hops (notAliased_of_commitsOnly honly)
  rw [hs.read snapshotTs,historyOf_eq_traceOf mode hrow hops honly,Except.ok.injEq]
  by_cases hname : table.bytes = []
  · have hv : versionedTable table.bytes = false := by simp [versionedTable,hname]
    rw [if_pos hname,hv,answer_unversioned]
  · have hv : versionedTable table.bytes = true := by simp [versionedTable,hname,hcolon]
    rw [if_neg hname,hv,answer_versioned_iff]

/-! A row of table `t` that is put at 1 and deleted at 2. -/

theorem isUtf8_t : IsUtf8 [116] := isUtf8_of_ascii (by decide +kernel)

def tableT : TableName := ⟨[116],isUtf8_t⟩

def deletingTransaction : Transaction :=
  { Transaction.newWithSession 2 1 .readCommitted with
    writeSet := (∅ : Map Key (Option Bytes)).insert (dataKey [116] 1) none }

def putThenDelete : List Operation :=
  [.commit CommitEnds.sampleContext none (.new 1000) CommitEnds.sampleTransaction 1,
    .commit CommitEnds.sampleContext none (.new 1000) deletingTransaction 2]

theorem sampleContext_sound : CommitEnds.sampleContext.Sound none :=
  ⟨nofun,rfl,rfl,rfl⟩

theorem rowsOnly_single (txn : Transaction) (staged : Option Bytes) (table : TableName) (row : RowId)
    (hr : row ≤ u64Max) (hw : txn.writeSet = (∅ : Map Key (Option Bytes)).insert (dataKey table.bytes row) staged)
    (hi : txn.insertLog = []) : txn.RowsOnly fun _ _ => True where
  writes key hk := by
    rw [hw,mem_insert] at hk
    rcases hk with rfl | hk
    · exact ⟨table,row,rfl,hr,trivial⟩
    · exact absurd hk (notMem_empty key)
  inserts entry he := by simp [hi] at he
  distinct := by simp [hi]

theorem putThenDelete_proper : ProperHistory none putThenDelete where
  sound := by
    intro op hop
    rcases mem_cons.mp hop with rfl | hop
    · exact ⟨sampleContext_sound,rowsOnly_single _ (some [1]) tableT 1 (by decide) rfl rfl,by decide⟩
    · rw [mem_singleton.mp hop]
      exact ⟨sampleContext_sound,rowsOnly_single _ none tableT 1 (by decide) rfl rfl,by decide⟩
  increasing := by decide
  fresh := by
    refine pairwise_pair.mpr fun table row hi => ?_
    obtain ⟨value,hv⟩ := hi
    cases hv

theorem putThenDelete_commitsOnly : CommitsOnly putThenDelete := by
  intro ctx other prepared ts hm
  simp [putThenDelete] at hm

/-- Before the delete the row is read as it was put. -/
theorem read_at_snapshot_before_delete :
    (run (Session.step none ⟨true,true⟩) (.start none) putThenDelete).read tableT 1 1 = .ok (some [1]) := by
  have hactions : actions none ⟨true,true⟩ tableT 1 (.start none) putThenDelete = [(2,none),(1,some [1])] := by
    decide +kernel
  have hread := (read_at_snapshot_iff none ⟨true,true⟩ putThenDelete putThenDelete_proper putThenDelete_commitsOnly
    tableT 1 (by decide) (by decide) 1).mpr (by
      rw [if_neg (by decide),hactions]
      rintro ⟨-,deleted,hfind,hnone⟩
      have hfound : some (1,some [1]) = some deleted := hfind
      cases hfound
      cases hnone)
  rw [hread,hactions]
  rfl

/-- After the delete the row is still read. -/
theorem deleted_row_still_read :
    ¬∀ (km : Option KeyManager) (mode : Mode) (ops : List Operation), ProperHistory km ops → CommitsOnly ops →
      ∀ (table : TableName) (row : RowId), row ≤ u64Max → colon ∉ table.bytes → ∀ snapshotTs : Timestamp,
        (run (Session.step km mode) (.start km) ops).read table row snapshotTs =
          .ok (valueAsOf (actions km mode table row (.start km) ops) snapshotTs) := by
  intro h
  have hread := h none ⟨false,false⟩ putThenDelete putThenDelete_proper putThenDelete_commitsOnly tableT 1 (by decide)
    (by decide) 3
  have hactual : (run (Session.step none ⟨false,false⟩) (.start none) putThenDelete).read tableT 1 3 =
      .ok (some [1]) := by decide +kernel
  have hexpected : valueAsOf (actions none ⟨false,false⟩ tableT 1 (.start none) putThenDelete) 3 = none := by
    decide +kernel
  rw [hactual,hexpected] at hread
  cases hread

end HeliosNano.Storage.SnapshotReads
