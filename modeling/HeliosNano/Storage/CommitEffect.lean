import HeliosNano.Storage.CommitRows

namespace HeliosNano.Storage
open Foundation List Keyspace Transaction

def InSpaces (P : Keyspace → Prop) (batch : WriteBatch) : Prop :=
  ∀ op ∈ batch, ∃ space : Keyspace, P space ∧ space.lead <+: op.key

def Keyspace.IsMeta (space : Keyspace) : Prop := space = .vmeta ∨ space = .elideSentinel

def Keyspace.IsLog (space : Keyspace) : Prop :=
  space = .counter ∨ space = .walEntries ∨ space = .walLastLsn

def Keyspace.IsVersion (space : Keyspace) : Prop := space = .version ∨ space = .index

abbrev KeepsMeta (batch : WriteBatch) : Prop := InSpaces (fun space => ¬space.IsMeta) batch

section
variable {P Q : Keyspace → Prop} {a b : WriteBatch} {store : Store}

theorem inSpaces_nil : InSpaces P [] := by simp [InSpaces]

theorem InSpaces.append (ha : InSpaces P a) (hb : InSpaces P b) : InSpaces P (a ++ b) := by
  intro op hop
  rcases mem_append.mp hop with hop | hop
  · exact ha op hop
  · exact hb op hop

theorem InSpaces.cons {op : BatchOp Key Bytes} (space : Keyspace) (hP : P space) (hop : space.lead <+: op.key)
    (ha : InSpaces P a) : InSpaces P (op::a) := by
  intro o ho
  rcases mem_cons.mp ho with rfl | ho
  · exact ⟨space,hP,hop⟩
  · exact ha o ho

theorem InSpaces.mono (h : InSpaces P a) (hPQ : ∀ space, P space → Q space) : InSpaces Q a := fun op hop =>
  (h op hop).imp fun space hs => ⟨hPQ space hs.1,hs.2⟩

variable {space : Keyspace}

theorem InSpaces.lookup (store : Store) (h : InSpaces P a) (hP : ¬P space) (rest : Bytes) :
    (store.write a).lookup (space.lead ++ rest) = store.lookup (space.lead ++ rest) := by
  refine Map.lookup_write_of_not_mem store fun op hop heq => ?_
  obtain ⟨other,ho,tail,htl⟩ := h op hop
  have hne : other ≠ space := fun he => hP (he ▸ ho)
  exact keyspace_disjoint hne tail rest (htl.trans heq)

theorem KeepsMeta.sentinel (h : KeepsMeta a) : (store.write a).lookup elideSentinelKey = store.lookup elideSentinelKey := by
  have hl := InSpaces.lookup store h (not_not.mpr (Or.inr rfl : elideSentinel.IsMeta)) []
  rwa [append_nil] at hl

theorem KeepsMeta.marker (h : KeepsMeta a) {key : Key} (hk : vmetaPrefix <+: key) :
    (store.write a).lookup key = store.lookup key := by
  obtain ⟨rest,rfl⟩ := hk
  exact InSpaces.lookup store h (not_not.mpr (Or.inl rfl : vmeta.IsMeta)) rest

theorem not_isMeta (h : space = .data ∨ space = .version ∨ space = .index ∨ space.IsLog) : ¬space.IsMeta := by
  rcases h with rfl | rfl | rfl | rfl | rfl | rfl <;> (rintro (h | h) <;> cases h)

theorem InSpaces.keepsMeta (h : InSpaces IsVersion a) : KeepsMeta a := by
  refine h.mono fun space hs => not_isMeta ?_
  exact hs.elim (fun he => .inr (.inl he)) (fun he => .inr (.inr (.inl he)))

theorem InSpaces.avoids (h : InSpaces IsLog a) (table : TableName) (row : RowId) : Avoids table row a := by
  intro op hop
  obtain ⟨space,hs,tail,htl⟩ := h op hop
  rw [← htl]
  refine not_rowKey_of_keyspace ?_ ?_ ?_ tail <;> (rintro rfl; rcases hs with h | h | h <;> cases h)

theorem stageAll_inSpaces {α ε : Type} {stage : α → Except ε WriteBatch} {xs : List α} {batch : WriteBatch}
    (hP : ∀ x ∈ xs, ∀ own, stage x = .ok own → InSpaces P own) (h : stageAll stage xs = .ok batch) :
    InSpaces P batch := stageAll_forall hP h

end

section
variable {α β ε ε' : Type} {ctx : CommitContext} {m : SnapshotManager} {db : Db} {ts : Timestamp} {batch : WriteBatch}

theorem isVersion_record {a b : Key} (ha : versionLead <+: a) (hb : indexLead <+: b) (v w : Bytes) :
    InSpaces IsVersion [.put a v,.put b w] :=
  .cons .version (.inl rfl) ha (.cons .index (.inr rfl) hb inSpaces_nil)

variable {row : RowId} {table : Bytes} {key : Key} {val : Bytes}

theorem indexLead_of_indexPrefix (h : indexPrefix table row <+: key) : indexLead <+: key := (prefix_append indexLead _).trans h

theorem isVersion_materializeCopyMarkerRow
    (h : m.materializeCopyMarkerRow db table row ts = .ok batch) : InSpaces IsVersion batch := by
  unfold SnapshotManager.materializeCopyMarkerRow at h
  split at h
  · cases h
    exact inSpaces_nil
  split at h
  · cases h
    exact inSpaces_nil
  obtain ⟨found,-,h⟩ := bind_eq_ok.mp h
  cases found with
  | none =>
    cases h
    exact inSpaces_nil
  | some old =>
    cases h
    exact isVersion_record (prefix_append _ _) (indexLead_of_indexPrefix (prefix_append _ _)) _ _

theorem findFlagged_key {e : Timestamp} (h : SnapshotManager.findFlaggedLatestVersion db table row = .ok (some (e,key))) :
    indexPrefix table row <+: key := by
  unfold SnapshotManager.findFlaggedLatestVersion at h
  split at h
  · cases h
  · split at h
    next hp =>
      split at h
      · cases h
        exact hp
      · cases h
    · cases h
  · cases h

theorem isVersion_materializeElided
    (h : SnapshotManager.materializeElidedLatestVersion db table row = .ok batch) : InSpaces IsVersion batch := by
  obtain ⟨found,hf,h⟩ := bind_eq_ok.mp h
  cases found with
  | none =>
    cases h
    exact inSpaces_nil
  | some event =>
    obtain ⟨old,-,h⟩ := bind_eq_ok.mp h
    cases old with
    | none =>
      cases h
      exact inSpaces_nil
    | some old =>
      cases h
      exact isVersion_record (prefix_append _ _) (indexLead_of_indexPrefix (findFlagged_key hf)) _ _

theorem isVersion_preImages (h : ctx.preImages m db ts key = .ok batch) : InSpaces IsVersion batch := by
  unfold CommitContext.preImages materializeEntry at h
  split at h
  · split at h
    · cases h
      exact inSpaces_nil
    next table row _ =>
      -- Whether a gate is open or not, its part writes versions only.
      have hrest : ∀ marker : WriteBatch, InSpaces IsVersion marker → (if ctx.checkElided m then do
          let elided ← SnapshotManager.materializeElidedLatestVersion db table row
          .ok (marker ++ elided) else do
          let elided ← .ok []
          .ok (marker ++ elided)) = .ok batch → InSpaces IsVersion batch := by
        intro marker hm h
        split at h
        · obtain ⟨elided,he,h⟩ := bind_eq_ok.mp h
          cases h
          exact hm.append (isVersion_materializeElided he)
        · cases h
          exact hm.append inSpaces_nil
      dsimp only at h
      split at h
      · obtain ⟨marker,hm,h⟩ := bind_eq_ok.mp h
        exact hrest marker (isVersion_materializeCopyMarkerRow hm) h
      · exact hrest [] inSpaces_nil h
  · cases h
    exact inSpaces_nil

theorem isVersion_putVersionIndexBatch (key : Key) (stored : Bytes) (elide : Bool) (ts : Timestamp) :
    InSpaces IsVersion (putVersionIndexBatch key stored elide ts) := by
  unfold putVersionIndexBatch
  split
  · exact inSpaces_nil
  refine InSpaces.append ?_ (.cons .index (.inr rfl) (prefix_append _ _) inSpaces_nil)
  split
  · exact inSpaces_nil
  · exact .cons .version (.inl rfl) (prefix_append _ _) inSpaces_nil

theorem putRow_ops (h : ctx.putRow m ts key val = .ok batch) :
    ∃ stored versions, sealRowValue ctx.keyManager key val = .ok stored ∧ batch = .put key stored :: versions ∧
      InSpaces IsVersion versions := by
  obtain ⟨stored, hs,h⟩ := bind_eq_ok.mp h
  cases h
  refine ⟨stored,_, hs,rfl,?_⟩
  split
  · exact isVersion_putVersionIndexBatch key stored _ ts
  · exact inSpaces_nil

theorem keepsMeta_putRow (hkey : dataPrefix <+: key) (h : ctx.putRow m ts key val = .ok batch) : KeepsMeta batch := by
  obtain ⟨stored,versions,-,rfl,hv⟩ := putRow_ops h
  exact .cons .data (not_isMeta (by simp)) hkey hv.keepsMeta

theorem keepsMeta_stageInsert {entry : Key × Bytes} (hkey : dataPrefix <+: entry.1)
    (h : ctx.stageInsert m ts entry = .ok batch) : KeepsMeta batch :=
  keepsMeta_putRow hkey (mapError_eq_ok.mp h)

theorem keepsMeta_stageWrite {entry : Key × Option Bytes} (hkey : dataPrefix <+: entry.1)
    (h : ctx.stageWrite m db ts entry = .ok batch) : KeepsMeta batch := by
  obtain ⟨key,staged⟩ := entry
  obtain ⟨pre,hp,h⟩ := bind_eq_ok.mp h
  have hm := (isVersion_preImages (mapError_eq_ok.mp hp)).keepsMeta
  cases staged with
  | none =>
    cases h
    exact hm.append (.cons .data (not_isMeta (by simp)) hkey inSpaces_nil)
  | some val =>
    obtain ⟨put,hpt,h⟩ := bind_eq_ok.mp h
    cases h
    exact hm.append (keepsMeta_putRow hkey (mapError_eq_ok.mp hpt))

theorem isLog_stageCounter {entry : String × RowId} (h : ctx.stageCounter entry = .ok batch) : InSpaces IsLog batch := by
  unfold CommitContext.stageCounter at h
  split at h
  · cases h
  split at h
  · cases h
  · cases h
    exact .cons .counter (.inl rfl) (prefix_append _ _) inSpaces_nil

theorem isLog_walStage {wal : WalStage} {ops : List WalOperation} (h : wal.stage ops = .ok batch) : InSpaces IsLog batch := by
  unfold WalStage.stage at h
  split at h
  · cases h
    exact inSpaces_nil
  obtain ⟨entries,hs,h⟩ := bind_eq_ok.mp h
  cases h
  refine InSpaces.append (stageAll_inSpaces (fun entry _ own ho => ?_) hs)
    (.cons .walLastLsn (.inr (.inr rfl)) prefix_rfl inSpaces_nil)
  obtain ⟨bytes,-,ho⟩ := bind_eq_ok.mp ho
  cases ho
  exact .cons .walEntries (.inr (.inl rfl)) (prefix_append _ _) inSpaces_nil

end

namespace Transaction

/-- The parts of a commit that do not depend on what the rows hold. -/
def commits (ctx : CommitContext) (t : Transaction) (conflict : Option ConflictState) (commitTs : Timestamp) : Bool :=
  decide (t.state = .active) && (t.validate ctx conflict commitTs).2.isNone &&
    (stageAll ctx.stageCounter (t.rowCounterStages.entries.map fun entry => (entry.1,entry.2))).isOk &&
    match t.walPlan ctx with
    | none => true
    | some (wal,ops) => (wal.stage ops).isOk

end Transaction

section
variable {km : Option KeyManager} {m : SnapshotManager} {store : Store} {table : TableName} {row : RowId}
  {h : RowHistory} {ts : Timestamp} {ctx : CommitContext} {t : Transaction}

/-- What a commit of rows does, seen from one row. -/
structure CommitStep (km : Option KeyManager) (ctx : CommitContext) (m : SnapshotManager) (store : Store)
    (table : TableName) (row : RowId) (h' : RowHistory) (batch : WriteBatch) : Prop where
  keepsMeta : KeepsMeta batch
  represents : Represents km m (store.write batch) table row h'
  flagged : ∀ e, HasEvent (store.write batch) table row e true →
    HasEvent store table row e true ∨ ctx.elide m = true

theorem Transaction.RowsOnly.lead {P : TableName → RowId → Prop} (hr : t.RowsOnly P) :
    (∀ entry ∈ t.freshInserts, dataPrefix <+: entry.1) ∧ ∀ entry ∈ t.stagedEntries, dataPrefix <+: entry.1 := by
  refine ⟨fun entry he => ?_,fun entry he => ?_⟩
  · obtain ⟨other,row',hkey,-⟩ := hr.inserts entry (mem_filter.mp he).1
    rw [hkey]
    exact prefix_append _ _
  · have hkey : entry.1 ∈ t.writeSet := by
      rw [AList.mem_keys,← t.stagedEntries_keys]
      exact mem_map_of_mem he
    obtain ⟨other,row',hkey,-⟩ := hr.writes entry.1 hkey
    rw [hkey]
    exact prefix_append _ _

theorem Represents.buildBatch (hr : Represents km m store table row h) (hc : ctx.Sound km) (hro : row ≤ u64Max)
    (hnew : ∀ event ∈ h.events, event.1 < ts) (hts : ts < versionValueElidedFlag)
    (ha : ∀ e, HasEvent store table row e true → m.maybeElidedRows = true) (hrw : t.RowsOnly (Quiet m table row))
    (hfr : ∀ value, (dataKey table.bytes row,value) ∈ t.insertLog → h.events = []) :
    ∃ rows, (∀ tail, InSpaces IsLog tail → CommitStep km ctx m store table row
        (h.apply (versionedTable table.bytes) ts (t.staged (dataKey table.bytes row))) (rows ++ tail)) ∧
      ctx.buildBatch m (.healthy store) ts t =
        (stageAll ctx.stageCounter (t.rowCounterStages.entries.map fun entry => (entry.1,entry.2))).map (rows ++ ·) := by
  obtain ⟨inserts,writes,before,own,after,hi,hw,hsp,hba,haa,hrp,hf⟩ :=
    hr.stageRows hc hro hnew hts ha hrw hfr
  obtain ⟨hl,hld⟩ := hrw.lead
  have hm : KeepsMeta (inserts ++ writes) :=
    (stageAll_inSpaces (fun entry he own ho => keepsMeta_stageInsert (hl entry he) ho) hi).append
      (stageAll_inSpaces (fun entry he own ho => keepsMeta_stageWrite (hld entry he) ho) hw)
  refine ⟨inserts ++ writes,fun tail htl => ?_,?_⟩
  · have hs' : inserts ++ writes ++ tail = before ++ (own ++ (after ++ tail)) := by
      rw [hsp]
      simp only [append_assoc]
    obtain ⟨hr',hf'⟩ := represents_own hba (haa.append (htl.avoids table row)) hrp hf
    refine ⟨hm.append (htl.mono fun space hs => not_isMeta (.inr (.inr (.inr hs)))),?_,?_⟩
    · rw [hs']
      exact hr'
    · rw [hs']
      exact hf'
  · simp only [CommitContext.buildBatch,hi,hw,bind,Except.bind]
    cases stageAll ctx.stageCounter (t.rowCounterStages.entries.map fun entry => (entry.1,entry.2)) <;> rfl

/-- A commit succeeds or fails whatever the rows hold. When it succeeds, the row's
history takes the staged step, else the database stays as it is. -/
theorem Represents.commit (hr : Represents km m store table row h) (hc : ctx.Sound km) (hro : row ≤ u64Max)
    (hnew : ∀ event ∈ h.events, event.1 < ts) (hts : ts < versionValueElidedFlag)
    (har : ∀ e, HasEvent store table row e true → m.maybeElidedRows = true) (hrw : t.RowsOnly (Quiet m table row))
    (hf : ∀ value, (dataKey table.bytes row,value) ∈ t.insertLog → h.events = [])
    (conflict : Option ConflictState) (locks : LockManager) : (t.commits ctx conflict ts = true ∧ ∃ batch,
      (t.commitWithTimestamp ctx m (.healthy store) conflict locks ts).result = .ok () ∧
      (t.commitWithTimestamp ctx m (.healthy store) conflict locks ts).db = .healthy (store.write batch) ∧
      CommitStep km ctx m store table row (h.apply (versionedTable table.bytes) ts (t.staged (dataKey table.bytes row))) batch) ∨
    (t.commits ctx conflict ts = false ∧
      (∃ error, (t.commitWithTimestamp ctx m (.healthy store) conflict locks ts).result = .error error) ∧
      (t.commitWithTimestamp ctx m (.healthy store) conflict locks ts).db = .healthy store) := by
  obtain ⟨rows,hs,hb⟩ := hr.buildBatch hc hro hnew hts har hrw hf
  unfold commits commitWithTimestamp
  by_cases ha : t.state = .active
  · cases hv : t.validate ctx conflict ts with
    | mk conflict' found =>
      cases found with
      | some key => exact .inr (by simp [ha])
      | none =>
        cases hcs : stageAll ctx.stageCounter (t.rowCounterStages.entries.map fun entry => (entry.1,entry.2)) with
        | error exit =>
          rw [hcs] at hb
          cases exit <;> exact .inr (by simp [ha,hb,Except.map,Except.isOk,Except.toBool])
        | ok counters =>
          rw [hcs] at hb
          have hl : InSpaces IsLog counters :=
            stageAll_inSpaces (fun entry _ own ho => isLog_stageCounter ho) hcs
          cases hw : t.walPlan ctx with
          | none =>
            exact .inl ⟨by simp [ha,Except.isOk,Except.toBool],rows ++ counters,
              by simp [ha,hb,Except.map,applyBatch,hc.fsync],
              by simp [ha,hb,Except.map,applyBatch,hc.fsync],hs _ hl⟩
          | some plan =>
            obtain ⟨wal,ops⟩ := plan
            cases hst : wal.stage ops with
            | error e =>
              exact .inr (by simp [ha,hb,hst,Except.map,Except.isOk,Except.toBool])
            | ok entries =>
              refine .inl ⟨by simp [ha,hst,Except.isOk,Except.toBool],rows ++ (counters ++ entries),
                by simp [ha,hb,hst,Except.map,applyBatch,hc.fsync],
                by simp [ha,hb,hst,Except.map,applyBatch,hc.fsync],
                hs _ (hl.append (isLog_walStage hst))⟩
  · exact .inr (by simp [ha])

end
end HeliosNano.Storage
