import HeliosNano.Storage.RowSteps

namespace HeliosNano.Storage
open Foundation List Option AList Transaction CommitContext Map SnapshotManager

/-- Versions are kept for tables with a name that has no separator. -/
def versionedTable (table : Bytes) : Bool := decide (table ≠ [] ∧ colon ∉ table)

/-- What a commit does to a key: the write set goes before the insert log. -/
def Transaction.staged (t : Transaction) (key : Key) : Option (Option Bytes) :=
  match t.writeSet.lookup key with
  | some staged => some staged
  | none => (t.insertLog.find? fun entry => entry.1 == key).map fun entry => some entry.2

def RowHistory.apply (h : RowHistory) (versioned : Bool) (ts : Timestamp) : Option (Option Bytes) → RowHistory
  | none => h
  | some none => h.delete
  | some (some value) => h.put versioned ts value

/-- The transaction stages rows and nothing else, and inserts no row twice. -/
structure Transaction.RowsOnly (t : Transaction) (P : TableName → RowId → Prop) : Prop where
  writes : ∀ key ∈ t.writeSet, ∃ table row, key = dataKey table.bytes row ∧ row ≤ u64Max ∧ P table row
  inserts : ∀ entry ∈ t.insertLog, ∃ table row, entry.1 = dataKey table.bytes row ∧ row ≤ u64Max ∧ P table row
  distinct : (t.insertLog.map (·.1)).Nodup

/-- A commit of a versioning transaction whose cipher and fsync work. -/
structure CommitContext.Sound (ctx : CommitContext) (km : Option KeyManager) : Prop where
  sealing : SoundSeal km
  keyManager : ctx.keyManager = km
  versioning : ctx.versioningEnabled = true
  fsync : ctx.groupFsyncError = none

/-- A table whose index keys would lie in the range of the row has no marker over its
own row. -/
def Quiet (m : SnapshotManager) (table : TableName) (row : RowId) (other : TableName) (row' : RowId) : Prop :=
  Aliases other.bytes table.bytes row → m.copyMarkers.coveringTs other.bytes row' = none

def Avoids (table : TableName) (row : RowId) (batch : WriteBatch) : Prop := ∀ op ∈ batch, ¬RowKey table row op.key

section
variable {table : TableName} {row : RowId} {store : Store}
variable {key : Key}

theorem Avoids.lookup {batch : WriteBatch} (h : Avoids table row batch) (hk : RowKey table row key) :
    (store.write batch).lookup key = store.lookup key := by
  refine lookup_write_of_not_mem store fun op hop he => ?_
  exact h op hop (he ▸ hk)

theorem Avoids.append {a b : WriteBatch} (ha : Avoids table row a) (hb : Avoids table row b) : Avoids table row (a ++ b) := by
  intro op hop
  rcases mem_append.mp hop with hop | hop
  · exact ha op hop
  · exact hb op hop

theorem lookup_own {before own after : WriteBatch} (hb : Avoids table row before) (ha : Avoids table row after)
    (hk : RowKey table row key) : (store.write (before ++ (own ++ after))).lookup key = (store.write own).lookup key := by
  rw [write_append,write_append,ha.lookup hk]
  exact lookup_write_congr (hb.lookup hk) own

theorem not_rowKey_of_keyspace {space : Keyspace} (hd : space ≠ .data) (hv : space ≠ .version) (hi : space ≠ .index)
    (rest : Bytes) : ¬RowKey table row (space.lead ++ rest) := by
  rintro (h | ⟨ts,h⟩ | ⟨tail,h⟩)
  · exact keyspace_disjoint (show space ≠ Keyspace.data from hd) _ _ h
  · exact keyspace_disjoint (show space ≠ Keyspace.version from hv) _ _ h
  · rw [index_range_eq] at h
    exact keyspace_disjoint (show Keyspace.index ≠ space from Ne.symm hi) _ _ h

end

section
variable {table other : TableName} {row row' : RowId}
variable (hne : ¬(other = table ∧ row' = row))
include hne

theorem not_rowKey_dataKey : ¬RowKey table row (dataKey other.bytes row') := by
  rintro (h | ⟨ts,h⟩ | ⟨tail,h⟩)
  · obtain ⟨ht,hr⟩ := dataKey_inj h
    exact hne ⟨TableName.ext ht,hr⟩
  · exact dataKey_ne_versionKey _ _ _ _ _ h
  · exact index_range_ne_dataKey _ _ _ _ _ h

theorem not_rowKey_versionKey (ts : Timestamp) : ¬RowKey table row (versionKey other.bytes row' ts) := by
  rintro (h | ⟨ts',h⟩ | ⟨tail,h⟩)
  · exact dataKey_ne_versionKey _ _ _ _ _ h.symm
  · obtain ⟨ht,hr,-⟩ := versionKey_inj h
    exact hne ⟨TableName.ext ht,hr⟩
  · exact index_range_ne_versionKey _ _ _ _ _ _ h

theorem not_rowKey_indexKey
    (hal : ¬Aliases other.bytes table.bytes row) (ts : Timestamp) : ¬RowKey table row (indexKey other.bytes row' ts) := by
  rintro (h | ⟨ts',h⟩ | hp)
  · exact dataKey_ne_indexKey _ _ _ _ _ h.symm
  · exact versionKey_ne_indexKey _ _ _ _ _ _ h.symm
  · rcases indexPrefix_cases hp with ⟨ht,hr⟩ | ha
    · exact hne ⟨TableName.ext ht.symm,hr.symm⟩
    · exact hal ha

end

section
variable {km : Option KeyManager} {m : SnapshotManager} {store : Store} {table : TableName} {row : RowId}
  {h : RowHistory} {ts : Timestamp} {ctx : CommitContext}

def versionOps (table : TableName) (row : RowId) (elide : Bool) (ts : Timestamp) (stored : Bytes) : WriteBatch :=
  if versionedTable table.bytes then
    (if elide then [] else [.put (versionKey table.bytes row ts) stored]) ++
      [.put (indexKey table.bytes row ts) (encodeVersionIndexValue ts elide)]
  else []

theorem putVersionIndexBatch_dataKey (table : TableName) (row : RowId) (elide : Bool) (ts : Timestamp) (stored : Bytes) :
    putVersionIndexBatch (dataKey table.bytes row) stored elide ts = versionOps table row elide ts stored := by
  unfold putVersionIndexBatch versionOps versionedTable
  by_cases hc : colon ∈ table.bytes
  · simp [versionedRow_of_colon hc,hc]
  by_cases hn : table.bytes = []
  · simp [hn,versionedRow_nil]
  · rw [versionedRow_dataKey hn hc]
    simp only [hn,hc,ne_eq,not_false_eq_true,and_self,decide_true,if_true,indexKey_eq]
    rfl

theorem putRow_dataKey (m : SnapshotManager) (ts : Timestamp) (hc : ctx.Sound km) (table : TableName) (row : RowId)
    (value : Bytes) : ∃ stored, openOwned km stored = value ∧ ctx.putRow m ts (dataKey table.bytes row) value =
      .ok (.put (dataKey table.bytes row) stored :: versionOps table row (ctx.elide m) ts stored) := by
  obtain ⟨stored, hs, hopen⟩ := hc.sealing.seal_open (dataKey table.bytes row) value
  refine ⟨stored, hopen,?_⟩
  simp [putRow,putVersionedBatch,sealRowValue,isRowValueKey_dataKey,hc.keyManager, hs,
    hc.versioning,putVersionIndexBatch_dataKey,bind,Except.bind]

theorem Materialized.put (hm : Materialized km m store table row h) (ho : h.Ordered)
    (hb : ∀ event ∈ h.events, event.1 < versionValueElidedFlag) (hnew : ∀ event ∈ h.events, event.1 < ts)
    (hts : ts < versionValueElidedFlag) (elide : Bool) {stored value : Bytes} (hopen : openOwned km stored = value) :
    Represents km m (store.write (.put (dataKey table.bytes row) stored :: versionOps table row elide ts stored))
      table row (h.put (versionedTable table.bytes) ts value) ∧
    ∀ e, HasEvent (store.write (.put (dataKey table.bytes row) stored :: versionOps table row elide ts stored))
      table row e true → elide = true := by
  have hu : ∀ e, ¬HasEvent store table row e true := by
    intro e hev
    obtain ⟨v,hmm⟩ := hm.recorded e true hev
    exact absurd ((hm.copies _ hmm).1.unique hev) (by simp)
  by_cases hvt : versionedTable table.bytes = true
  · have hc : colon ∉ table.bytes := (of_decide_eq_true hvt).2
    have hrc : Records store (store.write (.put (dataKey table.bytes row) stored ::
        versionOps table row elide ts stored)) table row ts (if elide then none else some stored) := by
      refine ⟨hts,fun rest => ?_,fun e => ?_⟩
      · cases elide <;>
          simp [versionOps,hvt,write_cons,lookup_apply_put,index_range_eq_indexKey,
            index_range_ne_versionKey,index_range_ne_dataKey]
      · have hkey : versionKey table.bytes row e = versionKey table.bytes row ts ↔ e = ts :=
          ⟨fun he => (versionKey_inj he).2.2,fun he => he ▸ rfl⟩
        cases elide <;>
          simp [versionOps,hvt,write_cons,lookup_apply_put,versionKey_ne_indexKey,hkey,
            (dataKey_ne_versionKey _ _ _ _ _).symm]
    have hd : (store.write (.put (dataKey table.bytes row) stored ::
        versionOps table row elide ts stored)).lookup (dataKey table.bytes row) = some stored := by
      cases elide <;>
        simp [versionOps,hvt,write_cons,lookup_apply_put,dataKey_ne_indexKey,dataKey_ne_versionKey]
    rw [hvt]
    refine ⟨hm.record ho hb hnew hrc ?_ hd hopen,fun e hev => ?_⟩
    · cases elide
      · exact .inl rfl
      · exact .inr ⟨rfl,hc⟩
    · rw [hrc.hasEvent] at hev
      by_cases he : e = ts
      · rw [if_pos he] at hev
        cases elide
        · simp at hev
        · rfl
      · rw [if_neg he] at hev
        exact absurd hev (hu e)
  · have hvt' : versionedTable table.bytes = false := by simpa using hvt
    have hop : versionOps table row elide ts stored = [] := by simp [versionOps,hvt']
    rw [hop,hvt']
    have hs : ∀ key, RowKey table row key → key ≠ dataKey table.bytes row →
        (store.write [.put (dataKey table.bytes row) stored]).lookup key = store.lookup key := by
      intro key _ hne
      rw [write_cons,write_nil,lookup_apply_put,if_neg hne]
    have hr := hm.setData ho hb (some value) hs (by simp [write_cons,lookup_apply_put, hopen])
    refine ⟨hr,fun e hev => absurd ?_ (hu e)⟩
    unfold HasEvent at hev ⊢
    rwa [indexKey,hs _ (.inr (.inr (prefix_append _ _))) (index_range_ne_dataKey _ _ _ _ _)] at hev

theorem Materialized.deleteRow (hm : Materialized km m store table row h) (ho : h.Ordered)
    (hb : ∀ event ∈ h.events, event.1 < versionValueElidedFlag) :
    Represents km m (store.write [.delete (dataKey table.bytes row)]) table row h.delete ∧
    ∀ e, ¬HasEvent (store.write [.delete (dataKey table.bytes row)]) table row e true := by
  have hs : ∀ key, RowKey table row key → key ≠ dataKey table.bytes row →
      (store.write [.delete (dataKey table.bytes row)]).lookup key = store.lookup key := by
    intro key _ hne
    rw [write_cons,write_nil,lookup_apply_delete,if_neg hne]
  refine ⟨hm.setData ho hb none hs (by simp [write_cons,lookup_apply_delete]),fun e hev => ?_⟩
  unfold HasEvent at hev
  rw [indexKey,hs _ (.inr (.inr (prefix_append _ _))) (index_range_ne_dataKey _ _ _ _ _)] at hev
  obtain ⟨v,hmm⟩ := hm.recorded e true hev
  exact absurd ((hm.copies _ hmm).1.unique hev) (by simp)

end

section
variable {km : Option KeyManager} {m : SnapshotManager} {store : Store} {table other : TableName} {row row' : RowId}
  {h : RowHistory} {ts : Timestamp} {ctx : CommitContext}

theorem avoids_versionOps (hne : ¬(other = table ∧ row' = row)) (elide : Bool) (stored : Bytes) :
    Avoids table row (versionOps other row' elide ts stored) := by
  intro op hop
  unfold versionOps at hop
  split at hop
  next hv =>
    have hal : ¬Aliases other.bytes table.bytes row := fun ha => (of_decide_eq_true hv).2 (colon_mem_of_aliases ha)
    rcases mem_append.mp hop with hop | hop
    · cases elide with
      | true => simp at hop
      | false =>
        rw [mem_singleton.mp hop]
        exact not_rowKey_versionKey hne ts
    · rw [mem_singleton.mp hop]
      exact not_rowKey_indexKey hne hal ts
  · simp at hop

theorem materializeCopyMarkerRow_healthy (store : Store) (ts : Timestamp) (hne : ¬(other = table ∧ row' = row))
    (hqt : Quiet m table row other row') :
    ∃ ops, m.materializeCopyMarkerRow (.healthy store) other.bytes row' ts = .ok ops ∧ Avoids table row ops := by
  unfold materializeCopyMarkerRow
  split
  · exact ⟨[],rfl,by simp [Avoids]⟩
  next markerTs hm =>
    have hal : ¬Aliases other.bytes table.bytes row := fun ha => by simp [hqt ha] at hm
    split
    · exact ⟨[],rfl,by simp [Avoids]⟩
    simp only [readKey,Db.healthy_get,bind,Except.bind]
    split
    · refine ⟨_,rfl,fun op hop => ?_⟩
      rcases mem_cons.mp hop with rfl | hop
      · exact not_rowKey_versionKey hne markerTs
      · rw [mem_singleton.mp hop]
        exact not_rowKey_indexKey hne hal markerTs
    · exact ⟨[],rfl,by simp [Avoids]⟩

theorem Represents.not_found_by_other (hr : Represents km m store table row h) (hne : ¬(other = table ∧ row' = row))
    {key : Key} {value : Bytes} {e : Timestamp} (hp : indexPrefix other.bytes row' <+: key)
    (hl : store.lookup key = some value) (hd : decodeVersionIndexValue value = some (e,true)) : ¬RowKey table row key := by
  rintro (rfl | ⟨ts',rfl⟩ | ⟨rest,rfl⟩)
  · obtain ⟨tail,htl⟩ := hp
    exact index_range_ne_dataKey _ _ _ _ _ htl
  · obtain ⟨tail,htl⟩ := hp
    exact index_range_ne_versionKey _ _ _ _ _ _ htl
  · obtain ⟨e',elided,hle,rfl,hd'⟩ := hr.clean rest value hl
    rw [hd,some.injEq,Prod.mk.injEq] at hd'
    obtain ⟨rfl,rfl⟩ := hd'
    have hev : HasEvent store table row e true := ⟨hle,value,hl,hd⟩
    have hcl : colon ∉ table.bytes := by
      rcases hr.versions with ⟨_,_,_,_,_,hno⟩ | hi
      · exact absurd hev (hno e true)
      obtain ⟨v,hm⟩ := hi.recorded e true hev
      rcases hi.stored _ hm with hc | ⟨-,-,-,hcl⟩
      · exact absurd (hc.1.unique hev) (by simp)
      · exact hcl
    rcases indexPrefix_cases (show indexPrefix other.bytes row' <+: indexKey table.bytes row e from hp) with
      ⟨ht,hrw⟩ | ha
    · exact hne ⟨TableName.ext ht,hrw⟩
    · exact hcl (colon_mem_of_aliases ha)

theorem materializeElided_healthy (hr : Represents km m store table row h) (hne : ¬(other = table ∧ row' = row)) :
    ∃ ops, materializeElidedLatestVersion (.healthy store) other.bytes row' = .ok ops ∧ Avoids table row ops := by
  unfold materializeElidedLatestVersion findFlaggedLatestVersion
  rw [Db.healthy_next]
  cases hh : (store.iterFrom (indexPrefix other.bytes row')).head? with
  | none => exact ⟨[],rfl,by simp [Avoids]⟩
  | some entry =>
    obtain ⟨key,value⟩ := entry
    simp only [map_some]
    split
    next hp =>
      cases hd : decodeVersionIndexValue value with
      | none => exact ⟨[],rfl,by simp [Avoids]⟩
      | some event =>
        obtain ⟨e,elided⟩ := event
        cases elided with
        | false => exact ⟨[],rfl,by simp [Avoids]⟩
        | true =>
          simp only [bind,Except.bind,readKey,Db.healthy_get]
          split
          · refine ⟨_,rfl,fun op hop => ?_⟩
            rcases mem_cons.mp hop with rfl | hop
            · exact not_rowKey_versionKey hne e
            · rw [mem_singleton.mp hop]
              exact hr.not_found_by_other hne hp (iterFrom_head hh).1 hd
          · exact ⟨[],rfl,by simp [Avoids]⟩
    · exact ⟨[],rfl,by simp [Avoids]⟩

theorem Represents.preImages_other (ctx : CommitContext) (ts : Timestamp) (hr : Represents km m store table row h)
    (hne : ¬(other = table ∧ row' = row)) (hqt : Quiet m table row other row') (hrw : row' ≤ u64Max) :
    ∃ ops, ctx.preImages m (.healthy store) ts (dataKey other.bytes row') = .ok ops ∧ Avoids table row ops := by
  obtain ⟨marker,hm,hma⟩ := materializeCopyMarkerRow_healthy store ts hne hqt
  obtain ⟨elided,hel,hea⟩ := materializeElided_healthy hr hne
  have hp := parseRowKey_dataKey other hrw
  refine ⟨(if ctx.checkCopyMarkers m then marker else []) ++ (if ctx.checkElided m then elided else []),?_,?_⟩
  · cases hc : ctx.checkCopyMarkers m <;> cases he : ctx.checkElided m <;>
      simp [CommitContext.preImages,materializeEntry,hc,he,hp,hm,hel,bind,Except.bind]
  · refine Avoids.append ?_ ?_
    · split
      · exact hma
      · simp [Avoids]
    · split
      · exact hea
      · simp [Avoids]

end

section
variable {km : Option KeyManager} {m : SnapshotManager} {store : Store} {table other : TableName} {row row' : RowId}
  {h : RowHistory} {ts : Timestamp} {ctx : CommitContext}

theorem stageInsert_other (hc : ctx.Sound km) (hne : ¬(other = table ∧ row' = row)) (value : Bytes) :
    ∃ ops, ctx.stageInsert m ts (dataKey other.bytes row',value) = .ok ops ∧ Avoids table row ops := by
  obtain ⟨stored,-,hp⟩ := putRow_dataKey m ts hc other row' value
  refine ⟨_,by rw [stageInsert,hp]; rfl,fun op hop => ?_⟩
  rcases mem_cons.mp hop with rfl | hop
  · exact not_rowKey_dataKey hne
  · exact avoids_versionOps hne _ stored op hop

variable (hr : Represents km m store table row h)
include hr

theorem Represents.stageWrite_other (hc : ctx.Sound km)
    (hne : ¬(other = table ∧ row' = row)) (hqt : Quiet m table row other row') (hrw : row' ≤ u64Max) (staged : Option Bytes) :
    ∃ ops, ctx.stageWrite m (.healthy store) ts (dataKey other.bytes row',staged) = .ok ops ∧ Avoids table row ops := by
  obtain ⟨pre,hp,hpa⟩ := hr.preImages_other ctx ts hne hqt hrw
  cases staged with
  | none =>
    refine ⟨pre ++ [.delete (dataKey other.bytes row')],?_,hpa.append fun op hop => ?_⟩
    · simp [stageWrite,hp,Except.mapError,bind,Except.bind]
    · rw [mem_singleton.mp hop]
      exact not_rowKey_dataKey hne
  | some value =>
    obtain ⟨stored,-,hpt⟩ := putRow_dataKey m ts hc other row' value
    refine ⟨_,by simp [stageWrite,hp,hpt,Except.mapError,bind,Except.bind]; rfl,
      hpa.append fun op hop => ?_⟩
    rcases mem_cons.mp hop with rfl | hop
    · exact not_rowKey_dataKey hne
    · exact avoids_versionOps hne _ stored op hop

theorem Represents.stageWrite_own (hc : ctx.Sound km) (hrw : row ≤ u64Max)
    (hnew : ∀ event ∈ h.events, event.1 < ts) (hts : ts < versionValueElidedFlag)
    (ha : ∀ e, HasEvent store table row e true → m.maybeElidedRows = true) (staged : Option Bytes) :
    ∃ ops, ctx.stageWrite m (.healthy store) ts (dataKey table.bytes row,staged) = .ok ops ∧
      Represents km m (store.write ops) table row (h.apply (versionedTable table.bytes) ts (some staged)) ∧
      ∀ e, HasEvent (store.write ops) table row e true → ctx.elide m = true := by
  obtain ⟨pre,hp,-,hm⟩ := hr.preImages hc.versioning hrw hnew ha
  cases staged with
  | none =>
    refine ⟨pre ++ [.delete (dataKey table.bytes row)],?_,?_⟩
    · simp [stageWrite,hp,Except.mapError,bind,Except.bind]
    · rw [write_append]
      obtain ⟨hrp,hno⟩ := hm.deleteRow hr.ordered hr.bounded
      exact ⟨hrp,fun e hev => absurd hev (hno e)⟩
  | some value =>
    obtain ⟨stored, hopen,hpt⟩ := putRow_dataKey m ts hc table row value
    refine ⟨pre ++ (.put (dataKey table.bytes row) stored :: versionOps table row (ctx.elide m) ts stored),?_,?_⟩
    · simp [stageWrite,hp,hpt,Except.mapError,bind,Except.bind]
    · rw [write_append]
      exact hm.put hr.ordered hr.bounded hnew hts (ctx.elide m) hopen

theorem Represents.materialized_of_empty (hn : h.events = []) : Materialized km m store table row h := by
  rcases hr.versions with ⟨ts,value,he,-⟩ | hi
  · simp [hn] at he
  · refine hi.materialized_of_copies hr.clean fun e hev => ?_
    obtain ⟨v,hm⟩ := hi.recorded e true hev
    simp [hn] at hm

theorem Represents.stageInsert_own (hc : ctx.Sound km) (hn : h.events = [])
    (hts : ts < versionValueElidedFlag) (value : Bytes) : ∃ ops, ctx.stageInsert m ts (dataKey table.bytes row,value) = .ok ops ∧
      Represents km m (store.write ops) table row (h.apply (versionedTable table.bytes) ts (some (some value))) ∧
      ∀ e, HasEvent (store.write ops) table row e true → ctx.elide m = true := by
  obtain ⟨stored, hopen,hp⟩ := putRow_dataKey m ts hc table row value
  refine ⟨_,by rw [stageInsert,hp]; rfl,?_⟩
  exact (hr.materialized_of_empty hn).put hr.ordered hr.bounded (by simp [hn]) hts (ctx.elide m) hopen

variable {α ε : Type} {own : WriteBatch} {key : Key}

omit hr in
theorem stageAll_avoids (stage : α → Except ε WriteBatch) (xs : List α)
    (h : ∀ x ∈ xs, ∃ ops, stage x = .ok ops ∧ Avoids table row ops) :
    ∃ batch, stageAll stage xs = .ok batch ∧ Avoids table row batch := by
  obtain ⟨batch,hb⟩ := (stageAll_ok_iff xs).mpr fun x hx => (h x hx).imp fun _ ho => ho.1
  refine ⟨batch,hb,stageAll_forall (P := fun op => ¬RowKey table row op.key) (fun x hx own how => ?_) hb⟩
  obtain ⟨ops,hop,ha⟩ := h x hx
  rw [how,Except.ok.injEq] at hop
  rw [hop]
  exact ha

omit hr in
theorem stageAll_one (stage : α → Except ε WriteBatch) {before after : List α} {x : α}
    (hb : ∀ y ∈ before, ∃ ops, stage y = .ok ops ∧ Avoids table row ops)
    (ha : ∀ y ∈ after, ∃ ops, stage y = .ok ops ∧ Avoids table row ops) (hx : stage x = .ok own) :
    ∃ first last, stageAll stage (before ++ x::after) = .ok (first ++ (own ++ last)) ∧
      Avoids table row first ∧ Avoids table row last := by
  obtain ⟨first,hfs,hfa⟩ := stageAll_avoids stage before hb
  obtain ⟨last,hls,hla⟩ := stageAll_avoids stage after ha
  obtain ⟨batch,hbt⟩ := (stageAll_ok_iff (before ++ x::after)).mpr fun y hy => by
    rcases mem_append.mp hy with hy | hy
    · exact (hb y hy).imp fun _ ho => ho.1
    · rcases mem_cons.mp hy with rfl | hy
      · exact ⟨own,hx⟩
      · exact (ha y hy).imp fun _ ho => ho.1
  obtain ⟨first',own',last',hf,ho,hl,rfl⟩ := stageAll_split hbt
  rw [hfs,Except.ok.injEq] at hf
  rw [hx,Except.ok.injEq] at ho
  rw [hls,Except.ok.injEq] at hl
  subst hf ho hl
  exact ⟨first,last,hbt,hfa,hla⟩

omit hr in
theorem represents_own {before after : WriteBatch} {h' : RowHistory} (hb : Avoids table row before)
    (ha : Avoids table row after) (hr : Represents km m (store.write own) table row h') {P : Timestamp → Prop}
    (hf : ∀ e, HasEvent (store.write own) table row e true → P e) :
    Represents km m (store.write (before ++ (own ++ after))) table row h' ∧
      ∀ e, HasEvent (store.write (before ++ (own ++ after))) table row e true → P e := by
  have hs : ∀ key, RowKey table row key →
      (store.write (before ++ (own ++ after))).lookup key = (store.write own).lookup key :=
    fun key hk => lookup_own hb ha hk
  exact ⟨hr.congr hs rfl,fun e hev => hf e ((HasEvent.congr hs).mp hev)⟩

variable {t : Transaction}

omit hr in
theorem stageInsert_entry (hc : ctx.Sound km) (hr : t.RowsOnly (Quiet m table row))
    {entry : Key × Bytes} (he : entry ∈ t.insertLog) (hne : entry.1 ≠ dataKey table.bytes row) :
    ∃ ops, ctx.stageInsert m ts entry = .ok ops ∧ Avoids table row ops := by
  obtain ⟨key,value⟩ := entry
  obtain ⟨other,row',rfl,-⟩ := hr.inserts _ he
  exact stageInsert_other hc (fun hsame => hne (by rw [hsame.1,hsame.2])) value

omit hr in
theorem Transaction.stagedEntries_keys (t : Transaction) : t.stagedEntries.map (·.1) = t.writeSet.keys := by
  simp [stagedEntries,AList.keys,List.keys,Function.comp_def]

theorem Represents.stageWrite_entry (hc : ctx.Sound km) (hrw : t.RowsOnly (Quiet m table row)) {entry : Key × Option Bytes}
    (he : entry ∈ t.stagedEntries) (hne : entry.1 ≠ dataKey table.bytes row) :
    ∃ ops, ctx.stageWrite m (.healthy store) ts entry = .ok ops ∧ Avoids table row ops := by
  obtain ⟨key,staged⟩ := entry
  have hkey : key ∈ t.writeSet := by
    rw [AList.mem_keys,← t.stagedEntries_keys]
    exact mem_map.mpr ⟨_,he,rfl⟩
  obtain ⟨other,row',rfl,hle,hqt⟩ := hrw.writes _ hkey
  exact hr.stageWrite_other hc (fun hsame => hne (by rw [hsame.1,hsame.2])) hqt hle staged

omit hr in
theorem staged_of_insert {P : TableName → RowId → Prop} (hr : t.RowsOnly P) {value : Bytes}
    (hn : t.writeSet.lookup key = none) (hm : (key,value) ∈ t.insertLog) : t.staged key = some (some value) := by
  obtain ⟨found,hf⟩ : ∃ found, t.insertLog.find? (fun entry => entry.1 == key) = some found := by
    rw [← isSome_iff_exists,find?_isSome]
    exact ⟨_,hm,by simp⟩
  have hkey : found.1 = key := by simpa using find?_some hf
  have hsame : found = (key,value) :=
    inj_on_of_nodup_map hr.distinct (mem_of_find?_eq_some hf) hm hkey
  simp [staged,hn,hf,hsame]

omit hr in
theorem staged_eq_none (hnt : t.writeSet.lookup key = none)
    (hin : ∀ value, (key,value) ∉ t.insertLog) : t.staged key = none := by
  have hn : t.insertLog.find? (fun entry => entry.1 == key) = none := by
    rw [find?_eq_none]
    intro entry he heq
    have hkey : entry.1 = key := by simpa using heq
    exact hin entry.2 (hkey ▸ he)
  simp [staged,hnt,hn]

theorem Represents.stageRows (hc : ctx.Sound km) (hro : row ≤ u64Max)
    (hnew : ∀ event ∈ h.events, event.1 < ts) (hts : ts < versionValueElidedFlag)
    (har : ∀ e, HasEvent store table row e true → m.maybeElidedRows = true) (hrw : t.RowsOnly (Quiet m table row))
    (hfs : ∀ value, (dataKey table.bytes row,value) ∈ t.insertLog → h.events = []) :
    ∃ inserts writes before own after, stageAll (ctx.stageInsert m ts) t.freshInserts = .ok inserts ∧
      stageAll (ctx.stageWrite m (.healthy store) ts) t.stagedEntries = .ok writes ∧
      inserts ++ writes = before ++ (own ++ after) ∧ Avoids table row before ∧ Avoids table row after ∧
      Represents km m (store.write own) table row (h.apply (versionedTable table.bytes) ts (t.staged (dataKey table.bytes row))) ∧
      ∀ e, HasEvent (store.write own) table row e true → HasEvent store table row e true ∨ ctx.elide m = true := by
  have hsb : ∀ entry ∈ t.freshInserts, entry ∈ t.insertLog ∧ entry.1 ∉ t.writeSet := by
    intro entry he
    exact ⟨(mem_filter.mp he).1,of_decide_eq_true (mem_filter.mp he).2⟩
  cases hl : t.writeSet.lookup (dataKey table.bytes row) with
  | some staged =>
    -- The row is in the write set: its insert, if any, is skipped.
    have hm : (dataKey table.bytes row,staged) ∈ t.stagedEntries :=
      mem_map.mpr ⟨⟨_,_⟩,mem_lookup_iff.mp hl,rfl⟩
    obtain ⟨before,after,hs,hb,ha⟩ :=
      exists_split_of_nodup_keys (t.stagedEntries_keys ▸ t.writeSet.keys_nodup) hm
    obtain ⟨own,ho,hrp,hf⟩ := hr.stageWrite_own hc hro hnew hts har staged
    obtain ⟨inserts,hi,hia⟩ := stageAll_avoids (ctx.stageInsert m ts) t.freshInserts fun entry he =>
      stageInsert_entry hc hrw (hsb entry he).1 fun heq => by
        refine (hsb entry he).2 (lookup_isSome.mp ?_)
        rw [heq,hl]
        rfl
    obtain ⟨first,last,hw,hfa,hla⟩ := stageAll_one (ctx.stageWrite m (.healthy store) ts)
      (fun y hy => hr.stageWrite_entry hc hrw (hs ▸ mem_append_left _ hy) (hb y hy))
      (fun y hy => hr.stageWrite_entry hc hrw
        (hs ▸ mem_append_right _ (mem_cons_of_mem _ hy)) (ha y hy)) ho
    refine ⟨inserts,_,inserts ++ first,own,last,hi,hs ▸ hw,by rw [append_assoc],
      hia.append hfa,hla,?_,fun e hev => .inr (hf e hev)⟩
    rw [Transaction.staged,hl]
    exact hrp
  | none =>
    have hn : dataKey table.bytes row ∉ t.writeSet := AList.lookup_eq_none.mp hl
    obtain ⟨writes,hw,hwa⟩ := stageAll_avoids (ctx.stageWrite m (.healthy store) ts) t.stagedEntries
      fun entry he => hr.stageWrite_entry hc hrw he fun heq => by
        refine hn (AList.mem_keys.mpr ?_)
        rw [← t.stagedEntries_keys]
        exact mem_map.mpr ⟨entry,he,heq⟩
    by_cases hin : ∃ value, (dataKey table.bytes row,value) ∈ t.insertLog
    · obtain ⟨value,hm⟩ := hin
      have hfr : (dataKey table.bytes row,value) ∈ t.freshInserts :=
        mem_filter.mpr ⟨hm,by simpa using hn⟩
      have hnd : (t.freshInserts.map (·.1)).Nodup :=
        hrw.distinct.sublist (List.Sublist.map _ filter_sublist)
      obtain ⟨before,after,hs,hb,ha⟩ := exists_split_of_nodup_keys hnd hfr
      obtain ⟨own,ho,hrp,hf⟩ := hr.stageInsert_own hc (hfs value hm) hts value
      obtain ⟨first,last,hi,hfa,hla⟩ := stageAll_one (ctx.stageInsert m ts)
        (fun y hy => stageInsert_entry hc hrw
          (hsb y (hs ▸ mem_append_left _ hy)).1 (hb y hy))
        (fun y hy => stageInsert_entry hc hrw
          (hsb y (hs ▸ mem_append_right _ (mem_cons_of_mem _ hy))).1
          (ha y hy)) ho
      refine ⟨_,writes,first,own,last ++ writes,hs ▸ hi,hw,
        by simp only [append_assoc],hfa,hla.append hwa,?_,fun e hev => .inr (hf e hev)⟩
      rw [staged_of_insert hrw hl hm]
      exact hrp
    · obtain ⟨inserts,hi,hia⟩ := stageAll_avoids (ctx.stageInsert m ts) t.freshInserts fun entry he =>
        stageInsert_entry hc hrw (hsb entry he).1 fun heq => hin ⟨entry.2,heq ▸ (hsb entry he).1⟩
      refine ⟨inserts,writes,inserts,[],writes,hi,hw,rfl,hia,hwa,?_,fun e hev => .inl hev⟩
      rw [staged_eq_none hl fun value hv => hin ⟨value,hv⟩]
      exact hr

end
end HeliosNano.Storage
