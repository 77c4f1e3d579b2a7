import HeliosNano.Storage.Commit
import HeliosNano.Storage.RowHistory

namespace HeliosNano.Storage
open Foundation List Option SnapshotManager

/-- One version of the row is recorded anew, with its copy or without. -/
structure Records (store store' : Store) (table : TableName) (row : RowId) (ts : Timestamp)
    (copy : Option Bytes) : Prop where
  bounded : ts < versionValueElidedFlag
  index : ∀ rest, store'.lookup (indexPrefix table.bytes row ++ rest) =
    if rest = reverseText ts then some (encodeVersionIndexValue ts copy.isNone)
    else store.lookup (indexPrefix table.bytes row ++ rest)
  version : ∀ e, store'.lookup (versionKey table.bytes row e) =
    if e = ts ∧ copy ≠ none then copy else store.lookup (versionKey table.bytes row e)

section
variable {km : Option KeyManager} {m : SnapshotManager} {store store' : Store} {table : TableName} {row : RowId}
  {h : RowHistory} {ts : Timestamp} {copy : Option Bytes}

variable (hr : Records store store' table row ts copy)
include hr

theorem Records.clean (hc : CleanIndex store table row) : CleanIndex store' table row := by
  intro rest value hl
  rw [hr.index] at hl
  split at hl
  next hrest =>
    cases hl
    exact ⟨ts,copy.isNone,ts_le_u64Max hr.bounded,hrest,decode_encodeVersionIndexValue hr.bounded _⟩
  · exact hc rest value hl

theorem Records.hasEvent (e : Timestamp) (elided : Bool) : HasEvent store' table row e elided ↔
      if e = ts then elided = copy.isNone else HasEvent store table row e elided := by
  unfold HasEvent
  rw [indexKey,hr.index]
  by_cases he : e = ts
  · subst he
    simp only [if_true,some.injEq,exists_eq_left',decode_encodeVersionIndexValue hr.bounded,
      Prod.mk.injEq,true_and]
    exact ⟨fun hd => hd.2.symm,fun hd => ⟨ts_le_u64Max hr.bounded,hd.symm⟩⟩
  · simp only [if_neg he]
    constructor
    · rintro ⟨hle,hrest⟩
      rw [if_neg fun heq => he (reverseText_inj hle (ts_le_u64Max hr.bounded) heq)] at hrest
      exact ⟨hle,hrest⟩
    · rintro ⟨hle,hrest⟩
      rw [if_neg fun heq => he (reverseText_inj hle (ts_le_u64Max hr.bounded) heq)]
      exact ⟨hle,hrest⟩

theorem Records.hasCopy_of_ne {event : Timestamp × Bytes}
    (hne : event.1 ≠ ts) (hc : HasCopy km store table row event) : HasCopy km store' table row event := by
  refine ⟨(hr.hasEvent _ _).mpr (by rw [if_neg hne]; exact hc.1),?_⟩
  rw [hr.version,if_neg fun he => hne he.1]
  exact hc.2

theorem Records.hasCopy {stored value : Bytes}
    (hc : copy = some stored) (hopen : openOwned km stored = value) : HasCopy km store' table row (ts,value) := by
  subst hc
  refine ⟨(hr.hasEvent _ _).mpr (by simp),?_⟩
  rw [hr.version,if_pos ⟨rfl,by simp⟩]
  simp [hopen]

end

structure Materialized (km : Option KeyManager) (m : SnapshotManager) (store : Store) (table : TableName)
    (row : RowId) (h : RowHistory) : Prop where
  clean : CleanIndex store table row
  recorded : ∀ ts elided, HasEvent store table row ts elided → ∃ value, (ts,value) ∈ h.events
  copies : ∀ event ∈ h.events, HasCopy km store table row event
  unmarked : h.events = [] → m.copyMarkers.coveringTs table.bytes row = none

section
variable {km : Option KeyManager} {m : SnapshotManager} {store store' : Store} {table : TableName} {row : RowId}
  {h : RowHistory} {ts : Timestamp}

theorem Materialized.setData (hm : Materialized km m store table row h) (ho : h.Ordered)
    (hb : ∀ event ∈ h.events, event.1 < versionValueElidedFlag) (current : Option Bytes)
    (hs : ∀ key, RowKey table row key → key ≠ dataKey table.bytes row → store'.lookup key = store.lookup key)
    (hd : (store'.lookup (dataKey table.bytes row)).map (openOwned km) = current) :
    Represents km m store' table row ⟨h.events,current⟩ := by
  have hi : ∀ rest, store'.lookup (indexPrefix table.bytes row ++ rest) =
      store.lookup (indexPrefix table.bytes row ++ rest) := fun rest =>
    hs _ (.inr (.inr (prefix_append _ _))) (index_range_ne_dataKey _ _ _ _ _)
  have hen : ∀ ts elided, HasEvent store' table row ts elided ↔ HasEvent store table row ts elided := by
    intro ts elided
    rw [HasEvent,HasEvent,indexKey,hi]
  refine ⟨fun rest value hl => hm.clean rest value (by rwa [hi] at hl),ho,hb,hd,
    .inr ⟨fun ts elided hev => hm.recorded ts elided ((hen ts elided).mp hev),fun event he => .inl ?_,hm.unmarked⟩⟩
  obtain ⟨hev,hc⟩ := hm.copies event he
  refine ⟨(hen _ _).mpr hev,?_⟩
  rw [hs _ (.inr (.inl ⟨_,rfl⟩)) (dataKey_ne_versionKey _ _ _ _ _).symm,hc]

theorem Materialized.record (hm : Materialized km m store table row h) (ho : h.Ordered)
    (hb : ∀ event ∈ h.events, event.1 < versionValueElidedFlag) (hnew : ∀ event ∈ h.events, event.1 < ts)
    {copy : Option Bytes} {stored value : Bytes} (hr : Records store store' table row ts copy)
    (hc : copy = some stored ∨ copy = none ∧ colon ∉ table.bytes)
    (hd : store'.lookup (dataKey table.bytes row) = some stored) (hopen : openOwned km stored = value) :
    Represents km m store' table row (h.put true ts value) := by
  refine ⟨hr.clean hm.clean,pairwise_cons.mpr ⟨hnew,ho⟩,?_,by simp [hd, hopen,RowHistory.put],.inr ⟨?_,?_,?_⟩⟩
  · exact forall_mem_cons.mpr ⟨hr.bounded,hb⟩
  · intro e elided hev
    rw [hr.hasEvent] at hev
    by_cases he : e = ts
    · exact ⟨value,by simp [RowHistory.put,he]⟩
    · rw [if_neg he] at hev
      obtain ⟨old,hold⟩ := hm.recorded e elided hev
      exact ⟨old,mem_cons_of_mem _ hold⟩
  · intro event he
    rcases mem_cons.mp he with rfl | hold
    · rcases hc with rfl | ⟨rfl,hcl⟩
      · exact .inl (hr.hasCopy rfl hopen)
      · exact .inr ⟨(hr.hasEvent _ _).mpr (by simp),rfl,rfl,hcl⟩
    · exact .inl (hr.hasCopy_of_ne (Nat.ne_of_lt (hnew event hold)) (hm.copies event hold))
  · intro hn
    cases hn

theorem records_write (hts : ts < versionValueElidedFlag) (value : Bytes) :
    Records store (store.write [.put (versionKey table.bytes row ts) value,
      .put (indexKey table.bytes row ts) (encodeVersionIndexValue ts false)]) table row ts (some value) where
  bounded := hts
  index rest := by
    simp only [Map.write_cons,Map.write_nil,Map.lookup_apply_put,index_range_eq_indexKey,
      index_range_ne_versionKey,if_false,isNone_some]
  version e := by
    simp only [Map.write_cons,Map.write_nil,Map.lookup_apply_put,versionKey_ne_indexKey,if_false]
    by_cases he : e = ts
    · simp [he]
    · rw [if_neg fun hk => he (versionKey_inj hk).2.2,if_neg fun hc => he hc.1]

theorem Indexed.materialized_of_copies (hi : Indexed km m store table row h) (hc : CleanIndex store table row)
    (hno : ∀ ts, ¬HasEvent store table row ts true) : Materialized km m store table row h where
  clean := hc
  recorded := hi.recorded
  copies event he := (hi.stored event he).resolve_right fun hel => hno event.1 hel.1
  unmarked := hi.unmarked

theorem Indexed.materialize (hi : Indexed km m store table row h) (hr : Represents km m store table row h)
    (hrc : Records store store' table row ts (some value)) (hev : HasEvent store table row ts true)
    (hdata : store.lookup (dataKey table.bytes row) = some value) : Materialized km m store' table row h where
  clean := hrc.clean hr.clean
  recorded e elided he := by
    rw [hrc.hasEvent] at he
    by_cases hts : e = ts
    · rw [hts]
      exact hi.recorded ts true hev
    · rw [if_neg hts] at he
      exact hi.recorded e elided he
  copies event he := by
    rcases hi.stored event he with hc | ⟨hel,hh,hcr,-⟩
    · -- An event with a copy is not the elided one.
      refine hrc.hasCopy_of_ne (fun heq => ?_) hc
      exact absurd (HasEvent.unique (heq ▸ hc.1) hev) (by simp)
    · have hts : event.1 = ts := by
        obtain ⟨value',hm⟩ := hi.recorded ts true hev
        rcases hi.stored (ts,value') hm with hc | ⟨-,hh',-,-⟩
        · exact absurd (HasEvent.unique hc.1 hev) (by simp)
        · rw [hh,some.injEq] at hh'
          rw [hh']
      have hopen : openOwned km value = event.2 := by
        have hd := hr.data
        rw [hdata,hcr,map_some,some.injEq] at hd
        exact hd
      obtain ⟨e,v⟩ := event
      dsimp only at hts hopen
      subst hts
      exact hrc.hasCopy rfl hopen
  unmarked := hi.unmarked

end

def KeepsData (table : TableName) (row : RowId) (batch : WriteBatch) : Prop :=
  ∀ op ∈ batch, op.key ≠ dataKey table.bytes row

section
variable {km : Option KeyManager} {m : SnapshotManager} {store : Store} {table : TableName} {row : RowId}
  {h : RowHistory} {commitTs : Timestamp} {ctx : CommitContext}

theorem keepsData_record (ts : Timestamp) (value : Bytes) (flag : Bool) :
    KeepsData table row [.put (versionKey table.bytes row ts) value,
      .put (indexKey table.bytes row ts) (encodeVersionIndexValue ts flag)] := by
  intro op hop
  rcases mem_cons.mp hop with rfl | hop
  · exact (dataKey_ne_versionKey _ _ _ _ _).symm
  · rw [mem_singleton.mp hop]
    exact (dataKey_ne_indexKey _ _ _ _ _).symm

theorem Represents.preImages (hr : Represents km m store table row h) (hv : ctx.versioningEnabled = true)
    (hrw : row ≤ u64Max) (hnew : ∀ event ∈ h.events, event.1 < commitTs)
    (har : ∀ ts, HasEvent store table row ts true → m.maybeElidedRows = true) :
    ∃ ops, ctx.preImages m (.healthy store) commitTs (dataKey table.bytes row) = .ok ops ∧
      KeepsData table row ops ∧ Materialized km m (store.write ops) table row h := by
  have hp := parseRowKey_dataKey table hrw
  rcases hr.versions with ⟨ts,value,hes,hcr,hmr,hno⟩ | hi
  · -- The row is only marked: its version at the marker is written from the row.
    obtain ⟨stored,hs⟩ : ∃ stored, store.lookup (dataKey table.bytes row) = some stored := by
      have hd := hr.data
      rw [hcr] at hd
      cases hl : store.lookup (dataKey table.bytes row) with
      | none => simp [hl] at hd
      | some stored => exact ⟨stored,rfl⟩
    have ha : m.copyMarkers.isEmpty = false := by
      by_contra hne
      simp [CopyMarkers.coveringTs,hne] at hmr
    have hfl : hasAnyVersionIndex (.healthy store) table.bytes row = false := by
      rw [Bool.eq_false_iff]
      intro htr
      obtain ⟨ts,elided,hev⟩ := (hasAnyVersionIndex_iff hr.clean).mp htr
      exact hno ts elided hev
    have hfg : findFlaggedLatestVersion (.healthy store) table.bytes row = .ok none := by
      rcases findFlaggedLatestVersion_cases hr.clean with ⟨ts,-,hev,-⟩ | ⟨hn,-⟩
      · exact absurd hev (hno ts true)
      · exact hn
    have hlt : ¬commitTs ≤ ts := Nat.not_le.mpr (hnew (ts,value) (by simp [hes]))
    have hbd : ts < versionValueElidedFlag := hr.bounded (ts,value) (by simp [hes])
    refine ⟨[.put (versionKey table.bytes row ts) stored,
      .put (indexKey table.bytes row ts) (encodeVersionIndexValue ts false)],?_,keepsData_record ts stored false,?_⟩
    · cases hel : m.maybeElidedRows <;>
        simp [CommitContext.preImages,Transaction.materializeEntry,CommitContext.checkCopyMarkers,
          CommitContext.checkElided,hv,ha,hp,materializeCopyMarkerRow,hmr,hfl,
          hlt,readKey,hs,materializeElidedLatestVersion,hfg,hel,bind,
          Except.bind,encodeVersionIndexValue]
    · have hrc : Records store (store.write [.put (versionKey table.bytes row ts) stored,
          .put (indexKey table.bytes row ts) (encodeVersionIndexValue ts false)]) table row ts (some stored) :=
        records_write hbd stored
      refine ⟨hrc.clean hr.clean,fun e elided hev => ?_,fun event he => ?_,fun hnl => by simp [hes] at hnl⟩
      · rw [hrc.hasEvent] at hev
        by_cases he : e = ts
        · exact ⟨value,by simp [hes,he]⟩
        · rw [if_neg he] at hev
          exact absurd hev (hno e elided)
      · rw [hes,mem_singleton] at he
        subst he
        refine hrc.hasCopy rfl ?_
        have hd := hr.data
        rw [hs,hcr,map_some,some.injEq] at hd
        exact hd
  · -- An indexed row has nothing to write for a marker.
    have hmk : m.materializeCopyMarkerRow (.healthy store) table.bytes row commitTs = .ok [] := by
      unfold materializeCopyMarkerRow
      cases hc : m.copyMarkers.coveringTs table.bytes row with
      | none => rfl
      | some markerTs =>
        have hne : h.events ≠ [] := fun hnl => by simp [hi.unmarked hnl] at hc
        obtain ⟨event,he⟩ := exists_mem_of_ne_nil _ hne
        obtain ⟨elided,hev⟩ := hi.hasEvent he
        have htr := (hasAnyVersionIndex_iff hr.clean).mpr ⟨event.1,elided,hev⟩
        simp [htr]
    have hg : ctx.preImages m (.healthy store) commitTs (dataKey table.bytes row) =
        if m.maybeElidedRows then materializeElidedLatestVersion (.healthy store) table.bytes row
        else .ok [] := by
      cases hel : m.maybeElidedRows <;> cases ha : m.copyMarkers.isEmpty <;>
        simp [CommitContext.preImages,Transaction.materializeEntry,CommitContext.checkCopyMarkers,
          CommitContext.checkElided,hv,ha,hp,hmk,hel,bind,Except.bind] <;>
        cases materializeElidedLatestVersion (.healthy store) table.bytes row <;> rfl
    rw [hg]
    rcases findFlaggedLatestVersion_cases hr.clean with ⟨ts,hf,hev,-⟩ | ⟨hf,hn⟩
    · obtain ⟨value,hm⟩ := hi.recorded ts true hev
      obtain ⟨stored,hs⟩ : ∃ stored, store.lookup (dataKey table.bytes row) = some stored := by
        rcases hi.stored (ts,value) hm with hc | ⟨-,-,hcr,-⟩
        · exact absurd (hc.1.unique hev) (by simp)
        have hd := hr.data
        rw [hcr] at hd
        cases hl : store.lookup (dataKey table.bytes row) with
        | none => simp [hl] at hd
        | some stored => exact ⟨stored,rfl⟩
      refine ⟨[.put (versionKey table.bytes row ts) stored,
        .put (indexKey table.bytes row ts) (encodeVersionIndexValue ts false)],?_,keepsData_record ts stored false,?_⟩
      · simp [har ts hev,materializeElidedLatestVersion,hf,readKey,hs,
          bind,Except.bind]
      · exact hi.materialize hr (records_write (hr.bounded (ts,value) hm) stored) hev hs
    · refine ⟨[],?_,fun op hop => by simp at hop,?_⟩
      · cases m.maybeElidedRows <;>
          simp [materializeElidedLatestVersion,hf,bind,Except.bind]
      · refine hi.materialized_of_copies hr.clean fun ts hev => ?_
        -- An elided event is the newest one, so the seek would have found it.
        obtain ⟨ts',elided',hev',hlt⟩ := hn ts hev
        obtain ⟨value,hm⟩ := hi.recorded ts true hev
        obtain ⟨value',hm'⟩ := hi.recorded ts' elided' hev'
        rcases hi.stored (ts,value) hm with hc | ⟨-,hh,-,-⟩
        · exact absurd (hc.1.unique hev) (by simp)
        have hold := hr.ordered
        cases hes : h.events with
        | nil => simp [hes] at hm
        | cons newest rest =>
          rw [hes] at hh hm'
          obtain rfl : newest = (ts,value) := Option.some.inj hh
          rw [RowHistory.Ordered,hes] at hold
          rcases mem_cons.mp hm' with heq | hrest
          · rw [Prod.mk.injEq] at heq
            exact absurd heq.1 (Nat.ne_of_gt hlt)
          · exact absurd ((pairwise_cons.mp hold).1 _ hrest) (Nat.not_lt.mpr hlt.le)

end
end HeliosNano.Storage
