import HeliosNano.Storage.TimeTravel

namespace HeliosNano.Storage
open Foundation List

def HasEvent (store : Store) (table : TableName) (row : RowId) (ts : Timestamp) (elided : Bool) : Prop :=
  ts ≤ u64Max ∧ ∃ value, store.lookup (indexKey table.bytes row ts) = some value ∧
    decodeVersionIndexValue value = some (ts,elided)

/-- What the index holds in the range of the row are events of the row. -/
def CleanIndex (store : Store) (table : TableName) (row : RowId) : Prop :=
  ∀ rest value, store.lookup (indexPrefix table.bytes row ++ rest) = some value →
    ∃ ts elided, ts ≤ u64Max ∧ rest = reverseText ts ∧ decodeVersionIndexValue value = some (ts,elided)

variable {store : Store} {table : TableName} {row : RowId}

theorem HasEvent.unique {ts : Timestamp} {a b : Bool} (ha : HasEvent store table row ts a)
    (hb : HasEvent store table row ts b) : a = b := by
  obtain ⟨-,v,hv,hd⟩ := ha
  obtain ⟨-,w,hw,hd'⟩ := hb
  obtain rfl : v = w := Option.some.inj (hv.symm.trans hw)
  simpa using hd.symm.trans hd'

theorem isUtf8_indexKey (table : TableName) (row : RowId) (ts : Timestamp) :
    (fromUtf8 (indexKey table.bytes row ts)).isSome = true := by
  rw [isSome_fromUtf8,indexKey_eq]
  exact isUtf8_rowKey (by decide +kernel) table row fun _ => isDigit_of_mem_reverseText

theorem isUtf8_versionKey (table : TableName) (row : RowId) (ts : Timestamp) :
    (fromUtf8 (versionKey table.bytes row ts)).isSome = true := by
  rw [isSome_fromUtf8,versionKey]
  exact isUtf8_rowKey (by decide +kernel) table row fun _ => isDigit_of_mem_decimal

theorem seek_row (h : CleanIndex store table row) (start : Bytes) :
    (∃ ts elided value, (store.iterFrom (indexPrefix table.bytes row ++ start)).head? =
        some (indexKey table.bytes row ts,value) ∧
      HasEvent store table row ts elided ∧ decodeVersionIndexValue value = some (ts,elided) ∧ start ≤ reverseText ts ∧
      ∀ ts' elided', HasEvent store table row ts' elided' → start ≤ reverseText ts' → ts' ≤ ts) ∨
    ((∀ key value, (store.iterFrom (indexPrefix table.bytes row ++ start)).head? = some (key,value) →
        ¬indexPrefix table.bytes row <+: key) ∧ ∀ ts elided, HasEvent store table row ts elided → ¬start ≤ reverseText ts) := by
  rcases Map.seek_prefix store (indexPrefix table.bytes row) start with
    ⟨b,value,hh,hl,hle,hm⟩ | ⟨hn,hb⟩
  · obtain ⟨ts,elided,hts,rfl,hd⟩ := h b value hl
    rw [← indexKey] at hh hl
    refine .inl ⟨ts,elided,value,hh,⟨hts,value,hl,hd⟩,hd,hle,?_⟩
    rintro ts' elided' ⟨hts',value',hl',-⟩ hle'
    rw [indexKey] at hl'
    exact (reverseText_le_iff hts').mp (hm (reverseText ts') value' hl' hle')
  · refine .inr ⟨hn,?_⟩
    rintro ts elided ⟨-,value,hl,-⟩
    rw [indexKey] at hl
    exact hb (reverseText ts) value hl

namespace SnapshotManager

variable (h : CleanIndex store table row)
include h

theorem landedEvent_cases (s : Timestamp) : (∃ ts elided, landedEvent (.healthy store) table.bytes row s = some (ts,elided) ∧
      HasEvent store table row ts elided ∧ ts ≤ s ∧ ∀ ts' elided', HasEvent store table row ts' elided' → ts' ≤ s → ts' ≤ ts) ∨
    (landedEvent (.healthy store) table.bytes row s = none ∧ ∀ ts elided, HasEvent store table row ts elided → s < ts) := by
  rcases seek_row h (reverseText s) with ⟨ts,elided,value,hh,hev,hd,hle,hm⟩ | ⟨hn,hb⟩
  · have hts : ts ≤ s := (reverseText_le_iff hev.1).mp hle
    refine .inl ⟨ts,elided,?_,hev,hts,fun ts' elided' hev' hle' =>
      hm ts' elided' hev' ((reverseText_le_iff hev'.1).mpr hle')⟩
    have hp : indexPrefix table.bytes row <+: indexKey table.bytes row ts := prefix_append _ _
    simp only [landedEvent,Db.healthy_next]
    rw [indexKey,hh]
    simp [isUtf8_indexKey,hp,hd,hts]
  · refine .inr ⟨?_,fun ts elided hev => ?_⟩
    · simp only [landedEvent,Db.healthy_next]
      rw [indexKey]
      cases hh : (store.iterFrom (indexPrefix table.bytes row ++ reverseText s)).head? with
      | none => rfl
      | some entry =>
        obtain ⟨key,value⟩ := entry
        simp [hn key value hh]
    · exact Nat.lt_of_not_le fun hle => hb ts elided hev ((reverseText_le_iff hev.1).mpr hle)

theorem hasAnyVersionIndex_iff :
    hasAnyVersionIndex (.healthy store) table.bytes row = true ↔ ∃ ts elided, HasEvent store table row ts elided := by
  have hs := seek_row h []
  rw [append_nil] at hs
  simp only [hasAnyVersionIndex,Db.healthy_next]
  rcases hs with ⟨ts,elided,value,hh,hev,-,-,-⟩ | ⟨hn,hb⟩
  · have hp : indexPrefix table.bytes row <+: indexKey table.bytes row ts := prefix_append _ _
    rw [hh]
    simp only [Option.map_some,hp,decide_true,true_iff]
    exact ⟨ts,elided,hev⟩
  · have hno : ¬∃ ts elided, HasEvent store table row ts elided := by
      rintro ⟨ts,elided,hev⟩
      exact hb ts elided hev (not_lt.mp (not_lt_nil _))
    cases hh : (store.iterFrom (indexPrefix table.bytes row)).head? with
    | none => exact ⟨fun h => by simp at h,fun h => absurd h hno⟩
    | some entry =>
      obtain ⟨key,value⟩ := entry
      exact ⟨fun h => absurd (by simpa using h) (hn key value hh),fun h => absurd h hno⟩

theorem findFlaggedLatestVersion_cases :
    (∃ ts, findFlaggedLatestVersion (.healthy store) table.bytes row = .ok (some (ts,indexKey table.bytes row ts)) ∧
      HasEvent store table row ts true ∧ ∀ ts' elided', HasEvent store table row ts' elided' → ts' ≤ ts) ∨
    (findFlaggedLatestVersion (.healthy store) table.bytes row = .ok none ∧
      ∀ ts, HasEvent store table row ts true → ∃ ts' elided', HasEvent store table row ts' elided' ∧ ts < ts') := by
  have hs := seek_row h []
  rw [append_nil] at hs
  simp only [findFlaggedLatestVersion,Db.healthy_next]
  rcases hs with ⟨ts,elided,value,hh,hev,hd,-,hm⟩ | ⟨hnn,hb⟩
  · have hp : indexPrefix table.bytes row <+: indexKey table.bytes row ts := prefix_append _ _
    have hn : ∀ ts' elided', HasEvent store table row ts' elided' → ts' ≤ ts :=
      fun ts' elided' hev' => hm ts' elided' hev' (not_lt.mp (not_lt_nil _))
    rw [hh]
    cases elided with
    | true => exact .inl ⟨ts,by simp [hp,hd],hev,hn⟩
    | false =>
      refine .inr ⟨by simp [hp,hd],fun ts' hev' => ⟨ts,false,hev,?_⟩⟩
      rcases Nat.lt_or_eq_of_le (hn ts' true hev') with hlt | rfl
      · exact hlt
      · exact absurd (hev'.unique hev) (by simp)
  · refine .inr ⟨?_,fun ts hev => absurd (not_lt.mp (not_lt_nil _)) (hb ts true hev)⟩
    cases hh : (store.iterFrom (indexPrefix table.bytes row)).head? with
    | none => rfl
    | some entry =>
      obtain ⟨key,value⟩ := entry
      simp [hnn key value hh]

omit h

theorem readAtSnapshotUncached_cases (m : SnapshotManager) (h : CleanIndex store table row) (s : Timestamp) :
    (∃ ts elided, HasEvent store table row ts elided ∧ ts ≤ s ∧
      (∀ ts' elided', HasEvent store table row ts' elided' → ts' ≤ s → ts' ≤ ts) ∧
      m.readAtSnapshotUncached (.healthy store) table.bytes row s =
        .ok (store.lookup (if elided then dataKey table.bytes row else versionKey table.bytes row ts))) ∨
    ((∃ ts elided, HasEvent store table row ts elided) ∧
      (∀ ts elided, HasEvent store table row ts elided → s < ts) ∧
      m.readAtSnapshotUncached (.healthy store) table.bytes row s = .ok none) ∨
    ((∀ ts elided, ¬HasEvent store table row ts elided) ∧
      m.readAtSnapshotUncached (.healthy store) table.bytes row s =
        if ∃ markerTs, m.copyMarkers.coveringTs table.bytes row = some markerTs ∧ s < markerTs then .ok none
        else .ok (store.lookup (dataKey table.bytes row))) := by
  rcases landedEvent_cases h s with ⟨ts,elided,hl,hev,hle,hmx⟩ | ⟨hl,haf⟩
  · refine .inl ⟨ts,elided,hev,hle,hmx,?_⟩
    cases elided with
    | true => simp [readAtSnapshotUncached,hl,readKey]
    | false => simp [readAtSnapshotUncached,hl,getVersionByExactTimestamp,readKey]
  · by_cases ha : ∃ ts elided, HasEvent store table row ts elided
    · refine .inr (.inl ⟨ha,haf,?_⟩)
      simp [readAtSnapshotUncached,hl,(hasAnyVersionIndex_iff h).mpr ha]
    refine .inr (.inr ⟨fun ts elided hev => ha ⟨ts,elided,hev⟩,?_⟩)
    have hno : hasAnyVersionIndex (.healthy store) table.bytes row = false := by
      rw [Bool.eq_false_iff]
      exact fun htr => ha ((hasAnyVersionIndex_iff h).mp htr)
    simp only [readAtSnapshotUncached,hl,hno]
    cases hm : m.copyMarkers.coveringTs table.bytes row with
    | none | some markerTs => simp [readKey]

end SnapshotManager
end HeliosNano.Storage
