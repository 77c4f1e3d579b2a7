import HeliosNano.Storage.SnapshotReads
import HeliosNano.Storage.VersionGc

namespace HeliosNano.Storage.GcReads
open Foundation

section
variable {base store : Store} {table : TableName} {row : RowId} {bound : Timestamp}

theorem cleanIndex_of_trimmed {P : Key → Prop} (hc : CleanIndex base table row) (h : Trimmed P base store) :
    CleanIndex store table row := fun rest value hl => hc rest value (h.of_some hl)

theorem hasEvent_of_trimmed {P : Key → Prop} (h : Trimmed P base store) {e : Timestamp} {elided : Bool}
    (hev : HasEvent store table row e elided) : HasEvent base table row e elided := by
  obtain ⟨hle,value,hl,hd⟩ := hev
  exact ⟨hle,value,h.of_some hl,hd⟩

theorem readAtSnapshotUncached_agrees (m : SnapshotManager) (hcl : CleanIndex base table row)
    (hc' : CleanIndex store table row) (hsb : ∀ e elided, HasEvent store table row e elided → HasEvent base table row e elided)
    (hk : ∀ key, ReadKey base table row bound key → store.lookup key = base.lookup key) :
    m.readAtSnapshotUncached (.healthy store) table.bytes row bound =
      m.readAtSnapshotUncached (.healthy base) table.bytes row bound := by
  have hdata : store.lookup (dataKey table.bytes row) = base.lookup (dataKey table.bytes row) := hk _ (.inl rfl)
  -- The serving event stays, with its copy.
  have hsr : ∀ e elided, Serves base table row bound e → HasEvent base table row e elided → HasEvent store table row e elided ∧
      store.lookup (versionKey table.bytes row e) = base.lookup (versionKey table.bytes row e) := by
    intro e elided hs hev
    refine ⟨?_,hk _ (.inr ⟨e,hs,.inr rfl⟩)⟩
    unfold HasEvent
    rw [hk _ (.inr ⟨e,hs,.inl rfl⟩)]
    exact hev
  have ha := m.readAtSnapshotUncached_cases hc' bound
  rcases m.readAtSnapshotUncached_cases hcl bound with
    ⟨ts,elided,hev,hle,hm,hrd⟩ | ⟨⟨ts,elided,hev⟩,hl,hrd⟩ | ⟨hn,hrd⟩
  · obtain ⟨hev',hc⟩ := hsr ts elided ⟨⟨elided,hev⟩,hm⟩ hev
    rcases ha with ⟨ts',elided',he,hls,hmx,hr⟩ | ⟨-,hl,-⟩ | ⟨hn,-⟩
    · have hsame : ts' = ts := Nat.le_antisymm (hm ts' elided' (hsb ts' elided' he) hls)
        (hmx ts elided hev' hle)
      subst hsame
      rw [hr,hrd,he.unique hev']
      cases elided
      · exact congrArg Except.ok hc
      · exact congrArg Except.ok hdata
    · exact absurd hle (Nat.not_le.mpr (hl ts elided hev'))
    · exact absurd hev' (hn ts elided)
  · -- The row appears after the bound, and so it stays.
    obtain ⟨hev',-⟩ := hsr ts elided
      ⟨⟨elided,hev⟩,fun other elided' ho hle => absurd hle (Nat.not_le.mpr (hl other elided' ho))⟩ hev
    rcases ha with ⟨ts',elided',he,hls,-⟩ | ⟨-,-,hr⟩ | ⟨hn,-⟩
    · exact absurd hls (Nat.not_le.mpr (hl ts' elided' (hsb ts' elided' he)))
    · rw [hr,hrd]
    · exact absurd hev' (hn ts elided)
  · rcases ha with ⟨ts',elided',he,-⟩ | ⟨⟨ts',elided',he⟩,-⟩ | ⟨-,hr⟩
    · exact absurd (hsb ts' elided' he) (hn ts' elided')
    · exact absurd (hsb ts' elided' he) (hn ts' elided')
    · rw [hr,hrd,hdata]

theorem readAtSnapshotUncached_trimmed (m : SnapshotManager) (hc : CleanIndex base table row)
    (h : Trimmed (ReadKey base table row bound) base store) : m.readAtSnapshotUncached (.healthy store) table.bytes row bound =
      m.readAtSnapshotUncached (.healthy base) table.bytes row bound :=
  readAtSnapshotUncached_agrees m hc (cleanIndex_of_trimmed hc h) (fun _ _ hev => hasEvent_of_trimmed h hev)
    fun _ hkey => h.lookup hkey

theorem readAtSnapshot_trimmed (m : SnapshotManager) (hc : CleanIndex base table row)
    (h : Trimmed (ReadKey base table row bound) base store) : (m.readAtSnapshot (.healthy store) table.bytes row bound).2 =
      (m.readAtSnapshot (.healthy base) table.bytes row bound).2 := by
  unfold SnapshotManager.readAtSnapshot
  rw [readAtSnapshotUncached_trimmed m hc h]

end

/-- After any number of cycles, reads at or after every horizon of a row whose index range
holds only its own events are what they were, and every row has its newest version. -/
theorem collect_keeps_reads_and_newest (gc : VersionGc) (db : Db) (horizons : List Timestamp) :
    (∀ (table : TableName) (row : RowId), CleanIndex db.store table row → ∀ (m : SnapshotManager) (t : Timestamp),
      (∀ horizon ∈ horizons, horizon ≤ t) → (m.readAtSnapshot (.healthy (gc.collect db horizons).2.store) table.bytes row t).2 =
          (m.readAtSnapshot (.healthy db.store) table.bytes row t).2) ∧
    ∀ (table : TableName) (row : RowId) (ts : Timestamp), NewestVersion db.store table row ts →
      (gc.collect db horizons).2.store.lookup (versionKey table.bytes row ts) =
        db.store.lookup (versionKey table.bytes row ts) := by
  refine ⟨fun table row hclean m t ht => ?_,fun table row ts hnewest => ?_⟩
  · exact readAtSnapshot_trimmed m hclean
      ((Trimmed.refl _ db.store).collect (fun horizon hh => careful_reads hclean (ht horizon hh)) gc)
  · exact ((Trimmed.refl _ db.store).collect (fun horizon _ => careful_newest db.store table row horizon) gc).lookup
      ⟨ts,hnewest,rfl⟩

/-! Row 1 of table `t` with versions at 2, 3 and 9; that at 9 has no index entry. -/

def chainStore : Store := (∅ : Store).write
  [.put (versionKey [116] 1 2) [20],.put (indexKey [116] 1 2) (encodeVersionIndexValue 2 false),
    .put (versionKey [116] 1 3) [30],.put (indexKey [116] 1 3) (encodeVersionIndexValue 3 false),
    .put (versionKey [116] 1 9) [90]]

theorem chainStore_clean : CleanIndex chainStore SnapshotReads.tableT 1 := by
  intro rest value hl
  have hb : SnapshotReads.tableT.bytes = [116] := rfl
  simp only [chainStore,Map.write_cons,Map.write_nil,Map.lookup_apply_put,hb,index_range_eq_indexKey,
    index_range_ne_versionKey,if_false,AList.lookup_empty] at hl
  split at hl
  · cases hl
    exact ⟨3,false,by decide,‹_›,decode_encodeVersionIndexValue (by decide) false⟩
  split at hl
  · cases hl
    exact ⟨2,false,by decide,‹_›,decode_encodeVersionIndexValue (by decide) false⟩
  · cases hl

/-- The collector at horizon 10 deletes version 2, and the read at 10 still finds 3. -/
theorem collect_keeps_reads_and_newest_of_chain :
    (VersionGc.collect ⟨100,none⟩ (.healthy chainStore) [10]).2.store.lookup (versionKey [116] 1 2) = none ∧
      ((SnapshotManager.new none).readAtSnapshot (.healthy (VersionGc.collect ⟨100,none⟩ (.healthy chainStore)
        [10]).2.store) [116] 1 10).2 = .ok (some [30]) := by
  refine ⟨by decide +kernel,?_⟩
  have hread := (collect_keeps_reads_and_newest ⟨100,none⟩ (.healthy chainStore) [10]).1 SnapshotReads.tableT 1
    chainStore_clean (.new none) 10 (by simp)
  have hbefore : ((SnapshotManager.new none).readAtSnapshot (.healthy chainStore) [116] 1 10).2 = .ok (some [30]) := by
    decide +kernel
  exact hread.trans hbefore

/-! The same row with two versions outside the index, and an event of row 2 of table
`t:1`, whose key lies in the range of the row. -/

def aliasedStore : Store := (∅ : Store).write
  [.put (versionKey [116] 1 3) [30],.put (versionKey [116] 1 9) [90],
    .put (versionKey [116,58,49] 2 3) [33],.put (indexKey [116,58,49] 2 3) (encodeVersionIndexValue 3 false)]

/-- The read lands on the foreign event and takes the row's version at its timestamp,
which the collector deletes. -/
theorem collected_version_was_read_through_foreign_event :
    ¬∀ (gc : VersionGc) (db : Db) (horizons : List Timestamp) (table : TableName) (row : RowId)
      (m : SnapshotManager) (t : Timestamp), (∀ horizon ∈ horizons, horizon ≤ t) →
        (m.readAtSnapshot (.healthy (gc.collect db horizons).2.store) table.bytes row t).2 =
          (m.readAtSnapshot (.healthy db.store) table.bytes row t).2 := by
  intro h
  have hread := h ⟨100,none⟩ (.healthy aliasedStore) [10] SnapshotReads.tableT 1 (.new none) 10 (by simp)
  have hbefore : ((SnapshotManager.new none).readAtSnapshot (.healthy aliasedStore) [116] 1 10).2 = .ok (some [30]) := by
    decide +kernel
  have hafter : ((SnapshotManager.new none).readAtSnapshot (.healthy (VersionGc.collect ⟨100,none⟩
      (.healthy aliasedStore) [10]).2.store) [116] 1 10).2 = .ok none := by decide +kernel
  have hfalse : (Except.ok none : Except Error (Option Bytes)) = .ok (some [30]) := hafter.symm.trans (hread.trans hbefore)
  cases hfalse

end HeliosNano.Storage.GcReads
