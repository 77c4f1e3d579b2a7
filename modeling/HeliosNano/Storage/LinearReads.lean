import HeliosNano.Storage.RowIndex
import HeliosNano.Storage.TimeTravel
import Mathlib.Data.List.MinMax

namespace HeliosNano.Storage
open Foundation

namespace SnapshotManager

section
variable (m : SnapshotManager) (db : Db)

def bumpTableCacheGeneration (table : Bytes) : SnapshotManager :=
  { m with snapshotCacheGen := m.snapshotCacheGen.insert table ((m.tableCacheGeneration table + 1)%2^64) }

def invalidateCacheForRow (table : Bytes) (_row : RowId) : SnapshotManager :=
  if m.cacheEnabled then m.bumpTableCacheGeneration table else m

def createReverseTimestampIndex (table : Bytes) (row : RowId) (ts : Timestamp) : Except Error Db :=
  match db.write [.put (indexKey table row ts) (beBytes 8 ts)] with
  | .ok db => .ok db
  | .error message => .error (.storage ("Failed to create reverse index: " ++ message))

/-- The copy and its event are written one after the other. -/
def writeVersion (table : Bytes) (row : RowId) (ts : Timestamp) (value : Bytes) : SnapshotManager × Db × Except Error Unit :=
  match sealStored m.keyManager (versionKey table row ts) value with
  | .error error => (m,db,.error error)
  | .ok stored =>
    match db.write [.put (versionKey table row ts) stored] with
    | .error message => (m,db,.error (.storage ("Failed to write version: " ++ message)))
    | .ok db =>
      match createReverseTimestampIndex db table row ts with
      | .error error => (m,db,.error error)
      | .ok db => (m.invalidateCacheForRow table row,db,.ok ())

end

end SnapshotManager

open List Option AList SnapshotManager

/-- `v:{table}:{row_id}:` -/
def versionRowLead (table : Bytes) (row : RowId) : Bytes := versionLead ++ (rowText table row ++ [colon])

namespace SnapshotManager

/-- The timestamp of a key, if it is that of a version of the row up to the snapshot. -/
def scannedTs (table : Bytes) (row : RowId) (snapshotTs : Timestamp) (key : Key) : Option Timestamp :=
  if (fromUtf8 key).isSome && decide (versionRowLead table row <+: key) then
    (parseUnsigned u64Max (((splitLast colon key).map (·.2)).getD key)).filter fun ts => decide (ts ≤ snapshotTs)
  else none

def updateBest (best : Option (Timestamp × Bytes)) (ts : Timestamp) (value : Bytes) : Option (Timestamp × Bytes) :=
  match best with
  | none => some (ts,value)
  | some (bestTs,old) => if bestTs < ts then some (ts,value) else some (bestTs,old)

/-- The loop over all entries. -/
def scanVersions (table : Bytes) (row : RowId) (snapshotTs : Timestamp) :
    Option (Timestamp × Bytes) → List (Except String (Key × Bytes)) → Except Error (Option (Timestamp × Bytes))
  | best, [] => .ok best
  | _, .error message :: _ => .error (.storage ("Iterator error: " ++ message))
  | best, .ok entry :: rest =>
    match scannedTs table row snapshotTs entry.1 with
    | some ts => scanVersions table row snapshotTs (updateBest best ts entry.2) rest
    | none => scanVersions table row snapshotTs best rest

def readAtSnapshotLinear (m : SnapshotManager) (db : Db) (table : Bytes) (row : RowId) (snapshotTs : Timestamp) :
    Except Error (Option Bytes) :=
  (scanVersions table row snapshotTs none (db.iter [])).map fun best => best.map fun version => openOwned m.keyManager version.2

def scanned (table : Bytes) (row : RowId) (snapshotTs : Timestamp) (entries : List (Key × Bytes)) : List (Timestamp × Bytes) :=
  entries.filterMap fun entry => (scannedTs table row snapshotTs entry.1).map fun ts => (ts,entry.2)

theorem updateBest_eq (best : Option (Timestamp × Bytes)) (version : Timestamp × Bytes) :
    updateBest best version.1 version.2 = List.argAux (fun b c => c.1 < b.1) best version := by
  cases best <;> rfl

theorem scanVersions_eq (table : Bytes) (row : RowId) (snapshotTs : Timestamp) (best : Option (Timestamp × Bytes))
    (entries : List (Key × Bytes)) : scanVersions table row snapshotTs best (entries.map .ok) =
      .ok ((scanned table row snapshotTs entries).foldl (List.argAux fun b c => c.1 < b.1) best) := by
  induction entries generalizing best with
  | nil => rfl
  | cons entry rest ih =>
    rw [map_cons,scanVersions,scanned,filterMap_cons]
    cases hts : scannedTs table row snapshotTs entry.1 with
    | none => exact ih best
    | some ts =>
      simp only [map_some,foldl_cons]
      rw [← updateBest_eq]
      exact ih _

theorem readAtSnapshotLinear_eq (m : SnapshotManager) (store : Store) (table : Bytes) (row : RowId) (snapshotTs : Timestamp) :
    m.readAtSnapshotLinear (.healthy store) table row snapshotTs =
      .ok (((scanned table row snapshotTs (store.iterFrom [])).argmax Prod.fst).map fun version =>
        openOwned m.keyManager version.2) := by
  have hi : (Db.healthy store).iter [] = (store.iterFrom []).map .ok := rfl
  rw [readAtSnapshotLinear,hi,scanVersions_eq]
  rfl

end SnapshotManager

/-- Every version has its event and the other way round, and the names of the tables have no separator. -/
structure Versioned (store : Store) : Prop where
  keys : ∀ key ∈ store, versionLead <+: key ∨ indexLead <+: key → ∃ (table : TableName) (row : RowId) (ts : Timestamp),
    colon ∉ table.bytes ∧ ts < versionValueElidedFlag ∧ (key = versionKey table.bytes row ts ∨ key = indexKey table.bytes row ts)
  event : ∀ (table : TableName) row ts, versionKey table.bytes row ts ∈ store →
    store.lookup (indexKey table.bytes row ts) = some (encodeVersionIndexValue ts false)
  copy : ∀ (table : TableName) row ts, ts ≤ u64Max → indexKey table.bytes row ts ∈ store → versionKey table.bytes row ts ∈ store

structure VersionWrite where
  table : TableName
  row : RowId
  timestamp : Timestamp
  value : Bytes

namespace SnapshotManager

/-- Calls of `write_version` on a database in which no call fails; a value that cannot be sealed is not written. -/
def writeVersions (m : SnapshotManager) (store : Store) : List VersionWrite → SnapshotManager × Store
  | [] => (m,store)
  | w::rest =>
    let (m,db,_) := m.writeVersion (.healthy store) w.table.bytes w.row w.timestamp w.value
    m.writeVersions db.store rest

theorem writeVersion_cases (m : SnapshotManager) (store : Store) (table : Bytes) (row : RowId) (ts : Timestamp) (value : Bytes) :
    (m.writeVersion (.healthy store) table row ts value).1.keyManager = m.keyManager ∧
    ((m.writeVersion (.healthy store) table row ts value).2.1.store = store ∨
      ∃ stored, (m.writeVersion (.healthy store) table row ts value).2.1.store =
        store.write [.put (versionKey table row ts) stored,.put (indexKey table row ts) (beBytes 8 ts)]) := by
  unfold writeVersion
  cases sealStored m.keyManager (versionKey table row ts) value with
  | error e => exact ⟨rfl,.inl rfl⟩
  | ok stored =>
    simp only [Db.healthy_write,createReverseTimestampIndex]
    refine ⟨?_,.inr ⟨stored,rfl⟩⟩
    unfold invalidateCacheForRow
    split <;> rfl

end SnapshotManager

variable {store : Store} {ts : Timestamp} {table : TableName}

theorem Versioned.bounds (h : Versioned store) {row : RowId}
    (hm : versionKey table.bytes row ts ∈ store) : colon ∉ table.bytes ∧ ts < versionValueElidedFlag := by
  obtain ⟨table',row',ts',hc,hts,hkey | hkey⟩ := h.keys _ hm (.inl (prefix_append _ _))
  · obtain ⟨htb,-,rfl⟩ := versionKey_inj hkey
    rw [htb]
    exact ⟨hc,hts⟩
  · exact absurd hkey (versionKey_ne_indexKey _ _ _ _ _ _)

theorem Versioned.write (h : Versioned store) (hc : colon ∉ table.bytes) (row : RowId)
    (hts : ts < versionValueElidedFlag) (stored : Bytes) : Versioned (store.write
      [.put (versionKey table.bytes row ts) stored,.put (indexKey table.bytes row ts) (beBytes 8 ts)]) := by
  have hlk : ∀ key, (store.write [.put (versionKey table.bytes row ts) stored,
      .put (indexKey table.bytes row ts) (beBytes 8 ts)]).lookup key =
      if key = indexKey table.bytes row ts then some (beBytes 8 ts)
      else if key = versionKey table.bytes row ts then some stored else store.lookup key := by
    intro key
    rw [Map.write_cons,Map.write_cons,Map.write_nil,Map.lookup_apply_put,Map.lookup_apply_put]
  have hm : ∀ key, key ∈ store.write [.put (versionKey table.bytes row ts) stored,
      .put (indexKey table.bytes row ts) (beBytes 8 ts)] ↔
      key = indexKey table.bytes row ts ∨ key = versionKey table.bytes row ts ∨ key ∈ store := by
    intro key
    rw [← lookup_isSome,hlk,← lookup_isSome]
    split
    next hi => exact ⟨fun _ => .inl hi,fun _ => rfl⟩
    next hi =>
      split
      next hv => exact ⟨fun _ => .inr (.inl hv),fun _ => rfl⟩
      next hv => rw [or_iff_right hi,or_iff_right hv]
  refine ⟨fun key hkey hl => ?_,fun table' row' ts' hkey => ?_,fun table' row' ts' hts' hkey => ?_⟩
  · rcases (hm key).mp hkey with rfl | rfl | hold
    · exact ⟨table,row,ts,hc,hts,.inr rfl⟩
    · exact ⟨table,row,ts,hc,hts,.inl rfl⟩
    · exact h.keys key hold hl
  · rcases (hm _).mp hkey with hno | hsame | hold
    · exact absurd hno (versionKey_ne_indexKey _ _ _ _ _ _)
    · obtain ⟨htb,rfl,rfl⟩ := versionKey_inj hsame
      rw [hlk,htb,if_pos rfl]
      rfl
    · rw [hlk]
      split
      next heq =>
        obtain ⟨-,-,rfl⟩ := indexKey_inj (ts_le_u64Max (h.bounds hold).2) (ts_le_u64Max hts) heq
        rfl
      next =>
        rw [if_neg (Ne.symm (versionKey_ne_indexKey _ _ _ _ _ _))]
        exact h.event table' row' ts' hold
  · rcases (hm _).mp hkey with hsame | hno | hold
    · obtain ⟨htb,rfl,rfl⟩ := indexKey_inj hts' (ts_le_u64Max hts) hsame
      rw [htb]
      exact (hm _).mpr (.inr (.inl rfl))
    · exact absurd hno.symm (versionKey_ne_indexKey _ _ _ _ _ _)
    · exact (hm _).mpr (.inr (.inr (h.copy table' row' ts' hts' hold)))

theorem Versioned.writeVersions {m : SnapshotManager} (h : Versioned store) {writes : List VersionWrite}
    (hw : ∀ w ∈ writes, colon ∉ w.table.bytes ∧ w.timestamp < versionValueElidedFlag) :
    Versioned (m.writeVersions store writes).2 := by
  induction writes generalizing m store with
  | nil => exact h
  | cons w rest ih =>
    obtain ⟨⟨hc,hts⟩,hrest⟩ := forall_mem_cons.mp hw
    have hs : Versioned (m.writeVersion (.healthy store) w.table.bytes w.row w.timestamp w.value).2.1.store := by
      rcases (m.writeVersion_cases store w.table.bytes w.row w.timestamp w.value).2 with hsame | ⟨stored,hst⟩
      · rw [hsame]
        exact h
      · rw [hst]
        exact h.write hc w.row hts stored
    exact ih hs hrest

section
variable {store : Store} (h : Versioned store) (table : TableName) (row : RowId)
include h

theorem Versioned.clean : CleanIndex store table row := by
  intro rest value hlk
  have hm : indexPrefix table.bytes row ++ rest ∈ store := lookup_isSome.mp (by rw [hlk]; rfl)
  have hl : indexLead <+: indexPrefix table.bytes row ++ rest := by
    rw [index_range_eq]
    exact prefix_append _ _
  obtain ⟨table',row',ts,hcl,hts,hkey | hkey⟩ := h.keys _ hm (.inr hl)
  · exact absurd hkey (index_range_ne_versionKey _ _ _ _ _ _)
  rw [hkey] at hm hlk
  rcases indexPrefix_cases (hkey ▸ prefix_append (indexPrefix table.bytes row) rest) with ⟨htb,rfl⟩ | ha
  · have hc := h.copy table' row ts (ts_le_u64Max hts) hm
    rw [h.event table' row ts hc] at hlk
    obtain rfl := Option.some.inj hlk
    rw [← htb,index_range_eq_indexKey] at hkey
    exact ⟨ts,false,ts_le_u64Max hts,hkey,decode_encodeVersionIndexValue hts false⟩
  · exact absurd (colon_mem_of_aliases ha) hcl

theorem Versioned.hasEvent_iff (ts : Timestamp) (elided : Bool) :
    HasEvent store table row ts elided ↔ elided = false ∧ versionKey table.bytes row ts ∈ store := by
  constructor
  · rintro ⟨hts,value,hlk,hd⟩
    have hc := h.copy table row ts hts (lookup_isSome.mp (by rw [hlk]; rfl))
    rw [h.event table row ts hc] at hlk
    obtain rfl := Option.some.inj hlk
    rw [decode_encodeVersionIndexValue (h.bounds hc).2] at hd
    cases hd
    exact ⟨rfl,hc⟩
  · rintro ⟨rfl,hc⟩
    have hts := (h.bounds hc).2
    exact ⟨ts_le_u64Max hts,_,h.event table row ts hc,decode_encodeVersionIndexValue hts false⟩

theorem Versioned.scannedTs_iff (s ts : Timestamp) {key : Key} (hkey : key ∈ store) :
    scannedTs table.bytes row s key = some ts ↔ key = versionKey table.bytes row ts ∧ ts ≤ s := by
  have hl : ∀ ts, versionRowLead table.bytes row <+: versionKey table.bytes row ts := by
    intro ts
    exact ⟨decimal ts,by simp [versionRowLead,versionKey]⟩
  have hv : ∀ ts' < versionValueElidedFlag, scannedTs table.bytes row s (versionKey table.bytes row ts') =
      some ts ↔ ts' = ts ∧ ts ≤ s := by
    intro ts' hts'
    have hsl : splitLast colon (versionKey table.bytes row ts') =
        some (versionLead ++ rowText table.bytes row,decimal ts') := by
      rw [versionKey,← append_assoc]
      exact splitLast_append colon _ (colon_not_mem_decimal ts')
    simp only [scannedTs,isUtf8_versionKey,hl ts',hsl,decide_true,Bool.and_self,if_true,
      map_some,getD_some,parseUnsigned_decimal (ts_le_u64Max hts'),filter_eq_some_iff,
      some.injEq,decide_eq_true_eq]
  constructor
  · intro hs
    by_cases hr : versionRowLead table.bytes row <+: key
    · have hsp : versionLead <+: key := (prefix_append _ _).trans hr
      obtain ⟨table',row',ts',hc,hts',rfl | rfl⟩ := h.keys key hkey (.inl hsp)
      · rw [versionRowLead,versionKey,prefix_append_right_inj] at hr
        rcases rowText_cases (colon_not_mem_decimal ts') hr with ⟨htb,rfl⟩ | ha
        · rw [← htb] at hs ⊢
          obtain ⟨rfl,hle⟩ := (hv ts' hts').mp hs
          exact ⟨rfl,hle⟩
        · exact absurd (colon_mem_of_aliases ha) hc
      · rw [indexKey_eq] at hsp
        obtain ⟨tail,htl⟩ := hsp
        exact absurd htl (keyspace_disjoint (show Keyspace.version ≠ Keyspace.index by decide) _ _)
    · simp [scannedTs,hr] at hs
  · rintro ⟨rfl,hle⟩
    exact (hv ts (h.bounds hkey).2).mpr ⟨rfl,hle⟩

theorem Versioned.mem_scanned (s : Timestamp) (version : Timestamp × Bytes) :
    version ∈ scanned table.bytes row s (store.iterFrom []) ↔
      store.lookup (versionKey table.bytes row version.1) = some version.2 ∧ version.1 ≤ s := by
  rw [scanned,mem_filterMap]
  constructor
  · rintro ⟨⟨key,value⟩,he,hs⟩
    obtain ⟨hlk,-⟩ := (Map.mem_iterFrom store [] (key,value)).mp he
    obtain ⟨ts,hts,rfl⟩ := map_eq_some_iff.mp hs
    obtain ⟨rfl,hle⟩ := (h.scannedTs_iff table row s ts (lookup_isSome.mp (by rw [hlk]; rfl))).mp hts
    exact ⟨hlk,hle⟩
  · rintro ⟨hlk,hle⟩
    refine ⟨(versionKey table.bytes row version.1,version.2),?_,?_⟩
    · exact (Map.mem_iterFrom store [] _).mpr ⟨hlk,not_lt.mp (not_lt_nil _)⟩
    · have hs := (h.scannedTs_iff table row s version.1 (lookup_isSome.mp (by rw [hlk]; rfl))).mpr ⟨rfl,hle⟩
      rw [hs]
      rfl

theorem Versioned.reads_agree (m : SnapshotManager) (hv : ∃ ts, versionKey table.bytes row ts ∈ store) (s : Timestamp) :
    (m.readAtSnapshotUncached (.healthy store) table.bytes row s).map (Option.map (openOwned m.keyManager)) =
      m.readAtSnapshotLinear (.healthy store) table.bytes row s := by
  rw [readAtSnapshotLinear_eq]
  have hn := fun version => h.mem_scanned table row s version
  rcases m.readAtSnapshotUncached_cases (h.clean table row) s with
    ⟨ts,elided,he,hle,hmx,hr⟩ | ⟨-,ha,hr⟩ | ⟨hnn,-⟩
  · obtain ⟨rfl,hm⟩ := (h.hasEvent_iff table row ts elided).mp he
    obtain ⟨stored,hst⟩ := isSome_iff_exists.mp (lookup_isSome.mpr hm)
    rw [hr,if_neg Bool.false_ne_true,hst]
    cases hs : (scanned table.bytes row s (store.iterFrom [])).argmax Prod.fst with
    | none =>
      have hnl := argmax_eq_none.mp hs
      have hf := (hn (ts,stored)).mpr ⟨hst,hle⟩
      rw [hnl] at hf
      exact absurd hf not_mem_nil
    | some newest =>
      obtain ⟨hlk,hbd⟩ := (hn newest).mp (argmax_mem hs)
      have hu : newest.1 ≤ ts :=
        hmx newest.1 false ((h.hasEvent_iff table row newest.1 false).mpr ⟨rfl,lookup_isSome.mp (by rw [hlk]; rfl)⟩) hbd
      have hl : ts ≤ newest.1 := le_of_mem_argmax ((hn (ts,stored)).mpr ⟨hst,hle⟩) hs
      rw [Nat.le_antisymm hu hl,hst] at hlk
      rw [Option.some.inj hlk]
      rfl
  · have hnl : scanned table.bytes row s (store.iterFrom []) = [] := by
      refine eq_nil_iff_forall_not_mem.mpr fun version hv => ?_
      obtain ⟨hlk,hle⟩ := (hn version).mp hv
      have he := (h.hasEvent_iff table row version.1 false).mpr ⟨rfl,lookup_isSome.mp (by rw [hlk]; rfl)⟩
      exact absurd (ha version.1 false he) (Nat.not_lt.mpr hle)
    rw [hr,hnl]
    rfl
  · obtain ⟨ts,hm⟩ := hv
    exact absurd ((h.hasEvent_iff table row ts false).mpr ⟨rfl,hm⟩) (hnn ts false)

end

theorem SnapshotManager.writeVersions_keyManager (m : SnapshotManager) (store : Store) (writes : List VersionWrite) :
    (m.writeVersions store writes).1.keyManager = m.keyManager := by
  induction writes generalizing m store with
  | nil => rfl
  | cons w rest ih =>
    have hs := (m.writeVersion_cases store w.table.bytes w.row w.timestamp w.value).1
    exact (ih _ _).trans hs

/-- After any writes of versions, the indexed read of a row that has one finds what the scan finds; the scan opens the
stored value, as the cached read does. -/
theorem indexed_read_eq_linear_read (m : SnapshotManager) (base : Store) (hbase : ∀ key ∈ base, ¬(versionLead <+: key ∨ indexLead <+: key))
    (writes : List VersionWrite) (hwrites : ∀ w ∈ writes, colon ∉ w.table.bytes ∧ w.timestamp < versionValueElidedFlag)
    (table : TableName) (row : RowId) (hversion : ∃ ts, versionKey table.bytes row ts ∈ (m.writeVersions base writes).2) (s : Timestamp) :
    ((m.writeVersions base writes).1.readAtSnapshotUncached (.healthy (m.writeVersions base writes).2) table.bytes row s).map
        (Option.map (openOwned m.keyManager)) =
      (m.writeVersions base writes).1.readAtSnapshotLinear (.healthy (m.writeVersions base writes).2) table.bytes row s := by
  have hstart : Versioned base := by
    refine ⟨fun key hkey hlead => absurd hlead (hbase key hkey),fun table' row' ts hkey => ?_,fun table' row' ts _ hkey => ?_⟩
    · exact absurd (.inl (prefix_append _ _)) (hbase _ hkey)
    · rw [indexKey_eq] at hkey
      exact absurd (.inr (prefix_append _ _)) (hbase _ hkey)
  have hagree := (hstart.writeVersions hwrites).reads_agree table row (m.writeVersions base writes).1 hversion s
  rw [m.writeVersions_keyManager base writes] at hagree
  exact hagree

/-- A cipher that puts a byte before the value. -/
def markingCipher : KeyManager where
  encrypt _ value := .ok (1::value)
  tryDecrypt stored := match stored with
    | 1::value => some value
    | _ => none

theorem isUtf8_w : IsUtf8 [119] := isUtf8_of_ascii (by decide +kernel)

def twoVersions : List VersionWrite := [⟨⟨[119],isUtf8_w⟩,1,9,[7]⟩,⟨⟨[119],isUtf8_w⟩,1,5,[6]⟩]

theorem indexed_read_eq_linear_read_sample :
    (((SnapshotManager.new (some markingCipher)).writeVersions ∅ twoVersions).1.readAtSnapshotUncached
      (.healthy ((SnapshotManager.new (some markingCipher)).writeVersions ∅ twoVersions).2) [119] 1 8).map
        (Option.map (openOwned (some markingCipher))) =
      ((SnapshotManager.new (some markingCipher)).writeVersions ∅ twoVersions).1.readAtSnapshotLinear
        (.healthy ((SnapshotManager.new (some markingCipher)).writeVersions ∅ twoVersions).2) [119] 1 8 := by
  refine indexed_read_eq_linear_read (.new (some markingCipher)) ∅ (fun key hkey => absurd hkey (notMem_empty key)) twoVersions
    ?_ ⟨[119],isUtf8_w⟩ 1 ⟨5,?_⟩ 8
  · decide
  · exact lookup_isSome.mp (by decide +kernel)

/-- The indexed read gives the bytes as they are stored, the scan opens them. -/
theorem indexed_read_is_stored : ¬∀ (m : SnapshotManager) (writes : List VersionWrite),
      (∀ w ∈ writes, colon ∉ w.table.bytes ∧ w.timestamp < versionValueElidedFlag) → ∀ (table : TableName) (row : RowId),
      (∃ ts, versionKey table.bytes row ts ∈ (m.writeVersions ∅ writes).2) → ∀ s : Timestamp,
      (m.writeVersions ∅ writes).1.readAtSnapshotUncached (.healthy (m.writeVersions ∅ writes).2) table.bytes row s =
        (m.writeVersions ∅ writes).1.readAtSnapshotLinear (.healthy (m.writeVersions ∅ writes).2) table.bytes row s := by
  intro hall
  have hread := hall (.new (some markingCipher)) twoVersions (by decide) ⟨[119],isUtf8_w⟩ 1
    ⟨5,lookup_isSome.mp (by decide +kernel)⟩ 8
  have hstored : ((SnapshotManager.new (some markingCipher)).writeVersions ∅ twoVersions).1.readAtSnapshotUncached
      (.healthy ((SnapshotManager.new (some markingCipher)).writeVersions ∅ twoVersions).2) [119] 1 8 = .ok (some [1,6]) := by
    decide +kernel
  have hopened : ((SnapshotManager.new (some markingCipher)).writeVersions ∅ twoVersions).1.readAtSnapshotLinear
      (.healthy ((SnapshotManager.new (some markingCipher)).writeVersions ∅ twoVersions).2) [119] 1 8 = .ok (some [6]) := by
    decide +kernel
  rw [hstored,hopened] at hread
  cases hread

end HeliosNano.Storage
