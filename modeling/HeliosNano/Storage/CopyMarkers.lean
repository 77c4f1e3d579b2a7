import HeliosNano.Storage.RowHistory

namespace HeliosNano.Storage
open Foundation List Option CopyMarkers

theorem parseUnsigned_padded {n : Nat} (h : n ≤ u64Max) : parseUnsigned u64Max (padded 20 n) = some n := by
  have hlt : n < 10^20 := Nat.lt_of_le_of_lt h (by decide)
  exact parseUnsigned_digits (by simp [← length_eq_zero_iff,length_padded])
    (fun _ => isDigit_of_mem_padded) (digitsValue_padded hlt) h

namespace CopyMarkers

/-- Without the fast-out flag there is no marker. -/
def Wf (m : CopyMarkers) : Prop := m.any = false → ∀ table, m.byTable.lookup table = none

theorem wf_new : new.Wf := fun _ _ => rfl

theorem wf_insert (m : CopyMarkers) (table : Bytes) (first last : RowId) (ts : Timestamp) :
    (m.insert table first last ts).Wf := nofun

def covers (table : Bytes) (interval : Interval) (table' : Bytes) (row : RowId) : Prop :=
  table = table' ∧ interval.first ≤ row ∧ row ≤ interval.last
deriving Decidable

theorem coveringTs_insert {m : CopyMarkers} (hwf : m.Wf) (table : Bytes) (interval : Interval) (table' : Bytes)
    (row : RowId) : (m.insert table interval.first interval.last interval.ts).coveringTs table' row =
      (m.coveringTs table' row).or (if covers table interval table' row then some interval.ts else none) := by
  have hold : m.coveringTs table' row = (((m.byTable.lookup table').getD []).find? fun i : Interval =>
      decide (i.first ≤ row) && decide (row ≤ i.last)).map (·.ts) := by
    unfold coveringTs isEmpty
    cases ha : m.any with
    | false => simp [hwf ha]
    | true => cases m.byTable.lookup table' <;> simp
  rw [hold]
  simp only [coveringTs,insert,isEmpty,Bool.not_true,Bool.false_eq_true,if_false,Map.lookup_insert_ite]
  by_cases ht : table' = table
  · subst ht
    simp only [if_true,find?_append,map_or]
    congr 1
    by_cases hc : interval.first ≤ row ∧ row ≤ interval.last
    · simp [covers,hc,List.find?]
    · have hf : (decide (interval.first ≤ row) && decide (row ≤ interval.last)) = false := by
        simpa using hc
      simp [covers,hc,List.find?,hf]
  · rw [if_neg ht]
    have hno : ¬covers table interval table' row := fun hc => ht hc.1.symm
    rw [if_neg hno,or_none]
    cases m.byTable.lookup table' <;> simp

theorem isUtf8_markerKey (table : TableName) (first last : RowId) : IsUtf8 (markerKey table.bytes first last) := by
  have hdg : ∀ n, IsUtf8 (colon :: padded 20 n) := fun n => isUtf8_of_ascii fun b hb => by
    rcases mem_cons.mp hb with rfl | hb
    · decide
    · have hd := isDigit_of_mem_padded hb
      simp only [isDigit,Bool.and_eq_true,decide_eq_true_eq] at hd
      omega
  have hl : ∀ b ∈ vmetaPrefix, b.val < 0x80 := by decide +kernel
  exact (isUtf8_of_ascii hl).append ((table.utf8.append (hdg first)).append (hdg last))

theorem colon_not_mem_padded (width n : Nat) : colon ∉ padded width n :=
  colon_not_mem_digits fun _ => isDigit_of_mem_padded

theorem parseMarker_markerKey (table : TableName) {first last : RowId} {ts : Nat} (hf : first ≤ u64Max)
    (hl : last ≤ u64Max) (hts : ts < versionValueElidedFlag) :
    parseMarker (markerKey table.bytes first last) (beBytes 8 ts) = some (table.bytes,⟨first,last,ts⟩) := by
  have hu : (fromUtf8 (markerKey table.bytes first last)).isSome = true :=
    (isSome_fromUtf8 _).mpr (isUtf8_markerKey table first last)
  have hv : beValue ((beBytes 8 ts).take 8) = ts := by
    rw [take_of_length_le (by rw [length_beBytes]),beValue_beBytes]
    simp only [versionValueElidedFlag] at hts
    omega
  simp only [parseMarker,hu,if_true]
  simp only [markerKey,stripPrefix_append,bind_eq_bind,bind_some,
    splitLast_append _ _ (colon_not_mem_padded _ _),parseUnsigned_padded hf,parseUnsigned_padded hl,length_beBytes,
    hv]
  simp

theorem markerKey_inj {table table' : Bytes} {first first' last last' : RowId} (hf : first ≤ u64Max)
    (hf' : first' ≤ u64Max) (hl : last ≤ u64Max) (hl' : last' ≤ u64Max)
    (h : markerKey table first last = markerKey table' first' last') : table = table' ∧ first = first' ∧ last = last' := by
  have hlt : ∀ {n : Nat}, n ≤ u64Max → n < 10^20 := fun h => Nat.lt_of_le_of_lt h (by decide)
  obtain ⟨hrest,hls⟩ := append_sep_inj (colon_not_mem_padded _ _) (colon_not_mem_padded _ _)
    (append_cancel_left h)
  obtain ⟨htb,hfs⟩ := append_sep_inj (colon_not_mem_padded _ _) (colon_not_mem_padded _ _) hrest
  exact ⟨htb,padded_injective (hlt hf) (hlt hf') hfs,padded_injective (hlt hl) (hlt hl') hls⟩

end CopyMarkers

/-- A record of the marker key space is the marker of a COPY batch. -/
def IsMarker (key : Key) (value : Bytes) (table : TableName) (interval : Interval) : Prop :=
  interval.first ≤ u64Max ∧ interval.last ≤ u64Max ∧ interval.ts < versionValueElidedFlag ∧
    key = markerKey table.bytes interval.first interval.last ∧ value = beBytes 8 interval.ts

structure DurableMarkers (store : Store) (table : TableName) (row : RowId) (marker : Option Timestamp) : Prop where
  canonical : ∀ key value, vmetaPrefix <+: key → store.lookup key = some value →
    ∃ other interval, IsMarker key value other interval ∧
      (covers other.bytes interval table.bytes row → marker = some interval.ts)
  present : ∀ ts, marker = some ts → ∃ key value other interval, IsMarker key value other interval ∧
    store.lookup key = some value ∧ covers other.bytes interval table.bytes row ∧ interval.ts = ts

def coverOf (table : Bytes) (row : RowId) (entry : Key × Bytes) : Option Timestamp :=
  if vmetaPrefix <+: entry.1 then
    match parseMarker entry.1 entry.2 with
    | some (other,interval) => if covers other interval table row then some interval.ts else none
    | none => none
  else none

theorem coveringTs_loadRecords (table : Bytes) (row : RowId) (entries : List (Key × Bytes)) {m : CopyMarkers}
    (hwf : m.Wf) : (m.loadRecords entries).Wf ∧ (m.loadRecords entries).coveringTs table row =
      (m.coveringTs table row).or (entries.findSome? (coverOf table row)) := by
  induction entries generalizing m with
  | nil => exact ⟨hwf,by simp [loadRecords]⟩
  | cons entry rest ih =>
    have hs : ∃ m' : CopyMarkers, m'.Wf ∧ m.loadRecords (entry::rest) = m'.loadRecords rest ∧
        m'.coveringTs table row = (m.coveringTs table row).or (coverOf table row entry) := by
      simp only [loadRecords,foldl_cons,coverOf]
      by_cases hp : vmetaPrefix <+: entry.1
      · simp only [if_pos hp,loadRecord]
        cases parseMarker entry.1 entry.2 with
        | none => exact ⟨m,hwf,rfl,by simp⟩
        | some parsed =>
          exact ⟨_,wf_insert m _ _ _ _,rfl,coveringTs_insert hwf _ _ _ _⟩
      · simp only [if_neg hp]
        exact ⟨m,hwf,rfl,by simp⟩
    obtain ⟨m',hwf',hl,hc⟩ := hs
    obtain ⟨hw,hrest⟩ := ih hwf'
    rw [hl,hrest,hc,Option.or_assoc,findSome?_cons]
    refine ⟨hw,?_⟩
    cases coverOf table row entry <;> rfl

theorem coverOf_isMarker {key : Key} {value : Bytes} {other : TableName} {interval : Interval}
    (h : IsMarker key value other interval) (table : Bytes) (row : RowId) : coverOf table row (key,value) =
      if covers other.bytes interval table row then some interval.ts else none := by
  obtain ⟨hf,hl,hts,rfl,rfl⟩ := h
  have hp : vmetaPrefix <+: markerKey other.bytes interval.first interval.last := prefix_append _ _
  simp only [coverOf,if_pos hp,parseMarker_markerKey other hf hl hts]

theorem DurableMarkers.recover {store : Store} {table : TableName} {row : RowId} {marker : Option Timestamp}
    (h : DurableMarkers store table row marker) (m : SnapshotManager) (hm : m.copyMarkers = .new) :
    (m.recoverMarkers (.healthy store)).copyMarkers.Wf ∧
      (m.recoverMarkers (.healthy store)).copyMarkers.coveringTs table.bytes row = marker := by
  obtain ⟨hwf,hco⟩ := coveringTs_loadRecords table.bytes row (store.iterFrom []) wf_new
  have hnew : new.coveringTs table.bytes row = none := rfl
  simp only [SnapshotManager.recoverMarkers,hm,Db.healthy_store]
  refine ⟨hwf,?_⟩
  rw [hco,hnew,none_or]
  cases hf : (store.iterFrom []).findSome? (coverOf table.bytes row) with
  | some ts =>
    obtain ⟨⟨key,value⟩,hmm,hcv⟩ := exists_of_findSome?_eq_some hf
    have hp : vmetaPrefix <+: key := by
      by_contra hno
      simp [coverOf,hno] at hcv
    obtain ⟨other,interval,hmk,ha⟩ := h.canonical key value hp ((Map.mem_iterFrom _ _ _).mp hmm).1
    rw [coverOf_isMarker hmk] at hcv
    split at hcv
    next hc =>
      rw [ha hc,hcv]
    · cases hcv
  | none =>
    cases hmr : marker with
    | none => rfl
    | some ts =>
      obtain ⟨key,value,other,interval,hmk,hl,hc,-⟩ := h.present ts hmr
      have hmm : (key,value) ∈ store.iterFrom [] :=
        (Map.mem_iterFrom _ _ _).mpr ⟨hl,not_lt.mp (not_lt_nil _)⟩
      have := findSome?_eq_none_iff.mp hf _ hmm
      rw [coverOf_isMarker hmk,if_pos hc] at this
      cases this

end HeliosNano.Storage
