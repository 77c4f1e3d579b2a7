import HeliosNano.Storage.RowIndex

namespace HeliosNano.Storage
open Foundation List

/-- The recorded versions of a row, newest first, and its current value. -/
structure RowHistory where
  events : List (Timestamp × Bytes)
  current : Option Bytes

namespace RowHistory

def empty : RowHistory := ⟨[],none⟩

def put (h : RowHistory) (versioned : Bool) (ts : Timestamp) (value : Bytes) : RowHistory :=
  ⟨if versioned then (ts,value)::h.events else h.events,some value⟩

/-- A delete leaves no version. -/
def delete (h : RowHistory) : RowHistory := { h with current := none }

/-- What a read at a snapshot finds: the newest recorded version up to the snapshot.
A row without versions is visible to every snapshot. -/
def answer (h : RowHistory) (s : Timestamp) : Option Bytes :=
  match h.events.find? fun event => decide (event.1 ≤ s) with
  | some event => some event.2
  | none => if h.events.isEmpty then h.current else none

def Ordered (h : RowHistory) : Prop := h.events.Pairwise fun newer older => older.1 < newer.1

theorem find?_newest {events : List (Timestamp × Bytes)}
    (ho : events.Pairwise fun newer older => older.1 < newer.1) {ts s : Timestamp} {value : Bytes}
    (hm : (ts,value) ∈ events) (hle : ts ≤ s) (hmx : ∀ event ∈ events, event.1 ≤ s → event.1 ≤ ts) :
    events.find? (fun event => decide (event.1 ≤ s)) = some (ts,value) := by
  induction events with
  | nil => simp at hm
  | cons newest rest ih =>
    obtain ⟨hnew,hrest⟩ := pairwise_cons.mp ho
    rcases mem_cons.mp hm with rfl | hm
    · simp [hle]
    have hlt := hnew _ hm
    have hp : ¬newest.1 ≤ s := fun hn =>
      absurd (hmx newest mem_cons_self hn) (Nat.not_le.mpr hlt)
    rw [find?_cons_of_neg (by simpa using hp)]
    exact ih hrest hm fun event he => hmx event (mem_cons_of_mem _ he)

end RowHistory

/-- The version at a timestamp has its event in the index and its copy. -/
def HasCopy (km : Option KeyManager) (store : Store) (table : TableName) (row : RowId)
    (event : Timestamp × Bytes) : Prop :=
  HasEvent store table row event.1 false ∧
    (store.lookup (versionKey table.bytes row event.1)).map (openOwned km) = some event.2

/-- The newest version is elided: its value is that of the row. -/
def IsElided (store : Store) (table : TableName) (row : RowId) (h : RowHistory)
    (event : Timestamp × Bytes) : Prop :=
  HasEvent store table row event.1 true ∧ h.events.head? = some event ∧ h.current = some event.2 ∧
    colon ∉ table.bytes

structure Indexed (km : Option KeyManager) (m : SnapshotManager) (store : Store) (table : TableName) (row : RowId)
    (h : RowHistory) : Prop where
  recorded : ∀ ts elided, HasEvent store table row ts elided → ∃ value, (ts,value) ∈ h.events
  stored : ∀ event ∈ h.events, HasCopy km store table row event ∨ IsElided store table row h event
  unmarked : h.events = [] → m.copyMarkers.coveringTs table.bytes row = none

/-- The only version of the row is its insertion by COPY, known by its marker. -/
def OnlyMarked (m : SnapshotManager) (store : Store) (table : TableName) (row : RowId) (h : RowHistory) : Prop :=
  ∃ ts value, h.events = [(ts,value)] ∧ h.current = some value ∧
    m.copyMarkers.coveringTs table.bytes row = some ts ∧ ∀ ts elided, ¬HasEvent store table row ts elided

/-- The store and the markers in memory represent the history of the row. -/
structure Represents (km : Option KeyManager) (m : SnapshotManager) (store : Store) (table : TableName)
    (row : RowId) (h : RowHistory) : Prop where
  clean : CleanIndex store table row
  ordered : h.Ordered
  bounded : ∀ event ∈ h.events, event.1 < versionValueElidedFlag
  data : (store.lookup (dataKey table.bytes row)).map (openOwned km) = h.current
  versions : OnlyMarked m store table row h ∨ Indexed km m store table row h

section
variable {km : Option KeyManager} {m : SnapshotManager} {store : Store} {table : TableName} {row : RowId}
  {h : RowHistory}

theorem Indexed.hasEvent (hi : Indexed km m store table row h) {event : Timestamp × Bytes} (he : event ∈ h.events) :
    ∃ elided, HasEvent store table row event.1 elided := by
  rcases hi.stored event he with hc | hel
  · exact ⟨false,hc.1⟩
  · exact ⟨true,hel.1⟩

theorem Represents.readAtSnapshotUncached (hr : Represents km m store table row h) (s : Timestamp) :
    ∃ stored, m.readAtSnapshotUncached (.healthy store) table.bytes row s = .ok stored ∧
      stored.map (openOwned km) = h.answer s := by
  rcases m.readAtSnapshotUncached_cases hr.clean s with
    ⟨ts,elided,hev,hle,hmx,hrd⟩ | ⟨⟨ts,elided,hev⟩,ha,hrd⟩ | ⟨hn,hrd⟩
  · -- The seek landed on the newest visible event.
    refine ⟨_,hrd,?_⟩
    rcases hr.versions with ⟨_,_,_,_,_,hno⟩ | hi
    · exact absurd hev (hno ts elided)
    obtain ⟨value,hm⟩ := hi.recorded ts elided hev
    have hf : h.events.find? (fun event => decide (event.1 ≤ s)) = some (ts,value) := by
      refine RowHistory.find?_newest hr.ordered hm hle fun event he hs => ?_
      obtain ⟨elided',hev'⟩ := hi.hasEvent he
      exact hmx event.1 elided' hev' hs
    rw [RowHistory.answer,hf]
    rcases hi.stored (ts,value) hm with ⟨hev',hcp⟩ | ⟨hev',-,hc,-⟩
    · rw [hev.unique hev']
      exact hcp
    · rw [hev.unique hev',if_pos rfl,hr.data,hc]
  · refine ⟨none,hrd,?_⟩
    rcases hr.versions with ⟨_,_,_,_,_,hno⟩ | hi
    · exact absurd hev (hno ts elided)
    obtain ⟨value,hm⟩ := hi.recorded ts elided hev
    have hf : h.events.find? (fun event => decide (event.1 ≤ s)) = none := by
      rw [find?_eq_none]
      intro event he
      obtain ⟨elided',hev'⟩ := hi.hasEvent he
      simpa using ha event.1 elided' hev'
    have hne : h.events.isEmpty = false := by
      rw [isEmpty_eq_false_iff]
      exact ne_nil_of_mem hm
    simp [RowHistory.answer,hf,hne]
  · rcases hr.versions with ⟨ts,value,hes,hc,hmr,-⟩ | hi
    · rw [hmr] at hrd
      by_cases hs : s < ts
      · rw [if_pos ⟨ts,rfl,hs⟩] at hrd
        exact ⟨none,hrd,by simp [RowHistory.answer,hes,Nat.not_le.mpr hs]⟩
      rw [if_neg (by rintro ⟨ts',he,hlt⟩; cases he; exact hs hlt)] at hrd
      refine ⟨_,hrd,?_⟩
      rw [hr.data,hc]
      simp [RowHistory.answer,hes,Nat.le_of_not_lt hs]
    · have hes : h.events = [] := by
        rw [eq_nil_iff_forall_not_mem]
        intro event he
        obtain ⟨elided,hev⟩ := hi.hasEvent he
        exact hn event.1 elided hev
      rw [hi.unmarked hes,if_neg (by simp)] at hrd
      exact ⟨_,hrd,by simp [RowHistory.answer,hes,hr.data]⟩

end

def RowKey (table : TableName) (row : RowId) (key : Key) : Prop :=
  key = dataKey table.bytes row ∨ (∃ ts, key = versionKey table.bytes row ts) ∨
    indexPrefix table.bytes row <+: key

section
variable {km : Option KeyManager} {m m' : SnapshotManager} {store store' : Store} {table : TableName} {row : RowId}
  {h : RowHistory}

theorem HasEvent.congr (hs : ∀ key, RowKey table row key → store'.lookup key = store.lookup key) {ts : Timestamp}
    {elided : Bool} : HasEvent store' table row ts elided ↔ HasEvent store table row ts elided := by
  rw [HasEvent,HasEvent,hs (indexKey table.bytes row ts) (.inr (.inr (prefix_append _ _)))]

theorem Represents.congr (hr : Represents km m store table row h)
    (hs : ∀ key, RowKey table row key → store'.lookup key = store.lookup key)
    (hm : m'.copyMarkers.coveringTs table.bytes row = m.copyMarkers.coveringTs table.bytes row) :
    Represents km m' store' table row h where
  clean rest value hl := hr.clean rest value (by rwa [hs _ (.inr (.inr (prefix_append _ _)))] at hl)
  ordered := hr.ordered
  bounded := hr.bounded
  data := by rw [hs _ (.inl rfl),hr.data]
  versions := by
    rcases hr.versions with ⟨ts,value,hes,hcr,hmr,hno⟩ | hi
    · refine .inl ⟨ts,value,hes,hcr,hm.trans hmr,fun ts elided hev => ?_⟩
      exact hno ts elided ((HasEvent.congr hs).mp hev)
    refine .inr ⟨fun ts elided hev => hi.recorded ts elided ((HasEvent.congr hs).mp hev),?_,?_⟩
    · intro event he
      rcases hi.stored event he with ⟨hev,hc⟩ | ⟨hev,hrest⟩
      · exact .inl ⟨(HasEvent.congr hs).mpr hev,by rw [hs _ (.inr (.inl ⟨_,rfl⟩)),hc]⟩
      · exact .inr ⟨(HasEvent.congr hs).mpr hev,hrest⟩
    · intro hn
      rw [hm,hi.unmarked hn]

end
end HeliosNano.Storage
