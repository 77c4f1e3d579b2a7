import Mathlib.Data.List.Infix
import HeliosNano.Replication.WalRecords

namespace HeliosNano.Replication.WalStore
open Foundation Storage List Option AList

variable (es : List WalEntry)

def firstLsn : Lsn := (es.head?.map WalEntry.lsn).getD 0

def lastLsn : Lsn := (es.getLast?.map WalEntry.lsn).getD 0

def recordsSize : Nat := (es.map WalEntry.recordSize).sum

def recordsOf : Bytes := es.flatMap WalEntry.recordBytes

def segmentFile (segment_id entry_count : Nat) (es : List WalEntry) : Bytes :=
  segmentHeader segment_id (firstLsn es) entry_count ++ recordsOf es

/-- The entries of the closed segments, and those of the segment being written. -/
structure Segments where
  closed : List (List WalEntry)
  last : List WalEntry

/-- An entry goes to the last segment, or to a new one when that is full. -/
def Segments.place (config : WalStoreConfig) (segs : Segments) (e : WalEntry) : Segments :=
  if segs.last = [] then ⟨segs.closed,[e]⟩
  else if config.max_entries_per_segment ≤ segs.last.length ∨
      config.max_segment_size ≤ segmentHeaderSize + recordsSize segs.last then ⟨segs.closed ++ [segs.last],[e]⟩
  else ⟨segs.closed,segs.last ++ [e]⟩

def segmentsOf (config : WalStoreConfig) (entries : List WalEntry) : Segments :=
  entries.foldl (Segments.place config) ⟨[],[]⟩

/-- The file of a segment id. Only a closed segment has its entry count in its header. -/
def Segments.file (segs : Segments) (id : Nat) : Option Bytes :=
  if id = segs.closed.length+1 ∧ segs.last ≠ [] then some (segmentFile id 0 segs.last)
  else if id = 0 then none
  else segs.closed[id-1]?.map fun es => segmentFile id es.length es

section
variable {config : WalStoreConfig} {entries : List WalEntry} {segs : Segments} {run : Store × Disk} {e : WalEntry}
variable (es : List WalEntry) (id count : Nat)

theorem length_recordsOf : (recordsOf es).length = recordsSize es := by
  induction es with
  | nil => rfl
  | cons e es ih =>
    have hs : e.recordBytes.length = e.recordSize := length_recordOf
    simp only [recordsOf,recordsSize] at ih
    simp only [recordsOf,recordsSize,flatMap_cons,length_append,map_cons,sum_cons,ih,hs]

theorem length_segmentHeader (start_lsn count : Nat) : (segmentHeader id start_lsn count).length = 32 := by
  simp only [segmentHeader,length_append,length_leBytes]

theorem recordsOf_append (es' : List WalEntry) : recordsOf (es ++ es') = recordsOf es ++ recordsOf es' :=
  flatMap_append

theorem patch_segmentFile (es : List WalEntry) : patch (segmentFile id 0 es) 24 (leBytes 8 count) = segmentFile id count es := by
  have hl : (leBytes 4 walMagic ++ leBytes 4 walVersion ++ leBytes 8 id ++ leBytes 8 (firstLsn es)).length = 24 := by
    simp only [length_append,length_leBytes]
  rw [patch,segmentFile,segmentFile,length_leBytes,drop_left' (length_segmentHeader _ _ _)]
  simp only [segmentHeader]
  rw [append_assoc _ (leBytes 8 0),take_left' hl]

/-- The counters and the files of a store after appends. -/
structure Layout (segs : Segments) (run : Store × Disk) : Prop where
  current : run.1.current_segment = if segs.last = [] then segs.closed.length else segs.closed.length+1
  writer : run.1.writer = if segs.last = [] then none else
    some ⟨segs.closed.length+1,firstLsn segs.last,segmentHeaderSize + recordsSize segs.last,segs.last.length⟩
  files : ∀ id, run.2.lookup id = segs.file id

theorem Segments.file_last (h : segs.last ≠ []) :
    segs.file (segs.closed.length+1) = some (segmentFile (segs.closed.length+1) 0 segs.last) := by
  rw [Segments.file,if_pos ⟨rfl,h⟩]

theorem Segments.file_of_ne {id : Nat} (h : id ≠ segs.closed.length+1) :
    segs.file id = if id = 0 then none else segs.closed[id-1]?.map fun es => segmentFile id es.length es := by
  rw [Segments.file,if_neg fun h' => h h'.1]

theorem segmentFile_snoc {es : List WalEntry} (hes : es ≠ []) (e : WalEntry) :
    segmentFile id count es ++ e.recordBytes = segmentFile id count (es ++ [e]) := by
  have hf : firstLsn (es ++ [e]) = firstLsn es := by
    rw [firstLsn,firstLsn,head?_append_of_ne_nil _ hes]
  rw [segmentFile,segmentFile,hf,recordsOf_append,append_assoc]
  simp [recordsOf]

theorem segmentHeader_record (e : WalEntry) : segmentHeader id e.lsn count ++ e.recordBytes = segmentFile id count [e] := by
  simp [segmentFile,firstLsn,recordsOf]

theorem recordsSize_snoc (e : WalEntry) : recordsSize (es ++ [e]) = recordsSize es + (17+e.data.length) := by
  simp [recordsSize,WalEntry.recordSize]

section
variable {store : Store} {disk : Disk} {writer : SegmentWriter}

theorem rollOver_none (h : store.writer = none) : rollOver config store disk e =
    ({ store with current_segment := store.current_segment+1 },
      disk.insert (store.current_segment+1) (segmentHeader (store.current_segment+1) e.lsn 0),
      ⟨store.current_segment+1,e.lsn,segmentHeaderSize,0⟩) := by
  rw [rollOver,h]
  rfl

theorem rollOver_full (h : store.writer = some writer) (hf : needsNewSegment config (some writer) = true) :
    ∃ store', store'.current_segment = store.current_segment+1 ∧ rollOver config store disk e =
      (store',(disk.insert writer.segment_id (patch ((disk.lookup writer.segment_id).getD []) 24
          (leBytes 8 writer.entry_count))).insert (store.current_segment+1) (segmentHeader (store.current_segment+1) e.lsn 0),
        ⟨store.current_segment+1,e.lsn,segmentHeaderSize,0⟩) := by
  refine ⟨{ (closeSegment store disk writer).1 with current_segment := store.current_segment+1 },rfl,?_⟩
  rw [rollOver,h]
  simp only [hf,if_true]
  rfl

theorem rollOver_room (h : store.writer = some writer) (hr : needsNewSegment config (some writer) = false) :
    rollOver config store disk e = (store,disk,writer) := by
  rw [rollOver,h]
  simp only [hr,Bool.false_eq_true,if_false]

theorem writeEntryToDisk_of {store' : Store} {disk' : Disk}
    (h : rollOver config store disk e = (store',disk',writer)) : writeEntryToDisk config store disk e =
      ({ store' with
          writer := some { writer with
            offset := writer.offset+(17+e.data.length)
            entry_count := writer.entry_count+1 }
          lsn_index := Function.update store'.lsn_index e.lsn (some writer.segment_id) },
        disk'.insert writer.segment_id ((disk'.lookup writer.segment_id).getD [] ++ e.recordBytes)) := by
  rw [writeEntryToDisk,h]

end

theorem Layout.append (h : Layout segs run) (e : WalEntry) : Layout (segs.place config e) (append config run e) := by
  obtain ⟨closed,last⟩ := segs
  obtain ⟨hc,hw,hf⟩ := h
  simp only at hc hw hf
  rw [WalStore.append]
  generalize hs : ({ run.1 with
    entries := Function.update run.1.entries e.lsn (some e)
    cache := (run.1.cache ++ [e]).drop ((run.1.cache ++ [e]).length - config.cache_size)
    current_lsn := e.lsn } : Store) = store
  have hw' : store.writer = run.1.writer := by rw [← hs]
  have hc' : store.current_segment = run.1.current_segment := by rw [← hs]
  rw [hw] at hw'
  rw [hc] at hc'
  by_cases hl : last = []
  · -- The first segment.
    subst hl
    simp only [if_true] at hc' hw'
    rw [writeEntryToDisk_of (rollOver_none hw'),hc',Segments.place,if_pos rfl]
    refine ⟨by simp,?_,fun id => ?_⟩
    · simp [firstLsn,recordsSize,WalEntry.recordSize]
    · rw [Map.lookup_insert_ite,lookup_insert,getD_some,segmentHeader_record]
      by_cases hid : id = closed.length+1
      · subst hid
        rw [if_pos rfl]
        exact (@Segments.file_last ⟨closed,[e]⟩ (by simp)).symm
      · rw [if_neg hid,lookup_insert_ne hid,hf,Segments.file_of_ne hid,Segments.file_of_ne hid]
  · simp only [hl,if_false] at hc' hw'
    have hfi := hf (closed.length+1)
    rw [@Segments.file_last ⟨closed,last⟩ hl] at hfi
    by_cases hfl : config.max_entries_per_segment ≤ last.length ∨
        config.max_segment_size ≤ segmentHeaderSize + recordsSize last
    · -- The last segment is closed, and the next one created.
      have hn : needsNewSegment config (some ⟨closed.length+1,firstLsn last,segmentHeaderSize + recordsSize last,
          last.length⟩) = true := by simpa [needsNewSegment] using hfl
      obtain ⟨store',hnx,hr⟩ := @rollOver_full config e store run.2 _ hw' hn
      rw [hc',hfi,getD_some,patch_segmentFile] at hr
      rw [writeEntryToDisk_of hr,Segments.place,if_neg hl,if_pos hfl]
      have hln : (closed ++ [last]).length = closed.length+1 := by simp
      refine ⟨by simp [hnx,hc'],?_,fun id => ?_⟩
      · simp [firstLsn,recordsSize,WalEntry.recordSize]
      · rw [Map.lookup_insert_ite,lookup_insert,getD_some,segmentHeader_record]
        by_cases hid : id = closed.length+1+1
        · subst hid
          have hnew := @Segments.file_last ⟨closed ++ [last],[e]⟩ (by simp)
          simp only [hln] at hnew
          rw [if_pos rfl,hnew]
        · rw [if_neg hid,lookup_insert_ne hid,Segments.file_of_ne (by simpa [hln] using hid)]
          by_cases hid' : id = closed.length+1
          · subst hid'
            rw [lookup_insert]
            simp
          · rw [lookup_insert_ne hid',hf,Segments.file_of_ne hid']
            by_cases hz : id = 0
            · rw [if_pos hz,if_pos hz]
            rw [if_neg hz,if_neg hz]
            by_cases hlt : id-1 < closed.length
            · simp only [getElem?_append_left hlt]
            · rw [getElem?_eq_none (by simp only; omega),getElem?_eq_none (by simp only [hln]; omega)]
    · have hn : needsNewSegment config (some ⟨closed.length+1,firstLsn last,segmentHeaderSize + recordsSize last,
          last.length⟩) = false := by simpa [needsNewSegment] using hfl
      rw [writeEntryToDisk_of (rollOver_room hw' hn),Segments.place,if_neg hl,if_neg hfl]
      refine ⟨by simp [hc'],?_,fun id => ?_⟩
      · simp [firstLsn,head?_append_of_ne_nil _ hl,recordsSize_snoc,Nat.add_assoc]
      · rw [Map.lookup_insert_ite,hfi,getD_some,segmentFile_snoc _ _ hl]
        by_cases hid : id = closed.length+1
        · subst hid
          rw [if_pos rfl]
          exact (@Segments.file_last ⟨closed,last ++ [e]⟩ (by simp)).symm
        · rw [if_neg hid,hf,Segments.file_of_ne hid,Segments.file_of_ne hid]

theorem layout_appendAll (config : WalStoreConfig) (entries : List WalEntry) :
    Layout (segmentsOf config entries) (appendAll config entries) := by
  have ha : ∀ (segs : Segments) (run : Store × Disk), Layout segs run →
      Layout (entries.foldl (Segments.place config) segs) (entries.foldl (WalStore.append config) run) := by
    induction entries with
    | nil => exact fun _ _ h => h
    | cons e entries ih => exact fun segs run h => ih _ _ (h.append e)
  refine ha _ _ ⟨rfl,rfl,fun id => ?_⟩
  rw [Segments.file]
  simp [lookup_empty]

/-- The segments hold the entries in order, no closed one is empty, and none has more entries than are read back. -/
structure Segments.Holds (config : WalStoreConfig) (segs : Segments) (entries : List WalEntry) : Prop where
  joined : segs.closed.flatten ++ segs.last = entries
  nonempty : ∀ es ∈ segs.closed, es ≠ []
  short : ∀ es ∈ segs.closed ++ [segs.last], es.length ≤ max 1 config.max_entries_per_segment
  started : segs.last = [] → segs.closed = []

theorem Segments.Holds.place (h : segs.Holds config entries) (e : WalEntry) :
    (segs.place config e).Holds config (entries ++ [e]) := by
  obtain ⟨closed,last⟩ := segs
  obtain ⟨hj,hn,hsh,hs⟩ := h
  simp only at hj hn hsh hs
  rw [Segments.place]
  have hc : ∀ es ∈ closed, es.length ≤ max 1 config.max_entries_per_segment := fun es hes =>
    hsh es (mem_append_left _ hes)
  have hls := hsh last (mem_append_right _ (.head _))
  split
  · next hl =>
    simp only at hl
    subst hl
    rw [hs rfl] at hj ⊢
    refine ⟨by rw [← hj]; simp,by simp,?_,by simp⟩
    simp
  · next hl =>
    split
    · refine ⟨by rw [← hj]; simp,?_,?_,by simp⟩
      · intro es hes
        rcases mem_append.mp hes with hes | hes
        · exact hn es hes
        · rw [mem_singleton.mp hes]
          exact hl
      · intro es hes
        simp only [mem_append,mem_singleton] at hes
        rcases hes with (hes | rfl) | rfl
        · exact hc es hes
        · exact hls
        · simp
    · next hr =>
      refine ⟨by rw [← hj]; simp,hn,?_,by simp⟩
      intro es hes
      rcases mem_append.mp hes with hes | hes
      · exact hc es hes
      · rw [mem_singleton.mp hes,length_append,length_singleton]
        simp only at hr ⊢
        omega

theorem holds_segmentsOf (config : WalStoreConfig) (entries : List WalEntry) :
    (segmentsOf config entries).Holds config entries := by
  have ha : ∀ (segs : Segments) (done : List WalEntry), segs.Holds config done →
      (entries.foldl (Segments.place config) segs).Holds config (done ++ entries) := by
    induction entries with
    | nil => simp
    | cons e entries ih =>
      intro segs done h
      rw [append_cons]
      exact ih _ _ (h.place e)
  exact ha ⟨[],[]⟩ [] ⟨rfl,by simp,by simp,fun _ => rfl⟩

end
end HeliosNano.Replication.WalStore
