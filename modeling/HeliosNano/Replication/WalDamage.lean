import HeliosNano.Replication.WalRebuild

namespace HeliosNano.Replication.WalStore
open Foundation Storage List Nat

/-- The entries whose records lie within so many bytes. -/
def intact : Nat → List WalEntry → List WalEntry
  | _, [] => []
  | n, e::rest => if e.recordSize ≤ n then e :: intact (n-e.recordSize) rest else []

/-- The files after the damage: the last one keeps so many bytes, and other bytes follow. -/
def damaged (run : Store × Disk) (kept : Nat) (junk : Bytes) : Disk :=
  match run.2.lookup run.1.current_segment with
  | none => run.2
  | some file => run.2.insert run.1.current_segment (file.take kept ++ junk)

def Lists (dir : List Bytes) (disk : Disk) : Prop := ∀ file, file ∈ dir ↔ ∃ id, disk.lookup id = some file

/-- The entries whose records precede the damage. -/
def survivors (segs : Segments) (kept : Nat) : List WalEntry :=
  segs.closed.flatten ++ intact (kept-segmentHeaderSize) segs.last

def tailFile (segs : Segments) (kept : Nat) (junk : Bytes) : Bytes :=
  (segmentFile (segs.closed.length+1) 0 segs.last).take kept ++ junk

/-- The entries can be recorded, and segments are read that hold any entry at all. -/
def Sound (crc : Bytes → Nat) (config : WalStoreConfig) (es : List WalEntry) : Prop :=
  (∀ e ∈ es, e.Recordable crc config) ∧ (es ≠ [] → 0 < config.max_entries_per_segment)

/-- Where the last file still has a header, what it reads behind the intact records is what was appended there, and its
first LSN is not beyond the last one read. -/
def TailReads (crc : Bytes → Nat) (config : WalStoreConfig) (segs : Segments) (kept : Nat) (file : Bytes) : Prop :=
  segs.last ≠ [] → Headed file → ∃ es, Reads crc config
      (config.max_entries_per_segment - (intact (kept-segmentHeaderSize) segs.last).length)
      (file.drop (segmentHeaderSize + recordsSize (intact (kept-segmentHeaderSize) segs.last))) es ∧
    intact (kept-segmentHeaderSize) segs.last ++ es <+: segs.last ∧ startLsn file ≤ lastLsn (survivors segs kept ++ es)

/-- `init` rebuilds a prefix of the entries, with every survivor in it. -/
def Recovers (crc : Bytes → Nat) (config : WalStoreConfig) (dir : List Bytes) (checkpoint : Option Bytes)
    (entries kept : List WalEntry) : Prop :=
  ∃ p, p <+: entries ∧ kept <+: p ∧ Rebuilds crc config dir checkpoint p

/-- The two passes over a file agree on its first LSN, its last LSN and its number of entries. -/
def Agrees (crc : Bytes → Nat) (config : WalStoreConfig) (file : Bytes) : Prop :=
  ∃ info es, LoadsAs crc config file info es ∧ es ≠ [] ∧ info.start_lsn = firstLsn es ∧ info.end_lsn = lastLsn es ∧
    info.entry_count = es.length

variable {crc : Bytes → Nat} {config : WalStoreConfig} {entries : List WalEntry} {segs : Segments} {kept : Nat}
  {junk : Bytes} {dir : List Bytes} {checkpoint : Option Bytes}

theorem recordSize_pos (e : WalEntry) : 0 < e.recordSize := by
  rw [WalEntry.recordSize]
  omega

theorem take_recordsOf (n : Nat) (es : List WalEntry) : ∃ rest cut, es = intact n es ++ rest ∧
    (recordsOf es).take n = recordsOf (intact n es) ++ cut ∧
    (cut = [] ∨ ∃ e ∈ rest, ∃ m < e.recordSize, cut = e.recordBytes.take m) ∧ recordsSize (intact n es) ≤ n := by
  induction es generalizing n with
  | nil => exact ⟨[],[],rfl,by simp [recordsOf,intact],.inl rfl,zero_le _⟩
  | cons e es ih =>
    have hs : e.recordBytes.length = e.recordSize := length_recordOf
    rw [intact]
    by_cases hle : e.recordSize ≤ n
    · rw [if_pos hle]
      obtain ⟨rest,cut,hsp,htk,hct,hw⟩ := ih (n-e.recordSize)
      refine ⟨rest,cut,by rw [cons_append,← hsp],?_,hct,?_⟩
      · have hc : recordsOf (e::es) = e.recordBytes ++ recordsOf es := flatMap_cons
        have hc' : recordsOf (e :: intact (n-e.recordSize) es) =
            e.recordBytes ++ recordsOf (intact (n-e.recordSize) es) := flatMap_cons
        rw [hc,hc',take_append,hs,htk,take_of_length_le (by omega),append_assoc]
      · have hc : recordsSize (e :: intact (n-e.recordSize) es) =
            e.recordSize + recordsSize (intact (n-e.recordSize) es) := by simp [recordsSize]
        omega
    · rw [if_neg hle]
      refine ⟨e::es,e.recordBytes.take n,rfl,?_,.inr ⟨e,.head _,n,by omega,rfl⟩,zero_le _⟩
      have hc : recordsOf (e::es) = e.recordBytes ++ recordsOf es := flatMap_cons
      rw [hc,take_append_of_le_length (by omega)]
      rfl

theorem intact_prefix (n : Nat) (es : List WalEntry) : intact n es <+: es := by
  obtain ⟨rest,-,hs,-⟩ := take_recordsOf n es
  exact ⟨rest,hs.symm⟩

theorem intact_eq_nil (h : kept < segmentHeaderSize) (es : List WalEntry) : intact (kept-segmentHeaderSize) es = [] := by
  cases es with
  | nil => rfl
  | cons e es =>
    have hp := recordSize_pos e
    rw [intact,if_neg (by omega)]

theorem tailFile_eq (h : segmentHeaderSize ≤ kept) : tailFile segs kept junk =
    segmentHeader (segs.closed.length+1) (firstLsn segs.last) 0 ++
      ((recordsOf segs.last).take (kept-segmentHeaderSize) ++ junk) := by
  rw [tailFile,segmentFile,take_append,length_segmentHeader,
    take_of_length_le (by rw [length_segmentHeader]; exact h),append_assoc]
  rfl

theorem mem_dir_iff (hdir : Lists dir (damaged (appendAll config entries) kept junk)) (file : Bytes) :
    file ∈ dir ↔ (∃ i es, (segmentsOf config entries).closed[i]? = some es ∧ file = segmentFile (i+1) es.length es) ∨
      ((segmentsOf config entries).last ≠ [] ∧ file = tailFile (segmentsOf config entries) kept junk) := by
  have hly := layout_appendAll config entries
  have hst := (holds_segmentsOf config entries).started
  generalize segmentsOf config entries = segs at hly hst
  generalize appendAll config entries = run at hly hdir
  rw [hdir file]
  have hcl : ∀ id, id ≠ segs.closed.length+1 → (run.2.lookup id = some file ↔
      ∃ i es, id = i+1 ∧ segs.closed[i]? = some es ∧ file = segmentFile (i+1) es.length es) := by
    intro id hid
    rw [hly.files,Segments.file_of_ne hid]
    cases id with
    | zero => simp
    | succ i =>
      simp only [Nat.succ_ne_zero,if_false,Nat.add_sub_cancel,Option.map_eq_some_iff,Nat.add_right_cancel_iff,
        exists_and_left,exists_eq_left']
      exact exists_congr fun es => and_congr_right fun _ => eq_comm
  by_cases hl : segs.last = []
  · -- Nothing was appended, and there is no file.
    have hnl := hst hl
    have hn : ∀ id, run.2.lookup id = none := by
      intro id
      rw [hly.files,Segments.file,if_neg (by simp [hl]),hnl]
      simp
    rw [damaged,hn]
    simp [hn,hl,hnl]
  · have hc := hly.current
    rw [if_neg hl] at hc
    have hf : run.2.lookup run.1.current_segment = some (segmentFile (segs.closed.length+1) 0 segs.last) := by
      rw [hly.files,hc,Segments.file_last hl]
    rw [damaged,hf]
    simp only [Map.lookup_insert_ite,hc]
    constructor
    · rintro ⟨id,hid⟩
      split at hid
      · cases hid
        exact .inr ⟨hl,rfl⟩
      · next hne =>
        obtain ⟨i,es,-,hes,hs⟩ := (hcl id hne).mp hid
        exact .inl ⟨i,es,hes,hs⟩
    · rintro (⟨i,es,hes,hs⟩ | ⟨-,rfl⟩)
      · have hlt := (List.getElem?_eq_some_iff.mp hes).1
        have hne : i+1 ≠ segs.closed.length+1 := by omega
        refine ⟨i+1,?_⟩
        rw [if_neg hne]
        exact (hcl (i+1) hne).mpr ⟨i,es,rfl,hes,hs⟩
      · exact ⟨segs.closed.length+1,by rw [if_pos rfl]; rfl⟩

variable {es : List WalEntry}

theorem firstLsn_lt (hne : es ≠ []) (htyped : ∀ e ∈ es, e.WellTyped) : firstLsn es < 2^64 := by
  cases es with
  | nil => exact absurd rfl hne
  | cons e es => exact (htyped e (.head _)).1

theorem reads_recordsOf (hes : ∀ e ∈ es, e.Recordable crc config ∧ e.WellTyped)
    (hsh : es.length ≤ config.max_entries_per_segment) : Reads crc config config.max_entries_per_segment (recordsOf es) es := by
  have hn : Reads crc config (config.max_entries_per_segment-es.length) [] [] :=
    .stop fun t e rest _ _ h => absurd h.symm recordOf_ne_nil
  have hr := Reads.records hes hn
  rwa [Nat.add_sub_cancel' hsh,append_nil,append_nil] at hr

theorem loadsAs_segmentFile {id count : Nat} {es : List WalEntry} (hne : es ≠ [])
    (hes : ∀ e ∈ es, e.Recordable crc config ∧ e.WellTyped) (hsh : es.length ≤ config.max_entries_per_segment) :
    ∃ info, LoadsAs crc config (segmentFile id count es) info es ∧ info.start_lsn = firstLsn es ∧
      info.entry_count = es.length := by
  have hs : firstLsn es < 2^64 := firstLsn_lt hne fun e he => (hes e he).2
  obtain ⟨hh,hf,hd⟩ := @headed_segmentHeader id count (firstLsn es) hs (recordsOf es)
  have hr := reads_recordsOf hes hsh
  rw [← hd] at hr
  exact ⟨_,loadsAs_iff.mpr ⟨hh,hr,rfl⟩,hf,rfl⟩

theorem firstLsn_le_lastLsn (hsorted : es.Pairwise fun e e' => e.lsn < e'.lsn) : firstLsn es ≤ lastLsn es := by
  cases es with
  | nil => exact le_refl _
  | cons e es => exact lsn_le_lastLsn hsorted (.head _)

theorem LoadsAs.end_eq_lastLsn {file : Bytes} {info : WalSegmentInfo}
    (h : LoadsAs crc config file info es) (hes : es ≠ []) : info.end_lsn = lastLsn es := by
  rw [h.end_lsn,lastLsn,getLast?_eq_some_getLast hes]
  rfl

theorem lastLsn_append {es' : List WalEntry} (h : es' ≠ []) : lastLsn (es ++ es') = lastLsn es' := by
  rw [lastLsn,lastLsn,getLast?_append_of_ne_nil _ h]

theorem Sound.of_subset {es' : List WalEntry} (h : Sound crc config es) (hs : ∀ e ∈ es', e ∈ es) : Sound crc config es' := by
  refine ⟨fun e he => h.1 e (hs e he),fun hne => h.2 ?_⟩
  obtain ⟨e,he⟩ := exists_mem_of_ne_nil es' hne
  exact ne_nil_of_mem (hs e he)

theorem survivors_closed : ∀ e ∈ segs.closed.flatten, e ∈ survivors segs kept := fun _ he => mem_append_left _ he

theorem Segments.Holds.prefix_of_tail (h : segs.Holds config entries) {tail : List WalEntry} (htl : tail <+: segs.last) :
    segs.closed.flatten ++ tail <+: entries := by
  have hl := (prefix_append_right_inj segs.closed.flatten).mpr htl
  rwa [h.joined] at hl

section
variable (htyped : ∀ e ∈ entries, e.WellTyped) (hsorted : entries.Pairwise fun e e' => e.lsn < e'.lsn)
  (hdir : Lists dir (damaged (appendAll config entries) kept junk))
include htyped

theorem loadsAs_closed (hsn : Sound crc config (segmentsOf config entries).closed.flatten) {i : Nat} {es : List WalEntry}
    (hes : (segmentsOf config entries).closed[i]? = some es) : ∃ info,
      LoadsAs crc config (segmentFile (i+1) es.length es) info es ∧ info.start_lsn = firstLsn es ∧
        info.entry_count = es.length := by
  have hh := holds_segmentsOf config entries
  have hm := mem_of_getElem? hes
  have hne := hh.nonempty es hm
  have hs : ∀ e ∈ es, e ∈ (segmentsOf config entries).closed.flatten := fun e he =>
    mem_flatten.mpr ⟨es,hm,he⟩
  have hp := hsn.2 (ne_nil_of_mem (hs _ (getLast_mem hne)))
  have hsh := hh.short es (mem_append_left _ hm)
  refine loadsAs_segmentFile hne (fun e he => ⟨hsn.1 e (hs e he),htyped e ?_⟩) (by omega)
  rw [← hh.joined]
  exact mem_append_left _ (hs e he)

include hsorted hdir

theorem rebuilds_segments {tail : List WalEntry} (hsn : Sound crc config (segmentsOf config entries).closed.flatten)
    (htl : tail <+: (segmentsOf config entries).last)
    (hlds : tail ≠ [] → ∃ info, LoadsAs crc config (tailFile (segmentsOf config entries) kept junk) info tail)
    (hu : ∀ info es, (segmentsOf config entries).last ≠ [] →
      LoadsAs crc config (tailFile (segmentsOf config entries) kept junk) info es → es = tail ∧
        info.start_lsn ≤ lastLsn ((segmentsOf config entries).closed.flatten ++ tail)) :
    Rebuilds crc config dir checkpoint ((segmentsOf config entries).closed.flatten ++ tail) := by
  have hm := mem_dir_iff hdir
  have hh := holds_segmentsOf config entries
  have hc := @loadsAs_closed crc config entries htyped hsn
  generalize segmentsOf config entries = segs at hm hh hsn htl hlds hu hc ⊢
  have hld := hh.prefix_of_tail htl
  refine rebuilds_of_sorted (hsorted.sublist hld.sublist) ?_ ?_
  · intro file hf info es hl
    rcases (hm file).mp hf with ⟨i,es',hes',rfl⟩ | ⟨hls,rfl⟩
    · obtain ⟨info',hl',hs,-⟩ := hc hes'
      obtain ⟨rfl,rfl⟩ := hl.unique hl'
      have hne := hh.nonempty es (mem_of_getElem? hes')
      have hsb : es.Sublist (segs.closed.flatten ++ tail) :=
        (sublist_flatten_of_mem (mem_of_getElem? hes')).trans (sublist_append_left _ _)
      refine ⟨hsb,?_,fun hn => absurd hn hne⟩
      rw [hs,hl.end_eq_lastLsn hne]
      exact firstLsn_le_lastLsn (hsorted.sublist (hsb.trans hld.sublist))
    · obtain ⟨rfl,hs⟩ := hu info es hls hl
      refine ⟨sublist_append_right _ _,?_,fun hn => ?_⟩
      · by_cases hn : es = []
        · rw [hl.end_lsn,hn]
          exact le_refl _
        · rw [hl.end_eq_lastLsn hn]
          rwa [lastLsn_append hn] at hs
      · rw [hl.end_lsn,hn]
        rwa [hn] at hs
  · intro e he
    rcases mem_append.mp he with he | he
    · obtain ⟨es,hes,he⟩ := mem_flatten.mp he
      obtain ⟨i,hi⟩ := mem_iff_getElem?.mp hes
      obtain ⟨info,hl,-⟩ := hc hi
      exact ⟨_,(hm _).mpr (.inl ⟨i,es,hi,rfl⟩),info,es,hl,he⟩
    · obtain ⟨info,hl⟩ := hlds (ne_nil_of_mem he)
      have hls : segs.last ≠ [] := ne_nil_of_mem (htl.subset he)
      exact ⟨_,(hm _).mpr (.inr ⟨hls,rfl⟩),info,tail,hl,he⟩

omit hsorted hdir in
theorem headed_tailFile (hl : (segmentsOf config entries).last ≠ []) (hhd : segmentHeaderSize ≤ kept) :
    Headed (tailFile (segmentsOf config entries) kept junk) ∧
      startLsn (tailFile (segmentsOf config entries) kept junk) = firstLsn (segmentsOf config entries).last := by
  have hs : firstLsn (segmentsOf config entries).last < 2^64 := by
    refine firstLsn_lt hl fun e he => htyped e ?_
    rw [← (holds_segmentsOf config entries).joined]
    exact mem_append_right _ he
  rw [tailFile_eq hhd]
  obtain ⟨hh,hf,-⟩ := headed_segmentHeader hs _
  exact ⟨hh,hf⟩

variable {es : List WalEntry}

omit hsorted hdir in
theorem tail_reads (hs : Sound crc config (survivors (segmentsOf config entries) kept)) (hr : Reads crc config
      (config.max_entries_per_segment - (intact (kept-segmentHeaderSize) (segmentsOf config entries).last).length)
      ((tailFile (segmentsOf config entries) kept junk).drop
        (segmentHeaderSize + recordsSize (intact (kept-segmentHeaderSize) (segmentsOf config entries).last))) es) :
    Reads crc config config.max_entries_per_segment ((tailFile (segmentsOf config entries) kept junk).drop segmentHeaderSize)
      (intact (kept-segmentHeaderSize) (segmentsOf config entries).last ++ es) := by
  have hh := holds_segmentsOf config entries
  generalize segmentsOf config entries = segs at hh hs hr ⊢
  by_cases hk : kept < segmentHeaderSize
  · rw [intact_eq_nil hk] at hr ⊢
    exact hr
  have hhd := Nat.not_lt.mp hk
  obtain ⟨rest,cut,hsp,htk,-,hw⟩ := take_recordsOf (kept-segmentHeaderSize) segs.last
  generalize hm : intact (kept-segmentHeaderSize) segs.last = m at *
  have hmm : ∀ e ∈ m, e ∈ survivors segs kept := fun e he => by
    rw [survivors,hm]
    exact mem_append_right _ he
  have hm' : ∀ e ∈ m, e.Recordable crc config ∧ e.WellTyped := by
    refine fun e he => ⟨hs.1 e (hmm e he),htyped e ?_⟩
    rw [← hh.joined,hsp]
    exact mem_append_right _ (mem_append_left _ he)
  have hsh : m.length ≤ config.max_entries_per_segment := by
    cases m with
    | nil => exact Nat.zero_le _
    | cons e m =>
      have hp := hs.2 (ne_nil_of_mem (hmm e (.head _)))
      have hl := hh.short segs.last (mem_append_right _ (.head _))
      have hle : (e::m).length ≤ segs.last.length := by
        rw [hsp,length_append]
        exact Nat.le_add_right _ _
      omega
  have hb : (tailFile segs kept junk).drop segmentHeaderSize = recordsOf m ++ (cut ++ junk) := by
    rw [tailFile_eq hhd,htk,append_assoc]
    exact drop_left' (length_segmentHeader _ _ _)
  have hrest : (tailFile segs kept junk).drop (segmentHeaderSize + recordsSize m) = cut ++ junk := by
    rw [← drop_drop,hb,drop_left' (length_recordsOf m)]
  rw [hrest] at hr
  rw [hb]
  have ha := Reads.records hm' hr
  rwa [Nat.add_sub_cancel' hsh] at ha

theorem recovers_of (hs : Sound crc config (survivors (segmentsOf config entries) kept))
    (htl : TailReads crc config (segmentsOf config entries) kept (tailFile (segmentsOf config entries) kept junk)) :
    Recovers crc config dir checkpoint entries (survivors (segmentsOf config entries) kept) := by
  have hc := hs.of_subset survivors_closed
  have hh := holds_segmentsOf config entries
  by_cases hlv : (segmentsOf config entries).last ≠ [] ∧ Headed (tailFile (segmentsOf config entries) kept junk)
  · obtain ⟨es,hr,hlg,hst⟩ := htl hlv.1 hlv.2
    have hld := loadsAs_iff.mpr ⟨hlv.2,tail_reads htyped hs hr,rfl⟩
    rw [survivors,append_assoc] at hst
    refine ⟨_,hh.prefix_of_tail hlg,?_,
      rebuilds_segments htyped hsorted hdir hc hlg (fun _ => ⟨_,hld⟩) ?_⟩
    · rw [survivors,← append_assoc]
      exact prefix_append _ _
    · intro info es' _ hl'
      obtain ⟨rfl,rfl⟩ := hl'.unique hld
      exact ⟨rfl,hst⟩
  · -- Without a header, or without a last file, no record of it is intact.
    have hn : intact (kept-segmentHeaderSize) (segmentsOf config entries).last = [] := by
      by_cases hl : (segmentsOf config entries).last = []
      · rw [hl]
        rfl
      · refine intact_eq_nil (not_le.mp fun hhd => hlv ⟨hl,?_⟩) _
        exact (headed_tailFile htyped hl hhd).1
    refine ⟨(segmentsOf config entries).closed.flatten ++ [],hh.prefix_of_tail nil_prefix,?_,
      rebuilds_segments htyped hsorted hdir hc nil_prefix (fun h => absurd rfl h)
        fun info es hl hld => absurd ⟨hl,hld.headed⟩ hlv⟩
    rw [survivors,hn]

omit htyped hsorted hdir in
theorem sound_of_recovers (h : Recovers crc config dir checkpoint entries es) : Sound crc config es := by
  obtain ⟨p,-,hk,hrb⟩ := h
  have hl : ∀ e ∈ es, e.Recordable crc config ∧ 0 < config.max_entries_per_segment := by
    intro e he
    obtain ⟨file,-,info,es',hld,he'⟩ := hrb.loaded e (hk.subset he)
    have hr := (loadsAs_iff.mp hld).2.1
    exact ⟨(hr.readable e he').1,lt_of_lt_of_le (length_pos_of_mem he') hr.length_le⟩
  refine ⟨fun e he => (hl e he).1,fun hne => ?_⟩
  obtain ⟨e,he⟩ := exists_mem_of_ne_nil es hne
  exact (hl e he).2

/-- Where a truncated log may end: in its last header, behind a record of its last segment, or before anything. -/
def Left (segs : Segments) (kept : Nat) : Prop :=
  kept < segmentHeaderSize ∨ intact (kept-segmentHeaderSize) segs.last ≠ [] ∨
    (segs.closed = [] ∧ firstLsn segs.last = 0)

omit htyped hsorted hdir in
theorem truncated_reads (hs : ∀ e ∈ segs.last, e.data.length < 2^32) (hh : segmentHeaderSize ≤ kept) (left : Nat) :
    Reads crc config left ((tailFile segs kept []).drop
      (segmentHeaderSize + recordsSize (intact (kept-segmentHeaderSize) segs.last))) [] := by
  obtain ⟨rest,cut,hsp,htk,hc,-⟩ := take_recordsOf (kept-segmentHeaderSize) segs.last
  have hrest : (tailFile segs kept []).drop
      (segmentHeaderSize + recordsSize (intact (kept-segmentHeaderSize) segs.last)) = cut := by
    rw [tailFile_eq hh,htk,append_nil,← drop_drop]
    have hd : ∀ bytes : Bytes, (segmentHeader (segs.closed.length+1) (firstLsn segs.last) 0 ++ bytes).drop
        segmentHeaderSize = bytes := fun bytes => drop_left' (length_segmentHeader _ _ _)
    rw [hd,drop_left' (length_recordsOf _)]
  rw [hrest]
  rcases hc with rfl | ⟨e,he,m,hm,rfl⟩
  · exact .stop fun t e rest _ _ h => absurd h.symm recordOf_ne_nil
  · refine .cut (hs e ?_) hm
    rw [hsp]
    exact mem_append_right _ he

omit htyped hsorted hdir in
theorem firstLsn_of_prefix {es' : List WalEntry} (h : es <+: es') (hne : es ≠ []) : firstLsn es' = firstLsn es := by
  obtain ⟨rest,rfl⟩ := h
  rw [firstLsn,firstLsn,head?_append_of_ne_nil _ hne]

omit hsorted hdir in
theorem tailReads_of_left (hs : ∀ e ∈ entries, e.data.length < 2^32)
    (hsorted : entries.Pairwise fun e e' => e.lsn < e'.lsn) (hlf : Left (segmentsOf config entries) kept) :
    TailReads crc config (segmentsOf config entries) kept (tailFile (segmentsOf config entries) kept []) := by
  have hhl := holds_segmentsOf config entries
  intro hls hh
  have hhd : segmentHeaderSize ≤ kept := by
    have hln := hh.1
    rw [tailFile,append_nil,length_take] at hln
    omega
  have hf := (@headed_tailFile config entries kept [] htyped hls hhd).2
  generalize segmentsOf config entries = segs at *
  have hs' : ∀ e ∈ segs.last, e.data.length < 2^32 := fun e he => hs e (by
    rw [← hhl.joined]
    exact mem_append_right _ he)
  have hl := intact_prefix (kept-segmentHeaderSize) segs.last
  refine ⟨[],truncated_reads hs' hhd _,by rwa [append_nil],?_⟩
  rw [hf,append_nil]
  rcases hlf with hk | hne | ⟨-,hz⟩
  · omega
  · rw [survivors,lastLsn_append hne, firstLsn_of_prefix hl hne]
    have hsb : segs.last.Sublist entries := by
      rw [← hhl.joined]
      exact sublist_append_right _ _
    exact firstLsn_le_lastLsn (hsorted.sublist (hl.sublist.trans hsb))
  · rw [hz]
    exact zero_le _

omit htyped hsorted hdir in
theorem Rebuilds.above {p : List WalEntry} (h : Rebuilds crc config dir checkpoint p) {file : Bytes} (hf : file ∈ dir)
    {info : WalSegmentInfo} (hl : LoadsAs crc config file info es) : info.end_lsn ≤ lastLsn p := by
  obtain ⟨store,hi,-,hc⟩ := h
  obtain ⟨g,hg,-,hm⟩ := init_eq_some hi
  rw [← hc,hm]
  exact (gathers_foldlM hg).above file hf info es hl

omit hdir in
theorem left_of_recovers (hdir : Lists dir (damaged (appendAll config entries) kept []))
    (hs : ∀ e ∈ entries, e.data.length < 2^32)
    (h : Recovers crc config dir checkpoint entries (survivors (segmentsOf config entries) kept)) :
    Left (segmentsOf config entries) kept := by
  have hsn := (sound_of_recovers h).of_subset survivors_closed
  have hh := holds_segmentsOf config entries
  by_contra hlf
  simp only [Left,not_or,not_lt,not_not] at hlf
  obtain ⟨hhr,hn,hlr⟩ := hlf
  have hl : (segmentsOf config entries).last ≠ [] := fun hl => hlr ⟨hh.started hl,by rw [hl]; rfl⟩
  obtain ⟨hhd,hfs⟩ := @headed_tailFile config entries kept [] htyped hl hhr
  have hs' : ∀ e ∈ (segmentsOf config entries).last, e.data.length < 2^32 := fun e he => hs e (by
    rw [← hh.joined]
    exact mem_append_right _ he)
  have hrd := @truncated_reads crc config _ _ hs' hhr config.max_entries_per_segment
  rw [hn] at hrd
  -- The last file loads no entry, and its first LSN is the one that `init` ends with.
  have hld := loadsAs_iff.mpr ⟨hhd,hrd,rfl⟩
  obtain ⟨p,-,hk,hr⟩ := h
  have htl := hr.above ((mem_dir_iff hdir _).mpr (.inr ⟨hl,rfl⟩)) hld
  simp only [getLast?_nil,Option.map_none,Option.getD_none,hfs] at htl
  have hcl : ∀ e ∈ p, e ∈ (segmentsOf config entries).closed.flatten := by
    intro e he
    obtain ⟨file,hf,info,es,hl',he'⟩ := hr.loaded e he
    rcases (mem_dir_iff hdir file).mp hf with ⟨i,es',hes',rfl⟩ | ⟨-,rfl⟩
    · obtain ⟨info',hl'',-⟩ := loadsAs_closed htyped hsn hes'
      obtain ⟨rfl,rfl⟩ := hl'.unique hl''
      exact mem_flatten.mpr ⟨es,mem_of_getElem? hes',he'⟩
    · obtain ⟨-,rfl⟩ := hl'.unique hld
      cases he'
  have hb : ∀ e ∈ (segmentsOf config entries).closed.flatten, e.lsn < firstLsn (segmentsOf config entries).last := by
    intro e he
    rw [← hh.joined] at hsorted
    cases hc : (segmentsOf config entries).last with
    | nil => exact absurd hc hl
    | cons first rest => exact (pairwise_append.mp hsorted).2.2 e he first (by rw [hc]; exact .head _)
  by_cases hp : p = []
  · rw [hp] at htl
    have hem : (segmentsOf config entries).closed = [] := by
      rw [eq_nil_iff_forall_not_mem]
      intro es hes
      obtain ⟨e,he⟩ := exists_mem_of_ne_nil es (hh.nonempty es hes)
      have hm := hk.subset (survivors_closed e (mem_flatten.mpr ⟨es,hes,he⟩))
      rw [hp] at hm
      cases hm
    exact hlr ⟨hem,le_zero.mp htl⟩
  · obtain ⟨e,he,hls⟩ := exists_lastLsn hp
    have hlt := hb e (hcl e he)
    rw [hls] at hlt
    exact absurd htl (not_le.mpr hlt)

end

theorem intact_all {n : Nat} (h : recordsSize es ≤ n) : intact n es = es := by
  induction es generalizing n with
  | nil => rfl
  | cons e es ih =>
    simp only [recordsSize,map_cons,sum_cons] at h
    rw [intact,if_pos (by omega),ih (by simp only [recordsSize]; omega)]

def lastFileLength (segs : Segments) : Nat := segmentHeaderSize + recordsSize segs.last

theorem tailFile_whole : tailFile segs (lastFileLength segs) [] = segmentFile (segs.closed.length+1) 0 segs.last := by
  have hl : (segmentFile (segs.closed.length+1) 0 segs.last).length = lastFileLength segs := by
    rw [segmentFile,length_append,length_segmentHeader,length_recordsOf]
    rfl
  rw [tailFile,append_nil,← hl,take_length]

theorem survivors_whole (h : segs.Holds config entries) : survivors segs (lastFileLength segs) = entries := by
  rw [survivors,intact_all (by rw [lastFileLength,Nat.add_sub_cancel_left]),h.joined]

theorem lists_damaged_whole (hdir : Lists dir (appendAll config entries).2) :
    Lists dir (damaged (appendAll config entries) (lastFileLength (segmentsOf config entries)) []) := by
  have hl := layout_appendAll config entries
  have hh := holds_segmentsOf config entries
  have hw := @tailFile_whole (segmentsOf config entries)
  generalize segmentsOf config entries = segs at *
  generalize appendAll config entries = run at *
  intro file
  rw [hdir file,damaged]
  cases hc : run.2.lookup run.1.current_segment with
  | none => rfl
  | some last =>
    have hls : segs.last ≠ [] := by
      intro hn
      rw [hl.files,hl.current,if_pos hn,hh.started hn,Segments.file,
        if_neg (by simp [hn]),if_pos length_nil] at hc
      cases hc
    have hsame : last = segmentFile (segs.closed.length+1) 0 segs.last := by
      rw [hl.files,hl.current,if_neg hls,Segments.file_last hls] at hc
      exact (Option.some.inj hc).symm
    have htk : last.take (lastFileLength segs) ++ [] = last := by
      rw [tailFile,← hsame] at hw
      exact hw
    simp only [htk]
    refine exists_congr fun id => ?_
    rw [Map.lookup_insert_ite]
    split
    · next hid => rw [hid,hc]
    · rfl

theorem undamaged_iff (htyped : ∀ e ∈ entries, e.WellTyped) (hsorted : entries.Pairwise fun e e' => e.lsn < e'.lsn)
    (hdir : Lists dir (appendAll config entries).2) :
    (Rebuilds crc config dir checkpoint entries ∧ ∀ file ∈ dir, Agrees crc config file) ↔ Sound crc config entries := by
  constructor
  · exact fun h => sound_of_recovers ⟨entries,prefix_rfl,prefix_rfl,h.1⟩
  · intro hsn
    have hh := holds_segmentsOf config entries
    have hd := lists_damaged_whole hdir
    have hs := survivors_whole hh
    have hsm : ∀ e ∈ entries, e.data.length < 2^32 := fun e he => (hsn.1 e he).2.2.1
    have ha : intact (lastFileLength (segmentsOf config entries) - segmentHeaderSize) (segmentsOf config entries).last =
        (segmentsOf config entries).last := intact_all (by rw [lastFileLength,Nat.add_sub_cancel_left])
    have hlf : Left (segmentsOf config entries) (lastFileLength (segmentsOf config entries)) := by
      by_cases hl : (segmentsOf config entries).last = []
      · exact .inr (.inr ⟨hh.started hl,by rw [hl]; rfl⟩)
      · exact .inr (.inl (by rwa [ha]))
    have hr := @recovers_of crc config entries _ _ dir checkpoint htyped hsorted hd (by rwa [hs])
      (tailReads_of_left htyped hsm hsorted hlf)
    obtain ⟨p,hp,hk,hrb⟩ := hr
    rw [hs] at hk
    rw [hp.eq_of_length_le hk.length_le] at hrb
    refine ⟨hrb,fun file hf => ?_⟩
    have hcl : Sound crc config (segmentsOf config entries).closed.flatten :=
      hsn.of_subset fun e he => hs ▸ survivors_closed e he
    rcases (mem_dir_iff hd file).mp hf with ⟨i,es,hes,rfl⟩ | ⟨hl,rfl⟩
    · obtain ⟨info,hld,hst,hc⟩ := loadsAs_closed htyped hcl hes
      have hne := hh.nonempty es (mem_of_getElem? hes)
      exact ⟨info,es,hld,hne,hst,hld.end_eq_lastLsn hne,hc⟩
    · have hm : ∀ e ∈ (segmentsOf config entries).last, e ∈ entries := fun e he => by
        rw [← hh.joined]
        exact mem_append_right _ he
      have hps := hsn.2 (ne_nil_of_mem (hm _ (getLast_mem hl)))
      have hsh := hh.short _ (mem_append_right _ (.head _))
      rw [tailFile_whole]
      obtain ⟨info,hld,hst,hc⟩ := @loadsAs_segmentFile crc config
        ((segmentsOf config entries).closed.length + 1) 0 _ hl
        (fun e he => ⟨hsn.1 e (hm e he),htyped e (hm e he)⟩) (by omega)
      exact ⟨info,_,hld,hl,hst,hld.end_eq_lastLsn hl,hc⟩

/-- The recovery of the log. Without damage it is complete exactly when every entry can be recorded. After damage at the
tail of the last file, the entries in front of it that can be recorded come back, with those that the tail reads as they
were appended; only entries that can be recorded come back. A truncated log comes back exactly when the entries in front
of the cut can be recorded and the cut leaves a record of the last segment, or not even its header. -/
theorem wal_recovers_prefix (crc : Bytes → Nat) (config : WalStoreConfig) {entries : List WalEntry}
    (htyped : ∀ e ∈ entries, e.WellTyped) (hsorted : entries.Pairwise fun e e' => e.lsn < e'.lsn) (checkpoint : Option Bytes) :
    (∀ dir, Lists dir (appendAll config entries).2 →
      ((Rebuilds crc config dir checkpoint entries ∧ ∀ file ∈ dir, Agrees crc config file) ↔ Sound crc config entries)) ∧
    ∀ kept junk dir, Lists dir (damaged (appendAll config entries) kept junk) →
      (Sound crc config (survivors (segmentsOf config entries) kept) ∧
          TailReads crc config (segmentsOf config entries) kept (tailFile (segmentsOf config entries) kept junk) →
        Recovers crc config dir checkpoint entries (survivors (segmentsOf config entries) kept)) ∧
      (Recovers crc config dir checkpoint entries (survivors (segmentsOf config entries) kept) →
        Sound crc config (survivors (segmentsOf config entries) kept)) ∧ (junk = [] → (∀ e ∈ entries, e.data.length < 2^32) →
        (Recovers crc config dir checkpoint entries (survivors (segmentsOf config entries) kept) ↔
          Sound crc config (survivors (segmentsOf config entries) kept) ∧ Left (segmentsOf config entries) kept)) := by
  refine ⟨fun dir hdir => undamaged_iff htyped hsorted hdir,fun kept junk dir hdir => ⟨?_,sound_of_recovers,?_⟩⟩
  · exact fun h => recovers_of htyped hsorted hdir h.1 h.2
  · rintro rfl hsmall
    constructor
    · exact fun h => ⟨sound_of_recovers h,left_of_recovers htyped hsorted hdir hsmall h⟩
    · exact fun h => recovers_of htyped hsorted hdir h.1 (tailReads_of_left htyped hsmall hsorted h.2)

/-- The CRC-32 of the segment format, bit by bit with the reflected polynomial. -/
def crc32 (bytes : Bytes) : Nat :=
  let shift (crc : Nat) : Nat := if crc%2 = 1 then (crc/2) ^^^ 0xEDB88320 else crc/2
  let byte (crc : Nat) (b : Byte) : Nat := (List.range 8).foldl (fun crc _ => shift crc) (crc ^^^ b.val)
  bytes.foldl byte 0xFFFFFFFF ^^^ 0xFFFFFFFF

example : crc32 [49,50,51,52,53,54,55,56,57] = 0xCBF43926 := by decide +kernel

def files (disk : Disk) : List Bytes := disk.entries.map Sigma.snd

theorem lists_files (disk : Disk) : Lists (files disk) disk := by
  intro file
  rw [files,mem_map]
  constructor
  · rintro ⟨⟨id,file'⟩,hm,rfl⟩
    exact ⟨id,AList.mem_lookup_iff.mpr hm⟩
  · rintro ⟨id,hid⟩
    exact ⟨⟨id,file⟩,AList.mem_lookup_iff.mp hid,rfl⟩

def smallConfig : WalStoreConfig := ⟨64,2,10⟩

def emptyEntry (lsn : Lsn) : WalEntry := ⟨lsn,none,.insert,[],0⟩

theorem wal_recovers_prefix_rollover :
    Rebuilds crc32 smallConfig (files (appendAll smallConfig [emptyEntry 1,emptyEntry 2,emptyEntry 3]).2) none
      [emptyEntry 1,emptyEntry 2,emptyEntry 3] := by
  have htyped : ∀ e ∈ [emptyEntry 1,emptyEntry 2,emptyEntry 3], e.WellTyped := by
    simp [emptyEntry,WalEntry.WellTyped]
  have hsound : Sound crc32 smallConfig [emptyEntry 1,emptyEntry 2,emptyEntry 3] := by
    have hcrc : crc32 [] = 0 := by decide
    simp [Sound,WalEntry.Recordable,emptyEntry,smallConfig,hcrc]
  exact ((( wal_recovers_prefix crc32 smallConfig htyped (by simp [emptyEntry]) none).1 _ (lists_files _)).mpr hsound).1

/-- A segment is full from the header on, and an entry has one byte more than a record may have. -/
def tightConfig : WalStoreConfig := ⟨0,2,10⟩

def oversizedEntry : WalEntry := ⟨2,none,.insert,[0],0xD202EF8D⟩

/-- An oversized entry is lost with no damage at all, a damaged LSN makes `init` panic, and a last segment without records
leaves the LSN of an entry that is not there. -/
theorem wal_recovery_fails :
    ¬Rebuilds crc32 tightConfig (files (appendAll tightConfig [emptyEntry 1,oversizedEntry,emptyEntry 3]).2) none
      [emptyEntry 1,oversizedEntry,emptyEntry 3] ∧ ¬Recovers crc32 smallConfig
      (files (damaged (appendAll smallConfig [emptyEntry 5]) 37 ([3,0,0,0,0,0,0,0] ++ [0,0,0,0]))) none
      [emptyEntry 5] (survivors (segmentsOf smallConfig [emptyEntry 5]) 37) ∧
    ¬Recovers crc32 smallConfig (files (damaged (appendAll smallConfig [emptyEntry 5]) 32 [])) none
      [emptyEntry 5] (survivors (segmentsOf smallConfig [emptyEntry 5]) 32) := by
  refine ⟨fun h => ?_,fun h => ?_,fun h => ?_⟩
  · have hsound := sound_of_recovers ⟨_,prefix_rfl,prefix_rfl,h⟩
    have hfits := (hsound.1 oversizedEntry (.tail _ (.head _))).2.2.2
    exact absurd hfits (by decide)
  · obtain ⟨p,-,-,store,hinit,-⟩ := h
    have hpanic : init crc32 smallConfig Store.new
        (files (damaged (appendAll smallConfig [emptyEntry 5]) 37 ([3,0,0,0,0,0,0,0] ++ [0,0,0,0]))) none =
          none := rfl
    rw [hpanic] at hinit
    cases hinit
  · have htyped : ∀ e ∈ [emptyEntry 5], e.WellTyped := by simp [emptyEntry,WalEntry.WellTyped]
    have hleft := left_of_recovers htyped (by simp) (lists_files _) (by simp [emptyEntry]) h
    rcases hleft with hshort | hrecord | ⟨-,hzero⟩
    · exact absurd hshort (by decide)
    · exact absurd rfl hrecord
    · exact absurd hzero (by decide)

end HeliosNano.Replication.WalStore
