import HeliosNano.Replication.WalRestart

namespace HeliosNano.Replication.WalStore
open Foundation Storage List Function Nat

variable {crc : Bytes → Nat} {config : WalStoreConfig}

section
variable {entries : Lsn → Option WalEntry} {loaded : List WalEntry} {lsn : Lsn} {e : WalEntry}

theorem insertEntries_cons (first : WalEntry) :
    insertEntries entries (first::loaded) = insertEntries (Function.update entries first.lsn (some first)) loaded := rfl

theorem insertEntries_source (h : insertEntries entries loaded lsn = some e) :
    entries lsn = some e ∨ (e ∈ loaded ∧ e.lsn = lsn) := by
  induction loaded generalizing entries with
  | nil => exact .inl h
  | cons first loaded ih =>
    rw [insertEntries_cons] at h
    rcases ih h with h | ⟨he,hl⟩
    · rw [update_apply] at h
      split at h
      · next hl =>
        cases h
        exact .inr ⟨.head _,hl.symm⟩
      · exact .inl h
    · exact .inr ⟨.tail _ he,hl⟩

theorem insertEntries_kept (h : (entries lsn).isSome) : (insertEntries entries loaded lsn).isSome := by
  induction loaded generalizing entries with
  | nil => exact h
  | cons first loaded ih =>
    rw [insertEntries_cons]
    refine ih ?_
    rw [update_apply]
    split
    · rfl
    · exact h

theorem insertEntries_loaded (h : e ∈ loaded) : (insertEntries entries loaded e.lsn).isSome := by
  induction loaded generalizing entries with
  | nil => cases h
  | cons first loaded ih =>
    rw [insertEntries_cons]
    rcases mem_cons.mp h with rfl | h
    · exact insertEntries_kept (by rw [update_self]; rfl)
    · exact ih h

end

def LoadsAs (crc : Bytes → Nat) (config : WalStoreConfig) (file : Bytes) (info : WalSegmentInfo) (es : List WalEntry) :
    Prop := loadSegmentMetadata crc config file = some info ∧ segmentEntries crc config info file = es

structure Gathers (crc : Bytes → Nat) (config : WalStoreConfig) (files : List Bytes) (g g' : Gathered) : Prop where
  ordered : ∀ file ∈ files, ∀ info es, LoadsAs crc config file info es → info.start_lsn ≤ info.end_lsn
  source : ∀ lsn e, g'.store.entries lsn = some e → g.store.entries lsn = some e ∨
    ∃ file ∈ files, ∃ info es, LoadsAs crc config file info es ∧ e ∈ es ∧ e.lsn = lsn
  kept : ∀ lsn, (g.store.entries lsn).isSome → (g'.store.entries lsn).isSome
  loaded : ∀ file ∈ files, ∀ info es, LoadsAs crc config file info es → ∀ e ∈ es, (g'.store.entries e.lsn).isSome
  grown : g.max_lsn ≤ g'.max_lsn
  above : ∀ file ∈ files, ∀ info es, LoadsAs crc config file info es → info.end_lsn ≤ g'.max_lsn
  attained : g'.max_lsn = g.max_lsn ∨
    ∃ file ∈ files, ∃ info es, LoadsAs crc config file info es ∧ g'.max_lsn = info.end_lsn

section
variable {files : List Bytes} {file : Bytes} {g g₁ g' : Gathered}

theorem Gathers.refl : Gathers crc config [] g g where
  ordered := by simp
  source _ _ h := .inl h
  kept _ h := h
  loaded := by simp
  grown := le_refl _
  above := by simp
  attained := .inl rfl

theorem gathers_loadSegment (h : loadSegment crc config g file = some g') : Gathers crc config [file] g g' := by
  rw [loadSegment] at h
  cases hi : loadSegmentMetadata crc config file with
  | none =>
    rw [hi] at h
    cases h
    have hn : ∀ info es, ¬LoadsAs crc config file info es := by simp [LoadsAs,hi]
    refine ⟨?_,fun _ _ h => .inl h,fun _ h => h,?_,le_refl _,?_,.inl rfl⟩
    all_goals simp [hn]
  | some info =>
    rw [hi] at h
    simp only at h
    split at h
    · cases h
    next ho =>
    cases h
    have hl : LoadsAs crc config file info (segmentEntries crc config info file) := ⟨hi,rfl⟩
    have hu : ∀ info' es, LoadsAs crc config file info' es → info' = info ∧ es = segmentEntries crc config info file := by
      rintro info' es ⟨hi',rfl⟩
      rw [hi] at hi'
      cases hi'
      exact ⟨rfl,rfl⟩
    have hf : ∀ file' ∈ [file], file' = file := fun _ => mem_singleton.mp
    refine ⟨?_,?_,fun _ h => insertEntries_kept h,?_,le_max_left _ _,?_,?_⟩
    · intro file' hm info' es hl'
      rw [hf file' hm] at hl'
      rw [(hu _ _ hl').1]
      exact not_lt.mp ho
    · intro lsn e he
      refine (insertEntries_source he).imp_right fun h => ?_
      exact ⟨file,.head _,info,_,hl,h⟩
    · intro file' hm info' es hl' e he
      rw [hf file' hm] at hl'
      rw [(hu _ _ hl').2] at he
      exact insertEntries_loaded he
    · intro file' hm info' es hl'
      rw [hf file' hm] at hl'
      rw [(hu _ _ hl').1]
      exact le_max_right _ _
    · rcases le_total g.max_lsn info.end_lsn with hle | hle
      · exact .inr ⟨file,.head _,info,_,hl,max_eq_right hle⟩
      · exact .inl (max_eq_left hle)

theorem Gathers.cons (h : Gathers crc config [file] g g₁) (h' : Gathers crc config files g₁ g') :
    Gathers crc config (file::files) g g' where
  ordered := forall_mem_cons.mpr ⟨h.ordered file (.head _),h'.ordered⟩
  source lsn e he := by
    rcases h'.source lsn e he with he | ⟨file',hm,hrest⟩
    · rcases h.source lsn e he with he | ⟨file',hm,hrest⟩
      · exact .inl he
      · rw [mem_singleton.mp hm] at hrest
        exact .inr ⟨file,.head _,hrest⟩
    · exact .inr ⟨file',.tail _ hm,hrest⟩
  kept lsn hsome := h'.kept lsn (h.kept lsn hsome)
  loaded := by
    refine forall_mem_cons.mpr ⟨fun info es hl e he => ?_,h'.loaded⟩
    exact h'.kept _ (h.loaded file (.head _) info es hl e he)
  grown := h.grown.trans h'.grown
  above := by
    refine forall_mem_cons.mpr ⟨fun info es hl => ?_,h'.above⟩
    exact (h.above file (.head _) info es hl).trans h'.grown
  attained := by
    rcases h'.attained with heq | ⟨file',hm,hrest⟩
    · rcases h.attained with heq' | ⟨file',hm,hrest⟩
      · exact .inl (heq.trans heq')
      · rw [mem_singleton.mp hm] at hrest
        obtain ⟨info,es,hl,hen⟩ := hrest
        exact .inr ⟨file,.head _,info,es,hl,heq.trans hen⟩
    · exact .inr ⟨file',.tail _ hm,hrest⟩

theorem gathers_foldlM (h : files.foldlM (loadSegment crc config) g = some g') : Gathers crc config files g g' := by
  induction files generalizing g with
  | nil =>
    cases h
    exact .refl
  | cons file files ih =>
    rw [foldlM_cons] at h
    obtain ⟨g₁,hf,hrest⟩ := Option.bind_eq_some_iff.mp h
    exact (gathers_loadSegment hf).cons (ih hrest)

theorem foldlM_loadSegment_isSome (g : Gathered)
    (h : ∀ file ∈ files, ∀ info es, LoadsAs crc config file info es → info.start_lsn ≤ info.end_lsn) :
    ∃ g', files.foldlM (loadSegment crc config) g = some g' := by
  induction files generalizing g with
  | nil => exact ⟨g,rfl⟩
  | cons file files ih =>
    obtain ⟨hf,hrest⟩ := forall_mem_cons.mp h
    have hs : ∃ g₁, loadSegment crc config g file = some g₁ := by
      rw [loadSegment]
      cases hi : loadSegmentMetadata crc config file with
      | none => exact ⟨g,rfl⟩
      | some info =>
        have hle := hf info _ ⟨hi,rfl⟩
        simp only
        rw [if_neg (not_lt.mpr hle)]
        exact ⟨_,rfl⟩
    obtain ⟨g₁,hg₁⟩ := hs
    obtain ⟨g',hg'⟩ := ih g₁ hrest
    refine ⟨g',?_⟩
    rw [foldlM_cons,hg₁]
    exact hg'

end

section
variable {dir : List Bytes} {checkpoint : Option Bytes} {p : List WalEntry}

/-- The store holds exactly these entries, and its LSN is the last of them. -/
def Rebuilds (crc : Bytes → Nat) (config : WalStoreConfig) (dir : List Bytes) (checkpoint : Option Bytes)
    (p : List WalEntry) : Prop :=
  ∃ store, init crc config Store.new dir checkpoint = some store ∧
    (∀ lsn e, store.entries lsn = some e ↔ e ∈ p ∧ e.lsn = lsn) ∧ store.current_lsn = lastLsn p

theorem init_eq_some {store : Store} (h : init crc config Store.new dir checkpoint = some store) :
    ∃ g, dir.foldlM (loadSegment crc config) ⟨Store.new,0,0,u64Max⟩ = some g ∧ store.entries = g.store.entries ∧
      store.current_lsn = g.max_lsn := by
  obtain ⟨g,hg,hs⟩ := Option.bind_eq_some_iff.mp h
  cases hs
  exact ⟨g,hg,rfl,rfl⟩

theorem Rebuilds.loaded (h : Rebuilds crc config dir checkpoint p) :
    ∀ e ∈ p, ∃ file ∈ dir, ∃ info es, LoadsAs crc config file info es ∧ e ∈ es := by
  obtain ⟨store,hi,hen,-⟩ := h
  obtain ⟨g,hg,hsame,-⟩ := init_eq_some hi
  intro e he
  have hs := (hen e.lsn e).mpr ⟨he,rfl⟩
  rw [hsame] at hs
  rcases (gathers_foldlM hg).source _ _ hs with hnew | ⟨file,hm,info,es,hl,hes,-⟩
  · cases hnew
  · exact ⟨file,hm,info,es,hl,hes⟩

/-- Files whose entries are those of a list without repeated LSNs, with the last LSN at the end of one of them. -/
theorem rebuilds_of (hu : ∀ e ∈ p, ∀ e' ∈ p, e.lsn = e'.lsn → e = e')
    (hf : ∀ file ∈ dir, ∀ info es, LoadsAs crc config file info es →
      (∀ e ∈ es, e ∈ p) ∧ info.start_lsn ≤ info.end_lsn ∧ info.end_lsn ≤ lastLsn p)
    (ha : ∀ e ∈ p, ∃ file ∈ dir, ∃ info es, LoadsAs crc config file info es ∧ e ∈ es)
    (hlt : lastLsn p = 0 ∨ ∃ file ∈ dir, ∃ info es, LoadsAs crc config file info es ∧ info.end_lsn = lastLsn p) :
    Rebuilds crc config dir checkpoint p := by
  obtain ⟨g,hg⟩ := foldlM_loadSegment_isSome ⟨Store.new,0,0,u64Max⟩ fun file hm info es hl =>
    (hf file hm info es hl).2.1
  have hgt := gathers_foldlM hg
  have hi : ∃ store, init crc config Store.new dir checkpoint = some store := by
    rw [init,hg]
    exact ⟨_,rfl⟩
  obtain ⟨store,hst⟩ := hi
  obtain ⟨g₁,hg₁,het,hc⟩ := init_eq_some hst
  rw [hg] at hg₁
  cases hg₁
  have hs : ∀ lsn e, g.store.entries lsn = some e → e ∈ p ∧ e.lsn = lsn := by
    intro lsn e he
    rcases hgt.source lsn e he with hnew | ⟨file,hm,info,es,hl,hes,hls⟩
    · cases hnew
    · exact ⟨(hf file hm info es hl).1 e hes,hls⟩
  refine ⟨store,hst,fun lsn e => ?_,?_⟩
  · rw [het]
    constructor
    · exact hs lsn e
    · rintro ⟨he,rfl⟩
      obtain ⟨file,hm,info,es,hl,hes⟩ := ha e he
      obtain ⟨e',he'⟩ := Option.isSome_iff_exists.mp (hgt.loaded file hm info es hl e hes)
      obtain ⟨hp,hls⟩ := hs _ _ he'
      rw [he',hu e' hp e he hls]
  · rw [hc]
    apply le_antisymm
    · rcases hgt.attained with hz | ⟨file,hm,info,es,hl,hen⟩
      · rw [hz]
        exact zero_le _
      · rw [hen]
        exact (hf file hm info es hl).2.2
    · rcases hlt with hz | ⟨file,hm,info,es,hl,hen⟩
      · rw [hz]
        exact zero_le _
      · rw [← hen]
        exact hgt.above file hm info es hl

end

def startLsn (file : Bytes) : Lsn := leValue ((file.drop 16).take 8)

/-- A file that begins with a header of this format. -/
def Headed (file : Bytes) : Prop := segmentHeaderSize ≤ file.length ∧ leValue (file.take 4) = walMagic

section
variable {file rest : Bytes} {info info' : WalSegmentInfo} {es es' : List WalEntry} {id count : Nat} {start_lsn : Lsn}

theorem loadSegmentMetadata_of (h : Headed file) : loadSegmentMetadata crc config file =
    some ⟨leValue ((file.drop 8).take 8),startLsn file,(scanSegmentRecords crc config (startLsn file) file).1.end_lsn,
      (scanSegmentRecords crc config (startLsn file) file).1.accepted,file.length,true⟩ := by
  rw [loadSegmentMetadata,if_neg (not_lt.mpr h.1),if_neg (not_not_intro h.2)]
  rfl

theorem LoadsAs.headed (h : LoadsAs crc config file info es) : Headed file := by
  have hs := h.1
  rw [loadSegmentMetadata] at hs
  split at hs
  · cases hs
  next hl =>
  split at hs
  · cases hs
  · next hm => exact ⟨not_lt.mp hl,not_not.mp hm⟩

theorem scanSegmentRecords_of (start_lsn : Lsn)
    (h : Reads crc config config.max_entries_per_segment (file.drop segmentHeaderSize) es) :
    (scanSegmentRecords crc config start_lsn file).2.map Accepted.toEntry = es ∧
      (scanSegmentRecords crc config start_lsn file).1.accepted = es.length ∧
      (scanSegmentRecords crc config start_lsn file).1.end_lsn = (es.getLast?.map WalEntry.lsn).getD start_lsn := by
  have hes : (scanSegmentRecords crc config start_lsn file).2.map Accepted.toEntry = es := reads_iff.mp h
  have ho := @scanFrom_outcome crc config (file.drop segmentHeaderSize) config.max_entries_per_segment
    segmentHeaderSize ⟨0,start_lsn,none⟩
  have hl : (scanSegmentRecords crc config start_lsn file).2.map Accepted.lsn = es.map WalEntry.lsn := by
    rw [← hes,map_map]
    rfl
  refine ⟨hes,?_,?_⟩
  · rw [← hes,length_map]
    exact ho.1.trans (zero_add _)
  · rw [← getLast?_map,← hl]
    exact ho.2

theorem loadsAs_iff : LoadsAs crc config file info es ↔ Headed file ∧
    Reads crc config config.max_entries_per_segment (file.drop segmentHeaderSize) es ∧
    info = ⟨leValue ((file.drop 8).take 8),startLsn file,(es.getLast?.map WalEntry.lsn).getD (startLsn file),es.length,
      file.length,true⟩ := by
  constructor
  · intro h
    have hh := h.headed
    obtain ⟨hi,hes⟩ := h
    have hr : Reads crc config config.max_entries_per_segment (file.drop segmentHeaderSize) es := reads_iff.mpr hes
    have hs := scanSegmentRecords_of (startLsn file) hr
    rw [loadSegmentMetadata_of hh,hs.2.1,hs.2.2] at hi
    exact ⟨hh,hr,(Option.some.inj hi).symm⟩
  · rintro ⟨hh,hr,rfl⟩
    have hs := scanSegmentRecords_of (startLsn file) hr
    refine ⟨?_,hs.1⟩
    rw [loadSegmentMetadata_of hh,hs.2.1,hs.2.2]

theorem LoadsAs.unique (h : LoadsAs crc config file info es) (h' : LoadsAs crc config file info' es') :
    info = info' ∧ es = es' := by
  obtain ⟨hi,hes⟩ := h
  obtain ⟨hi',hes'⟩ := h'
  rw [hi] at hi'
  cases hi'
  exact ⟨rfl,hes.symm.trans hes'⟩

theorem LoadsAs.end_lsn (h : LoadsAs crc config file info es) :
    info.end_lsn = (es.getLast?.map WalEntry.lsn).getD info.start_lsn := by
  rw [(loadsAs_iff.mp h).2.2]

theorem headed_segmentHeader (hs : start_lsn < 2^64) (rest : Bytes) :
    Headed (segmentHeader id start_lsn count ++ rest) ∧ startLsn (segmentHeader id start_lsn count ++ rest) = start_lsn ∧
      (segmentHeader id start_lsn count ++ rest).drop segmentHeaderSize = rest := by
  refine ⟨⟨?_,?_⟩,?_,drop_left' (length_segmentHeader _ _ _)⟩
  · rw [length_append,length_segmentHeader]
    exact le_add_right _ _
  · simp only [segmentHeader,append_assoc]
    rw [take_left' (length_leBytes 4 _),leValue_leBytes (by decide)]
  · have hl : (leBytes 4 walMagic ++ leBytes 4 walVersion ++ leBytes 8 id).length = 16 := by
      simp only [length_append,length_leBytes]
    have hf : segmentHeader id start_lsn count ++ rest = leBytes 4 walMagic ++ leBytes 4 walVersion ++ leBytes 8 id ++
        (leBytes 8 start_lsn ++ (leBytes 8 count ++ rest)) := by
      simp only [segmentHeader,append_assoc]
    rw [startLsn,hf,drop_left' hl,take_left' (length_leBytes 8 _),leValue_leBytes (by simpa using hs)]

end

section
variable {p es es' : List WalEntry} {e : WalEntry}

theorem lastLsn_snoc (es : List WalEntry) (e : WalEntry) : lastLsn (es ++ [e]) = e.lsn := by
  simp [lastLsn]

theorem exists_lastLsn (hp : p ≠ []) : ∃ e ∈ p, e.lsn = lastLsn p := by
  rw [← dropLast_append_getLast hp,lastLsn_snoc]
  exact ⟨p.getLast hp,by simp,rfl⟩

theorem lsn_le_lastLsn (hs : p.Pairwise fun e e' => e.lsn < e'.lsn) (he : e ∈ p) : e.lsn ≤ lastLsn p := by
  have hp : p ≠ [] := ne_nil_of_mem he
  rw [← dropLast_append_getLast hp] at hs he ⊢
  rw [lastLsn_snoc]
  rcases mem_append.mp he with he | he
  · exact le_of_lt ((pairwise_append.mp hs).2.2 e he _ (.head _))
  · rw [mem_singleton.mp he]

theorem lsn_injective (hs : p.Pairwise fun e e' => e.lsn < e'.lsn) : ∀ e ∈ p, ∀ e' ∈ p, e.lsn = e'.lsn → e = e' := by
  have hnd : (p.map WalEntry.lsn).Nodup := pairwise_map.mpr (hs.imp fun h => ne_of_lt h)
  intro e he e' he' heq
  exact inj_on_of_nodup_map hnd he he' heq

theorem rebuilds_of_sorted {dir : List Bytes} {checkpoint : Option Bytes} (hsr : p.Pairwise fun e e' => e.lsn < e'.lsn)
    (hf : ∀ file ∈ dir, ∀ info es, LoadsAs crc config file info es →
      es.Sublist p ∧ info.start_lsn ≤ info.end_lsn ∧ (es = [] → info.end_lsn ≤ lastLsn p))
    (ha : ∀ e ∈ p, ∃ file ∈ dir, ∃ info es, LoadsAs crc config file info es ∧ e ∈ es) :
    Rebuilds crc config dir checkpoint p := by
  have hen : ∀ {file info es}, LoadsAs crc config file info es → es ≠ [] → info.end_lsn = lastLsn es := by
    intro file info es hl hes
    rw [hl.end_lsn,lastLsn,getLast?_eq_some_getLast hes]
    rfl
  have hle : ∀ file ∈ dir, ∀ info es, LoadsAs crc config file info es → info.end_lsn ≤ lastLsn p := by
    intro file hm info es hl
    obtain ⟨hs,-,hn⟩ := hf file hm info es hl
    by_cases hes : es = []
    · exact hn hes
    · obtain ⟨e,he,hls⟩ := exists_lastLsn hes
      rw [hen hl hes,← hls]
      exact lsn_le_lastLsn hsr (hs.subset he)
  refine rebuilds_of (lsn_injective hsr) (fun file hm info es hl => ?_) ha ?_
  · obtain ⟨hs,ho,-⟩ := hf file hm info es hl
    exact ⟨fun e he => hs.subset he,ho,hle file hm info es hl⟩
  · by_cases hp : p = []
    · rw [hp]
      exact .inl rfl
    -- The last entry lies in a file, which then ends with it.
    obtain ⟨e,he,hls⟩ := exists_lastLsn hp
    obtain ⟨file,hm,info,es,hl,hes⟩ := ha e he
    have hs := (hf file hm info es hl).1
    refine .inr ⟨file,hm,info,es,hl,le_antisymm (hle file hm info es hl) ?_⟩
    rw [hen hl (ne_nil_of_mem hes),← hls]
    exact lsn_le_lastLsn (hsr.sublist hs) hes

end
end HeliosNano.Replication.WalStore
