import HeliosNano.Replication.WalStore

namespace HeliosNano.Replication.WalStore
open Foundation Storage List

theorem length_leBytes (width n : Nat) : (leBytes width n).length = width := by
  rw [leBytes,length_reverse,length_beBytes]

theorem leValue_leBytes {width n : Nat} (h : n < 256^width) : leValue (leBytes width n) = n := by
  rw [leValue,leBytes,reverse_reverse,beValue_beBytes h]

theorem leBytes_leValue (bytes : Bytes) : leBytes bytes.length (leValue bytes) = bytes := by
  rw [leBytes,leValue,← length_reverse,beBytes_beValue,reverse_reverse]

theorem leValue_lt (bytes : Bytes) : leValue bytes < 256^bytes.length := by
  rw [leValue,← length_reverse]
  exact beValue_lt _

theorem u8ToEntryType_entryTypeToU8 (t : WalEntryType) : u8ToEntryType (entryTypeToU8 t) = t := by
  cases t <;> rfl

def WalEntry.WellTyped (e : WalEntry) : Prop := e.lsn < 2^64 ∧ e.checksum < 2^32

/-- An entry that a record holds as it is, and that the scan takes. -/
def WalEntry.Recordable (crc : Bytes → Nat) (config : WalStoreConfig) (e : WalEntry) : Prop :=
  e.tx_id = none ∧ e.checksum = crc e.data ∧ e.data.length < 2^32 ∧ e.data.length ≤ config.max_segment_size

def recordOf (t : Byte) (e : WalEntry) : Bytes :=
  leBytes 4 (e.data.length%2^32) ++ [t] ++ leBytes 8 e.lsn ++ leBytes 4 e.checksum ++ e.data

def WalEntry.recordSize (e : WalEntry) : Nat := 17+e.data.length

section
variable {crc : Bytes → Nat} {config : WalStoreConfig} {e : WalEntry} {t : Byte} {bytes : Bytes}

theorem length_recordOf : (recordOf t e).length = e.recordSize := by
  simp only [recordOf,WalEntry.recordSize,length_append,length_leBytes,length_singleton]

/-- What can be read from bytes, as many records as are left to read. -/
inductive Reads (crc : Bytes → Nat) (config : WalStoreConfig) : Nat → Bytes → List WalEntry → Prop
  | stop {left : Nat} {bytes : Bytes} (h : ∀ t e rest, e.Recordable crc config → e.WellTyped → bytes ≠ recordOf t e ++ rest) :
      Reads crc config left bytes []
  | full {bytes : Bytes} : Reads crc config 0 bytes []
  | next {left : Nat} {t : Byte} {e : WalEntry} {rest : Bytes} {es : List WalEntry} (h : e.Recordable crc config) (htyped : e.WellTyped)
      (ht : u8ToEntryType t = e.entry_type) (hrest : Reads crc config left rest es) :
      Reads crc config (left+1) (recordOf t e ++ rest) (e::es)

theorem scanRecord_recordOf (h : e.Recordable crc config) (hty : e.WellTyped) (rest : Bytes) :
    scanRecord crc config (recordOf t e ++ rest) = .ok ⟨e.lsn,t,e.checksum,e.data⟩ := by
  obtain ⟨-,hc,hsh,hft⟩ := h
  obtain ⟨hls,hw⟩ := hty
  have hl : e.data.length%2^32 = e.data.length := Nat.mod_eq_of_lt hsh
  have hb : recordOf t e ++ rest = leBytes 4 e.data.length ++
      (t::(leBytes 8 e.lsn ++ (leBytes 4 e.checksum ++ (e.data ++ rest)))) := by
    simp only [recordOf,hl,append_assoc,cons_append,nil_append]
  have hword4 : ∃ l0 l1 l2 l3, leBytes 4 e.data.length = [l0,l1,l2,l3] := ⟨_,_,_,_,rfl⟩
  obtain ⟨l0,l1,l2,l3,hf⟩ := hword4
  have hcl : leValue [l0,l1,l2,l3] = e.data.length := by
    rw [← hf]
    exact leValue_leBytes hsh
  rw [hb,hf]
  simp only [cons_append,nil_append,scanRecord,length_append,length_leBytes,hcl]
  have htk : (leBytes 8 e.lsn ++ (leBytes 4 e.checksum ++ (e.data ++ rest))).take 8 = leBytes 8 e.lsn :=
    take_left' (length_leBytes 8 e.lsn)
  have hd : (leBytes 8 e.lsn ++ (leBytes 4 e.checksum ++ (e.data ++ rest))).drop 8 =
      leBytes 4 e.checksum ++ (e.data ++ rest) := drop_left' (length_leBytes 8 e.lsn)
  have hdrop12 : (leBytes 8 e.lsn ++ (leBytes 4 e.checksum ++ (e.data ++ rest))).drop 12 = e.data ++ rest := by
    rw [← append_assoc]
    exact drop_left' (by rw [length_append,length_leBytes,length_leBytes])
  have hl' : leValue (leBytes 8 e.lsn) = e.lsn := leValue_leBytes (by simpa using hls)
  have hw' : leValue (leBytes 4 e.checksum) = e.checksum := leValue_leBytes (by simpa using hw)
  rw [htk,hd,hdrop12,take_left' (length_leBytes 4 e.checksum),take_left' rfl,hl',hw',
    if_neg (by simp only [recordHeaderSize]; omega),if_neg (by omega),if_neg (by omega),if_neg (by rw [hc]; simp)]

theorem of_scanRecord_eq_ok {record : Accepted} (h : scanRecord crc config bytes = .ok record) :
    record.toEntry.Recordable crc config ∧ record.toEntry.WellTyped ∧
      bytes = recordOf record.entry_type record.toEntry ++ bytes.drop (17+record.data.length) := by
  match bytes with
  | l0::l1::l2::l3::t::body =>
    simp only [scanRecord] at h
    split at h
    · cases h
    next hh =>
    split at h
    · cases h
    next hr =>
    split at h
    · cases h
    next hft =>
    split at h
    · cases h
    next hck =>
    cases h
    simp only [recordHeaderSize] at hh
    have hl : ((body.drop 12).take (leValue [l0,l1,l2,l3])).length = leValue [l0,l1,l2,l3] := by
      rw [length_take,length_drop]
      omega
    have hc : leValue [l0,l1,l2,l3] < 2^32 := by simpa using leValue_lt [l0,l1,l2,l3]
    have hls : (body.take 8).length = 8 := by
      rw [length_take]
      omega
    have hw : ((body.drop 8).take 4).length = 4 := by
      rw [length_take,length_drop]
      omega
    have hlsn' := leBytes_leValue (body.take 8)
    have hword' := leBytes_leValue ((body.drop 8).take 4)
    have hf : leBytes 4 (leValue [l0,l1,l2,l3]) = [l0,l1,l2,l3] := leBytes_leValue [l0,l1,l2,l3]
    rw [hls] at hlsn'
    rw [hw] at hword'
    refine ⟨⟨rfl,?_,?_,?_⟩,⟨?_,?_⟩,?_⟩
    · exact (not_ne_iff.mp hck).symm
    · rw [Accepted.toEntry,hl]
      exact hc
    · rw [Accepted.toEntry,hl]
      omega
    · have hlt := leValue_lt (body.take 8)
      rw [hls] at hlt
      simpa [Accepted.toEntry] using hlt
    · have hlt := leValue_lt ((body.drop 8).take 4)
      rw [hw] at hlt
      simpa [Accepted.toEntry] using hlt
    · have hb : body = body.take 8 ++ ((body.drop 8).take 4 ++ ((body.drop 12).take (leValue [l0,l1,l2,l3]) ++
          body.drop (12 + leValue [l0,l1,l2,l3]))) := by
        rw [← drop_drop,take_append_drop]
        have h12 : body.drop 12 = (body.drop 8).drop 4 := by rw [drop_drop]
        rw [h12,take_append_drop,take_append_drop]
      simp only [recordOf,Accepted.toEntry,hl,Nat.mod_eq_of_lt hc,hf,hlsn',hword',
        append_assoc,cons_append,nil_append]
      have hd : (l0::l1::l2::l3::t::body).drop (17 + leValue [l0,l1,l2,l3]) =
          body.drop (12 + leValue [l0,l1,l2,l3]) := by
        rw [show 17 + leValue [l0,l1,l2,l3] = 12 + leValue [l0,l1,l2,l3] + 5 from by omega]
        rfl
      rw [hd,← hb]
  | [] | [_] | [_,_] | [_,_,_] | [_,_,_,_] => simp [scanRecord] at h

theorem recordOf_ne_nil : recordOf t e ++ rest ≠ [] := by simp [recordOf]

theorem scanFrom_recordOf (h : e.Recordable crc config) (hty : e.WellTyped) (left position : Nat) (outcome : ScanOutcome)
    (rest : Bytes) : scanFrom crc config (left+1) position outcome (recordOf t e ++ rest) =
      ((scanFrom crc config left (position+e.recordSize) ⟨outcome.accepted+1,e.lsn,outcome.stopped_early⟩ rest).1,
        ⟨e.lsn,t,e.checksum,e.data⟩ ::
          (scanFrom crc config left (position+e.recordSize) ⟨outcome.accepted+1,e.lsn,outcome.stopped_early⟩ rest).2) := by
  rw [scanFrom,if_neg recordOf_ne_nil,scanRecord_recordOf h hty]
  simp only [recordHeaderSize]
  rw [drop_left' (by rw [length_recordOf,WalEntry.recordSize])]
  rfl

variable {es : List WalEntry} {left : Nat}

theorem reads_iff {position : Nat} {outcome : ScanOutcome} :
    Reads crc config left bytes es ↔ (scanFrom crc config left position outcome bytes).2.map Accepted.toEntry = es := by
  constructor
  · intro h
    induction h generalizing position outcome with
    | @stop left bytes h =>
      cases left with
      | zero =>
        rw [scanFrom]
        split <;> rfl
      | succ left =>
        rw [scanFrom]
        split
        · rfl
        cases hrc : scanRecord crc config bytes with
        | error stop => rfl
        | ok record =>
          obtain ⟨hr,hty,hb⟩ := of_scanRecord_eq_ok hrc
          exact absurd hb (h _ _ _ hr hty)
    | full =>
      rw [scanFrom]
      split <;> rfl
    | @next left t e rest es h hty ht hrest ih =>
      rw [scanFrom_recordOf h hty,map_cons,ih]
      obtain ⟨lsn,tx_id,entry_type,data,checksum⟩ := e
      have hn : tx_id = none := h.1
      rw [Accepted.toEntry,ht,hn]
  · rintro rfl
    induction left generalizing position outcome bytes with
    | zero =>
      rw [scanFrom]
      split <;> exact .full
    | succ left ih =>
      rw [scanFrom]
      split
      · next hnl =>
        refine .stop fun t e rest _ _ h => ?_
        rw [hnl] at h
        exact absurd h.symm recordOf_ne_nil
      · cases hrc : scanRecord crc config bytes with
        | error stop =>
          refine .stop fun t e rest hr hty h => ?_
          rw [h,scanRecord_recordOf hr hty] at hrc
          cases hrc
        | ok record =>
          obtain ⟨hr,hty,hb⟩ := of_scanRecord_eq_ok hrc
          exact @Eq.subst Bytes (Reads crc config (left+1) · _) _ _ hb.symm (.next hr hty rfl ih)

theorem scanFrom_outcome {left position : Nat} {outcome : ScanOutcome} :
    (scanFrom crc config left position outcome bytes).1.accepted =
        outcome.accepted+(scanFrom crc config left position outcome bytes).2.length ∧
      (scanFrom crc config left position outcome bytes).1.end_lsn =
        (((scanFrom crc config left position outcome bytes).2.map Accepted.lsn).getLast?).getD outcome.end_lsn := by
  induction left generalizing position outcome bytes with
  | zero =>
    rw [scanFrom]
    split <;> exact ⟨rfl,rfl⟩
  | succ left ih =>
    rw [scanFrom]
    split
    · exact ⟨rfl,rfl⟩
    cases hr : scanRecord crc config bytes with
    | error stop => exact ⟨rfl,rfl⟩
    | ok record =>
      have hrest := @ih (bytes.drop (recordHeaderSize+record.data.length))
        (position+(recordHeaderSize+record.data.length))
        { outcome with accepted := outcome.accepted+1, end_lsn := record.lsn }
      simp only [length_cons,map_cons,getLast?_cons,Option.getD_some]
      exact ⟨hrest.1.trans (Nat.add_right_comm outcome.accepted 1 _),hrest.2⟩

theorem Reads.readable (h : Reads crc config left bytes es) : ∀ e ∈ es, e.Recordable crc config ∧ e.WellTyped := by
  induction h with
  | stop h | full => simp
  | next h hty ht hrest ih =>
    intro e he
    rcases mem_cons.mp he with rfl | he
    · exact ⟨h,hty⟩
    · exact ih e he

theorem Reads.length_le (h : Reads crc config left bytes es) : es.length ≤ left := by
  induction h with
  | stop h | full => simp
  | next h hty ht hrest ih => simpa using ih

theorem Reads.records {es' : List WalEntry} {rest : Bytes}
    (hes : ∀ e ∈ es, e.Recordable crc config ∧ e.WellTyped) (hrest : Reads crc config left rest es') :
    Reads crc config (es.length+left) (es.flatMap WalEntry.recordBytes ++ rest) (es ++ es') := by
  induction es with
  | nil => simpa using hrest
  | cons e es ih =>
    have he := hes e (.head _)
    rw [flatMap_cons,append_assoc,length_cons,Nat.succ_add,cons_append]
    exact .next he.1 he.2 (u8ToEntryType_entryTypeToU8 _) (ih fun e' he' => hes e' (.tail _ he'))

theorem Reads.cut {n : Nat} (hsh : e.data.length < 2^32) (hc : n < e.recordSize) :
    Reads crc config left (e.recordBytes.take n) [] := by
  refine .stop fun t' e' rest hr _ h => ?_
  have hl := congrArg List.length h
  have hs : e.recordBytes.length = e.recordSize := length_recordOf
  rw [length_take,hs,length_append,length_recordOf,Nat.min_eq_left (Nat.le_of_lt hc)] at hl
  simp only [WalEntry.recordSize] at hl hc
  -- The length of the record at hand is the one that was cut.
  have hf := congrArg (List.take 4) h
  rw [take_take,Nat.min_eq_left (by omega)] at hf
  have hlf : e.recordBytes.take 4 = leBytes 4 (e.data.length%2^32) := by
    simp only [WalEntry.recordBytes,append_assoc]
    exact take_left' (length_leBytes 4 _)
  have hrt : (recordOf t' e' ++ rest).take 4 = leBytes 4 (e'.data.length%2^32) := by
    simp only [recordOf,append_assoc]
    exact take_left' (length_leBytes 4 _)
  rw [hlf,hrt,Nat.mod_eq_of_lt hsh,Nat.mod_eq_of_lt hr.2.2.1] at hf
  have hv := congrArg leValue hf
  rw [leValue_leBytes (by simpa using hsh),leValue_leBytes (by simpa using hr.2.2.1)] at hv
  omega

end
end HeliosNano.Replication.WalStore
