import HeliosNano.Foundation.Bincode
import HeliosNano.Storage.Basics

namespace HeliosNano.Storage.SnapshotRecords
open Foundation Bincode List

structure SnapshotMetadata where
  timestamp : UInt64
  transactionId : UInt64
  scn : UInt64
  wallClockMicros : Int64
  activeTransactions : UInt64
  gcEligible : Bool
deriving DecidableEq

structure Text where
  bytes : Bytes
  utf8 : IsUtf8 bytes
  fits : bytes.length < 2^64

structure SnapshotMetadataLegacy where
  timestamp : UInt64
  transactionId : UInt64
  scn : UInt64
  wallClockTime : Text
  activeTransactions : UInt64
  gcEligible : Bool

def snapshotMetadata : Reader SnapshotMetadata := do
  let timestamp ← u64
  let transactionId ← u64
  let scn ← u64
  let wallClockMicros ← i64
  let activeTransactions ← u64
  let gcEligible ← bool
  return ⟨timestamp,transactionId,scn,wallClockMicros,activeTransactions,gcEligible⟩

abbrev LegacyFields := UInt64 × UInt64 × UInt64 × Bytes × UInt64 × Bool

def snapshotMetadataLegacy : Reader LegacyFields := do
  let timestamp ← u64
  let transactionId ← u64
  let scn ← u64
  let wallClockTime ← string
  let activeTransactions ← u64
  let gcEligible ← bool
  return (timestamp,transactionId,scn,wallClockTime,activeTransactions,gcEligible)

def fromLegacy (parseFromRfc3339 : Bytes → Option Int64) : LegacyFields → SnapshotMetadata
  | (timestamp,transactionId,scn,wallClockTime,activeTransactions,gcEligible) =>
    ⟨timestamp,transactionId,scn,(parseFromRfc3339 wallClockTime).getD 0,activeTransactions,gcEligible⟩

def deserializeSnapshotMetadata (parseFromRfc3339 : Bytes → Option Int64) (bytes : Bytes) : Option SnapshotMetadata :=
  match decode snapshotMetadata bytes with
  | some metadata => some metadata
  | none => (decode snapshotMetadataLegacy bytes).map (fromLegacy parseFromRfc3339)

def SnapshotMetadata.serialize (m : SnapshotMetadata) : Bytes :=
  encodeU64 m.timestamp ++ (encodeU64 m.transactionId ++ (encodeU64 m.scn ++ (encodeI64 m.wallClockMicros ++
    (encodeU64 m.activeTransactions ++ encodeBool m.gcEligible))))

namespace SnapshotMetadataLegacy

def fields (m : SnapshotMetadataLegacy) : LegacyFields :=
  (m.timestamp,m.transactionId,m.scn,m.wallClockTime.bytes,m.activeTransactions,m.gcEligible)

def serialize (m : SnapshotMetadataLegacy) : Bytes :=
  encodeU64 m.timestamp ++ (encodeU64 m.transactionId ++ (encodeU64 m.scn ++ (encodeString m.wallClockTime.bytes ++
    (encodeU64 m.activeTransactions ++ encodeBool m.gcEligible))))

end SnapshotMetadataLegacy

/-! Times as RFC 3339 writes them, with a year of four digits. -/

inductive Offset
  | utc (lower : Bool)
  | numeric (negative : Bool) (hour : Fin 24) (minute : Fin 60)

def Offset.text : Offset → Bytes
  | utc lower => [if lower then 122 else 90]
  | numeric negative hour minute => (if negative then 45 else 43) :: padded 2 hour ++ 58 :: padded 2 minute

/-- The date, its separator (`T`, `t` or a blank), the time with the digits of its fraction, and the offset. -/
structure Rfc3339 where
  year : Fin 10000
  month : Fin 13
  day : Fin 32
  separator : Fin 3
  hour : Fin 24
  minute : Fin 60
  second : Fin 61
  fraction : List (Fin 10)
  offset : Offset

namespace Rfc3339

variable (t : Rfc3339)

def separatorByte : Byte := if t.separator = 0 then 84 else if t.separator = 1 then 116 else 32

def fractionText : Bytes := if t.fraction = [] then [] else 46 :: t.fraction.map fun d => lastDigit d

def date : Bytes := padded 4 t.year ++ (45 :: padded 2 t.month ++ 45 :: padded 2 t.day)

def time : Bytes :=
  padded 2 t.hour ++ (58 :: padded 2 t.minute ++ (58 :: padded 2 t.second ++ (t.fractionText ++ t.offset.text)))

def text : Bytes := t.date ++ t.separatorByte::t.time

theorem text_eq : ∃ lead rest : Bytes, lead.length = 8 ∧ t.text = lead ++ lastDigit (t.day/10) :: rest := by
  refine ⟨padded 4 t.year ++ (45 :: padded 2 t.month ++ [45]),lastDigit t.day :: t.separatorByte::t.time,?_,?_⟩
  · simp [length_padded]
  · simp [text,date,padded]

theorem padded_lt {width n : Nat} {b : Byte} (h : b ∈ padded width n) : b.val < 0x80 := by
  have hd := isDigit_of_mem_padded h
  rw [isDigit,Bool.and_eq_true,decide_eq_true_eq,decide_eq_true_eq] at hd
  omega

theorem offset_lt (o : Offset) {b : Byte} (h : b ∈ o.text) : b.val < 0x80 := by
  cases o with
  | utc lower =>
    rw [Offset.text,mem_singleton] at h
    subst h
    cases lower <;> decide
  | numeric negative hour minute =>
    simp only [Offset.text,cons_append,mem_cons,mem_append] at h
    rcases h with rfl | h | rfl | h
    · cases negative <;> decide
    · exact padded_lt h
    · decide
    · exact padded_lt h

theorem fraction_lt {b : Byte} (h : b ∈ t.fractionText) : b.val < 0x80 := by
  rw [fractionText] at h
  split at h
  · cases h
  rcases mem_cons.mp h with rfl | h
  · decide
  · obtain ⟨d,-,rfl⟩ := mem_map.mp h
    rw [lastDigit_val]
    omega

theorem isUtf8_text : IsUtf8 t.text := by
  refine isUtf8_of_ascii fun b hb => ?_
  simp only [text,date,time,mem_append,mem_cons] at hb
  rcases hb with (h | (rfl | h) | rfl | h) | rfl | h | (rfl | h) | (rfl | h) | h | h
  case inr.inl =>
    unfold separatorByte
    split_ifs <;> decide
  all_goals first | exact padded_lt h | exact fraction_lt t h | exact offset_lt _ h | decide

theorem two_le_lastDigit (n : Nat) : 2 ≤ (lastDigit n).val := by
  rw [lastDigit_val]
  omega

end Rfc3339

theorem reads_snapshotMetadata (m : SnapshotMetadata) : Reads snapshotMetadata m m.serialize :=
  (reads_u64 _).bind ((reads_u64 _).bind ((reads_u64 _).bind ((reads_i64 _).bind ((reads_u64 _).bind
    ((reads_bool _).bind_pure _)))))

theorem reads_snapshotMetadataLegacy (m : SnapshotMetadataLegacy) : Reads snapshotMetadataLegacy m.fields m.serialize :=
  (reads_u64 _).bind ((reads_u64 _).bind ((reads_u64 _).bind ((reads_string m.wallClockTime.utf8 m.wallClockTime.fits).bind
    ((reads_u64 _).bind ((reads_bool _).bind_pure _)))))

theorem snapshotMetadata_legacy {m : SnapshotMetadataLegacy} {lead rest : Bytes} {b : Byte} (hl : lead.length = 8)
    (htx : m.wallClockTime.bytes = lead ++ b::rest) (hb : 2 ≤ b.val) : snapshotMetadata m.serialize = none := by
  have hs : (encodeU64 (UInt64.ofNat m.wallClockTime.bytes.length)).length = 8 := length_leBytes _ _
  have hbt : m.serialize = encodeU64 m.timestamp ++ (encodeU64 m.transactionId ++ (encodeU64 m.scn ++
      (encodeU64 (UInt64.ofNat m.wallClockTime.bytes.length) ++ (lead ++ (b::(rest ++ (encodeU64 m.activeTransactions ++
        encodeBool m.gcEligible))))))) := by
    rw [SnapshotMetadataLegacy.serialize,encodeString]
    conv_lhs => rw [htx]
    simp only [append_assoc,cons_append]
    rw [htx]
  rw [hbt,snapshotMetadata,(reads_u64 _).run_bind,(reads_u64 _).run_bind,(reads_u64 _).run_bind,
    (reads_i64_of_length hs).run_bind,(reads_u64_of_length hl).run_bind]
  change (bool (b::_)).bind _ = none
  rw [bool_eq_none hb]
  rfl

/-- A record of today comes back as it was written; a legacy record with an RFC 3339 time is never taken for one of
today and comes back converted. -/
theorem snapshot_metadata_decodes (parseFromRfc3339 : Bytes → Option Int64) :
    (∀ m : SnapshotMetadata, deserializeSnapshotMetadata parseFromRfc3339 m.serialize = some m) ∧
    ∀ (m : SnapshotMetadataLegacy) (t : Rfc3339), m.wallClockTime.bytes = t.text → decode snapshotMetadata m.serialize = none ∧
      deserializeSnapshotMetadata parseFromRfc3339 m.serialize = some (fromLegacy parseFromRfc3339 m.fields) := by
  refine ⟨fun m => ?_,fun m t htext => ?_⟩
  · rw [deserializeSnapshotMetadata,(reads_snapshotMetadata m).decode_eq]
  · obtain ⟨lead,rest,hlead,hsplit⟩ := t.text_eq
    have hno : decode snapshotMetadata m.serialize = none := by
      rw [decode,snapshotMetadata_legacy hlead (htext.trans hsplit) (Rfc3339.two_le_lastDigit _)]
      rfl
    refine ⟨hno,?_⟩
    rw [deserializeSnapshotMetadata,hno]
    dsimp only
    rw [(reads_snapshotMetadataLegacy m).decode_eq,Option.map_some]

/-- 2024-01-15T10:30:00+00:00. -/
def sampleTime : Rfc3339 := ⟨2024,1,15,0,10,30,0,[],.numeric false 0 0⟩

def sampleLegacy : SnapshotMetadataLegacy := ⟨7,3,9,⟨sampleTime.text,sampleTime.isUtf8_text,by decide⟩,2,true⟩

/-- The old record is read with its time in microseconds. -/
theorem snapshot_metadata_decodes_legacy :
    deserializeSnapshotMetadata (fun text => if text = sampleTime.text then some 1705314600000000 else none) sampleLegacy.serialize =
      some ⟨7,3,9,1705314600000000,2,true⟩ :=
  ((snapshot_metadata_decodes _).2 sampleLegacy sampleTime rfl).2

end HeliosNano.Storage.SnapshotRecords
