import HeliosNano.Foundation.Octets
import HeliosNano.Replication.Wire

/-! The messages of the streaming transport on a connection: a header, the payload and its checksum. -/
namespace HeliosNano.Replication.Transport
open Foundation Storage List

inductive MessageType
  | handshakeRequest
  | handshakeResponse
  | walEntry
  | walBatch
  | walRequest
  | ack
  | nack
  | heartbeat
  | heartbeatResponse
  | controlRequest
  | controlResponse
  | logicalEntry
  | logicalBatch
  | voteRequest
  | voteResponse
  | fencingToken
  | unknown
deriving DecidableEq, Repr

def MessageType.code : MessageType → Nat
  | handshakeRequest => 0x0001
  | handshakeResponse => 0x0002
  | walEntry => 0x0010
  | walBatch => 0x0011
  | walRequest => 0x0012
  | ack => 0x0020
  | nack => 0x0021
  | heartbeat => 0x0030
  | heartbeatResponse => 0x0031
  | controlRequest => 0x0040
  | controlResponse => 0x0041
  | logicalEntry => 0x0050
  | logicalBatch => 0x0051
  | voteRequest => 0x0060
  | voteResponse => 0x0061
  | fencingToken => 0x0062
  | unknown => 0xFFFF

/-- A code that no type has is unknown. -/
def MessageType.fromU16 : Nat → MessageType
  | 0x0001 => handshakeRequest
  | 0x0002 => handshakeResponse
  | 0x0010 => walEntry
  | 0x0011 => walBatch
  | 0x0012 => walRequest
  | 0x0020 => ack
  | 0x0021 => nack
  | 0x0030 => heartbeat
  | 0x0031 => heartbeatResponse
  | 0x0040 => controlRequest
  | 0x0041 => controlResponse
  | 0x0050 => logicalEntry
  | 0x0051 => logicalBatch
  | 0x0060 => voteRequest
  | 0x0061 => voteResponse
  | 0x0062 => fencingToken
  | _ => unknown

theorem MessageType.fromU16_code (t : MessageType) : fromU16 t.code = t := by
  cases t <;> rfl

theorem MessageType.code_lt (t : MessageType) : t.code < 2^16 := by
  cases t <;> decide

def protocolMagic : Nat := 0x48454C49

def protocolVersion : Nat := 3

def headerSize : Nat := 24

def maxPayloadSize : Nat := 64*1024*1024

inductive ReplicationError
  | transport (text : String)
  | protocolVersion (expected actual : Nat)
deriving DecidableEq, Repr

/-- `{:08X}` -/
def upperHex (n : Nat) : String := .ofList ((range 8).map fun i => (Nat.digitChar (n/16^(7-i)%16)).toUpper)

def get (width : Nat) (buf : Bytes) : Nat × Bytes := (beValue (buf.take width),buf.drop width)

variable {width n : Nat} {buf : Bytes}

theorem get_beBytes (rest : Bytes) (h : n < 256^width) : get width (beBytes width n ++ rest) = (n,rest) := by
  rw [get,take_left' (length_beBytes width n),drop_left' (length_beBytes width n),beValue_beBytes h]

theorem exists_fields {widths : List Nat} (h : buf.length = widths.sum) :
    ∃ values, Forall₂ (fun width n => n < 256^width) widths values ∧ buf = (zipWith beBytes widths values).flatten := by
  induction widths generalizing buf with
  | nil => exact ⟨[],.nil,length_eq_zero_iff.mp h⟩
  | cons width widths ih =>
    rw [sum_cons] at h
    have hl : (buf.take width).length = width := length_take_of_le (by omega)
    obtain ⟨values,hv,hd⟩ := @ih (buf.drop width) (by rw [length_drop]; omega)
    refine ⟨beValue (buf.take width)::values,.cons (by simpa only [hl] using @beValue_lt (buf.take width)) hv,?_⟩
    rw [zipWith_cons_cons,flatten_cons,← hd,beBytes_beValue_of_length hl,take_append_drop]

structure MessageHeader where
  magic : Nat
  version : Nat
  msgType : MessageType
  length : Nat
  flags : Nat
  sequence : Nat
deriving DecidableEq, Repr

namespace MessageHeader

def new (msgType : MessageType) (payloadLen sequence : Nat) : MessageHeader :=
  ⟨protocolMagic,protocolVersion,msgType,payloadLen%2^32,0,sequence⟩

/-- The bytes of a header, with a code for its type. -/
def encodeAs (h : MessageHeader) (code : Nat) : Bytes :=
  beBytes 4 h.magic ++ (beBytes 2 h.version ++ (beBytes 2 code ++ (beBytes 4 h.length ++ (beBytes 4 h.flags ++ beBytes 8 h.sequence))))

def encode (h : MessageHeader) : Bytes := h.encodeAs h.msgType.code

def decode (buf : Bytes) : Except ReplicationError MessageHeader :=
  if buf.length < headerSize then .error (.transport "Incomplete header")
  else
    let (magic,buf) := get 4 buf
    if magic ≠ protocolMagic then
      let hint := if magic/2^24 = 'E'.toNat then
          " Peer response resembles a PostgreSQL ErrorResponse; check that --primary-host " ++
            "points to the primary's native --replication-port, not its PostgreSQL --port."
        else " Check that the peer endpoint serves the native HELI replication protocol."
      .error (.transport ("Invalid magic: expected " ++ upperHex protocolMagic ++ ", got " ++ upperHex magic ++ "." ++ hint))
    else
      let (version,buf) := get 2 buf
      if version ≠ protocolVersion then .error (.protocolVersion protocolVersion version)
      else
        let (code,buf) := get 2 buf
        let (length,buf) := get 4 buf
        let (flags,buf) := get 4 buf
        let (sequence,_) := get 8 buf
        if maxPayloadSize < length then .error (.transport ("Payload too large: " ++ toString length ++ " bytes"))
        else .ok ⟨magic,version,.fromU16 code,length,flags,sequence⟩

structure Valid (h : MessageHeader) : Prop where
  magic : h.magic = protocolMagic
  version : h.version = protocolVersion
  length : h.length ≤ maxPayloadSize
  flags : h.flags < 2^32
  sequence : h.sequence < 2^64

variable {h : MessageHeader} {code : Nat}

theorem length_encodeAs : (h.encodeAs code).length = headerSize := by
  simp [encodeAs,length_beBytes,headerSize]

theorem decode_encodeAs (hv : h.Valid) (hc : code < 2^16) (ht : .fromU16 code = h.msgType) : decode (h.encodeAs code) = .ok h := by
  have hm : h.magic < 256^4 := by rw [hv.magic]; decide
  have hvr : h.version < 256^2 := by rw [hv.version]; decide
  have hl : h.length < 256^4 := Nat.lt_of_le_of_lt hv.length (by decide)
  rw [decode,if_neg (by rw [length_encodeAs]; exact Nat.lt_irrefl _),encodeAs,← append_nil (beBytes 8 h.sequence)]
  simp only [get_beBytes _ hm,get_beBytes _ hvr,get_beBytes _ (show code < 256^2 from hc),get_beBytes _ hl,
    get_beBytes _ (show h.flags < 256^4 from hv.flags),get_beBytes _ (show h.sequence < 256^8 from hv.sequence)]
  rw [if_neg (not_not_intro hv.magic),if_neg (not_not_intro hv.version),if_neg (Nat.not_lt.mpr hv.length),ht]

theorem encodeAs_of_decode (hl : buf.length = headerSize) (hd : decode buf = .ok h) :
    h.Valid ∧ ∃ code < 2^16, .fromU16 code = h.msgType ∧ buf = h.encodeAs code := by
  obtain ⟨_,hf,rfl⟩ := exists_fields (show buf.length = [4,2,2,4,4,8].sum from hl)
  obtain _ | ⟨hm,_ | ⟨hvr,_ | ⟨hc,_ | ⟨hlen,_ | ⟨hf,_ | ⟨hs,_ | _⟩⟩⟩⟩⟩⟩ := hf
  simp only [zipWith,flatten_cons,flatten_nil] at hd ⊢
  rw [decode,if_neg (by simp [length_beBytes,headerSize])] at hd
  simp only [get_beBytes _ hm,get_beBytes _ hvr,get_beBytes _ hc,get_beBytes _ hlen,get_beBytes _ hf,get_beBytes _ hs] at hd
  split at hd
  · cases hd
  next hmagic =>
    split at hd
    · cases hd
    next hversion =>
      split at hd
      · cases hd
      next hle =>
        cases hd
        refine ⟨⟨not_not.mp hmagic,not_not.mp hversion,Nat.le_of_not_lt hle,hf,hs⟩,_,hc,rfl,?_⟩
        rw [encodeAs,append_nil]

end MessageHeader

structure Message where
  header : MessageHeader
  payload : Bytes
  checksum : Nat
deriving DecidableEq, Repr

def readExact (n : Nat) (what : String) (stream : Bytes) : Except ReplicationError (Bytes × Bytes) :=
  if stream.length < n then .error (.transport ("Failed to read " ++ what ++ ": early eof"))
  else .ok (stream.take n,stream.drop n)

namespace Message
variable (crc : Bytes → Fin (2^32))

def new (msgType : MessageType) (payload : Bytes) (sequence : Nat) : Message :=
  ⟨.new msgType payload.length sequence,payload,crc payload⟩

def encodeAs (m : Message) (code : Nat) : Bytes := m.header.encodeAs code ++ (m.payload ++ beBytes 4 m.checksum)

def encode (m : Message) : Bytes := m.encodeAs m.header.msgType.code

def readFrom (stream : Bytes) : Except ReplicationError (Message × Bytes) := do
  let (headerBuf,stream) ← readExact headerSize "header" stream
  let header ← MessageHeader.decode headerBuf
  let (payload,stream) ← readExact header.length "payload" stream
  let (checksumBuf,stream) ← readExact 4 "checksum" stream
  let checksum := beValue checksumBuf
  if checksum ≠ crc payload then
    .error (.transport ("Checksum mismatch: expected " ++ upperHex checksum ++ ", got " ++ upperHex (crc payload)))
  else .ok (⟨header,payload,checksum⟩,stream)

/-- The messages that a connection receives, one after another. -/
def receive : Nat → Bytes → Except ReplicationError (List Message × Bytes)
  | 0, stream => .ok ([],stream)
  | n+1, stream => do
    let (m,stream) ← readFrom crc stream
    let (rest,stream) ← receive n stream
    return (m::rest,stream)

structure Valid (m : Message) : Prop where
  header : m.header.Valid
  length : m.header.length = m.payload.length
  checksum : m.checksum = crc m.payload

/-- The bytes are those of the message, under a code that is read as its type. -/
def Spells (m : Message) (bytes : Bytes) : Prop := ∃ code < 2^16, .fromU16 code = m.header.msgType ∧ bytes = m.encodeAs code

variable {crc} {m : Message} {n code : Nat} {stream part rest : Bytes} {what : String}

theorem readExact_append (hl : part.length = n) : readExact n what (part ++ rest) = .ok (part,rest) := by
  rw [readExact,if_neg (by rw [length_append]; omega),take_left' hl,drop_left' hl]

theorem eq_append_of_readExact {part : Bytes} (h : readExact n what stream = .ok (part,rest)) :
    part.length = n ∧ stream = part ++ rest := by
  rw [readExact] at h
  split at h
  · cases h
  next hl =>
    cases h
    exact ⟨length_take_of_le (Nat.le_of_not_lt hl),(take_append_drop n stream).symm⟩

theorem readFrom_encodeAs (hv : m.Valid crc) (hc : code < 2^16) (ht : .fromU16 code = m.header.msgType) (rest : Bytes) :
    readFrom crc (m.encodeAs code ++ rest) = .ok (m,rest) := by
  have hs : m.checksum < 256^4 := by
    rw [hv.checksum]
    exact (crc m.payload).isLt
  rw [readFrom,encodeAs,append_assoc,append_assoc,readExact_append MessageHeader.length_encodeAs]
  simp only [bind,Except.bind,MessageHeader.decode_encodeAs hv.header hc ht,readExact_append hv.length.symm,
    readExact_append (length_beBytes 4 _),beValue_beBytes hs]
  rw [if_neg (not_not_intro hv.checksum)]

theorem spells_of_readFrom (h : readFrom crc stream = .ok (m,rest)) :
    m.Valid crc ∧ ∃ bytes, m.Spells bytes ∧ stream = bytes ++ rest := by
  obtain ⟨⟨headerBuf,s₁⟩,h₁,h'⟩ := bind_eq_ok.mp h
  obtain ⟨header,hd,h'⟩ := bind_eq_ok.mp h'
  obtain ⟨⟨payload,s₂⟩,h₂,h'⟩ := bind_eq_ok.mp h'
  obtain ⟨⟨checksumBuf,s₃⟩,h₃,hr⟩ := bind_eq_ok.mp h'
  clear h h'
  obtain ⟨hl₁,rfl⟩ := eq_append_of_readExact h₁
  obtain ⟨hl₂,rfl⟩ := eq_append_of_readExact h₂
  obtain ⟨hl₃,rfl⟩ := eq_append_of_readExact h₃
  obtain ⟨hv,code,hc,ht,rfl⟩ := MessageHeader.encodeAs_of_decode hl₁ hd
  dsimp only at hr
  split at hr
  · cases hr
  next hsum =>
    cases hr
    refine ⟨⟨hv,hl₂.symm,not_not.mp hsum⟩,_,⟨code,hc,ht,rfl⟩,?_⟩
    simp only [encodeAs,append_assoc,beBytes_beValue_of_length hl₃]

/-- What is received are valid messages, and the stream began with their bytes, up to the codes of unknown types. -/
theorem receive_eq_ok_iff (crc : Bytes → Fin (2^32)) :
    (∀ n stream msgs rest, receive crc n stream = .ok (msgs,rest) ↔
      msgs.length = n ∧ (∀ m ∈ msgs, m.Valid crc) ∧ ∃ sent, Joined Spells msgs sent ∧ stream = sent ++ rest) ∧
    (∀ m, Spells m m.encode) ∧ ∀ msgType payload sequence,
      (new crc msgType payload sequence).Valid crc ↔ payload.length ≤ maxPayloadSize ∧ sequence < 2^64 := by
  refine ⟨fun n => ?_,fun m => ⟨_,m.header.msgType.code_lt,m.header.msgType.fromU16_code,rfl⟩,fun msgType payload sequence => ?_⟩
  · induction n with
    | zero =>
      intro stream msgs rest
      constructor
      · rintro ⟨⟩
        exact ⟨rfl,by simp,[],joined_nil_iff.mpr rfl,rfl⟩
      · rintro ⟨hl,-,sent,hj,rfl⟩
        obtain rfl := length_eq_zero_iff.mp hl
        obtain rfl := joined_nil_iff.mp hj
        rfl
    | succ n ih =>
      intro stream msgs rest
      constructor
      · intro h
        obtain ⟨⟨m,s₁⟩,hm,h⟩ := bind_eq_ok.mp h
        obtain ⟨⟨ms,s₂⟩,hms,h⟩ := bind_eq_ok.mp h
        cases h
        obtain ⟨hv,bytes,hs,rfl⟩ := spells_of_readFrom hm
        obtain ⟨rfl,hvs,sent,hj,rfl⟩ := (ih _ _ _).mp hms
        exact ⟨rfl,forall_mem_cons.mpr ⟨hv,hvs⟩,bytes ++ sent,joined_cons_iff.mpr ⟨bytes,sent,hs,hj,rfl⟩,(append_assoc ..).symm⟩
      · rintro ⟨hl,hv,sent,hj,rfl⟩
        obtain ⟨m,ms,rfl⟩ := exists_cons_of_length_eq_add_one hl
        obtain ⟨hm,hms⟩ := forall_mem_cons.mp hv
        obtain ⟨_,more,⟨code,hc,ht,rfl⟩,hj',rfl⟩ := joined_cons_iff.mp hj
        rw [receive,append_assoc,readFrom_encodeAs hm hc ht]
        simp only [bind,Except.bind,(ih (more ++ rest) ms rest).mpr ⟨Nat.succ.inj hl,hms,more,hj',rfl⟩]
        rfl
  · constructor
    · intro h
      have hl : (new crc msgType payload sequence).payload.length ≤ maxPayloadSize := h.length ▸ h.header.length
      exact ⟨hl,h.header.sequence⟩
    · rintro ⟨hp,hs⟩
      have hl : payload.length%2^32 = payload.length := Nat.mod_eq_of_lt (Nat.lt_of_le_of_lt hp (by decide))
      exact ⟨⟨rfl,rfl,Nat.le_trans (Nat.mod_le _ _) hp,Nat.two_pow_pos 32,hs⟩,hl,rfl⟩

end Message
end HeliosNano.Replication.Transport
