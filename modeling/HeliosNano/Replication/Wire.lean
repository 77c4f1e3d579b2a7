import HeliosNano.Foundation.Effects
import HeliosNano.Replication.Checkpoint
import Mathlib.Data.List.Infix

/-! Frames of the physical transfer, the link they go over, and what they carry. The peer is a machine that
answers the bytes it is sent; deadlines, shutdown and failures of the transport are a schedule. -/
namespace HeliosNano.Replication
open Foundation Storage List

/-- `NPHYS001` -/
def magic : Bytes := ascii ['N','P','H','Y','S','0','0','1']

def version : Nat := 1
def maxSourceSequence : Nat := 2^56-1
def headerBytes : Nat := 16
def tokenBytes : Nat := 32
def chunkMeta : Nat := 16+4+8+32
def batchMeta : Nat := 16+8+32

inductive WireError
  | io
  | protocol (message : String)
  | authentication
  | timeout
  | shutdown
  | source (message : String)
  | poisoned
deriving DecidableEq, Repr

/-- A refusal of what the other side sent or asked for, as against a failure of its surroundings. -/
def WireError.isRefusal : WireError → Bool
  | protocol _ => true
  | authentication => true
  | _ => false

structure WireLimits where
  frameTimeout : Nat
  operationTimeout : Nat
  transfer : TransferLimits
deriving DecidableEq, Repr

def hour : Nat := 3600*1000000000

def WireLimits.validate (limits : WireLimits) : Except WireError Unit :=
  if limits.frameTimeout = 0 ∨ limits.operationTimeout = 0 ∨ hour < limits.frameTimeout ∨
      hour < limits.operationTimeout ∨ limits.transfer.maxFiles = 0 ∨ 2048 < limits.transfer.maxFiles ∨
      limits.transfer.maxTotalBytes = 0 ∨ 1024*1024*1024*1024 < limits.transfer.maxTotalBytes ∨
      limits.transfer.maxFileBytes = 0 ∨ limits.transfer.maxTotalBytes < limits.transfer.maxFileBytes ∨
      limits.transfer.maxChunkBytes = 0 ∨ maxChunkBytes < limits.transfer.maxChunkBytes then
    .error (.protocol "invalid transfer deadlines/chunk bound")
  else .ok ()

inductive Kind
  | auth
  | authOk
  | openSession
  | manifest
  | chunkRequest
  | chunk
  | pollRequest
  | pollStart
  | batch
  | pollEnd
  | close
  | closed
  | authRejected
  | resumeInfo
deriving DecidableEq, Repr

namespace Kind

def code : Kind → Nat
  | auth => 1
  | authOk => 2
  | openSession => 3
  | manifest => 4
  | chunkRequest => 5
  | chunk => 6
  | pollRequest => 7
  | pollStart => 8
  | batch => 9
  | pollEnd => 10
  | close => 11
  | closed => 12
  | authRejected => 13
  | resumeInfo => 14

def decode (value : Nat) : Except WireError Kind :=
  match value with
  | 1 => .ok auth
  | 2 => .ok authOk
  | 3 => .ok openSession
  | 4 => .ok manifest
  | 5 => .ok chunkRequest
  | 6 => .ok chunk
  | 7 => .ok pollRequest
  | 8 => .ok pollStart
  | 9 => .ok batch
  | 10 => .ok pollEnd
  | 11 => .ok close
  | 12 => .ok closed
  | 13 => .ok authRejected
  | 14 => .ok resumeInfo
  | _ => .error (.protocol "unknown frame kind")

def validSize (kind : Kind) (n : Nat) : Bool :=
  match kind with
  | auth => n = tokenBytes
  | authOk | close | closed | authRejected => n = 0
  | openSession => n = 1 || n = 25
  | resumeInfo => n = 48
  | manifest => 1 ≤ n && n ≤ maxManifestBytes
  | chunkRequest => n = 32
  | chunk => chunkMeta+1 ≤ n && n ≤ chunkMeta+maxChunkBytes
  | pollRequest => n = 28
  | pollStart | pollEnd => n = 20
  | batch => batchMeta+12 ≤ n && n ≤ batchMeta+maxBatchBytes

theorem decode_code (kind : Kind) : decode kind.code = .ok kind := by
  cases kind <;> rfl

variable {kind : Kind}

theorem code_of_decode {value : Nat} (h : decode value = .ok kind) : kind.code = value := by
  unfold decode at h
  split at h <;> cases h <;> rfl

theorem code_lt (kind : Kind) : kind.code < 256^2 := by
  cases kind <;> decide

theorem size_lt {n : Nat} (h : kind.validSize n = true) : n < 256^4 := by
  have htk : tokenBytes = 32 := rfl
  have hm : maxManifestBytes = 1048576 := rfl
  have hc : chunkMeta+maxChunkBytes = 1048636 := rfl
  have hb : batchMeta+maxBatchBytes = 67108920 := rfl
  cases kind <;> simp only [validSize,decide_eq_true_eq,Bool.or_eq_true,Bool.and_eq_true] at h <;> omega

end Kind

structure Frame where
  kind : Kind
  payload : Bytes
deriving DecidableEq, Repr

def frameHeader (kind : Kind) (length : Nat) : Bytes :=
  magic ++ (beBytes 2 version ++ (beBytes 2 kind.code ++ beBytes 4 length))

def frameBytes (kind : Kind) (payload : Bytes) : Bytes := frameHeader kind payload.length ++ payload

/-- The checks of a header, before any of the payload is read. -/
def decodeHeader (allowed : List Kind) (header : Bytes) : Except WireError (Kind × Nat) := do
  if header.take 8 ≠ magic ∨ beValue ((header.drop 8).take 2) ≠ version then
    .error (.protocol "wrong physical transfer magic/version")
  else
    let kind ← Kind.decode (beValue ((header.drop 10).take 2))
    let length := beValue (header.drop 12)
    if kind ∉ allowed ∨ ¬ kind.validSize length then .error (.protocol "unexpected frame or invalid length")
    else .ok (kind,length)

@[simp]
theorem length_magic : magic.length = 8 := rfl

@[simp]
theorem length_frameHeader (kind : Kind) (length : Nat) : (frameHeader kind length).length = headerBytes := by
  simp [frameHeader,length_beBytes,headerBytes]

theorem length_frameBytes (kind : Kind) (payload : Bytes) : (frameBytes kind payload).length = headerBytes+payload.length := by
  simp [frameBytes]

variable {kind : Kind} {allowed : List Kind} {length : Nat}

theorem decodeHeader_frameHeader (ha : kind ∈ allowed)
    (hs : kind.validSize length = true) : decodeHeader allowed (frameHeader kind length) = .ok (kind,length) := by
  have hm : (frameHeader kind length).take 8 = magic := take_left' length_magic
  have hv : ((frameHeader kind length).drop 8).take 2 = beBytes 2 version := by
    rw [frameHeader,drop_left' length_magic,take_left' (length_beBytes 2 version)]
  have hc : ((frameHeader kind length).drop 10).take 2 = beBytes 2 kind.code := by
    rw [frameHeader,← append_assoc,drop_left' (by simp [length_beBytes]),
      take_left' (length_beBytes 2 _)]
  have hl : (frameHeader kind length).drop 12 = beBytes 4 length := by
    rw [frameHeader,← append_assoc,← append_assoc,drop_left' (by simp [length_beBytes])]
  unfold decodeHeader
  rw [hm,hv,hc,hl,beValue_beBytes (by decide),beValue_beBytes kind.code_lt,
    beValue_beBytes (Kind.size_lt hs),Kind.decode_code]
  simp [ha,hs,bind,Except.bind]

theorem beBytes_beValue_of_length {bytes : Bytes} {width : Nat} (h : bytes.length = width) :
    beBytes width (beValue bytes) = bytes := by
  rw [← h,beBytes_beValue]

theorem take_drop_split (bytes : Bytes) (n k : Nat) : (bytes.drop n).take k ++ bytes.drop (n+k) = bytes.drop n := by
  rw [← drop_drop,take_append_drop]

theorem decodeHeader_eq_ok {header : Bytes}
    (hl : header.length = headerBytes) (h : decodeHeader allowed header = .ok (kind,length)) :
    header = frameHeader kind length ∧ kind ∈ allowed ∧ kind.validSize length = true := by
  unfold decodeHeader at h
  split at h
  · cases h
  next hm =>
    push Not at hm
    obtain ⟨kind',hk,h⟩ := bind_eq_ok.mp h
    dsimp only at h
    split at h
    · cases h
    next hc =>
      cases h
      push Not at hc
      refine ⟨?_,hc.1,by simpa using hc.2⟩
      have hv : (header.drop 8).take 2 = beBytes 2 version := by
        rw [← hm.2,beBytes_beValue_of_length (by simp [hl,headerBytes])]
      have hcd : (header.drop 10).take 2 = beBytes 2 kind.code := by
        rw [Kind.code_of_decode hk,beBytes_beValue_of_length (by simp [hl,headerBytes])]
      have hrest : beBytes 4 (beValue (header.drop 12)) = header.drop 12 :=
        beBytes_beValue_of_length (by simp [hl,headerBytes])
      calc header
        _ = header.take 8 ++ header.drop 8 := (take_append_drop 8 header).symm
        _ = header.take 8 ++ ((header.drop 8).take 2 ++ ((header.drop 10).take 2 ++ header.drop 12)) := by
          rw [take_drop_split header 10 2,take_drop_split header 8 2]
        _ = _ := by rw [hm.1,hv,hcd,frameHeader,hrest]

inductive Interruption
  | io
  | timeout
  | shutdown
deriving DecidableEq, Repr

def Interruption.error : Interruption → WireError
  | io => .io
  | timeout => .timeout
  | shutdown => .shutdown

/-- An awaited operation ends early, when some bytes have moved. A future that is dropped there leaves the
same behind, without a result. -/
structure Stop where
  cause : Interruption
  moved : Nat
deriving DecidableEq, Repr

/-- One end of a connection: the bytes to come, those sent so far, and the stops of the operations to come. -/
structure Link (σ : Type) where
  peer : σ
  input : Bytes
  output : Bytes
  stops : List (Option Stop)

/-- How a peer goes on when bytes arrive, and what it sends then. -/
abbrev Reaction (σ : Type) := σ → Bytes → σ × Bytes

abbrev Exchange (σ : Type) := EStateM WireError (Link σ)

section
variable {σ α : Type} (react : Reaction σ)

def Link.send (l : Link σ) (bytes : Bytes) : Link σ :=
  { l with
    peer := (react l.peer bytes).1
    input := l.input ++ (react l.peer bytes).2
    output := l.output ++ bytes }

def bounded (interrupted : Nat → Link σ → Link σ) (body : Exchange σ α) : Exchange σ α := fun l =>
  match l.stops with
  | some stop :: stops => .error stop.cause.error (interrupted stop.moved { l with stops := stops })
  | none::stops => body { l with stops := stops }
  | [] => body l

def readExact (n : Nat) : Exchange σ Bytes := fun l =>
  if l.input.length < n then .error .io { l with input := [] }
  else .ok (l.input.take n) { l with input := l.input.drop n }

def readFrame (allowed : List Kind) : Exchange σ Frame :=
  bounded (fun n l => { l with input := l.input.drop n }) do
    let header ← readExact headerBytes
    let (kind,length) ← fromExcept (decodeHeader allowed header)
    let payload ← readExact length
    return ⟨kind,payload⟩

def writeFrame (kind : Kind) (payload : Bytes) : Exchange σ Unit :=
  if kind.validSize payload.length then
    bounded (fun n l => l.send react ((frameBytes kind payload).take n))
      (modify fun l => l.send react (frameBytes kind payload))
  else throw (.protocol "outgoing frame exceeds bounds")

def shutdownStream : Exchange σ Unit := bounded (fun _ l => l) (pure ())

/-- Reading sends nothing. -/
structure Link.Unsent (l l' : Link σ) : Prop where
  peer : l'.peer = l.peer
  output : l'.output = l.output

variable {react} {l : Link σ}
variable {err : WireError → Link σ → Prop}

theorem post_bounded {interrupted : Nat → Link σ → Link σ} {body : Exchange σ α} {ok : α → Link σ → Prop}
    (hb : Post body { l with stops := l.stops.tail } ok err)
    (hs : l.stops ≠ [] → ∀ cause n, err (Interruption.error cause) (interrupted n { l with stops := l.stops.tail })) :
    Post (bounded interrupted body) l ok err := by
  obtain ⟨peer,input,output,stops⟩ := l
  cases stops with
  | nil => exact hb.congr rfl
  | cons stop stops =>
    cases stop with
    | none => exact hb.congr rfl
    | some stop => exact .of_error rfl (hs (by simp) stop.cause stop.moved)

theorem Interruption.error_not_refusal (cause : Interruption) : cause.error.isRefusal = false := by
  cases cause <;> rfl

theorem post_readExact {n : Nat} {ok : Bytes → Link σ → Prop} : Post (readExact n) l ok err ↔
      (l.input.length < n → err .io { l with input := [] }) ∧
      (n ≤ l.input.length → ok (l.input.take n) { l with input := l.input.drop n }) := by
  unfold Post readExact
  by_cases h : l.input.length < n
  · simp [h,Nat.not_le.mpr h]
  · simp [h,Nat.not_lt.mp h]

/-- Whatever the peer sends: a frame that is read has an allowed kind and a size the kind may have, and is
what comes off the stream. -/
theorem readFrame_post (allowed : List Kind) (l : Link σ) : Post (readFrame allowed) l
      (fun frame l' => frame.kind ∈ allowed ∧ frame.kind.validSize frame.payload.length = true ∧
        l.input = frameBytes frame.kind frame.payload ++ l'.input ∧ l.Unsent l') (fun _ l' => l.Unsent l') := by
  apply post_bounded
  · simp only [post_bind,post_readExact,post_fromExcept,post_pure]
    refine ⟨fun _ => ⟨rfl,rfl⟩,fun hh => ⟨?_,fun _ _ => ⟨rfl,rfl⟩⟩⟩
    rintro ⟨kind,length⟩ hd
    obtain ⟨hfr,ha,hs⟩ := decodeHeader_eq_ok (length_take_of_le hh) hd
    dsimp only
    refine ⟨fun _ => ⟨rfl,rfl⟩,fun hl => ?_⟩
    have hp : ((l.input.drop headerBytes).take length).length = length := length_take_of_le hl
    refine ⟨ha,by rwa [hp],?_,rfl,rfl⟩
    rw [frameBytes,hp,← hfr,append_assoc,take_append_drop,take_append_drop]
  · intro _ _ _
    exact ⟨rfl,rfl⟩

theorem readFrame_honest {allowed : List Kind} {kind : Kind} {payload rest : Bytes} (ha : kind ∈ allowed)
    (hs : kind.validSize payload.length = true) (hi : l.input <+: frameBytes kind payload ++ rest) : Post (readFrame allowed) l
      (fun frame l' => frame = ⟨kind,payload⟩ ∧ l.input = frameBytes kind payload ++ l'.input ∧ l'.input <+: rest ∧
        l'.stops = l.stops.tail ∧ l.Unsent l')
      (fun e l' => e.isRefusal = false ∧ (l.stops = [] → l.input ≠ frameBytes kind payload ++ rest) ∧ l.Unsent l') := by
  apply post_bounded
  · simp only [post_bind,post_readExact,post_fromExcept,post_pure]
    constructor
    · intro hsh
      refine ⟨rfl,fun _ heq => ?_,rfl,rfl⟩
      rw [heq,length_append,length_frameBytes] at hsh
      omega
    intro hh
    have htk : l.input.take headerBytes = frameHeader kind payload.length := by
      rw [prefix_iff_eq_take.mp hi,take_take,Nat.min_eq_left hh,frameBytes,
        append_assoc,take_left' (length_frameHeader kind _)]
    rw [htk,decodeHeader_frameHeader ha hs]
    refine ⟨?_,by simp⟩
    rintro _ ⟨⟩
    dsimp only
    have hd : l.input.drop headerBytes <+: payload ++ rest := by
      have := hi.drop headerBytes
      rwa [frameBytes,append_assoc,drop_left' (length_frameHeader kind _)] at this
    constructor
    · intro hsh
      refine ⟨rfl,fun _ heq => ?_,rfl,rfl⟩
      rw [heq,frameBytes,append_assoc,drop_left' (length_frameHeader kind _),
        length_append] at hsh
      omega
    intro hl
    have hp : (l.input.drop headerBytes).take payload.length = payload := by
      rw [prefix_iff_eq_take.mp hd,take_take,Nat.min_eq_left hl,take_left]
    refine ⟨by rw [hp],?_,?_,trivial,rfl,rfl⟩
    · calc l.input
        _ = l.input.take headerBytes ++ l.input.drop headerBytes := (take_append_drop _ _).symm
        _ = frameHeader kind payload.length ++
            ((l.input.drop headerBytes).take payload.length ++ (l.input.drop headerBytes).drop payload.length) := by
          rw [htk,take_append_drop]
        _ = _ := by rw [hp,frameBytes,append_assoc]
    · have := hd.drop payload.length
      rwa [drop_left] at this
  · intro hst cause n
    exact ⟨cause.error_not_refusal,fun h => absurd h hst,rfl,rfl⟩

theorem writeFrame_post {kind : Kind} {payload : Bytes} (hs : kind.validSize payload.length = true) :
    Post (writeFrame react kind payload) l
      (fun _ l' => l' = Link.send react { l with stops := l.stops.tail } (frameBytes kind payload))
      (fun e l' => e.isRefusal = false ∧ l.stops ≠ [] ∧
        ∃ n, l' = Link.send react { l with stops := l.stops.tail } ((frameBytes kind payload).take n)) := by
  unfold writeFrame
  rw [if_pos hs]
  apply post_bounded
  · exact post_modify.mpr rfl
  · intro hst cause n
    exact ⟨cause.error_not_refusal,hst,n,rfl⟩

end

end HeliosNano.Replication
