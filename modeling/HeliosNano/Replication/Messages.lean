import HeliosNano.Replication.Wire

namespace HeliosNano.Replication
open Foundation Storage List

def fieldAt (width : Nat) (bytes : Bytes) (offset : Nat) : Except WireError Nat :=
  if bytes.length < offset+width then .error (.protocol "frame truncated")
  else .ok (beValue ((bytes.drop offset).take width))

def u32At (bytes : Bytes) (offset : Nat) : Except WireError Nat := fieldAt 4 bytes offset
def u64At (bytes : Bytes) (offset : Nat) : Except WireError Nat := fieldAt 8 bytes offset
def uuidAt (bytes : Bytes) (offset : Nat) : Except WireError Uuid := fieldAt 16 bytes offset

def Uuid.Fits (uuid : Nat) : Prop := uuid < 256^16

instance (uuid : Nat) : Decidable (Uuid.Fits uuid) := inferInstanceAs (Decidable (_ < _))

inductive OpenRequest
  | snapshot
  | resume (history : Uuid) (after : Nat)
deriving DecidableEq, Repr

def OpenRequest.encode : OpenRequest → Except WireError Bytes
  | snapshot => .ok [0]
  | resume history after =>
    if history = 0 ∨ maxSourceSequence < after then .error (.protocol "invalid resume identity/cursor")
    else .ok (1::(beBytes 16 history ++ beBytes 8 after))

def OpenRequest.decode (bytes : Bytes) : Except WireError OpenRequest := do
  let value ←
    if bytes = [0] then .ok .snapshot
    else if bytes.head? = some 1 ∧ bytes.length = 25 then do
      let history ← uuidAt bytes 1
      let after ← u64At bytes 17
      .ok (.resume history after)
    else .error (.protocol "invalid session open request")
  let _ ← value.encode
  .ok value

inductive SourceSessionInfo
  | snapshot (manifest : CheckpointManifest)
  | resume (sessionId history : Uuid) (initialAfter durableBarrier : Nat)
deriving DecidableEq, Repr

namespace SourceSessionInfo

def sessionId : SourceSessionInfo → Uuid
  | snapshot m => m.snapshotId
  | resume sessionId _ _ _ => sessionId

def history : SourceSessionInfo → Uuid
  | snapshot m => m.history
  | resume _ history _ _ => history

def initialAfter : SourceSessionInfo → Nat
  | snapshot m => m.checkpointSequence
  | resume _ _ initialAfter _ => initialAfter

def initialBarrier : SourceSessionInfo → Nat
  | snapshot m => m.checkpointSequence
  | resume _ _ _ durableBarrier => durableBarrier

def manifest : SourceSessionInfo → Option CheckpointManifest
  | snapshot m => some m
  | resume _ _ _ _ => none

def validate (info : SourceSessionInfo) (request : OpenRequest) (limits : WireLimits) : Except WireError Unit :=
  match info, request with
  | snapshot m, .snapshot => (m.validate limits.transfer).mapError .protocol
  | resume sessionId history initialAfter durableBarrier, .resume expected after =>
    if sessionId ≠ 0 ∧ history ≠ 0 ∧ history = expected ∧ initialAfter = after ∧ after ≤ durableBarrier ∧
        durableBarrier ≤ maxSourceSequence then .ok ()
    else .error (.protocol "source session identity/cursor/mode mismatch")
  | _, _ => .error (.protocol "source session identity/cursor/mode mismatch")

def response (json : ManifestJson) : SourceSessionInfo → Kind × Bytes
  | snapshot m => (.manifest,json.toVec m)
  | resume sessionId history initialAfter durableBarrier =>
    (.resumeInfo,beBytes 16 sessionId ++ (beBytes 16 history ++ (beBytes 8 initialAfter ++ beBytes 8 durableBarrier)))

end SourceSessionInfo

def chunkBounds (manifest : CheckpointManifest) (index offset length : Nat) (limits : WireLimits) :
    Except WireError Unit :=
  match manifest.files[index]? with
  | none => .error (.protocol "unknown manifest file index")
  | some file =>
    if length = 0 ∨ limits.transfer.maxChunkBytes < length ∨ u64Max < offset+length ∨ file.size < offset+length then
      .error (.protocol "chunk request outside immutable manifest")
    else .ok ()

structure PollSummary where
  through : Nat
  durableBarrier : Nat
  batches : Nat
deriving DecidableEq, Repr

namespace PollSummary

def encode (s : PollSummary) : Bytes := beBytes 8 s.through ++ (beBytes 8 s.durableBarrier ++ beBytes 4 s.batches)

def decode (bytes : Bytes) : Except WireError PollSummary := do
  let through ← u64At bytes 0
  let durableBarrier ← u64At bytes 8
  let batches ← u32At bytes 16
  .ok ⟨through,durableBarrier,batches⟩

def validate (s : PollSummary) (after byteLimit : Nat) : Except WireError Unit :=
  if s.through < after ∨ s.durableBarrier < s.through ∨ maxSourceSequence < s.durableBarrier ∨
      (s.batches = 0 ∧ s.through ≠ s.durableBarrier) ∨ ¬ (s.batches = 0 ↔ s.through = after) ∨
      byteLimit/12 < s.batches then
    .error (.protocol "inconsistent physical poll summary")
  else .ok ()

def validateSince (s : PollSummary) (after byteLimit knownBarrier : Nat) : Except WireError Unit := do
  s.validate after byteLimit
  if s.durableBarrier < knownBarrier then .error (.protocol "source durable barrier regressed within session")
  else .ok ()

end PollSummary

/-- The text of an error of the batch reader; a storage error has the store's own text. -/
def PhysicalError.display (storage : String) : PhysicalError → String
  | .storage => "physical replication storage error: " ++ storage
  | .invalid message => "invalid physical replication input: " ++ message
  | .gap expected observed =>
    "physical replication interval missing: expected " ++ toString expected ++ ", observed " ++ toString observed
  | .historyMismatch => "physical replication history mismatch"
  | .poisoned => "physical receiver must be reopened after an uncertain storage failure"

structure PhysicalPoll where
  batches : List PhysicalBatch
  through : Nat
  durableBarrier : Nat
deriving DecidableEq, Repr

def PhysicalPoll.summary (poll : PhysicalPoll) : PollSummary := ⟨poll.through,poll.durableBarrier,poll.batches.length⟩

def chunkRequestPayload (snapshotId : Uuid) (index offset length : Nat) : Bytes :=
  beBytes 16 snapshotId ++ (beBytes 4 index ++ (beBytes 8 offset ++ beBytes 4 length))

def chunkPayload (sha256 : Bytes → Bytes) (snapshotId : Uuid) (index offset : Nat) (bytes : Bytes) : Bytes :=
  beBytes 16 snapshotId ++ (beBytes 4 index ++ (beBytes 8 offset ++ (sha256 bytes ++ bytes)))

def pollRequestPayload (sessionId : Uuid) (after byteLimit : Nat) : Bytes :=
  beBytes 16 sessionId ++ (beBytes 8 after ++ beBytes 4 byteLimit)

def batchPayload (batch : PhysicalBatch) : Bytes :=
  beBytes 16 batch.history ++ (beBytes 8 batch.first ++ (batch.digest ++ batch.raw))

variable {width : Nat} {bytes : Bytes} {offset after : Nat} {s : PollSummary}

theorem fieldAt_eq {before field rest : Bytes} (h : bytes = before ++ (field ++ rest))
    (hb : before.length = offset) (hf : field.length = width) : fieldAt width bytes offset = .ok (beValue field) := by
  have hl : ¬ bytes.length < offset+width := by
    rw [h,length_append,length_append]
    omega
  rw [fieldAt,if_neg hl,h,drop_left' hb,take_left' hf]

theorem fieldAt_beBytes {bytes before rest : Bytes} {width offset n : Nat}
    (h : bytes = before ++ (beBytes width n ++ rest)) (hb : before.length = offset) (hn : n < 256^width) :
    fieldAt width bytes offset = .ok n := by
  rw [fieldAt_eq h hb (length_beBytes width n),beValue_beBytes hn]

variable {value byteLimit : Nat}
variable (h : fieldAt width bytes offset = .ok value)
include h

theorem fieldAt_eq_ok : offset+width ≤ bytes.length ∧ beValue ((bytes.drop offset).take width) = value := by
  unfold fieldAt at h
  split at h
  · cases h
  next hl =>
    cases h
    exact ⟨by omega,rfl⟩

theorem take_of_fieldAt : (bytes.drop offset).take width = beBytes width value := by
  obtain ⟨hl,rfl⟩ := fieldAt_eq_ok h
  rw [beBytes_beValue_of_length]
  rw [length_take,length_drop]
  omega

omit h

theorem OpenRequest.decode_encode {request : OpenRequest} (h : request.encode = .ok bytes)
    (hf : ∀ history after, request = .resume history after → Uuid.Fits history) : decode bytes = .ok request := by
  cases request with
  | snapshot =>
    cases h
    rfl
  | resume history after =>
    have he := h
    simp only [encode] at h
    split at h
    · cases h
    next hb =>
      cases h
      push Not at hb
      have hh : uuidAt (1::(beBytes 16 history ++ beBytes 8 after)) 1 = .ok history :=
        @fieldAt_beBytes _ [1] (beBytes 8 after) 16 1 history (by simp) (by simp) (hf history after rfl)
      have ha : u64At (1::(beBytes 16 history ++ beBytes 8 after)) 17 = .ok after := by
        have hlt : after < 256^8 := lt_of_le_of_lt hb.2 (by decide)
        exact @fieldAt_beBytes _ (1 :: beBytes 16 history) [] 8 17 after (by simp) (by simp [length_beBytes]) hlt
      unfold decode
      rw [if_neg (by simp),if_pos ⟨rfl,by simp [length_beBytes]⟩,hh,ha]
      simp [bind,Except.bind,he]

theorem SourceSessionInfo.validate_resume {info : SourceSessionInfo} {history : Nat} {limits : WireLimits}
    (h : info.validate (.resume history after) limits = .ok ()) :
    info.sessionId ≠ 0 ∧ info.history ≠ 0 ∧ info.history = history ∧ info.initialAfter = after ∧
      after ≤ info.initialBarrier ∧ info.initialBarrier ≤ maxSourceSequence := by
  cases info with
  | snapshot => cases h
  | resume sessionId found initialAfter durableBarrier =>
    simp only [validate] at h
    split at h
    next hf => exact hf
    · cases h

theorem eq_snapshot_of_manifest {info : Option SourceSessionInfo} {manifest : CheckpointManifest}
    (h : info.bind SourceSessionInfo.manifest = some manifest) : info = some (.snapshot manifest) := by
  cases info with
  | none => cases h
  | some info =>
    cases info with
    | snapshot m =>
      cases h
      rfl
    | resume => cases h

theorem PollSummary.decode_encode (hth : s.through < 256^8) (hbr : s.durableBarrier < 256^8)
    (hb : s.batches < 256^4) : decode s.encode = .ok s := by
  unfold decode u64At u32At encode
  rw [@fieldAt_beBytes _ [] (beBytes 8 s.durableBarrier ++ beBytes 4 s.batches) 8 0 s.through (by simp) rfl hth,
    @fieldAt_beBytes _ (beBytes 8 s.through) (beBytes 4 s.batches) 8 8 s.durableBarrier rfl (length_beBytes 8 _) hbr,
    @fieldAt_beBytes _ (beBytes 8 s.through ++ beBytes 8 s.durableBarrier) [] 4 16 s.batches (by simp)
      (by simp [length_beBytes]) hb]
  rfl

theorem PollSummary.length_encode (s : PollSummary) : s.encode.length = 20 := by
  simp [encode,length_beBytes]

theorem PollSummary.validate_eq_ok (h : s.validate after byteLimit = .ok ()) :
    after ≤ s.through ∧ s.through ≤ s.durableBarrier ∧ s.durableBarrier ≤ maxSourceSequence ∧
      (s.batches = 0 → s.through = s.durableBarrier) ∧ (s.batches = 0 ↔ s.through = after) ∧ s.batches ≤ byteLimit/12 := by
  unfold validate at h
  split at h
  · cases h
  next hn =>
    push Not at hn
    exact hn

theorem PollSummary.validateSince_eq_ok {knownBarrier : Nat} (h : s.validateSince after byteLimit knownBarrier = .ok ()) :
    s.validate after byteLimit = .ok () ∧ knownBarrier ≤ s.durableBarrier := by
  unfold validateSince at h
  obtain ⟨⟨⟩,hv,h⟩ := bind_eq_ok.mp h
  split at h
  · cases h
  next hb => exact ⟨hv,by omega⟩

end HeliosNano.Replication
