import HeliosNano.Replication.Messages

namespace HeliosNano.Replication
open Foundation Storage

/-- The client, with the answers its sinks are going to give and the batches they were given. The answer of
a sink that meets a deadline or the shutdown is that error. -/
structure PhysicalClient (σ : Type) where
  io : Link σ
  info : Option SourceSessionInfo
  knownBarrier : Nat
  poisoned : Bool
  sink : List (Option WireError)
  given : List PhysicalBatch

abbrev Session (σ : Type) := EStateM WireError (PhysicalClient σ)

section
variable {σ α : Type} (sha256 : Bytes → Bytes) (json : ManifestJson) (limits : WireLimits) (react : Reaction σ)

def onLink (x : Exchange σ α) : Session σ α := zoom PhysicalClient.io (fun l c => { c with io := l }) x

def PhysicalClient.new (io : Link σ) (sink : List (Option WireError)) : PhysicalClient σ := ⟨io,none,0,false,sink,[]⟩

def authenticate (token : Bytes) : Exchange σ Unit := do
  fromExcept limits.validate
  writeFrame react .auth token
  let response ← readFrame [.authOk,.authRejected]
  if response.kind = .authRejected then throw .authentication

/-- `check_live`, the poison, the call's own body, and the poison taken back on success. -/
def armed (body : Session σ α) : Session σ α := do
  if (← get).poisoned then throw .poisoned
  else
    modify fun c => { c with poisoned := true }
    let outcome ← body
    modify fun c => { c with poisoned := false }
    return outcome

/-- The answer to `Open` for a snapshot. -/
def receiveManifest (expectedHistory : Option Uuid) : Session σ CheckpointManifest := do
  let frame ← onLink (readFrame [.manifest])
  let manifest ← fromExcept ((CheckpointManifest.decode json frame.payload limits.transfer).mapError .protocol)
  if expectedHistory.any fun expected => expected ≠ manifest.history then
    throw (.protocol "manifest history mismatch")
  else
    modify fun c => { c with knownBarrier := manifest.checkpointSequence, info := some (.snapshot manifest) }
    return manifest

def fetchManifest (expectedHistory : Option Uuid) : Session σ CheckpointManifest :=
  armed do
    if (← get).info.isSome then throw (.protocol "manifest already selected for this session")
    else
      let request ← fromExcept OpenRequest.snapshot.encode
      onLink (writeFrame react .openSession request)
      receiveManifest json limits expectedHistory

/-- The answer to `Open` for a resumption. -/
def receiveResume (history : Uuid) (after : Nat) : Session σ SourceSessionInfo := do
  let frame ← onLink (readFrame [.resumeInfo])
  let sessionId ← fromExcept (uuidAt frame.payload 0)
  let found ← fromExcept (uuidAt frame.payload 16)
  let initialAfter ← fromExcept (u64At frame.payload 32)
  let durableBarrier ← fromExcept (u64At frame.payload 40)
  let info := SourceSessionInfo.resume sessionId found initialAfter durableBarrier
  fromExcept (info.validate (.resume history after) limits)
  modify fun c => { c with knownBarrier := info.initialBarrier, info := some info }
  return info

def resume (history : Uuid) (after : Nat) : Session σ SourceSessionInfo :=
  armed do
    if (← get).info.isSome then throw (.protocol "session already selected")
    else
      let request ← fromExcept (OpenRequest.resume history after).encode
      onLink (writeFrame react .openSession request)
      receiveResume limits history after

def receiveChunk (manifest : CheckpointManifest) (index offset length : Nat) : Session σ Bytes := do
  let frame ← onLink (readFrame [.chunk])
  let snapshotId ← fromExcept (uuidAt frame.payload 0)
  let foundIndex ← fromExcept (u32At frame.payload 16)
  let foundOffset ← fromExcept (u64At frame.payload 20)
  let body := frame.payload.drop chunkMeta
  if ¬ (snapshotId = manifest.snapshotId ∧ foundIndex = index ∧ foundOffset = offset ∧
      frame.payload.length = chunkMeta+length) ∨ sha256 body ≠ (frame.payload.drop 28).take 32 then
    throw (.protocol "chunk response identity/length/digest mismatch")
  else return body

def readChunk (index offset length : Nat) : Session σ Bytes :=
  armed do
    match (← get).info.bind SourceSessionInfo.manifest with
    | none => throw (.protocol "snapshot manifest required before chunk")
    | some manifest =>
      fromExcept (chunkBounds manifest index offset length limits)
      onLink (writeFrame react .chunkRequest (chunkRequestPayload manifest.snapshotId index offset length))
      receiveChunk sha256 manifest index offset length

def applySink (batch : PhysicalBatch) : Session σ Unit := fun c =>
  let c' := { c with given := c.given ++ [batch], sink := c.sink.tail }
  match c.sink with
  | some error :: _ => .error error c'
  | _ => .ok () c'

/-- The loop over the batches of a poll; the cursor they lead to. -/
def readBatches (info : SourceSessionInfo) (through byteLimit : Nat) : Nat → Nat → Nat → Session σ Nat
  | 0, cursor, _ => pure cursor
  | batches+1, cursor, bytes => do
    let frame ← onLink (readFrame [.batch])
    let history ← fromExcept (uuidAt frame.payload 0)
    let first ← fromExcept (u64At frame.payload 16)
    if frame.payload.length < 56 then throw (.protocol "batch payload truncated")
    else
      let digest := (frame.payload.drop 24).take 32
      let raw := frame.payload.drop batchMeta
      let bytes := bytes+raw.length
      if history ≠ info.history ∨ first ≠ cursor+1 ∨ byteLimit < bytes then
        throw (.protocol "physical response history/sequence/byte mismatch")
      else
        let batch ← fromExcept ((PhysicalBatch.decode sha256 history first raw digest).mapError fun error =>
          .protocol (error.display ""))
        if through < batch.last then throw (.protocol "batch crosses advertised barrier")
        else
          applySink batch
          readBatches info through byteLimit batches batch.last bytes

/-- The answer to a poll: the summary, the batches, and the summary again. -/
def receivePoll (info : SourceSessionInfo) (after byteLimit : Nat) : Session σ PollSummary := do
  let frame ← onLink (readFrame [.pollStart])
  let summary ← fromExcept (PollSummary.decode frame.payload)
  fromExcept (summary.validateSince after byteLimit (← get).knownBarrier)
  let cursor ← readBatches sha256 info summary.through byteLimit summary.batches after 0
  let last ← onLink (readFrame [.pollEnd])
  let ending ← fromExcept (PollSummary.decode last.payload)
  if ending ≠ summary ∨ cursor ≠ summary.through then throw (.protocol "incomplete physical poll response")
  else
    modify fun c => { c with knownBarrier := summary.durableBarrier }
    return summary

def poll (after byteLimit : Nat) : Session σ PollSummary :=
  armed do
    match (← get).info with
    | none => throw (.protocol "open session required before continuation")
    | some info =>
      if after < info.initialAfter ∨ maxSourceSequence < after ∨ byteLimit = 0 ∨ maxBatchBytes < byteLimit then
        throw (.protocol "invalid physical continuation request")
      else
        onLink (writeFrame react .pollRequest (pollRequestPayload info.sessionId after byteLimit))
        receivePoll sha256 info after byteLimit

def close : Session σ Unit := do
  if (← get).poisoned then throw .poisoned
  else
    onLink (writeFrame react .close [])
    let _ ← onLink (readFrame [.closed])
    onLink shutdownStream

inductive Call
  | fetchManifest (expectedHistory : Option Uuid)
  | resume (history : Uuid) (after : Nat)
  | readChunk (index offset length : Nat)
  | poll (after byteLimit : Nat)
deriving DecidableEq, Repr

inductive Answer
  | manifest (manifest : CheckpointManifest)
  | session (info : SourceSessionInfo)
  | chunk (bytes : Bytes)
  | summary (summary : PollSummary)
deriving DecidableEq, Repr

def Call.perform : Call → Session σ Answer
  | .fetchManifest expectedHistory => Answer.manifest <$> Replication.fetchManifest json limits react expectedHistory
  | .resume history after => Answer.session <$> Replication.resume limits react history after
  | .readChunk index offset length => Answer.chunk <$> Replication.readChunk sha256 limits react index offset length
  | .poll after byteLimit => Answer.summary <$> Replication.poll sha256 react after byteLimit

def callStep (c : PhysicalClient σ) (call : Call) : PhysicalClient σ :=
  finalState (call.perform sha256 json limits react) c

end
end HeliosNano.Replication
