import HeliosNano.Replication.WireClient

namespace HeliosNano.Replication
open Foundation Storage List

/-- A source as the server awaits it: an answer that meets the deadline or the shutdown is that error. -/
structure PhysicalSource (τ : Type) where
  factory : OpenRequest → EStateM WireError τ Unit
  sessionInfo : τ → SourceSessionInfo
  readChunk : Nat → Nat → Nat → EStateM WireError τ Bytes
  poll : Nat → Nat → EStateM WireError τ PhysicalPoll

/-- A server keeps no peer: what it sends goes into its output. -/
def silent : Reaction Unit := fun _ _ => ((),[])

structure Serving (τ : Type) where
  io : Link Unit
  world : τ

abbrev Serve (τ : Type) := EStateM WireError (Serving τ)

inductive Phase
  | auth
  | opening
  | serving (info : SourceSessionInfo) (knownBarrier : Nat)
  | closed
deriving DecidableEq, Repr

/-- `TransferToken::accepts` -/
def accepts (token supplied : Bytes) : Bool := decide (supplied.length = tokenBytes) && decide (token = supplied)

section
variable {τ α : Type} (sha256 : Bytes → Bytes) (json : ManifestJson) (limits : WireLimits) (token : Bytes)
  (source : PhysicalSource τ)

def onWire (x : Exchange Unit α) : Serve τ α := zoom Serving.io (fun l s => { s with io := l }) x

def onSource (x : EStateM WireError τ α) : Serve τ α := zoom Serving.world (fun t s => { s with world := t }) x

def serveAuth : Serve τ Phase := do
  let auth ← onWire (readFrame [.auth])
  if accepts token auth.payload then
    onWire (writeFrame silent .authOk [])
    return .opening
  else
    onWire (writeFrame silent .authRejected [])
    throw .authentication

def serveClose : Serve τ Phase := do
  onWire (writeFrame silent .closed [])
  onWire shutdownStream
  return .closed

def serveOpen : Serve τ Phase := do
  let frame ← onWire (readFrame [.openSession,.close])
  if frame.kind = .close then serveClose
  else
    let request ← fromExcept (OpenRequest.decode frame.payload)
    onSource (source.factory request)
    let info := source.sessionInfo (← onSource get)
    fromExcept (info.validate request limits)
    onWire (writeFrame silent (info.response json).1 (info.response json).2)
    return .serving info info.initialBarrier

def serveChunk (info : SourceSessionInfo) (payload : Bytes) : Serve τ Unit :=
  match info.manifest with
  | none => throw (.protocol "chunks require snapshot mode")
  | some manifest => do
    let snapshotId ← fromExcept (uuidAt payload 0)
    if snapshotId ≠ manifest.snapshotId then throw (.protocol "chunk snapshot/session mismatch")
    else
      let index ← fromExcept (u32At payload 16)
      let offset ← fromExcept (u64At payload 20)
      let length ← fromExcept (u32At payload 28)
      fromExcept (chunkBounds manifest index offset length limits)
      let bytes ← onSource (source.readChunk index offset length)
      if bytes.length ≠ length then throw (.protocol "export returned a short/oversized chunk")
      else onWire (writeFrame silent .chunk (chunkPayload sha256 manifest.snapshotId index offset bytes))

/-- The loop over the batches of the source's answer; the cursor they lead to. -/
def checkBatches (info : SourceSessionInfo) (through byteLimit : Nat) :
    Nat → Nat → List PhysicalBatch → Except WireError Nat
  | cursor, _, [] => .ok cursor
  | cursor, bytes, batch::batches =>
    if batch.history ≠ info.history ∨ batch.first ≠ cursor+1 ∨ through < batch.last ∨
        byteLimit < bytes+batch.raw.length then
      .error (.protocol "source returned noncontiguous/oversized physical interval")
    else checkBatches info through byteLimit batch.last (bytes+batch.raw.length) batches

def sendBatches : List PhysicalBatch → Serve τ Unit
  | [] => pure ()
  | batch::batches => do
    onWire (writeFrame silent .batch (batchPayload batch))
    sendBatches batches

def servePoll (info : SourceSessionInfo) (knownBarrier : Nat) (payload : Bytes) : Serve τ Nat := do
  let sessionId ← fromExcept (uuidAt payload 0)
  if sessionId ≠ info.sessionId then throw (.protocol "poll snapshot/session mismatch")
  else
    let after ← fromExcept (u64At payload 16)
    let byteLimit ← fromExcept (u32At payload 24)
    if after < info.initialAfter ∨ maxSourceSequence < after ∨ byteLimit = 0 ∨ maxBatchBytes < byteLimit then
      throw (.protocol "invalid physical continuation request")
    else
      let poll ← onSource (source.poll after byteLimit)
      if u32Max < poll.batches.length then throw (.protocol "too many physical batches")
      else
        fromExcept (poll.summary.validateSince after byteLimit knownBarrier)
        let cursor ← fromExcept (checkBatches info poll.through byteLimit after 0 poll.batches)
        if cursor ≠ poll.through then throw (.protocol "source returned incomplete physical interval")
        else
          onWire (writeFrame silent .pollStart poll.summary.encode)
          sendBatches poll.batches
          onWire (writeFrame silent .pollEnd poll.summary.encode)
          return poll.durableBarrier

def serveRequest (info : SourceSessionInfo) (knownBarrier : Nat) : Serve τ Phase := do
  let request ← onWire (readFrame [.chunkRequest,.pollRequest,.close])
  match request.kind with
  | .chunkRequest =>
    serveChunk sha256 limits source info request.payload
    return .serving info knownBarrier
  | .pollRequest =>
    let knownBarrier ← servePoll source info knownBarrier request.payload
    return .serving info knownBarrier
  | .close => serveClose
  | _ => throw (.protocol "unexpected request state")

def serveStep : Phase → Serve τ Phase
  | .auth => serveAuth token
  | .opening => serveOpen json limits source
  | .serving info knownBarrier => serveRequest sha256 limits source info knownBarrier
  | .closed => pure .closed

/-- Every step takes a header off the stream, so its length is fuel enough. -/
def serveLoop : Nat → Phase → Serve τ Unit
  | _, .closed => pure ()
  | 0, _ => throw .io
  | fuel+1, phase => do
    let next ← serveStep sha256 json limits token source phase
    serveLoop fuel next

def serveSession : Serve τ Unit := do
  fromExcept limits.validate
  serveLoop sha256 json limits token source ((← get).io.input.length + 1) .auth

/-- A session that waits for a frame, or has ended with an error. -/
structure ServerEnd (τ : Type) where
  phase : Except WireError Phase
  world : τ
  stops : List (Option Stop)
  unread : Bytes

/-- The bytes of a frame arrive, and the session goes on to where it awaits the next. -/
def ServerEnd.receive : Reaction (ServerEnd τ) := fun server bytes =>
  match server.phase with
  | .error _ => (server,[])
  | .ok phase =>
    match serveStep sha256 json limits token source phase ⟨⟨(),server.unread ++ bytes,[],server.stops⟩,server.world⟩ with
    | .ok next s => (⟨.ok next,s.world,s.io.stops,s.io.input⟩,s.io.output)
    | .error e s => (⟨.error e,s.world,s.io.stops,s.io.input⟩,s.io.output)

/-- More to come on the stream, and more sent before. -/
def Link.extend {σ : Type} (before rest : Bytes) (l : Link σ) : Link σ :=
  { l with input := l.input ++ rest, output := before ++ l.output }

def Serving.extend (before rest : Bytes) (s : Serving τ) : Serving τ := { s with io := s.io.extend before rest }

variable {sha256 json limits token source} {before rest : Bytes}

theorem natural_bounded {σ : Type} {interrupted : Nat → Link σ → Link σ} {body : Exchange σ α}
    (h : Natural (Link.extend before rest) body) : Natural (Link.extend before rest) (bounded interrupted body) := by
  rintro ⟨peer,input,output,stops⟩ a l' hr
  cases stops with
  | nil => exact h _ a l' hr
  | cons stop stops =>
    cases stop with
    | none => exact h _ a l' hr
    | some stop => cases hr

theorem natural_readExact {σ : Type} (n : Nat) : Natural (Link.extend before rest) (readExact n : Exchange σ Bytes) := by
  intro l a l' hr
  simp only [readExact,Link.extend,length_append] at hr ⊢
  by_cases hl : l.input.length < n
  · rw [if_pos hl] at hr
    cases hr
  rw [if_neg hl] at hr
  cases hr
  rw [if_neg (by omega),take_append_of_le_length (Nat.not_lt.mp hl),
    drop_append_of_le_length (Nat.not_lt.mp hl)]

theorem natural_onWire {x : Exchange Unit α} (h : Natural (Link.extend before rest) x) :
    Natural (Serving.extend before rest) (onWire x : Serve τ α) :=
  natural_zoom h (fun _ => rfl) (fun _ _ => rfl)

theorem natural_readFrame (allowed : List Kind) :
    Natural (Serving.extend before rest) (onWire (readFrame allowed) : Serve τ Frame) := by
  refine natural_onWire (natural_bounded ?_)
  refine (natural_readExact _).bind fun header => (natural_fromExcept _).bind fun found => ?_
  exact (natural_readExact _).bind fun payload => natural_pure _

theorem natural_writeFrame (kind : Kind) (payload : Bytes) :
    Natural (Serving.extend before rest) (onWire (writeFrame silent kind payload) : Serve τ Unit) := by
  refine natural_onWire ?_
  unfold writeFrame
  split
  · refine natural_bounded (natural_modify fun l => ?_)
    simp [Link.extend,Link.send,silent]
  · exact natural_throw _

theorem natural_onSource (x : EStateM WireError τ α) : Natural (Serving.extend before rest) (onSource x : Serve τ α) := by
  refine @natural_zoom _ _ _ _ id x _ _ _ (fun _ _ _ h => h) (fun _ => rfl) (fun _ _ => rfl)

theorem natural_serveClose : Natural (Serving.extend before rest) (serveClose : Serve τ Phase) := by
  refine (natural_writeFrame _ _).bind fun _ => (natural_onWire (natural_bounded (natural_pure _))).bind fun _ => ?_
  exact natural_pure _

theorem natural_sendBatches (batches : List PhysicalBatch) :
    Natural (Serving.extend before rest) (sendBatches batches : Serve τ Unit) := by
  induction batches with
  | nil => exact natural_pure _
  | cons batch batches ih => exact (natural_writeFrame _ _).bind fun _ => ih

theorem natural_serveStep (phase : Phase) :
    Natural (Serving.extend before rest) (serveStep sha256 json limits token source phase) := by
  cases phase with
  | auth =>
    refine (natural_readFrame _).bind fun auth => ?_
    split
    · exact (natural_writeFrame _ _).bind fun _ => natural_pure _
    · exact (natural_writeFrame _ _).bind fun _ => natural_throw _
  | opening =>
    refine (natural_readFrame _).bind fun frame => ?_
    split
    · exact natural_serveClose
    · refine (natural_fromExcept _).bind fun request => (natural_onSource _).bind fun _ => ?_
      refine (natural_onSource _).bind fun t => (natural_fromExcept _).bind fun _ => ?_
      exact (natural_writeFrame _ _).bind fun _ => natural_pure _
  | serving info known =>
    refine (natural_readFrame _).bind fun request => ?_
    split
    · refine Natural.bind ?_ fun _ => natural_pure _
      unfold serveChunk
      split
      · exact natural_throw _
      refine (natural_fromExcept _).bind fun snapshotId => ?_
      split
      · exact natural_throw _
      refine (natural_fromExcept _).bind fun index => (natural_fromExcept _).bind fun offset => ?_
      refine (natural_fromExcept _).bind fun length => (natural_fromExcept _).bind fun _ => ?_
      refine (natural_onSource _).bind fun bytes => ?_
      split
      · exact natural_throw _
      · exact natural_writeFrame _ _
    · refine Natural.bind ?_ fun _ => natural_pure _
      refine (natural_fromExcept _).bind fun sessionId => ?_
      split
      · exact natural_throw _
      refine (natural_fromExcept _).bind fun after => (natural_fromExcept _).bind fun byteLimit => ?_
      split
      · exact natural_throw _
      refine (natural_onSource _).bind fun poll => ?_
      split
      · exact natural_throw _
      refine (natural_fromExcept _).bind fun _ => (natural_fromExcept _).bind fun cursor => ?_
      split
      · exact natural_throw _
      · refine (natural_writeFrame _ _).bind fun _ => (natural_sendBatches _).bind fun _ => ?_
        exact (natural_writeFrame _ _).bind fun _ => natural_pure _
    · exact natural_serveClose
    · exact natural_throw _
  | closed => exact natural_pure _

/-- The loop of `serve_session` and the peer of a client take the same steps: bytes that the peer has answered
and read to their end are a turn of the loop, with the same answer. -/
theorem serveLoop_receive {server server' : ServerEnd τ} {phase phase' : Phase} {bytes answer : Bytes} (fuel : Nat)
    (before rest : Bytes) (hph : server.phase = .ok phase) (hopen : phase ≠ .closed)
    (hr : ServerEnd.receive sha256 json limits token source server bytes = (server',answer))
    (hph' : server'.phase = .ok phase') (hu : server'.unread = []) : serveLoop sha256 json limits token source (fuel+1) phase
        ⟨⟨(),server.unread ++ bytes ++ rest,before,server.stops⟩,server.world⟩ =
      serveLoop sha256 json limits token source fuel phase' ⟨⟨(),rest,before ++ answer,server'.stops⟩,server'.world⟩ := by
  unfold ServerEnd.receive at hr
  rw [hph] at hr
  dsimp only at hr
  split at hr
  next next s hs =>
    cases hr
    cases hph'
    have hextended := @natural_serveStep _ _ _ _ _ _ before rest phase _ _ _ hs
    simp only [Serving.extend,Link.extend,append_nil] at hextended
    have hl : serveLoop sha256 json limits token source (fuel+1) phase = (do
        let next ← serveStep sha256 json limits token source phase
        serveLoop sha256 json limits token source fuel next) := by
      cases phase with
      | closed => exact absurd rfl hopen
      | auth | opening | serving info known => rfl
    rw [hl]
    simp only [bind,EStateM.bind]
    rw [hextended]
    dsimp only at hu ⊢
    rw [hu,nil_append]
  · cases hr
    cases hph'

section
variable (sha256 json limits token source)

/-- What arrives, piece by piece, and what is sent in answer. -/
def receiveAll : ServerEnd τ → List Bytes → ServerEnd τ × Bytes
  | server, [] => (server,[])
  | server, bytes::pieces =>
    let turn := ServerEnd.receive sha256 json limits token source server bytes
    let others := receiveAll turn.1 pieces
    (others.1,turn.2 ++ others.2)

/-- The session is going on when a piece arrives, and reads it to the end. -/
def ReadsAll : ServerEnd τ → List Bytes → Prop
  | _, [] => True
  | server, bytes::pieces =>
    let turn := ServerEnd.receive sha256 json limits token source server bytes
    server.phase ≠ .ok .closed ∧ turn.1.phase.isOk = true ∧ turn.1.unread = [] ∧ ReadsAll turn.1 pieces

end

theorem serveLoop_pieces {server : ServerEnd τ} {pieces : List Bytes} {phase phase' : Phase}
    (h : ReadsAll sha256 json limits token source server pieces) (hph : server.phase = .ok phase) (hu : server.unread = [])
    (hph' : (receiveAll sha256 json limits token source server pieces).1.phase = .ok phase') (fuel : Nat) (before rest : Bytes) :
    let last := receiveAll sha256 json limits token source server pieces
    serveLoop sha256 json limits token source (fuel+pieces.length) phase
        ⟨⟨(),pieces.flatten ++ rest,before,server.stops⟩,server.world⟩ =
      serveLoop sha256 json limits token source fuel phase' ⟨⟨(),rest,before ++ last.2,last.1.stops⟩,last.1.world⟩ := by
  induction pieces generalizing server phase before with
  | nil =>
    obtain rfl : phase = phase' := Except.ok.inj (hph.symm.trans hph')
    simp only [receiveAll,flatten_nil,nil_append,append_nil,length_nil,Nat.add_zero]
  | cons bytes pieces ih =>
    obtain ⟨hlive,hok,hread,hrest⟩ := h
    obtain ⟨next,hnext⟩ : ∃ next, (ServerEnd.receive sha256 json limits token source server bytes).1.phase = .ok next := by
      cases hp : (ServerEnd.receive sha256 json limits token source server bytes).1.phase with
      | ok next => exact ⟨next,rfl⟩
      | error e =>
        rw [hp] at hok
        cases hok
    have hne : phase ≠ .closed := by
      rintro rfl
      exact hlive hph
    have hturn := serveLoop_receive (fuel+pieces.length) before (pieces.flatten ++ rest) hph hne (Prod.eta _).symm hnext hread
    rw [hu,nil_append,← append_assoc] at hturn
    have hothers := ih hrest hnext hread hph' (before ++ (ServerEnd.receive sha256 json limits token source server bytes).2)
    dsimp only at hothers
    rw [append_assoc before] at hothers
    rw [flatten_cons,length_cons,← Nat.add_assoc,hturn]
    exact hothers

/-- A client that authenticates and closes. -/
theorem serveLoop_closing : let limits : WireLimits := ⟨hour,hour,⟨1,1,1,1⟩⟩
    let source : PhysicalSource Unit := ⟨fun _ => throw .io,fun _ => .resume 2 1 0 1,fun _ _ _ => throw .io,fun _ _ => throw .io⟩
    let token := replicate tokenBytes 7
    let session := receiveAll (fun _ => []) ⟨fun _ => [],fun _ => .error ""⟩ limits token source ⟨.ok .auth,(),[],[]⟩
      [frameBytes .auth token,frameBytes .close []]
    session.2 = frameBytes .authOk [] ++ frameBytes .closed [] ∧
      serveLoop (fun _ => []) ⟨fun _ => [],fun _ => .error ""⟩ limits token source 2 .auth
          ⟨⟨(),frameBytes .auth token ++ frameBytes .close [],[],[]⟩,()⟩ =
        .ok () ⟨⟨(),[],session.2,session.1.stops⟩,()⟩ := by
  intro limits source token session
  have hreads : ReadsAll (fun _ => []) ⟨fun _ => [],fun _ => .error ""⟩ limits token source ⟨.ok .auth,(),[],[]⟩
      [frameBytes .auth token,frameBytes .close []] :=
    ⟨by decide +kernel,by decide +kernel,by decide +kernel,by decide +kernel,by decide +kernel,by decide +kernel,trivial⟩
  have hclosed : session.1.phase = .ok .closed := by decide +kernel
  refine ⟨by decide +kernel,?_⟩
  have hloop := serveLoop_pieces hreads rfl rfl hclosed 0 [] []
  rwa [append_nil] at hloop

end
end HeliosNano.Replication
