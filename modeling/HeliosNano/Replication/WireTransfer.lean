import HeliosNano.Replication.PrimarySource
import HeliosNano.Replication.WireSessions

namespace HeliosNano.Replication
open Foundation Storage List PhysicalClient

section
variable {τ : Type} {sha256 : Bytes → Bytes} {json : ManifestJson} {limits : WireLimits} {token : Bytes}
  {source : PhysicalSource τ} {history : Uuid} {barrier : τ → Nat}

/-- A connection to a server that has not read anything. -/
def freshLink (world : τ) (serverStops stops : List (Option Stop)) : Link (ServerEnd τ) :=
  ⟨⟨.ok .auth,world,serverStops,[]⟩,[],[],stops⟩

theorem reply_auth (htk : token.length = tokenBytes) {world : τ} {serverStops : List (Option Stop)} {bytes : Bytes}
    (hb : bytes <+: frameBytes .auth token) : Reply (bytes = frameBytes .auth token ∧ serverStops = [])
      (fun response phase _ => response = frameBytes .authOk [] ∧ phase = .opening)
      (ServerEnd.receive sha256 json limits token source ⟨.ok .auth,world,serverStops,[]⟩ bytes) := by
  refine reply_of_step rfl ?_
  refine (serveAuth_answers (s := ⟨⟨(),bytes,[],serverStops⟩,world⟩) htk hb rfl).mono ?_ ?_
  · rintro phase s ⟨hrest,hs,rfl,-,ho⟩
    exact ⟨hrest,⟨ho,rfl⟩,fun h => hs h.2⟩
  · rintro e s ⟨hr,hn,ho⟩
    exact ⟨hr,fun h => hn h.2 h.1,.inr ⟨_,.opening,world,⟨rfl,rfl⟩,ho⟩⟩

theorem authenticate_agrees (hlm : limits.validate = .ok ()) (htk : token.length = tokenBytes) (world : τ)
    (serverStops stops : List (Option Stop)) {sink : List (Option WireError)} (hf : ∀ e, some e ∈ sink → e.isRefusal = false) :
    Post (authenticate limits (ServerEnd.receive sha256 json limits token source) token) (freshLink world serverStops stops)
      (fun _ io => Linked source json limits history barrier (new io sink) ∧
        (stops = [] ∧ serverStops = [] ∧ sink = [] → Quiet (new io sink)))
      (fun e io => e.isRefusal = false ∧ ∀ e', io.peer.phase = .error e' → e'.isRefusal = false) := by
  have hsz : Kind.auth.validSize token.length = true := by simp [Kind.validSize,htk]
  simp only [authenticate,post_bind]
  refine post_check_ok hlm ?_
  refine (writeFrame_post hsz).mono ?_ ?_
  · rintro _ l rfl
    have hr := @reply_auth τ sha256 json limits token source htk world serverStops _ (prefix_refl _)
    simp only [true_and] at hr
    generalize ha : ServerEnd.receive sha256 json limits token source ⟨.ok .auth,world,serverStops,[]⟩
      (frameBytes .auth token) = answer at hr
    have hl : Link.send (ServerEnd.receive sha256 json limits token source)
        { freshLink world serverStops stops with stops := stops.tail } (frameBytes .auth token) =
        ⟨answer.1,answer.2,frameBytes .auth token,stops.tail⟩ := by
      rw [← ha]
      rfl
    have hpr : answer.2 <+: frameBytes .authOk [] ++ [] := by
      rw [append_nil]
      obtain ⟨⟨_,_,_,⟨ho,_⟩,_⟩ | ⟨_,_,_,_,ho | ⟨_,_,_,⟨rfl,_⟩,ho⟩⟩⟩ := hr
      · rw [ho]
      · rw [ho]
        exact nil_prefix
      · exact ho
    rw [show (freshLink world serverStops stops).stops = stops from rfl,hl]
    refine (readFrame_honest (by simp) rfl hpr).mono ?_ ?_
    · rintro frame l ⟨rfl,hst,hrest,hs,hu⟩
      have hp : l.peer = answer.1 := hu.peer
      rw [if_neg (by simp)]
      refine post_pure.mpr ⟨⟨hf,fun e he => hr.peer (by rw [← hp]; exact he),?_⟩,?_⟩
      · intro _
        refine ⟨prefix_nil.mp hrest,fun phase hph => ?_⟩
        change l.peer.phase = .ok phase at hph
        change l.peer.unread = [] ∧ Matched source json limits history barrier none 0 l.peer.world phase
        rw [hp] at hph ⊢
        obtain ⟨⟨phase',hph',hun,⟨-,rfl⟩,-⟩ | ⟨e,hph',-⟩⟩ := hr
        · rw [hph] at hph'
          cases hph'
          exact ⟨hun,rfl⟩
        · rw [hph] at hph'
          cases hph'
      · rintro ⟨rfl,rfl,rfl⟩
        obtain ⟨⟨phase',hph',-,-,hqt⟩ | ⟨e,-,-,hn,-⟩⟩ := hr
        · refine ⟨⟨hs,rfl⟩,?_,phase',?_⟩
          · rw [show (new l []).io.peer = answer.1 from hp]
            exact hqt rfl
          · rw [show (new l []).io.peer = answer.1 from hp]
            exact hph'
        · exact absurd rfl hn
    · rintro e l ⟨hrf,-,hu⟩
      have hp : l.peer = answer.1 := hu.peer
      exact ⟨hrf,fun e' he' => hr.peer (by rw [← hp]; exact he')⟩
  · rintro e l ⟨hrf,hs,n,rfl⟩
    exact ⟨hrf,fun e' he' => (reply_auth htk ( take_prefix n _)).peer he'⟩

/-- Over a run of calls that suit the source the two ends stay linked; and when nothing disturbs them, they stay
quiet until the client refuses a call itself. -/
theorem linked_run (hsh : ∀ bytes, (sha256 bytes).length = 32) (hsr : source.Correct sha256 json limits history barrier)
    {c : PhysicalClient (ServerEnd τ)} (hl : Linked source json limits history barrier c) {calls : List Call}
    (hpr : ∀ call ∈ calls, call.Proper history) : Linked source json limits history barrier
        (run (callStep sha256 json limits (ServerEnd.receive sha256 json limits token source)) c calls) ∧
      (c.poisoned = true ∨ Quiet c → source.Answering →
        (run (callStep sha256 json limits (ServerEnd.receive sha256 json limits token source)) c calls).poisoned = true ∨
        Quiet (run (callStep sha256 json limits (ServerEnd.receive sha256 json limits token source)) c calls)) := by
  induction calls generalizing c with
  | nil => exact ⟨hl,fun h _ => h⟩
  | cons call calls ih =>
    have hag := post_iff_outcome.mp
      ((@perform_agrees _ _ _ _ token _ _ _ hsh hsr _ hl _ (hpr call (mem_cons_self ..))).and
        (@perform_post _ sha256 json limits _ call c))
    have hs : Linked source json limits history barrier
          (callStep sha256 json limits (ServerEnd.receive sha256 json limits token source) c call) ∧
        (c.poisoned = true ∨ Quiet c → source.Answering →
          (callStep sha256 json limits (ServerEnd.receive sha256 json limits token source) c call).poisoned = true ∨
          Quiet (callStep sha256 json limits (ServerEnd.receive sha256 json limits token source) c call)) := by
      cases ho : outcome (call.perform sha256 json limits (ServerEnd.receive sha256 json limits token source)) c with
      | ok answer =>
        obtain ⟨⟨hl',hqt⟩,-⟩ := hag.1 answer ho
        refine ⟨hl',fun h ha => ?_⟩
        obtain hp | h := h
        · rw [outcome,perform_poisoned hp] at ho
          cases ho
        · exact .inr (hqt h ha)
      | error e =>
        obtain ⟨⟨hl',-⟩,-,hp⟩ := hag.2 e ho
        exact ⟨hl',fun _ _ => .inl hp⟩
    obtain ⟨hr,hq⟩ := ih hs.1 fun other hoh => hpr other (mem_cons_of_mem _ hoh)
    exact ⟨hr,fun h ha => hq (hs.2 h ha) ha⟩

end

/-- The physical transfer. Whatever a peer sends, an answered poll has given the sinks an interval of the session's
history, an answered chunk is what its frame carries, the session and its barrier go forward, and after a failed
call nothing is done any more. And a server with a correct source and the same limits refuses nothing a client
sends, nor does the client refuse an answer: a call that fails by a refusal has sent nothing, and when neither the
surroundings nor the source fail, so has every call that fails. -/
theorem physical_transfer (sha256 : Bytes → Bytes) (json : ManifestJson) (limits : WireLimits) :
    (∀ (σ : Type) (react : Reaction σ) (io : Link σ) (sink : List (Option WireError)) (calls more : List Call) (next : Call),
      let step := callStep sha256 json limits react
      let c := run step (PhysicalClient.new io sink) calls
      (∀ answer, outcome (next.perform sha256 json limits react) c = .ok answer → Sound sha256 c (step c next) next answer) ∧
      c.Forward (run step c more) ∧
      ∀ e, outcome (next.perform sha256 json limits react) c = .error e →
        run step (step c next) more = step c next ∧ close react (step c next) = .error .poisoned (step c next)) ∧
    (∀ (τ : Type) (source : PhysicalSource τ) (history : Uuid) (barrier : τ → Nat) (token : Bytes) (world : τ)
      (serverStops stops : List (Option Stop)) (sink : List (Option WireError)),
      (∀ bytes, (sha256 bytes).length = 32) → limits.validate = .ok () → token.length = tokenBytes →
      source.Correct sha256 json limits history barrier → (∀ e, some e ∈ sink → e.isRefusal = false) →
      let react := ServerEnd.receive sha256 json limits token source
      let step := callStep sha256 json limits react
      Post (authenticate limits react token) (freshLink world serverStops stops)
        (fun _ io => ∀ calls next, (∀ call ∈ calls ++ [next], call.Proper history) →
          let c := run step (PhysicalClient.new io sink) calls
          (∀ e, (step c next).io.peer.phase = .error e → e.isRefusal = false) ∧
          ∀ e, outcome (next.perform sha256 json limits react) c = .error e →
            e.isRefusal = true ∨ stops = [] ∧ serverStops = [] ∧ sink = [] ∧ source.Answering →
            (step c next).io.output = c.io.output)
        (fun e io => e.isRefusal = false ∧ ∀ e', io.peer.phase = .error e' → e'.isRefusal = false)) := by
  constructor
  · intro σ react io sink calls more next
    dsimp only
    generalize run (callStep sha256 json limits react) (PhysicalClient.new io sink) calls = c
    obtain ⟨hok,herr⟩ := post_iff_outcome.mp (@perform_post _ sha256 json limits react next c)
    refine ⟨fun answer houtcome => (hok answer houtcome).1,forward_run more c,fun e houtcome => ?_⟩
    have hpoisoned := (herr e houtcome).2
    exact ⟨run_poisoned hpoisoned more,close_poisoned hpoisoned⟩
  · intro τ source history barrier token world serverStops stops sink hsha hlimits htoken hsource hfair
    dsimp only
    refine (@authenticate_agrees _ _ _ _ _ _ history barrier hlimits htoken world serverStops stops _ hfair).mono
      ?_ (fun e io h => h)
    rintro ⟨⟩ io ⟨hstart,hquietStart⟩ calls next hproper
    have hcalls : ∀ call ∈ calls, call.Proper history := fun call h => hproper call (mem_append_left _ h)
    obtain ⟨hlinked,hquiet⟩ := @linked_run _ _ _ _ token _ _ _ hsha hsource _ hstart _ hcalls
    generalize run (callStep sha256 json limits (ServerEnd.receive sha256 json limits token source))
      (PhysicalClient.new io sink) calls = c at hlinked hquiet
    obtain ⟨hok,herr⟩ := post_iff_outcome.mp
      (@perform_agrees _ _ _ _ token _ _ _ hsha hsource _ hlinked _ (hproper next (by simp)))
    refine ⟨fun e he => ?_,fun e houtcome hwhy => ?_⟩
    · cases houtcome : outcome (next.perform sha256 json limits (ServerEnd.receive sha256 json limits token source)) c with
      | ok answer => exact (hok answer houtcome).1.peer e he
      | error e' => exact (herr e' houtcome).1.peer e he
    · obtain hsame | ⟨hrefusal,hdisturbed⟩ := (herr e houtcome).2
      · exact hsame
      obtain hrefused | ⟨hstops,hserver,hsink,hanswering⟩ := hwhy
      · rw [hrefusal] at hrefused
        cases hrefused
      obtain hpoisoned | hc := hquiet (.inr (hquietStart ⟨hstops,hserver,hsink⟩)) hanswering
      · rw [callStep,finalState,perform_poisoned hpoisoned]
      · exact absurd ⟨hc,hanswering⟩ hdisturbed

/-- The hash of the one batch; what is not hashed has some other digest. -/
def batchSha256 (raw : Bytes) : Bytes := if raw = rawBatch 118 then firstDigest else List.replicate 32 0

theorem length_batchSha256 (bytes : Bytes) : (batchSha256 bytes).length = 32 := by
  unfold batchSha256
  split
  · rfl
  · exact length_replicate

def sampleToken : Bytes := List.replicate 32 7

def defaultLimits : WireLimits :=
  ⟨30000000000,120000000000,⟨maxFiles,64*1024*1024*1024,32*1024*1024*1024,maxChunkBytes⟩⟩

def primarySource (db : Primary) (history : Uuid) (request : OpenRequest) (info : SourceSessionInfo) (contents : List Bytes) :
    PhysicalSource Unit where
  factory found :=
    if found = request then pure () else throw (.source "resume history differs from live primary")
  sessionInfo _ := info
  readChunk index offset length :=
    match contents[index]? with
    | none => throw (.source "unknown file index")
    | some bytes => pure ((bytes.drop offset).take length)
  poll after byteLimit :=
    fromExcept ((pollSource batchSha256 db history after byteLimit).mapError fun error => .source (error.display ""))

theorem primarySource_correct {json : ManifestJson} {limits : WireLimits} {db : Primary} {history : Uuid} {request : OpenRequest}
    {info : SourceSessionInfo} {contents : List Bytes} (hft : Uuid.Fits history)
    (ho : info.validate request limits = .ok () ∧ info.history = history ∧ Uuid.Fits info.sessionId ∧
      info.initialBarrier ≤ db.latestSequenceNumber ∧ ∀ m, info = .snapshot m →
        1 ≤ (json.toVec m).length ∧ (json.toVec m).length ≤ maxManifestBytes ∧ json.fromSlice (json.toVec m) = .ok m)
    (hsz : ∀ m, info = .snapshot m → m.files.map CheckpointFile.size = contents.map List.length) :
    (primarySource db history request info contents).Correct batchSha256 json limits history
      (fun _ => db.latestSequenceNumber) where
  fits := hft
  factory found t := by
    show Post (if found = request then pure () else throw _) t _ _
    split
    next hf =>
      rw [hf]
      exact post_pure.mpr ho
    · exact post_throw.mpr rfl
  readChunk index offset length t := by
    show Post (match contents[index]? with | none => throw _ | some bytes => pure ((bytes.drop offset).take length)) t _ _
    cases hfl : contents[index]? with
    | none => exact post_throw.mpr rfl
    | some bytes =>
      refine post_pure.mpr ⟨rfl,Nat.le_refl _,fun m hm hb => ?_⟩
      have hs : (m.files.map CheckpointFile.size)[index]? = some bytes.length := by
        rw [hsz m hm,getElem?_map,hfl]
        rfl
      rw [getElem?_map] at hs
      obtain ⟨file,hf,hfs⟩ := Option.map_eq_some_iff.mp hs
      rw [chunkBounds,hf] at hb
      dsimp only at hb
      split at hb
      · cases hb
      next hi =>
        push Not at hi
        rw [length_take,length_drop]
        omega
  poll after byteLimit t _ := by
    refine post_fromExcept.mpr ⟨fun poll hp => ?_,fun e he => ?_⟩
    · obtain ⟨hg,hd⟩ := pollSource_good (mapError_eq_ok.mp hp)
      exact ⟨rfl,Nat.le_of_eq hd,hg⟩
    · cases hsr : pollSource batchSha256 db history after byteLimit with
      | ok poll =>
        rw [hsr] at he
        cases he
      | error error =>
        rw [hsr] at he
        cases he
        rfl

def onePrimary : Primary := ⟨1,fun after => if after = 0 then [(1,rawBatch 118)] else [],false⟩

/-- No manifest is ever sent in a resumed session. -/
def noJson : ManifestJson := ⟨fun _ => [],fun _ => .error "EOF while parsing a value at line 1 column 0"⟩

def resumedSource : PhysicalSource Unit := primarySource onePrimary 1 (.resume 1 0) (.resume 2 1 0 1) []

theorem resumedSource_correct : resumedSource.Correct batchSha256 noJson defaultLimits 1 (fun _ => 1) :=
  primarySource_correct (by decide) ⟨by decide,rfl,by decide,Nat.le_refl _,nofun⟩ nofun

def resumedServer : Reaction (ServerEnd Unit) :=
  ServerEnd.receive batchSha256 noJson defaultLimits sampleToken resumedSource

def resumedLink : Link (ServerEnd Unit) :=
  finalState (authenticate defaultLimits resumedServer sampleToken) (freshLink () [] [])

def resumedClient : PhysicalClient (ServerEnd Unit) :=
  run (callStep batchSha256 noJson defaultLimits resumedServer) (new resumedLink []) [.resume 1 0]

/-- The client polls: the batch of the primary arrives, and the server goes on. -/
theorem physical_transfer_resumed :
    outcome ((Call.poll 0 1024).perform batchSha256 noJson defaultLimits resumedServer) resumedClient = .ok (.summary ⟨1,1,1⟩) ∧
    Sound batchSha256 resumedClient (callStep batchSha256 noJson defaultLimits resumedServer resumedClient (.poll 0 1024))
      (.poll 0 1024) (.summary ⟨1,1,1⟩) ∧
    ∀ e, (callStep batchSha256 noJson defaultLimits resumedServer resumedClient (.poll 0 1024)).io.peer.phase = .error e →
      e.isRefusal = false := by
  obtain ⟨hany,hserver⟩ := physical_transfer batchSha256 noJson defaultLimits
  have houtcome : outcome ((Call.poll 0 1024).perform batchSha256 noJson defaultLimits resumedServer) resumedClient =
      .ok (.summary ⟨1,1,1⟩) := by
    decide +kernel
  have hauth : outcome (authenticate defaultLimits resumedServer sampleToken) (freshLink () [] []) = .ok () := by
    decide +kernel
  have hproper : ∀ call ∈ [Call.resume 1 0] ++ [.poll 0 1024], call.Proper 1 := by
    have hone : Uuid.Fits 1 := by decide
    simp [Call.Proper,hone]
  have hagree := (post_iff_outcome.mp (hserver Unit resumedSource 1 (fun _ => 1) sampleToken () [] [] [] length_batchSha256
    (by decide) rfl resumedSource_correct (by simp))).1 () hauth [.resume 1 0] (.poll 0 1024) hproper
  refine ⟨houtcome,(hany (ServerEnd Unit) resumedServer resumedLink [] [.resume 1 0] [] (.poll 0 1024)).1 _ houtcome,?_⟩
  unfold resumedClient resumedLink resumedServer
  exact hagree.1

/-! A session over a checkpoint, with two kinds of limits. -/

def sampleContents : List Bytes := [ascii "MANIFEST-000001\n".toList,ascii "primary1".toList,ascii "log".toList]

def sampleManifest : CheckpointManifest where
  format := 1
  snapshotId := 1
  history := 2
  checkpointSequence := 10
  storageIdentity := ascii "primary1".toList
  files := [
    ⟨current,16,[15,27,173,112,199,189,30,10,105,86,40,83,236,82,147,85,70,47,205,4,35,38,58,61,57,214,
    208,215,11,120,4,67]⟩,
    ⟨identity,8,[46,217,112,1,170,144,246,25,38,90,232,215,80,119,3,204,214,2,185,26,175,149,212,63,113,83,
    46,78,71,197,129,35]⟩,
    ⟨ascii "MANIFEST-000001".toList,3,[131,111,241,132,231,180,27,30,19,203,95,216,159,161,222,152,219,186,185,158,157,41,24,145,63,244,
    59,134,165,199,194,19]⟩]
  totalBytes := 27

def manifestText : Bytes := ascii <| String.toList <|
  "\x7b\"format\":1,\"snapshot_id\":\"00000000-0000-0000-0000-000000000001\",\"history\":\"00000000-0000-0000-0000-000000000002\"," ++
    "\"checkpoint_sequence\":10,\"storage_identity\":\"primary1\",\"files\":[\x7b\"name\":\"CURRENT\",\"size\":16,\"sha256\":[15," ++
    "27,173,112,199,189,30,10,105,86,40,83,236,82,147,85,70,47,205,4,35,38,58,61,57,214,208,215,11,120,4,67]\x7d,\x7b\"name\":\"IDENTITY\"," ++
    "\"size\":8,\"sha256\":[46,217,112,1,170,144,246,25,38,90,232,215,80,119,3,204,214,2,185,26,175,149,212,63,113," ++
    "83,46,78,71,197,129,35]\x7d,\x7b\"name\":\"MANIFEST-000001\",\"size\":3,\"sha256\":[131,111,241,132,231,180,27," ++
    "30,19,203,95,216,159,161,222,152,219,186,185,158,157,41,24,145,63,244,59,134,165,199,194,19]\x7d],\"total_bytes\":27\x7d"

def manifestJson : ManifestJson where
  toVec _ := manifestText
  fromSlice bytes := if bytes = manifestText then .ok sampleManifest else .error "expected value at line 1 column 1"

def snapshotSource : PhysicalSource Unit := primarySource ⟨10,fun _ => [],false⟩ 2 .snapshot (.snapshot sampleManifest) sampleContents

def byteLimits : WireLimits := { defaultLimits with transfer := { defaultLimits.transfer with maxChunkBytes := 1 } }

theorem snapshotSource_correct {limits : WireLimits} (h : sampleManifest.validate limits.transfer = .ok ()) :
    snapshotSource.Correct batchSha256 manifestJson limits 2 (fun _ => 10) := by
  refine primarySource_correct (by decide) ⟨?_,rfl,by decide,Nat.le_refl _,?_⟩ ?_
  · exact congrArg (Except.mapError WireError.protocol) h
  · rintro _ ⟨⟩
    unfold manifestJson manifestText
    -- the literals are opened as lists, which are cheap to compute with
    simp only [String.toList_append]
    repeat rw [String.toList_ofList]
    decide +kernel
  · rintro _ ⟨⟩
    decide +kernel

def byteServer : Reaction (ServerEnd Unit) := ServerEnd.receive batchSha256 manifestJson byteLimits sampleToken snapshotSource

def byteLink : Link (ServerEnd Unit) := finalState (authenticate defaultLimits byteServer sampleToken) (freshLink () [] [])

def byteClient : PhysicalClient (ServerEnd Unit) :=
  callStep batchSha256 manifestJson defaultLimits byteServer (new byteLink []) (.fetchManifest none)

/-- A source that is correct under the limits of both ends. The server refuses the chunk of two bytes that the
client's limits allow; and a client that expects another history refuses the manifest. -/
theorem physical_transfer_refused : snapshotSource.Correct batchSha256 manifestJson byteLimits 2 (fun _ => 10) ∧
    snapshotSource.Correct batchSha256 manifestJson defaultLimits 2 (fun _ => 10) ∧
    byteLimits.validate = .ok () ∧ defaultLimits.validate = .ok () ∧
    outcome (authenticate defaultLimits byteServer sampleToken) (freshLink () [] []) = .ok () ∧
    outcome ((Call.fetchManifest none).perform batchSha256 manifestJson defaultLimits byteServer)
      (PhysicalClient.new byteLink []) = .ok (.manifest sampleManifest) ∧
    outcome ((Call.readChunk 0 0 2).perform batchSha256 manifestJson defaultLimits byteServer) byteClient = .error .io ∧
    (callStep batchSha256 manifestJson defaultLimits byteServer byteClient (.readChunk 0 0 2)).io.peer.phase =
      .error (.protocol "chunk request outside immutable manifest") ∧
    outcome ((Call.fetchManifest (some 3)).perform batchSha256 manifestJson defaultLimits byteServer)
      (PhysicalClient.new byteLink []) = .error (.protocol "manifest history mismatch") := by
  have hbyte : sampleManifest.validate byteLimits.transfer = .ok () := by decide +kernel
  have hdefault : sampleManifest.validate defaultLimits.transfer = .ok () := by decide +kernel
  refine ⟨snapshotSource_correct hbyte,snapshotSource_correct hdefault,by decide +kernel,by decide +kernel,?_⟩
  unfold byteClient byteLink byteServer manifestJson manifestText
  simp only [String.toList_append]
  repeat rw [String.toList_ofList]
  decide +kernel

end HeliosNano.Replication
