import HeliosNano.Replication.WireReplies

namespace HeliosNano.Replication
open Foundation Storage List

section
variable {τ : Type} {sha256 : Bytes → Bytes} {json : ManifestJson} {limits : WireLimits} {token : Bytes}
  {source : PhysicalSource τ} {history : Uuid} {barrier : τ → Nat}

/-- What the server sends, and where it stands then: a whole answer with the session going on, or a part of
one with the session ended, by the source or by what disturbs the server. -/
structure Reply (undisturbed : Prop) (good : Bytes → Phase → τ → Prop) (answer : ServerEnd τ × Bytes) : Prop where
  either : (∃ phase, answer.1.phase = .ok phase ∧ answer.1.unread = [] ∧ good answer.2 phase answer.1.world ∧
      (undisturbed → answer.1.stops = [])) ∨
    (∃ e, answer.1.phase = .error e ∧ e.isRefusal = false ∧ ¬ undisturbed ∧
      (answer.2 = [] ∨ ∃ response phase t, good response phase t ∧ answer.2 <+: response))

variable {bytes : Bytes} {undisturbed : Prop} {good : Bytes → Phase → τ → Prop} {server : ServerEnd τ} {e : WireError}
  {request : OpenRequest} {t : τ} {info : SourceSessionInfo} {c : PhysicalClient (ServerEnd τ)}

theorem reply_of_step {phase : Phase} (hph : server.phase = .ok phase)
    (hst : Post (serveStep sha256 json limits token source phase) ⟨⟨(),server.unread ++ bytes,[],server.stops⟩,server.world⟩
      (fun next s => s.io.input = [] ∧ good s.io.output next s.world ∧ (undisturbed → s.io.stops = []))
      (fun e s => e.isRefusal = false ∧ ¬ undisturbed ∧
        (s.io.output = [] ∨ ∃ response next t, good response next t ∧ s.io.output <+: response))) :
    Reply undisturbed good (ServerEnd.receive sha256 json limits token source server bytes) := by
  obtain ⟨hok,he⟩ := post_iff_outcome.mp hst
  unfold ServerEnd.receive
  rw [hph]
  dsimp only
  cases hr : serveStep sha256 json limits token source phase
      ⟨⟨(),server.unread ++ bytes,[],server.stops⟩,server.world⟩ with
  | ok next s =>
    obtain ⟨hi,hg,hs⟩ := hok next (by rw [outcome,hr])
    rw [finalState,hr] at hi hg hs
    exact ⟨.inl ⟨next,rfl,hi,hg,hs⟩⟩
  | error e s =>
    obtain ⟨hrf,hn,ho⟩ := he e (by rw [outcome,hr])
    rw [finalState,hr] at ho
    exact ⟨.inr ⟨e,rfl,hrf,hn,ho⟩⟩

/-- Where the server stands when the client has nothing unread. -/
def Matched (source : PhysicalSource τ) (json : ManifestJson) (limits : WireLimits) (history : Uuid) (barrier : τ → Nat)
    (info : Option SourceSessionInfo) (knownBarrier : Nat) (world : τ) : Phase → Prop
  | .opening => info = none
  | .serving session known => info = some session ∧ knownBarrier = known ∧ session.initialBarrier ≤ known ∧
      known ≤ barrier world ∧ ∃ request, Opened source json limits history barrier request session world
  | _ => False

/-- What holds between the two ends in every state between calls. -/
structure Linked (source : PhysicalSource τ) (json : ManifestJson) (limits : WireLimits) (history : Uuid) (barrier : τ → Nat)
    (c : PhysicalClient (ServerEnd τ)) : Prop where
  sink : c.SinkFair
  peer : ∀ e, c.io.peer.phase = .error e → e.isRefusal = false
  live : c.poisoned = false → c.io.input = [] ∧ ∀ phase, c.io.peer.phase = .ok phase →
    c.io.peer.unread = [] ∧ Matched source json limits history barrier c.info c.knownBarrier c.io.peer.world phase

/-- Nothing is going to disturb the two ends. -/
structure Quiet (c : PhysicalClient (ServerEnd τ)) : Prop where
  client : c.Calm
  server : c.io.peer.stops = []
  alive : ∃ phase, c.io.peer.phase = .ok phase

def Answered (source : PhysicalSource τ) (json : ManifestJson) (limits : WireLimits) (history : Uuid) (barrier : τ → Nat)
    (c c' : PhysicalClient (ServerEnd τ)) : Prop :=
  Linked source json limits history barrier c' ∧ (Quiet c → source.Answering → Quiet c')

/-- A call that has failed: if by a refusal, of its own arguments, before anything was sent; and when nothing
disturbs the two ends, in no other way. -/
def Failed (source : PhysicalSource τ) (json : ManifestJson) (limits : WireLimits) (history : Uuid) (barrier : τ → Nat)
    (c : PhysicalClient (ServerEnd τ)) (e : WireError) (c' : PhysicalClient (ServerEnd τ)) : Prop :=
  Linked source json limits history barrier c' ∧
    (c'.io.output = c.io.output ∨ e.isRefusal = false ∧ ¬ (Quiet c ∧ source.Answering))

theorem Reply.peer {answer : ServerEnd τ × Bytes}
    (h : Reply undisturbed good answer) (he : answer.1.phase = .error e) : e.isRefusal = false := by
  obtain ⟨⟨phase,hph,-⟩ | ⟨e',hph,hn,-⟩⟩ := h
  · rw [he] at hph
    cases hph
  · rw [he] at hph
    cases hph
    exact hn

section
variable {c d : PhysicalClient (ServerEnd τ)} {α : Type} {receive : Session (ServerEnd τ) α}
  {good : Bytes → Phase → τ → Prop} {answer : ServerEnd τ × Bytes}

theorem reply_read (hf : c.SinkFair) (hr : Reply (Quiet c ∧ source.Answering) good answer)
    (hpr : d.io.peer = answer.1) (hi : d.io.input = answer.2) (hsn : d.sink = c.sink) (hst : d.io.stops = c.io.stops.tail)
    (hem : d.io.input = [] → Post receive d (fun _ _ => False) (fun e d' => e.isRefusal = false ∧ d.Reads d'))
    (hrd : ∀ response phase t, good response phase t → d.SinkFair → d.io.input <+: response → Post receive d
        (fun _ d' => d.Accepted response d' ∧ Matched source json limits history barrier d'.info d'.knownBarrier t phase)
        (fun e d' => d.Unrefused response e d')) : Post receive d
      (fun _ d' => Answered source json limits history barrier c { d' with poisoned := false })
      (fun e d' => d'.poisoned = true → Failed source json limits history barrier c e d') := by
  have hd : d.SinkFair := by
    unfold PhysicalClient.SinkFair
    rw [hsn]
    exact hf
  have hcl : Quiet c → d.Calm := fun h => ⟨by simp [hst,h.client.stops],hsn.trans h.client.sink⟩
  have hl : ∀ d', d.Reads d' → d'.poisoned = true → Linked source json limits history barrier d' := by
    intro d' hd' hp
    refine ⟨hd'.fair hd,?_,?_⟩
    · intro e he
      rw [hd'.peer,hpr] at he
      exact hr.peer he
    · intro hlv
      rw [hp] at hlv
      cases hlv
  obtain ⟨⟨phase,hph,hun,hg,hqt⟩ | ⟨e,hph,hrf,hn,ho⟩⟩ := hr
  · refine (hrd _ _ _ hg hd (by rw [hi])).mono ?_ ?_
    · rintro _ d' ⟨ha,hm⟩
      have hp' : d'.io.peer = answer.1 := ha.reads.peer.trans hpr
      refine ⟨⟨ha.reads.fair hd,?_,?_⟩,?_⟩
      · intro e he
        rw [hp',hph] at he
        cases he
      · intro _
        refine ⟨ha.input,fun phase' hph' => ?_⟩
        rw [hp',hph] at hph'
        cases hph'
        refine ⟨by rw [hp',hun],?_⟩
        rw [hp']
        exact hm
      · intro hc hs
        have hdn := ha.calm (hcl hc)
        exact ⟨⟨hdn.stops,hdn.sink⟩,by rw [hp']; exact hqt ⟨hc,hs⟩,phase,by rw [hp',hph]⟩
    · intro e d' hu hp
      refine ⟨hl d' hu.reads hp,.inr ⟨hu.refusal,fun h => ?_⟩⟩
      exact hu.calm (hcl h.1) hi
  · obtain hnt | ⟨response,phase,t,hg,hpt⟩ := ho
    · refine (hem (hi.trans hnt)).mono (fun _ _ h => h.elim) ?_
      rintro e' d' ⟨hr',hd'⟩ hp
      exact ⟨hl d' hd' hp,.inr ⟨hr',hn⟩⟩
    · refine (hrd _ _ _ hg hd (by rwa [hi])).mono ?_ ?_
      · rintro _ d' ⟨ha,-⟩
        have hp' : d'.io.peer = answer.1 := ha.reads.peer.trans hpr
        refine ⟨⟨ha.reads.fair hd,?_,?_⟩,fun hc hs => absurd ⟨hc,hs⟩ hn⟩
        · intro e' he'
          rw [hp',hph] at he'
          cases he'
          exact hrf
        · intro _
          refine ⟨ha.input,fun phase' hph' => ?_⟩
          rw [hp',hph] at hph'
          cases hph'
      · intro e' d' hu hp
        exact ⟨hl d' hu.reads hp,.inr ⟨hu.refusal,hn⟩⟩

end

variable {c : PhysicalClient (ServerEnd τ)}

theorem exchange_post (hl : Linked source json limits history barrier c)
    (hlv : c.poisoned = false) {α : Type} {kind : Kind} {payload : Bytes} {receive : Session (ServerEnd τ) α}
    {good : Bytes → Phase → τ → Prop} (hs : kind.validSize payload.length = true)
    (hr : ∀ bytes, bytes <+: frameBytes kind payload →
      Reply (bytes = frameBytes kind payload ∧ Quiet c ∧ source.Answering) good
        (ServerEnd.receive sha256 json limits token source c.io.peer bytes))
    (he : ∀ d : PhysicalClient (ServerEnd τ), d.io.input = [] →
      Post receive d (fun _ _ => False) (fun e d' => e.isRefusal = false ∧ d.Reads d'))
    (hrd : ∀ (d : PhysicalClient (ServerEnd τ)) response phase t, d.info = c.info → d.knownBarrier = c.knownBarrier →
      good response phase t → d.SinkFair → d.io.input <+: response → Post receive d
        (fun _ d' => d.Accepted response d' ∧ Matched source json limits history barrier d'.info d'.knownBarrier t phase)
        (fun e d' => d.Unrefused response e d')) :
    Post (do onLink (writeFrame (ServerEnd.receive sha256 json limits token source) kind payload); receive)
      { c with poisoned := true } (fun _ c' => Answered source json limits history barrier c { c' with poisoned := false })
      (fun e c' => c'.poisoned = true → Failed source json limits history barrier c e c') := by
  obtain ⟨hi,-⟩ := hl.live hlv
  rw [post_bind,onLink,post_zoom]
  refine (writeFrame_post hs).mono ?_ ?_
  · rintro _ l rfl
    have hw := hr _ (prefix_refl _)
    simp only [true_and] at hw
    refine reply_read hl.sink hw rfl ?_ rfl rfl (he _) fun response phase t => hrd _ response phase t rfl rfl
    show c.io.input ++ _ = _
    rw [hi,nil_append]
  · rintro e l ⟨hrf,hst,n,rfl⟩ hp
    refine ⟨⟨hl.sink,fun e' he' => (hr _ ( take_prefix n _)).peer he',?_⟩,.inr ⟨hrf,?_⟩⟩
    · intro hf
      cases hf
    · exact fun h => hst h.1.client.stops

theorem Opened.move {t' : τ} (h : Opened source json limits history barrier request info t) (hs : source.sessionInfo t' = info)
    (hb : info.initialBarrier ≤ barrier t') : Opened source json limits history barrier request info t' :=
  { h with session := hs, barrier := hb }

theorem Opened.manifest_valid {manifest : CheckpointManifest}
    (h : Opened source json limits history barrier request (.snapshot manifest) t) :
    manifest.validate limits.transfer = .ok () := by
  cases request with
  | snapshot => exact mapError_eq_ok.mp h.valid
  | resume found after => cases h.valid

variable (h : Linked source json limits history barrier c)
include h

theorem Linked.serving (hl : c.poisoned = false) (hi : c.info = some info) :
    (∃ e, c.io.peer.phase = .error e) ∨ c.io.peer.phase = .ok (.serving info c.knownBarrier) ∧ c.io.peer.unread = [] ∧
        info.initialBarrier ≤ c.knownBarrier ∧ c.knownBarrier ≤ barrier c.io.peer.world ∧
        ∃ request, Opened source json limits history barrier request info c.io.peer.world := by
  obtain ⟨-,hp⟩ := h.live hl
  cases hph : c.io.peer.phase with
  | error e => exact .inl ⟨e,rfl⟩
  | ok phase =>
    obtain ⟨hu,hm⟩ := hp phase hph
    cases phase with
    | auth | closed => exact hm.elim
    | opening =>
      rw [show c.info = none from hm] at hi
      cases hi
    | serving session known =>
      obtain ⟨hs,hkn,hin,hb,ho⟩ := hm
      rw [hs] at hi
      cases hi
      rw [hkn]
      exact .inr ⟨rfl,hu,hin,hb,ho⟩

theorem Linked.reply_of_ended {p : Prop} {good : Bytes → Phase → τ → Prop} {bytes : Bytes} {e : WireError} (hph : c.io.peer.phase = .error e) :
    Reply (p ∧ Quiet c ∧ source.Answering) good (ServerEnd.receive sha256 json limits token source c.io.peer bytes) := by
  have hr : ServerEnd.receive sha256 json limits token source c.io.peer bytes = (c.io.peer,[]) := by
    unfold ServerEnd.receive
    rw [hph]
  rw [hr]
  refine ⟨.inr ⟨e,hph,h.peer e hph,fun hqt => ?_,.inl rfl⟩⟩
  obtain ⟨phase,ha⟩ := hqt.2.1.alive
  rw [hph] at ha
  cases ha

theorem Linked.armed {α : Type} {body : Session (ServerEnd τ) α} (hl : c.poisoned = false)
    (hb : Linked source json limits history barrier { c with poisoned := true } → Post body { c with poisoned := true }
      (fun _ c' => Answered source json limits history barrier c { c' with poisoned := false })
      fun e c' => c'.poisoned = true → Failed source json limits history barrier c e c') :
    Post (Replication.armed body) c (fun _ c' => Answered source json limits history barrier c c')
      fun e c' => c'.poisoned = true → Failed source json limits history barrier c e c' := by
  refine post_armed.mpr ⟨fun hp => ?_,fun _ => hb ⟨h.sink,h.peer,nofun⟩⟩
  rw [hl] at hp
  cases hp

omit h in
theorem receive_empty {α : Type} {allowed : List Kind} {next : Frame → Session (ServerEnd τ) α} (hi : c.io.input = []) :
    Post (onLink (readFrame allowed) >>= next) c (fun _ _ => False) (fun e c' => e.isRefusal = false ∧ c.Reads c') := by
  rw [post_bind]
  exact post_onLink_empty hi fun e l hrf hr => ⟨hrf,hr⟩

omit h in
theorem poll_agrees (hsh : ∀ bytes, (sha256 bytes).length = 32) (hsr : source.Correct sha256 json limits history barrier)
    (hln : Linked source json limits history barrier c) (hlv : c.poisoned = false) (after byteLimit : Nat) :
    Post (poll sha256 (ServerEnd.receive sha256 json limits token source) after byteLimit) c
      (fun _ c' => Answered source json limits history barrier c c')
      (fun e c' => c'.poisoned = true → Failed source json limits history barrier c e c') := by
  refine hln.armed hlv fun hps => ?_
  simp only [post_bind,post_get]
  split
  · exact post_throw.mpr fun _ => ⟨hps,.inl rfl⟩
  next info hin =>
    split
    · exact post_throw.mpr fun _ => ⟨hps,.inl rfl⟩
    next hb =>
      push Not at hb
      obtain ⟨haf,hm,hlm,hl⟩ := hb
      have hsz : Kind.pollRequest.validSize (pollRequestPayload info.sessionId after byteLimit).length = true := by
        simp [Kind.validSize,pollRequestPayload,length_beBytes]
      refine @exchange_post τ sha256 json limits token source history barrier c hln hlv PollSummary .pollRequest _ _
        (fun response phase t => info.history = history ∧ ∃ poll, GoodPoll sha256 history after byteLimit c.knownBarrier poll ∧
          response = pollResponse poll ∧ phase = .serving info poll.durableBarrier ∧
          info.initialBarrier ≤ c.knownBarrier ∧ poll.durableBarrier ≤ barrier t ∧
          ∃ request, Opened source json limits history barrier request info t) hsz ?_ ?_ ?_
      · intro bytes hbt
        obtain ⟨e,hph⟩ | ⟨hph,hu,hi,hbr,request,ho⟩ := hln.serving hlv hin
        · exact hln.reply_of_ended hph
        refine reply_of_step hph ?_
        rw [hu,nil_append]
        refine (serveRequest_poll (s := ⟨⟨(),bytes,[],c.io.peer.stops⟩,c.io.peer.world⟩) hsh hsr ho.session
          ho.history ho.fits hbr haf hm hlm hl hbt rfl).mono ?_ ?_
        · rintro phase s ⟨hrest,hst,hs,poll,rfl,hdr,hg,hou⟩
          refine ⟨hrest,⟨ho.history,poll,hg,hou,rfl,hi,hdr,request,?_⟩,
            fun h => hst h.2.1.server⟩
          exact ho.move hs ((hi.trans hg.known).trans hdr)
        · rintro e s ⟨hr,hn,hou⟩
          refine ⟨hr,fun h => hn h.2.1.server h.1 h.2.2,?_⟩
          obtain hnt | ⟨poll,hg,hp,t,hs,hdr⟩ := hou
          · exact .inl hnt
          · refine .inr ⟨_,_,t,⟨ho.history,poll,hg,rfl,rfl,hi,hdr,request,?_⟩,hp⟩
            exact ho.move hs ((hi.trans hg.known).trans hdr)
      · intro d hd
        exact receive_empty hd
      · rintro d response phase t hdn hdk ⟨hh,poll,hg,rfl,rfl,hi,hdr,request,ho⟩ hf hp
        have hg' : GoodPoll sha256 info.history after byteLimit c.knownBarrier poll := by rwa [hh]
        refine (receivePoll_honest hsh (by rw [hh]; exact hsr.fits) hg' hl (Nat.le_of_eq hdk) hf
          hp).mono ?_ (fun e d' h => h)
        rintro s d' ⟨ha,hi',hkn'⟩
        refine ⟨ha,?_,hkn',hi.trans hg.known,hdr,request,ho⟩
        rw [hi',hdn,hin]

omit h in
theorem readChunk_agrees (hs : ∀ bytes, (sha256 bytes).length = 32) (hsr : source.Correct sha256 json limits history barrier)
    (hln : Linked source json limits history barrier c) (hl : c.poisoned = false) (index offset length : Nat) :
    Post (readChunk sha256 limits (ServerEnd.receive sha256 json limits token source) index offset length) c
      (fun _ c' => Answered source json limits history barrier c c')
      (fun e c' => c'.poisoned = true → Failed source json limits history barrier c e c') := by
  refine hln.armed hl fun hps => ?_
  simp only [post_bind,post_get]
  split
  · exact post_throw.mpr fun _ => ⟨hps,.inl rfl⟩
  next manifest hm =>
    have hin : c.info = some (.snapshot manifest) := eq_snapshot_of_manifest hm
    rw [post_bind]
    refine post_check ?_ fun _ _ => ⟨hps,.inl rfl⟩
    rintro ⟨⟩ hbd
    have hsz :
        Kind.chunkRequest.validSize (chunkRequestPayload manifest.snapshotId index offset length).length = true := by
      simp [Kind.validSize,chunkRequestPayload,length_beBytes]
    refine @exchange_post τ sha256 json limits token source history barrier c hln hl Bytes .chunkRequest _ _
      (fun response phase t => ∃ bytes, bytes.length = length ∧
        response = chunkResponse sha256 manifest.snapshotId index offset bytes ∧
        phase = .serving (.snapshot manifest) c.knownBarrier ∧ manifest.checkpointSequence ≤ c.knownBarrier ∧
        c.knownBarrier ≤ barrier t ∧ ∃ request, Opened source json limits history barrier request (.snapshot manifest) t)
      hsz ?_ ?_ ?_
    · intro bytes hbt
      obtain ⟨e,hph⟩ | ⟨hph,hu,hi,hb,request,ho⟩ := hln.serving hl hin
      · exact hln.reply_of_ended hph
      refine reply_of_step hph ?_
      rw [hu,nil_append]
      refine (serveRequest_chunk (s := ⟨⟨(),bytes,[],c.io.peer.stops⟩,c.io.peer.world⟩) hs hsr ho.session
        ho.manifest_valid ho.fits hbd hbt rfl).mono ?_ ?_
      · rintro phase s ⟨hrest,hst,hss,hg,rfl,chunk,hle,hou⟩
        have hkn := hb.trans hg
        refine ⟨hrest,⟨chunk,hle,hou,rfl,hi,hkn,request,?_⟩,fun h => hst h.2.1.server⟩
        exact ho.move hss (hi.trans hkn)
      · rintro e s ⟨hr,hn,hou⟩
        refine ⟨hr,fun h => hn h.2.1.server h.1 h.2.2,?_⟩
        obtain hnt | ⟨chunk,hle,hp⟩ := hou
        · exact .inl hnt
        · exact .inr ⟨_,_,_,⟨chunk,hle,rfl,rfl,hi,hb,request,ho⟩,hp⟩
    · intro d hd
      exact receive_empty hd
    · rintro d response phase t hdn hdk ⟨bytes,rfl,rfl,rfl,hi,hb,request,ho⟩ - hp
      obtain ⟨hid,hof,hmn,hmx⟩ := chunkBounds_eq_ok ho.manifest_valid hbd
      refine (receiveChunk_honest hs ho.fits hid hof hmn hmx hp).mono ?_ (fun e d' h => h)
      rintro chunk d' ⟨ha,hh⟩
      refine ⟨ha,?_,hh.knownBarrier.trans hdk,hi,hb,request,ho⟩
      rw [hh.info,hdn,hin]

theorem Linked.opening (hl : c.poisoned = false) (hi : c.info = none) :
    (∃ e, c.io.peer.phase = .error e) ∨ c.io.peer.phase = .ok .opening ∧ c.io.peer.unread = [] := by
  obtain ⟨-,hp⟩ := h.live hl
  cases hph : c.io.peer.phase with
  | error e => exact .inl ⟨e,rfl⟩
  | ok phase =>
    obtain ⟨hu,hm⟩ := hp phase hph
    cases phase with
    | auth | closed => exact hm.elim
    | opening => exact .inr ⟨rfl,hu⟩
    | serving session known =>
      rw [hm.1] at hi
      cases hi

omit h

theorem open_post (hsr : source.Correct sha256 json limits history barrier)
    (hl : Linked source json limits history barrier c) (hlv : c.poisoned = false) (hi : c.info = none)
    {α : Type} {request : OpenRequest} {bytes : Bytes} {receive : Session (ServerEnd τ) α}
    (he : request.encode = .ok bytes) (hf : ∀ found after, request = .resume found after → Uuid.Fits found)
    (hem : ∀ d : PhysicalClient (ServerEnd τ), d.io.input = [] →
      Post receive d (fun _ _ => False) (fun e d' => e.isRefusal = false ∧ d.Reads d'))
    (hr : ∀ (d : PhysicalClient (ServerEnd τ)) info t, Opened source json limits history barrier request info t →
      d.io.input <+: openResponse json info → Post receive d
        (fun _ d' => d.Accepted (openResponse json info) d' ∧ d'.info = some info ∧ d'.knownBarrier = info.initialBarrier)
        (fun e d' => d.Unrefused (openResponse json info) e d')) :
    Post (do onLink (writeFrame (ServerEnd.receive sha256 json limits token source) .openSession bytes); receive)
      { c with poisoned := true } (fun _ c' => Answered source json limits history barrier c { c' with poisoned := false })
      (fun e c' => c'.poisoned = true → Failed source json limits history barrier c e c') := by
  refine @exchange_post _ _ _ _ _ _ _ _ _ hl hlv _ _ _ _ (fun response phase t => ∃ info, response = openResponse json info ∧
    phase = .serving info info.initialBarrier ∧ Opened source json limits history barrier request info t)
    (openRequest_size he) ?_ hem ?_
  · intro part hp
    obtain ⟨e,hph⟩ | ⟨hph,hu⟩ := hl.opening hlv hi
    · exact hl.reply_of_ended hph
    refine reply_of_step hph ?_
    rw [hu,nil_append]
    refine (serveOpen_answers (s := ⟨⟨(),part,[],c.io.peer.stops⟩,c.io.peer.world⟩) hsr he hf hp
      rfl).mono ?_ ?_
    · rintro phase s ⟨hrest,hs,info,rfl,ho,hou⟩
      exact ⟨hrest,⟨info,hou,rfl,ho⟩,fun h => hs h.2.1.server⟩
    · rintro e s ⟨hrf,hn,hou⟩
      refine ⟨hrf,fun h => hn h.2.1.server h.1 h.2.2,?_⟩
      obtain hnt | ⟨info,t,ho,hou⟩ := hou
      · exact .inl hnt
      · exact .inr ⟨_,_,t,⟨info,rfl,rfl,ho⟩,hou⟩
  · rintro d response phase t - - ⟨info,rfl,rfl,ho⟩ - hp
    refine (hr d info t ho hp).mono ?_ (fun e d' h => h)
    rintro a d' ⟨ha,hi',hkn'⟩
    exact ⟨ha,hi',hkn',Nat.le_refl _,ho.barrier,request,ho⟩

variable (hs : source.Correct sha256 json limits history barrier)
include hs
variable (hln : Linked source json limits history barrier c)
include hln

theorem fetchManifest_agrees (hl : c.poisoned = false)
    {expectedHistory : Option Uuid} (hexpd : ∀ expected, expectedHistory = some expected → expected = history) :
    Post (fetchManifest json limits (ServerEnd.receive sha256 json limits token source) expectedHistory) c
      (fun _ c' => Answered source json limits history barrier c c')
      (fun e c' => c'.poisoned = true → Failed source json limits history barrier c e c') := by
  refine hln.armed hl fun hps => ?_
  simp only [post_bind,post_get]
  split
  · exact post_throw.mpr fun _ => ⟨hps,.inl rfl⟩
  next hi =>
    rw [post_bind]
    refine post_check_ok rfl ?_
    refine @open_post _ _ _ _ _ _ _ _ _ hs hln hl (by simpa using hi) _ .snapshot _ _ rfl (by rintro _ _ ⟨⟩)
      (fun d hd => receive_empty hd) fun d info t ho hp => ?_
    exact receiveManifest_honest ho hexpd hp

theorem resume_agrees (hl : c.poisoned = false) {found : Uuid} (hf : Uuid.Fits found) (after : Nat) :
    Post (resume limits (ServerEnd.receive sha256 json limits token source) found after) c
      (fun _ c' => Answered source json limits history barrier c c')
      (fun e c' => c'.poisoned = true → Failed source json limits history barrier c e c') := by
  refine hln.armed hl fun hp => ?_
  simp only [post_bind,post_get]
  split
  · exact post_throw.mpr fun _ => ⟨hp,.inl rfl⟩
  next hi =>
    rw [post_bind]
    refine post_check ?_ fun _ _ => ⟨hp,.inl rfl⟩
    intro bytes he
    refine open_post hs hln hl (by simpa using hi) he ?_ (fun d hd => receive_empty hd)
      fun d info t ho hpr => ?_
    · rintro _ _ ⟨⟩
      exact hf
    · -- a correct source opens only its own history
      obtain ⟨-,-,hfn,-⟩ := SourceSessionInfo.validate_resume ho.valid
      have hsame : found = history := hfn.symm.trans ho.history
      subst hsame
      exact receiveResume_honest ho hf hpr

omit hln

omit hs

/-- A call whose arguments suit the source: a UUID is one, and no history but the source's is expected. -/
def Call.Proper (history : Uuid) : Call → Prop
  | .fetchManifest expectedHistory => ∀ expected, expectedHistory = some expected → expected = history
  | .resume found _ => Uuid.Fits found
  | _ => True

theorem perform_agrees (hsh : ∀ bytes, (sha256 bytes).length = 32)
    (hs : source.Correct sha256 json limits history barrier) {c : PhysicalClient (ServerEnd τ)}
    (hln : Linked source json limits history barrier c) {call : Call} (hpr : call.Proper history) :
    Post (call.perform sha256 json limits (ServerEnd.receive sha256 json limits token source)) c
      (fun _ c' => Answered source json limits history barrier c c')
      (fun e c' => Failed source json limits history barrier c e c') := by
  cases hl : c.poisoned with
  | true => exact .of_error (perform_poisoned hl call) ⟨hln,.inl rfl⟩
  | false =>
    have hp := @perform_post _ sha256 json limits (ServerEnd.receive sha256 json limits token source) call c
    refine Post.mono (@Post.and _ _ _ _ _ (fun _ c' => Answered source json limits history barrier c c') _
      (fun e c' => c'.poisoned = true → Failed source json limits history barrier c e c') _ ?_ hp) (fun _ _ h => h.1)
      (fun e c' h => h.1 h.2.2)
    cases call with
    | fetchManifest expectedHistory => exact post_map.mpr (fetchManifest_agrees hs hln hl hpr)
    | resume found after => exact post_map.mpr (resume_agrees hs hln hl hpr after)
    | readChunk index offset length => exact post_map.mpr (readChunk_agrees hsh hs hln hl index offset length)
    | poll after byteLimit => exact post_map.mpr (poll_agrees hsh hs hln hl after byteLimit)

end
end HeliosNano.Replication
