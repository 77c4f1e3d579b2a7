import HeliosNano.Replication.WireSafety
import HeliosNano.Replication.WireServer

namespace HeliosNano.Replication
open Foundation Storage List

/-- An answer to a poll that is an interval of the history and comes with a barrier not below the known one. -/
structure GoodPoll (sha256 : Bytes → Bytes) (history : Uuid) (after byteLimit known : Nat) (poll : PhysicalPoll) : Prop where
  valid : ∀ batch ∈ poll.batches, batch.Valid sha256 ∧ batch.history = history
  contiguous : Contiguous after poll.batches poll.through
  bytes : totalRaw poll.batches ≤ byteLimit
  through : poll.through ≤ poll.durableBarrier
  bound : poll.durableBarrier ≤ maxSourceSequence
  progress : poll.batches = [] → poll.through = poll.durableBarrier
  known : known ≤ poll.durableBarrier

/-- A source that does what its session promises: it opens what it is asked for, reads whole chunks, and
answers a poll with an interval; its durable barrier does not go back. What it cannot do it says itself. -/
structure PhysicalSource.Correct {τ : Type} (source : PhysicalSource τ) (sha256 : Bytes → Bytes) (json : ManifestJson)
    (limits : WireLimits) (history : Uuid) (barrier : τ → Nat) : Prop where
  fits : Uuid.Fits history
  factory : ∀ request t, Post (source.factory request) t
    (fun _ t' => (source.sessionInfo t').validate request limits = .ok () ∧ (source.sessionInfo t').history = history ∧
      Uuid.Fits (source.sessionInfo t').sessionId ∧ (source.sessionInfo t').initialBarrier ≤ barrier t' ∧
      ∀ m, source.sessionInfo t' = .snapshot m →
        1 ≤ (json.toVec m).length ∧ (json.toVec m).length ≤ maxManifestBytes ∧ json.fromSlice (json.toVec m) = .ok m)
    (fun e _ => e.isRefusal = false)
  readChunk : ∀ index offset length t, Post (source.readChunk index offset length) t
    (fun bytes t' => source.sessionInfo t' = source.sessionInfo t ∧ barrier t ≤ barrier t' ∧
      ∀ m, source.sessionInfo t = .snapshot m → chunkBounds m index offset length limits = .ok () → bytes.length = length)
    (fun e _ => e.isRefusal = false)
  poll : ∀ after byteLimit t, (source.sessionInfo t).initialAfter ≤ after → Post (source.poll after byteLimit) t
    (fun poll t' => source.sessionInfo t' = source.sessionInfo t ∧ poll.durableBarrier ≤ barrier t' ∧
      GoodPoll sha256 history after byteLimit (barrier t) poll)
    (fun e _ => e.isRefusal = false)

/-- A source without failures of its own. -/
structure PhysicalSource.Answering {τ : Type} (source : PhysicalSource τ) : Prop where
  factory : ∀ request t, Post (source.factory request) t (fun _ _ => True) (fun _ _ => False)
  readChunk : ∀ index offset length t, Post (source.readChunk index offset length) t (fun _ _ => True) (fun _ _ => False)
  poll : ∀ after byteLimit t, Post (source.poll after byteLimit) t (fun _ _ => True) (fun _ _ => False)

variable {sha256 : Bytes → Bytes}
variable {batch : PhysicalBatch} {batches : List PhysicalBatch}

theorem PhysicalBatch.Valid.bounds (h : batch.Valid sha256) :
    12 ≤ batch.raw.length ∧ batch.raw.length ≤ maxBatchBytes ∧ batch.last ≤ maxSequence ∧ batch.digest = sha256 batch.raw := by
  rw [PhysicalBatch.Valid,PhysicalBatch.decode] at h
  obtain ⟨-,-,h⟩ := bind_eq_ok.mp h
  obtain ⟨⟨count,records⟩,hr,h⟩ := bind_eq_ok.mp h
  have hs : 12 ≤ batch.raw.length ∧ batch.raw.length ≤ maxBatchBytes := by
    unfold validateRawBatch at hr
    split at hr
    · cases hr
    next hs => omega
  simp only at h
  split at h
  · cases h
  split at h
  · cases h
  next hl =>
    split at h
    · cases h
    next hd =>
      push Not at hd
      have hb := Except.ok.inj h
      refine ⟨hs.1,hs.2,?_,hd.symm⟩
      rw [← hb]
      exact Nat.not_lt.mp hl

theorem twelve_mul_length_le (h : ∀ batch ∈ batches, batch.Valid sha256) : 12*batches.length ≤ totalRaw batches := by
  induction batches with
  | nil => simp
  | cons batch batches ih =>
    have hb := (h batch (mem_cons_self ..)).bounds.1
    have hrest := ih fun other ho => h other (mem_cons_of_mem _ ho)
    simp only [totalRaw,map_cons,sum_cons,length_cons] at hrest ⊢
    omega

namespace GoodPoll
variable {sha256 : Bytes → Bytes} {history : Uuid} {after byteLimit known : Nat} {poll : PhysicalPoll}
variable (h : GoodPoll sha256 history after byteLimit known poll)
include h

theorem length_le : poll.batches.length ≤ byteLimit/12 := by
  have htw := twelve_mul_length_le fun batch hb => (h.valid batch hb).1
  have hbt := h.bytes
  omega

theorem validateSince {below : Nat} (hbl : below ≤ known) : poll.summary.validateSince after byteLimit below = .ok () := by
  obtain ⟨ha,hm⟩ := contiguous_mem h.contiguous
  have he : poll.batches = [] ↔ poll.through = after := by
    constructor
    · intro hn
      have hc := h.contiguous
      rw [hn,Contiguous] at hc
      exact hc
    · intro hth
      cases hb : poll.batches with
      | nil => rfl
      | cons batch rest =>
        have hbt := hm batch (by simp [hb])
        omega
  have hv : poll.summary.validate after byteLimit = .ok () := by
    rw [PollSummary.validate,if_neg]
    push Not
    refine ⟨ha,h.through,h.bound,?_,?_,h.length_le⟩
    · intro hn
      exact h.progress (length_eq_zero_iff.mp hn)
    · exact length_eq_zero_iff.trans he
  have hkn : ¬ poll.summary.durableBarrier < below := Nat.not_lt.mpr (hbl.trans h.known)
  rw [PollSummary.validateSince,hv]
  exact if_neg hkn

end GoodPoll

theorem checkBatches_contiguous {info : SourceSessionInfo} {through through' byteLimit cursor bytes : Nat}
    (hc : Contiguous cursor batches through') (hth : through' ≤ through)
    (hh : ∀ batch ∈ batches, batch.history = info.history) (hb : bytes + totalRaw batches ≤ byteLimit) :
    checkBatches info through byteLimit cursor bytes batches = .ok through' := by
  induction batches generalizing cursor bytes with
  | nil =>
    rw [Contiguous] at hc
    rw [checkBatches,hc]
  | cons batch batches ih =>
    obtain ⟨hf,-,hrest⟩ := hc
    obtain ⟨hl,-⟩ := contiguous_mem hrest
    simp only [totalRaw,map_cons,sum_cons] at hb
    rw [checkBatches,if_neg]
    · exact ih hrest (fun other ho => hh other (mem_cons_of_mem _ ho)) (by rw [totalRaw]; omega)
    · push Not
      exact ⟨hh batch (mem_cons_self ..),hf,hl.trans hth,by omega⟩

def openResponse (json : ManifestJson) (info : SourceSessionInfo) : Bytes :=
  frameBytes (info.response json).1 (info.response json).2

def chunkResponse (sha256 : Bytes → Bytes) (snapshotId : Uuid) (index offset : Nat) (bytes : Bytes) : Bytes :=
  frameBytes .chunk (chunkPayload sha256 snapshotId index offset bytes)

def batchFrames (batches : List PhysicalBatch) : Bytes := batches.flatMap fun batch => frameBytes .batch (batchPayload batch)

def pollResponse (poll : PhysicalPoll) : Bytes :=
  frameBytes .pollStart poll.summary.encode ++ (batchFrames poll.batches ++ frameBytes .pollEnd poll.summary.encode)

theorem batchPayload_size (hs : ∀ bytes, (sha256 bytes).length = 32)
    (h : batch.Valid sha256) : Kind.batch.validSize (batchPayload batch).length = true := by
  obtain ⟨hmn,hm,-,hd⟩ := h.bounds
  have hl : (batchPayload batch).length = batchMeta+batch.raw.length := by
    simp only [batchPayload,length_append,length_beBytes,hd,hs,batchMeta]
    omega
  simp only [Kind.validSize,hl,Bool.and_eq_true,decide_eq_true_eq]
  omega

theorem chunkPayload_length (hs : ∀ bytes, (sha256 bytes).length = 32) (snapshotId index offset : Nat) (bytes : Bytes) :
    (chunkPayload sha256 snapshotId index offset bytes).length = chunkMeta+bytes.length := by
  simp only [chunkPayload,length_append,length_beBytes,hs,chunkMeta]
  omega

theorem chunkBounds_eq_ok {manifest : CheckpointManifest} {index offset length : Nat} {limits : WireLimits}
    (hm : manifest.validate limits.transfer = .ok ()) (h : chunkBounds manifest index offset length limits = .ok ()) :
    index < 256^4 ∧ offset < 256^8 ∧ 1 ≤ length ∧ length ≤ maxChunkBytes := by
  obtain ⟨-,-,hfs,hs⟩ := CheckpointManifest.validate_eq_ok hm
  have hl : limits.transfer.maxChunkBytes ≤ maxChunkBytes := by
    unfold CheckpointManifest.validate at hm
    obtain ⟨⟨⟩,hl,-⟩ := bind_eq_ok.mp hm
    exact (TransferLimits.validate_eq_ok hl).2.2
  unfold chunkBounds at h
  split at h
  · cases h
  next file hf =>
    split at h
    · cases h
    next hb =>
      push Not at hb
      have hi : index < manifest.files.length := (List.getElem?_eq_some_iff.mp hf).1
      have hsz := hs file (mem_of_getElem? hf)
      have hfl : Replication.maxFiles = 2048 := rfl
      have htt : Replication.maxTotalBytes = 1099511627776 := rfl
      exact ⟨by omega,by omega,by omega,hb.2.1.trans hl⟩

section
variable {τ α : Type} {s : Serving τ} {err : WireError → Serving τ → Prop}
variable {kind : Kind} {payload : Bytes}

theorem post_onWire_read {allowed : List Kind} {ok : Frame → Serving τ → Prop}
    (ha : kind ∈ allowed) (hsz : kind.validSize payload.length = true) (hi : s.io.input <+: frameBytes kind payload)
    (hok : s.io.input = frameBytes kind payload →
      ok ⟨kind,payload⟩ { s with io := { s.io with input := [], stops := s.io.stops.tail } })
    (her : ∀ e l, e.isRefusal = false → (s.io.stops = [] → s.io.input ≠ frameBytes kind payload) →
      l.output = s.io.output → err e { s with io := l }) : Post (onWire (readFrame allowed)) s ok err := by
  rw [onWire,post_zoom]
  refine (@readFrame_honest _ _ _ _ _ [] ha hsz (by rwa [append_nil])).mono ?_ ?_
  · rintro frame l ⟨rfl,hst,hrest,hs,hu⟩
    have he : l.input = [] := prefix_nil.mp hrest
    have hl : l = { s.io with input := [], stops := s.io.stops.tail } := by
      obtain ⟨peer,input,output,stops⟩ := l
      simp only at he hs
      rw [he,hs,show output = s.io.output from hu.output]
    rw [hl]
    apply hok
    rw [hst,he,append_nil]
  · rintro e l ⟨hr,hf,hu⟩
    rw [append_nil] at hf
    exact her e l hr hf hu.output

theorem post_onWire_write {ok : Unit → Serving τ → Prop} (hs : kind.validSize payload.length = true)
    (hok : ok () { s with io := { s.io with output := s.io.output ++ frameBytes kind payload, stops := s.io.stops.tail } })
    (he : ∀ e l, e.isRefusal = false → s.io.stops ≠ [] → l.output <+: s.io.output ++ frameBytes kind payload →
      err e { s with io := l }) : Post (onWire (writeFrame silent kind payload)) s ok err := by
  rw [onWire,post_zoom]
  refine (writeFrame_post hs).mono ?_ ?_
  · rintro _ l rfl
    simpa [Link.send,silent] using hok
  · rintro e l ⟨hr,hst,n,rfl⟩
    refine he e _ hr hst ?_
    exact (prefix_append_right_inj _).mpr ( take_prefix n _)

theorem post_onSource {x : EStateM WireError τ α} {ok : α → Serving τ → Prop} {ok' : α → τ → Prop} {err' : WireError → τ → Prop}
    (hx : Post x s.world ok' err') (hok : ∀ a t, ok' a t → ok a { s with world := t })
    (he : ∀ e t, err' e t → err e { s with world := t }) : Post (onSource x) s ok err := by
  rw [onSource,post_zoom]
  exact hx.mono hok he

theorem post_check_ok {σ ε : Type} {r : Except ε α} {a : α} {c : σ} {ok : α → σ → Prop} {err : ε → σ → Prop}
    (hr : r = .ok a) (hok : ok a c) : Post (fromExcept r) c ok err := by
  rw [hr]
  exact post_pure.mpr hok

theorem sendBatches_post {batches : List PhysicalBatch}
    (hsz : ∀ batch ∈ batches, Kind.batch.validSize (batchPayload batch).length = true) (s : Serving τ) :
    Post (sendBatches batches) s (fun _ s' => ∃ stops, (s.io.stops = [] → stops = []) ∧
        s' = { s with io := { s.io with output := s.io.output ++ batchFrames batches, stops := stops } })
      (fun e s' => e.isRefusal = false ∧ s.io.stops ≠ [] ∧ s'.io.output <+: s.io.output ++ batchFrames batches) := by
  induction batches generalizing s with
  | nil => exact post_pure.mpr ⟨s.io.stops,id,by simp [batchFrames]⟩
  | cons batch batches ih =>
    have hf : batchFrames (batch::batches) = frameBytes .batch (batchPayload batch) ++ batchFrames batches := rfl
    rw [sendBatches,post_bind]
    refine post_onWire_write (hsz batch (mem_cons_self ..)) ?_ ?_
    · refine (ih (fun other hoh => hsz other (mem_cons_of_mem _ hoh)) _).mono ?_ ?_
      · rintro _ s' ⟨stops,hs,rfl⟩
        refine ⟨stops,fun h => hs (by simp [h]),?_⟩
        rw [hf,← append_assoc]
      · rintro e s' ⟨hr,hs,ho⟩
        refine ⟨hr,fun h => hs (by simp [h]),?_⟩
        rwa [hf,← append_assoc]
    · intro e l hr hs ho
      refine ⟨hr,hs,ho.trans ?_⟩
      rw [hf,← append_assoc]
      exact prefix_append _ _

end

section
variable {τ : Type} {sha256 : Bytes → Bytes} {json : ManifestJson} {limits : WireLimits} {source : PhysicalSource τ}
  {history : Uuid} {barrier : τ → Nat}
variable {byteLimit after known : Nat} {s : Serving τ} {info : SourceSessionInfo} {index length offset : Nat}
  {request : OpenRequest}

theorem pollRequestPayload_fields {sessionId : Nat} (hid : Uuid.Fits sessionId)
    (ha : after ≤ maxSourceSequence) (hl : byteLimit ≤ maxBatchBytes) :
    uuidAt (pollRequestPayload sessionId after byteLimit) 0 = .ok sessionId ∧
      u64At (pollRequestPayload sessionId after byteLimit) 16 = .ok after ∧
      u32At (pollRequestPayload sessionId after byteLimit) 24 = .ok byteLimit := by
  have hs : maxSourceSequence < 256^8 := by decide
  have hb : maxBatchBytes < 256^4 := by decide
  unfold uuidAt u64At u32At pollRequestPayload
  refine ⟨?_,?_,?_⟩
  · exact @fieldAt_beBytes _ [] (beBytes 8 after ++ beBytes 4 byteLimit) 16 0 sessionId (by simp) (by simp) hid
  · exact @fieldAt_beBytes _ (beBytes 16 sessionId) (beBytes 4 byteLimit) 8 16 after (by simp) (length_beBytes 16 _)
      (by omega)
  · exact @fieldAt_beBytes _ (beBytes 16 sessionId ++ beBytes 8 after) [] 4 24 byteLimit (by simp)
      (by simp [length_beBytes]) (by omega)

variable (hsh : ∀ bytes, (sha256 bytes).length = 32)
include hsh

theorem servePoll_answers (hsr : source.Correct sha256 json limits history barrier)
    (hi : source.sessionInfo s.world = info) (hh : info.history = history)
    (hid : Uuid.Fits info.sessionId) (hkn : known ≤ barrier s.world) (haf : info.initialAfter ≤ after)
    (hmx : after ≤ maxSourceSequence) (hlt : byteLimit ≠ 0) (hlm : byteLimit ≤ maxBatchBytes)
    (ho : s.io.output = []) : Post (servePoll source info known (pollRequestPayload info.sessionId after byteLimit)) s
      (fun known' s' => s'.io.input = s.io.input ∧ (s.io.stops = [] → s'.io.stops = []) ∧
        source.sessionInfo s'.world = info ∧ known' ≤ barrier s'.world ∧
        ∃ poll, GoodPoll sha256 history after byteLimit known poll ∧ known' = poll.durableBarrier ∧
          s'.io.output = pollResponse poll) (fun e s' => e.isRefusal = false ∧ (s.io.stops = [] → ¬ source.Answering) ∧
        (s'.io.output = [] ∨ ∃ poll, GoodPoll sha256 history after byteLimit known poll ∧
          s'.io.output <+: pollResponse poll ∧ ∃ t, source.sessionInfo t = info ∧ poll.durableBarrier ≤ barrier t)) := by
  obtain ⟨hfd,hf,hfl⟩ := pollRequestPayload_fields hid hmx hlm
  simp only [servePoll,post_bind]
  refine post_check_ok hfd ?_
  rw [if_neg (by simp)]
  simp only [post_bind]
  refine post_check_ok hf (post_check_ok hfl ?_)
  rw [if_neg (by omega)]
  simp only [post_bind]
  have ha := (hsr.poll after byteLimit s.world (by rwa [hi])).and_not
    fun h : source.Answering => h.poll after byteLimit s.world
  refine post_onSource ha ?_ ?_
  · rintro poll t ⟨hss,hbr,hp⟩
    have hg : GoodPoll sha256 history after byteLimit known poll := { hp with known := hkn.trans hp.known }
    have hcn := hg.length_le
    have hm : maxBatchBytes = 67108864 := rfl
    have hu32 : u32Max = 4294967295 := rfl
    rw [if_neg (by omega)]
    simp only [post_bind]
    refine post_check_ok (hg.validateSince (Nat.le_refl _)) ?_
    have hc : checkBatches info poll.through byteLimit after 0 poll.batches = .ok poll.through := by
      refine checkBatches_contiguous hg.contiguous (Nat.le_refl _) ?_ (by have := hg.bytes; omega)
      intro batch hb
      rw [(hg.valid batch hb).2,hh]
    refine post_check_ok hc ?_
    rw [if_neg (by simp)]
    simp only [post_bind]
    have hsm : Kind.pollStart.validSize poll.summary.encode.length = true := by
      rw [PollSummary.length_encode]
      rfl
    have hw : ∃ t, source.sessionInfo t = info ∧ poll.durableBarrier ≤ barrier t := ⟨t,hss.trans hi,hbr⟩
    -- every later failure leaves a part of the whole answer
    refine post_onWire_write hsm ?_ ?_
    · refine (sendBatches_post (fun batch hb => batchPayload_size hsh (hg.valid batch hb).1) _).mono ?_ ?_
      · rintro _ s' ⟨stops,hs,rfl⟩
        refine post_onWire_write hsm ?_ ?_
        · refine post_pure.mpr ⟨rfl,fun h => ?_,?_,hbr,poll,hg,rfl,?_⟩
          · simp [hs (by simp [h])]
          · exact hss.trans hi
          · simp [ho,pollResponse]
        · intro e l hr hne hl
          refine ⟨hr,fun h => absurd (hs (by simp [h])) hne,.inr ⟨poll,hg,?_,hw⟩⟩
          simpa [ho,pollResponse] using hl
      · rintro e s' ⟨hr,hs,hl⟩
        refine ⟨hr,fun h => absurd (by simp [h]) hs,.inr ⟨poll,hg,hl.trans ?_,hw⟩⟩
        rw [ho,nil_append,pollResponse,← append_assoc]
        exact prefix_append _ _
    · intro e l hr hs hl
      refine ⟨hr,fun h => absurd h hs,.inr ⟨poll,hg,hl.trans ?_,hw⟩⟩
      rw [ho,nil_append,pollResponse]
      exact prefix_append _ _
  · rintro e t ⟨hr,hn⟩
    exact ⟨hr,fun _ => hn,.inl ho⟩

omit hsh in
theorem chunkRequestPayload_fields {snapshotId : Nat} (hid : Uuid.Fits snapshotId) (hi : index < 256^4)
    (ho : offset < 256^8) (hl : length ≤ maxChunkBytes) :
    uuidAt (chunkRequestPayload snapshotId index offset length) 0 = .ok snapshotId ∧
      u32At (chunkRequestPayload snapshotId index offset length) 16 = .ok index ∧
      u64At (chunkRequestPayload snapshotId index offset length) 20 = .ok offset ∧
      u32At (chunkRequestPayload snapshotId index offset length) 28 = .ok length := by
  have hc : maxChunkBytes < 256^4 := by decide
  unfold uuidAt u64At u32At chunkRequestPayload
  refine ⟨?_,?_,?_,?_⟩
  · exact @fieldAt_beBytes _ [] (beBytes 4 index ++ (beBytes 8 offset ++ beBytes 4 length)) 16 0 snapshotId (by simp)
      (by simp) hid
  · exact @fieldAt_beBytes _ (beBytes 16 snapshotId) (beBytes 8 offset ++ beBytes 4 length) 4 16 index (by simp)
      (length_beBytes 16 _) hi
  · exact @fieldAt_beBytes _ (beBytes 16 snapshotId ++ beBytes 4 index) (beBytes 4 length) 8 20 offset (by simp)
      (by simp [length_beBytes]) ho
  · exact @fieldAt_beBytes _ (beBytes 16 snapshotId ++ (beBytes 4 index ++ beBytes 8 offset)) [] 4 28 length (by simp)
      (by simp [length_beBytes]) (by omega)

variable {manifest : CheckpointManifest} {bytes : Bytes}

theorem serveChunk_answers
    (hsr : source.Correct sha256 json limits history barrier) (hi : source.sessionInfo s.world = .snapshot manifest)
    (hm : manifest.validate limits.transfer = .ok ()) (hid : Uuid.Fits manifest.snapshotId)
    (hb : chunkBounds manifest index offset length limits = .ok ()) (ho : s.io.output = []) :
    Post (serveChunk sha256 limits source (.snapshot manifest) (chunkRequestPayload manifest.snapshotId index offset length)) s
      (fun _ s' => s'.io.input = s.io.input ∧ (s.io.stops = [] → s'.io.stops = []) ∧
        source.sessionInfo s'.world = .snapshot manifest ∧ barrier s.world ≤ barrier s'.world ∧
        ∃ bytes, bytes.length = length ∧ s'.io.output = chunkResponse sha256 manifest.snapshotId index offset bytes)
      (fun e s' => e.isRefusal = false ∧ (s.io.stops = [] → ¬ source.Answering) ∧
        (s'.io.output = [] ∨ ∃ bytes, bytes.length = length ∧
          s'.io.output <+: chunkResponse sha256 manifest.snapshotId index offset bytes)) := by
  obtain ⟨hix,hof,hmn,hmx⟩ := chunkBounds_eq_ok hm hb
  obtain ⟨hfi,hfd,hfl,hf⟩ := chunkRequestPayload_fields hid hix hof hmx
  simp only [serveChunk,SourceSessionInfo.manifest,post_bind]
  refine post_check_ok hfi ?_
  rw [if_neg (by simp)]
  simp only [post_bind]
  refine post_check_ok hfd (post_check_ok hfl (post_check_ok hf (post_check_ok hb ?_)))
  have ha := (hsr.readChunk index offset length s.world).and_not
    fun h : source.Answering => h.readChunk index offset length s.world
  refine post_onSource ha ?_ ?_
  · rintro bytes t ⟨hs,hbr,hbt⟩
    have hln : bytes.length = length := hbt manifest hi hb
    rw [if_neg (by simp [hln])]
    have hsz : Kind.chunk.validSize (chunkPayload sha256 manifest.snapshotId index offset bytes).length = true := by
      rw [chunkPayload_length hsh,hln]
      simp only [Kind.validSize,Bool.and_eq_true,decide_eq_true_eq]
      omega
    refine post_onWire_write hsz ?_ ?_
    · refine ⟨rfl,fun h => by simp [h],hs.trans hi,hbr,bytes,hln,?_⟩
      simp [ho,chunkResponse]
    · intro e l hr hst hl
      refine ⟨hr,fun h => absurd h hst,.inr ⟨bytes,hln,?_⟩⟩
      simpa [ho,chunkResponse] using hl
  · rintro e t ⟨hr,hn⟩
    exact ⟨hr,fun _ => hn,.inl ho⟩

structure Opened (source : PhysicalSource τ) (json : ManifestJson) (limits : WireLimits) (history : Uuid) (barrier : τ → Nat)
    (request : OpenRequest) (info : SourceSessionInfo) (t : τ) : Prop where
  session : source.sessionInfo t = info
  valid : info.validate request limits = .ok ()
  history : info.history = history
  fits : Uuid.Fits info.sessionId
  barrier : info.initialBarrier ≤ barrier t
  text : ∀ m, info = .snapshot m →
    1 ≤ (json.toVec m).length ∧ (json.toVec m).length ≤ maxManifestBytes ∧ json.fromSlice (json.toVec m) = .ok m

omit hsh in
theorem Opened.response_size {t : τ} (h : Opened source json limits history barrier request info t) :
    Kind.validSize (info.response json).1 (info.response json).2.length = true := by
  cases info with
  | snapshot m =>
    obtain ⟨hmn,hm,-⟩ := h.text m rfl
    simp only [SourceSessionInfo.response,Kind.validSize,Bool.and_eq_true]
    exact ⟨decide_eq_true hmn,decide_eq_true hm⟩
  | resume sessionId found initialAfter durableBarrier =>
    simp [SourceSessionInfo.response,Kind.validSize,length_beBytes]

omit hsh in
theorem openRequest_size (he : request.encode = .ok bytes) : Kind.openSession.validSize bytes.length = true := by
  cases request with
  | snapshot =>
    cases he
    rfl
  | resume found after =>
    simp only [OpenRequest.encode] at he
    split at he
    · cases he
    · cases he
      simp [Kind.validSize,length_beBytes]

omit hsh in
theorem serveOpen_answers (hsr : source.Correct sha256 json limits history barrier)
    (he : request.encode = .ok bytes) (hf : ∀ history after, request = .resume history after → Uuid.Fits history)
    (hi : s.io.input <+: frameBytes .openSession bytes) (ho : s.io.output = []) : Post (serveOpen json limits source) s
      (fun phase s' => s'.io.input = [] ∧ (s.io.stops = [] → s'.io.stops = []) ∧
        ∃ info, phase = .serving info info.initialBarrier ∧
          Opened source json limits history barrier request info s'.world ∧ s'.io.output = openResponse json info)
      (fun e s' => e.isRefusal = false ∧ (s.io.stops = [] → s.io.input = frameBytes .openSession bytes → ¬ source.Answering) ∧
        (s'.io.output = [] ∨ ∃ info t, Opened source json limits history barrier request info t ∧
          s'.io.output <+: openResponse json info)) := by
  rw [serveOpen,post_bind]
  refine post_onWire_read (by simp) (openRequest_size he) hi (fun _ => ?_) ?_
  · rw [if_neg (by simp)]
    simp only [post_bind]
    refine post_check_ok (OpenRequest.decode_encode he hf) ?_
    have ha := (hsr.factory request s.world).and_not fun h : source.Answering => h.factory request s.world
    refine post_onSource ha ?_ ?_
    · rintro ⟨⟩ t ⟨hv,hh,hid,hb,htx⟩
      have hop : Opened source json limits history barrier request (source.sessionInfo t) t :=
        ⟨rfl,hv,hh,hid,hb,htx⟩
      rw [onSource,post_zoom,post_get]
      refine post_check_ok hv ?_
      refine post_onWire_write hop.response_size ?_ ?_
      · refine post_pure.mpr ⟨rfl,fun h => by simp [h],_,rfl,hop,?_⟩
        simp [ho,openResponse]
      · intro e l hr hs hl
        refine ⟨hr,fun h _ => absurd (by simp [h]) hs,.inr ⟨_,t,hop,?_⟩⟩
        simpa [ho,openResponse] using hl
    · rintro e t ⟨hr,hn⟩
      exact ⟨hr,fun _ _ => hn,.inl ho⟩
  · intro e l hr hfl hl
    exact ⟨hr,fun h h' => absurd h' (hfl h),.inl (hl.trans ho)⟩

variable (hsr : source.Correct sha256 json limits history barrier)
include hsr

theorem serveRequest_poll

    (hi : source.sessionInfo s.world = info) (hh : info.history = history)
    (hid : Uuid.Fits info.sessionId) (hkn : known ≤ barrier s.world) (ha : info.initialAfter ≤ after)
    (hm : after ≤ maxSourceSequence) (hlt : byteLimit ≠ 0) (hlm : byteLimit ≤ maxBatchBytes)
    (hin : s.io.input <+: frameBytes .pollRequest (pollRequestPayload info.sessionId after byteLimit))
    (hop : s.io.output = []) : Post (serveRequest sha256 limits source info known) s
      (fun phase s' => s'.io.input = [] ∧ (s.io.stops = [] → s'.io.stops = []) ∧
        source.sessionInfo s'.world = info ∧ ∃ poll, phase = .serving info poll.durableBarrier ∧
          poll.durableBarrier ≤ barrier s'.world ∧ GoodPoll sha256 history after byteLimit known poll ∧
          s'.io.output = pollResponse poll) (fun e s' => e.isRefusal = false ∧
        (s.io.stops = [] → s.io.input = frameBytes .pollRequest (pollRequestPayload info.sessionId after byteLimit) →
          ¬ source.Answering) ∧ (s'.io.output = [] ∨ ∃ poll, GoodPoll sha256 history after byteLimit known poll ∧
          s'.io.output <+: pollResponse poll ∧ ∃ t, source.sessionInfo t = info ∧ poll.durableBarrier ≤ barrier t)) := by
  have hsz : Kind.pollRequest.validSize (pollRequestPayload info.sessionId after byteLimit).length = true := by
    simp [Kind.validSize,pollRequestPayload,length_beBytes]
  rw [serveRequest,post_bind]
  refine post_onWire_read (by simp) hsz hin (fun _ => ?_) ?_
  · dsimp only
    rw [post_bind]
    refine (servePoll_answers (s := ⟨{ s.io with input := [], stops := s.io.stops.tail },s.world⟩) hsh hsr hi
      hh hid hkn ha hm hlt hlm hop).mono ?_ ?_
    · rintro known' s' ⟨hrest,hs,hss,hb,poll,hg,rfl,ho⟩
      exact post_pure.mpr ⟨hrest,fun h => hs (by simp [h]),hss,poll,rfl,hb,hg,ho⟩
    · rintro e s' ⟨hr,hs,ho⟩
      exact ⟨hr,fun h _ => hs (by simp [h]),ho⟩
  · intro e l hr hf hl
    exact ⟨hr,fun h h' => absurd h' (hf h),.inl (hl.trans hop)⟩

theorem serveRequest_chunk (hi : source.sessionInfo s.world = .snapshot manifest)
    (hm : manifest.validate limits.transfer = .ok ()) (hid : Uuid.Fits manifest.snapshotId)
    (hbd : chunkBounds manifest index offset length limits = .ok ())
    (hin : s.io.input <+: frameBytes .chunkRequest (chunkRequestPayload manifest.snapshotId index offset length))
    (hop : s.io.output = []) : Post (serveRequest sha256 limits source (.snapshot manifest) known) s
      (fun phase s' => s'.io.input = [] ∧ (s.io.stops = [] → s'.io.stops = []) ∧
        source.sessionInfo s'.world = .snapshot manifest ∧ barrier s.world ≤ barrier s'.world ∧
        phase = .serving (.snapshot manifest) known ∧
        ∃ bytes, bytes.length = length ∧ s'.io.output = chunkResponse sha256 manifest.snapshotId index offset bytes)
      (fun e s' => e.isRefusal = false ∧ (s.io.stops = [] →
          s.io.input = frameBytes .chunkRequest (chunkRequestPayload manifest.snapshotId index offset length) →
          ¬ source.Answering) ∧ (s'.io.output = [] ∨ ∃ bytes, bytes.length = length ∧
          s'.io.output <+: chunkResponse sha256 manifest.snapshotId index offset bytes)) := by
  have hsz : Kind.chunkRequest.validSize (chunkRequestPayload manifest.snapshotId index offset length).length = true := by
    simp [Kind.validSize,chunkRequestPayload,length_beBytes]
  rw [serveRequest,post_bind]
  refine post_onWire_read (by simp) hsz hin (fun _ => ?_) ?_
  · dsimp only
    rw [post_bind]
    refine (serveChunk_answers (s := ⟨{ s.io with input := [], stops := s.io.stops.tail },s.world⟩) hsh hsr hi
      hm hid hbd hop).mono ?_ ?_
    · rintro _ s' ⟨hrest,hs,hss,hb,ho⟩
      exact post_pure.mpr ⟨hrest,fun h => hs (by simp [h]),hss,hb,rfl,ho⟩
    · rintro e s' ⟨hr,hs,ho⟩
      exact ⟨hr,fun h _ => hs (by simp [h]),ho⟩
  · intro e l hr hf hl
    exact ⟨hr,fun h h' => absurd h' (hf h),.inl (hl.trans hop)⟩

omit hsr

omit hsh

theorem serveAuth_answers {token : Bytes} (htk : token.length = tokenBytes)
    (hi : s.io.input <+: frameBytes .auth token) (ho : s.io.output = []) : Post (serveAuth token) s
      (fun phase s' => s'.io.input = [] ∧ (s.io.stops = [] → s'.io.stops = []) ∧ phase = .opening ∧
        s'.world = s.world ∧ s'.io.output = frameBytes .authOk [])
      (fun e s' => e.isRefusal = false ∧ (s.io.stops = [] → s.io.input ≠ frameBytes .auth token) ∧
        s'.io.output <+: frameBytes .authOk []) := by
  have hs : Kind.auth.validSize token.length = true := by simp [Kind.validSize,htk]
  rw [serveAuth,post_bind]
  refine post_onWire_read (by simp) hs hi (fun _ => ?_) ?_
  · rw [if_pos (by simp [accepts,htk])]
    rw [post_bind]
    refine post_onWire_write rfl ?_ ?_
    · refine post_pure.mpr ⟨rfl,fun h => by simp [h],rfl,rfl,?_⟩
      simp [ho]
    · intro e l hr hst hl
      refine ⟨hr,fun h => absurd (by simp [h]) hst,?_⟩
      simpa [ho] using hl
  · intro e l hr hf hl
    refine ⟨hr,hf,?_⟩
    rw [hl.trans ho]
    exact nil_prefix

end

end HeliosNano.Replication
