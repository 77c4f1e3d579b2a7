import HeliosNano.Replication.WireAnswers

namespace HeliosNano.Replication
open Foundation Storage List SourceSessionInfo PhysicalClient

section
variable {σ α : Type} {sha256 : Bytes → Bytes} {json : ManifestJson} {limits : WireLimits}

structure PhysicalClient.Calm (c : PhysicalClient σ) : Prop where
  stops : c.io.stops = []
  sink : c.sink = []

/-- No sink will give an error that looks like a refusal. -/
def PhysicalClient.SinkFair (c : PhysicalClient σ) : Prop := ∀ e, some e ∈ c.sink → e.isRefusal = false

/-- Reading leaves the peer alone and takes answers of the sinks off the front. -/
structure PhysicalClient.Reads (c c' : PhysicalClient σ) : Prop where
  peer : c'.io.peer = c.io.peer
  sink : ∀ answer ∈ c'.sink, answer ∈ c.sink

variable {c : PhysicalClient σ} {rest : Bytes} {kind : Kind} {payload : Bytes} {batch : PhysicalBatch} {info : SourceSessionInfo}
  {byteLimit : Nat}

theorem PhysicalClient.Reads.trans {a b : PhysicalClient σ} (h : a.Reads b) (h' : b.Reads c) : a.Reads c :=
  ⟨h'.peer.trans h.peer,fun answer ha => h.sink answer (h'.sink answer ha)⟩

theorem PhysicalClient.Reads.fair {c' : PhysicalClient σ} (h : c.Reads c') (hf : c.SinkFair) : c'.SinkFair :=
  fun e he => hf e (h.sink _ he)

variable {c : PhysicalClient σ} {err : WireError → PhysicalClient σ → Prop}
variable {allowed : List Kind} {ok : Frame → PhysicalClient σ → Prop}

theorem post_onLink_honest (ha : kind ∈ allowed) (hs : kind.validSize payload.length = true)
    (hi : c.io.input <+: frameBytes kind payload ++ rest)
    (hok : ∀ l, c.io.input = frameBytes kind payload ++ l.input → l.input <+: rest → c.Reads { c with io := l } →
      (c.Calm → Calm { c with io := l }) → ok ⟨kind,payload⟩ { c with io := l })
    (he : ∀ e l, e.isRefusal = false → c.Reads { c with io := l } →
      (c.Calm → c.io.input ≠ frameBytes kind payload ++ rest) → err e { c with io := l }) :
    Post (onLink (readFrame allowed)) c ok err := by
  rw [onLink,post_zoom]
  refine (readFrame_honest ha hs hi).mono ?_ ?_
  · rintro frame l ⟨rfl,hsr,hrest,hst,hu⟩
    refine hok l hsr hrest ⟨hu.peer,fun _ h => h⟩ fun hc => ⟨?_,hc.sink⟩
    simp [hst,hc.stops]
  · rintro e l ⟨hr,hf,hu⟩
    exact he e l hr ⟨hu.peer,fun _ h => h⟩ fun hc => hf hc.stops

theorem post_onLink_last (ha : kind ∈ allowed) (hsz : kind.validSize payload.length = true)
    (hi : c.io.input <+: frameBytes kind payload)
    (hok : ∀ l, c.io.input = frameBytes kind payload → l.input = [] → c.Reads { c with io := l } →
      (c.Calm → Calm { c with io := l }) → ok ⟨kind,payload⟩ { c with io := l })
    (her : ∀ e l, e.isRefusal = false → c.Reads { c with io := l } →
      (c.Calm → c.io.input ≠ frameBytes kind payload) → err e { c with io := l }) :
    Post (onLink (readFrame allowed)) c ok err := by
  rw [← append_nil (frameBytes kind payload)] at hi
  refine post_onLink_honest ha hsz hi ?_ ?_
  · intro l hs hp hr hc
    have he : l.input = [] := prefix_nil.mp hp
    rw [he,append_nil] at hs
    exact hok l hs he hr hc
  · intro e l hrf hr hf
    rw [append_nil] at hf
    exact her e l hrf hr hf

theorem post_onLink_empty (hi : c.io.input = [])
    (he : ∀ e l, e.isRefusal = false → c.Reads { c with io := l } → err e { c with io := l }) :
    Post (onLink (readFrame allowed)) c ok err := by
  rw [onLink,post_zoom]
  apply post_bounded
  · rw [post_bind,post_readExact]
    refine ⟨fun _ => he _ _ rfl ⟨rfl,fun _ h => h⟩,fun hl => ?_⟩
    simp [hi,headerBytes] at hl
  · intro _ cause n
    exact he _ _ cause.error_not_refusal ⟨rfl,fun _ h => h⟩

theorem post_applySink_fair {ok : Unit → PhysicalClient σ → Prop} (hf : c.SinkFair)
    (hok : ok () { c with given := c.given ++ [batch], sink := c.sink.tail }) (he : ∀ e, e.isRefusal = false → ¬ c.Calm →
      err e { c with given := c.given ++ [batch], sink := c.sink.tail }) : Post (applySink batch) c ok err := by
  cases hs : c.sink with
  | nil => exact .of_ok (by simp only [applySink,hs]) hok
  | cons answer answers =>
    cases answer with
    | none => exact .of_ok (by simp only [applySink,hs]) hok
    | some e =>
      refine .of_error (by simp only [applySink,hs]) (he e (hf e (by simp [hs])) fun hc => ?_)
      rw [hc.sink] at hs
      cases hs

theorem batchPayload_fields (hh : Uuid.Fits batch.history) (hf : batch.first < 256^8) (hd : batch.digest.length = 32) :
    uuidAt (batchPayload batch) 0 = .ok batch.history ∧ u64At (batchPayload batch) 16 = .ok batch.first ∧
      ((batchPayload batch).drop 24).take 32 = batch.digest ∧ (batchPayload batch).drop batchMeta = batch.raw := by
  unfold uuidAt u64At batchPayload
  refine ⟨?_,?_,?_,?_⟩
  · exact @fieldAt_beBytes _ [] (beBytes 8 batch.first ++ (batch.digest ++ batch.raw)) 16 0 batch.history (by simp)
      (by simp) hh
  · exact @fieldAt_beBytes _ (beBytes 16 batch.history) (batch.digest ++ batch.raw) 8 16 batch.first (by simp)
      (length_beBytes 16 _) hf
  · rw [← append_assoc,drop_left' (by simp [length_beBytes]),take_left' hd]
  · rw [← append_assoc,← append_assoc,drop_left' (by simp [length_beBytes,hd,batchMeta])]

theorem readBatches_honest (hsh : ∀ bytes, (sha256 bytes).length = 32)
    (hft : Uuid.Fits info.history) {through last : Nat} (hls : last ≤ through)
    {batches : List PhysicalBatch} (hv : ∀ batch ∈ batches, batch.Valid sha256 ∧ batch.history = info.history)
    {cursor bytes : Nat} (hct : Contiguous cursor batches last) (hbt : bytes + totalRaw batches ≤ byteLimit)
    (hfa : c.SinkFair) (hi : c.io.input <+: batchFrames batches ++ rest) :
    Post (readBatches sha256 info through byteLimit batches.length cursor bytes) c
      (fun cursor' c' => cursor' = last ∧ c.io.input = batchFrames batches ++ c'.io.input ∧ c'.io.input <+: rest ∧
        c.Reads c' ∧ c.Held c' ∧ (c.Calm → c'.Calm))
      (fun e c' => e.isRefusal = false ∧ c.Reads c' ∧ (c.Calm → c.io.input ≠ batchFrames batches ++ rest)) := by
  induction batches generalizing c cursor bytes with
  | nil =>
    rw [Contiguous] at hct
    exact post_pure.mpr ⟨hct.symm,rfl,hi,⟨rfl,fun _ h => h⟩,⟨rfl,rfl,rfl⟩,id⟩
  | cons batch batches ih =>
    obtain ⟨hfs,-,hrest⟩ := hct
    obtain ⟨hb,hhs⟩ := hv batch (mem_cons_self ..)
    obtain ⟨-,-,hm,hdg⟩ := hb.bounds
    have hle := (decode_eq_ok hb).2.2.2.2.2
    obtain ⟨hnx,-⟩ := contiguous_mem hrest
    simp only [totalRaw,map_cons,sum_cons] at hbt
    have hfr : batchFrames (batch::batches) = frameBytes .batch (batchPayload batch) ++ batchFrames batches := rfl
    have hsq : maxSequence < 256^8 := by decide
    have hd : batch.digest.length = 32 := by rw [hdg,hsh]
    obtain ⟨hfi,hfl,hf,hfd⟩ :=
      batchPayload_fields (by rwa [hhs]) (by omega) hd
    have hl : ¬ (batchPayload batch).length < 56 := by
      simp only [batchPayload,length_append,length_beBytes,hd]
      omega
    rw [hfr,append_assoc] at hi
    simp only [length_cons,readBatches,post_bind]
    refine post_onLink_honest (by simp) (batchPayload_size hsh hb) hi ?_ ?_
    · intro l hst hp hr hc
      refine post_check_ok hfi (post_check_ok hfl ?_)
      have hch : ¬ (batch.history ≠ info.history ∨ batch.first ≠ cursor+1 ∨ byteLimit < bytes+batch.raw.length) := by
        push Not
        exact ⟨hhs,hfs,by omega⟩
      rw [if_neg hl,hf,hfd,if_neg hch]
      simp only [post_bind]
      refine post_check_ok (congrArg (Except.mapError _) hb) ?_
      rw [if_neg (by omega)]
      simp only [post_bind]
      refine post_applySink_fair (hr.fair hfa) ?_ ?_
      · have hs : ∀ answer ∈ c.sink.tail, answer ∈ c.sink := fun _ h => mem_of_mem_tail h
        refine (ih (fun other ho => hv other (mem_cons_of_mem _ ho)) hrest (by rw [totalRaw]; omega)
          (fun e he => hfa e (hs _ he)) hp).mono ?_ ?_
        · rintro cursor' c' ⟨rfl,hs',hp',hr',hh,hc'⟩
          refine ⟨rfl,?_,hp',?_,⟨hh.info,hh.knownBarrier,hh.poisoned⟩,fun h => ?_⟩
          · rw [hst,hfr,append_assoc,← hs']
          · exact ⟨hr'.peer.trans hr.peer,fun answer h => hs _ (hr'.sink answer h)⟩
          · exact hc' ⟨(hc h).stops,by simp [h.sink]⟩
        · rintro e c' ⟨hrf,hr',hfu⟩
          refine ⟨hrf,?_,fun h heq => hfu ⟨(hc h).stops,by simp [h.sink]⟩ ?_⟩
          · exact ⟨hr'.peer.trans hr.peer,fun answer h => hs _ (hr'.sink answer h)⟩
          · rw [hst,hfr,append_assoc] at heq
            exact append_cancel_left heq
      · intro e hrf hn
        refine ⟨hrf,⟨hr.peer,fun _ h => mem_of_mem_tail h⟩,fun h => absurd (hc h) hn⟩
    · intro e l hrf hr hfu
      refine ⟨hrf,hr,?_⟩
      rw [hfr,append_assoc]
      exact hfu

/-- What an honest reading comes to: all of the answer is read, or its failure is no refusal; and when nothing
disturbs the client, only a part of the answer makes it fail. -/
structure PhysicalClient.Accepted (c : PhysicalClient σ) (response : Bytes) (c' : PhysicalClient σ) : Prop where
  whole : c.io.input = response
  input : c'.io.input = []
  reads : c.Reads c'
  calm : c.Calm → c'.Calm

structure PhysicalClient.Unrefused (c : PhysicalClient σ) (response : Bytes) (e : WireError) (c' : PhysicalClient σ) :
    Prop where
  refusal : e.isRefusal = false
  reads : c.Reads c'
  calm : c.Calm → c.io.input ≠ response

theorem receivePoll_honest (hsh : ∀ bytes, (sha256 bytes).length = 32)
    (hft : Uuid.Fits info.history) {after known : Nat} {poll : PhysicalPoll}
    (hp : GoodPoll sha256 info.history after byteLimit known poll) (hl : byteLimit ≤ maxBatchBytes)
    (hkn : c.knownBarrier ≤ known) (hfr : c.SinkFair) (hi : c.io.input <+: pollResponse poll) :
    Post (receivePoll sha256 info after byteLimit) c
      (fun _ c' => c.Accepted (pollResponse poll) c' ∧ c'.info = c.info ∧ c'.knownBarrier = poll.durableBarrier)
      (fun e c' => c.Unrefused (pollResponse poll) e c') := by
  have hsz : Kind.pollStart.validSize poll.summary.encode.length = true := by
    rw [PollSummary.length_encode]
    rfl
  have hs : Kind.pollEnd.validSize poll.summary.encode.length = true := hsz
  have hsq : maxSourceSequence < 256^8 := by decide
  have hm : maxBatchBytes = 67108864 := rfl
  have hdc : PollSummary.decode poll.summary.encode = .ok poll.summary := by
    have hth := hp.through
    have hbd := hp.bound
    have hcn := hp.length_le
    refine PollSummary.decode_encode (Nat.lt_of_le_of_lt (hth.trans hbd) hsq)
      (Nat.lt_of_le_of_lt hbd hsq) ?_
    show poll.batches.length < 256^4
    omega
  simp only [receivePoll,post_bind]
  refine post_onLink_honest (by simp) hsz hi ?_ (fun e l hrf hr hf => ⟨hrf,hr,hf⟩)
  intro l hst hpr hr hc
  refine post_check_ok hdc ?_
  rw [post_get]
  refine post_check_ok (hp.validateSince hkn) ?_
  have hb := hp.bytes
  refine (readBatches_honest hsh hft (Nat.le_refl _) hp.valid hp.contiguous (by omega) (hr.fair hfr)
    hpr).mono ?_ ?_
  · rintro cursor c₁ ⟨rfl,hs₁,hp₁,hr₁,hh₁,hc₁⟩
    refine post_onLink_last (by simp) hs hp₁ ?_ ?_
    · intro l₂ hs₂ he hr₂ hc₂
      refine post_check_ok hdc ?_
      rw [if_neg (by simp [PhysicalPoll.summary]),post_bind,post_modify,post_pure]
      have hw : c.io.input = pollResponse poll := by
        rw [hst,hs₁,hs₂,pollResponse]
      have hd := (hr.trans hr₁).trans hr₂
      have hqt : c.Calm → Calm { c₁ with io := l₂ } := fun h => hc₂ (hc₁ (hc h))
      exact ⟨⟨hw,he,⟨hd.peer,hd.sink⟩,fun h => ⟨(hqt h).stops,(hqt h).sink⟩⟩,hh₁.info,rfl⟩
    · intro e l₂ hrf hr₂ hf
      refine ⟨hrf,(hr.trans hr₁).trans hr₂,fun h heq => hf (hc₁ (hc h)) ?_⟩
      rw [hst,hs₁,pollResponse] at heq
      exact append_cancel_left (append_cancel_left heq)
  · rintro e c₁ ⟨hrf,hr₁,hf⟩
    refine ⟨hrf,hr.trans hr₁,fun h heq => hf (hc h) ?_⟩
    rw [hst,pollResponse] at heq
    exact append_cancel_left heq

theorem receiveChunk_honest (hs : ∀ bytes, (sha256 bytes).length = 32) {manifest : CheckpointManifest}
    (hid : Uuid.Fits manifest.snapshotId) {index offset : Nat} {bytes : Bytes} (hi : index < 256^4)
    (ho : offset < 256^8) (hmn : 1 ≤ bytes.length) (hm : bytes.length ≤ maxChunkBytes)
    (hin : c.io.input <+: chunkResponse sha256 manifest.snapshotId index offset bytes) :
    Post (receiveChunk sha256 manifest index offset bytes.length) c
      (fun _ c' => c.Accepted (chunkResponse sha256 manifest.snapshotId index offset bytes) c' ∧ c.Held c')
      (fun e c' => c.Unrefused (chunkResponse sha256 manifest.snapshotId index offset bytes) e c') := by
  have hl := chunkPayload_length hs manifest.snapshotId index offset bytes
  have hsz : Kind.chunk.validSize (chunkPayload sha256 manifest.snapshotId index offset bytes).length = true := by
    rw [hl]
    simp only [Kind.validSize,Bool.and_eq_true,decide_eq_true_eq]
    omega
  have hfd : uuidAt (chunkPayload sha256 manifest.snapshotId index offset bytes) 0 = .ok manifest.snapshotId := by
    unfold uuidAt chunkPayload
    exact @fieldAt_beBytes _ [] (beBytes 4 index ++ (beBytes 8 offset ++ (sha256 bytes ++ bytes))) 16 0 _ (by simp)
      (by simp) hid
  have hfl : u32At (chunkPayload sha256 manifest.snapshotId index offset bytes) 16 = .ok index := by
    unfold u32At chunkPayload
    exact @fieldAt_beBytes _ (beBytes 16 manifest.snapshotId) (beBytes 8 offset ++ (sha256 bytes ++ bytes)) 4 16 index
      (by simp) (length_beBytes 16 _) hi
  have hf : u64At (chunkPayload sha256 manifest.snapshotId index offset bytes) 20 = .ok offset := by
    unfold u64At chunkPayload
    exact @fieldAt_beBytes _ (beBytes 16 manifest.snapshotId ++ beBytes 4 index) (sha256 bytes ++ bytes) 8 20 offset
      (by simp) (by simp [length_beBytes]) ho
  have hd : ((chunkPayload sha256 manifest.snapshotId index offset bytes).drop 28).take 32 = sha256 bytes := by
    rw [chunkPayload,← append_assoc,← append_assoc,drop_left' (by simp [length_beBytes]),
      take_left' (hs bytes)]
  have hb : (chunkPayload sha256 manifest.snapshotId index offset bytes).drop chunkMeta = bytes := by
    rw [chunkPayload,← append_assoc,← append_assoc,← append_assoc,
      drop_left' (by simp [length_beBytes,hs,chunkMeta])]
  simp only [receiveChunk,post_bind]
  refine post_onLink_last (by simp) hsz hin ?_ (fun e l hrf hr hfu => ⟨hrf,hr,hfu⟩)
  intro l hst he hr hc
  refine post_check_ok hfd (post_check_ok hfl (post_check_ok hf ?_))
  rw [if_neg (by simp [hb,hd,hl]),post_pure]
  exact ⟨⟨hst,he,hr,hc⟩,⟨rfl,rfl,rfl⟩⟩

section
variable {τ : Type} {source : PhysicalSource τ} {history : Uuid} {barrier : τ → Nat} {t : τ} {info : SourceSessionInfo}

theorem receiveManifest_honest (h : Opened source json limits history barrier .snapshot info t) {expectedHistory : Option Uuid}
    (hexpd : ∀ expected, expectedHistory = some expected → expected = history)
    (hi : c.io.input <+: openResponse json info) : Post (receiveManifest json limits expectedHistory) c
      (fun _ c' => c.Accepted (openResponse json info) c' ∧ c'.info = some info ∧ c'.knownBarrier = info.initialBarrier)
      (fun e c' => c.Unrefused (openResponse json info) e c') := by
  cases info with
  | resume => cases h.valid
  | snapshot m =>
    obtain ⟨-,hm,htx⟩ := h.text m rfl
    have hv : m.validate limits.transfer = .ok () := mapError_eq_ok.mp h.valid
    have hd : CheckpointManifest.decode json (json.toVec m) limits.transfer = .ok m := by
      rw [CheckpointManifest.decode,if_neg (Nat.not_lt.mpr hm),htx]
      show (do m.validate limits.transfer; Except.ok m) = Except.ok m
      rw [hv]
      rfl
    have hh : ¬ (expectedHistory.any fun expected => expected ≠ m.history) = true := by
      cases expectedHistory with
      | none => simp
      | some expected =>
        have hsame : m.history = history := h.history
        simp [hexpd expected rfl,hsame]
    simp only [receiveManifest,post_bind]
    refine post_onLink_last (by simp [response]) h.response_size hi ?_ (fun e l hrf hr hf => ⟨hrf,hr,hf⟩)
    intro l hs he hr hcl
    refine post_check_ok (congrArg (Except.mapError WireError.protocol) hd) ?_
    rw [if_neg hh,post_bind,post_modify,post_pure]
    exact ⟨⟨hs,he,⟨hr.peer,hr.sink⟩,fun hc => ⟨(hcl hc).stops,(hcl hc).sink⟩⟩,rfl,rfl⟩

theorem receiveResume_honest {after : Nat} (h : Opened source json limits history barrier (.resume history after) info t)
    (hft : Uuid.Fits history) (hin : c.io.input <+: openResponse json info) : Post (receiveResume limits history after) c
      (fun _ c' => c.Accepted (openResponse json info) c' ∧ c'.info = some info ∧ c'.knownBarrier = info.initialBarrier)
      (fun e c' => c.Unrefused (openResponse json info) e c') := by
  cases info with
  | snapshot => cases h.valid
  | resume sessionId found initialAfter durableBarrier =>
    obtain ⟨-,-,hfn,haf,hbr,hm⟩ := validate_resume h.valid
    have hs : maxSourceSequence < 256^8 := by decide
    have ha : initialAfter < 256^8 := by
      have hle : initialAfter ≤ durableBarrier := by rw [show initialAfter = after from haf]; exact hbr
      exact Nat.lt_of_le_of_lt (hle.trans hm) hs
    have hb : durableBarrier < 256^8 := Nat.lt_of_le_of_lt hm hs
    have hf : Uuid.Fits found := by rwa [show found = history from hfn]
    -- the four fields of the frame, one behind the other
    have hid : uuidAt (response json (.resume sessionId found initialAfter durableBarrier)).2 0 =
        .ok sessionId := by
      unfold uuidAt response
      exact @fieldAt_beBytes _ [] (beBytes 16 found ++ (beBytes 8 initialAfter ++ beBytes 8 durableBarrier)) 16 0 sessionId
        (by simp) (by simp) h.fits
    have hh : uuidAt (response json (.resume sessionId found initialAfter durableBarrier)).2 16 =
        .ok found := by
      unfold uuidAt response
      exact @fieldAt_beBytes _ (beBytes 16 sessionId) (beBytes 8 initialAfter ++ beBytes 8 durableBarrier) 16 16 found
        (by simp) (length_beBytes 16 _) hf
    have hi : u64At (response json (.resume sessionId found initialAfter durableBarrier)).2 32 =
        .ok initialAfter := by
      unfold u64At response
      exact @fieldAt_beBytes _ (beBytes 16 sessionId ++ beBytes 16 found) (beBytes 8 durableBarrier) 8 32 initialAfter
        (by simp) (by simp [length_beBytes]) ha
    have hd : u64At (response json (.resume sessionId found initialAfter durableBarrier)).2 40 =
        .ok durableBarrier := by
      unfold u64At response
      exact @fieldAt_beBytes _ (beBytes 16 sessionId ++ (beBytes 16 found ++ beBytes 8 initialAfter)) [] 8 40 durableBarrier
        (by simp) (by simp [length_beBytes]) hb
    simp only [receiveResume,post_bind]
    refine post_onLink_last (by simp [response]) h.response_size hin ?_
      (fun e l hrf hr hfl => ⟨hrf,hr,hfl⟩)
    intro l hst he hr hcl
    refine post_check_ok hid (post_check_ok hh (post_check_ok hi (post_check_ok hd ?_)))
    refine post_check_ok h.valid ?_
    rw [post_modify,post_pure]
    exact ⟨⟨hst,he,⟨hr.peer,hr.sink⟩,fun hc => ⟨(hcl hc).stops,(hcl hc).sink⟩⟩,rfl,rfl⟩

end

end
end HeliosNano.Replication
