import HeliosNano.Replication.PhysicalRuns
import HeliosNano.Replication.WireClient

namespace HeliosNano.Replication
open Foundation Storage List PhysicalBatch

/-- The batch is what its own history, position, bytes and digest decode to. -/
def PhysicalBatch.Valid (sha256 : Bytes → Bytes) (batch : PhysicalBatch) : Prop :=
  decode sha256 batch.history batch.first batch.raw batch.digest = .ok batch
deriving Decidable

def PhysicalBatch.sequences (batch : PhysicalBatch) : List Nat := List.range' batch.first (batch.last+1-batch.first)

def totalRaw (batches : List PhysicalBatch) : Nat := (batches.map fun batch => batch.raw.length).sum

/-- The batches are an interval of a history: its sequence numbers are those after `after` up to `through`,
each once and in order. -/
structure Interval (sha256 : Bytes → Bytes) (history : Uuid) (after through byteLimit : Nat)
    (batches : List PhysicalBatch) : Prop where
  valid : ∀ batch ∈ batches, batch.Valid sha256 ∧ batch.history = history
  sequences : batches.flatMap sequences = List.range' (after+1) (through-after)
  bytes : totalRaw batches ≤ byteLimit

theorem contiguous_sequences {after through : Nat} {batches : List PhysicalBatch} (h : Contiguous after batches through) :
    batches.flatMap sequences = List.range' (after+1) (through-after) := by
  induction batches generalizing after with
  | nil =>
    rw [Contiguous] at h
    simp [h]
  | cons batch rest ih =>
    obtain ⟨hf,hle,hrest⟩ := h
    obtain ⟨hth,-⟩ := contiguous_mem hrest
    rw [flatMap_cons,ih hrest,sequences,hf]
    obtain ⟨width,hw⟩ : ∃ width, batch.last = after+width := ⟨batch.last-after,by omega⟩
    have hc : batch.last+1-(after+1) = width := by omega
    have hn : batch.last+1 = after+1+width := by omega
    have hs : through-after = width+(through-batch.last) := by omega
    rw [hc,hn,hs,range'_append_1]

variable {sha256 : Bytes → Bytes}

theorem chunkPayload_of_fields {payload : Bytes} {snapshotId index offset : Nat}
    (hid : uuidAt payload 0 = .ok snapshotId) (hi : u32At payload 16 = .ok index)
    (ho : u64At payload 20 = .ok offset) (hd : sha256 (payload.drop chunkMeta) = (payload.drop 28).take 32) :
    payload = chunkPayload sha256 snapshotId index offset (payload.drop chunkMeta) := by
  have hid' : payload.take 16 = beBytes 16 snapshotId := by simpa using take_of_fieldAt hid
  rw [chunkPayload,← hid',← take_of_fieldAt hi,← take_of_fieldAt ho,hd,chunkMeta,
    take_drop_split payload 28 32,take_drop_split payload 20 8,take_drop_split payload 16 4,
    take_append_drop]

theorem decode_eq_ok {history first : Nat} {raw digest : Bytes} {batch : PhysicalBatch}
    (h : decode sha256 history first raw digest = .ok batch) :
    batch.Valid sha256 ∧ batch.history = history ∧ batch.first = first ∧ batch.raw = raw ∧ batch.digest = digest ∧
      batch.first ≤ batch.last := by
  have hs := (DecodedBatch.sequences ⟨batch,history,first,raw,digest,h⟩).1
  have hdc := h
  unfold decode at h
  obtain ⟨-,-,h⟩ := bind_eq_ok.mp h
  obtain ⟨⟨count,records⟩,-,h⟩ := bind_eq_ok.mp h
  simp only at h
  split at h
  · cases h
  split at h
  · cases h
  split at h
  · cases h
  next hd =>
    cases h
    push Not at hd
    refine ⟨?_,rfl,rfl,rfl,hd,hs⟩
    rw [Valid]
    simpa only [hd] using hdc

section
variable {σ α : Type} {sha256 : Bytes → Bytes} {json : ManifestJson} {limits : WireLimits} {react : Reaction σ}

/-- The part of a client that an answer of the peer does not change. -/
structure PhysicalClient.Held (c c' : PhysicalClient σ) : Prop where
  info : c'.info = c.info
  knownBarrier : c'.knownBarrier = c.knownBarrier
  poisoned : c'.poisoned = c.poisoned

variable {c : PhysicalClient σ} {ok : α → PhysicalClient σ → Prop} {err : WireError → PhysicalClient σ → Prop}

theorem post_armed {body : Session σ α} : Post (armed body) c ok err ↔ (c.poisoned = true → err .poisoned c) ∧
      (c.poisoned = false → Post body { c with poisoned := true } (fun a c' => ok a { c' with poisoned := false }) err) := by
  unfold armed
  simp only [post_bind,post_get]
  cases hp : c.poisoned <;> simp

theorem post_onLink {x : Exchange σ α} (hok : ∀ a l, ok a { c with io := l }) (he : ∀ e l, err e { c with io := l }) :
    Post (onLink x) c ok err := by
  rw [onLink,post_zoom]
  unfold Post
  split
  · exact hok _ _
  · exact he _ _

theorem post_onLink_read {allowed : List Kind} {ok : Frame → PhysicalClient σ → Prop}
    (hok : ∀ frame l, frame.kind ∈ allowed → frame.kind.validSize frame.payload.length = true →
      c.io.input = frameBytes frame.kind frame.payload ++ l.input → ok frame { c with io := l })
    (he : ∀ e l, err e { c with io := l }) : Post (onLink (readFrame allowed)) c ok err := by
  rw [onLink,post_zoom]
  refine (readFrame_post allowed c.io).mono ?_ (fun e l _ => he e l)
  rintro frame l ⟨hk,hs,hi,-⟩
  exact hok frame l hk hs hi

theorem post_onLink_write {kind : Kind} {payload : Bytes} {ok : Unit → PhysicalClient σ → Prop}
    (hok : ∀ l answer, l.input = c.io.input ++ answer → ok () { c with io := l })
    (he : ∀ e l, err e { c with io := l }) : Post (onLink (writeFrame react kind payload)) c ok err := by
  rw [onLink,post_zoom]
  by_cases hs : kind.validSize payload.length = true
  · refine (writeFrame_post hs).mono ?_ (fun e l _ => he e l)
    rintro _ l rfl
    exact hok _ (react c.io.peer (frameBytes kind payload)).2 rfl
  · rw [writeFrame,if_neg hs]
    exact post_throw.mpr (he _ _)

theorem post_check {r : Except WireError α} (hok : ∀ a, r = .ok a → ok a c) (he : ∀ e, err e c) :
    Post (fromExcept r) c ok err :=
  post_fromExcept.mpr ⟨hok,fun e _ => he e⟩

theorem post_applySink {batch : PhysicalBatch} {ok : Unit → PhysicalClient σ → Prop}
    (hok : ok () { c with given := c.given ++ [batch], sink := c.sink.tail })
    (he : ∀ e, err e { c with given := c.given ++ [batch], sink := c.sink.tail }) : Post (applySink batch) c ok err := by
  unfold Post applySink
  split
  next h =>
    split at h
    · cases h
    · cases h
      exact hok
  next h =>
    split at h
    · cases h
      exact he _
    · cases h

theorem readBatches_post {info : SourceSessionInfo} {through byteLimit : Nat} (batches cursor bytes : Nat)
    (hcs : cursor ≤ through) (hbt : bytes ≤ byteLimit) (c : PhysicalClient σ) :
    Post (readBatches sha256 info through byteLimit batches cursor bytes) c
      (fun cursor' c' => c.Held c' ∧ ∃ taken, c'.given = c.given ++ taken ∧ taken.length = batches ∧
        Contiguous cursor taken cursor' ∧ (∀ batch ∈ taken, batch.Valid sha256 ∧ batch.history = info.history) ∧
        bytes + totalRaw taken ≤ byteLimit) (fun _ c' => c.Held c') := by
  induction batches generalizing cursor bytes c with
  | zero => exact post_pure.mpr ⟨⟨rfl,rfl,rfl⟩,[],by simp,rfl,rfl,by simp,by simpa [totalRaw] using hbt⟩
  | succ batches ih =>
    rw [readBatches,post_bind]
    refine post_onLink_read (fun frame l _ _ _ => ?_) (fun _ _ => ⟨rfl,rfl,rfl⟩)
    rw [post_bind]
    refine post_check (fun history _ => ?_) (fun _ => ⟨rfl,rfl,rfl⟩)
    rw [post_bind]
    refine post_check (fun first _ => ?_) (fun _ => ⟨rfl,rfl,rfl⟩)
    split
    · exact post_throw.mpr ⟨rfl,rfl,rfl⟩
    dsimp only
    split
    · exact post_throw.mpr ⟨rfl,rfl,rfl⟩
    next hc =>
      push Not at hc
      obtain ⟨hhs,hf,hl⟩ := hc
      rw [post_bind]
      refine post_check (fun batch hb => ?_) (fun _ => ⟨rfl,rfl,rfl⟩)
      obtain ⟨hv,rfl,rfl,hr,-,hle⟩ := decode_eq_ok (mapError_eq_ok.mp hb)
      split
      · exact post_throw.mpr ⟨rfl,rfl,rfl⟩
      next hth =>
        rw [post_bind]
        refine post_applySink ?_ (fun _ => ⟨rfl,rfl,rfl⟩)
        refine (ih batch.last _ (Nat.not_lt.mp hth) hl _).mono ?_ (fun _ _ h => ⟨h.info,h.knownBarrier,h.poisoned⟩)
        rintro cursor' c' ⟨hh,taken,hg,hln,hct,htk,htt⟩
        refine ⟨⟨hh.info,hh.knownBarrier,hh.poisoned⟩,batch::taken,?_,by simp [hln],⟨hf,hle,hct⟩,?_,?_⟩
        · rw [hg,append_assoc]
          rfl
        · rintro other hother
          obtain rfl | hother := mem_cons.mp hother
          · exact ⟨hv,hhs⟩
          · exact htk other hother
        · rw [← hr] at htt
          simp only [totalRaw,map_cons,sum_cons] at htt ⊢
          omega

/-- The session stays the one it is, and its barrier does not go back. -/
def PhysicalClient.Forward (c c' : PhysicalClient σ) : Prop :=
  ∀ info, c.info = some info → c'.info = some info ∧ c.knownBarrier ≤ c'.knownBarrier

theorem PhysicalClient.Held.forward {c c' : PhysicalClient σ} (h : c.Held c') : c.Forward c' := by
  intro info hi
  exact ⟨h.info.trans hi,Nat.le_of_eq h.knownBarrier.symm⟩

theorem post_of_held {body : Session σ α}
    (h : (∀ c', PhysicalClient.Held { c with poisoned := true } c' → c.Forward c' ∧ c'.poisoned = true) →
      (∀ l, c.Forward { c with poisoned := true, io := l } ∧ true = true) →
      Post body { c with poisoned := true } (fun a c' => ok a { c' with poisoned := false })
        fun _ c' => c.Forward c' ∧ c'.poisoned = true) :
    Post (armed body) c ok fun _ c' => c.Forward c' ∧ c'.poisoned = true := by
  refine post_armed.mpr ⟨fun hp => ⟨fun info hi => ⟨hi,Nat.le_refl _⟩,hp⟩,fun _ => h ?_ ?_⟩
  · exact fun c' hh => ⟨fun info hi => hh.forward info hi,hh.poisoned⟩
  · exact fun l => ⟨fun info hi => ⟨hi,Nat.le_refl _⟩,rfl⟩

def Sound (sha256 : Bytes → Bytes) (c c' : PhysicalClient σ) : Call → Answer → Prop
  | .fetchManifest _, .manifest manifest =>
    c.info = none ∧ c'.info = some (.snapshot manifest) ∧ c'.knownBarrier = manifest.checkpointSequence
  | .resume history after, .session info =>
    c.info = none ∧ c'.info = some info ∧ c'.knownBarrier = info.initialBarrier ∧ info.history = history ∧
      info.initialAfter = after ∧ after ≤ info.initialBarrier
  | .readChunk index offset length, .chunk bytes =>
    bytes.length = length ∧ ∃ manifest answer, c.info = some (.snapshot manifest) ∧
      c.io.input ++ answer = frameBytes .chunk (chunkPayload sha256 manifest.snapshotId index offset bytes) ++ c'.io.input
  | .poll after byteLimit, .summary s =>
    (∃ info batches, c.info = some info ∧ c'.given = c.given ++ batches ∧ batches.length = s.batches ∧
      Interval sha256 info.history after s.through byteLimit batches) ∧
    after ≤ s.through ∧ s.through ≤ s.durableBarrier ∧ c.knownBarrier ≤ s.durableBarrier ∧
    c'.knownBarrier = s.durableBarrier
  | _, _ => False

theorem poll_post (after byteLimit : Nat) (c : PhysicalClient σ) : Post (poll sha256 react after byteLimit) c
      (fun s c' => Sound sha256 c c' (.poll after byteLimit) (.summary s) ∧ c.Forward c' ∧ c'.poisoned = false)
      (fun _ c' => c.Forward c' ∧ c'.poisoned = true) := by
  refine post_of_held fun hh hsame => ?_
  simp only [post_bind,post_get]
  split
  · exact post_throw.mpr (hsame _)
  next info hi =>
    split
    · exact post_throw.mpr (hsame _)
    rw [post_bind]
    refine post_onLink (fun _ _ => ?_) (fun _ _ => hsame _)
    rw [receivePoll,post_bind]
    refine post_onLink (fun frame _ => ?_) (fun _ _ => hsame _)
    rw [post_bind]
    refine post_check (fun summary _ => ?_) (fun _ => hsame _)
    simp only [post_bind,post_get]
    refine post_check (fun _ hv => ?_) (fun _ => hsame _)
    obtain ⟨hs,hkn⟩ := PollSummary.validateSince_eq_ok hv
    obtain ⟨ha,hb,-⟩ := PollSummary.validate_eq_ok hs
    refine (readBatches_post summary.batches after 0 ha (Nat.zero_le _) _).mono ?_
      (fun _ c' h => hh c' ⟨h.info,h.knownBarrier,h.poisoned⟩)
    rintro cursor c' ⟨hc',taken,hg,hl,hc,htk,htt⟩
    refine post_onLink (fun last l => ?_) (fun _ _ => hh _ ⟨hc'.info,hc'.knownBarrier,hc'.poisoned⟩)
    refine post_check (fun ending _ => ?_) (fun _ => hh _ ⟨hc'.info,hc'.knownBarrier,hc'.poisoned⟩)
    split
    · exact post_throw.mpr (hh _ ⟨hc'.info,hc'.knownBarrier,hc'.poisoned⟩)
    next he =>
      push Not at he
      rw [he.2] at hc
      have hinterval : Interval sha256 info.history after summary.through byteLimit taken :=
        ⟨htk,contiguous_sequences hc,by omega⟩
      rw [post_bind,post_modify,post_pure]
      refine ⟨⟨⟨info,taken,hi,hg,hl,hinterval⟩,ha,hb,hkn,rfl⟩,?_,trivial⟩
      intro other ho
      refine ⟨?_,hkn⟩
      exact hc'.info.trans ho

theorem readChunk_post (index offset length : Nat) (c : PhysicalClient σ) :
    Post (readChunk sha256 limits react index offset length) c
      (fun bytes c' => Sound sha256 c c' (.readChunk index offset length) (.chunk bytes) ∧ c.Forward c' ∧ c'.poisoned = false)
      (fun _ c' => c.Forward c' ∧ c'.poisoned = true) := by
  refine post_of_held fun _ hsame => ?_
  simp only [post_bind,post_get]
  split
  · exact post_throw.mpr (hsame _)
  next manifest hm =>
    have hi : c.info = some (.snapshot manifest) := eq_snapshot_of_manifest hm
    simp only [post_bind]
    refine post_check (fun _ _ => ?_) (fun _ => hsame _)
    refine post_onLink_write (fun l answer hl => ?_) (fun _ _ => hsame _)
    simp only [receiveChunk,post_bind]
    refine post_onLink_read (fun frame l' hk _ hin => ?_) (fun _ _ => hsame _)
    refine post_check (fun snapshotId hid => ?_) (fun _ => hsame _)
    refine post_check (fun foundIndex hix => ?_) (fun _ => hsame _)
    refine post_check (fun foundOffset ho => ?_) (fun _ => hsame _)
    dsimp only
    split
    · exact post_throw.mpr (hsame _)
    next hc =>
      push Not at hc
      obtain ⟨⟨rfl,rfl,rfl,hln⟩,hd⟩ := hc
      rw [post_pure]
      refine ⟨⟨?_,manifest,answer,hi,?_⟩,?_,trivial⟩
      · rw [length_drop,hln]
        omega
      · rw [← hl,hin,← chunkPayload_of_fields hid hix ho hd]
        rw [mem_singleton.mp hk]
      · intro other hoh
        exact ⟨hoh,Nat.le_refl _⟩

theorem fetchManifest_post (expectedHistory : Option Uuid) (c : PhysicalClient σ) :
    Post (fetchManifest json limits react expectedHistory) c
      (fun manifest c' => Sound sha256 c c' (.fetchManifest expectedHistory) (.manifest manifest) ∧ c.Forward c' ∧
        c'.poisoned = false) (fun _ c' => c.Forward c' ∧ c'.poisoned = true) := by
  refine post_of_held fun _ hsame => ?_
  simp only [post_bind,post_get]
  split
  · exact post_throw.mpr (hsame _)
  next hi =>
    have hn : c.info = none := by simpa using hi
    simp only [post_bind]
    refine post_check (fun _ _ => ?_) (fun _ => hsame _)
    refine post_onLink (fun _ _ => ?_) (fun _ _ => hsame _)
    simp only [receiveManifest,post_bind]
    refine post_onLink (fun _ _ => ?_) (fun _ _ => hsame _)
    refine post_check (fun manifest _ => ?_) (fun _ => hsame _)
    split
    · exact post_throw.mpr (hsame _)
    rw [post_bind,post_modify,post_pure]
    refine ⟨⟨hn,rfl,rfl⟩,?_,trivial⟩
    intro info hs
    rw [hn] at hs
    cases hs

theorem resume_post (history : Uuid) (after : Nat) (c : PhysicalClient σ) : Post (resume limits react history after) c
      (fun info c' => Sound sha256 c c' (.resume history after) (.session info) ∧ c.Forward c' ∧ c'.poisoned = false)
      (fun _ c' => c.Forward c' ∧ c'.poisoned = true) := by
  refine post_of_held fun _ hsame => ?_
  simp only [post_bind,post_get]
  split
  · exact post_throw.mpr (hsame _)
  next hi =>
    have hn : c.info = none := by simpa using hi
    simp only [post_bind]
    refine post_check (fun _ _ => ?_) (fun _ => hsame _)
    refine post_onLink (fun _ _ => ?_) (fun _ _ => hsame _)
    simp only [receiveResume,post_bind]
    refine post_onLink (fun _ _ => ?_) (fun _ _ => hsame _)
    refine post_check (fun sessionId _ => ?_) (fun _ => hsame _)
    refine post_check (fun found _ => ?_) (fun _ => hsame _)
    refine post_check (fun initialAfter _ => ?_) (fun _ => hsame _)
    refine post_check (fun durableBarrier _ => ?_) (fun _ => hsame _)
    dsimp only
    refine post_check (fun _ hv => ?_) (fun _ => hsame _)
    obtain ⟨-,-,rfl,rfl,hb,-⟩ := SourceSessionInfo.validate_resume hv
    rw [post_modify,post_pure]
    refine ⟨⟨hn,rfl,rfl,rfl,rfl,hb⟩,?_,trivial⟩
    intro info hs
    rw [hn] at hs
    cases hs

/-- One call: what it did if it was answered, and in any case a session that goes forward and a client that is
poisoned exactly when the call failed. -/
theorem perform_post (call : Call) (c : PhysicalClient σ) : Post (call.perform sha256 json limits react) c
      (fun answer c' => Sound sha256 c c' call answer ∧ c.Forward c' ∧ c'.poisoned = false)
      (fun _ c' => c.Forward c' ∧ c'.poisoned = true) := by
  cases call with
  | fetchManifest expectedHistory => exact post_map.mpr (fetchManifest_post expectedHistory c)
  | resume history after => exact post_map.mpr (resume_post history after c)
  | readChunk index offset length => exact post_map.mpr (readChunk_post index offset length c)
  | poll after byteLimit => exact post_map.mpr (poll_post after byteLimit c)

variable (hp : c.poisoned = true)
include hp

theorem perform_poisoned (call : Call) : call.perform sha256 json limits react c = .error .poisoned c := by
  have ha {β : Type} (body : Session σ β) : armed body c = .error .poisoned c := by
    rw [armed,get_bind,if_pos hp,throw_apply]
  cases call <;>
    simp only [Call.perform,fetchManifest,resume,readChunk,poll,Functor.map,EStateM.map,ha]

theorem close_poisoned : close react c = .error .poisoned c := by
  rw [close,get_bind,if_pos hp,throw_apply]

theorem run_poisoned (calls : List Call) : run (callStep sha256 json limits react) c calls = c := by
  induction calls with
  | nil => rfl
  | cons call calls ih =>
    have hs : callStep sha256 json limits react c call = c := by
      rw [callStep,finalState,perform_poisoned hp]
    rw [run,foldl_cons,hs]
    exact ih

omit hp

theorem forward_run (calls : List Call) (c : PhysicalClient σ) : c.Forward (run (callStep sha256 json limits react) c calls) := by
  induction calls generalizing c with
  | nil => exact fun info hi => ⟨hi,Nat.le_refl _⟩
  | cons call calls ih =>
    intro info hi
    have hs : c.Forward (callStep sha256 json limits react c call) := by
      obtain ⟨hok,he⟩ := post_iff_outcome.mp (@perform_post _ _ json _ _ call c)
      cases ho : outcome (call.perform sha256 json limits react) c with
      | ok answer => exact (hok answer ho).2.1
      | error e => exact (he e ho).1
    obtain ⟨hi',hle⟩ := hs info hi
    obtain ⟨hi'',hle'⟩ := ih _ info hi'
    exact ⟨hi'',hle.trans hle'⟩

end
end HeliosNano.Replication
