import HeliosNano.Foundation.Lru
import HeliosNano.Foundation.Runs
import HeliosNano.Storage.VersionKeys
import HeliosNano.Sync.VectorClock

namespace HeliosNano.Sync.Protocol
open Foundation Storage List Function Option Prod

def protocolVersion : Nat := 1
def maxMessageSize : Nat := 1048576
def defaultBatchSize : Nat := 1000

def processedMessagesCapacity : Nat := 100

inductive ChangeOperation
  | insert
  | update
  | delete
deriving DecidableEq

structure ChangeEntry where
  lsn : Nat
  table : String
  operation : ChangeOperation
  key : Bytes
  data : Bytes
  vector_clock : VectorClock
  timestamp : Int
  checksum : Nat
  compressed : Bool
deriving DecidableEq

inductive ConflictType
  | concurrentUpdate
  | deletedOnServer
  | uniqueConstraintViolation
deriving DecidableEq

structure ConflictReport where
  lsn : Nat
  table : String
  key : Bytes
  conflict_type : ConflictType
  description : String
deriving DecidableEq

inductive SyncError
  | network (text : String)
  | serialization (text : String)
  | conflictResolution (text : String)
  | authentication
  | queueFull
  | invalidMessage (text : String)
  | storage (text : String)
deriving DecidableEq

structure PullRequest where
  message_id : Uuid
  client_id : String
  since_lsn : Nat
  max_entries : Nat
  continuation_token : Option String

structure PushChanges where
  message_id : Uuid
  client_id : String
  changes : List ChangeEntry
  vector_clock : VectorClock

inductive Response
  | pullResponse (request_id : Uuid) (changes : List ChangeEntry) (server_lsn : Nat) (has_more : Bool)
      (continuation_token : Option String) (vector_clock : VectorClock)
  | pushAck (request_id : Uuid) (accepted_lsns : List Nat) (conflicts : List ConflictReport) (server_lsn : Nat)
      (vector_clock : VectorClock)
deriving DecidableEq

/-- The compression, the hash of a change and the serialised size of an answer. -/
structure Externals where
  encode : Bytes → Except String Bytes
  decode : Bytes → Except String Bytes
  hash : Bytes → Bytes → Nat → Nat
  size : Response → Except String Nat

namespace ChangeEntry
variable (x : Externals) (entry : ChangeEntry)

def calculateChecksum : Nat := x.hash entry.key entry.data entry.lsn % 2^32

def verifyChecksum : Bool := entry.checksum == entry.calculateChecksum x

def compress : Except SyncError ChangeEntry :=
  if entry.compressed then .ok entry
  else
    match x.encode entry.data with
    | .error e => .error (.serialization s!"Compression failed: {e}")
    | .ok data =>
      let entry := { entry with data := data, compressed := true }
      .ok { entry with checksum := entry.calculateChecksum x }

def decompress : Except SyncError ChangeEntry :=
  if !entry.compressed then .ok entry
  else
    match x.decode entry.data with
    | .error e => .error (.serialization s!"Decompression failed: {e}")
    | .ok data =>
      let entry := { entry with data := data, compressed := false }
      .ok { entry with checksum := entry.calculateChecksum x }

/-- An entry that does not compress is sent as it is. -/
def compressed? : ChangeEntry :=
  match entry.compress x with
  | .ok entry => entry
  | .error _ => entry

end ChangeEntry

def Response.validateSize (x : Externals) (response : Response) : Except SyncError Unit :=
  match x.size response with
  | .error e => .error (.serialization e)
  | .ok size =>
    if size > maxMessageSize then
      .error (.invalidMessage s!"Message size {size} exceeds maximum {maxMessageSize}")
    else .ok ()

/-- The changes of a push, decompressed, each with its checksum verified. -/
def prepare (x : Externals) : List ChangeEntry → Except SyncError (List ChangeEntry)
  | [] => .ok []
  | change::rest => do
    let change ← if change.compressed then change.decompress x else .ok change
    if change.verifyChecksum x then
      let rest ← prepare x rest
      return change::rest
    else .error (.invalidMessage s!"Checksum mismatch for LSN {change.lsn}")

def withoutConflict (conflicts : List ConflictReport) (changes : List ChangeEntry) : List ChangeEntry :=
  changes.filter fun change => !conflicts.any fun c => c.lsn == change.lsn

structure ClientState where
  client_id : String
  last_sync_lsn : Nat
  vector_clock : VectorClock
  last_heartbeat : Nat
  metadata : List (String × String)
  processed_messages : Lru Uuid Response

namespace ClientState

def new (client_id : String) (last_sync_lsn : Nat) (vector_clock : VectorClock) (now : Nat) : ClientState :=
  ⟨client_id,last_sync_lsn,vector_clock,now,[],.empty processedMessagesCapacity (by decide)⟩

def updateHeartbeat (client : ClientState) (now : Nat) : ClientState := { client with last_heartbeat := now }

def remember (client : ClientState) (message_id : Uuid) (response : Response) : ClientState :=
  { client with processed_messages := client.processed_messages.put message_id response }

end ClientState

abbrev MessageKey := String × Uuid

def PushChanges.name (push : PushChanges) : MessageKey := (push.client_id,push.message_id)

inductive Phase
  | idle
  | pushing (push : PushChanges)
  | accepted (push : PushChanges) (conflicts : List ConflictReport) (changes : List ChangeEntry)
  | appended (push : PushChanges) (conflicts : List ConflictReport) (new_lsns : List Nat)
  | answering (push : PushChanges) (conflicts : List ConflictReport) (new_lsns : List Nat) (server_lsn : Nat)
  | pulling (pull : PullRequest)
  | pulled (pull : PullRequest) (response : Response)

/-- The push that a thread has checked and not yet appended. -/
def Phase.before? : Phase → Option PushChanges
  | .pushing push => some push
  | .accepted push _ _ => some push
  | _ => none

def Phase.after? : Phase → Option PushChanges
  | .appended push _ _ => some push
  | .answering push _ _ _ => some push
  | _ => none

/-- The registered clients and the threads, with the changes that were appended for each push and what its deliveries
were answered. -/
structure World where
  clients : Map String ClientState
  phases : Nat → Phase
  appends : List (MessageKey × List ChangeEntry)
  answers : List (MessageKey × Except SyncError Response)

/-- The steps of the handlers. What the change log and the conflict detector answer is given with the step. -/
inductive Step
  | register (version : Nat) (client_id : String) (last_known_lsn : Nat) (vector_clock : VectorClock)
      (metadata : List (String × String)) (now : Nat)
  | evict (client_id : String)
  | heartbeat (client_id : String) (current_lsn now : Nat)
  | pull (id : Nat) (request : PullRequest)
  | fetch (id : Nat) (changes : Except SyncError (List ChangeEntry)) (server_lsn : Except SyncError Nat)
  | cachePull (id : Nat)
  | push (id : Nat) (message : PushChanges)
  | detect (id : Nat) (conflicts : Except SyncError (List ConflictReport))
  | append (id : Nat) (new_lsns : Except SyncError (List Nat))
  | currentLsn (id : Nat) (server_lsn : Except SyncError Nat)
  | answer (id now : Nat)

namespace World
variable (x : Externals) (node_id : Uuid)

def new : World := ⟨∅,fun _ => .idle,[],[]⟩

def setPhase (w : World) (id : Nat) (phase : Phase) : World := { w with phases := Function.update w.phases id phase }

def finish (w : World) (id : Nat) (name : MessageKey) (result : Except SyncError Response) : World :=
  { w.setPhase id .idle with answers := w.answers ++ [(name,result)] }

def updateClient (w : World) (client_id : String) (f : ClientState → ClientState) : World :=
  match w.clients.lookup client_id with
  | some client => { w with clients := w.clients.insert client_id (f client) }
  | none => w

def notRegistered (client_id : String) : SyncError := .invalidMessage s!"Client not registered: {client_id}"

def pullResponse (pull : PullRequest) (changes : List ChangeEntry) (server_lsn : Nat) : Response :=
  let limit := min pull.max_entries defaultBatchSize
  let offset := (pull.continuation_token.bind fun token => parseUnsigned u64Max (textBytes token)).getD 0
  let has_more := changes.length == limit
  .pullResponse pull.message_id (changes.map (ChangeEntry.compressed? x)) server_lsn has_more
    (if has_more then some (toString (offset+changes.length)) else none) (VectorClock.new.increment node_id)

def step (w : World) : Step → World
  | .register version client_id last_known_lsn vector_clock metadata now =>
    if version ≠ protocolVersion then w
    else
      let client := ClientState.new client_id last_known_lsn vector_clock now
      { w with clients := w.clients.insert client_id ({ client with metadata := metadata }.updateHeartbeat now) }
  | .evict client_id => { w with clients := w.clients.erase client_id }
  | .heartbeat client_id current_lsn now =>
    w.updateClient client_id fun client => { client.updateHeartbeat now with last_sync_lsn := current_lsn }
  | .pull id request =>
    match w.phases id with
    | .idle =>
      match w.clients.lookup request.client_id with
      | none => w
      | some client =>
        match client.processed_messages.peek request.message_id with
        | some _ => w
        | none => w.setPhase id (.pulling request)
    | _ => w
  | .fetch id changes server_lsn =>
    match w.phases id with
    | .pulling request =>
      match changes, server_lsn with
      | .ok changes, .ok server_lsn =>
        let response := pullResponse x node_id request changes server_lsn
        match response.validateSize x with
        | .ok () => w.setPhase id (.pulled request response)
        | .error _ => w.setPhase id .idle
      | _, _ => w.setPhase id .idle
    | _ => w
  | .cachePull id =>
    match w.phases id with
    | .pulled request response =>
      (w.setPhase id .idle).updateClient request.client_id fun client => client.remember request.message_id response
    | _ => w
  | .push id message =>
    match w.phases id with
    | .idle =>
      match w.clients.lookup message.client_id with
      | none => w.finish id message.name (.error (notRegistered message.client_id))
      | some client =>
        match client.processed_messages.peek message.message_id with
        | some response => w.finish id message.name (.ok response)
        | none => w.setPhase id (.pushing message)
    | _ => w
  | .detect id conflicts =>
    match w.phases id with
    | .pushing message =>
      match prepare x message.changes with
      | .error e => w.finish id message.name (.error e)
      | .ok changes =>
        match conflicts with
        | .error e => w.finish id message.name (.error e)
        | .ok conflicts => w.setPhase id (.accepted message conflicts (withoutConflict conflicts changes))
    | _ => w
  | .append id new_lsns =>
    match w.phases id with
    | .accepted message conflicts changes =>
      match new_lsns with
      | .error e => w.finish id message.name (.error e)
      | .ok new_lsns =>
        { w.setPhase id (.appended message conflicts new_lsns) with appends := w.appends ++ [(message.name,changes)] }
    | _ => w
  | .currentLsn id server_lsn =>
    match w.phases id with
    | .appended message conflicts new_lsns =>
      match server_lsn with
      | .error e => w.finish id message.name (.error e)
      | .ok server_lsn => w.setPhase id (.answering message conflicts new_lsns server_lsn)
    | _ => w
  | .answer id now =>
    match w.phases id with
    | .answering message conflicts new_lsns server_lsn =>
      let response :=
        .pushAck message.message_id new_lsns conflicts server_lsn (VectorClock.new.increment node_id)
      (w.updateClient message.client_id fun client =>
        { client with
          last_sync_lsn := server_lsn
          vector_clock := client.vector_clock.merge message.vector_clock
          : ClientState }.updateHeartbeat now |>.remember message.message_id response).finish id message.name (.ok response)
    | _ => w

def Handles (w : World) (id : Nat) (name : MessageKey) : Prop :=
  ∃ push, ((w.phases id).before? = some push ∨ (w.phases id).after? = some push) ∧ push.name = name

/-- A push is checked only when its own acknowledgement is cached, or when no other delivery of it is past its check or
has appended. -/
def Tells (w : World) : Step → Prop
  | .push _ message => ∀ client, w.clients.lookup message.client_id = some client →
    match client.processed_messages.peek message.message_id with
    | some response => (message.name,.ok response) ∈ w.answers
    | none => (∀ id, ¬w.Handles id message.name) ∧ message.name ∉ w.appends.map fst
  | _ => True

def IsAck (name : MessageKey) (response : Response) : Prop :=
  ∃ lsns conflicts lsn clock, response = .pushAck name.2 lsns conflicts lsn clock

structure Sound (w : World) : Prop where
  once : (w.appends.map fst).Nodup
  handler : ∀ id id' name, w.Handles id name → w.Handles id' name → id = id'
  before : ∀ id push, (w.phases id).before? = some push → push.name ∉ w.appends.map fst
  after : ∀ id push, (w.phases id).after? = some push → push.name ∈ w.appends.map fst
  answered : ∀ name response, (name,.ok response) ∈ w.answers →
    name ∈ w.appends.map fst ∧ (∀ id, ¬w.Handles id name) ∧ IsAck name response
  same : ∀ name response response', (name,.ok response) ∈ w.answers → (name,.ok response') ∈ w.answers →
    response = response'

theorem sound_new : new.Sound where
  once := nodup_nil
  handler id id' name h := by simp [Handles,new,Phase.before?,Phase.after?] at h
  before id push h := by cases h
  after id push h := by cases h
  answered name response h := by cases h
  same name response response' h := by cases h

variable {x : Externals} {node_id : Uuid} {w w' : World} {id : Nat}

theorem Sound.congr (hw : w.Sound) (hp : w'.phases = w.phases) (hap : w'.appends = w.appends)
    (ha : w'.answers = w.answers) : w'.Sound := by
  obtain ⟨clients,phases,appends,answers⟩ := w'
  cases hp
  cases hap
  cases ha
  exact ⟨hw.once,hw.handler,hw.before,hw.after,hw.answered,hw.same⟩

theorem updateClient_eq (w : World) (client_id : String) (f : ClientState → ClientState) :
    ∃ clients, w.updateClient client_id f = { w with clients := clients } := by
  rw [updateClient]
  split
  · exact ⟨_,rfl⟩
  · exact ⟨w.clients,rfl⟩

theorem Sound.updateClient (hw : w.Sound) (client_id : String) (f : ClientState → ClientState) :
    (w.updateClient client_id f).Sound := by
  obtain ⟨clients,heq⟩ := updateClient_eq w client_id f
  rw [heq]
  exact hw.congr rfl rfl rfl

variable {name : MessageKey} {response : Response} {message : PushChanges}

theorem handles_setPhase {phase : Phase} {other : Nat} : (w.setPhase id phase).Handles other name ↔
      (other = id ∧ ∃ push, (phase.before? = some push ∨ phase.after? = some push) ∧ push.name = name) ∨
      (other ≠ id ∧ w.Handles other name) := by
  simp only [Handles,setPhase]
  by_cases h : other = id
  · subst h
    simp
  · simp [h]

variable (hw : w.Sound)
include hw

theorem Sound.setPhase {phase : Phase} (hb : ∀ push, phase.before? = some push → (w.phases id).before? = some push)
    (ha : ∀ push, phase.after? = some push → (w.phases id).after? = some push) : (w.setPhase id phase).Sound := by
  have hh : ∀ other name, (w.setPhase id phase).Handles other name → w.Handles other name := by
    intro other name h
    rcases handles_setPhase.mp h with ⟨rfl,push,hp,hn⟩ | ⟨-,h⟩
    · exact ⟨push,hp.imp (hb push) (ha push),hn⟩
    · exact h
  refine ⟨hw.once,fun first second name h h' => hw.handler first second name (hh _ _ h) (hh _ _ h'),?_,?_,
    fun name response h => ?_,hw.same⟩
  · refine (forall_update_iff w.phases fun _ phase => ∀ push, phase.before? = some push →
      push.name ∉ w.appends.map fst).mpr ⟨fun push h => hw.before id push (hb push h),fun other _ => hw.before other⟩
  · refine (forall_update_iff w.phases fun _ phase => ∀ push, phase.after? = some push →
      push.name ∈ w.appends.map fst).mpr ⟨fun push h => hw.after id push (ha push h),fun other _ => hw.after other⟩
  · obtain ⟨hm,hf,hac⟩ := hw.answered name response h
    exact ⟨hm,fun other h' => hf other (hh other name h'),hac⟩

theorem Sound.finish_error (id : Nat) (name : MessageKey) (e : SyncError) : (w.finish id name (.error e)).Sound := by
  have hi := @Sound.setPhase w id hw .idle (by simp [Phase.before?]) (by simp [Phase.after?])
  have hold : ∀ name' response, (name',.ok response) ∈ (w.finish id name (.error e)).answers →
      (name',.ok response) ∈ w.answers := by
    intro name' response h
    simpa [finish] using h
  exact ⟨hi.once,hi.handler,hi.before,hi.after,
    fun name' response h => hi.answered name' response (hold name' response h),
    fun name' r r' h h' => hi.same name' r r' (hold name' r h) (hold name' r' h')⟩

theorem Sound.finish_cached (id : Nat) (hc : (name,.ok response) ∈ w.answers) : (w.finish id name (.ok response)).Sound := by
  have hi := @Sound.setPhase w id hw .idle (by simp [Phase.before?]) (by simp [Phase.after?])
  have hold : ∀ name' response', (name',.ok response') ∈ (w.finish id name (.ok response)).answers →
      (name',.ok response') ∈ w.answers := by
    intro name' response' h
    simp only [finish,mem_append,mem_singleton,Prod.mk.injEq,Except.ok.injEq] at h
    rcases h with h | ⟨rfl,rfl⟩
    · exact h
    · exact hc
  exact ⟨hi.once,hi.handler,hi.before,hi.after,
    fun name' response' h => hi.answered name' response' (hold name' response' h),
    fun name' r r' h h' => hi.same name' r r' (hold name' r h) (hold name' r' h')⟩

theorem Sound.push (hf : ∀ other, ¬w.Handles other message.name)
    (hfr : message.name ∉ w.appends.map fst) : (w.setPhase id (.pushing message)).Sound := by
  have hh : ∀ other name, (w.setPhase id (.pushing message)).Handles other name →
      (other = id ∧ name = message.name) ∨ (other ≠ id ∧ w.Handles other name) := by
    intro other name h
    rcases handles_setPhase.mp h with ⟨rfl,push,hp,hn⟩ | h
    · simp only [Phase.before?,Phase.after?,some.injEq,reduceCtorEq,or_false] at hp
      exact .inl ⟨rfl,by rw [← hn,hp]⟩
    · exact .inr h
  refine ⟨hw.once,fun first second name h h' => ?_,?_,?_,fun name response h => ?_,hw.same⟩
  · rcases hh first name h with ⟨rfl,rfl⟩ | ⟨-,h⟩
    · rcases hh second _ h' with ⟨rfl,-⟩ | ⟨-,h'⟩
      · rfl
      · exact absurd h' (hf second)
    · rcases hh second name h' with ⟨-,rfl⟩ | ⟨-,h'⟩
      · exact absurd h (hf first)
      · exact hw.handler first second name h h'
  · refine (forall_update_iff w.phases fun _ phase => ∀ push, phase.before? = some push →
      push.name ∉ w.appends.map fst).mpr ⟨fun push h => ?_,fun other _ => hw.before other⟩
    cases h
    exact hfr
  · refine (forall_update_iff w.phases fun _ phase => ∀ push, phase.after? = some push →
      push.name ∈ w.appends.map fst).mpr ⟨nofun,fun other _ => hw.after other⟩
  · obtain ⟨hm,hf',ha⟩ := hw.answered name response h
    refine ⟨hm,fun other h' => ?_,ha⟩
    rcases hh other name h' with ⟨-,rfl⟩ | ⟨-,h'⟩
    · exact hfr hm
    · exact hf' other h'

theorem Sound.append {conflicts : List ConflictReport}
    {changes : List ChangeEntry} (hph : w.phases id = .accepted message conflicts changes) (new_lsns : List Nat) :
    World.Sound { w.setPhase id (.appended message conflicts new_lsns) with
      appends := w.appends ++ [(message.name,changes)] } := by
  have hs : w.Handles id message.name := ⟨message,.inl (by rw [hph,Phase.before?]),rfl⟩
  have hfr := hw.before id message (by rw [hph,Phase.before?])
  have hh : ∀ other name, (w.setPhase id (.appended message conflicts new_lsns)).Handles other name →
      w.Handles other name := by
    intro other name h
    rcases handles_setPhase.mp h with ⟨rfl,push,hp,hn⟩ | ⟨-,h⟩
    · simp only [Phase.before?,Phase.after?,some.injEq,reduceCtorEq,false_or] at hp
      rw [← hn,← hp]
      exact hs
    · exact h
  have hm : ∀ name, name ∈ (w.appends ++ [(message.name,changes)]).map fst ↔
      name ∈ w.appends.map fst ∨ name = message.name := by simp
  refine ⟨?_,fun first second name h h' => hw.handler first second name (hh _ _ h) (hh _ _ h'),?_,?_,
    fun name response h => ?_,hw.same⟩
  · rw [map_append,nodup_append]
    refine ⟨hw.once,by simp,?_⟩
    intro name hn name' hn' heq
    simp only [map_singleton,mem_singleton] at hn'
    exact hfr (hn' ▸ heq ▸ hn)
  · refine (forall_update_iff w.phases fun _ phase => ∀ push, phase.before? = some push →
      push.name ∉ (w.appends ++ [(message.name,changes)]).map fst).mpr ⟨nofun,?_⟩
    intro other hne push h
    rw [hm,not_or]
    -- Another thread with the same message would be this one.
    exact ⟨hw.before other push h,fun heq => hne (hw.handler other id message.name ⟨push,.inl h,heq⟩ hs)⟩
  · refine (forall_update_iff w.phases fun _ phase => ∀ push, phase.after? = some push →
      push.name ∈ (w.appends ++ [(message.name,changes)]).map fst).mpr ⟨fun push h => ?_,?_⟩
    · cases h
      exact (hm _).mpr (.inr rfl)
    · intro other _ push h
      exact (hm _).mpr (.inl (hw.after other push h))
  · obtain ⟨hold,hf,ha⟩ := hw.answered name response h
    exact ⟨(hm _).mpr (.inl hold),fun other h' => hf other (hh other name h'),ha⟩

theorem Sound.answer (hph : (w.phases id).after? = some message) (ha : IsAck message.name response) :
    (w.finish id message.name (.ok response)).Sound := by
  have hi := @Sound.setPhase w id hw .idle (by simp [Phase.before?]) (by simp [Phase.after?])
  have hs : w.Handles id message.name := ⟨message,.inr hph,rfl⟩
  -- Nothing was answered to this message while it is handled.
  have hn : ∀ response', (message.name,.ok response') ∉ w.answers := fun response' h =>
    (hw.answered _ response' h).2.1 id hs
  have hnew : ∀ name response', (name,.ok response') ∈ (w.finish id message.name (.ok response)).answers →
      (name,.ok response') ∈ w.answers ∨ (name = message.name ∧ response' = response) := by
    intro name response' h
    simpa [finish] using h
  refine ⟨hi.once,hi.handler,hi.before,hi.after,fun name response' h => ?_,fun name r r' h h' => ?_⟩
  · rcases hnew name response' h with h | ⟨rfl,rfl⟩
    · exact hi.answered name response' h
    refine ⟨hw.after id message hph,fun other h' => ?_,ha⟩
    rcases handles_setPhase.mp h' with ⟨-,push,hp,-⟩ | ⟨hne,h'⟩
    · simp [Phase.before?,Phase.after?] at hp
    · exact hne (hw.handler other id _ h' hs)
  · rcases hnew name r h with hold | ⟨hnm,hr⟩
    · rcases hnew name r' h' with ho' | ⟨hn',-⟩
      · exact hw.same name r r' hold ho'
      · exact absurd (hn' ▸ hold) (hn r)
    · rcases hnew name r' h' with ho' | ⟨-,hr'⟩
      · exact absurd (hnm ▸ ho') (hn r')
      · rw [hr,hr']

omit hw

theorem updateClient_phases (w : World) (client_id : String) (f : ClientState → ClientState) :
    (w.updateClient client_id f).phases = w.phases := by
  obtain ⟨clients,heq⟩ := updateClient_eq w client_id f
  rw [heq]

variable (hw : w.Sound)
include hw

theorem Sound.setPhase_idle (id : Nat) : (w.setPhase id .idle).Sound :=
  hw.setPhase (by simp [Phase.before?]) (by simp [Phase.after?])

theorem Sound.fetch (id : Nat) (changes : Except SyncError (List ChangeEntry))
    (server_lsn : Except SyncError Nat) : (w.step x node_id (.fetch id changes server_lsn)).Sound := by
  cases hph : w.phases id with
  | pulling request =>
    simp only [step,hph]
    split
    · split
      · exact hw.setPhase (by simp [Phase.before?]) (by simp [Phase.after?])
      · exact hw.setPhase_idle id
    · exact hw.setPhase_idle id
  | _ => simpa only [step,hph] using hw

theorem Sound.check (id : Nat) (message : PushChanges) (htl : w.Tells (.push id message)) :
    (w.step x node_id (.push id message)).Sound := by
  cases hph : w.phases id with
  | idle =>
    simp only [step,hph]
    split
    · exact hw.finish_error id _ _
    next client hc =>
    have htells' := htl client hc
    split
    · next response hcc =>
      rw [hcc] at htells'
      exact hw.finish_cached id htells'
    · next hm =>
      rw [hm] at htells'
      exact hw.push htells'.1 htells'.2
  | _ => simpa only [step,hph] using hw

theorem Sound.detect (id : Nat) (conflicts : Except SyncError (List ConflictReport)) :
    (w.step x node_id (.detect id conflicts)).Sound := by
  cases hph : w.phases id with
  | pushing message =>
    simp only [step,hph]
    split
    · exact hw.finish_error id _ _
    · split
      · exact hw.finish_error id _ _
      · exact hw.setPhase (by simp [Phase.before?,hph]) (by simp [Phase.after?])
  | _ => simpa only [step,hph] using hw

theorem Sound.step (s : Step) (htl : w.Tells s) : (w.step x node_id s).Sound := by
  cases s with
  | register version client_id last_known_lsn vector_clock metadata now =>
    simp only [World.step]
    split
    · exact hw
    · exact hw.congr rfl rfl rfl
  | evict client_id => exact hw.congr rfl rfl rfl
  | heartbeat client_id current_lsn now => exact hw.updateClient client_id _
  | pull id request =>
    cases hph : w.phases id with
    | idle =>
      simp only [World.step,hph]
      split
      · exact hw
      · split
        · exact hw
        · exact hw.setPhase (by simp [Phase.before?]) (by simp [Phase.after?])
    | _ => simpa only [World.step,hph] using hw
  | fetch id changes server_lsn => exact hw.fetch id changes server_lsn
  | cachePull id =>
    cases hph : w.phases id with
    | pulled request response =>
      simp only [World.step,hph]
      exact (hw.setPhase_idle id).updateClient _ _
    | _ => simpa only [World.step,hph] using hw
  | push id message => exact hw.check id message htl
  | detect id conflicts => exact hw.detect id conflicts
  | append id new_lsns =>
    cases hph : w.phases id with
    | accepted message conflicts changes =>
      simp only [World.step,hph]
      split
      · exact hw.finish_error id _ _
      · exact hw.append hph _
    | _ => simpa only [World.step,hph] using hw
  | currentLsn id server_lsn =>
    cases hph : w.phases id with
    | appended message conflicts new_lsns =>
      simp only [World.step,hph]
      split
      · exact hw.finish_error id _ _
      · exact hw.setPhase (by simp [Phase.before?]) (by simp [Phase.after?,hph])
    | _ => simpa only [World.step,hph] using hw
  | answer id now =>
    cases hph : w.phases id with
    | answering message conflicts new_lsns server_lsn =>
      simp only [World.step,hph]
      refine (hw.updateClient message.client_id _).answer ?_ ⟨_,_,_,_,rfl⟩
      rw [updateClient_phases,hph,Phase.after?]
    | _ => simpa only [World.step,hph] using hw

omit hw

/-- What the protocol promises: the changes of a push are appended once, and its deliveries that succeed are answered
with one acknowledgement. -/
structure Correct (w : World) : Prop where
  once : (w.appends.map fst).Nodup
  same : ∀ name response response', (name,.ok response) ∈ w.answers → (name,.ok response') ∈ w.answers →
    response = response'
  acknowledged : ∀ name response, (name,.ok response) ∈ w.answers → IsAck name response

theorem push_exactly_once (x : Externals) (node_id : Uuid) {steps : List Step}
    (htells : Guarded (World.step x node_id) Tells new steps) : (run (World.step x node_id) new steps).Correct := by
  have hw := guarded_run_invariant (World.step x node_id) World.Sound (fun _ s hw hs => hw.step s hs) sound_new htells
  exact ⟨hw.once,hw.same,fun name response h => (hw.answered name response h).2.2⟩

/-- Changes that are sent uncompressed, with checksums that are all zero. -/
def plainExternals : Externals := ⟨.ok,.ok,fun _ _ _ => 0,fun _ => .ok 0⟩

def onePush : PushChanges := ⟨7,"client-1",[⟨1,"t",.insert,[1],[2],.new,0,0,false⟩],.new⟩

def delivery (id : Nat) (push : PushChanges) : List Step :=
  [.push id push,.detect id (.ok []),.append id (.ok [1]),.currentLsn id (.ok 2),.answer id 0]

/-- A push is delivered again after it was answered. -/
def repeated : List Step :=
  .register 1 "client-1" 0 .new [] 0 :: delivery 0 onePush ++ [.push 1 onePush]

theorem push_exactly_once_repeated : Guarded (World.step plainExternals 0) Tells new repeated ∧
    (run (World.step plainExternals 0) new repeated).Correct ∧
    (run (World.step plainExternals 0) new repeated).answers.length = 2 := by
  have htells : Guarded (World.step plainExternals 0) Tells new repeated := by
    refine ⟨trivial,?_,trivial,trivial,trivial,trivial,?_,trivial⟩
    · intro client hclient
      cases hclient
      refine ⟨?_,by decide⟩
      rintro id ⟨push,hpush,-⟩
      rcases hpush with hpush | hpush
      · cases hpush
      · cases hpush
    · intro client hclient
      cases hclient
      change (onePush.name,Except.ok (Response.pushAck 7 [1] [] 2 (VectorClock.new.increment 0))) ∈ [_]
      exact mem_singleton_self _
  exact ⟨htells,push_exactly_once _ _ htells,by decide⟩

def reregistered : List Step :=
  .register 1 "client-1" 0 .new [] 0 :: delivery 0 onePush ++
    .register 1 "client-1" 0 .new [] 0 :: delivery 0 onePush

/-- Two deliveries of a push pass the check for duplicates before either of them is answered. -/
def overlapping : List Step :=
  [.register 1 "client-1" 0 .new [] 0,.push 0 onePush,.push 1 onePush] ++ (delivery 0 onePush).tail ++
    (delivery 1 onePush).tail

theorem push_appended_twice : ¬(run (World.step plainExternals 0) new reregistered).Correct ∧
    ¬(run (World.step plainExternals 0) new overlapping).Correct := by
  constructor
  · intro hcorrect
    have honce := hcorrect.once
    revert honce
    decide
  · intro hcorrect
    have honce := hcorrect.once
    revert honce
    decide

end World
end HeliosNano.Sync.Protocol
