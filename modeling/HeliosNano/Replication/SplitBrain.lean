import Mathlib.Data.Finset.Card
import HeliosNano.Foundation.Runs
import HeliosNano.Replication.Physical

/-! Elections and fencing tokens of a cluster of nodes and observers. A handler is a task of its voter: each atomic
load or store and each critical section is one turn of it. A message that was sent may be delivered at any time, any
number of times. -/
namespace HeliosNano.Replication.SplitBrain
open Foundation List

/-- The bound of a 64-bit counter. -/
def u64 : Nat := 2^64

inductive NodeRole
  | primary
  | standby
  | observer
  | candidate
deriving DecidableEq, Repr

inductive ProtectionState
  | normal
  | election
  | fenced
  | splitBrain
deriving DecidableEq, Repr

/-- The text of an identity: its 32 hexadecimal digits, hyphenated. -/
def uuidText (id : Uuid) : String :=
  String.ofList <| (List.range 32).flatMap fun i =>
    (if i ∈ [8,12,16,20] then ['-'] else []) ++ [Nat.digitChar (id/16^(31-i)%16)]

structure VoteRequestPayload where
  candidateId : Uuid
  term : Nat
deriving DecidableEq, Repr

structure VoteResponsePayload where
  voterId : Uuid
  voteGranted : Bool
  term : Nat
  fencingToken : Nat
  knownPrimary : Option Uuid
  rejectionReason : Option String
deriving DecidableEq, Repr

structure FencingTokenPayload where
  token : Nat
  issuerId : Uuid
  term : Nat
deriving DecidableEq, Repr

structure VoteState where
  term : Nat
  votedFor : Option Uuid
  votesReceived : Finset Uuid
deriving DecidableEq

/-- A handler that is on its way, by what it does next. -/
inductive Task
  -- `request_votes`
  | record (newTerm : Nat)
  | campaign (newTerm : Nat)
  | poll (newTerm : Nat)
  | tally (newTerm : Nat)
  -- `become_primary`
  | becomePrimary (term : Nat)
  | lead (token : Nat)
  | know (token : Nat)
  | settle (token : Nat)
  | broadcast (token : Nat)
  -- `handle_vote_request`
  | vote (currentTerm : Nat) (request : VoteRequestPayload)
  -- `handle_vote_response`
  | elected (response : VoteResponsePayload)
  -- `handle_fencing_token`
  | swap (payload : FencingTokenPayload)
  | follow (payload : FencingTokenPayload)
  | check (payload : FencingTokenPayload)
  | stepDown (payload : FencingTokenPayload)
  -- the reader of a connection to an observer
  | store (payload : FencingTokenPayload)
deriving DecidableEq, Repr

structure Voter where
  isObserver : Bool
  quorumSize : Nat
  role : NodeRole
  state : ProtectionState
  term : Nat
  fencingToken : Nat
  knownPrimary : Option Uuid
  voteState : VoteState
  tasks : List Task
deriving DecidableEq

structure Grant where
  voter : Uuid
  term : Nat
  candidate : Uuid
deriving DecidableEq, Repr

/-- An execution of `become_primary`. -/
structure Issue where
  node : Uuid
  term : Nat
  token : Nat
deriving DecidableEq, Repr

/-- A token that came in was not newer, was taken, or its handler came to the end. -/
inductive Stage
  | ignored
  | accepted
  | finished
deriving DecidableEq, Repr

structure Receipt where
  node : Uuid
  payload : FencingTokenPayload
  stage : Stage
deriving DecidableEq, Repr

/-- What a turn leaves: the voter, what it sends, and what is noted of it. -/
structure Effect where
  voter : Voter
  requests : List VoteRequestPayload := []
  responses : List (Uuid × VoteResponsePayload) := []
  announcements : List FencingTokenPayload := []
  grants : List Grant := []
  issued : List Issue := []
  receipts : List Receipt := []

namespace Voter

/-- `SplitBrainProtector::new`. -/
def newNode (role : NodeRole) (quorumSize : Nat) : Voter :=
  ⟨false,quorumSize,role,.normal,1,1,none,⟨1,none,∅⟩,[]⟩

/-- `ObserverNode::new`. -/
def newObserver : Voter := ⟨true,0,.observer,.normal,1,0,none,⟨1,none,∅⟩,[]⟩

def spawn (v : Voter) (task : Task) : Voter := { v with tasks := v.tasks ++ [task] }

/-- The checks that a request passes to be granted, against the term that was loaded before the lock. -/
def Grantable (v : Voter) (currentTerm : Nat) (request : VoteRequestPayload) : Prop :=
  currentTerm ≤ request.term ∧
    ¬ (v.voteState.term = request.term ∧ v.voteState.votedFor ≠ none ∧
      v.voteState.votedFor ≠ some request.candidateId)
deriving Decidable

def refusal (id : Uuid) (v : Voter) (currentTerm : Nat) (reason : String) : VoteResponsePayload :=
  ⟨id,false,currentTerm,v.fencingToken,v.knownPrimary,some reason⟩

def grant (v : Voter) (currentTerm : Nat) (request : VoteRequestPayload) : Voter :=
  if currentTerm < request.term then
    { v with term := request.term, voteState :=
      { v.voteState with term := request.term, votedFor := some request.candidateId } }
  else { v with voteState := { v.voteState with votedFor := some request.candidateId } }

def castVote (id : Uuid) (v : Voter) (currentTerm : Nat) (request : VoteRequestPayload) :
    VoteResponsePayload × Voter :=
  if request.term < currentTerm then (v.refusal id currentTerm "Stale term",v)
  else
    let granted : VoteResponsePayload × Voter :=
      (⟨id,true,request.term,v.fencingToken,v.knownPrimary,none⟩,v.grant currentTerm request)
    if v.voteState.term = request.term then
      match v.voteState.votedFor with
      | some votedFor =>
        if votedFor ≠ request.candidateId then
          (v.refusal id currentTerm ("Already voted for " ++ uuidText votedFor),v)
        else granted
      | none => granted
    else granted

def handleVoteRequest (v : Voter) (request : VoteRequestPayload) : Effect :=
  { voter := v.spawn (.vote v.term request) }

def handleVoteRequestStatic (v : Voter) (request : VoteRequestPayload) : Effect :=
  { voter := v.spawn (.vote v.term request) }

def requestVotes (v : Voter) : Effect :=
  let newTerm := (v.term+1)%u64
  { voter := { v with term := newTerm }.spawn (.record newTerm) }

def receiveVote (v : Voter) (voterId : Uuid) : Voter :=
  { v with voteState := { v.voteState with votesReceived := insert voterId v.voteState.votesReceived } }

def handleVoteResponse (v : Voter) (response : VoteResponsePayload) : Effect :=
  if v.state ≠ .election then { voter := v }
  else if response.term ≠ v.voteState.term then { voter := v }
  else if response.voteGranted then
    let v := v.receiveVote response.voterId
    if v.quorumSize ≤ v.voteState.votesReceived.card then { voter := v.spawn (.elected response) }
    else { voter := v }
  else { voter := v }

/-- The reader of a connection counts votes too. -/
def countVote (v : Voter) (response : VoteResponsePayload) : Effect :=
  if response.voteGranted ∧ response.term = v.voteState.term then { voter := v.receiveVote response.voterId }
  else { voter := v }

/-- From the load of the token; a newer one is taken by the task. -/
def handleFencingToken (id : Uuid) (v : Voter) (payload : FencingTokenPayload) (take : Task) : Effect :=
  if v.fencingToken < payload.token then { voter := v.spawn take }
  else { voter := v, receipts := [⟨id,payload,.ignored⟩] }

def validateFencingToken (v : Voter) (token : Nat) : Bool := v.fencingToken ≤ token

def turn (id : Uuid) (v : Voter) (timedOut : Bool) : Task → Effect
  | .record newTerm =>
    { voter := { v with voteState := ⟨newTerm,some id, {id}⟩ }.spawn (.campaign newTerm)
      grants := [⟨id,newTerm,id⟩] }
  | .campaign newTerm =>
    { voter := { v with state := .election }.spawn (.poll newTerm), requests := [⟨id,newTerm⟩] }
  | .poll newTerm =>
    if v.quorumSize ≤ v.voteState.votesReceived.card ∨ timedOut then { voter := v.spawn (.tally newTerm) }
    else { voter := v.spawn (.poll newTerm) }
  | .tally newTerm =>
    if v.quorumSize ≤ v.voteState.votesReceived.card then { voter := v.spawn (.becomePrimary newTerm) }
    else { voter := v }
  | .becomePrimary term =>
    let newToken := (v.fencingToken+1)%u64
    { voter := { v with fencingToken := newToken }.spawn (.lead newToken), issued := [⟨id,term,newToken⟩] }
  | .lead token => { voter := { v with role := .primary }.spawn (.know token) }
  | .know token => { voter := { v with knownPrimary := some id }.spawn (.settle token) }
  | .settle token => { voter := { v with state := .normal }.spawn (.broadcast token) }
  | .broadcast token => { voter := v, announcements := [⟨token,id,v.term⟩] }
  | .vote currentTerm request =>
    let cast := castVote id v currentTerm request
    { voter := cast.2
      responses := [(request.candidateId,cast.1)]
      grants := if cast.1.voteGranted then [⟨id,request.term,request.candidateId⟩] else [] }
  | .elected _ => { voter := v.spawn (.becomePrimary v.term) }
  | .swap payload =>
    { voter := { v with fencingToken := payload.token }.spawn (.follow payload)
      receipts := [⟨id,payload,.accepted⟩] }
  | .follow payload =>
    let v := { v with knownPrimary := some payload.issuerId }
    -- an observer has no role to give up
    if v.isObserver then { voter := v } else { voter := v.spawn (.check payload) }
  | .check payload =>
    if v.role = .primary ∧ payload.issuerId ≠ id then { voter := v.spawn (.stepDown payload) }
    else { voter := v, receipts := [⟨id,payload,.finished⟩] }
  | .stepDown payload =>
    { voter := { v with role := .standby }, receipts := [⟨id,payload,.finished⟩] }
  | .store payload =>
    { voter := { v with fencingToken := payload.token }, receipts := [⟨id,payload,.accepted⟩] }

end Voter

structure Cluster where
  members : Finset Uuid
  voters : Uuid → Voter
  requests : List VoteRequestPayload
  responses : List (Uuid × VoteResponsePayload)
  announcements : List FencingTokenPayload
  grants : List Grant
  issued : List Issue
  receipts : List Receipt

inductive Action
  | requestVotes (id : Uuid)
  | voteRequest (id : Uuid) (request : VoteRequestPayload)
  | voteResponse (id : Uuid) (response : VoteResponsePayload)
  | countVote (id : Uuid) (response : VoteResponsePayload)
  | fencingToken (id : Uuid) (payload : FencingTokenPayload)
  | connectionToken (id : Uuid) (payload : FencingTokenPayload)
  | turn (id : Uuid) (index : Nat) (timedOut : Bool)
deriving DecidableEq, Repr

def Action.id : Action → Uuid
  | .requestVotes id => id
  | .voteRequest id _ => id
  | .voteResponse id _ => id
  | .countVote id _ => id
  | .fencingToken id _ => id
  | .connectionToken id _ => id
  | .turn id _ _ => id

namespace Cluster

/-- A cluster in which nothing has happened: each member is a new node or a new observer. -/
def start (members : Finset Uuid) (voters : Uuid → Voter) : Cluster := ⟨members,voters,[],[],[],[],[],[]⟩

def effect (c : Cluster) : Action → Option Effect
  | .requestVotes id => if (c.voters id).isObserver then none else some (c.voters id).requestVotes
  | .voteRequest id request =>
    if request ∉ c.requests then none
    else if (c.voters id).isObserver then some ((c.voters id).handleVoteRequestStatic request)
    else some ((c.voters id).handleVoteRequest request)
  | .voteResponse id response =>
    if (id,response) ∉ c.responses ∨ (c.voters id).isObserver then none
    else some ((c.voters id).handleVoteResponse response)
  | .countVote id response =>
    if (id,response) ∉ c.responses ∨ (c.voters id).isObserver then none
    else some ((c.voters id).countVote response)
  | .fencingToken id payload =>
    if payload ∉ c.announcements then none
    else some ((c.voters id).handleFencingToken id payload (.swap payload))
  | .connectionToken id payload =>
    if payload ∉ c.announcements ∨ (c.voters id).isObserver then none
    else some ((c.voters id).handleFencingToken id payload (.store payload))
  | .turn id index timedOut =>
    match (c.voters id).tasks[index]? with
    | none => none
    | some task =>
      some ({ c.voters id with tasks := (c.voters id).tasks.eraseIdx index }.turn id timedOut task)

def apply (c : Cluster) (id : Uuid) (e : Effect) : Cluster where
  members := c.members
  voters := Function.update c.voters id e.voter
  requests := c.requests ++ e.requests
  responses := c.responses ++ e.responses
  announcements := c.announcements ++ e.announcements
  grants := c.grants ++ e.grants
  issued := c.issued ++ e.issued
  receipts := c.receipts ++ e.receipts

def step (c : Cluster) (action : Action) : Cluster :=
  if action.id ∉ c.members then c
  else
    match c.effect action with
    | none => c
    | some e => c.apply action.id e

/-- A member as `new` makes it. -/
def Fresh (v : Voter) : Prop := (∃ role quorumSize, v = .newNode role quorumSize) ∨ v = .newObserver

end Cluster

abbrev Voter.without (v : Voter) (index : Nat) : Voter := { v with tasks := v.tasks.eraseIdx index }

theorem mem_without {v : Voter} {index : Nat} {task : Task} (h : task ∈ (v.without index).tasks) : task ∈ v.tasks :=
  mem_of_mem_eraseIdx h

theorem mem_spawn {v : Voter} {task new : Task} (h : task ∈ (v.spawn new).tasks) : task ∈ v.tasks ∨ task = new := by
  rcases mem_append.mp h with h | h
  · exact .inl h
  · exact .inr (mem_singleton.mp h)

theorem castVote_cases (id : Uuid) (v : Voter) (currentTerm : Nat) (request : VoteRequestPayload) :
    ((v.castVote id currentTerm request).1.voteGranted = false ∧ (v.castVote id currentTerm request).2 = v) ∨
    (v.Grantable currentTerm request ∧ v.castVote id currentTerm request =
      (⟨id,true,request.term,v.fencingToken,v.knownPrimary,none⟩,v.grant currentTerm request)) := by
  unfold Voter.castVote
  split
  · exact .inl ⟨rfl,rfl⟩
  next htr =>
  have hle : currentTerm ≤ request.term := not_lt.mp htr
  dsimp only
  split
  · next hsame =>
    split
    · next votedFor hv =>
      split
      · exact .inl ⟨rfl,rfl⟩
      next hc =>
      refine .inr ⟨⟨hle,?_⟩,rfl⟩
      rintro ⟨-,-,hne⟩
      rw [hv] at hne
      exact hc fun h => hne (congrArg some h)
    · next hv =>
      refine .inr ⟨⟨hle,?_⟩,rfl⟩
      exact fun h => h.2.1 hv
  · next hsame => exact .inr ⟨⟨hle,fun h => hsame h.1⟩,rfl⟩

theorem castVote_frame (id : Uuid) (v : Voter) (currentTerm : Nat) (request : VoteRequestPayload) :
    (v.castVote id currentTerm request).2.fencingToken = v.fencingToken ∧
      (v.castVote id currentTerm request).2.role = v.role ∧ (v.castVote id currentTerm request).2.tasks = v.tasks := by
  obtain ⟨-,hsame⟩ | ⟨-,hc⟩ := castVote_cases id v currentTerm request
  · rw [hsame]
    exact ⟨rfl,rfl,rfl⟩
  · rw [hc]
    simp only [Voter.grant]
    split <;> exact ⟨rfl,rfl,rfl⟩

def sampleMembers : Finset Uuid := {1, 2, 3}

def sampleVoters (id : Uuid) : Voter :=
  if id = 3 then .newObserver else .newNode (if id = 1 then .primary else .standby) 2

def grantedBy (voter term : Nat) (fencingToken : Nat) : VoteResponsePayload :=
  ⟨voter,true,term,fencingToken,none,none⟩

theorem sampleVoters_fresh (id : Uuid) : Cluster.Fresh (sampleVoters id) := by
  unfold sampleVoters
  split
  · exact .inr rfl
  · exact .inl ⟨_,_,rfl⟩

end HeliosNano.Replication.SplitBrain
