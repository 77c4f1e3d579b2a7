import HeliosNano.Replication.SplitBrain

namespace HeliosNano.Replication.SplitBrain
open Foundation List Function Voter Option.some Cluster

namespace Voter

/-- A candidate records a term above its last vote; a request that passes the checks is above the voter's own term, or
meets it with the vote record; the votes that are counted are those of the term; the term is that of the election. -/
def OrderlyTurn (v : Voter) : Task → Prop
  | .record newTerm => v.voteState.term < newTerm
  | .vote currentTerm request =>
    v.Grantable currentTerm request →
      v.term < request.term ∨ v.term = request.term ∧ v.voteState.term = request.term
  | .tally newTerm => v.quorumSize ≤ v.voteState.votesReceived.card → v.voteState.term = newTerm
  | .elected response => v.term = response.term
  | _ => True

instance (v : Voter) : (task : Task) → Decidable (v.OrderlyTurn task)
  | .record _ => inferInstanceAs (Decidable (_ < _))
  | .vote currentTerm request => inferInstanceAs (Decidable (v.Grantable currentTerm request → _ ∨ _))
  | .tally _ => inferInstanceAs (Decidable (_ ≤ _ → _ = _))
  | .elected _ => inferInstanceAs (Decidable (_ = _))
  | .campaign _ | .poll _ | .becomePrimary _ | .lead _ | .know _ | .settle _ | .broadcast _ | .swap _ | .follow _
  | .check _ | .stepDown _ | .store _ => inferInstanceAs (Decidable True)

end Voter

namespace Cluster

def Orderly (c : Cluster) : Action → Prop
  | .requestVotes id => (c.voters id).term + 1 < u64
  | .turn id index _ => ∀ task ∈ (c.voters id).tasks[index]?, (c.voters id).OrderlyTurn task
  | _ => True

instance (c : Cluster) : (action : Action) → Decidable (c.Orderly action)
  | .requestVotes _ => inferInstanceAs (Decidable (_ < _))
  | .turn id index _ =>
    inferInstanceAs (Decidable (∀ task ∈ (c.voters id).tasks[index]?, (c.voters id).OrderlyTurn task))
  | .voteRequest _ _ | .voteResponse _ _ | .countVote _ _ | .fencingToken _ _ | .connectionToken _ _ =>
    inferInstanceAs (Decidable True)

end Cluster

section
variable {members : Finset Uuid} {grants grants' : List Grant} {id : Uuid} {v v' : Voter}

/-- More than half of the members voted for a node in a term. -/
def Elected (members : Finset Uuid) (grants : List Grant) (id : Uuid) (term : Nat) : Prop :=
  ∃ quorum ⊆ members, members.card < 2*quorum.card ∧ ∀ voter ∈ quorum, ⟨voter,term,id⟩ ∈ grants

def TaskSafe (members : Finset Uuid) (grants : List Grant) (id : Uuid) (v : Voter) : Task → Prop
  | .record newTerm => newTerm ≤ v.term ∧ v.isObserver = false
  | .campaign newTerm => ⟨id,newTerm,id⟩ ∈ grants ∧ v.isObserver = false
  | .poll newTerm => ⟨id,newTerm,id⟩ ∈ grants ∧ v.isObserver = false
  | .tally newTerm => ⟨id,newTerm,id⟩ ∈ grants ∧ v.isObserver = false
  | .becomePrimary term => Elected members grants id term
  | .elected response => Elected members grants id response.term
  | .vote currentTerm request =>
    currentTerm ≤ v.term ∧ ⟨request.candidateId,request.term,request.candidateId⟩ ∈ grants
  | _ => True

def Counted (members : Finset Uuid) (grants : List Grant) (id : Uuid) (v : Voter) : Prop :=
  ⟨id,v.voteState.term,id⟩ ∈ grants →
    ∀ voter ∈ v.voteState.votesReceived, ⟨voter,v.voteState.term,id⟩ ∈ grants ∧ voter ∈ members

/-- A vote that was given is the one that is recorded, while its term is. -/
def Backs (id : Uuid) (v : Voter) (g : Grant) : Prop :=
  g.voter = id → g.term ≤ v.voteState.term ∧ (g.term = v.voteState.term → v.voteState.votedFor = some g.candidate)

structure VoterSafe (members : Finset Uuid) (grants : List Grant) (id : Uuid) (v : Voter) : Prop where
  quorum : v.isObserver = false → members.card < 2*v.quorumSize
  recorded : v.voteState.term ≤ v.term
  backed : ∀ g ∈ grants, Backs id v g
  counted : Counted members grants id v
  tasks : ∀ task ∈ v.tasks, TaskSafe members grants id v task

/-- A granted response stands for a vote for the candidate that it is sent to. -/
def ResponseSafe (members : Finset Uuid) (grants : List Grant) (sent : Uuid × VoteResponsePayload) : Prop :=
  sent.2.voteGranted = true → ⟨sent.2.voterId,sent.2.term,sent.1⟩ ∈ grants ∧ sent.2.voterId ∈ members ∧
    ⟨sent.1,sent.2.term,sent.1⟩ ∈ grants

structure Cluster.Safe (c : Cluster) : Prop where
  voters : ∀ id, VoterSafe c.members c.grants id (c.voters id)
  unique : ∀ g ∈ c.grants, ∀ h ∈ c.grants, g.voter = h.voter → g.term = h.term → g.candidate = h.candidate
  requests : ∀ r ∈ c.requests, ⟨r.candidateId,r.term,r.candidateId⟩ ∈ c.grants
  responses : ∀ sent ∈ c.responses, ResponseSafe c.members c.grants sent
  issued : ∀ i ∈ c.issued, Elected c.members c.grants i.node i.term

theorem Elected.mono {term : Nat} (h : Elected members grants id term) (hs : grants ⊆ grants') :
    Elected members grants' id term := by
  obtain ⟨quorum,hm,hc,hg⟩ := h
  exact ⟨quorum,hm,hc,fun voter hv => hs (hg voter hv)⟩

theorem Elected.unique {term : Nat} {id' : Uuid} (h : Elected members grants id term) (h' : Elected members grants id' term)
    (hu : ∀ g ∈ grants, ∀ h ∈ grants, g.voter = h.voter → g.term = h.term → g.candidate = h.candidate) : id = id' := by
  obtain ⟨quorum,hm,hc,hg⟩ := h
  obtain ⟨quorum',hm',hc',hg'⟩ := h'
  obtain ⟨voter,hv⟩ :=
    Finset.inter_nonempty_of_card_lt_card_add_card hm hm' (by omega)
  obtain ⟨hin,hin'⟩ := Finset.mem_inter.mp hv
  exact hu _ (hg voter hin) _ (hg' voter hin') rfl rfl

theorem TaskSafe.mono {task : Task} (h : TaskSafe members grants id v task) (hs : grants ⊆ grants')
    (htr : v.term ≤ v'.term) (ho : v'.isObserver = v.isObserver) : TaskSafe members grants' id v' task := by
  cases task with
  | record newTerm => exact ⟨h.1.trans htr,ho.trans h.2⟩
  | campaign newTerm | poll newTerm | tally newTerm => exact ⟨hs h.1,ho.trans h.2⟩
  | becomePrimary term | elected response => exact Elected.mono h hs
  | vote currentTerm request => exact ⟨h.1.trans htr,hs h.2⟩
  | lead token | know token | settle token | broadcast token | swap payload | follow payload | check payload
  | stepDown payload | store payload => trivial

/-- A turn of a voter keeps the invariant, with the votes that it gives among the votes given. -/
structure EffectSafe (c : Cluster) (id : Uuid) (e : Effect) : Prop where
  observer : e.voter.isObserver = (c.voters id).isObserver
  quorumSize : e.voter.quorumSize = (c.voters id).quorumSize
  term : (c.voters id).term ≤ e.voter.term
  recorded : e.voter.voteState.term ≤ e.voter.term
  voteTerm : (c.voters id).voteState.term ≤ e.voter.voteState.term
  kept : e.voter.voteState.term = (c.voters id).voteState.term → ∀ candidate,
    (c.voters id).voteState.votedFor = some candidate → e.voter.voteState.votedFor = some candidate
  grants : ∀ g ∈ e.grants, g.voter = id ∧ g.term = e.voter.voteState.term ∧
    e.voter.voteState.votedFor = some g.candidate
  counted : Counted c.members (c.grants ++ e.grants) id e.voter
  tasks : ∀ task ∈ e.voter.tasks, TaskSafe c.members (c.grants ++ e.grants) id e.voter task
  requests : ∀ r ∈ e.requests, ⟨r.candidateId,r.term,r.candidateId⟩ ∈ c.grants ++ e.grants
  responses : ∀ sent ∈ e.responses, ResponseSafe c.members (c.grants ++ e.grants) sent
  issued : ∀ i ∈ e.issued, Elected c.members (c.grants ++ e.grants) i.node i.term

variable {c : Cluster} {e : Effect}
variable {g : Grant} {task : Task}

theorem EffectSafe.backs (h : EffectSafe c id e) (hg : Backs id (c.voters id) g) : Backs id e.voter g := by
  intro hvt
  obtain ⟨hle,hv⟩ := hg hvt
  refine ⟨hle.trans h.voteTerm,fun htr => ?_⟩
  have hsame : e.voter.voteState.term = (c.voters id).voteState.term := by
    have := h.voteTerm
    omega
  exact h.kept hsame _ (hv (htr.trans hsame))

theorem EffectSafe.candidate (h : EffectSafe c id e) (hc : c.Safe) {g' : Grant} (hg : g ∈ c.grants)
    (hg' : g' ∈ e.grants) (hvt : g.voter = g'.voter) (htr : g.term = g'.term) : g.candidate = g'.candidate := by
  obtain ⟨hid,hnew,hv⟩ := h.grants g' hg'
  have hb := (h.backs ((hc.voters id).backed g hg) (hvt.trans hid)).2 (htr.trans hnew)
  exact inj (hb.symm.trans hv)

theorem Cluster.Safe.apply (hc : c.Safe) (h : EffectSafe c id e) : (c.apply id e).Safe := by
  have hsb : c.grants ⊆ c.grants ++ e.grants := subset_append_left ..
  refine ⟨?_,?_,?_,?_,?_⟩
  · intro other
    have hold := hc.voters other
    by_cases hid : other = id
    · subst hid
      show VoterSafe c.members (c.grants ++ e.grants) other (Function.update c.voters other e.voter other)
      rw [update_self]
      refine ⟨?_,h.recorded,?_,h.counted,h.tasks⟩
      · intro ho
        rw [h.quorumSize]
        exact hold.quorum (h.observer ▸ ho)
      · intro g hg
        rcases mem_append.mp hg with hg | hg
        · exact h.backs (hold.backed g hg)
        · obtain ⟨-,htr,hvt⟩ := h.grants g hg
          exact fun _ => ⟨htr.le,fun _ => hvt⟩
    · show VoterSafe c.members (c.grants ++ e.grants) other (Function.update c.voters id e.voter other)
      rw [update_of_ne hid]
      have hf : ∀ g ∈ e.grants, g.voter ≠ other := by
        intro g hg hv
        exact hid (hv ▸ (h.grants g hg).1)
      refine ⟨hold.quorum,hold.recorded,?_,?_,fun task hts => (hold.tasks task hts).mono hsb le_rfl rfl⟩
      · intro g hg
        rcases mem_append.mp hg with hg | hg
        · exact hold.backed g hg
        · exact fun hv => absurd hv (hf g hg)
      · intro hs voter hv
        rcases mem_append.mp hs with hs | hs
        · obtain ⟨hgr,hm⟩ := hold.counted hs voter hv
          exact ⟨hsb hgr,hm⟩
        · exact absurd rfl (hf _ hs)
  · intro g hg g' hg' hv htr
    rcases mem_append.mp hg with hg | hg <;> rcases mem_append.mp hg' with hg' | hg'
    · exact hc.unique g hg g' hg' hv htr
    · exact h.candidate hc hg hg' hv htr
    · exact (h.candidate hc hg' hg hv.symm htr.symm).symm
    · exact inj ((h.grants g hg).2.2.symm.trans (h.grants g' hg').2.2)
  · intro r hr
    rcases mem_append.mp hr with hr | hr
    · exact hsb (hc.requests r hr)
    · exact h.requests r hr
  · intro sent hsn
    rcases mem_append.mp hsn with hsn | hsn
    · intro hgt
      obtain ⟨hgr,hm,hs⟩ := hc.responses sent hsn hgt
      exact ⟨hsb hgr,hm,hsb hs⟩
    · exact h.responses sent hsn
  · intro i hi
    rcases mem_append.mp hi with hi | hi
    · exact (hc.issued i hi).mono hsb
    · exact h.issued i hi

theorem EffectSafe.quiet (hc : c.Safe) (ho : e.voter.isObserver = (c.voters id).isObserver)
    (hq : e.voter.quorumSize = (c.voters id).quorumSize) (htr : e.voter.term = (c.voters id).term)
    (hv : e.voter.voteState = (c.voters id).voteState) (hgr : e.grants = [])
    (hts : ∀ task ∈ e.voter.tasks, task ∈ (c.voters id).tasks ∨ TaskSafe c.members c.grants id (c.voters id) task)
    (hrq : ∀ r ∈ e.requests, ⟨r.candidateId,r.term,r.candidateId⟩ ∈ c.grants)
    (hr : ∀ sent ∈ e.responses, ResponseSafe c.members c.grants sent)
    (hi : ∀ i ∈ e.issued, Elected c.members c.grants i.node i.term) : EffectSafe c id e := by
  have hold := hc.voters id
  have ha : c.grants ++ e.grants = c.grants := by rw [hgr,append_nil]
  constructor
  · exact ho
  · exact hq
  · exact htr.ge
  · rw [hv,htr]
    exact hold.recorded
  · rw [hv]
  · intro _ candidate hvt
    rwa [hv]
  · intro g hg
    rw [hgr] at hg
    cases hg
  · rw [ha,Counted,hv]
    exact hold.counted
  · intro task htk
    rw [ha]
    rcases hts task htk with hin | hs
    · exact (hold.tasks task hin).mono (fun _ h => h) htr.ge ho
    · exact hs.mono (fun _ h => h) htr.ge ho
  · rwa [ha]
  · rwa [ha]
  · rwa [ha]

section
variable {timedOut : Bool}
variable {index : Nat}

theorem effectSafe_record (hc : c.Safe) (hm : id ∈ c.members) {newTerm : Nat}
    (hts : .record newTerm ∈ (c.voters id).tasks) (ho : (c.voters id).voteState.term < newTerm) :
    EffectSafe c id (((c.voters id).without index).turn id timedOut (.record newTerm)) := by
  have hold := hc.voters id
  obtain ⟨htr,hob⟩ := hold.tasks _ hts
  have hs : (⟨id,newTerm,id⟩ : Grant) ∈ c.grants ++ [⟨id,newTerm,id⟩] :=
    mem_append_right _ (mem_singleton_self _)
  constructor
  · rfl
  · rfl
  · exact le_rfl
  · exact htr
  · exact ho.le
  · intro hsame
    exact absurd hsame (Nat.ne_of_gt ho)
  · intro g hg
    obtain rfl := mem_singleton.mp hg
    exact ⟨rfl,rfl,rfl⟩
  · intro _ voter hv
    obtain rfl := Finset.mem_singleton.mp hv
    exact ⟨hs,hm⟩
  · intro task hin
    rcases mem_spawn hin with hin | rfl
    · exact (hold.tasks task (mem_without hin)).mono (subset_append_left ..) le_rfl rfl
    · exact ⟨hs,hob⟩
  · exact nofun
  · exact nofun
  · exact nofun

variable {request : VoteRequestPayload} {currentTerm : Nat}

theorem grant_fields (hl : currentTerm ≤ v.term)
    (hle : currentTerm ≤ request.term) (ho : v.term < request.term ∨ v.term = request.term ∧ v.voteState.term = request.term) :
    (v.grant currentTerm request).term = request.term ∧
      (v.grant currentTerm request).voteState = ⟨request.term,some request.candidateId,v.voteState.votesReceived⟩ ∧
      (v.grant currentTerm request).tasks = v.tasks ∧ (v.grant currentTerm request).isObserver = v.isObserver ∧
      (v.grant currentTerm request).quorumSize = v.quorumSize := by
  unfold grant
  split
  · exact ⟨rfl,rfl,rfl,rfl,rfl⟩
  · next hlt =>
    obtain ⟨htr,hv⟩ : v.term = request.term ∧ v.voteState.term = request.term := ho.resolve_left (by omega)
    exact ⟨htr,by rw [← hv],rfl,rfl,rfl⟩

theorem effectSafe_vote (hc : c.Safe) (hm : id ∈ c.members) (htk : .vote currentTerm request ∈ (c.voters id).tasks)
    (hor : (c.voters id).OrderlyTurn (.vote currentTerm request)) :
    EffectSafe c id (((c.voters id).without index).turn id timedOut (.vote currentTerm request)) := by
  have hold := hc.voters id
  obtain ⟨hl,hcn⟩ := hold.tasks _ htk
  obtain ⟨hrf,hsame⟩ | ⟨hgn,hcs⟩ :=
    castVote_cases id ((c.voters id).without index) currentTerm request
  · refine .quiet hc ?_ ?_ ?_ ?_ ?_ ?_ nofun ?_ nofun
    · exact (congrArg isObserver hsame).trans rfl
    · exact (congrArg quorumSize hsame).trans rfl
    · exact (congrArg term hsame).trans rfl
    · exact (congrArg voteState hsame).trans rfl
    · exact if_neg (by simp [hrf])
    · intro task hin
      change task ∈ (((c.voters id).without index).castVote id currentTerm request).2.tasks at hin
      rw [hsame] at hin
      exact .inl (mem_without hin)
    · intro sent hsn hgt
      obtain rfl := mem_singleton.mp hsn
      rw [hrf] at hgt
      cases hgt
  · have hod := hor hgn
    obtain ⟨htr,hv,hts,ho,hq⟩ :=
      grant_fields (v := (c.voters id).without index) hl hgn.1 hod
    have htn : ((c.voters id).without index).turn id timedOut (.vote currentTerm request) =
        { voter := ((c.voters id).without index).grant currentTerm request
          responses := [(request.candidateId,⟨id,true,request.term,(c.voters id).fencingToken,
            (c.voters id).knownPrimary,none⟩)]
          grants := [⟨id,request.term,request.candidateId⟩] } := by
      simp only [turn,hcs,if_true]
    rw [htn]
    have hnew : (⟨id,request.term,request.candidateId⟩ : Grant) ∈
        c.grants ++ [⟨id,request.term,request.candidateId⟩] := mem_append_right _ (mem_singleton_self _)
    have hr : (c.voters id).voteState.term ≤ request.term := by
      have := hold.recorded
      omega
    constructor
    · exact ho
    · exact hq
    · show (c.voters id).term ≤ (grant _ _ _).term
      rw [htr]
      omega
    · show (grant _ _ _).voteState.term ≤ (grant _ _ _).term
      rw [htr,hv]
    · show (c.voters id).voteState.term ≤ (grant _ _ _).voteState.term
      rw [hv]
      exact hr
    · intro hsame candidate hvt
      simp only [hv] at hsame ⊢
      -- a vote of this term is for this candidate, or the request is refused
      by_contra hne
      refine hgn.2 ⟨hsame.symm,?_,?_⟩
      · exact fun h => nomatch hvt.symm.trans h
      · exact fun h => hne (h.symm.trans hvt)
    · intro g hg
      obtain rfl := mem_singleton.mp hg
      simp only [hv,and_self]
    · -- whoever counts votes in this term was a candidate in it before, with the same record
      intro hs voter hvr
      simp only [hv] at hs hvr ⊢
      have hb : (⟨id,request.term,id⟩ : Grant) ∈ c.grants := by
        rcases mem_append.mp hs with hs | hs
        · exact hs
        · obtain ⟨⟩ := mem_singleton.mp hs
          exact hcn
      have hle : request.term ≤ (c.voters id).voteState.term := (hold.backed _ hb rfl).1
      have hsame : (c.voters id).voteState.term = request.term := le_antisymm hr hle
      obtain ⟨hgr,hin⟩ := hold.counted (by rwa [hsame]) voter hvr
      rw [hsame] at hgr
      exact ⟨mem_append_left _ hgr,hin⟩
    · intro task hin
      rw [hts] at hin
      refine (hold.tasks task (mem_without hin)).mono (subset_append_left ..) ?_ ho
      rw [htr]
      omega
    · exact nofun
    · intro sent hsn _
      obtain rfl := mem_singleton.mp hsn
      exact ⟨hnew,hm,mem_append_left _ hcn⟩
    · exact nofun

theorem effectSafe_turn (hc : c.Safe) (hm : id ∈ c.members) {task : Task}
    (hts : task ∈ (c.voters id).tasks) (ho : (c.voters id).OrderlyTurn task) :
    EffectSafe c id (((c.voters id).without index).turn id timedOut task) := by
  have hold := hc.voters id
  have hsf := hold.tasks task hts
  have hk : ∀ task' ∈ ((c.voters id).without index).tasks,
      task' ∈ (c.voters id).tasks ∨ TaskSafe c.members c.grants id (c.voters id) task' :=
    fun _ h => .inl (mem_without h)
  have hs : ∀ {new : Task} (v' : Voter), v'.tasks = ((c.voters id).without index).tasks →
      TaskSafe c.members c.grants id (c.voters id) new → ∀ task' ∈ (v'.spawn new).tasks,
      task' ∈ (c.voters id).tasks ∨ TaskSafe c.members c.grants id (c.voters id) task' := by
    intro new v' hv' hnew task' ht'
    rcases mem_spawn ht' with h | rfl
    · exact hk task' (hv' ▸ h)
    · exact .inr hnew
  have hn : ∀ {α : Type} {P : α → Prop}, ∀ a ∈ ([] : List α), P a := nofun
  cases task with
  | record newTerm => exact effectSafe_record hc hm hts ho
  | vote currentTerm request => exact effectSafe_vote hc hm hts ho
  | campaign newTerm =>
    refine .quiet hc rfl rfl rfl rfl rfl (hs _ rfl hsf) ?_ hn hn
    intro r hr
    obtain rfl := mem_singleton.mp hr
    exact hsf.1
  | poll newTerm =>
    simp only [turn]
    split
    · exact .quiet hc rfl rfl rfl rfl rfl (hs _ rfl hsf) hn hn hn
    · exact .quiet hc rfl rfl rfl rfl rfl (hs _ rfl hsf) hn hn hn
  | tally newTerm =>
    simp only [turn]
    split
    · next hq =>
      have htr : (c.voters id).voteState.term = newTerm := ho hq
      have hcn := hold.counted (by rw [htr]; exact hsf.1)
      have he : Elected c.members c.grants id newTerm := by
        refine ⟨(c.voters id).voteState.votesReceived,fun x hx => (hcn x hx).2,?_,?_⟩
        · have hmj := hold.quorum hsf.2
          have hen : (c.voters id).quorumSize ≤ (c.voters id).voteState.votesReceived.card := hq
          omega
        · intro x hx
          rw [← htr]
          exact (hcn x hx).1
      exact .quiet hc rfl rfl rfl rfl rfl (hs _ rfl he) hn hn hn
    · exact .quiet hc rfl rfl rfl rfl rfl hk hn hn hn
  | becomePrimary term =>
    refine .quiet hc rfl rfl rfl rfl rfl (hs _ rfl trivial) hn hn ?_
    intro i hi
    obtain rfl := mem_singleton.mp hi
    exact hsf
  | elected response =>
    refine .quiet hc rfl rfl rfl rfl rfl (hs _ rfl ?_) hn hn hn
    show Elected c.members c.grants id (c.voters id).term
    rw [show (c.voters id).term = response.term from ho]
    exact hsf
  | lead token | know token | settle token
  | swap payload => exact .quiet hc rfl rfl rfl rfl rfl (hs _ rfl trivial) hn hn hn
  | broadcast token | stepDown payload | store payload => exact .quiet hc rfl rfl rfl rfl rfl hk hn hn hn
  | follow payload =>
    simp only [turn]
    split
    · exact .quiet hc rfl rfl rfl rfl rfl hk hn hn hn
    · exact .quiet hc rfl rfl rfl rfl rfl (hs _ rfl trivial) hn hn hn
  | check payload =>
    simp only [turn]
    split
    · exact .quiet hc rfl rfl rfl rfl rfl (hs _ rfl trivial) hn hn hn
    · exact .quiet hc rfl rfl rfl rfl rfl hk hn hn hn

end

variable {response : VoteResponsePayload}

theorem effectSafe_receive (hc : c.Safe) (hsn : (id,response) ∈ c.responses)
    (hg : response.voteGranted = true) (htr : response.term = (c.voters id).voteState.term) :
    EffectSafe c id { voter := (c.voters id).receiveVote response.voterId } := by
  have hold := hc.voters id
  obtain ⟨hgr,hm,-⟩ := hc.responses _ hsn hg
  have ha : c.grants ++ [] = c.grants := append_nil _
  constructor
  · rfl
  · rfl
  · exact le_rfl
  · exact hold.recorded
  · exact le_rfl
  · exact fun _ _ hvt => hvt
  · exact nofun
  · intro hs voter hv
    rw [ha] at hs ⊢
    rcases Finset.mem_insert.mp hv with rfl | hv
    · refine ⟨?_,hm⟩
      show (⟨response.voterId,(c.voters id).voteState.term,id⟩ : Grant) ∈ c.grants
      rw [← htr]
      exact hgr
    · exact hold.counted hs voter hv
  · intro task hin
    rw [ha]
    exact (hold.tasks task hin).mono (fun _ h => h) le_rfl rfl
  · exact nofun
  · exact nofun
  · exact nofun

theorem EffectSafe.spawn {v : Voter} (h : EffectSafe c id { voter := v })
    (hts : TaskSafe c.members c.grants id v task) : EffectSafe c id { voter := v.spawn task } := by
  refine ⟨h.observer,h.quorumSize,h.term,h.recorded,h.voteTerm,h.kept,h.grants,h.counted,?_,h.requests,
    h.responses,h.issued⟩
  intro task' hin
  rcases mem_spawn hin with hin | rfl
  · exact (h.tasks task' hin).mono (fun _ h => h) le_rfl rfl
  · exact TaskSafe.mono hts (subset_append_left ..) le_rfl rfl

variable (hc : c.Safe)
include hc

theorem effectSafe_idle : EffectSafe c id { voter := c.voters id } := by
  have hn : ∀ {α : Type} {P : α → Prop}, ∀ a ∈ ([] : List α), P a := nofun
  exact .quiet hc rfl rfl rfl rfl rfl (fun _ h => .inl h) hn hn hn

theorem effectSafe_voteResponse (hs : (id,response) ∈ c.responses)
    (ho : (c.voters id).isObserver = false) : EffectSafe c id ((c.voters id).handleVoteResponse response) := by
  simp only [handleVoteResponse]
  split
  · exact effectSafe_idle hc
  split
  · exact effectSafe_idle hc
  next htr =>
  rw [not_not] at htr
  split
  · next hg =>
    have hr := effectSafe_receive hc hs hg htr
    split
    · next hq =>
      refine hr.spawn ?_
      obtain ⟨-,-,hsl⟩ := hc.responses _ hs hg
      have hcn := hr.counted
      rw [append_nil] at hcn
      have hv := hcn (by show (⟨id,(c.voters id).voteState.term,id⟩ : Grant) ∈ c.grants; rwa [← htr])
      refine ⟨_,fun x hx => (hv x hx).2,?_,?_⟩
      · have hm := (hc.voters id).quorum ho
        have he : (c.voters id).quorumSize ≤
            ((c.voters id).receiveVote response.voterId).voteState.votesReceived.card := hq
        show c.members.card < 2 * ((c.voters id).receiveVote response.voterId).voteState.votesReceived.card
        omega
      · intro x hx
        rw [htr]
        exact (hv x hx).1
    · exact hr
  · exact effectSafe_idle hc

theorem effectSafe_countVote (hs : (id,response) ∈ c.responses) : EffectSafe c id ((c.voters id).countVote response) := by
  simp only [countVote]
  split
  · next h => exact effectSafe_receive hc hs h.1 h.2
  · exact effectSafe_idle hc

theorem effectSafe_voteRequest {request : VoteRequestPayload} (hs : request ∈ c.requests) :
    EffectSafe c id { voter := (c.voters id).spawn (.vote (c.voters id).term request) } :=
  (effectSafe_idle hc).spawn ⟨le_rfl,hc.requests request hs⟩

theorem effectSafe_requestVotes (hob : (c.voters id).isObserver = false)
    (ho : (c.voters id).term + 1 < u64) : EffectSafe c id (c.voters id).requestVotes := by
  have hold := hc.voters id
  simp only [requestVotes,Nat.mod_eq_of_lt ho]
  have hr : EffectSafe c id { voter := { c.voters id with term := (c.voters id).term + 1 } } := by
    refine ⟨rfl,rfl,Nat.le_succ _,hold.recorded.trans (Nat.le_succ _),le_rfl,(fun _ _ h => h),nofun,
      ?_,?_,nofun,nofun,nofun⟩
    · rw [append_nil]
      exact hold.counted
    · intro task hin
      exact (hold.tasks task hin).mono (subset_append_left ..) (Nat.le_succ _) rfl
  exact hr.spawn ⟨le_rfl,hob⟩

theorem effectSafe_fencingToken {payload : FencingTokenPayload} (hts : TaskSafe c.members c.grants id (c.voters id) task) :
    EffectSafe c id ((c.voters id).handleFencingToken id payload task) := by
  have hn : ∀ {α : Type} {P : α → Prop}, ∀ a ∈ ([] : List α), P a := nofun
  simp only [handleFencingToken]
  split
  · exact (effectSafe_idle hc).spawn hts
  · exact .quiet hc rfl rfl rfl rfl rfl (fun _ h => .inl h) hn hn hn

theorem effectSafe_of_effect {action : Action} (hm : action.id ∈ c.members)
    (hor : c.Orderly action) {e : Effect} (he : c.effect action = some e) : EffectSafe c action.id e := by
  cases action with
  | requestVotes id =>
    simp only [effect] at he
    split at he
    · cases he
    · next ho =>
      obtain rfl := inj he
      exact effectSafe_requestVotes hc (Bool.eq_false_of_not_eq_true ho) hor
  | voteRequest id request =>
    simp only [effect] at he
    split at he
    · cases he
    next hs =>
    rw [not_not] at hs
    split at he <;> obtain rfl := inj he <;> exact effectSafe_voteRequest hc hs
  | voteResponse id response =>
    simp only [effect] at he
    split at he
    · cases he
    next hs =>
    obtain ⟨hs,ho⟩ := not_or.mp hs
    rw [not_not] at hs
    obtain rfl := inj he
    exact effectSafe_voteResponse hc hs (Bool.eq_false_of_not_eq_true ho)
  | countVote id response =>
    simp only [effect] at he
    split at he
    · cases he
    next hs =>
    obtain ⟨hs,-⟩ := not_or.mp hs
    rw [not_not] at hs
    obtain rfl := inj he
    exact effectSafe_countVote hc hs
  | fencingToken id payload | connectionToken id payload =>
    simp only [effect] at he
    split at he
    · cases he
    obtain rfl := inj he
    exact effectSafe_fencingToken hc trivial
  | turn id index timedOut =>
    simp only [effect] at he
    split at he
    · cases he
    next task hts =>
    obtain rfl := inj he
    exact effectSafe_turn hc hm (mem_of_getElem? hts) (hor task hts)

omit hc

namespace Cluster

theorem Safe.step (hc : c.Safe) {action : Action} (ho : c.Orderly action) : (c.step action).Safe := by
  simp only [Cluster.step]
  split
  · exact hc
  next hm =>
  rw [not_not] at hm
  split
  · exact hc
  · next e he => exact hc.apply (effectSafe_of_effect hc hm ho he)

theorem Safe.terms (hc : c.Safe) {action : Action} (ho : c.Orderly action) (id : Uuid) :
    (c.voters id).term ≤ ((c.step action).voters id).term ∧
      (c.voters id).voteState.term ≤ ((c.step action).voters id).voteState.term := by
  simp only [Cluster.step]
  split
  · exact ⟨le_rfl,le_rfl⟩
  next hm =>
  rw [not_not] at hm
  split
  · exact ⟨le_rfl,le_rfl⟩
  next e he =>
  have hs := effectSafe_of_effect hc hm ho he
  by_cases hid : id = action.id
  · subst hid
    simp only [Cluster.apply,update_self]
    exact ⟨hs.term,hs.voteTerm⟩
  · simp only [Cluster.apply,update_of_ne hid]
    exact ⟨le_rfl,le_rfl⟩

theorem safe_start {members : Finset Uuid} {voters : Uuid → Voter} (hf : ∀ id, Fresh (voters id))
    (hq : ∀ id, (voters id).isObserver = false → members.card < 2 * (voters id).quorumSize) : (start members voters).Safe := by
  refine ⟨?_,nofun,nofun,nofun,nofun⟩
  intro id
  show VoterSafe members [] id (voters id)
  refine ⟨hq id,?_,nofun,nofun,?_⟩
  · obtain ⟨role,quorumSize,h⟩ | h := hf id <;> rw [h] <;> exact le_rfl
  · intro task hts
    obtain ⟨role,quorumSize,h⟩ | h := hf id <;> rw [h] at hts <;> cases hts

end Cluster
end

/-- In every run of orderly turns at most one node becomes primary in a term, each voter votes for at most one
candidate in it, and terms do not go down. -/
theorem election_safety {members : Finset Uuid} {voters : Uuid → Voter} (hfresh : ∀ id, Cluster.Fresh (voters id))
    (hquorum : ∀ id, (voters id).isObserver = false → members.card < 2 * (voters id).quorumSize)
    {actions : List Action} (horderly : Guarded Cluster.step Cluster.Orderly (.start members voters) actions) :
    let c := run Cluster.step (.start members voters) actions
    (∀ i ∈ c.issued, ∀ j ∈ c.issued, i.term = j.term → i.node = j.node) ∧
    (∀ g ∈ c.grants, ∀ h ∈ c.grants, g.voter = h.voter → g.term = h.term → g.candidate = h.candidate) ∧
    ∀ action, c.Orderly action → ∀ id, (c.voters id).term ≤ ((c.step action).voters id).term ∧
      (c.voters id).voteState.term ≤ ((c.step action).voters id).voteState.term := by
  intro c
  have hc : c.Safe := guarded_run_invariant _ _ (fun s a hs ha => hs.step ha) (Cluster.safe_start hfresh hquorum) horderly
  refine ⟨?_,hc.unique,fun action haction id => hc.terms haction id⟩
  intro i hi j hj hterm
  have hj' : Elected c.members c.grants j.node i.term := hterm ▸ hc.issued j hj
  exact (hc.issued i hi).unique hj' hc.unique

theorem sampleVoters_quorum (id : Uuid) (h : (sampleVoters id).isObserver = false) :
    sampleMembers.card < 2 * (sampleVoters id).quorumSize := by
  unfold sampleVoters at h ⊢
  split
  · next hid =>
    rw [if_pos hid] at h
    cases h
  · exact (show sampleMembers.card < 2*2 from by decide)

/-- Node 2 is elected by the observer. -/
def sampleElection : List Action :=
  [.requestVotes 2,.turn 2 0 false,.turn 2 0 false,.voteRequest 3 ⟨2,2⟩,.turn 3 0 false,
    .voteResponse 2 (grantedBy 3 2 0),.turn 2 1 false,.turn 2 1 false,.turn 2 0 true,.turn 2 1 false]

theorem election_safety_observed :
    let c := run Cluster.step (.start sampleMembers sampleVoters) sampleElection
    c.issued = [⟨2,2,2⟩] ∧
      (∀ g ∈ c.grants, ∀ h ∈ c.grants, g.voter = h.voter → g.term = h.term → g.candidate = h.candidate) :=
  ⟨by decide +kernel,(election_safety sampleVoters_fresh sampleVoters_quorum
    (show Guarded Cluster.step Cluster.Orderly (.start sampleMembers sampleVoters) sampleElection from by
      decide +kernel)).2.1⟩

/-- Node 1 takes a term and, before it records its own vote, gives it to node 2. -/
def sampleSplit : List Action :=
  [.requestVotes 1,.requestVotes 2,.turn 2 0 false,.turn 2 0 false,.voteRequest 1 ⟨2,2⟩,.turn 1 1 false,
    .voteResponse 2 (grantedBy 1 2 1),.turn 2 1 false,.turn 2 1 false,.turn 1 0 false,.turn 1 0 false,
    .voteRequest 3 ⟨1,2⟩,.turn 3 0 false,.voteResponse 1 (grantedBy 3 2 0),.turn 1 1 false,.turn 1 1 false]

theorem two_primaries_elected : ∃ c, c = run Cluster.step (.start sampleMembers sampleVoters) sampleSplit ∧
    (∀ id, Cluster.Fresh (sampleVoters id)) ∧
    (∀ id, (sampleVoters id).isObserver = false → sampleMembers.card < 2 * (sampleVoters id).quorumSize) ∧
    (⟨2,2,2⟩ : Issue) ∈ c.issued ∧ (⟨1,2,2⟩ : Issue) ∈ c.issued ∧
    (⟨1,2,2⟩ : Grant) ∈ c.grants ∧ (⟨1,2,1⟩ : Grant) ∈ c.grants := by
  refine ⟨_,rfl,sampleVoters_fresh,sampleVoters_quorum,?_,?_,?_,?_⟩
  · decide +kernel
  · decide +kernel
  · decide +kernel
  · decide +kernel

end HeliosNano.Replication.SplitBrain
