import HeliosNano.Replication.SplitBrain

namespace HeliosNano.Replication.SplitBrain
open Foundation List Function Option.some Cluster

namespace Cluster

def Announced (c : Cluster) (id : Uuid) (i : Issue) : Prop :=
  ∃ r ∈ c.receipts, r.node = id ∧ r.payload.issuerId = i.node ∧ r.payload.token = i.token
deriving Decidable

/-- Primaries begin in the order of their terms, each after the announcements of the earlier ones; a node leads as long
as its token is still the newest it knows; a token that is stored is newer than the one it replaces. -/
def FencedTurn (c : Cluster) (id : Uuid) : Task → Prop
  | .becomePrimary term => (c.voters id).fencingToken + 1 < u64 ∧
      ∀ i ∈ c.issued, i.term ≤ term ∧ (i.term < term → i.node = id ∨ c.Announced id i)
  | .lead token => (c.voters id).fencingToken = token
  | .swap payload => (c.voters id).fencingToken < payload.token
  | .store payload => (c.voters id).fencingToken < payload.token
  | _ => True

instance (c : Cluster) (id : Uuid) : (task : Task) → Decidable (c.FencedTurn id task)
  | .becomePrimary term => inferInstanceAs (Decidable (_ ∧ ∀ i ∈ c.issued, i.term ≤ term ∧ (i.term < term → _ ∨ _)))
  | .lead _ => inferInstanceAs (Decidable (_ = _))
  | .swap _ | .store _ => inferInstanceAs (Decidable (_ < _))
  | .record _ | .campaign _ | .poll _ | .tally _ | .know _ | .settle _ | .broadcast _ | .vote _ _ | .elected _
  | .follow _ | .check _ | .stepDown _ => inferInstanceAs (Decidable True)

def Fenced (c : Cluster) : Action → Prop
  | .turn id index _ => ∀ task ∈ (c.voters id).tasks[index]?, c.FencedTurn id task
  | _ => True

instance (c : Cluster) : (action : Action) → Decidable (c.Fenced action)
  | .turn id index _ => inferInstanceAs (Decidable (∀ task ∈ (c.voters id).tasks[index]?, c.FencedTurn id task))
  | .requestVotes _ | .voteRequest _ _ | .voteResponse _ _ | .countVote _ _ | .fencingToken _ _
  | .connectionToken _ _ => inferInstanceAs (Decidable True)

end Cluster

def FencingTokenPayload.IssuedAs (payload : FencingTokenPayload) (i : Issue) : Prop :=
  payload.issuerId = i.node ∧ payload.token = i.token

def TaskFenced (announcements : List FencingTokenPayload) (issued : List Issue) (id : Uuid) (v : Voter) : Task → Prop
  | .lead token => ∃ term, ⟨id,term,token⟩ ∈ issued
  | .know token => ∃ term, ⟨id,term,token⟩ ∈ issued
  | .settle token => ∃ term, ⟨id,term,token⟩ ∈ issued
  | .broadcast token => ∃ term, ⟨id,term,token⟩ ∈ issued
  | .swap payload => payload ∈ announcements
  | .store payload => payload ∈ announcements
  | .follow payload => payload ∈ announcements ∧ payload.token ≤ v.fencingToken
  | .check payload => payload ∈ announcements ∧ payload.token ≤ v.fencingToken
  | .stepDown payload => payload ∈ announcements ∧ payload.token ≤ v.fencingToken
  | _ => True

structure Cluster.Ordered (c : Cluster) : Prop where
  tasks : ∀ id, ∀ task ∈ (c.voters id).tasks, TaskFenced c.announcements c.issued id (c.voters id) task
  announcements : ∀ p ∈ c.announcements, ∃ i ∈ c.issued, p.IssuedAs i
  receipts : ∀ r ∈ c.receipts, r.payload ∈ c.announcements ∧ r.payload.token ≤ (c.voters r.node).fencingToken
  own : ∀ i ∈ c.issued, i.token ≤ (c.voters i.node).fencingToken
  ordered : ∀ i ∈ c.issued, ∀ j ∈ c.issued, j.term < i.term → j.token < i.token
  /-- A primary that was told of a later one has been elected again. -/
  led : ∀ id, (c.voters id).role = .primary → ∀ r ∈ c.receipts, r.node = id → r.stage = .finished →
    ∀ i ∈ c.issued, r.payload.IssuedAs i → i.node ≠ id → ∃ j ∈ c.issued, j.node = id ∧ i.term ≤ j.term

section
variable {c : Cluster} {id : Uuid} {e : Effect} {v v' : Voter} {issued issued' : List Issue}
  {announcements announcements' : List FencingTokenPayload}

theorem TaskFenced.mono {task : Task} (h : TaskFenced announcements issued id v task)
    (ha : announcements ⊆ announcements') (hi : issued ⊆ issued') (htk : v.fencingToken ≤ v'.fencingToken) :
    TaskFenced announcements' issued' id v' task := by
  have htr : ∀ {token : Nat}, (∃ term, ⟨id,term,token⟩ ∈ issued) → ∃ term, ⟨id,term,token⟩ ∈ issued' :=
    fun ⟨term,hm⟩ => ⟨term,hi hm⟩
  cases task with
  | lead token | know token | settle token | broadcast token => exact htr h
  | swap payload | store payload => exact ha h
  | follow payload | check payload | stepDown payload => exact ⟨ha h.1,h.2.trans htk⟩
  | record newTerm | campaign newTerm | poll newTerm | tally newTerm | becomePrimary term | elected response
  | vote currentTerm request => trivial

structure EffectFenced (c : Cluster) (id : Uuid) (e : Effect) : Prop where
  token : (c.voters id).fencingToken ≤ e.voter.fencingToken
  tasks : ∀ task ∈ e.voter.tasks, TaskFenced c.announcements (c.issued ++ e.issued) id e.voter task
  announcements : ∀ p ∈ e.announcements, ∃ i ∈ c.issued, p.IssuedAs i
  receipts : ∀ r ∈ e.receipts, r.node = id ∧ r.payload ∈ c.announcements ∧ r.payload.token ≤ e.voter.fencingToken
  issued : ∀ i ∈ e.issued, i.node = id ∧ (c.voters id).fencingToken < i.token ∧ i.token ≤ e.voter.fencingToken ∧
    ∀ j ∈ c.issued, j.term ≤ i.term ∧ (j.term < i.term → j.token < i.token)
  single : ∀ i ∈ e.issued, ∀ j ∈ e.issued, i.term = j.term
  led : e.voter.role = .primary →
    (c.voters id).role = .primary ∧ (∀ r ∈ e.receipts, r.stage = .finished → r.payload.issuerId = id) ∨
      e.receipts = [] ∧ ∃ j ∈ c.issued, j.node = id ∧ j.token = (c.voters id).fencingToken

variable (hc : c.Ordered)
include hc

theorem Cluster.Ordered.announced_old {p : FencingTokenPayload} (hp : p ∈ c.announcements) {i : Issue}
    (hi : (c.voters i.node).fencingToken < i.token) : ¬ p.IssuedAs i := by
  rintro ⟨hn,htk⟩
  obtain ⟨old,hold,hn',ht'⟩ := hc.announcements p hp
  have hle := hc.own old hold
  rw [← hn',hn] at hle
  omega

theorem Cluster.Ordered.apply (h : EffectFenced c id e) : (c.apply id e).Ordered := by
  have ha : c.announcements ⊆ c.announcements ++ e.announcements := subset_append_left ..
  have his : c.issued ⊆ c.issued ++ e.issued := subset_append_left ..
  have htk : ∀ other, (c.voters other).fencingToken ≤ ((c.apply id e).voters other).fencingToken := by
    intro other
    by_cases hid : other = id
    · subst hid
      simp only [Cluster.apply,update_self]
      exact h.token
    · simp only [Cluster.apply,update_of_ne hid]
      exact le_rfl
  have hs : (c.apply id e).voters id = e.voter := update_self ..
  refine ⟨?_,?_,?_,?_,?_,?_⟩
  · intro other task hts
    by_cases hid : other = id
    · subst hid
      rw [hs] at hts ⊢
      exact (h.tasks task hts).mono ha (fun _ hi => hi) le_rfl
    · have hsame : (c.apply id e).voters other = c.voters other := update_of_ne hid ..
      rw [hsame] at hts ⊢
      exact (hc.tasks other task hts).mono ha his le_rfl
  · intro p hp
    rcases mem_append.mp hp with hp | hp
    · obtain ⟨i,hi,hsame⟩ := hc.announcements p hp
      exact ⟨i,his hi,hsame⟩
    · obtain ⟨i,hi,hsame⟩ := h.announcements p hp
      exact ⟨i,his hi,hsame⟩
  · intro r hr
    rcases mem_append.mp hr with hr | hr
    · exact ⟨ha (hc.receipts r hr).1,(hc.receipts r hr).2.trans (htk r.node)⟩
    · obtain ⟨hn,hp,hle⟩ := h.receipts r hr
      rw [hn,hs]
      exact ⟨ha hp,hle⟩
  · intro i hi
    rcases mem_append.mp hi with hi | hi
    · exact (hc.own i hi).trans (htk i.node)
    · obtain ⟨hn,-,hle,-⟩ := h.issued i hi
      rw [hn,hs]
      exact hle
  · intro i hi j hj htr
    rcases mem_append.mp hi with hi | hi <;> rcases mem_append.mp hj with hj | hj
    · exact hc.ordered i hi j hj htr
    · -- a new primary has the highest term
      have hle := ((h.issued j hj).2.2.2 i hi).1
      omega
    · exact ((h.issued i hi).2.2.2 j hj).2 htr
    · have hsame := h.single i hi j hj
      omega
  · intro other hrl r hr hn hst i hi hsame hne
    -- whatever issue is known of was there before this turn
    have hold : i ∈ c.issued := by
      rcases mem_append.mp hi with hi | hi
      · exact hi
      obtain ⟨hin,hlt,-,-⟩ := h.issued i hi
      refine absurd hsame (hc.announced_old ?_ (by rwa [hin]))
      rcases mem_append.mp hr with hr | hr
      · exact (hc.receipts r hr).1
      · exact (h.receipts r hr).2.1
    have hl : (∃ j ∈ c.issued, j.node = other ∧ i.term ≤ j.term) →
        ∃ j ∈ c.issued ++ e.issued, j.node = other ∧ i.term ≤ j.term :=
      fun ⟨j,hj,hj'⟩ => ⟨j,his hj,hj'⟩
    refine hl ?_
    by_cases hid : other = id
    · subst hid
      rw [hs] at hrl
      obtain ⟨hb,hf⟩ | ⟨hnn,j,hj,hjn,hjt⟩ := h.led hrl
      · rcases mem_append.mp hr with hr | hr
        · exact hc.led other hb r hr hn hst i hold hsame hne
        · exact absurd (hsame.1.symm.trans (hf r hr hst)) hne
      · rw [Cluster.apply,hnn,append_nil] at hr
        have hle := (hc.receipts r hr).2
        rw [hn,← hjt,hsame.2] at hle
        refine ⟨j,hj,hjn,?_⟩
        by_contra hlt
        have := hc.ordered i hold j hj (not_le.mp hlt)
        omega
    · have hs' : (c.apply id e).voters other = c.voters other := update_of_ne hid ..
      rw [hs'] at hrl
      rcases mem_append.mp hr with hr | hr
      · exact hc.led other hrl r hr hn hst i hold hsame hne
      · exact absurd (hn.symm.trans (h.receipts r hr).1) hid

theorem EffectFenced.quiet (htk : e.voter.fencingToken = (c.voters id).fencingToken) (hrl : e.voter.role = (c.voters id).role)
    (hts : ∀ task ∈ e.voter.tasks, task ∈ (c.voters id).tasks ∨ TaskFenced c.announcements c.issued id (c.voters id) task)
    (ha : e.announcements = []) (hi : e.issued = []) (hr : e.receipts = []) : EffectFenced c id e := by
  refine ⟨htk.ge,?_,?_,?_,?_,?_,?_⟩
  · intro task hta
    rw [hi,append_nil]
    rcases hts task hta with hold | hs
    · exact (hc.tasks id task hold).mono (fun _ h => h) (fun _ h => h) htk.ge
    · exact hs.mono (fun _ h => h) (fun _ h => h) htk.ge
  · rw [ha]
    exact nofun
  · rw [hr]
    exact nofun
  · rw [hi]
    exact nofun
  · rw [hi]
    exact nofun
  · intro hp
    refine .inl ⟨hrl ▸ hp,?_⟩
    rw [hr]
    exact nofun

variable {index : Nat} {payload : FencingTokenPayload}
variable {timedOut : Bool} {task : Task}

theorem effectFenced_becomePrimary {term : Nat} (hf : c.FencedTurn id (.becomePrimary term)) :
    EffectFenced c id (((c.voters id).without index).turn id timedOut (.becomePrimary term)) := by
  obtain ⟨hbd,ho⟩ := hf
  have htr : ((c.voters id).without index).turn id timedOut (.becomePrimary term) =
      { voter := { (c.voters id).without index with fencingToken := (c.voters id).fencingToken + 1 }.spawn
          (.lead ((c.voters id).fencingToken + 1))
        issued := [⟨id,term,(c.voters id).fencingToken + 1⟩] } := by
    simp only [Voter.turn,Nat.mod_eq_of_lt hbd]
  rw [htr]
  have hnew : (⟨id,term,(c.voters id).fencingToken + 1⟩ : Issue) ∈
      c.issued ++ [⟨id,term,(c.voters id).fencingToken + 1⟩] := mem_append_right _ (mem_singleton_self _)
  refine ⟨Nat.le_succ _,?_,nofun,nofun,?_,?_,?_⟩
  · intro task hts
    rcases mem_spawn hts with hold | rfl
    · exact (hc.tasks id task (mem_without hold)).mono (fun _ h => h) (subset_append_left ..) (Nat.le_succ _)
    · exact ⟨term,hnew⟩
  · intro i hi
    obtain rfl := mem_singleton.mp hi
    refine ⟨rfl,Nat.lt_succ_self _,le_rfl,fun j hj => ⟨(ho j hj).1,fun hlt => ?_⟩⟩
    apply Nat.lt_succ_of_le
    obtain how | ⟨r,hr,hn,-,htk⟩ := (ho j hj).2 hlt
    · exact how ▸ hc.own j hj
    · rw [← htk,← hn]
      exact (hc.receipts r hr).2
  · intro i hi j hj
    rw [mem_singleton.mp hi,mem_singleton.mp hj]
  · intro hp
    exact .inl ⟨hp,nofun⟩

theorem effectFenced_accept (hs : payload ∈ c.announcements) (hn : (c.voters id).fencingToken < payload.token)
    (hv : e.voter.fencingToken = payload.token) (hrl : e.voter.role = (c.voters id).role)
    (hts : ∀ task ∈ e.voter.tasks, task ∈ ((c.voters id).without index).tasks ∨ task = .follow payload)
    (ha : e.announcements = []) (hi : e.issued = []) (hrc : e.receipts = [⟨id,payload,.accepted⟩]) : EffectFenced c id e := by
  refine ⟨hv ▸ hn.le,?_,?_,?_,?_,?_,?_⟩
  · intro task htk
    rw [hi,append_nil]
    rcases hts task htk with hold | rfl
    · exact (hc.tasks id task (mem_without hold)).mono (fun _ h => h) (fun _ h => h) (hv ▸ hn.le)
    · exact ⟨hs,hv.ge⟩
  · rw [ha]
    exact nofun
  · rw [hrc]
    intro r hr
    obtain rfl := mem_singleton.mp hr
    exact ⟨rfl,hs,hv.ge⟩
  · rw [hi]
    exact nofun
  · rw [hi]
    exact nofun
  · intro hp
    refine .inl ⟨hrl ▸ hp,?_⟩
    rw [hrc]
    intro r hr hst
    obtain rfl := mem_singleton.mp hr
    cases hst

theorem effectFenced_finish (hs : payload ∈ c.announcements) (hle : payload.token ≤ (c.voters id).fencingToken)
    (hv : e.voter.fencingToken = (c.voters id).fencingToken) (htk : e.voter.tasks = ((c.voters id).without index).tasks)
    (hrl : e.voter.role = .primary → (c.voters id).role = .primary ∧ payload.issuerId = id)
    (ha : e.announcements = []) (hi : e.issued = []) (hrc : e.receipts = [⟨id,payload,.finished⟩]) : EffectFenced c id e := by
  refine ⟨hv.ge,?_,?_,?_,?_,?_,?_⟩
  · intro task hts
    rw [hi,append_nil]
    rw [htk] at hts
    exact (hc.tasks id task (mem_without hts)).mono (fun _ h => h) (fun _ h => h) hv.ge
  · rw [ha]
    exact nofun
  · rw [hrc]
    intro r hr
    obtain rfl := mem_singleton.mp hr
    exact ⟨rfl,hs,hle.trans hv.ge⟩
  · rw [hi]
    exact nofun
  · rw [hi]
    exact nofun
  · intro hp
    refine .inl ⟨(hrl hp).1,?_⟩
    rw [hrc]
    intro r hr _
    obtain rfl := mem_singleton.mp hr
    exact (hrl hp).2

theorem effectFenced_turn (htk : task ∈ (c.voters id).tasks) (hf : c.FencedTurn id task) :
    EffectFenced c id (((c.voters id).without index).turn id timedOut task) := by
  have hs := hc.tasks id task htk
  have hk : ∀ task' ∈ ((c.voters id).without index).tasks,
      task' ∈ (c.voters id).tasks ∨ TaskFenced c.announcements c.issued id (c.voters id) task' :=
    fun _ h => .inl (mem_without h)
  have hsp : ∀ {new : Task} (v' : Voter), v'.tasks = ((c.voters id).without index).tasks →
      TaskFenced c.announcements c.issued id (c.voters id) new → ∀ task' ∈ (v'.spawn new).tasks,
      task' ∈ (c.voters id).tasks ∨ TaskFenced c.announcements c.issued id (c.voters id) task' := by
    intro new v' hv' hnew task' ht'
    rcases mem_spawn ht' with h | rfl
    · exact hk task' (hv' ▸ h)
    · exact .inr hnew
  cases task with
  | record newTerm | campaign newTerm | elected response => exact .quiet hc rfl rfl (hsp _ rfl trivial) rfl rfl rfl
  | poll newTerm =>
    simp only [Voter.turn]
    split
    · exact .quiet hc rfl rfl (hsp _ rfl trivial) rfl rfl rfl
    · exact .quiet hc rfl rfl (hsp _ rfl trivial) rfl rfl rfl
  | tally newTerm =>
    simp only [Voter.turn]
    split
    · exact .quiet hc rfl rfl (hsp _ rfl trivial) rfl rfl rfl
    · exact .quiet hc rfl rfl hk rfl rfl rfl
  | becomePrimary term => exact effectFenced_becomePrimary hc hf
  | vote currentTerm request =>
    obtain ⟨hto,hr,hts⟩ := castVote_frame id ((c.voters id).without index) currentTerm request
    exact .quiet hc hto hr (fun task' h => hk task' (hts ▸ h)) rfl rfl rfl
  | lead token =>
    have hn : (c.voters id).fencingToken = token := hf
    obtain ⟨term,hi⟩ := hs
    refine ⟨le_rfl,?_,nofun,nofun,nofun,nofun,?_⟩
    · intro task' ht'
      refine TaskFenced.mono ?_ (fun _ h => h) (subset_append_left ..) le_rfl
      rcases hsp _ rfl (show TaskFenced c.announcements c.issued id (c.voters id) (.know token) from ⟨term,hi⟩)
        task' ht' with h | h
      · exact (hc.tasks id task' h).mono (fun _ h => h) (fun _ h => h) le_rfl
      · exact h.mono (fun _ h => h) (fun _ h => h) le_rfl
    · exact fun _ => .inr ⟨rfl,_,hi,rfl,hn.symm⟩
  | know token | settle token => exact .quiet hc rfl rfl (hsp _ rfl hs) rfl rfl rfl
  | broadcast token =>
    obtain ⟨term,hi⟩ := hs
    refine ⟨le_rfl,?_,?_,nofun,nofun,nofun,?_⟩
    · intro task' ht'
      exact (hc.tasks id task' (mem_without ht')).mono (fun _ h => h) (subset_append_left ..) le_rfl
    · intro p hp
      obtain rfl := mem_singleton.mp hp
      exact ⟨_,hi,rfl,rfl⟩
    · exact fun hpr => .inl ⟨hpr,nofun⟩
  | swap payload => exact effectFenced_accept hc hs hf rfl rfl (fun task' h => mem_spawn h) rfl rfl rfl
  | follow payload =>
    simp only [Voter.turn]
    split
    · exact .quiet hc rfl rfl hk rfl rfl rfl
    · exact .quiet hc rfl rfl (hsp _ rfl hs) rfl rfl rfl
  | check payload =>
    simp only [Voter.turn]
    split
    · exact .quiet hc rfl rfl (hsp _ rfl hs) rfl rfl rfl
    next hst =>
    refine effectFenced_finish hc hs.1 hs.2 rfl rfl (fun hpr => ⟨hpr,?_⟩) rfl rfl rfl
    by_contra hne
    exact hst ⟨hpr,hne⟩
  | stepDown payload => exact effectFenced_finish hc hs.1 hs.2 rfl rfl nofun rfl rfl rfl
  | store payload => exact effectFenced_accept hc hs hf rfl rfl (fun _ h => .inl h) rfl rfl rfl

theorem effectFenced_idle : EffectFenced c id { voter := c.voters id } :=
  .quiet hc rfl rfl (fun _ h => .inl h) rfl rfl rfl

theorem effectFenced_spawn {v : Voter} (hto : v.fencingToken = (c.voters id).fencingToken)
    (hr : v.role = (c.voters id).role) (hts : v.tasks = (c.voters id).tasks) {task : Task}
    (htk : TaskFenced c.announcements c.issued id (c.voters id) task) : EffectFenced c id { voter := v.spawn task } := by
  refine .quiet hc hto hr ?_ rfl rfl rfl
  intro task' h
  rcases mem_spawn h with h | rfl
  · exact .inl (hts ▸ h)
  · exact .inr htk

theorem effectFenced_fencingToken (hsn : payload ∈ c.announcements)
    (hts : TaskFenced c.announcements c.issued id (c.voters id) task) :
    EffectFenced c id ((c.voters id).handleFencingToken id payload task) := by
  simp only [Voter.handleFencingToken]
  split
  · exact effectFenced_spawn hc rfl rfl rfl hts
  next hold =>
  refine ⟨le_rfl,?_,nofun,?_,nofun,nofun,?_⟩
  · intro task' h
    exact (hc.tasks id task' h).mono (fun _ h => h) (subset_append_left ..) le_rfl
  · intro r hr
    obtain rfl := mem_singleton.mp hr
    exact ⟨rfl,hsn,not_lt.mp hold⟩
  · intro hp
    refine .inl ⟨hp,fun r hr hs => ?_⟩
    obtain rfl := mem_singleton.mp hr
    cases hs

theorem effectFenced_voteResponse (response : VoteResponsePayload) :
    EffectFenced c id ((c.voters id).handleVoteResponse response) := by
  simp only [Voter.handleVoteResponse]
  split
  · exact effectFenced_idle hc
  split
  · exact effectFenced_idle hc
  split
  · have hts : TaskFenced c.announcements c.issued id (c.voters id) (.elected response) := trivial
    split
    · exact @effectFenced_spawn _ id hc ((c.voters id).receiveVote response.voterId) rfl rfl rfl _ hts
    · exact .quiet hc rfl rfl (fun _ h => .inl h) rfl rfl rfl
  · exact effectFenced_idle hc

theorem effectFenced_of_effect {action : Action} (hf : c.Fenced action) {e : Effect}
    (he : c.effect action = some e) : EffectFenced c action.id e := by
  cases action with
  | requestVotes id =>
    simp only [effect] at he
    split at he
    · cases he
    obtain rfl := inj he
    have hts : TaskFenced c.announcements c.issued id (c.voters id) (.record (((c.voters id).term + 1)%u64)) :=
      trivial
    exact @effectFenced_spawn _ id hc { c.voters id with term := ((c.voters id).term + 1)%u64 } rfl rfl rfl _ hts
  | voteRequest id request =>
    simp only [effect] at he
    split at he
    · cases he
    have hts : TaskFenced c.announcements c.issued id (c.voters id) (.vote (c.voters id).term request) := trivial
    split at he <;> obtain rfl := inj he <;> exact effectFenced_spawn hc rfl rfl rfl hts
  | voteResponse id response =>
    simp only [effect] at he
    split at he
    · cases he
    obtain rfl := inj he
    exact effectFenced_voteResponse hc response
  | countVote id response =>
    simp only [effect] at he
    split at he
    · cases he
    obtain rfl := inj he
    simp only [Voter.countVote]
    split
    · exact .quiet hc rfl rfl (fun _ h => .inl h) rfl rfl rfl
    · exact effectFenced_idle hc
  | fencingToken id payload =>
    simp only [effect] at he
    split at he
    · cases he
    next hs =>
    rw [not_not] at hs
    obtain rfl := inj he
    exact effectFenced_fencingToken hc hs hs
  | connectionToken id payload =>
    simp only [effect] at he
    split at he
    · cases he
    next hs =>
    obtain ⟨hs,-⟩ := not_or.mp hs
    rw [not_not] at hs
    obtain rfl := inj he
    exact effectFenced_fencingToken hc hs hs
  | turn id index timedOut =>
    simp only [effect] at he
    split at he
    · cases he
    next task hts =>
    obtain rfl := inj he
    exact effectFenced_turn hc (mem_of_getElem? hts) (hf task hts)

omit hc

namespace Cluster

theorem Ordered.step (hc : c.Ordered) {action : Action} (hf : c.Fenced action) : (c.step action).Ordered := by
  simp only [Cluster.step]
  split
  · exact hc
  split
  · exact hc
  · next e he => exact hc.apply (effectFenced_of_effect hc hf he)

theorem Ordered.token (hc : c.Ordered) {action : Action} (hf : c.Fenced action) (id : Uuid) :
    (c.voters id).fencingToken ≤ ((c.step action).voters id).fencingToken := by
  simp only [Cluster.step]
  split
  · exact le_rfl
  split
  · exact le_rfl
  next e he =>
  by_cases hid : id = action.id
  · subst hid
    simp only [Cluster.apply,update_self]
    exact (effectFenced_of_effect hc hf he).token
  · simp only [Cluster.apply,update_of_ne hid]
    exact le_rfl

theorem ordered_start {members : Finset Uuid} {voters : Uuid → Voter} (hf : ∀ id, Fresh (voters id)) :
    (start members voters).Ordered := by
  refine ⟨?_,nofun,nofun,nofun,nofun,
    nofun⟩
  intro id task hts
  change task ∈ (voters id).tasks at hts
  obtain ⟨role,quorumSize,h⟩ | h := hf id <;> rw [h] at hts <;> cases hts

end Cluster
end

/-- Node 2 issues a token in term 2 and announces it. -/
def sampleReign : List Action :=
  [.requestVotes 2,.turn 2 0 false,.turn 2 0 false,.voteRequest 3 ⟨2,2⟩,.turn 3 0 false,
    .voteResponse 2 (grantedBy 3 2 0)] ++ List.replicate 6 (.turn 2 1 false)

/-- Node 1 is elected in term 3, after a candidacy of its own that came to nothing. -/
def sampleSuccession : List Action :=
  [.requestVotes 1,.turn 1 0 false,.requestVotes 1,.turn 1 1 false,.turn 1 1 false,.voteRequest 3 ⟨1,3⟩,
    .turn 3 0 false,.voteResponse 1 (grantedBy 3 3 0),.turn 1 2 false,.turn 1 2 false]

/-- Node 1, a primary from the start, handles the announcement and steps down before it is elected again. -/
def sampleFailover : List Action :=
  sampleReign ++ [.fencingToken 1 ⟨2,2,2⟩] ++ List.replicate 4 (.turn 1 0 false) ++ sampleSuccession

end HeliosNano.Replication.SplitBrain
