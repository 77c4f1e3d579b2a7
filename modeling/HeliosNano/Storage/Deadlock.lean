import HeliosNano.Storage.LockManager

/-! The deadlock search over interleavings of the calls of the lock manager. The graph
is written when a request is refused and lags behind the table, and the search answers
for every cycle that it meets, also for one that its transaction is not on. -/
namespace HeliosNano.Storage.Deadlock
open Foundation LockManager Relation List AList

abbrev WaitGraph := Map TxnId (List TxnId)

def recorded (graph : WaitGraph) (txn : TxnId) : List TxnId := (graph.lookup txn).getD []

def Recorded (graph : WaitGraph) (txn other : TxnId) : Prop := other ∈ recorded graph txn

section
variable {graph : WaitGraph}

/-- An edge on a recorded cycle that can be reached from the node. -/
def CycleFrom (graph : WaitGraph) (node : TxnId) : Prop :=
  ∃ u w, ReflTransGen (Recorded graph) node u ∧ Recorded graph u w ∧ ReflTransGen (Recorded graph) w u

variable {node : TxnId} {visit : TxnId → Visit → Bool × Visit}

theorem CycleFrom.head {neighbor : TxnId} (he : Recorded graph node neighbor)
    (h : CycleFrom graph neighbor) : CycleFrom graph node := by
  obtain ⟨u,w,hu,huw,hw⟩ := h
  exact ⟨u,w,hu.head he,huw,hw⟩

/-- What a search promises: a yes comes from a cycle, a no gives the stack back. -/
def Sound (graph : WaitGraph) (node : TxnId) (v : Visit) (out : Bool × Visit) : Prop :=
  (out.1 = true → (∀ x ∈ v.recStack, ReflTransGen (Recorded graph) x node) → CycleFrom graph node) ∧
    (out.1 = false → out.2.recStack ⊆ v.recStack)

theorem scanNeighbors_sound (node : TxnId) {neighbors : List TxnId}
    (hv : ∀ neighbor v, Sound graph neighbor v (visit neighbor v))
    (heg : ∀ neighbor ∈ neighbors, Recorded graph node neighbor) (v : Visit) : ((scanNeighbors visit neighbors v).1 = true →
      (∀ x ∈ v.recStack, ReflTransGen (Recorded graph) x node) → CycleFrom graph node) ∧
    ((scanNeighbors visit neighbors v).1 = false → (scanNeighbors visit neighbors v).2.recStack ⊆ v.recStack) := by
  induction neighbors generalizing v with
  | nil => simp [scanNeighbors]
  | cons neighbor rest ih =>
    have hed := heg neighbor mem_cons_self
    have hrest := fun v => ih (fun n hn => heg n (mem_cons_of_mem _ hn)) v
    unfold scanNeighbors
    split
    · obtain ⟨hy,hno⟩ := hv neighbor v
      split
      next v' he =>
        rw [he] at hy
        refine ⟨fun _ hst => (hy rfl fun x hx => (hst x hx).tail hed).head hed,by simp⟩
      next v' he =>
        rw [he] at hno
        have hsb := hno rfl
        obtain ⟨hr,hs⟩ := hrest v'
        exact ⟨fun htr hst => hr htr fun x hx => hst x (hsb hx),fun hf => List.Subset.trans (hs hf) hsb⟩
    · split
      next hm =>
        exact ⟨fun _ hst => ⟨node,neighbor,.refl,hed,hst neighbor hm⟩,by simp⟩
      · exact hrest v

theorem hasCycle_sound (fuel : Nat) (node : TxnId) (v : Visit) : Sound graph node v (hasCycle graph fuel node v) := by
  induction fuel generalizing node v with
  | zero => exact ⟨by simp [hasCycle],fun _ => List.Subset.refl _⟩
  | succ fuel ih =>
    have hed : ∀ neighbor ∈ recorded graph node, Recorded graph node neighbor := fun _ hn => hn
    obtain ⟨hy,hno⟩ := scanNeighbors_sound node ih hed ⟨node::v.visited,node::v.recStack⟩
    unfold hasCycle
    split
    next v' he =>
      rw [recorded,he] at hy
      refine ⟨fun _ hs => hy rfl ?_,by simp⟩
      intro x hx
      rcases mem_cons.mp hx with rfl | hx
      · exact .refl
      · exact hs x hx
    next v' he =>
      rw [recorded,he] at hno
      refine ⟨by simp,fun _ x hx => ?_⟩
      obtain ⟨hm,hne⟩ := mem_filter.mp hx
      exact (mem_cons.mp (hno rfl hm)).resolve_left (by simpa using hne)

theorem scanNeighbors_grows (neighbors : List TxnId) (hv : ∀ neighbor v, v.visited ⊆ (visit neighbor v).2.visited) (v : Visit) :
    v.visited ⊆ (scanNeighbors visit neighbors v).2.visited := by
  induction neighbors generalizing v with
  | nil => exact List.Subset.refl _
  | cons neighbor rest ih =>
    have hg := hv neighbor v
    unfold scanNeighbors
    split
    · split
      next v' he =>
        rwa [he] at hg
      next v' he =>
        rw [he] at hg
        exact List.Subset.trans hg (ih v')
    · split
      · exact List.Subset.refl _
      · exact ih v

theorem hasCycle_grows (fuel : Nat) (node : TxnId) (v : Visit) : v.visited ⊆ (hasCycle graph fuel node v).2.visited := by
  induction fuel generalizing node v with
  | zero => exact List.Subset.refl _
  | succ fuel ih =>
    have hg := scanNeighbors_grows ((graph.lookup node).getD []) ih ⟨node::v.visited,node::v.recStack⟩
    have hs := List.Subset.trans (subset_cons_self node v.visited) hg
    unfold hasCycle
    split
    next v' he =>
      rwa [he] at hs
    next v' he =>
      rwa [he] at hs

def unvisited (graph : WaitGraph) (visited : List TxnId) : Nat :=
  (graph.keys.filter (· ∉ visited)).length

variable {visited : List TxnId}

theorem unvisited_anti {visited' : List TxnId} (h : visited ⊆ visited') : unvisited graph visited' ≤ unvisited graph visited := by
  apply List.Sublist.length_le
  apply monotone_filter_right
  intro node hn
  simp only [decide_eq_true_eq] at hn ⊢
  exact fun hm => hn (h hm)

theorem unvisited_cons_lt (hkey : node ∈ graph) (hnew : node ∉ visited) :
    unvisited graph (node::visited) < unvisited graph visited := by
  have hs : graph.keys.filter (· ∉ node::visited) = (graph.keys.filter (· ∉ visited)).filter (· ≠ node) := by
    rw [filter_filter]
    apply filter_congr
    intro x _
    simp [not_or]
  rw [unvisited,unvisited,hs]
  apply length_filter_lt_length_iff_exists.mpr
  exact ⟨node,mem_filter.mpr ⟨AList.mem_keys.mp hkey,by simpa using hnew⟩,by simp⟩

end

/-- A request that was refused and that its transaction has not given up. -/
structure Request where
  resource : String
  lockType : LockType
  /-- The deadlock search of this refusal is over. -/
  searched : Bool
deriving DecidableEq, Repr

/-- The lock manager, and of each transaction its last request while that is a refused one. -/
structure State where
  manager : LockManager
  requests : Map TxnId Request

def new (timeoutMs : Nat) : State := ⟨.new timeoutMs,∅⟩

/-- The calls that interleave. `acquire_lock` is a try and, when it is refused, a search;
other calls may come between the two. -/
inductive Step
  | tryAcquireLock (resource : String) (txn : TxnId) (lockType : LockType)
  | detectDeadlock (txn : TxnId)
  | cloneGuard (guard : LockGuard)
  | releaseLock (resource : String) (txn : TxnId)
  | cleanupTransaction (txn : TxnId)
deriving DecidableEq, Repr

/-- The search that the transaction has to do after a refusal finds a deadlock. -/
def State.Aborts (s : State) (txn : TxnId) : Prop :=
  (s.requests.lookup txn).map (·.searched) = some false ∧ s.manager.detectDeadlock txn = true
deriving Decidable

def step (s : State) : Step → State
  | .tryAcquireLock resource txn lockType =>
    match s.manager.tryAcquireLock resource txn lockType with
    | (m,.conflict _) => ⟨m,s.requests.insert txn ⟨resource,lockType,false⟩⟩
    | (m,_) => ⟨m,s.requests.erase txn⟩
  | .detectDeadlock txn =>
    if s.Aborts txn then ⟨s.manager.cleanupTransaction txn,s.requests.erase txn⟩
    else match s.requests.lookup txn with
      | some request => { s with requests := s.requests.insert txn { request with searched := true } }
      | none => s
  | .cloneGuard guard => { s with manager := s.manager.cloneGuard guard }
  | .releaseLock resource txn => { s with manager := s.manager.releaseLockInternal resource txn }
  | .cleanupTransaction txn => ⟨s.manager.cleanupTransaction txn,s.requests.erase txn⟩

/-- The true wait-for relation: the last request of the one was refused, and the other now
holds the requested resource in a mode that conflicts with the request. -/
def State.WaitsFor (s : State) (txn other : TxnId) : Prop :=
  ∃ request state current, s.requests.lookup txn = some request ∧
    s.manager.locks.lookup request.resource = some state ∧ other ≠ txn ∧ other ∈ state.holders ∧
    state.lockType = some current ∧ request.lockType.isCompatibleWith current = false

/-- Every edge of a recorded cycle that the searching transaction can reach is a wait at this
moment, and the cycle leads back to the transaction. -/
def CyclesAreCurrent (s : State) : Step → Prop
  | .detectDeadlock txn => ∀ u w, ReflTransGen (Recorded s.manager.waitGraph) txn u →
      Recorded s.manager.waitGraph u w → ReflTransGen (Recorded s.manager.waitGraph) w u →
      s.WaitsFor u w ∧ ReflTransGen (Recorded s.manager.waitGraph) u txn
  | _ => True

theorem acquireRound_eq_steps (s : State) (resource : String) (txn : TxnId) (lockType : LockType) :
    (run step s [.tryAcquireLock resource txn lockType,.detectDeadlock txn]).manager =
      (s.manager.acquireRound resource txn lockType false).1 := by
  cases he : s.manager.tryAcquireLock resource txn lockType with
  | mk m result =>
    cases result with
    | granted guard | panicked => simp [step,he,State.Aborts,acquireRound]
    | conflict error =>
      by_cases hd : m.detectDeadlock txn = true
      · simp [step,he,State.Aborts,acquireRound,hd]
      · simp [step,he,State.Aborts,acquireRound,hd]

variable {u txn : TxnId} {s : State} {w : TxnId}
variable (hc : CyclesAreCurrent s (.detectDeadlock txn))
include hc

theorem waitsFor_of_walk
    (hr : ReflTransGen (Recorded s.manager.waitGraph) txn u) (hw : ReflTransGen (Recorded s.manager.waitGraph) u w)
    (hb : ReflTransGen (Recorded s.manager.waitGraph) w txn) : ReflTransGen s.WaitsFor u w := by
  induction hw with
  | refl => exact .refl
  | @tail x y hx hxy ih =>
    have hf := hr.trans hx
    exact (ih (hb.head hxy)).tail (hc x y hf hxy (hb.trans hf)).1

theorem aborts_on_cycle (h : s.Aborts txn) : TransGen s.WaitsFor txn txn := by
  obtain ⟨u,w,hu,huw,hw⟩ := (hasCycle_sound _ txn ⟨[],[]⟩).1 h.2 (by simp)
  obtain ⟨hwt,hb⟩ := hc u w hu huw hw
  have ho := waitsFor_of_walk hc .refl hu hb
  have hr := waitsFor_of_walk hc (hu.tail huw) (hw.trans hb) .refl
  exact TransGen.trans_right ho (TransGen.head' hwt hr)

omit hc

/-- Two writers that each ask for the row of the other. -/
def crossed : List Step :=
  [.tryAcquireLock "data:t:1" 1 .write,.tryAcquireLock "data:t:2" 2 .write,
    .tryAcquireLock "data:t:2" 1 .write,.tryAcquireLock "data:t:1" 2 .write]

theorem waitsFor_crossed : (run step (new 1000) crossed).WaitsFor 1 2 ∧ (run step (new 1000) crossed).WaitsFor 2 1 :=
  ⟨⟨⟨"data:t:2",.write,false⟩,_,.write,by decide +kernel,rfl,by decide,by decide +kernel,rfl,rfl⟩,
    ⟨⟨"data:t:1",.write,false⟩,_,.write,by decide +kernel,rfl,by decide,by decide +kernel,rfl,rfl⟩⟩

theorem recorded_crossed (h : Recorded (run step (new 1000) crossed).manager.waitGraph u w) : u = 1 ∧ w = 2 ∨ u = 2 ∧ w = 1 := by
  have he : (run step (new 1000) crossed).manager.waitGraph.entries = [⟨2,[1]⟩,⟨1,[2]⟩] := by
    decide +kernel
  obtain ⟨waits,hl,hw⟩ : ∃ waits, (run step (new 1000) crossed).manager.waitGraph.lookup u = some waits ∧ w ∈ waits := by
    cases hl : (run step (new 1000) crossed).manager.waitGraph.lookup u with
    | none => simp [Recorded,recorded,hl] at h
    | some waits => exact ⟨waits,rfl,by simpa [Recorded,recorded,hl] using h⟩
  have hm := mem_lookup_iff.mp hl
  rw [he] at hm
  simp only [mem_cons,Sigma.mk.injEq,heq_eq_eq,not_mem_nil,or_false] at hm
  rcases hm with ⟨rfl,rfl⟩ | ⟨rfl,rfl⟩
  · exact .inr ⟨rfl,by simpa using hw⟩
  · exact .inl ⟨rfl,by simpa using hw⟩

end HeliosNano.Storage.Deadlock
