import HeliosNano.Foundation.Runs
import HeliosNano.Storage.LockTable

namespace HeliosNano.Storage
open Foundation

structure LockManager where
  locks : LockTable
  waitGraph : Map TxnId (List TxnId)
  timeoutMs : Nat

inductive AcquireRound
  | granted (guard : LockGuard)
  | failed (error : Error)
  | waiting
  | panicked
deriving DecidableEq, Repr

namespace LockManager
open LockTable

def new (timeoutMs : Nat) : LockManager := ⟨∅,∅,timeoutMs⟩

/-- The critical section of the table and, inside it, the wait-for graph. A refused
transaction waits for the holders other than itself. -/
def tryAcquireLock (m : LockManager) (resource : String) (txn : TxnId) (lockType : LockType) :
    LockManager × AcquireResult :=
  match m.locks.acquireSection resource txn lockType with
  | (locks,.granted guard) =>
    ({ m with locks := locks, waitGraph := m.waitGraph.erase txn },.granted guard)
  | (locks,.conflict error) =>
    ({ m with
        locks := locks
        waitGraph := m.waitGraph.insert txn ((locks.entry resource).holders.filter (· ≠ txn)) },
      .conflict error)
  | (locks,.panicked) => ({ m with locks := locks },.panicked)

def primaryHolder (m : LockManager) (resource : String) : TxnId :=
  ((m.locks.lookup resource).bind (·.holders.head?)).getD 0

def releaseLockInternal (m : LockManager) (resource : String) (txn : TxnId) : LockManager :=
  { m with
    locks := thenReap resource (m.locks.releaseSection resource txn)
    waitGraph := m.waitGraph.erase txn }

def cloneGuard (m : LockManager) (guard : LockGuard) : LockManager :=
  { m with locks := m.locks.cloneSection guard.lockId guard.transactionId }

/-- The sets threaded through the depth-first search. -/
structure Visit where
  visited : List TxnId
  recStack : List TxnId

/-- The loop over the neighbours of a node, `visit` being the recursive call. -/
def scanNeighbors (visit : TxnId → Visit → Bool × Visit) : List TxnId → Visit → Bool × Visit
  | [], v => (false,v)
  | neighbor::rest, v =>
    if neighbor ∉ v.visited then
      match visit neighbor v with
      | (true,v) => (true,v)
      | (false,v) => scanNeighbors visit rest v
    else if neighbor ∈ v.recStack then (true,v)
    else scanNeighbors visit rest v

/-- Depth-first cycle search; the fuel bounds the depth of the recursion. -/
def hasCycle (graph : Map TxnId (List TxnId)) : Nat → TxnId → Visit → Bool × Visit
  | 0, _, v => (false,v)
  | fuel+1, node, v =>
    match scanNeighbors (hasCycle graph fuel) ((graph.lookup node).getD [])
        ⟨node::v.visited,node::v.recStack⟩ with
    | (true,v) => (true,v)
    | (false,v) => (false,{ v with recStack := v.recStack.filter (· ≠ node) })

/-- Every nested call of the search visits another key of the graph, and only a
node that is no key can follow the last of them. -/
def detectDeadlock (m : LockManager) (txn : TxnId) : Bool :=
  (hasCycle m.waitGraph (m.waitGraph.keys.length+1) txn ⟨[],[]⟩).1

/-- Forget the transaction in the wait-for graph and, key by key, in the table. -/
def cleanupTransaction (m : LockManager) (txn : TxnId) : LockManager :=
  { m with
    locks := m.locks.keys.foldl (fun locks key => thenReap key (locks.cleanupSection key txn)) m.locks
    waitGraph := m.waitGraph.erase txn }

/-- The table and row of a `data:` resource, for the conflict report. -/
def splitRowResource (resource : String) : String × String :=
  match resource.toList with
  | 'd' :: 'a' :: 't' :: 'a' :: ':' :: body =>
    match body.span (· ≠ ':') with
    | (table,_::row) => (String.ofList table,String.ofList row)
    | (_,[]) => ("",resource)
  | _ => ("",resource)

/-- One round of the acquire loop. Whether the timeout has passed is an input:
the clock is not part of the model. -/
def acquireRound (m : LockManager) (resource : String) (txn : TxnId) (lockType : LockType)
    (timedOut : Bool) : LockManager × AcquireRound :=
  match m.tryAcquireLock resource txn lockType with
  | (m,.granted guard) => (m,.granted guard)
  | (m,.panicked) => (m,.panicked)
  | (m,.conflict _) =>
    if m.detectDeadlock txn then
      (m.cleanupTransaction txn,
        .failed (.deadlock ("Deadlock detected for transaction " ++ toString txn)))
    else if timedOut then
      let (table,row) := splitRowResource resource
      (m.cleanupTransaction txn,
        .failed (.writeConflict table row (m.primaryHolder resource) txn m.timeoutMs))
    else (m,.waiting)

theorem tryAcquireLock_locks (m : LockManager) (resource : String) (txn : TxnId) (lockType : LockType) :
    (m.tryAcquireLock resource txn lockType).1.locks = (m.locks.acquireSection resource txn lockType).1 ∧
      (m.tryAcquireLock resource txn lockType).2 = (m.locks.acquireSection resource txn lockType).2 := by
  unfold tryAcquireLock
  split <;> simp_all

def Refuses (m : LockManager) (resource : String) (txn : TxnId) (lockType : LockType) (timedOut : Bool) :
    Prop :=
  (m.locks.entry resource).canAcquire txn lockType = false ∧
    ((m.tryAcquireLock resource txn lockType).1.detectDeadlock txn = true ∨ timedOut = true)

variable {resource : String} {m : LockManager} {timedOut : Bool} {lockType : LockType} {txn other : TxnId} {held : String}

theorem acquireRound_of_not_refuses (h : ¬m.Refuses resource txn lockType timedOut) :
    (m.acquireRound resource txn lockType timedOut).1.locks = (m.locks.acquireSection resource txn lockType).1 ∧
      ∀ error, (m.acquireRound resource txn lockType timedOut).2 ≠ .failed error := by
  obtain ⟨hl,hr⟩ := tryAcquireLock_locks m resource txn lockType
  unfold acquireRound
  split
  next he =>
    exact ⟨by rw [← hl,he],by simp⟩
  next he =>
    exact ⟨by rw [← hl,he],by simp⟩
  next m' error he =>
    rw [he] at hr hl
    have hc : (m.locks.entry resource).canAcquire txn lockType = false := by
      by_contra hc
      simp only [Bool.not_eq_false] at hc
      simp only [acquireSection,hc,if_true] at hr
      split at hr <;> cases hr
    have hn : ¬(m'.detectDeadlock txn = true ∨ timedOut = true) := by
      intro hor
      apply h
      refine ⟨hc,?_⟩
      rwa [he]
    rw [not_or] at hn
    rw [if_neg hn.1,if_neg hn.2]
    exact ⟨hl,by simp⟩

theorem acquireRound_of_refuses (h : m.Refuses resource txn lockType timedOut) :
    (m.acquireRound resource txn lockType timedOut).1 = (m.tryAcquireLock resource txn lockType).1.cleanupTransaction txn ∧
      ∃ error, (m.acquireRound resource txn lockType timedOut).2 = .failed error := by
  obtain ⟨hc,hd⟩ := h
  obtain ⟨hl,hr⟩ := tryAcquireLock_locks m resource txn lockType
  simp only [acquireSection,hc,Bool.false_eq_true,if_false] at hr
  cases he : m.tryAcquireLock resource txn lockType with
  | mk m' result =>
    rw [he] at hr hd
    dsimp only at hr hd
    subst hr
    simp only [acquireRound,he]
    by_cases hdd : m'.detectDeadlock txn = true
    · rw [if_pos hdd]
      exact ⟨rfl,_,rfl⟩
    · rw [if_neg hdd,if_pos (hd.resolve_left hdd)]
      exact ⟨rfl,_,rfl⟩

theorem acquireRound_granted {guard : LockGuard} (h : (m.acquireRound resource txn lockType timedOut).2 = .granted guard) :
    (m.locks.acquireSection resource txn lockType).2 = .granted guard := by
  rw [← (tryAcquireLock_locks m resource txn lockType).2]
  unfold acquireRound at h
  split at h
  next he =>
    cases h
    rw [he]
  · cases h
  · split at h
    · cases h
    · split at h <;> cases h

theorem cleanupTransaction_wf (h : m.locks.Wf) (txn : TxnId) : (m.cleanupTransaction txn).locks.Wf := by
  unfold cleanupTransaction
  dsimp only
  generalize m.locks.keys = keys
  generalize m.locks = locks at h ⊢
  induction keys generalizing locks with
  | nil => exact h
  | cons key rest ih => exact ih _ ((h.cleanupSection key txn).thenReap key)

theorem cleanupTransaction_heldForWrite (h : m.locks.HeldForWrite held txn) (hne : other ≠ txn) :
    (m.cleanupTransaction other).locks.HeldForWrite held txn := by
  unfold cleanupTransaction
  dsimp only
  generalize m.locks.keys = keys
  generalize m.locks = locks at h ⊢
  induction keys generalizing locks with
  | nil => exact h
  | cons key rest ih =>
    apply ih
    exact (h.cleanupSection fun hand => hne hand.2).thenReap cleanupSection_reaps

theorem cleanupTransaction_not_held (m : LockManager) (resource : String) (txn : TxnId) :
    ¬(m.cleanupTransaction txn).locks.HeldForWrite resource txn := by
  rintro ⟨state,hl,hh,-⟩
  suffices hg : txn ∉ state.holders by simp [hh] at hg
  have hm : resource ∈ m.locks.keys ∨ ∀ st, m.locks.lookup resource = some st → txn ∉ st.holders := by
    by_cases hk : resource ∈ m.locks
    · exact .inl (AList.mem_keys.mp hk)
    · refine .inr fun st hst => ?_
      simp [AList.lookup_eq_none.mpr hk] at hst
  clear hh
  unfold cleanupTransaction at hl
  dsimp only at hl
  generalize m.locks.keys = keys at hl hm
  generalize m.locks = locks at hl hm
  -- A key still to come is cleaned when its turn comes, one already cleaned stays so.
  induction keys generalizing locks with
  | nil => exact hm.resolve_left (by simp) state hl
  | cons key rest ih =>
    refine ih _ hl ?_
    by_cases he : resource = key
    · exact .inr fun st hst => (lookup_cleanup hst).1 he
    · rcases hm with hm | hm
      · exact .inl ((List.mem_cons.mp hm).resolve_left he)
      · exact .inr fun st hst => hm st ((lookup_cleanup hst).2 he)

theorem acquireRound_wf (h : m.locks.Wf) (resource : String) (txn : TxnId) (lockType : LockType) (timedOut : Bool) :
    (m.acquireRound resource txn lockType timedOut).1.locks.Wf := by
  have htr : (m.tryAcquireLock resource txn lockType).1.locks.Wf :=
    (tryAcquireLock_locks m resource txn lockType).1 ▸ h.acquireSection resource txn lockType
  by_cases hr : m.Refuses resource txn lockType timedOut
  · rw [(acquireRound_of_refuses hr).1]
    exact cleanupTransaction_wf htr txn
  · rw [(acquireRound_of_not_refuses hr).1]
    exact h.acquireSection resource txn lockType

theorem acquireRound_heldForWrite (h : m.locks.HeldForWrite held txn)
    (hne : m.Refuses resource other lockType timedOut → other ≠ txn) :
    (m.acquireRound resource other lockType timedOut).1.locks.HeldForWrite held txn := by
  by_cases hr : m.Refuses resource other lockType timedOut
  · rw [(acquireRound_of_refuses hr).1]
    apply cleanupTransaction_heldForWrite _ (hne hr)
    rw [(tryAcquireLock_locks m resource other lockType).1]
    exact h.acquireSection resource other lockType
  · rw [(acquireRound_of_not_refuses hr).1]
    exact h.acquireSection resource other lockType

theorem releaseLockInternal_heldForWrite (hw : m.locks.Wf) (h : m.locks.HeldForWrite held txn) (hne : other ≠ txn) :
    (m.releaseLockInternal resource other).locks.HeldForWrite held txn :=
  (h.releaseSection hw fun hand => hne hand.2).thenReap releaseSection_reaps

/-- The calls of the lock manager, executed one at a time. -/
inductive Call
  | tryAcquireLock (resource : String) (txn : TxnId) (lockType : LockType)
  | cloneGuard (guard : LockGuard)
  | dropGuard (guard : LockGuard)
  | cleanupTransaction (txn : TxnId)
deriving DecidableEq, Repr

def perform (m : LockManager) : Call → LockManager
  | .tryAcquireLock resource txn lockType => (m.tryAcquireLock resource txn lockType).1
  | .cloneGuard guard => m.cloneGuard guard
  | .dropGuard guard => m.releaseLockInternal guard.lockId guard.transactionId
  | .cleanupTransaction txn => m.cleanupTransaction txn

theorem perform_wf (m : LockManager) (call : Call) (h : m.locks.Wf) : (m.perform call).locks.Wf := by
  cases call with
  | tryAcquireLock resource txn lockType => exact (tryAcquireLock_locks m resource txn lockType).1 ▸ h.acquireSection resource txn lockType
  | cloneGuard guard => exact h.cloneSection _ _
  | dropGuard guard => exact (h.releaseSection _ _).thenReap _
  | cleanupTransaction txn => exact cleanupTransaction_wf h txn

/-- In every state that calls executed one at a time reach, whatever the calls
and their arguments, every lock state meets the table invariant. -/
theorem lock_table_invariant (timeoutMs : Nat) (calls : List Call) (resource : String)
    (state : LockState) (h : (run perform (new timeoutMs) calls).locks.lookup resource = some state) : state.Wf :=
  run_invariant perform (fun m => m.locks.Wf) perform_wf
    (LockTable.wf_empty : (new timeoutMs).locks.Wf) calls resource state h

/-- Two readers, then one of them asks for the exclusive lock and is refused. -/
theorem lock_table_invariant_shared :
    ∃ state, (run perform (new 1000) [.tryAcquireLock "data:t:1" 7 .read,.tryAcquireLock "data:t:1" 8 .read,
        .tryAcquireLock "data:t:1" 7 .write]).locks.lookup "data:t:1" = some state ∧ state.holders = [7,8] ∧ state.Wf := by
  have h : ((run perform (new 1000) [.tryAcquireLock "data:t:1" 7 .read,.tryAcquireLock "data:t:1" 8 .read,
      .tryAcquireLock "data:t:1" 7 .write]).locks.lookup "data:t:1").map (·.holders) = some [7,8] := by
    decide +kernel
  obtain ⟨state,hs,hh⟩ := Option.map_eq_some_iff.mp h
  exact ⟨state,hs,hh,lock_table_invariant 1000 _ "data:t:1" state hs⟩

end LockManager
end HeliosNano.Storage
