import HeliosNano.Foundation.Maps
import Mathlib.Algebra.GroupWithZero.Nat

namespace HeliosNano.Advisory
open Foundation

abbrev SessionId := Nat

inductive AdvisoryKeyId
  | bigInt (key : Int)
  | pair (key1 key2 : Int)
deriving DecidableEq, Repr

structure AdvisoryKey where
  database : Nat
  id : AdvisoryKeyId
deriving DecidableEq, Repr

inductive AdvisoryScope
  | session
  | transaction
deriving DecidableEq, Repr

structure Holder where
  owner : SessionId
  sessionCount : Nat
  xactCount : Nat
deriving DecidableEq, Repr

namespace Holder

def new (owner : SessionId) : Holder := ⟨owner,0,0⟩

variable (h : Holder)

def bump : AdvisoryScope → Holder
  | .session => { h with sessionCount := h.sessionCount+1 }
  | .transaction => { h with xactCount := h.xactCount+1 }

def isEmpty : Bool := h.sessionCount == 0 && h.xactCount == 0

def count : AdvisoryScope → Nat
  | .session => h.sessionCount
  | .transaction => h.xactCount

end Holder

abbrev Locks := Map AdvisoryKey Holder

/-- The two counters are read without the mutex. -/
structure AdvisoryLockManager where
  locks : Locks
  entries : Nat
  xactEntries : Nat

/-- What one turn of a blocking call ends in. -/
inductive Turn
  | granted
  | refused (message : String)
  | timedOut (message : String)
  | waits
deriving DecidableEq, Repr

namespace AdvisoryLockManager

def new : AdvisoryLockManager := ⟨∅,0,0⟩

variable (locks : Locks) (m : AdvisoryLockManager) (owner : SessionId) (key : AdvisoryKey)

/-- The manager with a changed table: every call that changes it counts anew. -/
def refreshCounters : AdvisoryLockManager :=
  ⟨locks,locks.entries.length,(locks.entries.filter fun entry => decide (0 < entry.2.xactCount)).length⟩

def hasLocks : Bool := decide (0 < m.entries)

def hasTransactionLocks : Bool := decide (0 < m.xactEntries)

def checkQuota (maxPerSession : Nat) : Option String :=
  if maxPerSession = 0 then none
  else if maxPerSession ≤ (locks.entries.filter fun entry => decide (entry.2.owner = owner)).length then
    some ("out of advisory lock slots: session already holds " ++ toString maxPerSession ++
      " advisory locks (raise [locks] max_advisory_locks_per_session, or release locks with pg_advisory_unlock_all())")
  else none

/-- The arms that both acquisitions have; nothing when another session holds the key. -/
def take (owner : SessionId) (scope : AdvisoryScope) (maxPerSession : Nat) : Option (AdvisoryLockManager × Except String Unit) :=
  match m.locks.lookup key with
  | some holder =>
    if holder.owner = owner then some (refreshCounters (m.locks.insert key (holder.bump scope)),.ok ()) else none
  | none =>
    match checkQuota m.locks owner maxPerSession with
    | some message => some (m,.error message)
    | none => some (refreshCounters (m.locks.insert key ((Holder.new owner).bump scope)),.ok ())

def tryAcquire (owner : SessionId) (scope : AdvisoryScope) (maxPerSession : Nat) : AdvisoryLockManager × Except String Bool :=
  match m.take key owner scope maxPerSession with
  | some (m,.ok ()) => (m,.ok true)
  | some (m,.error message) => (m,.error message)
  | none => (m,.ok false)

/-- One turn of the loop of `acquire`; `expired` says that its deadline has passed. -/
def acquireTurn (owner : SessionId) (scope : AdvisoryScope) (expired : Bool) (maxPerSession : Nat) : AdvisoryLockManager × Turn :=
  match m.take key owner scope maxPerSession with
  | some (m,.ok ()) => (m,.granted)
  | some (m,.error message) => (m,.refused message)
  | none =>
    if expired then
      (m,.timedOut "canceling statement due to statement timeout while waiting for advisory lock")
    else (m,.waits)

/-- A holder that holds nothing more goes. -/
def store (holder : Holder) : Locks :=
  if holder.isEmpty then locks.erase key else locks.insert key holder

def unlock (owner : SessionId) : AdvisoryLockManager × Bool :=
  match m.locks.lookup key with
  | some holder =>
    if holder.owner = owner ∧ 0 < holder.sessionCount then
      (refreshCounters (store m.locks key { holder with sessionCount := holder.sessionCount-1 }),true)
    else (m,false)
  | none => (m,false)

def releaseMatching (zero : Holder → Holder × Nat) : AdvisoryLockManager × Nat :=
  let lowered := m.locks.mapValues fun holder => if holder.owner = owner then (zero holder).1 else holder
  let freed := ((m.locks.entries.filter fun entry => decide (entry.2.owner = owner)).map fun entry => (zero entry.2).2).sum
  (refreshCounters (lowered.retain fun _ holder => !(decide (holder.owner = owner) && holder.isEmpty)),freed)

def unlockAll : AdvisoryLockManager × Nat :=
  m.releaseMatching owner fun holder => ({ holder with sessionCount := 0 },holder.sessionCount)

def releaseTransaction : AdvisoryLockManager × Nat :=
  m.releaseMatching owner fun holder => ({ holder with xactCount := 0 },holder.xactCount)

def releaseSession : AdvisoryLockManager × Nat :=
  m.releaseMatching owner fun holder =>
    ({ holder with sessionCount := 0, xactCount := 0 },holder.sessionCount+holder.xactCount)

def releaseKey (acc : Locks × Nat) (key : AdvisoryKey) : Locks × Nat :=
  match acc.1.lookup key with
  | some holder =>
    if holder.owner ≠ owner ∨ holder.xactCount = 0 then acc
    else (store acc.1 key { holder with xactCount := holder.xactCount-1 },acc.2+1)
  | none => acc

def releaseTransactionKeys (keys : List AdvisoryKey) : AdvisoryLockManager × Nat :=
  if keys.isEmpty then (m,0)
  else
    let (locks,freed) := keys.foldl (releaseKey owner) (m.locks,0)
    (refreshCounters locks,freed)

end AdvisoryLockManager

/-- A call of the manager. The last two are the hooks at the end of a transaction and of a
connection, which call only when the counter says that there is something to release. -/
inductive AdvisoryCall
  | tryAcquire (key : AdvisoryKey) (owner : SessionId) (scope : AdvisoryScope) (maxPerSession : Nat)
  | acquireTurn (key : AdvisoryKey) (owner : SessionId) (scope : AdvisoryScope) (expired : Bool) (maxPerSession : Nat)
  | unlock (key : AdvisoryKey) (owner : SessionId)
  | unlockAll (owner : SessionId)
  | releaseTransaction (owner : SessionId)
  | releaseTransactionKeys (owner : SessionId) (keys : List AdvisoryKey)
  | releaseSession (owner : SessionId)
  | transactionEnds (owner : SessionId)
  | connectionEnds (owner : SessionId)

namespace AdvisoryCall

def owner : AdvisoryCall → SessionId
  | tryAcquire _ owner _ _ | acquireTurn _ owner _ _ _ | unlock _ owner | unlockAll owner | releaseTransaction owner
  | releaseTransactionKeys owner _ | releaseSession owner | transactionEnds owner | connectionEnds owner => owner

/-- The table after the call, and whether the call granted the key or released it. -/
def perform (m : AdvisoryLockManager) : AdvisoryCall → AdvisoryLockManager × Bool
  | tryAcquire key owner scope maxPerSession =>
    match m.tryAcquire key owner scope maxPerSession with
    | (m,result) => (m,decide (result = .ok true))
  | acquireTurn key owner scope expired maxPerSession =>
    match m.acquireTurn key owner scope expired maxPerSession with
    | (m,turn) => (m,decide (turn = .granted))
  | unlock key owner => m.unlock key owner
  | unlockAll owner => ((m.unlockAll owner).1,true)
  | releaseTransaction owner => ((m.releaseTransaction owner).1,true)
  | releaseTransactionKeys owner keys => ((m.releaseTransactionKeys owner keys).1,true)
  | releaseSession owner => ((m.releaseSession owner).1,true)
  | transactionEnds owner => (if m.hasTransactionLocks then (m.releaseTransaction owner).1 else m,true)
  | connectionEnds owner => (if m.hasLocks then (m.releaseSession owner).1 else m,true)

end AdvisoryCall
end HeliosNano.Advisory
