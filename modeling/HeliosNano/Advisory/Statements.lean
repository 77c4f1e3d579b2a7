import HeliosNano.Advisory.Accounting
import HeliosNano.Foundation.Runs
import HeliosNano.Sql.Value

/-! Statements that call the advisory functions. A thread has a context while a statement runs on it,
and a list of the keys the statement took; the guard that installed the context gives them back. -/
namespace HeliosNano.Advisory
open Foundation Sql

inductive AdvisoryOwnership
  | connection
  | statement
deriving DecidableEq, Repr

structure AdvisoryContext where
  owner : Option SessionId
  ownership : AdvisoryOwnership
  statementTimeout : Option Nat
  maxLocksPerSession : Nat
  database : Nat
  inExplicitTransaction : Bool
  tookTransactionLock : Bool
  tookSessionLock : Bool

inductive AdvisoryFunction
  | advisoryLock
  | advisoryXactLock
  | tryAdvisoryLock
  | tryAdvisoryXactLock
  | advisoryUnlock
  | advisoryUnlockAll
deriving DecidableEq, Repr

/-- The texts name the function and what is given here. -/
inductive AdvisoryError
  | unscoped (function : AdvisoryFunction)
  | nullKey (function : AdvisoryFunction)
  | notInteger (function : AdvisoryFunction) (value : Value)
  | outOfRange (function : AdvisoryFunction) (raw : Int)
  | keyCount (function : AdvisoryFunction) (arguments : Nat)
  | noArguments (function : AdvisoryFunction)
  | queryExecution (message : String)

def isSessionScoped : AdvisoryFunction → Bool
  | .advisoryLock | .tryAdvisoryLock | .advisoryUnlock | .advisoryUnlockAll => true
  | .advisoryXactLock | .tryAdvisoryXactLock => false

def keyComponent (value : Value) (function : AdvisoryFunction) : Except AdvisoryError Int :=
  match value with
  | .int2 n | .int4 n | .int8 n => .ok n
  | .numeric s | .string s =>
    match parseI64 (trim s) with
    | some n => .ok n
    | none => .error (.notInteger function value)
  | _ => .error (.notInteger function value)

variable (function : AdvisoryFunction)

def toI32 (value : Value) : Except AdvisoryError Int := do
  let raw ← keyComponent value function
  if -2147483648 ≤ raw ∧ raw ≤ 2147483647 then .ok raw else .error (.outOfRange function raw)

def keyFromArgs (database : Nat) (args : List Value) : Except AdvisoryError AdvisoryKey :=
  if args.any (fun value => decide (value = .null)) then .error (.nullKey function)
  else
    match args with
    | [single] => do
      let key ← keyComponent single function
      .ok ⟨database,.bigInt key⟩
    | [first,second] => do
      let key1 ← toI32 function first
      let key2 ← toI32 function second
      .ok ⟨database,.pair key1 key2⟩
    | _ => .error (.keyCount function args.length)

/-- What is local to a thread: the context and the keys taken under it, the guards alive on the
thread, the innermost first, and the call that waits for a key. -/
structure ThreadLocals where
  context : Option AdvisoryContext
  xactKeys : List AdvisoryKey
  guards : List (Option AdvisoryContext)
  waiting : Option (AdvisoryKey × AdvisoryScope)

namespace ThreadLocals

def new : ThreadLocals := ⟨none,[],[],none⟩

variable (t : ThreadLocals)

/-- `install_if_absent`: a guard under another one installs nothing. -/
def install (context : AdvisoryContext) : ThreadLocals :=
  match t.context with
  | some _ => { t with guards := none::t.guards }
  | none => { t with context := some context, guards := some context :: t.guards }

def markTransactionLockTaken (key : AdvisoryKey) : ThreadLocals :=
  { t with
    context := t.context.map fun context => { context with tookTransactionLock := true }
    xactKeys := t.xactKeys ++ [key] }

def markSessionLockTaken : ThreadLocals :=
  { t with context := t.context.map fun context => { context with tookSessionLock := true } }

def mark (key : AdvisoryKey) : AdvisoryScope → ThreadLocals
  | .transaction => t.markTransactionLockTaken key
  | .session => t.markSessionLockTaken

end ThreadLocals

/-- How a call of a function ends. A blocking call that does not get its key goes on to wait. -/
inductive Evaluation
  | value (value : Value)
  | error (error : AdvisoryError)
  | waits

/-- The lock table with its books, the threads, and the next session id. -/
structure AdvisoryWorld where
  manager : AdvisoryLockManager
  ledger : Ledger
  threads : Nat → ThreadLocals
  nextSession : SessionId

inductive AdvisoryAction
  | newSession
  | call (call : AdvisoryCall)
  | installSession (thread : Nat) (owner : SessionId) (statementTimeout : Option Nat) (maxLocksPerSession database : Nat)
      (inExplicitTransaction : Bool)
  | installStatement (thread : Nat) (reachesAdvisory : Bool) (statementTimeout : Option Nat) (maxLocksPerSession database : Nat)
  | evaluate (thread : Nat) (function : AdvisoryFunction) (args : List Value)
  | turn (thread : Nat) (expired : Bool)
  | dropGuard (thread : Nat)

namespace AdvisoryWorld

def start : AdvisoryWorld := ⟨.new,fun _ => none,fun _ => .new,1⟩

variable (w : AdvisoryWorld) (thread : Nat)

def setThread (t : ThreadLocals) : AdvisoryWorld :=
  { w with threads := Function.update w.threads thread t }

def perform (w : AdvisoryWorld) (call : AdvisoryCall) : AdvisoryWorld × Bool :=
  let (manager,done) := call.perform w.manager
  ({ w with manager := manager, ledger := w.ledger.record call done },done)

def lockWith (context : AdvisoryContext) (owner : SessionId) (key : AdvisoryKey)
    (scope : AdvisoryScope) (blocking : Bool) : AdvisoryWorld × Evaluation :=
  let granted := (w.perform (.tryAcquire key owner scope context.maxLocksPerSession)).1
  match (w.manager.tryAcquire key owner scope context.maxLocksPerSession).2 with
  | .error message => (granted,.error (.queryExecution message))
  | .ok true =>
    (granted.setThread thread ((w.threads thread).mark key scope),.value (if blocking then .null else .boolean true))
  | .ok false =>
    if blocking then (granted.setThread thread { w.threads thread with waiting := some (key,scope) },.waits)
    else (granted,.value (.boolean false))

def evaluate (function : AdvisoryFunction) (args : List Value) : AdvisoryWorld × Evaluation :=
  match (w.threads thread).context with
  | none => (w,.error (.unscoped function))
  | some context =>
    match context.owner with
    | none => (w,.error (.unscoped function))
    | some owner =>
      if context.ownership = .statement ∧ isSessionScoped function then (w,.error (.unscoped function))
      else
        match function with
        | .advisoryUnlockAll =>
          if args.isEmpty then ((w.perform (.unlockAll owner)).1,.value .null) else (w,.error (.noArguments function))
        | .advisoryUnlock =>
          match keyFromArgs function context.database args with
          | .error error => (w,.error error)
          | .ok key =>
            let (w,released) := w.perform (.unlock key owner)
            (w,.value (.boolean released))
        | .tryAdvisoryLock | .tryAdvisoryXactLock =>
          match keyFromArgs function context.database args with
          | .error error => (w,.error error)
          | .ok key => w.lockWith thread context owner key (if function = .tryAdvisoryXactLock then .transaction else .session) false
        | .advisoryLock | .advisoryXactLock =>
          match keyFromArgs function context.database args with
          | .error error => (w,.error error)
          | .ok key => w.lockWith thread context owner key (if function = .advisoryXactLock then .transaction else .session) true

/-- A turn of a call that waits. Without a timeout it has no deadline. -/
def turn (expired : Bool) : AdvisoryWorld :=
  let t := w.threads thread
  match t.waiting, t.context with
  | some (key,scope), some context =>
    match context.owner with
    | none => w
    | some owner =>
      let expired := expired && context.statementTimeout.isSome
      let after := (w.perform (.acquireTurn key owner scope expired context.maxLocksPerSession)).1
      match (w.manager.acquireTurn key owner scope expired context.maxLocksPerSession).2 with
      | .granted => after.setThread thread { t.mark key scope with waiting := none }
      | .refused _ | .timedOut _ => after.setThread thread { t with waiting := none }
      | .waits => after
  | _, _ => w

/-- `Drop` of the innermost guard. -/
def dropGuard : AdvisoryWorld :=
  let t := w.threads thread
  match t.guards with
  | [] => w
  | none::rest => w.setThread thread { t with guards := rest }
  | some installed :: rest =>
    let cleared := w.setThread thread { t with guards := rest, context := none }
    match t.context with
    | none => cleared
    | some live =>
      if !live.tookTransactionLock && !live.tookSessionLock then cleared
      else
        match installed.owner with
        | none => cleared
        | some owner =>
          let drained := w.setThread thread { t with guards := rest, context := none, xactKeys := [] }
          match installed.ownership with
          | .statement => (drained.perform (.releaseSession owner)).1
          | .connection =>
            if live.tookTransactionLock && !installed.inExplicitTransaction then
              (drained.perform (.releaseTransactionKeys owner t.xactKeys)).1
            else drained

/-- A session id is one that was handed out, and a thread that waits does nothing else. -/
def step (w : AdvisoryWorld) : AdvisoryAction → AdvisoryWorld
  | .newSession => { w with nextSession := w.nextSession+1 }
  | .call call => if call.owner < w.nextSession then (w.perform call).1 else w
  | .installSession thread owner statementTimeout maxLocksPerSession database inExplicitTransaction =>
    if owner < w.nextSession ∧ (w.threads thread).waiting = none then
      w.setThread thread ((w.threads thread).install
        ⟨some owner,.connection,statementTimeout,maxLocksPerSession,database,inExplicitTransaction,false,false⟩)
    else w
  | .installStatement thread reachesAdvisory statementTimeout maxLocksPerSession database =>
    if (w.threads thread).waiting = none then
      -- the context is built, and an owner made, only when no other one is installed
      let minted := (w.threads thread).context.isNone && reachesAdvisory
      let installed := w.setThread thread ((w.threads thread).install
        ⟨if minted then some w.nextSession else none,.statement,if minted then statementTimeout else none,
          maxLocksPerSession,database,false,false,false⟩)
      { installed with nextSession := if minted then w.nextSession+1 else w.nextSession }
    else w
  | .evaluate thread function args =>
    if (w.threads thread).waiting = none then (w.evaluate thread function args).1 else w
  | .turn thread expired => w.turn thread expired
  | .dropGuard thread => if (w.threads thread).waiting = none then w.dropGuard thread else w

end AdvisoryWorld
end HeliosNano.Advisory
