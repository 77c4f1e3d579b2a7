import HeliosNano.Foundation.Runs
import HeliosNano.Storage.Basics
import Mathlib.Algebra.BigOperators.Group.Finset.Basic

/-! The lock-free ingestion engine: calls of any number of clients buffer operations in transactions, one worker logs, syncs and
applies the committed ones. Each access to what is shared is one step. -/
namespace HeliosNano.Storage.Ingestion
open Foundation

abbrev TxnId := Nat

inductive IngestionSafetyLevel
  | full
  | batched (batchSize : Nat)
  | async
  | noDurability (disableWal : Bool)
deriving DecidableEq

namespace IngestionSafetyLevel

def useWal : IngestionSafetyLevel → Bool
  | .noDurability true => false
  | _ => true

def syncOnCommit : IngestionSafetyLevel → Bool
  | .full => true
  | _ => false

/-- The size of a batch, one request where batches are not configured. -/
def batchSize : IngestionSafetyLevel → Nat
  | .batched batchSize => batchSize
  | _ => 1

end IngestionSafetyLevel

structure Config where
  safetyLevel : IngestionSafetyLevel
  maxPendingWrites : Nat

inductive IngestionError
  | transactionNotFound (txnId : TxnId)
  | transactionClosed (txnId : TxnId)
  | walError (message : String)
  | backpressureExceeded
  | engineShutdown
deriving DecidableEq

inductive WriteOp
  | insert (table : String) (rowId : RowId) (data : Bytes)
  | update (table : String) (rowId : RowId) (data : Bytes)
  | delete (table : String) (rowId : RowId)
deriving DecidableEq

def WriteOp.arguments : WriteOp → String × RowId × Option Bytes
  | .insert table rowId data => (table,rowId,some data)
  | .update table rowId data => (table,rowId,some data)
  | .delete table rowId => (table,rowId,none)

/-- A commit request; its response channel is the one of the transaction. -/
structure CommitRequest where
  txnId : TxnId
  buffer : List WriteOp
deriving DecidableEq

/-- What the caller of `commit` finds in its response channel. -/
inductive Response
  | empty
  | success (commitTimestamp : Nat)
  | error (e : IngestionError)
  | disconnected
deriving DecidableEq

/-- Who has the handle of a transaction: callers that borrow it at the same time, or the call into which it was moved. -/
inductive Handle
  | unborn
  | shared (borrowers : List Nat)
  | moved (call : Nat)
  | dropped
deriving DecidableEq

inductive Outcome
  | committed (timestamp : Nat)
  | failed (e : IngestionError)
  | aborted
deriving DecidableEq

def Outcome.isCommitted : Outcome → Bool
  | .committed _ => true
  | _ => false

/-- A transaction: its entry in `active_transactions`, its handle, its response channel; all operations that it has ever buffered,
and how the call that ended it returned. -/
structure Txn where
  buffer : Option (List WriteOp)
  handle : Handle
  closed : Bool
  response : Response
  ops : List WriteOp
  outcome : Option Outcome
deriving DecidableEq

def Txn.unborn : Txn := ⟨none,.unborn,false,.empty,[],none⟩

/-- Where a call is. -/
inductive Phase
  | idle
  | beginning
  | allocating
  | publishing (t : TxnId)
  | writing (t : TxnId) (op : WriteOp)
  | admitting (t : TxnId) (op : WriteOp)
  | buffering (t : TxnId) (op : WriteOp)
  | committing (t : TxnId)
  | removing (t : TxnId)
  | counting (t : TxnId) (buffer : List WriteOp)
  | sending (t : TxnId) (buffer : List WriteOp)
  | waiting (t : TxnId)
  | aborting (t : TxnId)
  | discarding (t : TxnId)
  | uncounting (t : TxnId) (count : Nat)
deriving DecidableEq

/-- A call; `bulk_insert` makes the other ones in turn and still has rows to write. -/
structure Call where
  phase : Phase
  bulk : Option (List WriteOp)
deriving DecidableEq

def Call.none : Call := ⟨.idle,Option.none⟩

abbrev Stamped := CommitRequest × Nat

inductive Worker
  | receiving
  | timedOut
  | collecting (batch : List CommitRequest)
  | logging (done : List (Stamped × Bool)) (todo : List Stamped)
  | syncing (done : List (Stamped × Bool))
  | rejecting (message : String) (todo : List Stamped)
  | applying (todo : List Stamped)
  | invoking (request : Stamped) (left : List WriteOp) (todo : List Stamped)
  | leaving
  | exited
deriving DecidableEq

/-- `applied` are the invocations of the callback, `failedBulks` the transactions of `bulk_insert` calls that returned an error. -/
structure World where
  txns : TxnId → Txn
  nextTxnId : Nat
  pendingWrites : Nat
  shutdown : Bool
  queue : List CommitRequest
  worker : Worker
  nextCommitTs : Nat
  calls : Nat → Call
  applied : List (TxnId × String × RowId × Option Bytes)
  failedBulks : List TxnId

/-- What a client can call. The row ids of a bulk insert come from the row id generator. -/
inductive Request
  | beginTransaction
  | write (t : TxnId) (op : WriteOp)
  | commit (t : TxnId)
  | abort (t : TxnId)
  | bulkInsert (table : String) (rows : List (RowId × Bytes))

def Request.insert (t : TxnId) (table : String) (rowId : RowId) (data : Bytes) : Request :=
  .write t (.insert table rowId data)

def Request.update (t : TxnId) (table : String) (rowId : RowId) (data : Bytes) : Request :=
  .write t (.update table rowId data)

def Request.delete (t : TxnId) (table : String) (rowId : RowId) : Request := .write t (.delete table rowId)

/-- `io` is the message of a write or a sync of the log that fails. -/
inductive Step
  | start (call : Nat) (request : Request)
  | advance (call : Nat)
  | worker (io : Option String)
  | shutdown

namespace World

def new : World := ⟨fun _ => .unborn,1,0,false,[],.receiving,1,fun _ => .none,[],[]⟩

variable (w : World) (t : TxnId) (c : Nat) (config : Config)

def setTxn (txn : Txn) : World := { w with txns := Function.update w.txns t txn }

def setCall (call : Call) : World := { w with calls := Function.update w.calls c call }

def setPhase (w : World) (c : Nat) (phase : Phase) : World := w.setCall c { w.calls c with phase := phase }

def checkHandle : Except IngestionError Unit :=
  if (w.txns t).closed then .error (.transactionClosed t)
  else if w.shutdown then .error .engineShutdown
  else .ok ()

def checkBackpressure (w : World) : Except IngestionError Unit :=
  if config.maxPendingWrites ≤ w.pendingWrites then .error .backpressureExceeded else .ok ()

/-- A call ends without a handle of its own. -/
def idle : World := w.setCall c .none

/-- A call that owns its transaction returns; the handle goes with it. -/
def finish (t : TxnId) (outcome : Outcome) : World :=
  { (w.setTxn t { w.txns t with handle := .dropped, outcome := some outcome }).idle c with
    failedBulks :=
      if (w.calls c).bulk.isSome && !outcome.isCommitted then w.failedBulks ++ [t] else w.failedBulks }

/-- What `bulk_insert` does after a row. -/
def nextRow (t : TxnId) : List WriteOp → World
  | [] => w.setCall c ⟨.committing t,some []⟩
  | op::rows => w.setCall c ⟨.writing t op,some rows⟩

def release (t : TxnId) : World :=
  match (w.txns t).handle with
  | .shared borrowers => (w.setTxn t { w.txns t with handle := .shared (borrowers.erase c) }).idle c
  | _ => w.idle c

/-- A write returns to its client, or to `bulk_insert`, which goes on or passes the error on. -/
def endWrite (t : TxnId) (result : Except IngestionError Unit) : World :=
  match (w.calls c).bulk, result with
  | none, _ => w.release c t
  | some rows, .ok () => w.nextRow c t rows
  | some _, .error e => w.finish c t (.failed e)

def start (request : Request) : World :=
  if (w.calls c).phase ≠ .idle then w
  else match request with
    | .beginTransaction => w.setCall c ⟨.beginning,none⟩
    | .bulkInsert table rows => w.setCall c ⟨.beginning,some (rows.map fun row => .insert table row.1 row.2)⟩
    | .write t op =>
      match (w.txns t).handle with
      | .shared borrowers =>
        (w.setTxn t { w.txns t with handle := .shared (borrowers ++ [c]) }).setCall c ⟨.writing t op,none⟩
      | _ => w
    | .commit t =>
      match (w.txns t).handle with
      | .shared [] => (w.setTxn t { w.txns t with handle := .moved c }).setCall c ⟨.committing t,none⟩
      | _ => w
    | .abort t =>
      match (w.txns t).handle with
      | .shared [] => (w.setTxn t { w.txns t with handle := .moved c }).setCall c ⟨.aborting t,none⟩
      | _ => w

def advance (w : World) (c : Nat) : World :=
  match (w.calls c).phase with
  | .idle => w
  | .beginning => if w.shutdown then w.idle c else w.setPhase c .allocating
  | .allocating =>
    { (w.setTxn w.nextTxnId { w.txns w.nextTxnId with handle := .moved c }).setPhase c (.publishing w.nextTxnId) with
      nextTxnId := w.nextTxnId+1 }
  | .publishing t =>
    match (w.calls c).bulk with
    | none => (w.setTxn t { w.txns t with buffer := some [], handle := .shared [] }).idle c
    | some rows => (w.setTxn t { w.txns t with buffer := some [] }).nextRow c t rows
  | .writing t op =>
    match w.checkHandle t with
    | .error e => w.endWrite c t (.error e)
    | .ok () => w.setPhase c (.admitting t op)
  | .admitting t op =>
    match w.checkBackpressure config with
    | .error e => w.endWrite c t (.error e)
    | .ok () => w.setPhase c (.buffering t op)
  | .buffering t op =>
    match (w.txns t).buffer with
    | none => w.endWrite c t (.error (.transactionNotFound t))
    -- the entry stays locked until the writes are counted
    | some buffer =>
      { w.setTxn t { w.txns t with buffer := some (buffer ++ [op]), ops := (w.txns t).ops ++ [op] } with
        pendingWrites := w.pendingWrites+1 }.endWrite c t (.ok ())
  | .committing t =>
    match w.checkHandle t with
    | .error e => w.finish c t (.failed e)
    | .ok () => w.setPhase c (.removing t)
  | .removing t =>
    match (w.txns t).buffer with
    | none => w.finish c t (.failed (.transactionNotFound t))
    | some buffer => (w.setTxn t { w.txns t with buffer := none, closed := true }).setPhase c (.counting t buffer)
  | .counting t buffer =>
    let w := { w with pendingWrites := w.pendingWrites-buffer.length }
    -- nothing ever moves the global timestamp
    if buffer.length = 0 then w.finish c t (.committed 1) else w.setPhase c (.sending t buffer)
  | .sending t buffer =>
    if w.worker = .exited then w.finish c t (.failed .engineShutdown)
    else if w.queue.length < config.maxPendingWrites then
      { w with queue := w.queue ++ [CommitRequest.mk t buffer] }.setPhase c (.waiting t)
    else w
  | .waiting t =>
    match (w.txns t).response with
    | .empty => w
    | .success timestamp => w.finish c t (.committed timestamp)
    | .error e => w.finish c t (.failed e)
    | .disconnected => w.finish c t (.failed .engineShutdown)
  | .aborting t =>
    if (w.txns t).closed then w.finish c t (.failed (.transactionClosed t)) else w.setPhase c (.discarding t)
  | .discarding t =>
    (w.setTxn t { w.txns t with buffer := none }).setPhase c (.uncounting t ((w.txns t).buffer.elim 0 List.length))
  | .uncounting t count =>
    { w.setTxn t { w.txns t with closed := true } with pendingWrites := w.pendingWrites-count }.finish c t .aborted

/-- Of the messages to a caller it receives the first one. -/
def respond (w : World) (t : TxnId) (response : Response) : World :=
  if (w.txns t).response = .empty then w.setTxn t { w.txns t with response := response } else w

def disconnect (requests : List CommitRequest) : World :=
  requests.foldl (fun w request => w.respond request.txnId .disconnected) w

def processCommitBatch (w : World) (batch : List CommitRequest) : World :=
  let stamped := batch.zipIdx.map fun entry => (entry.1,w.nextCommitTs+entry.2)
  { w with
    nextCommitTs := w.nextCommitTs+batch.length
    worker := if config.safetyLevel.useWal then .logging [] stamped else .applying stamped }

def work (w : World) (io : Option String) : World :=
  match w.worker with
  | .receiving =>
    match w.queue with
    | [] => { w with worker := .timedOut }
    | request::queue => { w with queue := queue, worker := .collecting [request] }
  | .timedOut =>
    if w.shutdown then
      match w.queue with
      | [] => { w with worker := .leaving }
      -- the request is received, and dropped when the batch is cleared
      | request::queue => { w with queue := queue, worker := .receiving }.respond request.txnId .disconnected
    else { w with worker := .receiving }
  | .collecting batch =>
    if batch.length < config.safetyLevel.batchSize then
      match w.queue with
      | [] => w.processCommitBatch config batch
      | request::queue => { w with queue := queue, worker := .collecting (batch ++ [request]) }
    else w.processCommitBatch config batch
  | .logging done [] =>
    { w with worker := if config.safetyLevel.syncOnCommit then .syncing done else .applying (done.map (·.1)) }
  | .logging done (request::todo) =>
    match io with
    | none => { w with worker := .logging (done ++ [(request,true)]) todo }
    | some message =>
      { w with worker := .logging (done ++ [(request,false)]) todo }.respond request.1.txnId (.error (.walError message))
  | .syncing done =>
    match io with
    | none => { w with worker := .applying (done.map (·.1)) }
    | some message => { w with worker := .rejecting message (done.map (·.1)) }
  | .rejecting _ [] => { w with worker := .receiving }
  | .rejecting message (request::todo) =>
    { w with worker := .rejecting message todo }.respond request.1.txnId (.error (.walError message))
  | .applying [] => { w with worker := .receiving }
  | .applying (request::todo) => { w with worker := .invoking request request.1.buffer todo }
  | .invoking request [] todo =>
    { w with worker := .applying todo }.respond request.1.txnId (.success request.2)
  | .invoking request (op::left) todo =>
    { w with worker := .invoking request left todo, applied := w.applied ++ [(request.1.txnId,op.arguments)] }
  | .leaving => { w with queue := [], worker := .exited }.disconnect w.queue
  | .exited => w

def step (config : Config) (w : World) : Step → World
  | .start c request => w.start c request
  | .advance c => w.advance config c
  | .worker io => w.work config io
  | .shutdown => { w with shutdown := true }

def appliedOf : List (String × RowId × Option Bytes) :=
  (w.applied.filter fun entry => entry.1 = t).map (·.2)

/-- The callback has been invoked on the operations of a transaction that was committed, and on none of one that was not. -/
def Truthful : Prop :=
  match (w.txns t).outcome with
  | none => True
  | some (.committed _) => w.appliedOf t = (w.txns t).ops.map WriteOp.arguments
  | some (.failed _) | some .aborted => w.appliedOf t = []

/-- A log with a failed write does not get to be applied, and `bulk_insert` is not refused after it has begun its transaction. -/
def Careful (w : World) : Step → Prop
  | .worker io =>
    match w.worker with
    | .logging done [] => config.safetyLevel.syncOnCommit = false → ∀ entry ∈ done, entry.2 = true
    | .syncing done => io = none → ∀ entry ∈ done, entry.2 = true
    | _ => True
  | .advance c =>
    (w.calls c).bulk.isSome = true → match (w.calls c).phase with
      | .writing t _ | .committing t => w.checkHandle t = .ok ()
      | .admitting _ _ => w.checkBackpressure config = .ok ()
      | _ => True
  | _ => True

end World
end HeliosNano.Storage.Ingestion
