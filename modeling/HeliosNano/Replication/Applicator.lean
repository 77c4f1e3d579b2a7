import HeliosNano.Foundation.Runs
import HeliosNano.Replication.WalStore

namespace HeliosNano.Replication.Applicator
open Foundation WalStore

inductive ReplicationError
  | walStreaming (message : String)
  | storage (message : String)
deriving DecidableEq

structure ApplyResult where
  lsn : Lsn
  applied : Bool
  warnings : List String
deriving DecidableEq

inductive ApplicatorState
  | disconnected
  | connecting
  | catchingUp
  | streaming
  | paused
  | error
deriving DecidableEq

/-- The standby's data, by the entries applied to it, and the replication cursor that is written with them. -/
structure Storage where
  history : List WalEntry
  cursor : Lsn
deriving DecidableEq

def Storage.applyReplicatedOperationAt (storage : Storage) (entry : WalEntry) : Storage :=
  ⟨storage.history ++ [entry],entry.lsn⟩

def Storage.holding (held : List WalEntry) : Storage := held.foldl applyReplicatedOperationAt ⟨[],0⟩

/-- The receiving end of the queue: still with the applicator, with its task, or closed. -/
inductive Receiver
  | unclaimed
  | claimed
  | closed
deriving DecidableEq

/-- Where the task is. From `holding` an entry is applied under the state lock, which is held until `advancing` is over. -/
inductive Task
  | unspawned
  | selecting
  | holding (entry : WalEntry)
  | advancing (entry : WalEntry)
  | leaving
  | exited
deriving DecidableEq

/-- `signals` counts the shutdown messages that the task has not received. `delivered` are the entries that were queued. -/
structure WalApplicator where
  appliedLsn : Lsn
  state : ApplicatorState
  queue : List WalEntry
  receiver : Receiver
  task : Task
  signals : Nat
  entriesApplied : Nat
  entriesSkipped : Nat
  errorsCount : Nat
  storage : Storage
  delivered : List WalEntry
deriving DecidableEq

def queueCapacity : Nat := 10000

abbrev Call := Except ReplicationError Unit × WalApplicator

def failed : ReplicationError :=
  .walStreaming "WAL applicator has failed; repair or reseed and create a new applicator before resuming or promoting"

def alreadyApplied (entry : WalEntry) : ApplyResult := ⟨entry.lsn,false,["Entry already applied"]⟩

namespace WalApplicator

def new (storage : Storage) : WalApplicator := ⟨0,.disconnected,[],.unclaimed,.unspawned,0,0,0,0,storage,[]⟩

def ensureNotFailed (state : ApplicatorState) : Except ReplicationError Unit :=
  if state = .error then .error failed else .ok ()

variable (a : WalApplicator)

/-- `unreadable` is the message of a cursor that cannot be read. -/
def startWithStorage (unreadable : Option String) : Call :=
  match ensureNotFailed a.state with
  | .error e => (.error e,a)
  | .ok () =>
    if a.receiver ≠ .unclaimed then (.error (.walStreaming "Applicator already started"),a)
    else match unreadable with
      -- the receiver has been taken and is dropped
      | some message =>
        (.error (.storage ("Cannot read replication cursor: " ++ message)),{ a with state := .streaming, receiver := .closed, queue := [] })
      | none =>
        (.ok (),{ a with
          state := .streaming
          receiver := .claimed
          appliedLsn := if a.appliedLsn < a.storage.cursor then a.storage.cursor else a.appliedLsn
          task := .selecting
          signals := 0 })

def start (a : WalApplicator) : Call :=
  match ensureNotFailed a.state with
  | .error e => (.error e,a)
  | .ok () =>
    if a.receiver ≠ .unclaimed then
      (.error (.walStreaming "Storage-backed applicator cannot be restarted through legacy start"),a)
    else (.ok (),{ a with state := .connecting })

def stop (a : WalApplicator) : Call :=
  (.ok (),{ a with signals := a.signals+1, state := if a.state = .error then .error else .disconnected })

def pause : Call :=
  match ensureNotFailed a.state with
  | .error e => (.error e,a)
  | .ok () => (.ok (),{ a with state := .paused })

def resume : Call :=
  match ensureNotFailed a.state with
  | .error e => (.error e,a)
  | .ok () => (.ok (),{ a with state := .streaming })

def promote : Call :=
  match ensureNotFailed a.state with
  | .error e => (.error e,a)
  | .ok () => (.ok (),{ a with signals := a.signals+1, state := .disconnected })

def apply (a : WalApplicator) (entry : WalEntry) : Except ReplicationError ApplyResult × WalApplicator :=
  match ensureNotFailed a.state with
  | .error e => (.error e,a)
  | .ok () =>
    if a.receiver ≠ .unclaimed then
      (.error (.walStreaming "Legacy apply cannot advance a storage-backed applicator's LSN"),a)
    else if entry.lsn ≤ a.appliedLsn then (.ok (alreadyApplied entry),a)
    else (.ok ⟨entry.lsn,true,["No storage engine - entry not persisted"]⟩,{ a with appliedLsn := entry.lsn })

def queueEntry (entry : WalEntry) : Call :=
  if a.receiver = .closed then (.error (.walStreaming "channel closed"),a)
  else (.ok (),{ a with queue := a.queue ++ [entry], delivered := a.delivered ++ [entry] })

/-- The first half of `apply_entry_to_storage`: the entry is skipped, applied to the storage, or it fails. -/
def applyEntryToStorage (entry : WalEntry) : Option String → WalApplicator
  | failure =>
    if entry.lsn ≤ a.appliedLsn then { a with task := .selecting, entriesSkipped := a.entriesSkipped+1 }
    else match failure with
      | none => { a with storage := a.storage.applyReplicatedOperationAt entry, task := .advancing entry }
      | some _ => { a with state := .error, receiver := .closed, task := .leaving, errorsCount := a.errorsCount+1 }

/-- One step of the task outside its `select!`. `failure` is the message of an operation that cannot be decoded or applied. -/
def runTask (failure : Option String) : WalApplicator :=
  match a.task with
  | .holding entry =>
    if a.state = .paused then { a with task := .selecting }
    else if a.state ≠ .streaming then { a with receiver := .closed, task := .leaving }
    else a.applyEntryToStorage entry failure
  | .advancing entry =>
    { a with appliedLsn := entry.lsn, task := .selecting, entriesApplied := a.entriesApplied+1 }
  | .leaving =>
    { a with state := if a.state = .error then .error else .disconnected, receiver := .closed, queue := [], task := .exited }
  | _ => a

/-- The shutdown arm of `select!`. A receiver that lags subscribes again and misses what it has not read. -/
def receiveShutdown : WalApplicator :=
  if a.task = .selecting then
    if a.signals = 0 then a
    else if a.signals = 1 then { a with signals := 0, task := .leaving }
    else { a with signals := 0 }
  else a

/-- The entry arm of `select!`. -/
def receiveEntry : WalApplicator :=
  if a.task = .selecting then
    match a.queue with
    | [] => a
    | entry::queue => { a with queue := queue, task := .holding entry }
  else a

def locked : Bool :=
  match a.task with
  | .advancing _ => true
  | _ => false

end WalApplicator

inductive Step
  | queueEntry (entry : WalEntry)
  | startWithStorage (unreadable : Option String)
  | start
  | stop
  | pause
  | resume
  | promote
  | apply (entry : WalEntry)
  | receiveShutdown
  | receiveEntry
  | runTask (failure : Option String)

namespace WalApplicator

/-- A call that has to wait for the state lock, or for room in the queue, is not yet made. -/
def step (a : WalApplicator) : Step → WalApplicator
  | .queueEntry entry => if a.queue.length < queueCapacity then (a.queueEntry entry).2 else a
  | .startWithStorage unreadable => if a.locked then a else (a.startWithStorage unreadable).2
  | .start => if a.locked then a else a.start.2
  | .stop => if a.locked then a else a.stop.2
  | .pause => if a.locked then a else a.pause.2
  | .resume => if a.locked then a else a.resume.2
  | .promote => if a.locked then a else a.promote.2
  | .apply entry => if a.locked then a else (a.apply entry).2
  | .receiveShutdown => a.receiveShutdown
  | .receiveEntry => a.receiveEntry
  | .runTask failure => a.runTask failure

/-- The applicator just after it has been started on a storage that holds some entries. -/
def started (held : List WalEntry) : WalApplicator := ((new (Storage.holding held)).startWithStorage none).2

variable (a : WalApplicator)

def known : List WalEntry := a.storage.history ++ a.delivered

/-- Entries are sent in strictly increasing LSN order, from one on; any of them may be sent again. -/
def InOrder : Step → Prop
  | .queueEntry entry => entry ∈ a.known ∨ 0 < entry.lsn ∧ ∀ e ∈ a.known, e.lsn < entry.lsn
  | _ => True

/-- A paused applicator takes only entries from the queue that it has applied. -/
def Spares : Step → Prop
  | .runTask _ =>
    match a.task with
    | .holding entry => a.state = .paused → entry.lsn ≤ a.appliedLsn
    | _ => True
  | _ => True

end WalApplicator
end HeliosNano.Replication.Applicator
