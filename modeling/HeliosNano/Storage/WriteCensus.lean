import HeliosNano.Foundation.Runs
import HeliosNano.Foundation.Holdings
import HeliosNano.Storage.VersionKeys

/-! The census of uncommitted writes: counters that are shared by all transactions, the gate by which each of them takes part, and calls
whose turns on the counters are taken one at a time. -/
namespace HeliosNano.Storage.WriteCensus
open Foundation

structure TableWriteCensus where
  writes : Nat
  removals : Nat

structure UncommittedWriteCensus where
  opened : Nat
  tables : Map Bytes TableWriteCensus
  unattributed : Nat

inductive Slot
  | anywhere
  | unattributed
  | written (table : Bytes)
  | removed (table : Bytes)
deriving DecidableEq

namespace UncommittedWriteCensus

def new : UncommittedWriteCensus := ⟨0,∅,0⟩

def anyUncommittedWrites (c : UncommittedWriteCensus) : Bool := decide (0 < c.opened)

def tableHasStagedWrites (c : UncommittedWriteCensus) (table : Bytes) : Bool :=
  if 0 < c.unattributed then true else (c.tables.lookup table).any fun counts => decide (0 < counts.writes)

def tableHasStagedIndexRemovals (c : UncommittedWriteCensus) (table : Bytes) : Bool :=
  if 0 < c.unattributed then true else (c.tables.lookup table).any fun counts => decide (0 < counts.removals)

def table (c : UncommittedWriteCensus) (table : Bytes) : TableWriteCensus := (c.tables.lookup table).getD ⟨0,0⟩

def enterTableWrite (c : UncommittedWriteCensus) (table : Bytes) : UncommittedWriteCensus :=
  { c with tables := c.tables.insert table { c.table table with writes := (c.table table).writes + 1 } }

def enterTableRemoval (c : UncommittedWriteCensus) (table : Bytes) : UncommittedWriteCensus :=
  { c with tables := c.tables.insert table { c.table table with removals := (c.table table).removals + 1 } }

/-- A decrement never goes below zero. -/
def leaveTableWrite (c : UncommittedWriteCensus) (table : Bytes) : UncommittedWriteCensus :=
  match c.tables.lookup table with
  | some counts => { c with tables := c.tables.insert table { counts with writes := counts.writes-1 } }
  | none => c

def leaveTableRemoval (c : UncommittedWriteCensus) (table : Bytes) : UncommittedWriteCensus :=
  match c.tables.lookup table with
  | some counts => { c with tables := c.tables.insert table { counts with removals := counts.removals-1 } }
  | none => c

/-- `enter`, `enter_unattributed`, `enter_table_write` and `enter_table_removal`. -/
def enter (c : UncommittedWriteCensus) : Slot → UncommittedWriteCensus
  | .anywhere => { c with opened := c.opened+1 }
  | .unattributed => { c with unattributed := c.unattributed+1 }
  | .written table => c.enterTableWrite table
  | .removed table => c.enterTableRemoval table

/-- `leave`, `leave_unattributed`, `leave_table_write` and `leave_table_removal`. -/
def leave (c : UncommittedWriteCensus) : Slot → UncommittedWriteCensus
  | .anywhere => { c with opened := c.opened-1 }
  | .unattributed => { c with unattributed := c.unattributed-1 }
  | .written table => c.leaveTableWrite table
  | .removed table => c.leaveTableRemoval table

def count (c : UncommittedWriteCensus) : Slot → Nat
  | .anywhere => c.opened
  | .unattributed => c.unattributed
  | .written table => (c.table table).writes
  | .removed table => (c.table table).removals

end UncommittedWriteCensus

structure WriteCensusGate where
  counted : Bool
  unattributed : Bool
  tablesWritten : List Bytes
  tablesRemoved : List Bytes

namespace WriteCensusGate

def new : WriteCensusGate := ⟨false,false,[],[]⟩

abbrev Noted := WriteCensusGate × List Slot

def noteWrite (g : WriteCensusGate) : Noted := if g.counted then (g,[]) else ({ g with counted := true },[.anywhere])

def noteTableWrite (g : WriteCensusGate) (table : Bytes) : Noted :=
  if table ∈ g.tablesWritten then (g,[]) else ({ g with tablesWritten := g.tablesWritten ++ [table] },[.written table])

/-- A removal is a write as well, and is first counted as one. -/
def noteTableRemoval (g : WriteCensusGate) (table : Bytes) : Noted :=
  if table ∈ g.tablesRemoved then (g,[])
  else
    let (g,slots) := g.noteTableWrite table
    ({ g with tablesRemoved := g.tablesRemoved ++ [table] },slots ++ [.removed table])

def noteUnattributed (g : WriteCensusGate) : Noted :=
  if g.unattributed then (g,[]) else ({ g with unattributed := true },[.unattributed])

/-- The slots of the gate, in the order in which a hold takes them. -/
def membership (g : WriteCensusGate) : List Slot :=
  (if g.counted then [.anywhere] else []) ++ (if g.unattributed then [.unattributed] else []) ++
    g.tablesWritten.map .written ++ g.tablesRemoved.map .removed

/-- The slots in the order in which a transaction or a hold gives them back. -/
def released (g : WriteCensusGate) : List Slot :=
  g.tablesRemoved.map .removed ++ g.tablesWritten.map .written ++ (if g.unattributed then [.unattributed] else []) ++
    (if g.counted then [.anywhere] else [])

end WriteCensusGate

/-- The slots of a transaction when a hold was taken. -/
abbrev CensusMembership := WriteCensusGate

inductive StagedKey
  | value
  | tombstone
deriving DecidableEq

/-- What the census depends on in a transaction, and the keys that it has staged. -/
structure Enrolled where
  gate : WriteCensusGate
  writtenTables : List Bytes
  hasUnattributedWrites : Bool
  staged : List (Key × StagedKey)

/-- `col:`, `colz:`, `colzm:`, `colp:`, `colpm:` and `counter:` -/
def indexIrrelevantPrefixes : List Bytes :=
  [ascii ['c','o','l',':'],ascii ['c','o','l','z',':'],ascii ['c','o','l','z','m',':'],ascii ['c','o','l','p',':'],
    ascii ['c','o','l','p','m',':'],counterPrefix]

def keyCannotChangeAnIndex (key : Key) : Bool := indexIrrelevantPrefixes.any fun lead => decide (lead <+: key)

/-- The table that a staged key is taken to be of: what is before its first separator. -/
def notedTable (key : Key) : Option Bytes := do
  let rest ← stripPrefix dataPrefix key
  if (fromUtf8 rest).isSome then
    let (table,_) ← splitFirst colon rest
    some table
  else none

namespace Enrolled

def new : Enrolled := ⟨.new,[],false,[]⟩

/-- The table is entered among those written, and in the census when it is new there. -/
def noteTable (t : Enrolled) (table : Bytes) : Enrolled × List Slot :=
  if table ∈ t.writtenTables then (t,[])
  else
    let (gate,slots) := t.gate.noteTableWrite table
    ({ t with writtenTables := t.writtenTables ++ [table], gate := gate },slots)

def noteRemoval (t : Enrolled) (table : Bytes) : Enrolled × List Slot :=
  let (gate,slots) := t.gate.noteTableRemoval table
  ({ t with gate := gate },slots)

def noteWrite (t : Enrolled) : Enrolled × List Slot :=
  let (gate,slots) := t.gate.noteWrite
  ({ t with gate := gate },slots)

def noteWrittenKey (t : Enrolled) (key : Key) (staged : StagedKey) : Enrolled × List Slot :=
  let (t,first) := t.noteWrite
  match notedTable key with
  | some table =>
    let (t,second) := t.noteTable table
    if staged = .tombstone then
      let (t,third) := t.noteRemoval table
      (t,first ++ second ++ third)
    else (t,first ++ second)
  | none =>
    let (gate,second) := if keyCannotChangeAnIndex key then (t.gate,[]) else t.gate.noteUnattributed
    ({ t with gate := gate, hasUnattributedWrites := true },first ++ second)

end Enrolled

/-- A call on a transaction. A write whose lock is refused does nothing. -/
inductive StagingCall
  | put (key : Key)
  | putInsertFast (key : Key)
  | delete (key : Key)
  | stageRowCounter (table : Bytes)
  | noteIndexKeyRemoval (table : Bytes)

/-- The slots that a call takes, and the key that it stages after that. -/
def Enrolled.start (t : Enrolled) : StagingCall → Enrolled × List Slot × Option (Key × StagedKey)
  | .put key => let (t,slots) := t.noteWrittenKey key .value; (t,slots,some (key,.value))
  | .putInsertFast key => let (t,slots) := t.noteWrittenKey key .value; (t,slots,some (key,.value))
  | .delete key => let (t,slots) := t.noteWrittenKey key .tombstone; (t,slots,some (key,.tombstone))
  | .stageRowCounter table =>
    let (t,first) := t.noteWrite
    let (t,second) := t.noteTable table
    (t,first ++ second,none)
  | .noteIndexKeyRemoval table => let (t,slots) := t.noteRemoval table; (t,slots,none)

/-- An open transaction with the slots that its call has still to take, a hold, or one of them that gives its slots back. -/
inductive Party
  | transaction (t : Enrolled) (entering : List Slot) (staging : Option (Key × StagedKey))
  | hold (membership : CensusMembership) (staged : List (Key × StagedKey)) (entering : List Slot)
  | leaving (slots : List Slot)

/-- What has been staged by an open transaction, or was staged when a hold was taken that is there. -/
def Party.staged : Party → List (Key × StagedKey)
  | .transaction t _ _ => t.staged
  | .hold _ staged [] => staged
  | _ => []

def Party.settle (t : Enrolled) (entering : List Slot) (staging : Option (Key × StagedKey)) : Party :=
  if entering = [] then .transaction { t with staged := t.staged ++ staging.toList } [] none else .transaction t entering staging

structure World where
  census : UncommittedWriteCensus
  parties : Nat → Party
  next : Nat

def World.new : World := ⟨.new,fun _ => .leaving [],0⟩

inductive Action
  | enroll
  | call (party : Nat) (call : StagingCall)
  | advance (party : Nat)
  | writeCensusHold (party : Nat)
  | drop (party : Nat)

namespace World
variable (w : World)

def set (id : Nat) (party : Party) : World := { w with parties := Function.update w.parties id party }

def add (party : Party) : World := { w.set w.next party with next := w.next+1 }

def advance (id : Nat) : World :=
  match w.parties id with
  | .transaction t (slot::entering) staging => { w.set id (.settle t entering staging) with census := w.census.enter slot }
  | .hold membership staged (slot::entering) => { w.set id (.hold membership staged entering) with census := w.census.enter slot }
  | .leaving (slot::slots) => { w.set id (.leaving slots) with census := w.census.leave slot }
  | _ => w

/-- Calls on a transaction come one after the other. -/
def step : Action → World
  | .enroll => w.add (.transaction .new [] none)
  | .call id call =>
    match w.parties id with
    | .transaction t [] _ => w.set id (.settle (t.start call).1 (t.start call).2.1 (t.start call).2.2)
    | _ => w
  | .advance id => w.advance id
  | .writeCensusHold id =>
    match w.parties id with
    | .transaction t [] _ =>
      if t.gate.counted || t.gate.unattributed then w.add (.hold t.gate t.staged t.gate.membership) else w
    | _ => w
  | .drop id =>
    match w.parties id with
    | .transaction t [] _ => w.set id (.leaving t.gate.released)
    | .hold membership _ [] => w.set id (.leaving membership.released)
    | _ => w

end World
end HeliosNano.Storage.WriteCensus
