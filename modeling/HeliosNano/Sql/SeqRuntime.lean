import HeliosNano.Sql.Basics

namespace HeliosNano.Sql

abbrev ThreadId := Nat

/-- The durable definition of a sequence. -/
structure PersistedSequence where
  name : String
  startValue : Int
  incrementBy : Int
  minValue : Int
  maxValue : Int
  cache : Int
  cycle : Bool
deriving DecidableEq, Repr

/-- The durable high-water mark of a sequence. -/
structure PersistedSeqState where
  lastReserved : Int
  isCalled : Bool
deriving DecidableEq, Repr

/-- The state record of a sequence: what a read returns, and what the last flush that
succeeded made durable. -/
@[ext] structure SeqDisk where
  visible : Option PersistedSeqState
  synced : Option PersistedSeqState
deriving DecidableEq, Repr

/-- Live state of a sequence: a snapshot of the definition, the atomics, and the thread
that holds the refill mutex. -/
structure SeqRuntime where
  name : String
  increment : Int
  minValue : Int
  maxValue : Int
  cache : Int
  cycle : Bool
  notCalledTarget : Int
  next : Int
  blockEnd : Int
  isCalled : Bool
  lastServed : Int
  refill : Option ThreadId
  volatile : Bool
deriving DecidableEq, Repr

def checkedStep (name : String) (cur incr min max : Int) (cycle : Bool) : Except SqlError Int :=
  let bounded := match checkedAdd cur incr with
    | some n =>
      if 0 < incr ∧ n ≤ max then some n
      else if incr < 0 ∧ min ≤ n then some n
      else if incr = 0 then some n
      else none
    | none => none
  match bounded with
  | some n => .ok n
  | none =>
    if cycle then .ok (if 0 < incr then min else max)
    else if 0 < incr then
      .error (.queryExecution ("nextval: reached maximum value of sequence \"" ++ name ++ "\" (" ++
        toString max ++ ")"))
    else
      .error (.queryExecution ("nextval: reached minimum value of sequence \"" ++ name ++ "\" (" ++
        toString min ++ ")"))

/-- Last value of a block of `cache` values, clamped into the bounds. The source computes
it in `i128`, where nothing overflows. -/
def clampBlockEnd (first incr cache min max : Int) : Int :=
  let raw := first+incr*((Max.max cache 1)-1)
  Max.max min (Min.min max raw)

namespace SeqRuntime

def seedState (d : PersistedSequence) : PersistedSeqState := ⟨d.startValue,false⟩

/-- A runtime starts with an empty window, so that the first call refills. -/
def fromPersisted (d : PersistedSequence) (state : Option PersistedSeqState) (volatile : Bool) : SeqRuntime :=
  let st := state.getD (seedState d)
  let window :=
    if st.isCalled then
      (if 0 < d.incrementBy then saturate (st.lastReserved+1) else saturate (st.lastReserved-1),
        st.lastReserved)
    else
      (st.lastReserved,
        if 0 < d.incrementBy then saturate (st.lastReserved-1) else saturate (st.lastReserved+1))
  { name := d.name
    increment := d.incrementBy
    minValue := d.minValue
    maxValue := d.maxValue
    cache := max d.cache 1
    cycle := d.cycle
    notCalledTarget := st.lastReserved
    next := window.1
    blockEnd := window.2
    isCalled := st.isCalled
    lastServed := i64Min
    refill := none
    volatile := volatile }

def inBlock (rt : SeqRuntime) (cur stop : Int) : Bool :=
  if 0 < rt.increment then decide (cur ≤ stop) else decide (stop ≤ cur)

variable (rt : SeqRuntime) (disk : SeqDisk)

/-- The pointer after a value of a block was taken; on overflow it is parked next to the
end of the block. -/
def stepped (cur stop : Int) : Int :=
  match checkedAdd cur rt.increment with
  | some n => n
  | none => if 0 < rt.increment then saturate (stop+1) else saturate (stop-1)

/-- First value of a new block, from the block end, the flag and the durable record. -/
def firstOfBlock (inMemHigh : Int) (inMemCalled : Bool) (durable : Option PersistedSeqState) : Except SqlError Int :=
  let durableCalled := (durable.map (·.isCalled)).getD false
  if !(durableCalled || inMemCalled) then
    match durable with
    | some d => if d.isCalled then .ok rt.notCalledTarget else .ok d.lastReserved
    | none => .ok rt.notCalledTarget
  else
    let durableHigh := (durable.map (·.lastReserved)).getD inMemHigh
    checkedStep rt.name (max durableHigh inMemHigh) rt.increment rt.minValue rt.maxValue rt.cycle

def lastOfBlock (first : Int) : Int :=
  clampBlockEnd first rt.increment rt.cache rt.minValue rt.maxValue

/-- What the storage answers when a step asks it. A failed flush may have written the
record without syncing it. -/
inductive Answer
  | done
  | readFailed (error : SqlError)
  | notSaved (error : SqlError)
  | notSynced (reason : String)
deriving DecidableEq, Repr

/-- Where a call of `nextval` stands on its runtime, with the local variables it still needs. -/
inductive Pc
  | loadNext
  | loadEnd (cur : Int)
  | exchange (cur stop : Int)
  | storeCalled (cur : Int)
  | storeServed (cur : Int)
  | lock
  | recheckNext
  | recheckEnd (cur : Int)
  | unlockAndRetry
  | loadHigh
  | loadCalled (inMemHigh : Int)
  | readState (inMemHigh : Int) (inMemCalled : Bool)
  | flush (durable : Option PersistedSeqState) (first last : Int)
  | publishNext (first last : Int)
  | publishCalled (first last : Int)
  | publishServed (first last : Int)
  | publishEnd (first last : Int)
  | unlockAndReturn (first : Int)
  | unlockAndFail (error : SqlError)
deriving DecidableEq, Repr

/-- How a step of a call leaves it. -/
inductive Progress
  | goto (pc : Pc)
  | returned (value : Int)
  | failed (error : SqlError)
  | again
deriving DecidableEq, Repr

/-- `persist_high_water`; a volatile runtime keeps no record. -/
def persistHighWater (last : Int) (answer : Answer) : SeqDisk × Option SqlError :=
  if rt.volatile then (disk,none)
  else match answer with
    | .notSaved error => (disk,some error)
    | .notSynced reason =>
      ({ disk with visible := some ⟨last,true⟩ },some (.storage ("sequence WAL fsync failed: " ++ reason)))
    | _ => (⟨some ⟨last,true⟩,some ⟨last,true⟩⟩,none)

def readDurable (answer : Answer) : Except SqlError (Option PersistedSeqState) :=
  if rt.volatile then .ok none
  else match answer with
    | .readFailed error => .error error
    | _ => .ok disk.visible

/-- One atomic access of a call by the thread. -/
def advance (thread : ThreadId) (answer : Answer) : Pc → SeqRuntime × SeqDisk × Progress
  | .loadNext => (rt,disk,.goto (.loadEnd rt.next))
  | .loadEnd cur =>
    (rt,disk,.goto (if rt.inBlock cur rt.blockEnd then .exchange cur rt.blockEnd else .lock))
  | .exchange cur stop =>
    if rt.next = cur then ({ rt with next := rt.stepped cur stop },disk,.goto (.storeCalled cur))
    else (rt,disk,.goto .loadNext)
  | .storeCalled cur => ({ rt with isCalled := true },disk,.goto (.storeServed cur))
  | .storeServed cur => ({ rt with lastServed := cur },disk,.returned cur)
  | .lock =>
    if rt.refill = none then ({ rt with refill := some thread },disk,.goto .recheckNext)
    else (rt,disk,.goto .lock)
  | .recheckNext => (rt,disk,.goto (.recheckEnd rt.next))
  | .recheckEnd cur =>
    (rt,disk,.goto (if rt.inBlock cur rt.blockEnd then .unlockAndRetry else .loadHigh))
  | .unlockAndRetry => ({ rt with refill := none },disk,.again)
  | .loadHigh => (rt,disk,.goto (.loadCalled rt.blockEnd))
  | .loadCalled inMemHigh => (rt,disk,.goto (.readState inMemHigh rt.isCalled))
  | .readState inMemHigh inMemCalled =>
    match rt.readDurable disk answer with
    | .error error => (rt,disk,.goto (.unlockAndFail error))
    | .ok durable =>
      match rt.firstOfBlock inMemHigh inMemCalled durable with
      | .ok first => (rt,disk,.goto (.flush durable first (rt.lastOfBlock first)))
      | .error error => (rt,disk,.goto (.unlockAndFail error))
  | .flush _ first last =>
    match rt.persistHighWater disk last answer with
    | (disk,none) => (rt,disk,.goto (.publishNext first last))
    | (disk,some error) => (rt,disk,.goto (.unlockAndFail error))
  -- The pointer goes first: the window opens only with the block end.
  | .publishNext first last =>
    ({ rt with next := rt.stepped first last },disk,.goto (.publishCalled first last))
  | .publishCalled first last => ({ rt with isCalled := true },disk,.goto (.publishServed first last))
  | .publishServed first last => ({ rt with lastServed := first },disk,.goto (.publishEnd first last))
  | .publishEnd first last => ({ rt with blockEnd := last },disk,.goto (.unlockAndReturn first))
  | .unlockAndReturn first => ({ rt with refill := none },disk,.returned first)
  | .unlockAndFail error => ({ rt with refill := none },disk,.failed error)

end SeqRuntime
end HeliosNano.Sql
