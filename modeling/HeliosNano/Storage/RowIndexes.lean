import HeliosNano.Foundation.Scripts
import HeliosNano.Storage.DenseCount

/-! The indexes of a table kept in step with its rows: what an insertion, a deletion, an update and a replicated change ask of the
trees. The write counters and the snapshot flag are left out. -/
namespace HeliosNano.Storage.RowIndexes
open Foundation Art IndexRegistry KeyEncoding

inductive IndexCall
  | insert (name : Name) (key : Bytes) (rowId : RowId)
  | remove (name : Name) (key : Bytes)
  | removeValue (name : Name) (key : Bytes) (rowId : RowId)
  | get (name : Name) (key : Bytes)
  | getAll (name : Name) (key : Bytes)
  | recordDenseIntInsert (name : Name) (keyWidth : Nat) (value : Int)
  | recordDenseIntDelete (name : Name) (value : Int)

namespace IndexCall

abbrev Answer : IndexCall → Type
  | .insert _ _ _ => Except ArtIndexError Unit
  | .remove _ _ => Except ArtIndexError (Option RowId)
  | .removeValue _ _ _ => Except ArtIndexError Bool
  | .get _ _ => Option RowId
  | .getAll _ _ => List RowId
  | .recordDenseIntInsert _ _ _ => Unit
  | .recordDenseIntDelete _ _ => Unit

def name : IndexCall → Name
  | .insert name _ _ => name
  | .remove name _ => name
  | .removeValue name _ _ => name
  | .get name _ => name
  | .getAll name _ => name
  | .recordDenseIntInsert name _ _ => name
  | .recordDenseIntDelete name _ => name

end IndexCall

def returned {α : Type} : Except Failure α → Option (Except ArtIndexError α)
  | .ok a => some (.ok a)
  | .error (.error e) => some (.error e)
  | .error .panicked => none

def answer (contents : CountedTree) : (c : IndexCall) → CountedTree × Option c.Answer
  | .insert _ key rowId => ({ contents with tree := (contents.tree.insert key rowId).1 },returned (contents.tree.insert key rowId).2)
  | .remove _ key => ({ contents with tree := (contents.tree.remove key).1 },returned (contents.tree.remove key).2)
  | .removeValue _ key rowId =>
    ({ contents with tree := (contents.tree.removeValue key rowId).1 },returned (contents.tree.removeValue key rowId).2)
  | .get _ key => (contents,some (contents.tree.get key))
  | .getAll _ key => (contents,some (contents.tree.getAll key))
  | .recordDenseIntInsert _ keyWidth value => (contents.recordDenseIntInsert keyWidth value,some ())
  | .recordDenseIntDelete _ value => (contents.recordDenseIntDelete value,some ())

abbrev Indexes := Map Name (IndexEntry CountedTree)

def setContents (indexes : Indexes) (name : Name) (entry : IndexEntry CountedTree) (contents : CountedTree) : Indexes :=
  indexes.insert name { entry with tree := { entry.tree with contents := contents } }

/-- A call on the tree of a registered index. No script calls on another. -/
def callIndex (indexes : Indexes) (c : IndexCall) : Indexes × Option c.Answer :=
  match indexes.lookup c.name with
  | some entry => (setContents indexes c.name entry (answer entry.tree.contents c).1,(answer entry.tree.contents c).2)
  | none => (indexes,none)

abbrev IndexScript := Script IndexCall IndexCall.Answer

def insert (name : Name) (key : Bytes) (rowId : RowId) : IndexScript (Except ArtIndexError Unit) := .ask (IndexCall.insert name key rowId)
def remove (name : Name) (key : Bytes) : IndexScript (Except ArtIndexError (Option RowId)) := .ask (IndexCall.remove name key)
def removeValue (name : Name) (key : Bytes) (rowId : RowId) : IndexScript (Except ArtIndexError Bool) :=
  .ask (IndexCall.removeValue name key rowId)
def get (name : Name) (key : Bytes) : IndexScript (Option RowId) := .ask (IndexCall.get name key)
def getAll (name : Name) (key : Bytes) : IndexScript (List RowId) := .ask (IndexCall.getAll name key)
def recordDenseIntInsert (name : Name) (keyWidth : Nat) (value : Int) : IndexScript Unit :=
  .ask (IndexCall.recordDenseIntInsert name keyWidth value)
def recordDenseIntDelete (name : Name) (value : Int) : IndexScript Unit := .ask (IndexCall.recordDenseIntDelete name value)

abbrev Schema := List Name

abbrev Tuple := List Value

def getColumnIndex (schema : Schema) (name : Name) : Option Nat := schema.idxOf? name

def isNull : Value → Bool
  | .null => true
  | _ => false

def intValueWidth : Value → Option (Int × Nat)
  | .int2 v => some (v.toInt,2)
  | .int4 v => some (v.toInt,4)
  | .int8 v => some (v.toInt,8)
  | _ => none

def keyIsNullDistinct (indexType : ArtIndexType) (values : List Value) : Bool := decide indexType.isUnique && values.any isNull

/-- The encoded columns of a row, by their index in the schema and whether they are escaped. -/
abbrev FragCache := List (Nat × Bool × Bytes)

def encodeFragment (cache : FragCache) (colIdx : Nat) (value : Value) (escape : Bool) : FragCache × Bytes :=
  match cache.find? fun frag => frag.1 = colIdx ∧ frag.2.1 = escape with
  | some frag => (cache,frag.2.2)
  | none => (cache ++ [(colIdx,escape,encodeValue escape value)],encodeValue escape value)

/-- The columns after the first, each behind a separator. -/
def encodeRestCached (escape : Bool) (cache : FragCache) : List (Nat × Value) → FragCache × Bytes
  | [] => (cache,[])
  | (sidx,v)::cols =>
    let (cache,frag) := encodeFragment cache sidx v escape
    let (cache,rest) := encodeRestCached escape cache cols
    (cache,0::frag ++ rest)

def encodeKeyCached (cache : FragCache) : List (Nat × Value) → FragCache × Bytes
  | [] => (cache,[])
  | (sidx,v)::cols =>
    let escape := decide (1 < ((sidx,v)::cols).length)
    let (cache,frag) := encodeFragment cache sidx v escape
    let (cache,rest) := encodeRestCached escape cache cols
    (cache,frag ++ rest)

/-- The indexed columns of a tuple with their index in the schema; none when the schema or the tuple lacks one. -/
def resolve (columns : List Name) (schema : Schema) (tuple : Tuple) : Option (List (Nat × Value)) :=
  columns.mapM fun column => do
    let sidx ← getColumnIndex schema column
    let v ← tuple[sidx]?
    return (sidx,v)

inductive MaintenanceError
  | duplicateKey (message : Name)
  | nullPrimaryKey
  | internal (message : Name)
  | indexNotFound (name : Name)
deriving DecidableEq

namespace MaintenanceError

def ofTree : ArtIndexError → MaintenanceError
  | .duplicateKey message => .duplicateKey (textBytes message)
  | .nullPrimaryKey => .nullPrimaryKey
  | .internal message => .internal (textBytes message)

def display : MaintenanceError → Name
  | .duplicateKey message => textBytes "Duplicate key: " ++ message
  | .nullPrimaryKey => textBytes "NULL value not allowed in primary key"
  | .internal message => textBytes "Internal error: " ++ message
  | .indexNotFound name => textBytes "Index '" ++ name ++ textBytes "' not found"

end MaintenanceError

def violationName {Contents : Type} (entry : IndexEntry Contents) (indexName : Name) : Name := entry.constraintLabel.getD indexName

def storedDuplicateError (indexName : Name) (rowId : RowId) : MaintenanceError → MaintenanceError
  | .duplicateKey message =>
    .duplicateKey (textBytes "index \"" ++ indexName ++ textBytes "\" refused the key of row " ++ decimal rowId ++
      textBytes ", which is stored anyway (" ++ (MaintenanceError.duplicateKey message).display ++
      textBytes ") — that index cannot find this row, and its entry belongs to the row that claimed the value first")
  | err => err

def rejectedDuplicateError (indexName : Name) (indexType : ArtIndexType) : MaintenanceError → MaintenanceError
  | .duplicateKey _ =>
    .duplicateKey (textBytes "Duplicate key value violates " ++
      textBytes (if indexType = .primaryKey then "PRIMARY KEY" else "UNIQUE") ++ textBytes " constraint \"" ++ indexName ++ textBytes "\"")
  | err => err

/-- Whether the row is in the table whatever its indexes say. -/
inductive RowState
  | stored
  | notStored
deriving DecidableEq

/-- An entry that a row has taken, with the number that was recorded for it. -/
structure Taken where
  name : Name
  indexType : ArtIndexType
  key : Bytes
  denseInt : Option Int

def recordDeleted (name : Name) : Option Int → IndexScript Unit
  | some value => recordDenseIntDelete name value
  | none => pure ()

section
variable (indexes : Indexes) (rowId : RowId)

/-- One turn of the loop of `undo_row_index_entries`. -/
def undoTaken (taken : Taken) : IndexScript Unit := do
  if taken.indexType.isUnique then
    match ← remove taken.name taken.key with
    | .ok (some _) => recordDeleted taken.name taken.denseInt
    | _ => return ()
  else
    let _ ← removeValue taken.name taken.key rowId
    return ()

/-- The entries are given the latest first. -/
def undoRowIndexEntries : List Taken → IndexScript Unit
  | [] => pure ()
  | taken::older => do
    undoTaken rowId taken
    undoRowIndexEntries older

variable (entry : IndexEntry CountedTree) (name : Name) (unique : Bool)

def denseInt (values : List Value) : Option (Int × Nat) :=
  if entry.indexType = .primaryKey ∧ entry.columns.length = 1 then values.head?.bind intValueWidth else none

def recordInserted : Option (Int × Nat) → IndexScript Unit
  | some (value,keyWidth) => recordDenseIntInsert name keyWidth value
  | none => pure ()

/-- The index and the columns of a row in it, where the row has a key: all columns resolve, and none of an enforced key is NULL. -/
def keyed (schema : Schema) (tuple : Tuple) (name : Name) : Option (IndexEntry CountedTree × List (Nat × Value)) := do
  let entry ← indexes.lookup name
  let resolved ← resolve entry.columns schema tuple
  if keyIsNullDistinct entry.indexType (resolved.map Prod.snd) then none else some (entry,resolved)

/-- The loop of `insert_row_indexes` and of `on_insert_tuple_collect_index_values`. -/
def insertEach (schema : Schema) (tuple : Tuple) (multiIndex : Bool) (rowState : RowState) :
    List Name → FragCache → List Taken → Option MaintenanceError → IndexScript (Except MaintenanceError Unit)
  | [], _, _, firstError => pure (firstError.elim (.ok ()) .error)
  | name::names, cache, inserted, firstError =>
    match keyed indexes schema tuple name with
    | none => insertEach schema tuple multiIndex rowState names cache inserted firstError
    | some (entry,resolved) => do
      let encoded := if multiIndex then encodeKeyCached cache resolved else (cache,encodeKey (resolved.map Prod.snd))
      match ← insert name encoded.2 rowId with
      | .ok _ =>
        let dense := denseInt entry (resolved.map Prod.snd)
        recordInserted name dense
        let inserted := if rowState = .notStored ∧ multiIndex = true
          then ⟨name,entry.indexType,encoded.2,dense.map Prod.fst⟩ :: inserted else inserted
        insertEach schema tuple multiIndex rowState names encoded.1 inserted firstError
      | .error e =>
        if entry.indexType.isUnique then
          match rowState with
          | .notStored =>
            undoRowIndexEntries rowId inserted
            return .error (rejectedDuplicateError (violationName entry name) entry.indexType (.ofTree e))
          | .stored =>
            insertEach schema tuple multiIndex rowState names encoded.1 inserted
              (firstError.or (some (storedDuplicateError (violationName entry name) rowId (.ofTree e))))
        -- an index that does not enforce anything refuses only on a corrupt tree
        else insertEach schema tuple multiIndex rowState names encoded.1 inserted firstError

def insertRowIndexes (names : List Name) (schema : Schema) (tuple : Tuple) (rowState : RowState) :
    IndexScript (Except MaintenanceError Unit) :=
  insertEach indexes rowId schema tuple (decide (1 < names.length)) rowState names [] [] none

/-- The values of the indexed columns, up to the first one of each index that does not resolve. -/
def collectColumns (schema : Schema) (tuple : Tuple) : List Name → Map Name Value → Map Name Value
  | [], collected => collected
  | column::columns, collected =>
    match (getColumnIndex schema column).bind fun sidx => tuple[sidx]? with
    | none => collected
    | some value => collectColumns schema tuple columns (if column ∈ collected then collected else collected.insert column value)

def collectIndexValues (names : List Name) (schema : Schema) (tuple : Tuple) : Map Name Value :=
  names.foldl (fun collected name =>
    match indexes.lookup name with
    | none => collected
    | some entry => collectColumns schema tuple entry.columns collected) ∅

/-- The index and the values of its columns, where a row has a key in it. -/
def keyedBy (columnValues : Map Name Value) (name : Name) : Option (IndexEntry CountedTree × List Value) := do
  let entry ← indexes.lookup name
  let values := entry.columns.filterMap columnValues.lookup
  if values.length = entry.columns.length ∧ keyIsNullDistinct entry.indexType values = false then some (entry,values) else none

/-- The loop of `on_insert`. -/
def onInsertEach (columnValues : Map Name Value) : List Name → Option MaintenanceError → IndexScript (Except MaintenanceError Unit)
  | [], firstError => pure (firstError.elim (.ok ()) .error)
  | name::names, firstError =>
    match keyedBy indexes columnValues name with
    | none => onInsertEach columnValues names firstError
    | some (entry,values) => do
      match ← insert name (encodeKey values) rowId with
      | .ok _ =>
        recordInserted name (denseInt entry values)
        onInsertEach columnValues names firstError
      | .error e =>
        onInsertEach columnValues names (if entry.indexType.isUnique then firstError.or (some (.ofTree e)) else firstError)

/-- What both deletions do in one index: a unique key goes whoever has it, another loses the row. -/
def deleteKey (entry : IndexEntry CountedTree) (values : List Value) (key : Bytes) (firstError : Option MaintenanceError) :
    IndexScript (Option MaintenanceError) := do
  if entry.indexType.isUnique then
    match ← remove name key with
    | .ok previous =>
      if previous.isSome then recordDeleted name ((denseInt entry values).map Prod.fst)
      return firstError
    | .error e => return firstError.or (some (.ofTree e))
  else
    let _ ← removeValue name key rowId
    return firstError

/-- The loop of `on_delete`. -/
def onDeleteEach (columnValues : Map Name Value) : List Name → Option MaintenanceError → IndexScript (Except MaintenanceError Unit)
  | [], firstError => pure (firstError.elim (.ok ()) .error)
  | name::names, firstError =>
    match keyedBy indexes columnValues name with
    | none => onDeleteEach columnValues names firstError
    | some (entry,values) => do
      let firstError ← deleteKey rowId name entry values (encodeKey values) firstError
      onDeleteEach columnValues names firstError

/-- The loop of `on_delete_tuple`. -/
def onDeleteTupleEach (schema : Schema) (tuple : Tuple) (multiIndex : Bool) :
    List Name → FragCache → Option MaintenanceError → IndexScript (Except MaintenanceError Unit)
  | [], _, firstError => pure (firstError.elim (.ok ()) .error)
  | name::names, cache, firstError =>
    match keyed indexes schema tuple name with
    | none => onDeleteTupleEach schema tuple multiIndex names cache firstError
    | some (entry,resolved) => do
      let encoded := if multiIndex then encodeKeyCached cache resolved else (cache,encodeKey (resolved.map Prod.snd))
      let firstError ← deleteKey rowId name entry (resolved.map Prod.snd) encoded.2 firstError
      onDeleteTupleEach schema tuple multiIndex names encoded.1 firstError

/-- A membership that has been taken out, to be restored, or put in, to be removed. -/
structure ReplicatedIndexUndo where
  name : Name
  key : Bytes
  rowId : RowId
  unique : Bool
  denseInt : Option (Int × Nat)
  restore : Bool

/-- Whether a membership is there; none where the key has another owner. -/
def presence (change : ReplicatedIndexUndo) : IndexScript (Option Bool) := do
  if change.unique then
    match ← get change.name change.key with
    | some owner => return if owner ≠ change.rowId then none else some true
    | none => return some false
  else
    let rowIds ← getAll change.name change.key
    return some (decide (change.rowId ∈ rowIds))

/-- One turn of the loop of `rollback`, with its error. -/
def undoChange (change : ReplicatedIndexUndo) : IndexScript (Option MaintenanceError) := do
  if change.restore then
    match ← presence change with
    | none => return some (.internal (textBytes "live replay rollback encountered a different index owner"))
    | some true => return none
    | some false =>
      match ← insert change.name change.key change.rowId with
      | .ok _ =>
        recordInserted change.name change.denseInt
        return none
      | .error e => return some (.ofTree e)
  else if change.unique then
    let owner ← get change.name change.key
    if owner = some change.rowId then
      match ← remove change.name change.key with
      | .ok removed =>
        if removed.isSome then recordDeleted change.name (change.denseInt.map Prod.fst)
        return none
      | .error e => return some (.ofTree e)
    else return none
  else
    match ← removeValue change.name change.key change.rowId with
    | .ok _ => return none
    | .error e => return some (.ofTree e)

def rollback : List ReplicatedIndexUndo → Option MaintenanceError → IndexScript (Except MaintenanceError Unit)
  | [], firstError => pure (firstError.elim (.ok ()) .error)
  | change::older, firstError => do
    let error ← undoChange change
    rollback older (firstError.or error)

abbrev ReplayKey := Bytes × Option (Int × Nat)

/-- The key of a tuple in an index; none without a tuple or for a NULL in an enforced key. -/
def replayKey (schema : Schema) : Option Tuple → Except MaintenanceError (Option ReplayKey)
  | none => .ok none
  | some tuple => do
    let values ← entry.columns.mapM fun column =>
      match (getColumnIndex schema column).bind fun i => tuple[i]? with
      | some value => .ok value
      | none => .error (.internal (textBytes "missing replay index column " ++ column))
    if keyIsNullDistinct entry.indexType values then .ok none else .ok (some (encodeKey values,denseInt entry values))

/-- Whether a unique key belongs to another row. -/
def refusedKey (name : Name) (unique : Bool) : List ReplayKey → IndexScript Bool
  | [] => pure false
  | key::keys =>
    if unique then do
      let owner ← get name key.1
      if owner.any fun owner => decide (owner ≠ rowId) then return true else refusedKey name unique keys
    else refusedKey name unique keys

/-- Whether there was a membership to remove. -/
def withdraw (key : Bytes) : IndexScript (Except ArtIndexError Bool) :=
  if unique then Except.map Option.isSome <$> remove name key else removeValue name key rowId

def takeOut (old new : Option ReplayKey) : IndexScript (Except MaintenanceError (List ReplicatedIndexUndo)) :=
  match old with
  | none => pure (.ok [])
  | some (key,dense) =>
    if some key = new.map Prod.fst then pure (.ok [])
    else do
      match ← withdraw rowId name unique key with
      | .ok true =>
        recordDeleted name (dense.map Prod.fst)
        return .ok [⟨name,key,rowId,unique,dense,true⟩]
      | .ok false => return .ok []
      | .error e => return .error (.ofTree e)

/-- Whether the row is there under the key. -/
def isPresent (key : Bytes) : IndexScript Bool :=
  if unique then (fun owner => decide (owner = some rowId)) <$> get name key
  else (fun rowIds => decide (rowId ∈ rowIds)) <$> getAll name key

/-- The new key is put in unless it is there. -/
def putIn : Option ReplayKey → IndexScript (Except MaintenanceError (List ReplicatedIndexUndo))
  | none => pure (.ok [])
  | some (key,dense) => do
    if ← isPresent rowId name unique key then return .ok []
    else
      match ← insert name key rowId with
      | .ok _ =>
        recordInserted name dense
        return .ok [⟨name,key,rowId,unique,dense,false⟩]
      | .error e => return .error (.ofTree e)

/-- The loop of `stage_replicated_row`: what has been changed, the latest first, and the error that ends it. -/
def stageEach (schema : Schema) (old new : Option Tuple) :
    List Name → List ReplicatedIndexUndo → IndexScript (List ReplicatedIndexUndo × Option MaintenanceError)
  | [], undo => pure (undo,none)
  | name::names, undo =>
    match indexes.lookup name with
    | none => pure (undo,some (.indexNotFound name))
    | some entry =>
      match replayKey entry schema old with
      | .error e => pure (undo,some e)
      | .ok oldKey =>
        match replayKey entry schema new with
        | .error e => pure (undo,some e)
        | .ok newKey => do
          let unique := decide entry.indexType.isUnique
          if ← refusedKey rowId name unique (oldKey.toList ++ newKey.toList) then
            return (undo,some (.duplicateKey (textBytes "live replication index " ++ name ++ textBytes " key belongs to a different row")))
          else
            match ← takeOut rowId name unique oldKey newKey with
            | .error e => return (undo,some e)
            | .ok out =>
              match ← putIn rowId name unique newKey with
              | .error e => return (out ++ undo,some e)
              | .ok put => stageEach schema old new names (put ++ (out ++ undo))

end

section
variable (manager : ArtIndexManager CountedTree) (table : Name) (rowId : RowId)

def tableNames : List Name := (manager.tableIndexes.lookup table).getD []

variable (schema : Schema) (tuple : Tuple) (old new : Option Tuple)

/-- `on_insert_tuple`: the row is stored. -/
def onInsertTuple : IndexScript (Except MaintenanceError Unit) :=
  insertRowIndexes manager.indexes rowId (tableNames manager table) schema tuple .stored

/-- `reserve_insert_tuple`: the row is stored only if all of its keys are free. -/
def reserveInsertTuple : IndexScript (Except MaintenanceError Unit) :=
  insertRowIndexes manager.indexes rowId (tableNames manager table) schema tuple .notStored

def onInsertTupleCollectIndexValues (rowState : RowState) : IndexScript (Except MaintenanceError (Map Name Value)) := do
  match ← insertRowIndexes manager.indexes rowId (tableNames manager table) schema tuple rowState with
  | .ok _ => return .ok (collectIndexValues manager.indexes (tableNames manager table) schema tuple)
  | .error e => return .error e

def onInsert (columnValues : Map Name Value) : IndexScript (Except MaintenanceError Unit) :=
  onInsertEach manager.indexes rowId columnValues (tableNames manager table) none

def onDelete (columnValues : Map Name Value) : IndexScript (Except MaintenanceError Unit) :=
  onDeleteEach manager.indexes rowId columnValues (tableNames manager table) none

def onDeleteTuple : IndexScript (Except MaintenanceError Unit) :=
  onDeleteTupleEach manager.indexes rowId schema tuple (decide (1 < (tableNames manager table).length)) (tableNames manager table) [] none

/-- `on_update`: the new keys go in also when the old ones did not come out. -/
def onUpdate (oldValues newValues : Map Name Value) : IndexScript (Except MaintenanceError Unit) := do
  let deleted ← onDelete manager table rowId oldValues
  let inserted ← onInsert manager table rowId newValues
  return deleted.bind fun _ => inserted

/-- `stage_replicated_row`: the changes that were made, or an error and none. -/
def stageReplicatedRow : IndexScript (Except MaintenanceError (List ReplicatedIndexUndo)) := do
  match ← stageEach manager.indexes rowId schema old new (tableNames manager table) [] with
  | (undo,none) => return .ok undo
  | (undo,some error) =>
    match ← rollback undo none with
    | .ok _ => return .error error
    | .error failed => return .error (.internal (error.display ++ textBytes "; index rollback failed: " ++ failed.display))

def stageAndDrop : IndexScript (Except MaintenanceError Unit) := do
  match ← stageReplicatedRow manager table rowId schema old new with
  | .ok undo =>
    let _ ← rollback undo none
    return .ok ()
  | .error e => return .error e

def stageAndCommit : IndexScript (Except MaintenanceError Unit) := do
  match ← stageReplicatedRow manager table rowId schema old new with
  | .ok _ => return .ok ()
  | .error e => return .error e

end

inductive RowRequest
  | onInsertTuple (table : Name) (rowId : RowId) (schema : Schema) (tuple : Tuple)
  | reserveInsertTuple (table : Name) (rowId : RowId) (schema : Schema) (tuple : Tuple)
  | onInsertTupleCollectIndexValues (table : Name) (rowId : RowId) (schema : Schema) (tuple : Tuple) (rowState : RowState)
  | onInsert (table : Name) (rowId : RowId) (columnValues : Map Name Value)
  | onDelete (table : Name) (rowId : RowId) (columnValues : Map Name Value)
  | onDeleteTuple (table : Name) (rowId : RowId) (schema : Schema) (tuple : Tuple)
  | onUpdate (table : Name) (rowId : RowId) (oldValues newValues : Map Name Value)
  | stageAndCommit (table : Name) (rowId : RowId) (schema : Schema) (old new : Option Tuple)
  | stageAndDrop (table : Name) (rowId : RowId) (schema : Schema) (old new : Option Tuple)

def RowRequest.script (manager : ArtIndexManager CountedTree) : RowRequest → IndexScript (Except MaintenanceError Unit)
  | .onInsertTuple table rowId schema tuple => RowIndexes.onInsertTuple manager table rowId schema tuple
  | .reserveInsertTuple table rowId schema tuple => RowIndexes.reserveInsertTuple manager table rowId schema tuple
  | .onInsertTupleCollectIndexValues table rowId schema tuple rowState => do
    let result ← RowIndexes.onInsertTupleCollectIndexValues manager table rowId schema tuple rowState
    return result.map fun _ => ()
  | .onInsert table rowId columnValues => RowIndexes.onInsert manager table rowId columnValues
  | .onDelete table rowId columnValues => RowIndexes.onDelete manager table rowId columnValues
  | .onDeleteTuple table rowId schema tuple => RowIndexes.onDeleteTuple manager table rowId schema tuple
  | .onUpdate table rowId oldValues newValues => RowIndexes.onUpdate manager table rowId oldValues newValues
  | .stageAndCommit table rowId schema old new => RowIndexes.stageAndCommit manager table rowId schema old new
  | .stageAndDrop table rowId schema old new => RowIndexes.stageAndDrop manager table rowId schema old new

def afterScript {α : Type} (manager : ArtIndexManager CountedTree) (script : IndexScript α) : ArtIndexManager CountedTree :=
  { manager with indexes := (script.run callIndex manager.indexes).1 }

def RowRequest.perform (manager : ArtIndexManager CountedTree) (request : RowRequest) : ArtIndexManager CountedTree :=
  afterScript manager (request.script manager)

end HeliosNano.Storage.RowIndexes
