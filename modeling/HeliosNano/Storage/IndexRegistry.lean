import HeliosNano.Foundation.Runs
import HeliosNano.Storage.Art.Tree
import HeliosNano.Storage.VersionKeys

/-! The registry of `ArtIndexManager`: one map of all indexes and the maps that are derived
from it per table. The statistics counters and the snapshot flag are left out. -/
namespace HeliosNano.Storage.IndexRegistry
open Foundation Art

abbrev Name := Bytes

variable {Contents : Type}

/-- A tree with its identity; the registry never looks at the contents. -/
structure Tree (Contents : Type) where
  name : Name
  table : Name
  columns : List Name
  indexType : ArtIndexType
  contents : Contents

def Tree.new [Inhabited Contents] (name table : Name) (columns : List Name) (indexType : ArtIndexType) : Tree Contents :=
  ⟨name,table,columns,indexType,default⟩

variable (table : Name) (tree : Tree Contents) (lists : Map Name (List Name)) (oldTable : Name)

def Tree.rename (newTable newName : Name) : Tree Contents :=
  { tree with table := newTable, name := newName }

structure IndexEntry (Contents : Type) where
  table : Name
  columns : List Name
  indexType : ArtIndexType
  constraintLabel : Option Name
  tree : Tree Contents

def IndexEntry.withLabel (constraintLabel : Option Name) : IndexEntry Contents :=
  ⟨tree.table,tree.columns,tree.indexType,constraintLabel,tree⟩

def IndexEntry.new : IndexEntry Contents := .withLabel tree none

structure ForeignKeyInfo where
  name : Name
  table : Name
  columns : List Name
  refTable : Name
  refColumns : List Name
  indexName : Name

inductive RegistryError
  | indexAlreadyExists (message : Name)
  | indexNotFound (name : Name)
deriving DecidableEq

structure ArtIndexManager (Contents : Type) where
  indexes : Map Name (IndexEntry Contents)
  pkIndexes : Map Name Name
  fkIndexes : Map Name (List Name)
  fkInfo : Map Name ForeignKeyInfo
  uniqueIndexes : Map Name (List Name)
  tableIndexes : Map Name (List Name)

def ArtIndexManager.new : ArtIndexManager Contents := ⟨∅,∅,∅,∅,∅,∅⟩

def underscore : Name := ascii ['_']

def pkIndexName : Name := table ++ ascii ['_','p','k','e','y']
def fkIndexName (columns : List Name) : Name :=
  table ++ underscore ++ underscore.intercalate columns ++ ascii ['_','f','k','e','y']
def uniqueIndexName (columns : List Name) : Name :=
  table ++ underscore ++ underscore.intercalate columns ++ ascii ['_','k','e','y']

def pushName (table name : Name) : Map Name (List Name) :=
  lists.insert table ((lists.lookup table).getD [] ++ [name])

/-- A name taken out of the list of a table; an empty list leaves the map. -/
def tableIndexRemove (table name : Name) : Map Name (List Name) :=
  match lists.lookup table with
  | none => lists
  | some list =>
    let left := list.filter (· ≠ name)
    if left = [] then lists.erase table else lists.insert table left

inductive IndexNamePolicy
  | refuse
  | mintFree
deriving DecidableEq

/-- The candidates for a derived name: the name itself, then with a suffix from two on. -/
def candidate (base : Name) (n : Nat) : Name := if n ≤ 1 then base else base ++ underscore ++ decimal n

/-- The first free candidate. The fuel is the number of names in the map, one of which each
candidate that is taken uses up. -/
def firstFree (indexes : Map Name (IndexEntry Contents)) (base : Name) : Nat → Nat → Name
  | 0, n => candidate base n
  | fuel+1, n => if candidate base n ∈ indexes then firstFree indexes base fuel (n+1) else candidate base n

def registerIndexEntry (indexes : Map Name (IndexEntry Contents)) (base : Name) (policy : IndexNamePolicy)
    (make : Name → IndexEntry Contents) : Except RegistryError (Map Name (IndexEntry Contents) × Name) :=
  match policy with
  | .refuse =>
    if base ∈ indexes then .error (.indexAlreadyExists base) else .ok (indexes.insert base (make base),base)
  | .mintFree =>
    let name := firstFree indexes base indexes.entries.length 1
    .ok (indexes.insert name (make name),name)

/-- The new name of an index when its table is renamed. A generated name that no replacement
touched has the table in front. -/
def renamedIndex (newTable : Name) (preserve : Name → Bool) (oldName : Name) (indexType : ArtIndexType) : Name :=
  if preserve oldName then oldName
  else
    let newName := replaceAll (ascii ['u','n','i','q','u','e','_'] ++ oldTable)
      (ascii ['u','n','i','q','u','e','_'] ++ newTable)
      (replaceAll (ascii ['f','k','_'] ++ oldTable) (ascii ['f','k','_'] ++ newTable)
        (replaceAll (ascii ['p','k','_'] ++ oldTable) (ascii ['p','k','_'] ++ newTable)
          (replaceAll (underscore ++ oldTable ++ underscore) (underscore ++ newTable ++ underscore) oldName)))
    if newName = oldName ∧ indexType ≠ .manual then
      match stripPrefix (oldTable ++ underscore) oldName with
      | some rest => newTable ++ underscore ++ rest
      | none => newName
    else newName

def IndexEntry.moved (entry : IndexEntry Contents) (newTable newName : Name) : IndexEntry Contents :=
  { entry with table := newTable, tree := entry.tree.rename newTable newName }

def renameEntry (newTable : Name) (preserve : Name → Bool)
    (acc : Map Name (IndexEntry Contents) × List (Name × Name)) (oldName : Name) :
    Map Name (IndexEntry Contents) × List (Name × Name) :=
  match acc.1.lookup oldName with
  | none => acc
  | some entry =>
    let newName := renamedIndex oldTable newTable preserve oldName entry.indexType
    ((acc.1.erase oldName).insert newName (entry.moved newTable newName),acc.2 ++ [(oldName,newName)])

def renameOf (renames : List (Name × Name)) (name : Name) : Name :=
  match renames.find? (·.1 = name) with
  | some pair => pair.2
  | none => name

def moveList (renames : List (Name × Name)) (oldTable newTable : Name) (lists : Map Name (List Name)) :
    Map Name (List Name) :=
  match lists.lookup oldTable with
  | none => lists
  | some list => (lists.erase oldTable).insert newTable (list.map (renameOf renames))

def renameFkInfo (newTable : Name) (infos : Map Name ForeignKeyInfo) (pair : Name × Name) : Map Name ForeignKeyInfo :=
  match infos.lookup pair.1 with
  | none => infos
  | some info =>
    (infos.erase pair.1).insert pair.2
      { info with
        name := pair.2
        indexName := pair.2
        table := if info.table = oldTable then newTable else info.table }

namespace ArtIndexManager
variable (s : ArtIndexManager Contents)

section
variable [Inhabited Contents]
variable (table : Name) (columns : List Name)

def createPkIndex : ArtIndexManager Contents × Except RegistryError Name :=
  if table ∈ s.pkIndexes then
    (s,.error (.indexAlreadyExists (textBytes "Primary key already exists for table '" ++ table ++ textBytes "'")))
  else match registerIndexEntry s.indexes (pkIndexName table) .mintFree
      fun name => .new (.new name table columns .primaryKey) with
    | .error e => (s,.error e)
    | .ok (indexes,name) =>
      ({ s with
          indexes := indexes
          pkIndexes := s.pkIndexes.insert table name
          tableIndexes := pushName s.tableIndexes table name },.ok name)

def createFkIndex (refTable : Name) (refColumns : List Name)
    (constraintName : Option Name) : ArtIndexManager Contents × Except RegistryError Name :=
  match registerIndexEntry s.indexes (constraintName.getD (fkIndexName table columns)) .refuse
      fun name => .new (.new name table columns .foreignKey) with
  | .error e => (s,.error e)
  | .ok (indexes,name) =>
    ({ s with
        indexes := indexes
        fkIndexes := pushName s.fkIndexes table name
        fkInfo := s.fkInfo.insert name ⟨name,table,columns,refTable,refColumns,name⟩
        tableIndexes := pushName s.tableIndexes table name },.ok name)

def createUniqueIndex (constraintName : Option Name) : ArtIndexManager Contents × Except RegistryError Name :=
  match registerIndexEntry s.indexes (constraintName.getD (uniqueIndexName table columns)) .refuse
      fun name => .new (.new name table columns .unique) with
  | .error e => (s,.error e)
  | .ok (indexes,name) =>
    ({ s with
        indexes := indexes
        uniqueIndexes := pushName s.uniqueIndexes table name
        tableIndexes := pushName s.tableIndexes table name },.ok name)

def createConstraintUniqueIndex (constraintLabel : Option Name) : ArtIndexManager Contents × Except RegistryError Name :=
  match registerIndexEntry s.indexes (uniqueIndexName table columns) .mintFree
      fun name => .withLabel (.new name table columns .unique) (constraintLabel.filter (· ≠ name)) with
  | .error e => (s,.error e)
  | .ok (indexes,name) =>
    ({ s with
        indexes := indexes
        uniqueIndexes := pushName s.uniqueIndexes table name
        tableIndexes := pushName s.tableIndexes table name },.ok name)

def createManualIndex (name table : Name) (columns : List Name) :
    ArtIndexManager Contents × Except RegistryError Name :=
  match registerIndexEntry s.indexes name .refuse fun name => .new (.new name table columns .manual) with
  | .error e => (s,.error e)
  | .ok (indexes,_) =>
    ({ s with
        indexes := indexes
        tableIndexes := pushName s.tableIndexes table name },.ok name)

end

/-- The part of `drop_index` that depends on the kind of the index. -/
def forgetKind (name : Name) : ArtIndexType → ArtIndexManager Contents
  | .primaryKey => { s with pkIndexes := s.pkIndexes.retain fun _ v => v ≠ name }
  | .foreignKey =>
    { s with
      fkIndexes := s.fkIndexes.mapValues (List.filter (· ≠ name))
      fkInfo := s.fkInfo.erase name }
  | .unique => { s with uniqueIndexes := s.uniqueIndexes.mapValues (List.filter (· ≠ name)) }
  | .manual => s

def dropIndex (name : Name) : ArtIndexManager Contents × Except RegistryError Unit :=
  match s.indexes.lookup name with
  | none => (s,.error (.indexNotFound name))
  | some entry =>
    ({ s.forgetKind name entry.indexType with
        indexes := s.indexes.erase name
        tableIndexes := tableIndexRemove s.tableIndexes entry.table name },.ok ())

/-- The names of the indexes of a table in the order in which the map yields them, which a
hash map does not fix: the rank stands for it. -/
def matching (table : Name) (rank : Name → Nat) : List Name :=
  ((s.indexes.entries.filter fun entry => entry.2.table = table).map (·.1)).insertionSort
    fun a b => rank a ≤ rank b

/-- The loop of `drop_table_indexes`, which stops at the first error. -/
def dropEach : List Name → ArtIndexManager Contents → ArtIndexManager Contents × Except RegistryError Unit
  | [], s => (s,.ok ())
  | name::rest, s =>
    match s.dropIndex name with
    | (s',.ok ()) => dropEach rest s'
    | (s',.error e) => (s',.error e)

def dropTableIndexes (table : Name) (rank : Name → Nat) : ArtIndexManager Contents × Except RegistryError Unit :=
  dropEach (s.matching table rank) s

def renameTableIndexes (oldTable newTable : Name) (preserve : Name → Bool) (rank : Name → Nat) :
    ArtIndexManager Contents :=
  let (indexes,renames) := (s.matching oldTable rank).foldl (renameEntry oldTable newTable preserve) (s.indexes,[])
  let newNames := renames.map (·.2)
  { indexes := indexes
    tableIndexes :=
      if oldTable ∈ s.tableIndexes then
        if newNames = [] then s.tableIndexes.erase oldTable
        else (s.tableIndexes.erase oldTable).insert newTable newNames
      else s.tableIndexes
    pkIndexes :=
      match s.pkIndexes.lookup oldTable with
      | none => s.pkIndexes
      | some name => (s.pkIndexes.erase oldTable).insert newTable (renameOf renames name)
    fkIndexes := moveList renames oldTable newTable s.fkIndexes
    uniqueIndexes := moveList renames oldTable newTable s.uniqueIndexes
    fkInfo := renames.foldl (renameFkInfo oldTable newTable) s.fkInfo }

end ArtIndexManager

inductive Step
  | createPkIndex (table : Name) (columns : List Name)
  | createFkIndex (table : Name) (columns : List Name) (refTable : Name) (refColumns : List Name)
      (constraintName : Option Name)
  | createUniqueIndex (table : Name) (columns : List Name) (constraintName : Option Name)
  | createConstraintUniqueIndex (table : Name) (columns : List Name) (constraintLabel : Option Name)
  | createManualIndex (name table : Name) (columns : List Name)
  | dropIndex (name : Name)
  | dropTableIndexes (table : Name) (rank : Name → Nat)
  | renameTableIndexes (oldTable newTable : Name) (preserve : Name → Bool) (rank : Name → Nat)

def step [Inhabited Contents] (s : ArtIndexManager Contents) : Step → ArtIndexManager Contents
  | .createPkIndex table columns => (s.createPkIndex table columns).1
  | .createFkIndex table columns refTable refColumns constraintName =>
    (s.createFkIndex table columns refTable refColumns constraintName).1
  | .createUniqueIndex table columns constraintName => (s.createUniqueIndex table columns constraintName).1
  | .createConstraintUniqueIndex table columns constraintLabel =>
    (s.createConstraintUniqueIndex table columns constraintLabel).1
  | .createManualIndex name table columns => (s.createManualIndex name table columns).1
  | .dropIndex name => (s.dropIndex name).1
  | .dropTableIndexes table rank => (s.dropTableIndexes table rank).1
  | .renameTableIndexes oldTable newTable preserve rank => s.renameTableIndexes oldTable newTable preserve rank

end HeliosNano.Storage.IndexRegistry
