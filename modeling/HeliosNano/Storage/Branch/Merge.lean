import HeliosNano.Storage.Branch.Manager
import Mathlib.Data.List.Dedup

/-! The three-way merge of two branches. A hash set is visited in an order of its own: the orders in
which the merge visits its sets of keys are parameters. -/
namespace HeliosNano.Storage.Branch
open Foundation

inductive MergeStrategy
  | auto
  | manual
  | theirs
  | ours
deriving DecidableEq, Repr

structure MergeConflict where
  key : Bytes
  baseValue : Option Bytes
  sourceValue : Option Bytes
  targetValue : Option Bytes
  sourceTimestamp : Timestamp
  targetTimestamp : Timestamp
deriving DecidableEq, Repr

structure MergeResult where
  mergeTimestamp : Timestamp
  mergedKeys : Nat
  conflicts : List MergeConflict
  completed : Bool

/-- The orders in which the common keys and the keys of the source are visited. -/
structure HashOrder where
  common : List Bytes → List Bytes
  source : List Bytes → List Bytes

/-- Every member is visited once. -/
structure HashOrder.Sound (order : HashOrder) : Prop where
  common : ∀ keys, (order.common keys).Perm keys
  source : ∀ keys, (order.source keys).Perm keys

section
variable (rows : Store) (keyManager : Option KeyManager)
variable (branchId : Nat) (key : Bytes)

def collectModifiedKeys : List Bytes :=
  ((prefixIterator rows (branchLead branchId)).filterMap fun entry => (decodeBranchDataKey entry.1).map (·.2)).dedup

def getKeyAtSnapshot (snapshot : Timestamp) : Option (Bytes × Timestamp) :=
  (rows.lookup (encodeBranchDataKey branchId key)).map fun raw => (openOwned keyManager raw,snapshot)

/-- The first entry from `bdata:<branch_id>:<key>:` on. -/
def getLatestKeyValue : Option (Bytes × Timestamp) :=
  (prefixIterator rows (encodeBranchDataKey branchId key ++ [colon])).head?.map fun entry =>
    (openOwned keyManager entry.2,0)

def getKeyTimestamp : Timestamp :=
  match getLatestKeyValue rows keyManager branchId key with
  | some (_,ts) => ts
  | none => 0

def detectConflicts (order : HashOrder) (sourceKeys targetKeys : List Bytes) (sourceId targetId : Nat)
    (mergeBase : Timestamp) : List MergeConflict :=
  (order.common (sourceKeys.filter fun key => decide (key ∈ targetKeys))).filterMap fun key =>
    let baseValue := getKeyAtSnapshot rows keyManager targetId key mergeBase
    let sourceValue := getLatestKeyValue rows keyManager sourceId key
    let targetValue := getLatestKeyValue rows keyManager targetId key
    if sourceValue ≠ baseValue ∧ targetValue ≠ baseValue ∧ sourceValue ≠ targetValue then
      some ⟨key,baseValue.map (·.1),sourceValue.map (·.1),targetValue.map (·.1),
        getKeyTimestamp rows keyManager sourceId key,getKeyTimestamp rows keyManager targetId key⟩
    else none

def copyKeyToBranch (sourceId targetId : Nat) (key : Bytes) : Except BranchError Store :=
  let targetKey := encodeBranchDataKey targetId key
  match getLatestKeyValue rows keyManager sourceId key with
  | some (data,_) =>
    match sealRowValue keyManager targetKey data with
    | .ok stored => .ok (rows.insert targetKey stored)
    | .error error => .error (.sealing error)
  | none => .ok (rows.erase targetKey)

def copiesKey (targetKeys conflictKeys : List Bytes) (strategy : MergeStrategy) (sourceId targetId : Nat)
    (mergeBase : Timestamp) (key : Bytes) : Bool :=
  if key ∈ targetKeys then
    if key ∈ conflictKeys then decide (strategy = .auto ∨ strategy = .theirs)
    else decide (getLatestKeyValue rows keyManager sourceId key ≠ getKeyAtSnapshot rows keyManager targetId key mergeBase)
  else true

end

/-- The loop over the keys of the source; the rows copied before a failure stay. -/
def applyMerge (keyManager : Option KeyManager) (targetKeys conflictKeys : List Bytes) (strategy : MergeStrategy)
    (sourceId targetId : Nat) (mergeBase : Timestamp) : List Bytes → Store → Nat → Store × Except BranchError Nat
  | [], rows, merged => (rows,.ok merged)
  | key::rest, rows, merged =>
    if copiesKey rows keyManager targetKeys conflictKeys strategy sourceId targetId mergeBase key then
      match copyKeyToBranch rows keyManager sourceId targetId key with
      | .ok rows => applyMerge keyManager targetKeys conflictKeys strategy sourceId targetId mergeBase rest rows (merged+1)
      | .error error => (rows,.error error)
    else applyMerge keyManager targetKeys conflictKeys strategy sourceId targetId mergeBase rest rows merged

namespace BranchManager

variable (m : BranchManager)

/-- The first snapshot of the target's chain that is in the source's, else the earlier creation. -/
def findMergeBase (sourceId targetId : Nat) : BranchManager × Except BranchError Timestamp :=
  match m.buildParentChain sourceId with
  | (m,.error error) => (m,.error error)
  | (m,.ok sourceChain) =>
    match m.buildParentChain targetId with
    | (m,.error error) => (m,.error error)
    | (m,.ok targetChain) =>
      match targetChain.find? fun link => decide (link.2 ∈ sourceChain.map (·.2)) with
      | some link => (m,.ok link.2)
      | none =>
        match m.getBranchById sourceId with
        | (m,.error error) => (m,.error error)
        | (m,.ok source) =>
          match m.getBranchById targetId with
          | (m,.error error) => (m,.error error)
          | (m,.ok target) => (m,.ok (min source.createdFromSnapshot target.createdFromSnapshot))

/-- The records of the two branches after the rows are merged. -/
def recordMerge (sourceName targetName : String) (source target : BranchMetadata) (mergeTimestamp : Timestamp) : BranchManager :=
  let merged := { source with state := .merged target.branchId mergeTimestamp }
  let m := (m.putMetadata sourceName merged).cache source.branchId merged
  let based := { target with mergeBase := some mergeTimestamp }
  (m.putMetadata targetName based).cache target.branchId based

def mergeRows (order : HashOrder) (source target : BranchMetadata) (sourceName targetName : String)
    (strategy : MergeStrategy) (mergeBase : Timestamp) : BranchManager × Except BranchError MergeResult :=
  let rows := m.db.rows
  let sourceKeys := collectModifiedKeys rows source.branchId
  let targetKeys := collectModifiedKeys rows target.branchId
  let conflicts := detectConflicts rows m.keyManager order sourceKeys targetKeys source.branchId target.branchId mergeBase
  if strategy = .manual ∧ conflicts ≠ [] then (m,.ok ⟨m.timestamp,0,conflicts,false⟩)
  else
    let m := m.nextTimestamp
    match applyMerge m.keyManager targetKeys (conflicts.map (·.key)) strategy source.branchId target.branchId mergeBase
        (order.source sourceKeys) rows 0 with
    | (rows,.error error) => ({ m with db := { m.db with rows := rows } },.error error)
    | (rows,.ok mergedKeys) =>
      let m := { m with db := { m.db with rows := rows } }
      (m.recordMerge sourceName targetName source target m.timestamp,.ok ⟨m.timestamp,mergedKeys,conflicts,true⟩)

def mergeBranch (order : HashOrder) (sourceName targetName : String) (strategy : MergeStrategy) :
    BranchManager × Except BranchError MergeResult :=
  match m.getBranchByName sourceName with
  | .error error => (m,.error error)
  | .ok source =>
    match m.getBranchByName targetName with
    | .error error => (m,.error error)
    | .ok target =>
      if source.state ≠ .active then
        (m,.error (.branchMerge ("Source branch '" ++ sourceName ++ "' is not active")))
      else if target.state ≠ .active then
        (m,.error (.branchMerge ("Target branch '" ++ targetName ++ "' is not active")))
      else
        match m.findMergeBase source.branchId target.branchId with
        | (m,.error error) => (m,.error error)
        | (m,.ok mergeBase) => m.mergeRows order source target sourceName targetName strategy mergeBase

end BranchManager
end HeliosNano.Storage.Branch
