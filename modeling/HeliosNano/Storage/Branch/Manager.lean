import HeliosNano.Storage.Db

/-! Branches: the registry, the metadata records, the lists of children and the cache of the branch
manager, with garbage collection of dropped branches. Reads and writes of the store do not fail. -/
namespace HeliosNano.Storage.Branch
open Foundation

inductive BranchState
  | active
  | merged (intoBranch atTimestamp : Nat)
  | dropped (atTimestamp : Nat)
deriving DecidableEq, Repr

structure BranchMetadata where
  name : String
  branchId : Nat
  parentId : Option Nat
  createdAt : Timestamp
  createdFromSnapshot : Timestamp
  state : BranchState
  mergeBase : Option Timestamp
deriving DecidableEq, Repr

structure BranchRegistry where
  branches : Map Nat String
  mainBranch : Nat
  nextBranchId : Nat

/-- The last two are no error values of the source: an overflow panics, and a walk over a cycle of
parents does not return. -/
inductive BranchError
  | storage (message : String)
  | branchMerge (message : String)
  | sealing (error : Error)
  | panicked
  | diverges
deriving DecidableEq, Repr

inductive BranchGcMode
  | immediate
  | deferred
deriving DecidableEq, Repr

structure BranchGcConfig where
  minRetentionSeconds : Nat
  autoGcEnabled : Bool
  gcMode : BranchGcMode

/-- The key spaces of the store: `branch:meta:`, `branch:registry`, `branch:children:`,
`branch:pending_gc`, and all rows, those under `bdata:` among them. -/
structure BranchDb where
  metadata : Map String BranchMetadata
  registry : Option BranchRegistry
  children : Map Nat (List Nat)
  pendingGc : Map Nat Timestamp
  rows : Store

structure BranchManager where
  db : BranchDb
  registry : BranchRegistry
  metadataCache : Map Nat BranchMetadata
  timestamp : Timestamp
  gcConfig : BranchGcConfig
  pendingGc : Map Nat Timestamp
  keyManager : Option KeyManager

def branchDataPrefix : Bytes := ascii ['b','d','a','t','a',':']

/-- `bdata:<branch_id>:` -/
def branchLead (branchId : Nat) : Bytes := branchDataPrefix ++ (beBytes 8 branchId ++ [colon])

/-- `bdata:<branch_id>:<user_key>` -/
def encodeBranchDataKey (branchId : Nat) (userKey : Bytes) : Key := branchLead branchId ++ userKey

def decodeBranchDataKey (key : Key) : Option (Nat × Bytes) := do
  let remaining ← stripPrefix branchDataPrefix key
  if remaining.length < 8 then none
  else
    let branchId := beValue (remaining.take 8)
    if remaining[8]? ≠ some colon then none
    else if (fromUtf8 (remaining.drop 9)).isSome then some (branchId,remaining.drop 9) else none

/-- The store keeps prefixes of five bytes apart: an iterator goes on to the last key with the first
five bytes of the one it starts at. -/
def prefixIterator (rows : Store) (lead : Key) : List (Key × Bytes) :=
  (rows.iterFrom lead).takeWhile fun entry => decide (entry.1.take 5 = lead.take 5)

namespace BranchRegistry

def new : BranchRegistry := ⟨(∅ : Map Nat String).insert 1 "main",1,2⟩

def addBranch (r : BranchRegistry) (branchId : Nat) (name : String) : BranchRegistry :=
  { r with branches := r.branches.insert branchId name }

def removeBranch (r : BranchRegistry) (branchId : Nat) : BranchRegistry :=
  { r with branches := r.branches.erase branchId }

end BranchRegistry

def mainMetadata : BranchMetadata := ⟨"main",1,none,0,0,.active,none⟩

def loadOrCreateRegistry (db : BranchDb) : BranchDb × BranchRegistry :=
  match db.registry with
  | some registry => (db,registry)
  | none =>
    ({ db with metadata := db.metadata.insert "main" mainMetadata, registry := some .new },.new)

namespace BranchManager

/-- The key manager is set after the registry and the queue are loaded. -/
def withGcConfig (db : BranchDb) (timestamp : Timestamp) (gcConfig : BranchGcConfig)
    (keyManager : Option KeyManager) : BranchManager :=
  let (db,registry) := loadOrCreateRegistry db
  ⟨db,registry,∅,timestamp,gcConfig,db.pendingGc,keyManager⟩

variable (m : BranchManager) (name : String) (metadata : BranchMetadata) (branchId parentId : Nat)

def saveRegistry : BranchManager := { m with db := { m.db with registry := some m.registry } }

def putMetadata : BranchManager :=
  { m with db := { m.db with metadata := m.db.metadata.insert name metadata } }

def cache (metadata : BranchMetadata) : BranchManager :=
  { m with metadataCache := m.metadataCache.insert branchId metadata }

def getBranchByName : Except BranchError BranchMetadata :=
  match m.db.metadata.lookup name with
  | some metadata => .ok metadata
  | none => .error (.storage ("Branch '" ++ name ++ "' not found"))

def getBranchById (m : BranchManager) (branchId : Nat) : BranchManager × Except BranchError BranchMetadata :=
  match m.metadataCache.lookup branchId with
  | some metadata => (m,.ok metadata)
  | none =>
    match m.registry.branches.lookup branchId with
    | none => (m,.error (.storage ("Branch ID " ++ toString branchId ++ " not found")))
    | some name =>
      match m.getBranchByName name with
      | .error error => (m,.error error)
      | .ok metadata => (m.cache branchId metadata,.ok metadata)

def getChildBranches : List Nat := (m.db.children.lookup parentId).getD []

def addChildBranch (childId : Nat) : BranchManager :=
  { m with db := { m.db with children := m.db.children.insert parentId (m.getChildBranches parentId ++ [childId]) } }

/-- A list that does not name the child is not written again. -/
def removeChildBranch (childId : Nat) : BranchManager :=
  match m.db.children.lookup parentId with
  | none => m
  | some children =>
    let kept := children.filter fun id => decide (id ≠ childId)
    if kept.length = children.length then m
    else { m with db := { m.db with children := m.db.children.insert parentId kept } }

def nextTimestamp : BranchManager := { m with timestamp := m.timestamp+1 }

def parentChain : Nat → BranchManager → Nat → BranchManager × Except BranchError (List (Nat × Timestamp))
  | 0, m, _ => (m,.error .diverges)
  | fuel+1, m, branchId =>
    match m.getBranchById branchId with
    | (m,.error error) => (m,.error error)
    | (m,.ok metadata) =>
      match metadata.parentId with
      | none => (m,.ok [])
      | some parentId =>
        match parentChain fuel m parentId with
        | (m,.error error) => (m,.error error)
        | (m,.ok chain) => (m,.ok ((parentId,metadata.createdFromSnapshot)::chain))

/-- A walk of more steps than there are ids comes back to a branch and goes on for ever. -/
def buildParentChain (m : BranchManager) (branchId : Nat) :
    BranchManager × Except BranchError (List (Nat × Timestamp)) :=
  parentChain m.registry.nextBranchId m branchId

/-- Every key from the prefix of the branch on, as far as the iterator goes. -/
def gcBranchData : BranchManager :=
  { m with db := { m.db with
      rows := (prefixIterator m.db.rows (branchLead branchId)).foldl (fun rows entry => rows.erase entry.1) m.db.rows } }

def savePendingGc : BranchManager := { m with db := { m.db with pendingGc := m.pendingGc } }

def scheduleBranchGc : BranchManager :=
  if !m.gcConfig.autoGcEnabled then m
  else match m.gcConfig.gcMode with
    | .immediate => m.gcBranchData branchId
    | .deferred => { m with pendingGc := m.pendingGc.insert branchId m.timestamp }.savePendingGc

def gcEligibleBranches : BranchManager × Nat :=
  let eligible := (m.pendingGc.entries.filter fun entry =>
    decide (m.gcConfig.minRetentionSeconds ≤ m.timestamp-entry.2)).map (·.1)
  let collected := eligible.foldl
    (fun (m : BranchManager) id => { m.gcBranchData id with pendingGc := m.pendingGc.erase id }) m
  (collected.savePendingGc,eligible.length)

/-- The parent a new branch names, `main` by default. -/
def resolveParent : Option String → Except BranchError Nat
  | some parent => (m.getBranchByName parent).map (·.branchId)
  | none => .ok m.registry.mainBranch

def createBranch (parentName : Option String) (snapshotId : Timestamp) : BranchManager × Except BranchError Nat :=
  match m.getBranchByName name with
  | .ok _ => (m,.error (.storage ("Branch '" ++ name ++ "' already exists")))
  | .error _ =>
    match m.resolveParent parentName with
    | .error error => (m,.error error)
    | .ok parentId =>
      let branchId := m.registry.nextBranchId
      if branchId = u64Max then (m,.error .panicked)
      else
        let m := { m with registry := { m.registry with nextBranchId := branchId+1 } }.nextTimestamp
        let metadata : BranchMetadata := ⟨name,branchId,some parentId,m.timestamp,snapshotId,.active,none⟩
        let m := m.putMetadata name metadata
        let m := { m with registry := m.registry.addBranch branchId name }.saveRegistry
        let m := m.addChildBranch parentId branchId
        (m.cache branchId metadata,.ok branchId)

def releaseChild : BranchManager :=
  match metadata.parentId with
  | some parentId => m.removeChildBranch parentId metadata.branchId
  | none => m

def unregister : BranchManager :=
  let m := { m with registry := m.registry.removeBranch branchId }.saveRegistry
  { m with metadataCache := m.metadataCache.erase branchId }

/-- The record of a dropped branch stays, marked as dropped. -/
def dropBranch (ifExists : Bool) : BranchManager × Except BranchError Unit :=
  match m.getBranchByName name with
  | .error error => (m,if ifExists then .ok () else .error error)
  | .ok metadata =>
    if metadata.branchId = m.registry.mainBranch then (m,.error (.storage "Cannot drop main branch"))
    else
      let children := m.getChildBranches metadata.branchId
      if children ≠ [] then
        (m,.error (.storage ("Cannot drop branch '" ++ name ++ "': has " ++ toString children.length ++
          " child branch(es)")))
      else
        let m := m.putMetadata name { metadata with state := .dropped m.timestamp }
        let m := m.releaseChild metadata
        (m.unregister metadata.branchId |>.scheduleBranchGc metadata.branchId,.ok ())

end BranchManager
end HeliosNano.Storage.Branch
