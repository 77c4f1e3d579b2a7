import HeliosNano.Foundation.Interleaving
import HeliosNano.Replication.Physical

/-! The binding of a receiver directory to the history of its upstream. Every call on the file system is one turn, and
it can fail; the JSON text of a record and the structure of paths come from outside. -/
namespace HeliosNano.Replication.History
open Foundation Storage

def formatVersion : Nat := 1
def maxMetadataBytes : Nat := 4096
def maxStorageIdentityBytes : Nat := 128

inductive IoError
  | notFound
  | other
deriving DecidableEq, Repr

inductive HistoryError (Path : Type)
  | mismatch (expected actual : Uuid)
  | invalidMetadata (message : String)
  | unboundReceiver (path : Path)
  | bindingFailed
  | io (error : IoError)
deriving DecidableEq, Repr

structure BindingRecord where
  format : Nat
  upstreamHistoryId : Uuid
  storageIdentity : Bytes
deriving DecidableEq, Repr

inductive BindingState
  | fresh
  | bound (id : Uuid)
  | failed
deriving DecidableEq, Repr

structure BindingJson where
  toVec : BindingRecord → Bytes
  fromSlice : Bytes → Except String BindingRecord

def BindingJson.bytes (json : BindingJson) (record : BindingRecord) : Bytes := json.toVec record ++ [10]

/-- From the first bytes of a record no other record is read: the text ends where its braces close. -/
def BindingJson.Faithful (json : BindingJson) : Prop :=
  ∀ record start record', start <+: json.bytes record → json.fromSlice start = .ok record' → record' = record

structure PathOps (Path : Type) where
  /-- Empty, or with a `..` in it. -/
  malformed : Path → Bool
  isAbsolute : Path → Bool
  inCurrentDir : Path → Path
  /-- The directories above a path, from the root. -/
  ancestors : Path → List Path

/-- A file is on disk for good once its directory is synced. -/
structure File where
  inode : Nat
  links : Nat
  bytes : Bytes
  synced : Bool
deriving DecidableEq, Repr

inductive Entry
  | file (file : File)
  | symlink
  | other
deriving DecidableEq, Repr

/-- `NANO-STANDBY-BINDING.json`, `NANO-PRIMARY-HISTORY.json` and `IDENTITY`. -/
structure Directory where
  binding : Option Entry
  primary : Option Entry
  identity : Option Entry
deriving DecidableEq, Repr

def Directory.empty : Directory := ⟨none,none,none⟩

inductive Node
  | directory (inode : Nat)
  | other
deriving DecidableEq, Repr

/-- Directories are kept by their inodes; an inode that is not given out yet is empty. -/
structure FileSystem (Path : Type) where
  symlinked : Path → Bool
  nodes : Path → Option Node
  directories : Nat → Directory
  nextInode : Nat
  allocated : ∀ path inode, nodes path = some (.directory inode) → inode < nextInode
  blank : ∀ inode, nextInode ≤ inode → directories inode = Directory.empty

namespace FileSystem
variable {Path : Type}

def binding (fs : FileSystem Path) (inode : Nat) : Option Entry := (fs.directories inode).binding

variable (fs : FileSystem Path)

def update (inode : Nat) (change : Directory → Directory) : FileSystem Path where
  symlinked := fs.symlinked
  nodes := fs.nodes
  directories := fun other =>
    if other = inode ∧ inode < fs.nextInode then change (fs.directories other) else fs.directories other
  nextInode := fs.nextInode
  allocated := fs.allocated
  blank := by
    intro other hother
    rw [if_neg (by omega)]
    exact fs.blank other hother

def allocate : FileSystem Path where
  symlinked := fs.symlinked
  nodes := fs.nodes
  directories := fs.directories
  nextInode := fs.nextInode+1
  allocated := fun path inode h => Nat.lt_succ_of_lt (fs.allocated path inode h)
  blank := fun inode h => fs.blank inode (by omega)

def mkdir [DecidableEq Path] (path : Path) : FileSystem Path where
  symlinked := fs.symlinked
  nodes := fun other => if other = path then some (.directory fs.nextInode) else fs.nodes other
  directories := fs.directories
  nextInode := fs.nextInode+1
  allocated := by
    intro other inode h
    split at h
    · obtain ⟨⟩ := Option.some.inj h
      exact Nat.lt_succ_self _
    · exact Nat.lt_succ_of_lt (fs.allocated other inode h)
  blank := fun inode h => fs.blank inode (by omega)

def lookup (path : Path) (name : Directory → Option Entry) : Except IoError Entry :=
  match fs.nodes path with
  | none => .error .notFound
  | some .other => .error .other
  | some (.directory inode) =>
    match name (fs.directories inode) with
    | none => .error .notFound
    | some entry => .ok entry

end FileSystem

/-- A call on the file system fails if there is a fault; a write that fails leaves that many bytes. -/
abbrev Fault := Option Nat

abbrev Disk (Path : Type) := ExceptT (HistoryError Path) (Program (FileSystem Path) Fault)

structure OwnedDirectory (Path : Type) where
  path : Path
  identity : Nat
deriving DecidableEq, Repr

structure ReceiverHistory (Path : Type) where
  directory : Option (OwnedDirectory Path)
  state : BindingState
deriving DecidableEq, Repr

section
variable {Path α : Type} [DecidableEq Path] (paths : PathOps Path) (json : BindingJson)

/-- A call that only reads. -/
def reading (read : FileSystem Path → Except (HistoryError Path) α) : Disk Path α :=
  ExceptT.mk (.perform fun fault fs => (if fault.isSome then .error (.io .other) else read fs,fs))

/-- A call that changes something, unless it fails. -/
def changing (change : FileSystem Path → Except (HistoryError Path) (α × FileSystem Path)) : Disk Path α :=
  ExceptT.mk (.perform fun fault fs =>
    if fault.isSome then (.error (.io .other),fs)
    else
      match change fs with
      | .ok (a,fs') => (.ok a,fs')
      | .error error => (.error error,fs))

def validateFormat (format : Nat) : Disk Path Unit :=
  if format ≠ formatVersion then throw (.invalidMetadata ("unsupported history metadata format " ++ toString format))
  else return ()

def validateId (id : Uuid) : Disk Path Unit :=
  if id = 0 then throw (.invalidMetadata "nil history identity is not valid") else return ()

variable (path : Path) (owned : OwnedDirectory Path) (root : Path) (name : Directory → Option Entry) (bytes : Bytes)
  (directory : Option (OwnedDirectory Path))

def rejectSymlinkComponents : Disk Path Unit :=
  reading fun fs => if fs.symlinked path then .error (.invalidMetadata "symlink data paths are refused") else .ok ()

def absolutePath : Disk Path Path :=
  if paths.isAbsolute path then return path else reading fun _ => .ok (paths.inCurrentDir path)

def checkedAbsolutePath : Disk Path Path := do
  if paths.malformed path then throw (.invalidMetadata "empty data paths and '..' components are refused")
  else
    let absolute ← absolutePath paths path
    rejectSymlinkComponents absolute
    return absolute

/-- `symlink_metadata` of a path. -/
def metadata : Disk Path Node :=
  reading fun fs =>
    match fs.nodes path with
    | none => .error (.io .notFound)
    | some node => .ok node

def OwnedDirectory.capture : Disk Path (OwnedDirectory Path) := do
  rejectSymlinkComponents path
  match ← metadata path with
  | .other => throw (.invalidMetadata "data path is not a regular directory")
  | .directory inode => return ⟨path,inode⟩

def OwnedDirectory.verify : Disk Path Unit := do
  rejectSymlinkComponents owned.path
  match ← metadata owned.path with
  | .other => throw (.invalidMetadata "data-directory identity changed during history initialization")
  | .directory inode =>
    if owned.identity ≠ inode then
      throw (.invalidMetadata "data-directory identity changed during history initialization")
    else return ()

/-- `symlink_metadata` of a name in a directory. -/
def entryMetadata : Disk Path Entry :=
  reading fun fs => (fs.lookup root name).mapError .io

/-- `refuse_marker` for the mark of a primary; what is not there is no mark. -/
def refuseMarker (reason : String) : Disk Path Unit :=
  reading fun fs =>
    match fs.lookup root Directory.primary with
    | .ok _ => .error (.invalidMetadata reason)
    | .error .notFound => .ok ()
    | .error error => .error (.io error)

def openFile : Disk Path Entry :=
  reading fun fs =>
    match fs.lookup root name with
    | .ok .symlink => .error (.io .other)
    | .ok entry => .ok entry
    | .error error => .error (.io error)

/-- The bytes of an open file: those it has now, if the name is still its name. -/
def readToEnd (opened : File) : Disk Path Bytes :=
  reading fun fs =>
    match fs.lookup root name with
    | .ok (.file file) => .ok (if file.inode = opened.inode then file.bytes else opened.bytes)
    | _ => .ok opened.bytes

def readMetadataBytes : Disk Path Bytes := do
  match ← entryMetadata root name with
  | .symlink => throw (.invalidMetadata "history record is symlink, nonregular, or oversized")
  | .other => throw (.invalidMetadata "history record is symlink, nonregular, or oversized")
  | .file before =>
    if maxMetadataBytes < before.bytes.length then
      throw (.invalidMetadata "history record is symlink, nonregular, or oversized")
    else if before.links ≠ 1 then throw (.invalidMetadata "hard-linked history record is refused")
    else
      match ← openFile root name with
      | .symlink => throw (.invalidMetadata "opened history record is nonregular or oversized")
      | .other => throw (.invalidMetadata "opened history record is nonregular or oversized")
      | .file opened =>
        if maxMetadataBytes < opened.bytes.length then
          throw (.invalidMetadata "opened history record is nonregular or oversized")
        else if opened.links ≠ 1 then throw (.invalidMetadata "opened history record is hard-linked")
        else
          match ← entryMetadata root name with
          | .symlink => throw (.invalidMetadata "history record changed while opening")
          | .other => throw (.invalidMetadata "history record changed while opening")
          | .file after =>
            if before.inode ≠ opened.inode ∨ opened.inode ≠ after.inode then
              throw (.invalidMetadata "history record changed while opening")
            else
              let bytes ← readToEnd root name opened
              if maxMetadataBytes < bytes.length then throw (.invalidMetadata "history record exceeds size limit")
              else return bytes

def parseRecord : Disk Path BindingRecord :=
  match json.fromSlice bytes with
  | .ok record => return record
  | .error error => throw (.invalidMetadata ("invalid history record: " ++ error))

def readRecord : Disk Path BindingRecord := do
  parseRecord json (← readMetadataBytes root Directory.binding)

/-- Without the carriage returns and newlines at its end. -/
def trimEnd : Bytes := (bytes.reverse.dropWhile fun b => b = 13 ∨ b = 10).reverse

def readStorageIdentity : Disk Path Bytes := do
  let bytes ← readMetadataBytes root Directory.identity
  if maxStorageIdentityBytes < bytes.length then throw (.invalidMetadata "RocksDB IDENTITY exceeds size limit")
  else if (fromUtf8 bytes).isNone then throw (.invalidMetadata "RocksDB IDENTITY is not UTF-8")
  else
    let identity := trimEnd bytes
    if identity.isEmpty ∨ ¬ identity.all (fun b => 33 ≤ b.val && b.val ≤ 126) then
      throw (.invalidMetadata "RocksDB IDENTITY is empty or contains invalid characters")
    else return identity

def validateStorageIdentity (expected : Bytes) : Disk Path Unit := do
  let identity ← readStorageIdentity root
  if identity ≠ expected then
    throw (.invalidMetadata
      "RocksDB IDENTITY differs from the durable history record; database replacement or role fork is refused")
  else return ()

def OwnedDirectory.verifyBinding (expected : Uuid) : Disk Path Unit := do
  owned.verify
  refuseMarker owned.path "receiver also carries primary identity"
  let record ← readRecord json owned.path
  validateFormat record.format
  validateId record.upstreamHistoryId
  validateStorageIdentity owned.path record.storageIdentity
  if record.upstreamHistoryId ≠ expected then
    throw (.invalidMetadata "persisted receiver binding differs from its startup identity")
  else owned.verify

def createNew : Disk Path Unit :=
  changing fun fs =>
    match fs.nodes path with
    | none => .error (.io .notFound)
    | some .other => .error (.io .other)
    | some (.directory inode) =>
      match fs.binding inode with
      | some _ => .error (.io .other)
      | none =>
        .ok ((),fs.allocate.update inode fun directory =>
          { directory with binding := some (.file ⟨fs.nextInode,1,[],false⟩) })

def FileSystem.editBinding (fs : FileSystem Path) (path : Path) (edit : File → File) : FileSystem Path :=
  match fs.nodes path with
  | some (.directory inode) =>
    fs.update inode fun directory =>
      match directory.binding with
      | some (.file file) => { directory with binding := some (.file (edit file)) }
      | _ => directory
  | _ => fs

/-- All of the bytes are written, or the write fails and leaves some of them. -/
def writeAll : Disk Path Unit :=
  ExceptT.mk (.perform fun fault fs =>
    match fault with
    | some left => (.error (.io .other),fs.editBinding path fun file => { file with bytes := bytes.take left })
    | none => (.ok (),fs.editBinding path fun file => { file with bytes := bytes }))

/-- The contents are on disk; the name is not, yet. -/
def syncAll : Disk Path Unit := reading fun _ => .ok ()

/-- `sync_directory` of the directory at a path, with its names. -/
def syncDirectory : Disk Path Unit :=
  changing fun fs => .ok ((),fs.editBinding path fun file => { file with synced := true })

def writeNewRecord (record : BindingRecord) : Disk Path Unit := do
  owned.verify
  let bytes := json.bytes record
  if maxMetadataBytes < bytes.length then throw (.invalidMetadata "history record exceeds size limit")
  else
    createNew owned.path
    writeAll owned.path bytes
    syncAll
    owned.verify
    syncDirectory owned.path

abbrev Locked (Path : Type) := ExceptT (HistoryError Path) (StateT BindingState (Program (FileSystem Path) Fault))

def onDisk (x : Disk Path α) : Locked Path α :=
  ExceptT.mk fun state => do
    let result ← x.run
    return (result,state)

def inMemory : ReceiverHistory Path := ⟨none,.fresh⟩

/-- `verify_binding` for a receiver that has a directory. -/
def verifyBound (id : Uuid) : Disk Path Unit :=
  match directory with
  | none => return ()
  | some owned => owned.verifyBinding json id

def expectedHistory : Locked Path (Option Uuid) := do
  match ← get with
  | .fresh => return none
  | .bound id =>
    onDisk (verifyBound json directory id)
    return some id
  | .failed => throw .bindingFailed

def bindFirst (peer : Uuid) : Disk Path Unit := do
  validateId peer
  match directory with
  | none => return ()
  | some owned =>
    owned.verify
    refuseMarker owned.path "receiver also carries primary identity"
    let identity ← readStorageIdentity owned.path
    writeNewRecord json owned ⟨formatVersion,peer,identity⟩

def verifyOrBind (peer : Uuid) : Locked Path Unit := do
  match ← get with
  | .bound expected =>
    if expected ≠ peer then throw (.mismatch expected peer) else onDisk (verifyBound json directory expected)
  | .failed => throw .bindingFailed
  | .fresh =>
    -- poisoned before anything can fail
    set BindingState.failed
    onDisk (bindFirst json directory peer)
    set (BindingState.bound peer)

/-- Whether the directory was made; it is not where there is something already. -/
def createDir : Disk Path Bool :=
  changing fun fs =>
    match fs.nodes path with
    | some _ => .ok (false,fs)
    | none => .ok (true,fs.mkdir path)

/-- `create_dir_all`, along the directories of a path from the root. -/
def createDirAll : List Path → Disk Path Unit
  | [] => return ()
  | path::rest => do
    let made ← createDir path
    if made then createDirAll rest
    else
      match ← metadata path with
      | .other => throw (.io .other)
      | .directory _ => createDirAll rest

def syncParent : Disk Path Unit := reading fun _ => .ok ()

def existingBinding : Disk Path BindingState := do
  let record ← tryCatch (readRecord json path) fun error =>
    match error with
    | .io .notFound => throw (.unboundReceiver path)
    | error => throw error
  validateFormat record.format
  validateId record.upstreamHistoryId
  validateStorageIdentity path record.storageIdentity
  return .bound record.upstreamHistoryId

def startState (fresh : Bool) (path : Path) : Disk Path BindingState :=
  if fresh then do
    syncParent
    return .fresh
  else existingBinding json path

def prepareReceiverHistory : Disk Path (ReceiverHistory Path) := do
  let path ← checkedAbsolutePath paths path
  match (paths.ancestors path).getLast? with
  | none => throw (.invalidMetadata "receiver path has no parent")
  | some parent =>
    createDirAll (paths.ancestors path)
    rejectSymlinkComponents parent
    let fresh ← createDir path
    let directory ← OwnedDirectory.capture path
    refuseMarker directory.path "receiver directory carries primary identity"
    let state ← startState json fresh path
    directory.verify
    return ⟨some directory,state⟩

end
end HeliosNano.Replication.History
