import HeliosNano.Storage.VersionKeys

/-! The key-value database under the engine and the encryption of stored values. What
the database and the cipher answer to a call is part of the state a call starts from:
any call may report an error. -/
namespace HeliosNano.Storage
open Foundation

abbrev Store := Map Key Bytes
abbrev WriteBatch := List (BatchOp Key Bytes)

/-- The stored entries, the errors that point reads and iterators report at a key, and
the error of a write. -/
structure Db where
  store : Store
  getError : Key → Option String
  nextError : Key → Option String
  writeError : Option String

namespace Db

variable (store : Store)

/-- A database in which no call fails. -/
def healthy : Db := ⟨store,fun _ => none,fun _ => none,none⟩

def get (db : Db) (key : Key) : Except String (Option Bytes) :=
  match db.getError key with
  | some message => .error message
  | none => .ok (db.store.lookup key)

def next (db : Db) (start : Key) : Option (Except String (Key × Bytes)) :=
  match db.nextError start with
  | some message => some (.error message)
  | none => (db.store.iterFrom start).head?.map .ok

def iter (db : Db) (start : Key) : List (Except String (Key × Bytes)) :=
  (db.store.iterFrom start).map fun entry =>
    match db.nextError entry.1 with
    | some message => .error message
    | none => .ok entry

/-- A batch is applied as a whole or not at all. -/
def write (db : Db) (batch : WriteBatch) : Except String Db :=
  match db.writeError with
  | some message => .error message
  | none => .ok { db with store := db.store.write batch }

@[simp] theorem healthy_store : (healthy store).store = store := rfl

@[simp] theorem healthy_get (key : Key) : (healthy store).get key = .ok (store.lookup key) := rfl

@[simp] theorem healthy_next (start : Key) : (healthy store).next start = (store.iterFrom start).head?.map .ok := rfl

@[simp] theorem healthy_write (batch : WriteBatch) : (healthy store).write batch = .ok (healthy (store.write batch)) := rfl

theorem store_of_write {db db' : Db} {batch : WriteBatch} (h : db.write batch = .ok db') : db'.store = db.store.write batch := by
  rw [write.eq_def] at h
  split at h
  · cases h
  · cases h
    rfl

end Db

/-- The cipher under the configured key. A value is sealed for a storage key; that key
stands for the nonce of the call, so two calls may differ in their outcome. -/
structure KeyManager where
  encrypt : Key → Bytes → Except Error Bytes
  tryDecrypt : Bytes → Option Bytes

/-- Encryption does not fail, and what it gives decrypts to what it was given. -/
structure KeyManager.Sound (km : KeyManager) : Prop where
  sealed : ∀ slot value, ∃ stored, km.encrypt slot value = .ok stored ∧ km.tryDecrypt stored = some value

/-- The key spaces whose values are sealed. -/
def isRowValueKey (key : Key) : Bool :=
  [dataPrefix,versionLead,counterPrefix,walEntriesPrefix,ascii ['b','d','a','t','a',':'],
    ascii ['d','e','l','t','a',':']].any fun lead => decide (lead <+: key)

variable (keyManager : Option KeyManager)

def sealStored (slot : Key) (value : Bytes) : Except Error Bytes :=
  match keyManager with
  | none => .ok value
  | some km => km.encrypt slot value

def sealRowValue (storageKey : Key) (value : Bytes) : Except Error Bytes :=
  if isRowValueKey storageKey then sealStored keyManager storageKey value else .ok value

/-- Bytes that do not authenticate are plaintext from before encryption. -/
def openOwned (raw : Bytes) : Bytes :=
  match keyManager with
  | none => raw
  | some km => (km.tryDecrypt raw).getD raw

def SoundSeal : Prop := ∀ km, keyManager = some km → km.Sound

theorem SoundSeal.seal_open {keyManager : Option KeyManager} (h : SoundSeal keyManager) (slot : Key)
    (value : Bytes) : ∃ stored, sealStored keyManager slot value = .ok stored ∧ openOwned keyManager stored = value := by
  cases keyManager with
  | none => exact ⟨value,rfl,rfl⟩
  | some km =>
    obtain ⟨stored, hs, hopen⟩ := (h km rfl).sealed slot value
    exact ⟨stored, hs,by simp [openOwned, hopen]⟩

theorem isRowValueKey_dataKey (table : Bytes) (row : RowId) : isRowValueKey (dataKey table row) = true := by
  simp [isRowValueKey,dataKey]

end HeliosNano.Storage
