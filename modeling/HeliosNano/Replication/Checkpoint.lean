import HeliosNano.Replication.Physical

namespace HeliosNano.Replication
open Foundation Storage

def maxManifestBytes : Nat := 1024*1024

def maxChunkBytes : Nat := 1024*1024

def maxFiles : Nat := 2048

def maxTotalBytes : Nat := 1024*1024*1024*1024

structure TransferLimits where
  maxFiles : Nat
  maxTotalBytes : Nat
  maxFileBytes : Nat
  maxChunkBytes : Nat
deriving DecidableEq, Repr

/-- What `TransferError::Invalid` shows. -/
def refused (message : String) : String := "physical checkpoint refused: " ++ message

def TransferLimits.validate (limits : TransferLimits) : Except String Unit :=
  if limits.maxFiles = 0 ∨ Replication.maxFiles < limits.maxFiles ∨ limits.maxTotalBytes = 0 ∨
      Replication.maxTotalBytes < limits.maxTotalBytes ∨ limits.maxFileBytes = 0 ∨
      limits.maxTotalBytes < limits.maxFileBytes ∨ limits.maxChunkBytes = 0 ∨
      Replication.maxChunkBytes < limits.maxChunkBytes then
    .error (refused "invalid transfer resource limits")
  else .ok ()

structure CheckpointFile where
  name : Bytes
  size : Nat
  sha256 : Bytes
deriving DecidableEq, Repr

structure CheckpointManifest where
  format : Nat
  snapshotId : Uuid
  history : Uuid
  checkpointSequence : Nat
  storageIdentity : Bytes
  files : List CheckpointFile
  totalBytes : Nat
deriving DecidableEq, Repr

def digits (value : Bytes) : Bool := !value.isEmpty && value.all isDigit

def current : Bytes := ascii "CURRENT".toList
def identity : Bytes := ascii "IDENTITY".toList
def manifestName : Bytes := ascii "MANIFEST-".toList
def optionsName : Bytes := ascii "OPTIONS-".toList

/-- The parts before and after the last dot. -/
def rsplitDot (name : Bytes) : Option (Bytes × Bytes) :=
  match name.reverse.span fun b => b ≠ 46 with
  | (_,[]) => none
  | (extension,_::number) => some (number.reverse,extension.reverse)

def validFileName (name : Bytes) : Bool :=
  if 128 < name.length ∨ ¬ name.all (fun b => b < 128) then false
  else if name = current ∨ name = identity then true
  else if manifestName.isPrefixOf name then digits (name.drop manifestName.length)
  else if optionsName.isPrefixOf name then digits (name.drop optionsName.length)
  else
    match rsplitDot name with
    | none => false
    | some (number,extension) =>
      digits number && [ascii "sst".toList,ascii "ldb".toList,ascii "log".toList,ascii "blob".toList].contains extension

/-- ASCII without blanks and controls. -/
def validIdentity (value : Bytes) : Bool :=
  !value.isEmpty && value.length ≤ 128 && value.all fun b => 33 ≤ b.val && b.val ≤ 126

/-- The loop over the files: their names ascend, and the sum of the sizes. -/
def checkFiles (limits : TransferLimits) : Option Bytes → Nat → List CheckpointFile → Except String Nat
  | _, total, [] => .ok total
  | previous, total, file::files =>
    if ¬ validFileName file.name ∨ (previous.any fun name => decide (file.name ≤ name)) ∨
        limits.maxFileBytes < file.size then
      .error (refused "invalid, duplicate, unordered, or oversized checkpoint file")
    else if file.name = identity ∧ (file.size = 0 ∨ 128 < file.size) ∨
        file.name = current ∧ (file.size = 0 ∨ 256 < file.size) then
      .error (refused "invalid checkpoint control-file size")
    else if u64Max < total+file.size then .error (refused "manifest size overflow")
    else checkFiles limits (some file.name) (total+file.size) files

def CheckpointManifest.validate (m : CheckpointManifest) (limits : TransferLimits) : Except String Unit := do
  limits.validate
  if m.format ≠ 1 ∨ m.snapshotId = 0 ∨ m.history = 0 ∨ maxSequence < m.checkpointSequence ∨ m.files = [] ∨
      limits.maxFiles < m.files.length ∨ ¬ validIdentity m.storageIdentity then
    .error (refused "invalid checkpoint manifest identity or limits")
  else
    let total ← checkFiles limits none 0 m.files
    if total ≠ m.totalBytes ∨ limits.maxTotalBytes < total ∨ ¬ (m.files.any fun file => file.name = current) ∨
        ¬ (m.files.any fun file => file.name = identity) ∨
        ¬ (m.files.any fun file => manifestName.isPrefixOf file.name) then
      .error (refused "manifest total or required RocksDB files invalid")
    else .ok ()

structure ManifestJson where
  toVec : CheckpointManifest → Bytes
  fromSlice : Bytes → Except String CheckpointManifest

def CheckpointManifest.decode (json : ManifestJson) (bytes : Bytes) (limits : TransferLimits) :
    Except String CheckpointManifest := do
  if maxManifestBytes < bytes.length then .error (refused "manifest byte limit")
  else
    let manifest ← (json.fromSlice bytes).mapError fun error => refused ("manifest JSON: " ++ error)
    manifest.validate limits
    .ok manifest

variable {limits : TransferLimits}

theorem checkFiles_size_le {previous : Option Bytes} {total result : Nat}
    {files : List CheckpointFile} (h : checkFiles limits previous total files = .ok result) :
    ∀ file ∈ files, file.size ≤ limits.maxFileBytes := by
  induction files generalizing previous total with
  | nil => simp
  | cons file files ih =>
    simp only [checkFiles] at h
    split at h
    · cases h
    next hf =>
      split at h
      · cases h
      split at h
      · cases h
      intro other hother
      obtain rfl | hother := List.mem_cons.mp hother
      · push Not at hf
        exact hf.2.2
      · exact ih h other hother

theorem TransferLimits.validate_eq_ok (h : limits.validate = .ok ()) :
    limits.maxFiles ≤ Replication.maxFiles ∧ limits.maxFileBytes ≤ Replication.maxTotalBytes ∧
      limits.maxChunkBytes ≤ Replication.maxChunkBytes := by
  unfold TransferLimits.validate at h
  split at h
  · cases h
  next hn =>
    push Not at hn
    exact ⟨hn.2.1,by omega,hn.2.2.2.2.2.2.2⟩

theorem CheckpointManifest.validate_eq_ok {m : CheckpointManifest} (h : m.validate limits = .ok ()) :
    m.checkpointSequence ≤ maxSequence ∧ m.history ≠ 0 ∧ m.files.length ≤ Replication.maxFiles ∧
      ∀ file ∈ m.files, file.size ≤ Replication.maxTotalBytes := by
  unfold CheckpointManifest.validate at h
  obtain ⟨⟨⟩,hl,h⟩ := bind_eq_ok.mp h
  obtain ⟨hf,hb,-⟩ := TransferLimits.validate_eq_ok hl
  split at h
  · cases h
  next hn =>
    push Not at hn
    obtain ⟨total,htt,-⟩ := bind_eq_ok.mp h
    refine ⟨hn.2.2.2.1,hn.2.2.1,hn.2.2.2.2.2.1.trans hf,?_⟩
    intro file hfl
    exact (checkFiles_size_le htt file hfl).trans hb

end HeliosNano.Replication
