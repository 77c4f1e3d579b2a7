import HeliosNano.Storage.Db

/-! Encryption at rest: how values are sealed and opened, the key check that a database keeps, and the probe of the
stored values that stands in for it until one is installed. -/
namespace HeliosNano.Storage.Tde
open Foundation List

/-- The random 96-bit nonce of one sealing. -/
abbrev Nonce := { bytes : Bytes // bytes.length = 12 }

def minCiphertextLen : Nat := 12+16

inductive TdeError
  | storage (message : String)
  | encryption (message : String)
deriving DecidableEq, Repr

/-- AES-256-GCM under keys of a type, with the text of its error, and the strict decoders of the two plaintext forms
that the probe can recognise. -/
structure Cipher (κ : Type) where
  aeadEncrypt : κ → Nonce → Bytes → Except String Bytes
  aeadDecrypt : κ → Nonce → Bytes → Option Bytes
  decodesSchema : Bytes → Bool
  decodesTuple : Bytes → Bool

structure KeyManager (κ : Type) where
  key : κ
  source : String

/-- `meta:tde:keycheck` -/
def keyCheckKey : Key :=
  ascii ['m','e','t','a',':','t','d','e',':','k','e','y','c','h','e','c','k']

/-- `heliosdb-nano tde key check v1` -/
def keyCheckPlaintext : Bytes :=
  ascii ['h','e','l','i','o','s','d','b','-','n','a','n','o',' ','t','d','e',' ','k','e','y',' ',
    'c','h','e','c','k',' ','v','1']

def keyProbeBudget : Nat := 128

def metaTablePrefix : Bytes := ascii ['m','e','t','a',':','t','a','b','l','e',':']

def keyProbePrefixes : List Bytes := [counterPrefix,metaTablePrefix,dataPrefix]

/-- `__nano_physical_replica_cursor_v1` -/
def physicalCursorKey : Key :=
  ascii ['_','_','n','a','n','o','_','p','h','y','s','i','c','a','l','_','r','e','p','l','i','c','a',
    '_','c','u','r','s','o','r','_','v','1']

section
variable {κ : Type} (c : Cipher κ)

/-- `nonce(12) ‖ ciphertext ‖ tag(16)` -/
def encrypt (key : κ) (nonce : Nonce) (plaintext : Bytes) : Except TdeError Bytes :=
  match c.aeadEncrypt key nonce plaintext with
  | .error e => .error (.encryption ("Encryption failed: " ++ e))
  | .ok ciphertext => .ok (nonce.1 ++ ciphertext)

def tryDecrypt (key : κ) (raw : Bytes) : Option Bytes :=
  if h : raw.length < minCiphertextLen then none
  else
    have hnonce : (raw.take 12).length = 12 := by
      have : minCiphertextLen = 28 := rfl
      rw [length_take]
      omega
    c.aeadDecrypt key ⟨raw.take 12,hnonce⟩ (raw.drop 12)

def decrypt (key : κ) (raw : Bytes) : Except TdeError Bytes :=
  if raw.length < 12 then .error (.encryption "Ciphertext too short")
  else
    match tryDecrypt c key raw with
    | some plaintext => .ok plaintext
    | none => .error (.encryption "Decryption failed: aead::Error")

variable (keyManager : Option (KeyManager κ))

def sealStored (nonce : Nonce) (value : Bytes) : Except TdeError Bytes :=
  match keyManager with
  | none => .ok value
  | some km => encrypt c km.key nonce value

def sealRowValue (storageKey : Key) (nonce : Nonce) (value : Bytes) : Except TdeError Bytes :=
  match keyManager with
  | none => .ok value
  | some km => if isRowValueKey storageKey then encrypt c km.key nonce value else .ok value

/-- The tolerant read: bytes that do not authenticate are handed on as they are. -/
def openOwned (raw : Bytes) : Bytes :=
  match keyManager with
  | none => raw
  | some km => (tryDecrypt c km.key raw).getD raw

/-- A value that cannot be a sealed frame, for the key space it is in. -/
def valueIsRecognisablePlaintext (storageKey : Key) (value : Bytes) : Bool :=
  if value.length < minCiphertextLen then true
  else if counterPrefix <+: storageKey then false
  else if metaTablePrefix <+: storageKey then c.decodesSchema value
  else c.decodesTuple value

/-- What the probe has read so far without a proof of the key. -/
structure Tally where
  examined : Nat
  sawOpaqueValue : Bool

inductive KeyEvidence
  | noStoredValues
  | keyProven
  | predatesSealing
  | contradicted
deriving DecidableEq, Repr

/-- The loop over one key space. The answer is `none` when a value has authenticated. -/
def probeEntries (db : Db) (key : κ) (lead : Bytes) : List (Key × Bytes) → Tally → Except TdeError (Option Tally)
  | [], tally => .ok (some tally)
  | (slot,value)::rest, tally =>
    match db.nextError slot with
    | some e => .error (.storage ("Failed to scan the database to verify the encryption key: " ++ e))
    | none =>
      if ¬lead <+: slot then .ok (some tally)
      else if (tryDecrypt c key value).isSome then .ok none
      else
        let tally : Tally :=
          ⟨tally.examined+1,tally.sawOpaqueValue || !valueIsRecognisablePlaintext c slot value⟩
        if keyProbeBudget ≤ tally.examined then .ok (some tally) else probeEntries db key lead rest tally

def probePrefixes (db : Db) (key : κ) : List Bytes → Tally → Except TdeError (Option Tally)
  | [], tally => .ok (some tally)
  | lead::rest, tally =>
    if keyProbeBudget ≤ tally.examined then .ok (some tally)
    else
      match db.nextError lead with
      | some e => .error (.storage ("Failed to scan the database to verify the encryption key: " ++ e))
      | none =>
        match probeEntries c db key lead (db.store.iterFrom lead) tally with
        | .error e => .error e
        | .ok none => .ok none
        | .ok (some tally) => probePrefixes db key rest tally

def probeKeyAgainstExistingData (db : Db) (km : KeyManager κ) : Except TdeError KeyEvidence :=
  match probePrefixes c db km.key keyProbePrefixes ⟨0,false⟩ with
  | .error e => .error e
  | .ok none => .ok .keyProven
  | .ok (some tally) =>
    .ok (if tally.examined = 0 then .noStoredValues
      else if tally.sawOpaqueValue then .contradicted
      else .predatesSealing)

def verifySentinel (km : KeyManager κ) (stored : Bytes) : Except TdeError Unit :=
  match decrypt c km.key stored with
  | .error _ =>
    .error (.encryption ("the configured encryption key does not match this database (key source: " ++ km.source ++
      "). Refusing to open: continuing would read every stored value as if it were unencrypted and write new values " ++
      "under a key the existing ones were not sealed with."))
  | .ok plaintext =>
    if plaintext = keyCheckPlaintext then .ok ()
    else
      .error (.encryption ("the encryption key-check sentinel at 'meta:tde:keycheck' decrypted to unexpected contents; " ++
        "this data directory is not in a state this build can safely open (key source: " ++ km.source ++ ")."))

def requireProbeEvidence (db : Db) (km : KeyManager κ) : Except TdeError Unit :=
  match probeKeyAgainstExistingData c db km with
  | .error e => .error e
  | .ok .contradicted =>
    .error (.encryption ("this database holds stored values that the configured encryption key does not open and that " ++
      "are not in this build's unencrypted form either (key source: " ++ km.source ++ "). Refusing to open: " ++
      "recording this key as the database's key is permanent, and doing it on a database sealed with a different key " ++
      "would lock that key out for good. Point [encryption] key_source at the key this database was created with."))
  | .ok _ => .ok ()

/-- A database with a sentinel, opened with no key. -/
def encryptionOffError : TdeError :=
  .encryption ("this data directory was written with encryption enabled, but [encryption] enabled is false in this " ++
    "configuration; its stored values cannot be read without the key. Set [encryption] enabled = true and point " ++
    "key_source at the key this database was created with.")

def verifyKeyCheckWithoutInstall (db : Db) (keyManager : Option (KeyManager κ)) : Except TdeError Unit :=
  match db.get keyCheckKey with
  | .error e => .error (.storage ("Failed to read the encryption key-check sentinel: " ++ e))
  | .ok stored =>
    match keyManager, stored with
    | none, none => .ok ()
    | none, some _ => .error encryptionOffError
    | some km, some stored => verifySentinel c km stored
    | some km, none => requireProbeEvidence c db km

def verifyOrInstallKeyCheck (db : Db) (keyManager : Option (KeyManager κ)) (readOnly : Bool) (nonce : Nonce) :
    Except TdeError Unit × Store :=
  match db.get keyCheckKey with
  | .error e => (.error (.storage ("Failed to read the encryption key-check sentinel: " ++ e)),db.store)
  | .ok stored =>
    match keyManager, stored with
    | none, none => (.ok (),db.store)
    | none, some _ => (.error encryptionOffError,db.store)
    | some km, some stored => (verifySentinel c km stored,db.store)
    | some km, none =>
      -- A read-only handle must not write: the key stays unverified.
      if readOnly then (.ok (),db.store)
      else
        match requireProbeEvidence c db km with
        | .error e => (.error e,db.store)
        | .ok () =>
          match encrypt c km.key nonce keyCheckPlaintext with
          | .error e => (.error e,db.store)
          | .ok frame =>
            match db.write [.put keyCheckKey frame] with
            | .error e => (.error (.storage ("Failed to install the encryption key-check sentinel: " ++ e)),db.store)
            | .ok db' => (.ok (),db'.store)

def verifyPhysicalSnapshotKey (db : Db) (keyManager : Option (KeyManager κ)) (nonce : Nonce) :
    Except TdeError Unit × Store :=
  match keyManager with
  | none => verifyOrInstallKeyCheck c db keyManager true nonce
  | some _ =>
    match db.get keyCheckKey with
    | .error e => (.error (.storage ("encryption sentinel read failed: " ++ e)),db.store)
    | .ok none => (.error (.encryption "physical snapshot has no encryption key-check sentinel"),db.store)
    | .ok (some _) => verifyOrInstallKeyCheck c db keyManager true nonce

/-- How a database is opened. A writable open of an existing store is checked through a read-only handle first. -/
inductive OpenMode
  | readOnly
  | physicalSnapshot
  | writable (existingStore : Bool)
deriving DecidableEq, Repr

def OpenMode.isReadOnly : OpenMode → Bool
  | writable _ => false
  | _ => true

structure Faults where
  getError : Key → Option String
  nextError : Key → Option String
  writeError : Option String

def Faults.db (faults : Faults) (store : Store) : Db := ⟨store,faults.getError,faults.nextError,faults.writeError⟩

/-- One open: the configured key, the mode, what the handle of the preflight and the one of the open answer, and the
nonce that the call draws. -/
structure Opening (κ : Type) where
  keyManager : Option (KeyManager κ)
  mode : OpenMode
  preflight : Faults
  handle : Faults
  nonce : Nonce

/-- The read-only handle that goes before a writable one. -/
def preflightCheck (store : Store) (o : Opening κ) : Except TdeError Unit :=
  match o.mode with
  | .writable true => verifyKeyCheckWithoutInstall c (o.preflight.db store) o.keyManager
  | _ => .ok ()

def cursorCheck (store : Store) (o : Opening κ) : Except TdeError Unit :=
  match o.mode with
  | .physicalSnapshot => .ok ()
  | _ =>
    match (o.handle.db store).get physicalCursorKey with
    | .error e => .error (.storage ("physical cursor lookup failed: " ++ e))
    | .ok (some _) => .error (.storage "physical receiver cannot use logical recovery startup")
    | .ok none => .ok ()

def keyCheck (store : Store) (o : Opening κ) : Except TdeError Unit × Store :=
  match o.mode with
  | .physicalSnapshot => verifyPhysicalSnapshotKey c (o.handle.db store) o.keyManager o.nonce
  | mode => verifyOrInstallKeyCheck c (o.handle.db store) o.keyManager mode.isReadOnly o.nonce

def openWithMode (store : Store) (o : Opening κ) : Except TdeError Unit × Store :=
  match preflightCheck c store o with
  | .error e => (.error e,store)
  | .ok () =>
    match cursorCheck store o with
    | .error e => (.error e,store)
    | .ok () => keyCheck c store o

end

/-- An ideal cipher: what it seals opens, what authenticates was sealed, under one key only, and is no encoding of a
schema or of a row. -/
structure Cipher.Ideal {κ : Type} (c : Cipher κ) : Prop where
  tagged : ∀ {key nonce plaintext ciphertext}, c.aeadEncrypt key nonce plaintext = .ok ciphertext →
    ciphertext.length = plaintext.length+16
  opens : ∀ {key nonce plaintext ciphertext}, c.aeadEncrypt key nonce plaintext = .ok ciphertext →
    c.aeadDecrypt key nonce ciphertext = some plaintext
  authentic : ∀ {key nonce plaintext ciphertext}, c.aeadDecrypt key nonce ciphertext = some plaintext →
    c.aeadEncrypt key nonce plaintext = .ok ciphertext
  oneKey : ∀ {key key' nonce plaintext plaintext' ciphertext}, c.aeadEncrypt key nonce plaintext = .ok ciphertext →
    c.aeadDecrypt key' nonce ciphertext = some plaintext' → key' = key
  noEncoding : ∀ {key nonce plaintext ciphertext}, c.aeadEncrypt key nonce plaintext = .ok ciphertext →
    c.decodesSchema (nonce.1 ++ ciphertext) = false ∧ c.decodesTuple (nonce.1 ++ ciphertext) = false

section
variable {κ : Type} {c : Cipher κ} {key key' : κ} {nonce : Nonce} {plaintext plaintext' raw : Bytes}

/-- Bytes that no key opens. -/
def Plain (c : Cipher κ) (raw : Bytes) : Prop := ∀ key, tryDecrypt c key raw = none

theorem encrypt_eq_ok : encrypt c key nonce plaintext = .ok raw ↔
    ∃ ciphertext, c.aeadEncrypt key nonce plaintext = .ok ciphertext ∧ raw = nonce.1 ++ ciphertext := by
  unfold encrypt
  cases c.aeadEncrypt key nonce plaintext with
  | error e => simp
  | ok ciphertext => simp [eq_comm]

theorem tryDecrypt_frame {ciphertext : Bytes} (h : 16 ≤ ciphertext.length) :
    tryDecrypt c key (nonce.1 ++ ciphertext) = c.aeadDecrypt key nonce ciphertext := by
  have hl : ¬(nonce.1 ++ ciphertext).length < minCiphertextLen := by
    have : minCiphertextLen = 28 := rfl
    rw [length_append,nonce.2]
    omega
  have htk : (nonce.1 ++ ciphertext).take 12 = nonce.1 := take_left' nonce.2
  have hd : (nonce.1 ++ ciphertext).drop 12 = ciphertext := drop_left' nonce.2
  rw [tryDecrypt,dif_neg hl]
  simp only [htk,hd]

theorem length_of_tryDecrypt (h : tryDecrypt c key raw = some plaintext) : minCiphertextLen ≤ raw.length := by
  by_contra hsh
  rw [tryDecrypt,dif_pos (Nat.not_le.mp hsh)] at h
  cases h

theorem tryDecrypt_encrypt (hc : c.Ideal) (h : encrypt c key nonce plaintext = .ok raw) :
    tryDecrypt c key raw = some plaintext := by
  obtain ⟨ciphertext,hs,rfl⟩ := encrypt_eq_ok.mp h
  have hl := hc.tagged hs
  rw [tryDecrypt_frame (by omega)]
  exact hc.opens hs

theorem tryDecrypt_eq_some_iff (hc : c.Ideal) :
    tryDecrypt c key raw = some plaintext ↔ ∃ nonce, encrypt c key nonce plaintext = .ok raw := by
  constructor
  · intro h
    have hl : minCiphertextLen ≤ raw.length := length_of_tryDecrypt h
    rw [tryDecrypt,dif_neg (Nat.not_lt.mpr hl)] at h
    exact ⟨_,encrypt_eq_ok.mpr ⟨raw.drop 12,hc.authentic h,(take_append_drop 12 raw).symm⟩⟩
  · rintro ⟨nonce,h⟩
    exact tryDecrypt_encrypt hc h

theorem key_unique (hc : c.Ideal) (h : tryDecrypt c key raw = some plaintext)
    (h' : tryDecrypt c key' raw = some plaintext') : key' = key := by
  have hl : minCiphertextLen ≤ raw.length := length_of_tryDecrypt h
  rw [tryDecrypt,dif_neg (Nat.not_lt.mpr hl)] at h h'
  exact hc.oneKey (hc.authentic h) h'

theorem plain_of_recognisable (hc : c.Ideal) {slot : Key} (h : valueIsRecognisablePlaintext c slot raw = true) : Plain c raw := by
  intro key
  cases hopen : tryDecrypt c key raw with
  | none => rfl
  | some plaintext =>
    exfalso
    obtain ⟨nonce,hsl⟩ := (tryDecrypt_eq_some_iff hc).mp hopen
    obtain ⟨ciphertext,hcp,rfl⟩ := encrypt_eq_ok.mp hsl
    obtain ⟨hs,htp⟩ := hc.noEncoding hcp
    have hl := length_of_tryDecrypt hopen
    rw [valueIsRecognisablePlaintext,if_neg (Nat.not_lt.mpr hl),hs,htp] at h
    simp at h

theorem decrypt_eq_ok_iff : decrypt c key raw = .ok plaintext ↔ tryDecrypt c key raw = some plaintext := by
  constructor
  · intro h
    unfold decrypt at h
    split at h
    · cases h
    cases hopen : tryDecrypt c key raw with
    | none =>
      rw [hopen] at h
      cases h
    | some opened =>
      rw [hopen] at h
      cases h
      rfl
  · intro h
    have hl := length_of_tryDecrypt h
    have : minCiphertextLen = 28 := rfl
    rw [decrypt,if_neg (by omega),h]

theorem verifySentinel_eq_ok_iff {km : KeyManager κ} {stored : Bytes} :
    verifySentinel c km stored = .ok () ↔ tryDecrypt c km.key stored = some keyCheckPlaintext := by
  rw [← decrypt_eq_ok_iff]
  unfold verifySentinel
  cases decrypt c km.key stored with
  | error e => exact ⟨fun h => (nomatch h),nofun⟩
  | ok opened =>
    change (if opened = keyCheckPlaintext then _ else _) = _ ↔ _
    rw [Except.ok.injEq]
    split
    next heq =>
      exact ⟨fun _ => heq,fun _ => rfl⟩
    next hne =>
      exact ⟨fun h => (nomatch h),fun h => absurd h hne⟩

end

section
variable {κ : Type} {c : Cipher κ} {db : Db} {key : κ}

def keyspace (store : Store) (lead : Bytes) : List (Key × Bytes) :=
  (store.iterFrom lead).takeWhile fun entry => lead <+: entry.1

def sample (store : Store) : List (Key × Bytes) := (keyProbePrefixes.flatMap (keyspace store)).take keyProbeBudget

def Scanned (c : Cipher κ) (key : κ) (entries : List (Key × Bytes)) (before : Tally) : Option Tally → Prop
  | none => ∃ entry ∈ entries, (tryDecrypt c key entry.2).isSome
  | some tally => (∀ entry ∈ entries, tryDecrypt c key entry.2 = none) ∧
      tally.examined = before.examined+entries.length ∧
      (tally.sawOpaqueValue = true ↔ before.sawOpaqueValue = true ∨
        ∃ entry ∈ entries, valueIsRecognisablePlaintext c entry.1 entry.2 = false)

theorem Scanned.nil (before : Tally) : Scanned c key [] before (some before) := by
  simp [Scanned]

variable {before : Tally} {result : Option Tally}
variable {first second : List (Key × Bytes)} {km : KeyManager κ}

theorem Scanned.append {between : Tally}
    (h : Scanned c key first before (some between)) (h' : Scanned c key second between result) :
    Scanned c key (first ++ second) before result := by
  obtain ⟨hc,hcn,hu⟩ := h
  cases result with
  | none =>
    obtain ⟨entry,he, hopen⟩ := h'
    exact ⟨entry,mem_append_right _ he, hopen⟩
  | some after =>
    obtain ⟨hc',hcn',hu'⟩ := h'
    refine ⟨?_,?_,?_⟩
    · exact forall_mem_append.mpr ⟨hc,hc'⟩
    · rw [hcn',hcn,length_append,Nat.add_assoc]
    · rw [hu',hu,or_assoc]
      refine or_congr_right ?_
      simp only [mem_append,or_and_right,exists_or]

theorem Scanned.proven_append {before' : Tally}
    (h : Scanned c key first before none) : Scanned c key (first ++ second) before' none := by
  obtain ⟨entry,he, hopen⟩ := h
  exact ⟨entry,mem_append_left _ he, hopen⟩

theorem Scanned.single {slot : Key} {value : Bytes} (h : tryDecrypt c key value = none) (before : Tally) :
    Scanned c key [(slot,value)] before
      (some ⟨before.examined+1,before.sawOpaqueValue || !valueIsRecognisablePlaintext c slot value⟩) := by
  refine ⟨?_,rfl,?_⟩
  · simpa using h
  · simp

theorem probeEntries_scanned {lead : Bytes} {entries : List (Key × Bytes)}
    (hb : before.examined < keyProbeBudget) (h : probeEntries c db key lead entries before = .ok result) :
    Scanned c key ((entries.takeWhile fun entry => lead <+: entry.1).take (keyProbeBudget-before.examined)) before result := by
  induction entries generalizing before with
  | nil =>
    cases h
    rw [takeWhile_nil,take_nil]
    exact Scanned.nil before
  | cons entry rest ih =>
    obtain ⟨slot,value⟩ := entry
    obtain ⟨room,hr⟩ : ∃ room, keyProbeBudget-before.examined = room+1 :=
      ⟨keyProbeBudget-before.examined - 1,by omega⟩
    rw [hr]
    unfold probeEntries at h
    split at h
    · cases h
    by_cases hl : lead <+: slot
    · rw [if_neg (not_not.mpr hl)] at h
      rw [takeWhile_cons_of_pos (by simpa using hl),take_succ_cons]
      cases hopen : tryDecrypt c key value with
      | some plaintext =>
        rw [hopen] at h
        cases h
        exact ⟨(slot,value),mem_cons_self,by rw [hopen]; rfl⟩
      | none =>
        rw [hopen] at h
        refine Scanned.append (Scanned.single hopen before) ?_
        change (if keyProbeBudget ≤ before.examined+1 then _ else _) = _ at h
        split at h
        · -- The budget is spent.
          cases h
          obtain rfl : room = 0 := by omega
          exact Scanned.nil _
        · have hn : before.examined+1 < keyProbeBudget := by omega
          have hrest := @ih ⟨before.examined+1,_⟩ hn h
          change Scanned c key (List.take (keyProbeBudget-(before.examined+1)) _) _ _ at hrest
          rwa [show keyProbeBudget-(before.examined+1) = room by omega] at hrest
    · rw [if_pos hl] at h
      cases h
      rw [takeWhile_cons_of_neg (by simpa using hl),take_nil]
      exact Scanned.nil before

theorem probePrefixes_scanned {leads : List Bytes} (h : probePrefixes c db key leads before = .ok result) :
    Scanned c key ((leads.flatMap (keyspace db.store)).take (keyProbeBudget-before.examined)) before result := by
  induction leads generalizing before with
  | nil =>
    cases h
    rw [flatMap_nil,take_nil]
    exact Scanned.nil before
  | cons lead rest ih =>
    unfold probePrefixes at h
    split at h
    next hsp =>
      cases h
      rw [Nat.sub_eq_zero_of_le hsp,take_zero]
      exact Scanned.nil before
    next hr =>
      rw [flatMap_cons,take_append]
      split at h
      · cases h
      split at h
      · cases h
      next hs =>
        cases h
        exact (probeEntries_scanned (Nat.not_le.mp hr) hs).proven_append
      next between hs =>
        have hf : Scanned c key ((keyspace db.store lead).take (keyProbeBudget-before.examined)) before
            (some between) := probeEntries_scanned (Nat.not_le.mp hr) hs
        refine hf.append ?_
        have hsc := ih h
        rw [hf.2.1,length_take] at hsc
        rwa [show keyProbeBudget-(before.examined + min (keyProbeBudget-before.examined)
          (keyspace db.store lead).length) = keyProbeBudget-before.examined - (keyspace db.store lead).length by
            omega] at hsc

def KeyEvidence.Shown (c : Cipher κ) (store : Store) (key : κ) : KeyEvidence → Prop
  | noStoredValues => sample store = []
  | keyProven => ∃ entry ∈ sample store, (tryDecrypt c key entry.2).isSome
  | predatesSealing => ∀ entry ∈ sample store, valueIsRecognisablePlaintext c entry.1 entry.2 = true
  | contradicted => (∀ entry ∈ sample store, tryDecrypt c key entry.2 = none) ∧
      ∃ entry ∈ sample store, valueIsRecognisablePlaintext c entry.1 entry.2 = false

theorem probe_shown {evidence : KeyEvidence}
    (h : probeKeyAgainstExistingData c db km = .ok evidence) : evidence.Shown c db.store km.key := by
  unfold probeKeyAgainstExistingData at h
  split at h
  · cases h
  next hsc =>
    cases h
    exact probePrefixes_scanned hsc
  next tally hsc =>
    obtain ⟨hcl,hc,hu⟩ := probePrefixes_scanned hsc
    change ∀ entry ∈ sample db.store, _ at hcl
    change tally.examined = 0 + (sample db.store).length at hc
    change _ ↔ _ ∨ ∃ entry ∈ sample db.store, _ at hu
    cases h
    by_cases hz : tally.examined = 0
    · rw [if_pos hz]
      rw [hz,Nat.zero_add] at hc
      exact length_eq_zero_iff.mp hc.symm
    · rw [if_neg hz]
      by_cases hs : tally.sawOpaqueValue = true
      · rw [if_pos hs]
        refine ⟨hcl,?_⟩
        simpa using hu.mp hs
      · rw [if_neg hs]
        intro entry hen
        by_contra he
        exact hs (hu.mpr (.inr ⟨entry,hen,by simpa using he⟩))

theorem requireProbeEvidence_eq_ok (hc : c.Ideal) (h : requireProbeEvidence c db km = .ok ()) :
    (∃ entry ∈ sample db.store, (tryDecrypt c km.key entry.2).isSome) ∨ ∀ entry ∈ sample db.store, Plain c entry.2 := by
  unfold requireProbeEvidence at h
  split at h
  · cases h
  · cases h
  next evidence hne hp =>
    have hs := probe_shown hp
    cases evidence with
    | keyProven => exact .inl hs
    | noStoredValues =>
      refine .inr fun entry he => ?_
      rw [show sample db.store = [] from hs] at he
      cases he
    | predatesSealing => exact .inr fun entry he => plain_of_recognisable hc (hs entry he)
    | contradicted => exact absurd rfl hne

end

section
variable {κ : Type} {c : Cipher κ} {store store' : Store}

/-- The ways in which a key check accepts, and the entries that it leaves. -/
inductive Accepts (c : Cipher κ) (store : Store) (o : Opening κ) : Store → Prop
  | keyless (hkey : o.keyManager = none) (hsentinel : store.lookup keyCheckKey = none) : Accepts c store o store
  | verified (km : KeyManager κ) (stored : Bytes) (hkey : o.keyManager = some km)
      (hsentinel : store.lookup keyCheckKey = some stored)
      (hopen : tryDecrypt c km.key stored = some keyCheckPlaintext) : Accepts c store o store
  | unverified (km : KeyManager κ) (hkey : o.keyManager = some km) (hsentinel : store.lookup keyCheckKey = none)
      (hmode : o.mode.isReadOnly = true) : Accepts c store o store
  | installed (km : KeyManager κ) (frame : Bytes) (hkey : o.keyManager = some km)
      (hsentinel : store.lookup keyCheckKey = none) (hmode : o.mode.isReadOnly = false)
      (hevidence : requireProbeEvidence c (o.handle.db store) km = .ok ())
      (hframe : encrypt c km.key o.nonce keyCheckPlaintext = .ok frame) :
      Accepts c store o (store.insert keyCheckKey frame)

variable {faults : Faults} {slot : Key}

theorem Faults.get_eq_ok {stored : Option Bytes} (h : (faults.db store).get slot = .ok stored) : store.lookup slot = stored := by
  unfold Db.get at h
  split at h
  · cases h
  · cases h
    rfl

theorem Faults.write_eq_ok {value : Bytes} {db : Db}
    (h : (faults.db store).write [.put slot value] = .ok db) : db.store = store.insert slot value := by
  unfold Db.write at h
  split at h
  · cases h
  · cases h
    rfl

/-- The outcome of a check: refused with nothing changed, or accepted. -/
def Settled (c : Cipher κ) (store : Store) (o : Opening κ) (outcome : Except TdeError Unit × Store) : Prop :=
  match outcome.1 with
  | .error _ => outcome.2 = store
  | .ok () => Accepts c store o outcome.2

variable {o : Opening κ}

theorem Settled.refused (e : TdeError) : Settled c store o (.error e,store) := rfl

theorem Settled.of_ok {answer : Except TdeError Unit} (h : answer = .ok () → Accepts c store o store) :
    Settled c store o (answer,store) := by
  cases answer with
  | error e => exact Settled.refused e
  | ok _ => exact h rfl

theorem verifyOrInstall_settled {readOnly : Bool} (hmode : o.mode.isReadOnly = readOnly) :
    Settled c store o (verifyOrInstallKeyCheck c (o.handle.db store) o.keyManager readOnly o.nonce) := by
  unfold verifyOrInstallKeyCheck
  split
  · exact Settled.refused _
  next stored hg =>
    have hs := Faults.get_eq_ok hg
    cases hkey : o.keyManager with
    | none =>
      cases stored with
      | none => exact Accepts.keyless hkey hs
      | some frame => exact Settled.refused _
    | some km =>
      cases stored with
      | some frame =>
        exact Settled.of_ok fun h => .verified km frame hkey hs (verifySentinel_eq_ok_iff.mp h)
      | none =>
        cases readOnly with
        | true => exact Accepts.unverified km hkey hs hmode
        | false =>
          -- The key is recorded, when the sample admits it and both calls succeed.
          change Settled c store o (match requireProbeEvidence c (o.handle.db store) km with | .error _ => _ | .ok () => _)
          split
          · exact Settled.refused _
          next he =>
            split
            · exact Settled.refused _
            next frame hfr =>
              split
              · exact Settled.refused _
              next db' hwr =>
                change Accepts c store o db'.store
                rw [Faults.write_eq_ok hwr]
                exact .installed km frame hkey hs hmode he hfr

theorem openWithMode_settled (o : Opening κ) : Settled c store o (openWithMode c store o) := by
  unfold openWithMode
  split
  · exact Settled.refused _
  split
  · exact Settled.refused _
  unfold keyCheck
  split
  next hmode =>
    have hro : o.mode.isReadOnly = true := by rw [hmode]; rfl
    unfold verifyPhysicalSnapshotKey
    split
    · exact verifyOrInstall_settled hro
    split
    · exact Settled.refused _
    · exact Settled.refused _
    · exact verifyOrInstall_settled hro
  · exact verifyOrInstall_settled rfl

theorem openWithMode_refused {e : TdeError} (h : (openWithMode c store o).1 = .error e) : (openWithMode c store o).2 = store := by
  have hs := @openWithMode_settled κ c store o
  unfold Settled at hs
  rwa [h] at hs

theorem openWithMode_accepts (h : (openWithMode c store o).1 = .ok ()) : Accepts c store o (openWithMode c store o).2 := by
  have hs := @openWithMode_settled κ c store o
  unfold Settled at hs
  rwa [h] at hs

end
end HeliosNano.Storage.Tde
