import HeliosNano.Replication.History

namespace HeliosNano.Replication.History
open Foundation Storage List Function Except.ok FileSystem

section
variable {Path : Type} (json : BindingJson)

abbrev Ledger := Nat → Option Uuid

/-- Whatever is read from the file now, or once it is written or cut, is the history of the ledger. -/
def Committed (ledger : Ledger) (inode : Nat) (file : File) : Prop :=
  (∃ record, file.bytes <+: json.bytes record ∧ ledger inode = some record.upstreamHistoryId) ∨
    file.synced = true ∧
      ∀ record, json.fromSlice file.bytes = .ok record → ledger inode = some record.upstreamHistoryId

structure Consistent (s : FileSystem Path × Ledger) : Prop where
  given : ∀ inode, s.2 inode ≠ none → inode < s.1.nextInode
  committed : ∀ inode file, s.1.binding inode = some (.file file) → Committed json s.2 inode file

/-- Without a record, a directory is bound to nothing. -/
def Unclaimed (s : FileSystem Path × Ledger) (inode : Nat) : Prop := s.1.binding inode = none → s.2 inode = none

/-- What any call does while others run. -/
structure Grows (s s' : FileSystem Path × Ledger) : Prop where
  consistent : Consistent json s → Consistent json s'
  ledger : ∀ inode id, s.2 inode = some id → s'.2 inode = some id
  nodes : ∀ path node, s.1.nodes path = some node → s'.1.nodes path = some node
  binding : ∀ inode, s.1.binding inode ≠ none → s'.1.binding inode ≠ none
  unclaimed : ∀ inode, Unclaimed s inode → Unclaimed s' inode

variable {json}

theorem Grows.refl (s : FileSystem Path × Ledger) : Grows json s s :=
  ⟨id,fun _ _ => id,fun _ _ => id,fun _ => id,fun _ => id⟩

variable {s : FileSystem Path × Ledger}

theorem Grows.trans {t u : FileSystem Path × Ledger} (h : Grows json s t) (h' : Grows json t u) : Grows json s u where
  consistent := fun hs => h'.consistent (h.consistent hs)
  ledger := fun inode id hid => h'.ledger inode id (h.ledger inode id hid)
  nodes := fun path node hn => h'.nodes path node (h.nodes path node hn)
  binding := fun inode hb => h'.binding inode (h.binding inode hb)
  unclaimed := fun inode hu => h'.unclaimed inode (h.unclaimed inode hu)

variable (json) in
def growing : Rely (FileSystem Path × Ledger) := ⟨Grows json,Grows.refl,Grows.trans⟩

variable (json) in
/-- A call leaves the records that it found when it began. -/
structure Keeps (found : FileSystem Path) (s s' : FileSystem Path × Ledger) : Prop where
  grows : Grows json s s'
  kept : ∀ inode, found.binding inode ≠ none → s'.1.binding inode = s.1.binding inode

theorem Keeps.refl (found : FileSystem Path) (s : FileSystem Path × Ledger) : Keeps json found s s :=
  ⟨Grows.refl s,fun _ _ => rfl⟩

/-- The records that a call found are still there. -/
def Since (found : FileSystem Path) (s : FileSystem Path × Ledger) : Prop :=
  ∀ inode, found.binding inode ≠ none → s.1.binding inode ≠ none

theorem Since.grows {found : FileSystem Path} {s' : FileSystem Path × Ledger} (h : Since found s)
    (hs : Grows json s s') : Since found s' :=
  fun inode hb => hs.binding inode (h inode hb)

variable (json) in
abbrev Does {α : Type} (found : FileSystem Path) (x : Disk Path α) (Q : α → FileSystem Path × Ledger → Prop)
    (s : FileSystem Path × Ledger) : Prop :=
  Holds (growing json) (Keeps json found) x Q s

variable (json) in
/-- A call of which nothing is known but that it keeps the rules. -/
def Quiet {α : Type} (found : FileSystem Path) (x : Disk Path α) : Prop :=
  ∀ s, Does json found x (fun _ s' => Grows json s s') s

section
variable {α β : Type} {found : FileSystem Path} {s : FileSystem Path × Ledger}
variable {x : Disk Path α}
variable {f : α → Disk Path β} {Q : α → FileSystem Path × Ledger → Prop} {read : FileSystem Path → Except (HistoryError Path) α}

theorem Does.bind {Q : β → FileSystem Path × Ledger → Prop} {R : α → FileSystem Path × Ledger → Prop} (hx : Does json found x R s)
    (hf : ∀ a s', R a s' → Does json found (f a) Q s') : Does json found (x >>= f) Q s :=
  Holds.bind (hx.mono hf)

theorem does_reading (h : ∀ s', Grows json s s' → ∀ a, read s'.1 = .ok a → ∀ s'', Grows json s' s'' → Q a s'') :
    Does json found (reading read) Q s := by
  refine holds_perform ?_
  intro s' hs fault
  refine ⟨s'.2,Keeps.refl found s',?_⟩
  intro a ha s'' hs'
  cases fault with
  | none => exact h s' hs a ha s'' hs'
  | some left => cases ha

theorem does_changing {change : FileSystem Path → Except (HistoryError Path) (α × FileSystem Path)}
    (h : ∀ s', Grows json s s' → ∀ a fs, change s'.1 = .ok (a,fs) → ∃ ledger, Keeps json found s' (fs,ledger) ∧
      ∀ s'', Grows json (fs,ledger) s'' → Q a s'') : Does json found (changing change) Q s := by
  refine holds_perform ?_
  intro s' hs fault
  cases fault with
  | some left => exact ⟨s'.2,Keeps.refl found s',nofun⟩
  | none =>
    simp only [Option.isSome_none,Bool.false_eq_true,if_false]
    cases hc : change s'.1 with
    | error error => exact ⟨s'.2,Keeps.refl found s',nofun⟩
    | ok result =>
      obtain ⟨ledger,hk,hQ⟩ := h s' hs result.1 result.2 hc
      refine ⟨ledger,hk,?_⟩
      intro a ha s'' hs'
      obtain rfl : result.1 = a := inj ha
      exact hQ s'' hs'

theorem quiet_pure {a : α} : Quiet json found (pure a) := fun _ => holds_pure fun _ h => h

theorem quiet_throw {error : HistoryError Path} : Quiet json found (throw error : Disk Path α) := fun _ => holds_throw

theorem Quiet.bind (hx : Quiet json found x) (hf : ∀ a, Quiet json found (f a)) : Quiet json found (x >>= f) := by
  intro s
  refine Does.bind (hx s) ?_
  intro a s' hs
  exact (hf a s').mono fun _ _ hs' => hs.trans hs'

theorem quiet_reading : Quiet json found (reading read) :=
  fun _ => does_reading fun _ hs _ _ _ hs' => hs.trans hs'

theorem Quiet.does (hx : Quiet json found x) {P : FileSystem Path × Ledger → Prop}
    (hst : ∀ s', Grows json s s' → P s') : Does json found x (fun _ s' => P s') s :=
  (hx s).mono fun _ _ hs => hst _ hs

end
end

section
variable {Path : Type} (fs : FileSystem Path) (inode : Nat) (change : Directory → Directory)

theorem binding_update (other : Nat) : (fs.update inode change).binding other =
      if other = inode ∧ inode < fs.nextInode then (change (fs.directories other)).binding else fs.binding other := by
  simp only [FileSystem.binding,FileSystem.update]
  split <;> rfl

variable {inode : Nat} {path : Path}

theorem binding_editBinding (hp : fs.nodes path = some (.directory inode)) (edit : File → File) (other : Nat) :
    (fs.editBinding path edit).binding other =
      if other = inode then
        match fs.binding other with
        | some (.file file) => some (.file (edit file))
        | entry => entry
      else fs.binding other := by
  have hlt : inode < fs.nextInode := fs.allocated path inode hp
  simp only [editBinding,hp,binding_update,hlt,and_true]
  by_cases h : other = inode
  · simp only [h,if_true,binding]
    split
    · next file hf => simp [hf]
    next hf =>
    cases hb : (fs.directories inode).binding with
    | none => simp
    | some entry =>
      cases entry with
      | file file => exact absurd hb (hf file)
      | symlink | other => simp
  · simp only [h,if_false]

theorem nodes_editBinding (path : Path) (edit : File → File) : (fs.editBinding path edit).nodes = fs.nodes := by
  simp only [editBinding]
  split <;> rfl

theorem nextInode_editBinding (path : Path) (edit : File → File) : (fs.editBinding path edit).nextInode = fs.nextInode := by
  simp only [editBinding]
  split <;> rfl

theorem lookup_binding_ok {entry : Entry}
    (hp : fs.nodes path = some (.directory inode)) (h : fs.lookup path Directory.binding = .ok entry) :
    fs.binding inode = some entry := by
  simp only [FileSystem.lookup,hp] at h
  split at h
  · cases h
  · next he =>
    obtain rfl := inj h
    exact he

end

section
variable {Path : Type} {json : BindingJson} {found : FileSystem Path} {s : FileSystem Path × Ledger}
variable {path : Path} {owned : OwnedDirectory Path} {root : Path} {inode : Nat} {record : BindingRecord} {peer : Uuid}
  {history : ReceiverHistory Path}

theorem does_metadata : Does json found (metadata path) (fun node s' => Grows json s s' ∧ s'.1.nodes path = some node) s := by
  refine does_reading fun t ht node hnd t' ht' => ?_
  cases hn : t.1.nodes path with
  | none => simp only [hn] at hnd; cases hnd
  | some found =>
    simp only [hn] at hnd
    obtain rfl := inj hnd
    exact ⟨ht.trans ht',ht'.nodes path found hn⟩

theorem quiet_validateFormat {format : Nat} : Quiet json found (validateFormat format) := by
  unfold validateFormat
  split
  · exact quiet_throw
  · exact quiet_pure

variable {id : Uuid} {name : Directory → Option Entry} {t : FileSystem Path × Ledger} {directory : Option (OwnedDirectory Path)}

theorem quiet_validateId : Quiet json found (validateId id) := by
  unfold validateId
  split
  · exact quiet_throw
  · exact quiet_pure

theorem quiet_checkedAbsolutePath {paths : PathOps Path} : Quiet json found (checkedAbsolutePath paths path) := by
  unfold checkedAbsolutePath
  split
  · exact quiet_throw
  refine Quiet.bind ?_ fun absolute => Quiet.bind quiet_reading fun _ => quiet_pure
  unfold absolutePath
  split
  · exact quiet_pure
  · exact quiet_reading

theorem does_capture : Does json found (OwnedDirectory.capture path) (fun owned s' => Grows json s s' ∧ owned.path = path ∧
      s'.1.nodes path = some (.directory owned.identity)) s := by
  refine Does.bind (quiet_reading s) fun _ s' hs => ?_
  refine Does.bind does_metadata fun node s'' h => ?_
  cases node with
  | other => exact holds_throw
  | directory inode =>
    exact holds_pure fun t ht => ⟨(hs.trans h.1).trans ht,rfl,ht.nodes path _ h.2⟩

theorem does_verify : Does json found owned.verify (fun _ s' => Grows json s s' ∧
      s'.1.nodes owned.path = some (.directory owned.identity)) s := by
  refine Does.bind (quiet_reading s) fun _ s' hs => ?_
  refine Does.bind does_metadata fun node s'' h => ?_
  cases node with
  | other => exact holds_throw
  | directory inode =>
    simp only
    split
    · exact holds_throw
    next hsame =>
    rw [not_not] at hsame
    subst hsame
    exact holds_pure fun t ht => ⟨(hs.trans h.1).trans ht,ht.nodes _ _ h.2⟩

theorem quiet_verify : Quiet json found owned.verify :=
  fun _ => does_verify.mono fun _ _ h => h.1

theorem does_readMetadataBytes
    {B : Bytes → FileSystem Path × Ledger → Prop} (hs : ∀ bytes t t', Grows json t t' → B bytes t → B bytes t')
    (hf : ∀ t, Grows json s t → ∀ file, t.1.lookup root name = .ok (.file file) → B file.bytes t) :
    Does json found (readMetadataBytes root name) (fun bytes s' => Grows json s s' ∧ B bytes s') s := by
  refine Does.bind (quiet_reading s) fun before s₁ h₁ => ?_
  cases before with
  | symlink | other => exact holds_throw
  | file before =>
    simp only
    split_ifs
    · exact holds_throw
    · exact holds_throw
    refine Does.bind (R := fun entry s₂ => Grows json s s₂ ∧ ∀ file, entry = .file file → B file.bytes s₂) ?_ ?_
    · refine does_reading fun t ht entry he t' ht' => ⟨(h₁.trans ht).trans ht',?_⟩
      rintro file rfl
      refine hs _ _ _ ht' (hf t (h₁.trans ht) file ?_)
      cases hl : t.1.lookup root name with
      | error error => simp only [hl] at he; cases he
      | ok entry =>
        cases entry with
        | symlink | other => simp only [hl] at he; cases he
        | file file' =>
          simp only [hl] at he
          obtain ⟨⟩ := inj he
          rfl
    rintro opened s₂ ⟨h₂,ho⟩
    cases opened with
    | symlink | other => exact holds_throw
    | file opened =>
      simp only
      split_ifs
      · exact holds_throw
      · exact holds_throw
      refine Does.bind (quiet_reading s₂) fun after s₃ h₃ => ?_
      cases after with
      | symlink | other => exact holds_throw
      | file after =>
        simp only
        split
        · exact holds_throw
        refine Does.bind (R := fun bytes s₄ => Grows json s s₄ ∧ B bytes s₄) ?_ ?_
        · refine does_reading fun t ht bytes hb t' ht' => ⟨((h₂.trans h₃).trans ht).trans ht',?_⟩
          have hold : B opened.bytes t' := hs _ _ _ ((h₃.trans ht).trans ht') (ho opened rfl)
          split at hb
          · next file hl =>
            obtain rfl := inj hb
            split
            · exact hs _ _ _ ht' (hf t ((h₂.trans h₃).trans ht) file hl)
            · exact hold
          · obtain rfl := inj hb
            exact hold
        · intro bytes s₄ h₄
          split
          · exact holds_throw
          · exact holds_pure fun t ht => ⟨h₄.1.trans ht,hs _ _ _ ht h₄.2⟩

theorem quiet_readMetadataBytes : Quiet json found (readMetadataBytes root name) := by
  intro s
  have h : Does json found (readMetadataBytes root name) (fun _ s' => Grows json s s' ∧ True) s :=
    does_readMetadataBytes (fun _ _ _ _ _ => trivial) (fun _ _ _ _ => trivial)
  exact h.mono fun _ _ h => h.1

theorem quiet_readStorageIdentity : Quiet json found (readStorageIdentity root) := by
  refine Quiet.bind quiet_readMetadataBytes fun bytes => ?_
  simp only
  split_ifs
  · exact quiet_throw
  · exact quiet_throw
  · exact quiet_throw
  · exact quiet_pure

theorem quiet_validateStorageIdentity {expected : Bytes} : Quiet json found (validateStorageIdentity root expected) := by
  refine Quiet.bind quiet_readStorageIdentity fun identity => ?_
  split
  · exact quiet_throw
  · exact quiet_pure

theorem does_readRecord (hj : json.Faithful) (hs : Consistent json s) (hrt : s.1.nodes root = some (.directory inode)) :
    Does json found (readRecord json root) (fun record s' => Grows json s s' ∧ s'.2 inode = some record.upstreamHistoryId) s := by
  refine Does.bind (does_readMetadataBytes (B := fun bytes t =>
    ∀ record, json.fromSlice bytes = .ok record → t.2 inode = some record.upstreamHistoryId) ?_ ?_) ?_
  · intro bytes t t' ht hB record hr
    exact ht.ledger _ _ (hB record hr)
  · intro t ht file hf record hr
    have hb := lookup_binding_ok t.1 (ht.nodes _ _ hrt) hf
    obtain ⟨written,hst,hl⟩ | ⟨-,hrd⟩ := (ht.consistent hs).committed inode file hb
    · rw [hj written _ record hst hr]
      exact hl
    · exact hrd record hr
  · rintro bytes s' ⟨hs',hB⟩
    unfold parseRecord
    split
    · next record hr => exact holds_pure fun t ht => ⟨hs'.trans ht,ht.ledger _ _ (hB record hr)⟩
    · exact holds_throw

theorem quiet_readRecord : Quiet json found (readRecord json root) := by
  refine Quiet.bind quiet_readMetadataBytes fun bytes => ?_
  unfold parseRecord
  split
  · exact quiet_pure
  · exact quiet_throw

theorem does_verifyBinding (hj : json.Faithful) {expected : Uuid} (hs : Consistent json s) :
    Does json found (owned.verifyBinding json expected) (fun _ s' => s'.2 owned.identity = some expected) s := by
  refine Does.bind does_verify fun _ s₁ h₁ => ?_
  refine Does.bind (quiet_reading s₁) fun _ s₂ h₂ => ?_
  have hg : Grows json s s₂ := h₁.1.trans h₂
  refine Does.bind (does_readRecord hj (hg.consistent hs) (h₂.nodes _ _ h₁.2)) fun record s₃ h₃ => ?_
  refine Does.bind (quiet_validateFormat s₃) fun _ s₄ h₄ => ?_
  refine Does.bind (quiet_validateId s₄) fun _ s₅ h₅ => ?_
  refine Does.bind (quiet_validateStorageIdentity s₅) fun _ s₆ h₆ => ?_
  have hl : s₆.2 owned.identity = some record.upstreamHistoryId := ((h₄.trans h₅).trans h₆).ledger _ _ h₃.2
  split
  · exact holds_throw
  next hsame =>
  rw [not_not] at hsame
  subst hsame
  exact quiet_verify.does fun s' hs' => hs'.ledger _ _ hl

def withRecord (fs : FileSystem Path) (inode : Nat) : FileSystem Path :=
  fs.allocate.update inode fun directory =>
    { directory with binding := some (.file ⟨fs.nextInode,1,[],false⟩) }

theorem binding_withRecord {fs : FileSystem Path} (hlt : inode < fs.nextInode) (other : Nat) :
    (withRecord fs inode).binding other =
      if other = inode then some (.file ⟨fs.nextInode,1,[],false⟩) else fs.binding other := by
  have hlt' : inode < fs.allocate.nextInode := Nat.lt_succ_of_lt hlt
  rw [withRecord,binding_update]
  simp only [hlt',and_true]
  rfl

theorem grows_withRecord (hlt : inode < t.1.nextInode) (hfr : t.2 inode = none) :
    Grows json t (withRecord t.1 inode,Function.update t.2 inode (some record.upstreamHistoryId)) := by
  constructor
  · intro hc
    constructor
    · intro other ho
      by_cases h : other = inode
      · subst h
        exact Nat.lt_succ_of_lt hlt
      · simp only [update_of_ne h] at ho
        exact Nat.lt_succ_of_lt (hc.given other ho)
    · intro other file hf
      simp only [binding_withRecord hlt] at hf
      by_cases h : other = inode
      · subst h
        rw [if_pos rfl] at hf
        obtain ⟨⟩ := Option.some.inj hf
        exact .inl ⟨record, nil_prefix,by simp⟩
      · rw [if_neg h] at hf
        simpa only [Committed,update_of_ne h] using hc.committed other file hf
  · intro other id hid
    by_cases h : other = inode
    · subst h
      rw [hfr] at hid
      cases hid
    · simpa only [update_of_ne h] using hid
  · intro _ _ hnd
    exact hnd
  · intro other ho
    simp only [binding_withRecord hlt]
    split
    · simp
    · exact ho
  · intro other hun hn
    simp only [binding_withRecord hlt] at hn
    by_cases h : other = inode
    · rw [if_pos h] at hn
      cases hn
    · rw [if_neg h] at hn
      simpa only [update_of_ne h] using hun hn

theorem does_createNew (record : BindingRecord) (hs : Since found s)
    (hp : s.1.nodes path = some (.directory inode)) (hun : Unclaimed s inode) :
    Does json found (createNew path) (fun _ s' => Grows json s s' ∧ found.binding inode = none ∧
      s'.2 inode = some record.upstreamHistoryId) s := by
  refine does_changing fun t ht _ fs hfs => ?_
  have hlt : inode < t.1.nextInode := t.1.allocated path inode (ht.nodes _ _ hp)
  simp only [ht.nodes _ _ hp] at hfs
  cases hb : t.1.binding inode with
  | some entry => simp only [hb] at hfs; cases hfs
  | none =>
    simp only [hb] at hfs
    obtain ⟨-,rfl⟩ := Prod.mk.inj (inj hfs)
    have hf : found.binding inode = none := by
      by_contra hne
      exact hs.grows ht inode hne hb
    have hg : Grows json t (withRecord t.1 inode,Function.update t.2 inode (some record.upstreamHistoryId)) :=
      grows_withRecord hlt (ht.unclaimed inode hun hb)
    refine ⟨_,⟨hg,?_⟩,?_⟩
    · intro other ho
      have hne : other ≠ inode := by
        rintro rfl
        exact ho hf
      exact (binding_withRecord hlt other).trans (if_neg hne)
    · intro s' hs'
      exact ⟨(ht.trans hg).trans hs',hf,hs'.ledger _ _ (by simp)⟩

theorem keeps_editBinding
    (hp : t.1.nodes path = some (.directory inode)) (hfn : found.binding inode = none) {edit : File → File}
    (he : ∀ file, Committed json t.2 inode file → Committed json t.2 inode (edit file)) :
    Keeps json found t (t.1.editBinding path edit,t.2) := by
  have hn : ∀ other, (t.1.editBinding path edit).binding other = none ↔ t.1.binding other = none := by
    intro other
    rw [binding_editBinding t.1 hp]
    split
    · split <;> simp_all
    · rfl
  refine ⟨⟨?_,fun _ _ h => h,?_,?_,?_⟩,?_⟩
  · intro hc
    constructor
    · intro other ho
      simp only [nextInode_editBinding]
      exact hc.given other ho
    · intro other file hf
      rw [binding_editBinding t.1 hp] at hf
      split at hf
      · next h =>
        subst h
        cases hb : t.1.binding other with
        | none => simp only [hb] at hf; cases hf
        | some entry =>
          cases entry with
          | symlink | other => simp only [hb] at hf; cases hf
          | file old =>
            simp only [hb] at hf
            obtain ⟨⟩ := Option.some.inj hf
            exact he old (hc.committed other old hb)
      · exact hc.committed other file hf
  · intro other node hnd
    simp only [nodes_editBinding]
    exact hnd
  · intro other ho hn'
    exact ho ((hn other).mp hn')
  · intro other hun hn'
    exact hun ((hn other).mp hn')
  · intro other ho
    simp only
    rw [binding_editBinding t.1 hp,if_neg (by rintro rfl; exact ho hfn)]

variable (hp : s.1.nodes path = some (.directory inode))
include hp

theorem does_writeAll (hf : found.binding inode = none) (hl : s.2 inode = some record.upstreamHistoryId) :
    Does json found (writeAll path (json.bytes record)) (fun _ s' => Grows json s s') s := by
  refine holds_perform ?_
  intro t ht fault
  have hl' : t.2 inode = some record.upstreamHistoryId := ht.ledger _ _ hl
  cases fault with
  | some left =>
    refine ⟨t.2,keeps_editBinding (ht.nodes _ _ hp) hf ?_,nofun⟩
    intro file _
    exact .inl ⟨record, take_prefix _ _,hl'⟩
  | none =>
    have hk : Keeps json found t
        (t.1.editBinding path fun file => { file with bytes := json.bytes record },t.2) :=
      keeps_editBinding (ht.nodes _ _ hp) hf fun file _ => .inl ⟨record,prefix_refl _,hl'⟩
    refine ⟨t.2,hk,?_⟩
    intro _ _ s' hs'
    exact (Grows.trans ht hk.grows).trans hs'

theorem does_syncDirectory (hf : found.binding inode = none) :
    Does json found (syncDirectory path) (fun _ s' => Grows json s s') s := by
  refine does_changing fun t ht _ fs hfs => ?_
  obtain ⟨-,rfl⟩ := Prod.mk.inj (inj hfs)
  have hk : Keeps json found t (t.1.editBinding path fun file => { file with synced := true },t.2) :=
    keeps_editBinding (ht.nodes _ _ hp) hf fun file h => h.imp id fun h => ⟨rfl,h.2⟩
  exact ⟨t.2,hk,fun s' hs' => (ht.trans hk.grows).trans hs'⟩

omit hp

theorem does_writeNewRecord (hs : Since found s) (hun : Unclaimed s owned.identity) :
    Does json found (writeNewRecord json owned record) (fun _ s' => s'.2 owned.identity = some record.upstreamHistoryId) s := by
  refine Does.bind does_verify fun _ s₁ h₁ => ?_
  simp only
  split
  · exact holds_throw
  refine Does.bind (does_createNew record (hs.grows h₁.1) h₁.2 (h₁.1.unclaimed _ hun)) fun _ s₂ h₂ => ?_
  obtain ⟨hg₂,hf,hl⟩ := h₂
  refine Does.bind (does_writeAll (hg₂.nodes _ _ h₁.2) hf hl) fun _ s₃ h₃ => ?_
  refine Does.bind (quiet_reading s₃) fun _ s₄ h₄ => ?_
  refine Does.bind does_verify fun _ s₅ h₅ => ?_
  have hl' : s₅.2 owned.identity = some record.upstreamHistoryId :=
    ((h₃.trans h₄).trans h₅.1).ledger _ _ hl
  exact (does_syncDirectory h₅.2 hf).mono fun _ _ h => h.ledger _ _ hl'

theorem does_bindFirst (hs : Since found s) (hun : ∀ owned, directory = some owned → Unclaimed s owned.identity) :
    Does json found (bindFirst json directory peer)
      (fun _ s' => ∀ owned, directory = some owned → s'.2 owned.identity = some peer) s := by
  refine Does.bind (quiet_validateId s) fun _ s₁ h₁ => ?_
  cases directory with
  | none => exact holds_pure nofun
  | some owned =>
    refine Does.bind (quiet_verify s₁) fun _ s₂ h₂ => ?_
    refine Does.bind (quiet_reading s₂) fun _ s₃ h₃ => ?_
    refine Does.bind (quiet_readStorageIdentity s₃) fun identity s₄ h₄ => ?_
    have hg : Grows json s s₄ := ((h₁.trans h₂).trans h₃).trans h₄
    refine (does_writeNewRecord (hs.grows hg)
      (hg.unclaimed _ (hun owned rfl))).mono ?_
    rintro _ s' hl _ ⟨⟩
    exact hl

theorem does_verifyBound (hj : json.Faithful) (hs : Consistent json s) : Does json found (verifyBound json directory id)
      (fun _ s' => ∀ owned, directory = some owned → s'.2 owned.identity = some id) s := by
  cases directory with
  | none => exact holds_pure nofun
  | some owned =>
    refine (does_verifyBinding hj hs).mono ?_
    rintro _ s' hl _ ⟨⟩
    exact hl

theorem does_existingBinding : Does json found (existingBinding json path) (fun state _ => state ≠ .fresh) s := by
  refine Does.bind (R := fun _ _ => True) ?_ fun record t _ => ?_
  · refine Holds.tryCatch (fun _ _ _ _ _ => trivial) ((quiet_readRecord s).mono fun _ _ _ => trivial) ?_
    intro error t
    split
    · exact holds_throw
    · exact holds_throw
  · refine Does.bind (quiet_validateFormat t) fun _ t₁ _ => ?_
    refine Does.bind (quiet_validateId t₁) fun _ t₂ _ => ?_
    refine Does.bind (quiet_validateStorageIdentity t₂) fun _ t₃ _ => ?_
    exact holds_pure nofun

def ReceiverHistory.Free (history : ReceiverHistory Path) (s : FileSystem Path × Ledger) : Prop :=
  history.state = .fresh → ∀ owned, history.directory = some owned → Unclaimed s owned.identity

theorem ReceiverHistory.Free.grows {s s' : FileSystem Path × Ledger}
    (h : history.Free s) (hs : Grows json s s') : history.Free s' :=
  fun hf owned ho => hs.unclaimed _ (h hf owned ho)

theorem does_startState {fresh : Bool} (hun : fresh = true → Unclaimed s inode) :
    Does json found (startState json fresh path) (fun state s' => state = .fresh → Unclaimed s' inode) s := by
  cases fresh with
  | false => exact does_existingBinding.mono fun state _ hne hf => absurd hf hne
  | true =>
    refine Does.bind (quiet_reading s) fun _ t ht => ?_
    exact holds_pure fun t' ht' _ => (ht.trans ht').unclaimed _ (hun rfl)

section
variable [DecidableEq Path]
variable {path : Path}

theorem grows_mkdir {t : FileSystem Path × Ledger} (hp : t.1.nodes path = none) : Grows json t (t.1.mkdir path,t.2) := by
  refine ⟨?_,fun _ _ h => h,?_,fun _ h => h,fun _ h => h⟩
  · intro hc
    exact ⟨fun inode h => Nat.lt_succ_of_lt (hc.given inode h),hc.committed⟩
  · intro other node hn
    have hne : other ≠ path := by
      rintro rfl
      rw [hp] at hn
      cases hn
    simp only [mkdir,if_neg hne]
    exact hn

theorem quiet_createDir : Quiet json found (createDir path) := by
  refine fun s => does_changing fun t ht made fs hfs => ?_
  cases hn : t.1.nodes path with
  | some node =>
    simp only [hn] at hfs
    obtain ⟨rfl,rfl⟩ := Prod.mk.inj (inj hfs)
    exact ⟨t.2,Keeps.refl found t,fun s' hs' => ht.trans hs'⟩
  | none =>
    simp only [hn] at hfs
    obtain ⟨rfl,rfl⟩ := Prod.mk.inj (inj hfs)
    have hg : Grows json t (t.1.mkdir path,t.2) := grows_mkdir hn
    exact ⟨t.2,⟨hg,fun _ _ => rfl⟩,fun s' hs' => (ht.trans hg).trans hs'⟩

theorem does_createDir (hs : Consistent json s) : Does json found (createDir path) (fun made s' => Grows json s s' ∧
      (made = true → ∃ inode, s'.1.nodes path = some (.directory inode) ∧ Unclaimed s' inode)) s := by
  refine does_changing fun t ht made fs hfs => ?_
  cases hn : t.1.nodes path with
  | some node =>
    simp only [hn] at hfs
    obtain ⟨rfl,rfl⟩ := Prod.mk.inj (inj hfs)
    exact ⟨t.2,Keeps.refl found t,fun s' hs' => ⟨ht.trans hs',nofun⟩⟩
  | none =>
    simp only [hn] at hfs
    obtain ⟨rfl,rfl⟩ := Prod.mk.inj (inj hfs)
    have hg : Grows json t (t.1.mkdir path,t.2) := grows_mkdir hn
    have hnd : (t.1.mkdir path).nodes path = some (.directory t.1.nextInode) := if_pos rfl
    have hf : t.2 t.1.nextInode = none := by
      by_contra hne
      exact Nat.lt_irrefl _ ((ht.consistent hs).given _ hne)
    refine ⟨t.2,⟨hg,fun _ _ => rfl⟩,fun s' hs' => ⟨(ht.trans hg).trans hs',fun _ => ?_⟩⟩
    exact ⟨_,hs'.nodes path _ hnd,hs'.unclaimed _ fun _ => hf⟩

theorem quiet_createDirAll {directories : List Path} : Quiet json found (createDirAll directories) := by
  induction directories with
  | nil => exact quiet_pure
  | cons path rest ih =>
    refine Quiet.bind quiet_createDir fun made => ?_
    split
    · exact ih
    refine Quiet.bind quiet_reading fun node => ?_
    cases node with
    | other => exact quiet_throw
    | directory inode => exact ih

theorem does_prepareReceiverHistory {paths : PathOps Path} (hs : Consistent json s) :
    Does json found (prepareReceiverHistory paths json path) (fun history s' => history.Free s') s := by
  refine Does.bind (quiet_checkedAbsolutePath s) fun path s₁ h₁ => ?_
  split
  · exact holds_throw
  refine Does.bind (quiet_createDirAll s₁) fun _ s₂ h₂ => ?_
  refine Does.bind (quiet_reading s₂) fun _ s₃ h₃ => ?_
  have hc : Consistent json s₃ := ((h₁.trans h₂).trans h₃).consistent hs
  refine Does.bind (does_createDir hc) fun fresh s₄ h₄ => ?_
  refine Does.bind does_capture fun owned s₅ h₅ => ?_
  refine Does.bind (quiet_reading s₅) fun _ s₆ h₆ => ?_
  have hun : fresh = true → Unclaimed s₆ owned.identity := by
    intro hf
    obtain ⟨inode,hn,hun⟩ := h₄.2 hf
    have hsame : some (Node.directory owned.identity) = some (.directory inode) :=
      h₅.2.2.symm.trans (h₅.1.nodes _ _ hn)
    obtain ⟨⟩ := Option.some.inj hsame
    exact (h₅.1.trans h₆).unclaimed _ hun
  refine Does.bind (does_startState hun) fun state s₇ h₇ => ?_
  refine Does.bind (quiet_verify s₇) fun _ s₈ h₈ => ?_
  refine holds_pure fun t ht hf _ ho => ?_
  obtain rfl := Option.some.inj ho
  exact (h₈.trans ht).unclaimed _ (h₇ hf)

end

/-- What becomes of the state of a receiver that is asked to accept a peer. -/
def Settles (state : BindingState) (peer : Uuid) (accepted : Bool) (state' : BindingState) : Prop :=
  match state with
  | .fresh => if accepted then state' = .bound peer else state' = .failed
  | .bound id => state' = .bound id ∧ (accepted = true → peer = id)
  | .failed => accepted = false ∧ state' = .failed

theorem Settles.ne_fresh {state : BindingState} {accepted : Bool} : ¬ Settles state peer accepted .fresh := by
  intro h
  cases state with
  | fresh =>
    simp only [Settles] at h
    split at h <;> cases h
  | bound id => cases h.1
  | failed => cases h.2

theorem run_verifyOrBind_fresh (directory : Option (OwnedDirectory Path)) (peer : Uuid) :
    (verifyOrBind json directory peer).run.run .fresh = (bindFirst json directory peer).run >>= fun
        | .ok () => pure (.ok (),.bound peer) | .error error => pure (.error error,.failed) := by
  show ((bindFirst json directory peer).run >>= _) >>= _ = _
  rw [bind_assoc]
  refine bind_congr fun r => ?_
  cases r <;> rfl

theorem run_verifyOrBind_bound (directory : Option (OwnedDirectory Path)) (peer expected : Uuid) :
    (verifyOrBind json directory peer).run.run (.bound expected) =
      if expected ≠ peer then pure (.error (.mismatch expected peer),.bound expected)
      else (verifyBound json directory expected).run >>= fun r => pure (r,.bound expected) := by
  show ((if expected ≠ peer then throw (.mismatch expected peer) else onDisk (verifyBound json directory expected) :
    Locked Path Unit).run).run (.bound expected) = _
  split <;> rfl

theorem run_expectedHistory_bound (directory : Option (OwnedDirectory Path)) (id : Uuid) :
    (expectedHistory json directory).run.run (.bound id) = (verifyBound json directory id).run >>= fun
        | .ok () => pure (.ok (some id),.bound id) | .error error => pure (.error error,.bound id) := by
  show ((verifyBound json directory id).run >>= _) >>= _ = _
  rw [bind_assoc]
  refine bind_congr fun r => ?_
  cases r <;> rfl

theorem ensures_verifyOrBind (hj : json.Faithful) (hs : Consistent json s) (hsn : Since found s) (hf : history.Free s) :
    Ensures (growing json) (Keeps json found) ((verifyOrBind json history.directory peer).run.run history.state)
      (fun r s' => Settles history.state peer r.1.isOk r.2 ∧ (r.1.isOk = true →
        ∀ owned, history.directory = some owned → s'.2 owned.identity = some peer)) s := by
  cases hst : history.state with
  | fresh =>
    rw [run_verifyOrBind_fresh]
    refine Ensures.bind (Ensures.mono (does_bindFirst hsn (hf hst)) fun r t hr => ?_)
    cases r with
    | error error => exact fun t' _ => ⟨rfl,nofun⟩
    | ok a => exact fun t' ht => ⟨rfl,fun _ owned ho => ht.ledger _ _ (hr a rfl owned ho)⟩
  | failed => exact fun s' _ => ⟨⟨rfl,rfl⟩,nofun⟩
  | bound expected =>
    rw [run_verifyOrBind_bound]
    split
    · exact fun s' _ => ⟨⟨rfl,nofun⟩,nofun⟩
    next hsame =>
    rw [not_not] at hsame
    subst hsame
    refine Ensures.bind (Ensures.mono (does_verifyBound hj hs) fun r t hr => ?_)
    cases r with
    | error error => exact fun t' _ => ⟨⟨rfl,fun _ => rfl⟩,nofun⟩
    | ok a =>
      exact fun t' ht => ⟨⟨rfl,fun _ => rfl⟩,fun _ owned ho => ht.ledger _ _ (hr a rfl owned ho)⟩

theorem ensures_expectedHistory (hj : json.Faithful) (hs : Consistent json s) :
    Ensures (growing json) (Keeps json found) ((expectedHistory json history.directory).run.run history.state)
      (fun r _ => r.2 = history.state) s := by
  cases hst : history.state with
  | fresh | failed => exact fun _ _ => rfl
  | bound id =>
    rw [run_expectedHistory_bound]
    refine Ensures.bind (Ensures.mono (does_verifyBound hj hs) fun r t _ => ?_)
    cases r with
    | error error | ok a => exact fun _ _ => rfl

end
end HeliosNano.Replication.History
