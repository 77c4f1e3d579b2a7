import HeliosNano.Foundation.Runs
import HeliosNano.Replication.Physical

namespace HeliosNano.Replication
open Foundation Storage List AList StagedPhysicalReplica

/-- A batch that was decoded; there is no other way to one. -/
structure DecodedBatch (sha256 : Bytes → Bytes) where
  batch : PhysicalBatch
  decoded : ∃ history first raw digest, PhysicalBatch.decode sha256 history first raw digest = .ok batch

/-- The receiver runs, or only its store is there. -/
inductive Staging
  | running (r : StagedPhysicalReplica)
  | closed (db : Db)

def Staging.db : Staging → Db
  | running r => r.db
  | closed db => db

structure ReplicaWorld where
  staging : Staging
  applied : List PhysicalBatch

inductive ReplicaEvent (sha256 : Bytes → Bytes)
  | apply (batch : DecodedBatch sha256) (outcome : WriteOutcome)
  | close
  | resume (history : Uuid)

section
variable (json : CursorJson) {sha256 : Bytes → Bytes}

def writes (result : Except PhysicalError Bool) (outcome : WriteOutcome) : Bool :=
  decide (result = .ok true) || (decide (result = .error .storage) && decide (outcome = .stored))

def ReplicaWorld.step (w : ReplicaWorld) : ReplicaEvent sha256 → ReplicaWorld
  | .apply batch outcome =>
    match w.staging with
    | .closed _ => w
    | .running r =>
      let (r,result) := r.apply json batch.batch outcome
      ⟨.running r,if writes result outcome then w.applied ++ [batch.batch] else w.applied⟩
  | .close =>
    match w.staging with
    | .closed _ => w
    | .running r => { w with staging := .closed r.db }
  | .resume history =>
    match w.staging with
    | .running _ => w
    | .closed db =>
      match resume json db history with
      | .error _ => w
      | .ok r => { w with staging := .running r }

/-- The batches follow one another from a sequence number to another. -/
def Contiguous : Nat → List PhysicalBatch → Nat → Prop
  | start, [], through => through = start
  | start, batch::rest, through => batch.first = start+1 ∧ batch.first ≤ batch.last ∧ Contiguous batch.last rest through

def replay (rows : Store) (batches : List PhysicalBatch) : Store :=
  batches.foldl (fun rows batch => batch.records.foldl Record.apply rows) rows

/-- The store has the checkpoint and what was applied, and its cursor says how far. -/
structure ExactPrefix (checkpoint : Db) (history : Uuid) (w : ReplicaWorld) : Prop where
  rows : ∀ key, key ≠ cursorKey → w.staging.db.rows.lookup key = (replay checkpoint.rows w.applied).lookup key
  durable : ∃ cursor : PhysicalCursor, w.staging.db.rows.lookup cursorKey = some (json.toVec cursor) ∧
    cursor.history = history ∧ cursor.localSequence = w.staging.db.latestSequenceNumber ∧
    cursor.snapshotSequence = checkpoint.latestSequenceNumber ∧
    Contiguous checkpoint.latestSequenceNumber w.applied cursor.sourceSequence ∧
    ∀ r, w.staging = .running r → r.poisoned = false → r.cursor = cursor

end

theorem readRecords_counted {count fuel : Nat} {input : Bytes} {observed : Nat} {records : List Record}
    (h : readRecords count fuel input observed = .ok records) : observed + (records.map Record.counted).sum = count := by
  induction fuel generalizing input observed records with
  | zero =>
    cases input with
    | nil =>
      rw [readRecords] at h
      split at h
      next => cases h
      next heq =>
        cases h
        exact Decidable.not_not.mp heq
    | cons tag input => cases h
  | succ fuel ih =>
    cases input with
    | nil =>
      rw [readRecords] at h
      split at h
      next => cases h
      next heq =>
        cases h
        exact Decidable.not_not.mp heq
    | cons tag input =>
      rw [readRecords] at h
      obtain ⟨⟨record,rest⟩,-,h⟩ := bind_eq_ok.mp h
      simp only at h
      split at h
      next => cases h
      next =>
        obtain ⟨tail,htl,h⟩ := bind_eq_ok.mp h
        cases h
        have hs := ih htl
        rw [map_cons,sum_cons]
        omega

theorem DecodedBatch.sequences {sha256 : Bytes → Bytes} (b : DecodedBatch sha256) :
    b.batch.first ≤ b.batch.last ∧ b.batch.last-b.batch.first + 1 = (b.batch.records.map Record.counted).sum := by
  obtain ⟨batch,history,first,raw,digest,h⟩ := b
  unfold PhysicalBatch.decode at h
  obtain ⟨-,-,h⟩ := bind_eq_ok.mp h
  obtain ⟨⟨count,records⟩,hv,h⟩ := bind_eq_ok.mp h
  simp only at h
  split at h
  next => cases h
  next =>
    split at h
    next => cases h
    next =>
      split at h
      next => cases h
      next =>
        cases h
        have hrc : (⟨history,first,first+(count-1),sha256 raw,raw⟩ : PhysicalBatch).records = records := by
          simp only [PhysicalBatch.records,hv]
        unfold validateRawBatch at hv
        split at hv
        next => cases hv
        next =>
          simp only at hv
          split at hv
          next => cases hv
          next hc =>
            obtain ⟨read,hr,hp⟩ := bind_eq_ok.mp hv
            cases hp
            have hs := readRecords_counted hr
            rw [hrc]
            simp only
            omega

variable {start : Nat} {batches : List PhysicalBatch} {through : Nat}
variable {batch : PhysicalBatch}

theorem contiguous_append
    (h : Contiguous start batches through) (hf : batch.first = through+1) (hle : batch.first ≤ batch.last) :
    Contiguous start (batches ++ [batch]) batch.last := by
  induction batches generalizing start with
  | nil =>
    rw [Contiguous] at h
    subst h
    exact ⟨hf,hle,rfl⟩
  | cons first rest ih => exact ⟨h.1,h.2.1,ih h.2.2⟩

theorem contiguous_mem (h : Contiguous start batches through) :
    start ≤ through ∧ ∀ batch ∈ batches, start < batch.first ∧ batch.first ≤ batch.last ∧ batch.last ≤ through := by
  induction batches generalizing start with
  | nil =>
    rw [Contiguous] at h
    exact ⟨Nat.le_of_eq h.symm,nofun⟩
  | cons first rest ih =>
    obtain ⟨hf,hle,hrest⟩ := h
    obtain ⟨hth,hm⟩ := ih hrest
    refine ⟨by omega,fun batch hb => ?_⟩
    rcases mem_cons.mp hb with rfl | hin
    · exact ⟨by omega,hle,hth⟩
    · obtain ⟨h1,h2,h3⟩ := hm batch hin
      exact ⟨by omega,h2,h3⟩

theorem contiguous_split {before after : List PhysicalBatch} (h : Contiguous start (before ++ after) through) :
    ∃ middle, Contiguous start before middle ∧ Contiguous middle after through := by
  induction before generalizing start with
  | nil => exact ⟨start,rfl,h⟩
  | cons first rest ih =>
    obtain ⟨middle,hb,ha⟩ := ih h.2.2
    exact ⟨middle,⟨h.1,h.2.1,hb⟩,ha⟩

theorem contiguous_unique {through' : Nat} (h : Contiguous start batches through)
    (h' : Contiguous start batches through') : through = through' := by
  induction batches generalizing start with
  | nil =>
    rw [Contiguous] at h h'
    rw [h,h']
  | cons first rest ih => exact ih h.2.2 h'.2.2

theorem applied_next {middle : Nat} {source applied : List PhysicalBatch}
    (hsr : Contiguous start source through) (hap : Contiguous start applied middle) (hs : applied <+: source)
    (hm : batch ∈ source) (hf : batch.first = middle+1) : applied ++ [batch] <+: source := by
  obtain ⟨rest,rfl⟩ := hs
  obtain ⟨middle',hb,ha⟩ := contiguous_split hsr
  cases contiguous_unique hap hb
  rcases mem_append.mp hm with hold | hnew
  · obtain ⟨-,hle,hls⟩ := (contiguous_mem hb).2 batch hold
    omega
  cases rest with
  | nil => cases hnew
  | cons next rest =>
    rcases mem_cons.mp hnew with rfl | hl
    · exact ⟨rest,by simp⟩
    · obtain ⟨hn,hle,hrest⟩ := ha
      obtain ⟨hlt,-,-⟩ := (contiguous_mem hrest).2 batch hl
      omega

section
variable {json : CursorJson} {sha256 : Bytes → Bytes}

theorem apply_cases (r : StagedPhysicalReplica) (batch : PhysicalBatch) (outcome : WriteOutcome) :
    (∃ poisoned result, r.apply json batch outcome = ({ r with poisoned := poisoned },result) ∧ writes result outcome = false ∧
      (poisoned = false → r.poisoned = false)) ∨
    (r.poisoned = false ∧ r.db.latestSequenceNumber = r.cursor.localSequence ∧ batch.history = r.cursor.history ∧
      batch.first = r.cursor.sourceSequence+1 ∧
      ∃ cursor : PhysicalCursor, ∃ poisoned result, cursor = advance r.cursor batch ∧
        r.apply json batch outcome =
          (⟨importBatch json r.db batch cursor,if poisoned then r.cursor else cursor,poisoned⟩,result) ∧
        writes result outcome = true) := by
  unfold apply
  by_cases hp : r.poisoned = true
  · rw [if_pos hp]
    exact .inl ⟨r.poisoned,_,rfl,rfl,fun h => h⟩
  rw [if_neg hp]
  have hc : r.poisoned = false := Bool.eq_false_iff.mpr hp
  split
  next => exact .inl ⟨true,_,rfl,rfl,nofun⟩
  next hl =>
    split
    next => exact .inl ⟨r.poisoned,_,rfl,rfl,fun h => h⟩
    next hh =>
      split
      next => exact .inl ⟨r.poisoned,_,rfl,rfl,fun h => h⟩
      next =>
        split
        next => exact .inl ⟨r.poisoned,_,rfl,rfl,fun h => h⟩
        next hf =>
          rw [not_not] at hl hh hf
          split
          next error he =>
            refine .inl ⟨r.poisoned,_,rfl,?_,fun h => h⟩
            unfold checkLocalAdvance at he
            split at he
            next =>
              cases he
              rfl
            next => cases he
          next =>
            cases outcome with
            | written => exact .inr ⟨hc,hl,hh,hf,_,false,_,rfl,rfl,rfl⟩
            | lost => exact .inl ⟨true,_,rfl,rfl,nofun⟩
            | stored => exact .inr ⟨hc,hl,hh,hf,_,true,_,rfl,rfl,rfl⟩

variable {checkpoint : Db} {history : Uuid} {w : ReplicaWorld}
variable {rows' : Store} {key : Key} {rows : Store} {r : StagedPhysicalReplica}

theorem lookup_apply_congr (h : rows'.lookup key = rows.lookup key) (record : Record) :
    (record.apply rows').lookup key = (record.apply rows).lookup key := by
  cases record with
  | put k value => simp only [Record.apply,Map.lookup_insert_ite,h]
  | delete k => simp only [Record.apply,Map.lookup_erase_ite,h]
  | logData => exact h
  | deleteRange first last => simp only [Record.apply,Map.lookup_retain,h]

theorem lookup_records_congr (h : rows'.lookup key = rows.lookup key) (records : List Record) :
    (records.foldl Record.apply rows').lookup key = (records.foldl Record.apply rows).lookup key := by
  induction records generalizing rows rows' with
  | nil => exact h
  | cons record rest ih => exact ih (lookup_apply_congr h record)

theorem ExactPrefix.apply (h : ExactPrefix json checkpoint history w) (hr : w.staging = .running r)
    (batch : DecodedBatch sha256) (outcome : WriteOutcome) :
    ExactPrefix json checkpoint history (w.step json (.apply batch outcome)) := by
  obtain ⟨cursor,hst,hh,hl,hs,hct,hm⟩ := h.durable
  have hrw := h.rows
  rw [hr] at hst hl hrw
  have hsp : w.step json (.apply batch outcome) = ⟨.running (r.apply json batch.batch outcome).1,
      if writes (r.apply json batch.batch outcome).2 outcome then w.applied ++ [batch.batch] else w.applied⟩ := by
    simp only [ReplicaWorld.step,hr]
  rw [hsp]
  rcases @apply_cases json r batch.batch outcome with
    ⟨poisoned,result,heq,hno,hc⟩ | ⟨hc,hlt,-,hf,cursor',poisoned,result,hc',heq,hy⟩
  · rw [heq]
    simp only [hno,Bool.false_eq_true,if_false]
    refine ⟨hrw,cursor,hst,hh,hl,hs,hct,fun r' hr' hn => ?_⟩
    cases hr'
    exact hm r hr (hc hn)
  · rw [heq]
    simp only [hy,if_true]
    have hsame : r.cursor = cursor := hm r hr hc
    rw [hsame] at hf hc'
    obtain ⟨hle,hcn⟩ := batch.sequences
    refine ⟨fun key hkey => ?_,cursor',?_,?_,?_,?_,?_,fun r' hr' hn => ?_⟩
    · change ((batch.batch.records.foldl Record.apply r.db.rows).insert cursorKey _).lookup key =
        (replay checkpoint.rows (w.applied ++ [batch.batch])).lookup key
      rw [Map.lookup_insert_ite,if_neg hkey,replay,foldl_append,foldl_cons,foldl_nil]
      exact lookup_records_congr (hrw key hkey) batch.batch.records
    · exact lookup_insert _
    · rw [hc']
      exact hh
    · rw [hc']
      change cursor.localSequence + (batch.batch.last-batch.batch.first + 2) =
        r.db.latestSequenceNumber + (batch.batch.records.map Record.counted).sum + 1
      rw [hl]
      change r.db.latestSequenceNumber + _ = _
      omega
    · rw [hc']
      exact hs
    · rw [hc']
      exact contiguous_append hct hf hle
    · cases hr'
      change poisoned = false at hn
      rw [hn]
      rfl

theorem ExactPrefix.step (hj : json.Faithful) (h : ExactPrefix json checkpoint history w) (e : ReplicaEvent sha256) :
    ExactPrefix json checkpoint history (w.step json e) := by
  cases e with
  | apply batch outcome =>
    cases hr : w.staging with
    | running r => exact h.apply hr batch outcome
    | closed db =>
      have hs : w.step json (.apply batch outcome) = w := by simp only [ReplicaWorld.step,hr]
      rw [hs]
      exact h
  | close =>
    cases hr : w.staging with
    | closed db =>
      have hs : w.step json (.close : ReplicaEvent sha256) = w := by simp only [ReplicaWorld.step,hr]
      rw [hs]
      exact h
    | running r =>
      have hs : w.step json (.close : ReplicaEvent sha256) = { w with staging := .closed r.db } := by
        simp only [ReplicaWorld.step,hr]
      rw [hs]
      obtain ⟨cursor,hst,hh,hl,hsn,hct,-⟩ := h.durable
      have hrw := h.rows
      rw [hr] at hst hl hrw
      exact ⟨hrw,cursor,hst,hh,hl,hsn,hct,nofun⟩
  | resume requested =>
    cases hr : w.staging with
    | running r =>
      have hs : w.step json (.resume requested : ReplicaEvent sha256) = w := by simp only [ReplicaWorld.step,hr]
      rw [hs]
      exact h
    | closed db =>
      cases hrs : resume json db requested with
      | error error =>
        have hs : w.step json (.resume requested : ReplicaEvent sha256) = w := by simp only [ReplicaWorld.step,hr,hrs]
        rw [hs]
        exact h
      | ok r =>
        have hs : w.step json (.resume requested : ReplicaEvent sha256) = { w with staging := .running r } := by
          simp only [ReplicaWorld.step,hr,hrs]
        rw [hs]
        obtain ⟨cursor,hst,hh,hl,hsn,hct,-⟩ := h.durable
        have hrw := h.rows
        rw [hr] at hst hl hrw
        change db.rows.lookup cursorKey = some (json.toVec cursor) at hst
        -- the cursor that was read is the one that was written
        have hrd : r.db = db ∧ r.cursor = cursor := by
          unfold resume at hrs
          obtain ⟨read,hc,hrs⟩ := bind_eq_ok.mp hrs
          unfold readCursor at hc
          simp only [hst] at hc
          split at hc
          next => cases hc
          next =>
            split at hc
            next => cases hc
            next found hf =>
              obtain ⟨-,-,hc⟩ := bind_eq_ok.mp hc
              split at hc
              next => cases hc
              next =>
                cases hc
                split at hrs
                next => cases hrs
                next =>
                  cases hrs
                  exact ⟨rfl,hj _ _ hf⟩
        obtain ⟨rfl,hc⟩ := hrd
        refine ⟨hrw,cursor,hst,hh,hl,hsn,hct,fun r' hr' _ => ?_⟩
        cases hr'
        exact hc

/-- Batches of the receiver's history that follow its cursor are the source's. All others are
whatever they are. -/
def FromSource (source : List PhysicalBatch) (w : ReplicaWorld) : ReplicaEvent sha256 → Prop
  | .apply batch _ => ∀ r, w.staging = .running r → batch.batch.history = r.cursor.history →
      batch.batch.first = r.cursor.sourceSequence+1 → batch.batch ∈ source
  | _ => True

theorem ExactPrefix.applied_step {source : List PhysicalBatch} {through : Nat}
    (hsr : Contiguous checkpoint.latestSequenceNumber source through) (h : ExactPrefix json checkpoint history w)
    (hs : w.applied <+: source) (e : ReplicaEvent sha256) (he : FromSource source w e) :
    (w.step json e).applied <+: source := by
  cases e with
  | apply batch outcome =>
    cases hr : w.staging with
    | closed db =>
      simp only [ReplicaWorld.step,hr]
      exact hs
    | running r =>
      simp only [ReplicaWorld.step,hr]
      rcases @apply_cases json r batch.batch outcome with
        ⟨poisoned,result,heq,hno,-⟩ | ⟨hcl,-,hh,hf,cursor',poisoned,result,-,heq,hy⟩
      · rw [heq]
        simp only [hno,Bool.false_eq_true,if_false]
        exact hs
      · rw [heq]
        simp only [hy,if_true]
        obtain ⟨cursor,-,-,-,-,hc,hm⟩ := h.durable
        rw [← hm r hr hcl] at hc
        exact applied_next hsr hc hs (he r hr hh hf) hf
  | close =>
    cases hr : w.staging <;> simp only [ReplicaWorld.step,hr] <;> exact hs
  | resume requested =>
    cases hr : w.staging with
    | running r =>
      simp only [ReplicaWorld.step,hr]
      exact hs
    | closed db =>
      cases hrs : resume json db requested <;> simp only [ReplicaWorld.step,hr,hrs] <;>
        exact hs

theorem exactPrefix_start {sequence : Nat} (h : fromCheckpoint json checkpoint history sequence = .ok r) :
    ExactPrefix json checkpoint history ⟨.running r,[]⟩ := by
  unfold fromCheckpoint at h
  obtain ⟨-,-,h⟩ := bind_eq_ok.mp h
  split at h
  next => cases h
  next hc =>
    rw [not_or,not_not] at hc
    obtain ⟨-,-,h⟩ := bind_eq_ok.mp h
    obtain ⟨-,-,h⟩ := bind_eq_ok.mp h
    cases h
    refine ⟨fun key hkey => ?_,_,lookup_insert _,rfl,?_,hc.1.symm,hc.1.symm,fun r' hr' _ => ?_⟩
    · exact lookup_insert_ne hkey
    · change sequence + 1 = checkpoint.latestSequenceNumber+1
      rw [hc.1]
    · cases hr'
      rfl

end

/-- In every state of every run the store is the checkpoint with the batches that were accepted, which
follow one another up to the cursor; a refusal changes nothing; and the batches are a prefix of the
source's when those that follow the cursor are the source's. -/
theorem physical_replica {json : CursorJson} (hjson : json.Faithful) {sha256 : Bytes → Bytes} {checkpoint : Db} {history : Uuid}
    {sequence : Nat} {r : StagedPhysicalReplica}
    (hstart : StagedPhysicalReplica.fromCheckpoint json checkpoint history sequence = .ok r)
    (events : List (ReplicaEvent sha256)) {w : ReplicaWorld} (hw : w = run (ReplicaWorld.step json) ⟨.running r,[]⟩ events) :
    ExactPrefix json checkpoint history w ∧ (∀ receiver batch outcome, w.staging = .running receiver →
      (receiver.apply json batch outcome).2 ≠ .ok true → (receiver.apply json batch outcome).2 ≠ .error .storage →
      (receiver.apply json batch outcome).1.db = receiver.db ∧ (receiver.apply json batch outcome).1.cursor = receiver.cursor) ∧
    ∀ source through, Contiguous checkpoint.latestSequenceNumber source through →
      Guarded (ReplicaWorld.step json) (FromSource source) ⟨.running r,[]⟩ events → w.applied <+: source := by
  have hinit := exactPrefix_start hstart
  subst hw
  refine ⟨?_,fun receiver batch outcome _ hok hstorage => ?_,fun source through hsource hguarded => ?_⟩
  · exact run_invariant (ReplicaWorld.step json) (ExactPrefix json checkpoint history) (fun w e h => h.step hjson e) hinit events
  · rcases @apply_cases json receiver batch outcome with ⟨poisoned,result,heq,-,-⟩ | ⟨-,-,-,-,cursor,poisoned,result,-,heq,hyes⟩
    · rw [heq]
      exact ⟨rfl,rfl⟩
    rw [heq] at hok hstorage
    simp only [writes,Bool.or_eq_true,Bool.and_eq_true,decide_eq_true_eq] at hyes
    rcases hyes with hyes | ⟨hyes,-⟩
    · exact absurd hyes hok
    · exact absurd hyes hstorage
  · have hrun := guarded_run_invariant (ReplicaWorld.step json)
      (fun w => ExactPrefix json checkpoint history w ∧ w.applied <+: source)
      (fun w e h he => ⟨h.1.step hjson e,h.1.applied_step hsource h.2 e he⟩) ⟨hinit, nil_prefix⟩ hguarded
    exact hrun.2

/-! A run. The first batch of a source writes `k`; another batch with the same sequence number writes
another value. -/

def rawBatch (value : Byte) : Bytes := [1,0,0,0,0,0,0,0,1,0,0,0,1,1,107,1,value]

def firstDigest : Bytes := [122,51,62,141,211,229,131,106,236,189,78,61,177,213,21,93,21,142,44,208,55,222,215,62,28,147,
  191,142,221,65,72,253]

def otherDigest : Bytes := [149,115,6,182,133,140,113,177,40,209,31,114,108,9,145,201,231,221,242,55,117,68,225,17,64,144,
  146,250,8,239,71,121]

def sha256Sample (raw : Bytes) : Bytes :=
  if raw = rawBatch 118 then firstDigest else if raw = rawBatch 119 then otherDigest else []

def firstBatch : DecodedBatch sha256Sample where
  batch := ⟨1,1,1,firstDigest,rawBatch 118⟩
  decoded := ⟨1,1,rawBatch 118,firstDigest,by decide +kernel⟩

def otherBatch : DecodedBatch sha256Sample where
  batch := ⟨1,1,1,otherDigest,rawBatch 119⟩
  decoded := ⟨1,1,rawBatch 119,otherDigest,by decide +kernel⟩

def startCursor : PhysicalCursor := ⟨1,1,0,0,1,none,none⟩

def firstCursor : PhysicalCursor := ⟨1,1,0,1,3,some 1,some firstDigest⟩

def startText : Bytes := ascii <| String.toList <|
  "\x7b\"format\":1,\"history\":\"00000000-0000-0000-0000-000000000001\",\"snapshot_sequence\":0,\"source_sequence\":0," ++
    "\"local_sequence\":1,\"last_first_sequence\":null,\"last_digest\":null\x7d"

def firstText : Bytes := ascii <| String.toList <|
  "\x7b\"format\":1,\"history\":\"00000000-0000-0000-0000-000000000001\",\"snapshot_sequence\":0,\"source_sequence\":1," ++
    "\"local_sequence\":3,\"last_first_sequence\":1,\"last_digest\":[122,51,62,141,211,229,131,106,236,189,78,61,177,213,21,93," ++
    "21,142,44,208,55,222,215,62,28,147,191,142,221,65,72,253]\x7d"

def sampleJson : CursorJson where
  toVec c := if c = startCursor then startText else if c = firstCursor then firstText else []
  fromSlice bytes := if bytes = startText then some startCursor else if bytes = firstText then some firstCursor else none

theorem sampleText_differ : firstText ≠ startText ∧ ([] : Bytes) ≠ startText ∧ ([] : Bytes) ≠ firstText := by
  unfold firstText startText
  -- the literals are opened as lists, which are cheap to compute with
  simp only [String.toList_append]
  repeat rw [String.toList_ofList]
  decide +kernel

theorem sampleJson_faithful : sampleJson.Faithful := by
  intro c c' h
  obtain ⟨hd,hs,hf⟩ := sampleText_differ
  simp only [sampleJson] at h
  by_cases hc : c = startCursor
  · rw [if_pos hc,if_pos rfl] at h
    rw [hc,Option.some.inj h]
  rw [if_neg hc] at h
  by_cases hc' : c = firstCursor
  · rw [if_pos hc',if_neg hd,if_pos rfl] at h
    rw [hc',Option.some.inj h]
  · rw [if_neg hc',if_neg hs,if_neg hf] at h
    cases h

def sampleStart : StagedPhysicalReplica :=
  ⟨⟨(∅ : Store).insert cursorKey (sampleJson.toVec startCursor),1⟩,startCursor,false⟩

/-- The batch comes twice, the receiver is opened again, and the other batch is refused. -/
theorem physical_replica_resumed : ∃ w : ReplicaWorld, w = run (ReplicaWorld.step sampleJson) ⟨.running sampleStart,[]⟩
      [.apply firstBatch .written,.apply firstBatch .written,.close,.resume 1,.apply otherBatch .written] ∧
    ExactPrefix sampleJson ⟨∅,0⟩ 1 w ∧ w.applied = [firstBatch.batch] := by
  refine ⟨_,rfl,?_,?_⟩
  · exact (physical_replica sampleJson_faithful (show StagedPhysicalReplica.fromCheckpoint sampleJson ⟨∅,0⟩ 1 0 = .ok sampleStart
      from rfl) _ rfl).1
  · unfold sampleStart sampleJson firstText startText
    simp only [String.toList_append]
    repeat rw [String.toList_ofList]
    decide +kernel

/-- The other batch comes first: it is applied, and the store is no prefix of the source. -/
theorem physical_replica_differs : ∃ w : ReplicaWorld,
    w = run (ReplicaWorld.step sampleJson) ⟨.running sampleStart,[]⟩ [.apply otherBatch .written] ∧
    StagedPhysicalReplica.fromCheckpoint sampleJson ⟨∅,0⟩ 1 0 = .ok sampleStart ∧ Contiguous 0 [firstBatch.batch] 1 ∧
    ∀ batches, batches <+: [firstBatch.batch] → w.staging.db.rows.lookup [107] ≠ (replay ∅ batches).lookup [107] := by
  refine ⟨_,rfl,rfl,⟨rfl,by decide,rfl⟩,fun batches hbatches => ?_⟩
  rcases prefix_cons_iff.mp hbatches with rfl | ⟨rest,rfl,hrest⟩
  · decide +kernel
  · rw [prefix_nil.mp hrest]
    decide +kernel

end HeliosNano.Replication
