import HeliosNano.Foundation.Maps
import HeliosNano.Foundation.Runs
import Mathlib.Data.List.Range

/-! The LSN counter across a crash: the appenders, the group-commit thread and the checkpoints each
write one batch to the store, and the counter is recovered from the marker the last of them left. -/
namespace HeliosNano.Storage.Wal
open Foundation List AList

/-- The `wal:` keys of the store: an entry under its LSN, `wal:last_lsn` and `wal:checkpoint`. -/
structure WalStore (Op : Type) where
  entries : Map Nat Op
  lastLsn : Option Nat
  checkpoint : Option Nat

/-- The value read under `wal:last_lsn`; a failed read counts from 0. -/
def recoverLastLsn : Except String (Option Nat) → Nat
  | .ok (some lsn) => lsn
  | .ok none => 0
  | .error _ => 0

/-- A batch of sealed entries and the LSN it stores under `wal:last_lsn`. -/
structure WalBatch (Op : Type) where
  entries : List (Nat × Op)
  last : Nat

/-- `truncate_to_checkpoint` between its scan, its read of `wal:last_lsn` and its write. -/
structure Truncation where
  upTo : Nat
  deleted : List Nat
  durableLast : Option Nat

namespace WalStore
variable {Op : Type}

def empty : WalStore Op := ⟨∅,none,none⟩

def write (store : WalStore Op) (batch : WalBatch Op) : WalStore Op :=
  { store with
    entries := batch.entries.foldl (fun m entry => m.insert entry.1 entry.2) store.entries
    lastLsn := some batch.last }

def writeCheckpoint (store : WalStore Op) (upTo : Nat) (deleted : List Nat) (durableLast : Nat) : WalStore Op where
  entries := store.entries.retain fun lsn _ => decide (lsn ∉ deleted)
  lastLsn := if durableLast < upTo then some upTo else store.lastLsn
  checkpoint := some upTo

def recovered (store : WalStore Op) : Nat := recoverLastLsn (.ok store.lastLsn)

/-- No LSN the next session hands out is retained or below the checkpoint. -/
structure Recoverable (store : WalStore Op) : Prop where
  entries : ∀ lsn ∈ store.entries, lsn ≤ store.recovered
  checkpoint : ∀ lsn, store.checkpoint = some lsn → lsn ≤ store.recovered

end WalStore

/-- The counter, the store, and the work the threads have begun: batches whose LSNs are reserved,
group-commit entries before the queue, in it and drained from it, and checkpoints. -/
structure WalState (Op : Type) where
  current : Nat
  store : WalStore Op
  staged : List (WalBatch Op)
  arriving : List (Nat × Op)
  queue : List (Nat × Op)
  flushing : Option (WalBatch Op)
  truncations : List Truncation

/-- One atomic step of some thread. `append` and `append_nosync` stage one operation; the index
says whose batch, entry or checkpoint goes on. -/
inductive WalStep (Op : Type)
  | stage (operations : List Op)
  | write (i : Nat)
  | abandon (i : Nat)
  | appendGroupCommit (operation : Op)
  | enqueue (i : Nat)
  | drain (sealingFailed : List Nat)
  | flush (ok : Bool)
  | incrementLsn
  | scan (upTo : Nat)
  | readLast (i : Nat) (ok : Bool)
  | checkpoint (i : Nat) (ok : Bool)
  | crash

namespace WalState
variable {Op : Type}

def opened (store : WalStore Op) : WalState Op := ⟨store.recovered,store,[],[],[],none,[]⟩

def stagedBatch (current : Nat) (operations : List Op) : WalBatch Op :=
  ⟨(List.range' (current+1) operations.length).zip operations,current+operations.length⟩

/-- The batch of the group-commit thread: an entry whose sealing failed still counts for the marker. -/
def groupBatch (pending : List (Nat × Op)) (sealingFailed : List Nat) : WalBatch Op :=
  ⟨pending.filter fun write => decide (write.1 ∉ sealingFailed),pending.foldl (fun last write => max last write.1) 0⟩

def step (s : WalState Op) : WalStep Op → WalState Op
  | .stage [] => s
  | .stage operations =>
    { s with current := s.current+operations.length, staged := s.staged ++ [stagedBatch s.current operations] }
  | .write i =>
    match s.staged[i]? with
    | none => s
    | some batch => { s with store := s.store.write batch, staged := s.staged.eraseIdx i }
  | .abandon i => { s with staged := s.staged.eraseIdx i }
  | .appendGroupCommit operation =>
    { s with current := s.current+1, arriving := s.arriving ++ [(s.current+1,operation)] }
  | .enqueue i =>
    match s.arriving[i]? with
    | none => s
    | some entry => { s with arriving := s.arriving.eraseIdx i, queue := s.queue ++ [entry] }
  | .drain sealingFailed =>
    -- one thread drains: it finishes a batch before it takes the next
    if s.queue.isEmpty ∨ s.flushing.isSome then s
    else { s with queue := [], flushing := some (groupBatch s.queue sealingFailed) }
  | .flush ok =>
    match s.flushing with
    | none => s
    | some batch => { s with store := if ok then s.store.write batch else s.store, flushing := none }
  | .incrementLsn => { s with current := s.current+1 }
  | .scan upTo =>
    { s with truncations := s.truncations ++ [⟨upTo,s.store.entries.keys.filter fun lsn => decide (lsn ≤ upTo),none⟩] }
  | .readLast i ok =>
    let read := if ok then .ok s.store.lastLsn else .error "io"
    { s with truncations := s.truncations.modify i fun t => { t with durableLast := some (recoverLastLsn read) } }
  | .checkpoint i ok =>
    match s.truncations[i]? with
    | some ⟨upTo,deleted,some durableLast⟩ =>
      { s with
        store := if ok then s.store.writeCheckpoint upTo deleted durableLast else s.store
        truncations := s.truncations.eraseIdx i }
    | _ => s
  | .crash => opened s.store

/-- Nothing in the store is above the marker that the batch stores. -/
def Covers (store : WalStore Op) (last : Nat) : Prop :=
  (∀ lsn ∈ store.entries, lsn ≤ last) ∧ ∀ lsn, store.checkpoint = some lsn → lsn ≤ last

/-- A batch reaches the store while nothing in it is above the marker it stores, and a checkpoint
that found the marker high enough finds it so still. -/
def InOrder (s : WalState Op) : WalStep Op → Prop
  | .write i => ∀ batch, s.staged[i]? = some batch → Covers s.store batch.last
  | .flush true => ∀ batch, s.flushing = some batch → Covers s.store batch.last
  | .checkpoint i true => ∀ upTo deleted durableLast, s.truncations[i]? = some ⟨upTo,deleted,some durableLast⟩ →
      if durableLast < upTo then ∀ lsn ∈ s.store.entries, lsn ≤ upTo else upTo ≤ s.store.recovered
  | _ => True

/-- The batches of the threads store the highest of their LSNs. -/
structure Prepared (s : WalState Op) : Prop where
  staged : ∀ batch ∈ s.staged, ∀ entry ∈ batch.entries, entry.1 ≤ batch.last
  flushing : ∀ batch, s.flushing = some batch → ∀ entry ∈ batch.entries, entry.1 ≤ batch.last
  truncations : ∀ t ∈ s.truncations, ∀ lsn ∈ t.deleted, lsn ≤ t.upTo

variable {s : WalState Op} {store : WalStore Op} {deleted : List Nat} {upTo durableLast : Nat}

theorem Prepared.transfer {s' : WalState Op} (h : Prepared s)
    (hs : ∀ batch ∈ s'.staged, batch ∈ s.staged ∨ ∀ entry ∈ batch.entries, entry.1 ≤ batch.last)
    (hf : ∀ batch, s'.flushing = some batch → s.flushing = some batch ∨ ∀ entry ∈ batch.entries, entry.1 ≤ batch.last)
    (htr : ∀ t ∈ s'.truncations, (∃ t' ∈ s.truncations, t'.upTo = t.upTo ∧ t'.deleted = t.deleted) ∨
      ∀ lsn ∈ t.deleted, lsn ≤ t.upTo) : Prepared s' where
  staged batch hbatch := (hs batch hbatch).elim (h.staged batch) id
  flushing batch hbatch := (hf batch hbatch).elim (h.flushing batch) id
  truncations t ht := by
    rcases htr t ht with ⟨t',ht',hu,hd⟩ | hnew
    · rw [← hu,← hd]
      exact h.truncations t' ht'
    · exact hnew

theorem stagedBatch_le (current : Nat) (operations : List Op) :
    ∀ entry ∈ (stagedBatch current operations).entries, entry.1 ≤ (stagedBatch current operations).last := by
  intro entry he
  have hl := (of_mem_zip he).1
  have := (mem_range'_1.mp hl).2
  change entry.1 ≤ current+operations.length
  omega

theorem le_foldl_max (pending : List (Nat × Op)) (last : Nat) : last ≤ pending.foldl (fun last write => max last write.1) last ∧
      ∀ write ∈ pending, write.1 ≤ pending.foldl (fun last write => max last write.1) last := by
  induction pending generalizing last with
  | nil => exact ⟨le_rfl,nofun⟩
  | cons first rest ih =>
    obtain ⟨hl,hrest⟩ := ih (max last first.1)
    refine ⟨Nat.le_trans (Nat.le_max_left _ _) hl,fun write hwr => ?_⟩
    rcases mem_cons.mp hwr with rfl | hm
    · exact Nat.le_trans (Nat.le_max_right _ _) hl
    · exact hrest write hm

theorem groupBatch_le (pending : List (Nat × Op)) (sealingFailed : List Nat) :
    ∀ entry ∈ (groupBatch pending sealingFailed).entries, entry.1 ≤ (groupBatch pending sealingFailed).last :=
  fun entry he => (le_foldl_max pending 0).2 entry (mem_of_mem_filter he)

theorem Prepared.step {s : WalState Op} (h : Prepared s) (a : WalStep Op) : Prepared (s.step a) := by
  cases a with
  | stage operations =>
    cases operations with
    | nil => exact h
    | cons first rest =>
      refine h.transfer (fun batch hbt => ?_) (fun batch hbt => .inl hbt) (fun t ht => .inl ⟨t,ht,rfl,rfl⟩)
      rcases mem_append.mp hbt with hold | hnew
      · exact .inl hold
      · rw [mem_singleton.mp hnew]
        exact .inr (stagedBatch_le _ _)
  | write i =>
    simp only [WalState.step]
    split
    next => exact h
    next batch _ =>
      exact h.transfer (fun _ hb => .inl (mem_of_mem_eraseIdx hb)) (fun _ hb => .inl hb) (fun t ht => .inl ⟨t,ht,rfl,rfl⟩)
  | abandon i =>
    exact h.transfer (fun _ hb => .inl (mem_of_mem_eraseIdx hb)) (fun _ hb => .inl hb) (fun t ht => .inl ⟨t,ht,rfl,rfl⟩)
  | appendGroupCommit operation | incrementLsn => exact ⟨h.staged,h.flushing,h.truncations⟩
  | enqueue i =>
    simp only [WalState.step]
    split
    next => exact h
    next => exact ⟨h.staged,h.flushing,h.truncations⟩
  | drain sealingFailed =>
    simp only [WalState.step]
    split
    next => exact h
    next =>
      refine h.transfer (fun _ hb => .inl hb) (fun batch hbt => .inr ?_) (fun t ht => .inl ⟨t,ht,rfl,rfl⟩)
      rw [← Option.some.inj hbt]
      exact groupBatch_le _ _
  | flush ok =>
    simp only [WalState.step]
    split
    next => exact h
    next => exact h.transfer (fun _ hb => .inl hb) nofun (fun t ht => .inl ⟨t,ht,rfl,rfl⟩)
  | scan upTo =>
    refine h.transfer (fun _ hb => .inl hb) (fun _ hb => .inl hb) (fun t ht => ?_)
    rcases mem_append.mp ht with hold | hnew
    · exact .inl ⟨t,hold,rfl,rfl⟩
    · rw [mem_singleton.mp hnew]
      exact .inr fun lsn hl => of_decide_eq_true (mem_filter.mp hl).2
  | readLast i ok =>
    refine h.transfer (fun _ hb => .inl hb) (fun _ hb => .inl hb) (fun t ht => .inl ?_)
    obtain ⟨j,hj⟩ := mem_iff_getElem?.mp ht
    simp only [WalState.step] at hj
    rw [getElem?_modify] at hj
    obtain ⟨t',ht',rfl⟩ := Option.map_eq_some_iff.mp hj
    refine ⟨t',mem_of_getElem? ht',?_⟩
    split <;> exact ⟨rfl,rfl⟩
  | checkpoint i ok =>
    simp only [WalState.step]
    split
    next => exact h.transfer (fun _ hb => .inl hb) (fun _ hb => .inl hb) (fun t ht => .inl ⟨t,mem_of_mem_eraseIdx ht,rfl,rfl⟩)
    next => exact h
  | crash => exact ⟨fun _ hb => (by cases hb),fun _ hb => (by cases hb),fun _ ht => (by cases ht)⟩

theorem recoverable_write {batch : WalBatch Op} (h : ∀ entry ∈ batch.entries, entry.1 ≤ batch.last) :
    (store.write batch).Recoverable ↔ Covers store batch.last := by
  have hm : ∀ lsn, lsn ∈ (store.write batch).entries ↔ lsn ∈ store.entries ∨ lsn ∈ batch.entries.map (·.1) :=
    fun lsn => Map.mem_foldl_insert batch.entries store.entries lsn
  constructor
  · intro hr
    exact ⟨fun lsn hl => hr.entries lsn ((hm lsn).mpr (.inl hl)),hr.checkpoint⟩
  · rintro ⟨he,hc⟩
    refine ⟨fun lsn hl => ?_,hc⟩
    rcases (hm lsn).mp hl with hold | hnew
    · exact he lsn hold
    · obtain ⟨entry,hen,rfl⟩ := mem_map.mp hnew
      exact h entry hen

theorem mem_writeCheckpoint {lsn : Nat} :
    lsn ∈ (store.writeCheckpoint upTo deleted durableLast).entries ↔ lsn ∈ store.entries ∧ lsn ∉ deleted := by
  rw [← lookup_isSome,WalStore.writeCheckpoint,Map.lookup_retain,← lookup_isSome]
  cases store.entries.lookup lsn <;> simp

theorem recoverable_writeCheckpoint (hs : store.Recoverable) (h : ∀ lsn ∈ deleted, lsn ≤ upTo) :
    (store.writeCheckpoint upTo deleted durableLast).Recoverable ↔
      if durableLast < upTo then ∀ lsn ∈ store.entries, lsn ≤ upTo else upTo ≤ store.recovered := by
  have hrc : (store.writeCheckpoint upTo deleted durableLast).recovered =
      if durableLast < upTo then upTo else store.recovered := by
    rw [WalStore.recovered,WalStore.writeCheckpoint]
    split <;> rfl
  split
  next hlt =>
    rw [if_pos hlt] at hrc
    constructor
    · intro hr lsn hl
      by_cases hd : lsn ∈ deleted
      · exact h lsn hd
      · rw [← hrc]
        exact hr.entries lsn (mem_writeCheckpoint.mpr ⟨hl,hd⟩)
    · intro he
      refine ⟨fun lsn hl => ?_,fun lsn hl => ?_⟩
      · rw [hrc]
        exact he lsn (mem_writeCheckpoint.mp hl).1
      · rw [hrc,Option.some.inj hl]
  next hle =>
    rw [if_neg hle] at hrc
    constructor
    · intro hr
      rw [← hrc]
      exact hr.checkpoint upTo rfl
    · intro hu
      refine ⟨fun lsn hl => ?_,fun lsn hl => ?_⟩
      · rw [hrc]
        exact hs.entries lsn (mem_writeCheckpoint.mp hl).1
      · rw [hrc,← Option.some.inj hl]
        exact hu

theorem recoverable_step (hs : s.store.Recoverable) (h : Prepared s) (a : WalStep Op) :
    (s.step a).store.Recoverable ↔ InOrder s a := by
  have hu : ∀ {p : Prop}, p → (s.store.Recoverable ↔ p) := fun hp => iff_of_true hs hp
  cases a with
  | stage operations => cases operations <;> exact hu trivial
  | write i =>
    simp only [WalState.step,InOrder]
    cases hi : s.staged[i]? with
    | none => exact hu nofun
    | some batch =>
      rw [recoverable_write (h.staged batch (mem_of_getElem? hi))]
      exact ⟨fun hc _ hb => by cases hb; exact hc,fun hc => hc batch rfl⟩
  | abandon i | appendGroupCommit operation | incrementLsn | scan upTo | readLast i ok | crash => exact hu trivial
  | enqueue i | drain sealingFailed =>
    simp only [WalState.step]
    split <;> exact hu trivial
  | flush ok =>
    simp only [WalState.step]
    cases ok with
    | false => split <;> exact hu trivial
    | true =>
      simp only [InOrder]
      cases hb : s.flushing with
      | none => exact hu nofun
      | some batch =>
        simp only [if_true]
        rw [recoverable_write (h.flushing batch hb)]
        exact ⟨fun hc _ hb => by cases hb; exact hc,fun hc => hc batch rfl⟩
  | checkpoint i ok =>
    simp only [WalState.step]
    cases ok with
    | false => split <;> exact hu trivial
    | true =>
      simp only [InOrder]
      split
      next upTo deleted durableLast hi =>
        simp only [if_true]
        rw [recoverable_writeCheckpoint hs (h.truncations _ (mem_of_getElem? hi)),hi]
        constructor
        · intro hwr upTo' deleted' durableLast' heq
          cases heq
          exact hwr
        · exact fun hwr => hwr upTo deleted durableLast rfl
      next hn => exact hu fun upTo deleted durableLast heq => absurd heq (hn upTo deleted durableLast)

theorem recoverable_empty : (WalStore.empty : WalStore Op).Recoverable :=
  ⟨fun lsn hl => absurd hl (notMem_empty lsn),nofun⟩

end WalState

/-- Whichever step the log crashes after, the recovered counter covers the retained entries and the
checkpoint, exactly when every batch reached the store in order. -/
theorem recovered_lsn_covers {Op : Type} (steps : List (WalStep Op)) :
    (∀ n, (run WalState.step (.opened .empty) (steps.take n)).store.Recoverable) ↔
      Guarded WalState.step WalState.InOrder (.opened .empty) steps := by
  have hstart : (WalState.opened (WalStore.empty : WalStore Op)).store.Recoverable ∧
      (WalState.opened (WalStore.empty : WalStore Op)).Prepared :=
    ⟨WalState.recoverable_empty,fun _ hb => (by cases hb),fun _ hb => (by cases hb),fun _ ht => (by cases ht)⟩
  refine Iff.symm (guarded_iff_forall_take (P := fun s => s.store.Recoverable) WalState.step
    (fun s => s.store.Recoverable ∧ s.Prepared) ?_ ?_ ?_ hstart)
  · exact fun s hs => hs.1
  · exact fun s a hs ha => ⟨(WalState.recoverable_step hs.1 hs.2 a).mpr ha,hs.2.step a⟩
  · exact fun s a hs ha hr => ha ((WalState.recoverable_step hs.1 hs.2 a).mp hr)

/-- Two appenders reserve LSNs 1 and 2, and the second one writes first: the next session hands out
LSN 2 again. A checkpoint that saw the marker of LSN 2 is then recorded above the marker. -/
theorem recovered_lsn_reused :
    (∃ s, s = run WalState.step (.opened .empty) [.stage ["a"],.stage ["b"],.write 1,.write 0,.crash] ∧
      ¬s.store.Recoverable ∧ s.current = 1 ∧ 2 ∈ s.store.entries) ∧ ∃ s, s = run WalState.step (.opened .empty)
        [.stage ["a"],.stage ["b"],.write 1,.scan 2,.readLast 0 true,.write 0,.checkpoint 0 true] ∧
      ¬s.store.Recoverable ∧ s.store.recovered = 1 ∧ s.store.checkpoint = some 2 := by
  refine ⟨⟨_,rfl,fun h => ?_,rfl,by decide⟩,_,rfl,fun h => ?_,rfl,rfl⟩
  · exact absurd (h.entries 2 (by decide)) (by decide)
  · exact absurd (h.checkpoint 2 rfl) (by decide)

end HeliosNano.Storage.Wal
