import HeliosNano.Foundation.Runs
import HeliosNano.Storage.Conflict

/-! Runs of transactions over one conflict registry. Timestamps come from one clock;
a snapshot is taken, then registered behind the snapshot barrier; a commit timestamp
is drawn, and the validation call is made at any later time. -/
namespace HeliosNano.Storage.FirstCommitterWins
open Foundation List AList WriteConflictRegistry

inductive Phase
  | taken
  | registered
  | drawn (commitTs : Timestamp)
  | called (commitTs : Timestamp)
  | finished
deriving DecidableEq, Repr

structure Committer where
  validate : Bool
  snapshotTs : Timestamp
  writeSet : Map Key (Option Bytes)
  phase : Phase

structure Success where
  txn : TxnId
  validate : Bool
  snapshotTs : Timestamp
  commitTs : Timestamp
  keys : List Key
deriving DecidableEq, Repr

structure System where
  registry : WriteConflictRegistry
  clock : Timestamp
  committers : Map TxnId Committer
  log : List Success

def System.new : System := ⟨.new,0,∅,[]⟩

/-- Only a commit with a non-empty write set is announced, when its timestamp is
drawn, and it is in flight until it ends. -/
def Committer.inFlight (c : Committer) : Option Timestamp :=
  match c.phase with
  | .drawn ts | .called ts => if c.writeSet.keys = [] then none else some ts
  | _ => none

/-- The barrier lets a snapshot pass when no commit at or below it is in flight. -/
def System.barrierPasses (s : System) (snapshotTs : Timestamp) : Bool :=
  s.committers.entries.all fun entry => entry.2.inFlight.all fun ts => decide (snapshotTs < ts)

inductive Step
  | take (txn : TxnId) (validate : Bool)
  | register (txn : TxnId)
  | draw (txn : TxnId) (writeSet : Map Key (Option Bytes))
  | call (txn : TxnId)
  | finish (txn : TxnId)

def System.move (s : System) (txn : TxnId) (c : Committer) (phase : Phase) : System :=
  { s with committers := s.committers.insert txn { c with phase := phase } }

/-- A step that its transaction is not ready for does nothing. -/
def step (s : System) : Step → System
  | .take txn validate =>
    match s.committers.lookup txn with
    | some _ => s
    | none =>
      { s with
        clock := s.clock+1
        committers := s.committers.insert txn ⟨validate,s.clock+1,∅,.taken⟩ }
  | .register txn =>
    match s.committers.lookup txn with
    | some c =>
      if c.phase = .taken ∧ s.barrierPasses c.snapshotTs = true then
        { s.move txn c .registered with
          registry := if c.validate then s.registry.registerTxn txn c.snapshotTs else s.registry }
      else s
    | none => s
  | .draw txn writeSet =>
    match s.committers.lookup txn with
    | some c =>
      if c.phase = .registered then
        { s.move txn { c with writeSet := writeSet } (.drawn (s.clock+1)) with clock := s.clock+1 }
      else s
    | none => s
  | .call txn =>
    match s.committers.lookup txn with
    | some c =>
      match c.phase with
      | .drawn commitTs =>
        let out := s.registry.validateAndRecord c.writeSet c.validate c.snapshotTs commitTs
        { s.move txn c (.called commitTs) with
          registry := out.1
          log := match out.2 with
            | .ok _ => s.log ++ [⟨txn,c.validate,c.snapshotTs,commitTs,c.writeSet.keys⟩]
            | .error _ => s.log }
      | _ => s
    | none => s
  | .finish txn =>
    match s.committers.lookup txn with
    | some c =>
      match c.phase with
      | .registered | .called _ =>
        { s.move txn c .finished with
          registry := if c.validate then s.registry.deregisterTxn txn else s.registry }
      | _ => s
    | none => s

/-- No validating success comes after a success of another transaction at one of its
keys with a commit timestamp above its snapshot. -/
def System.FirstWins (s : System) : Prop :=
  s.log.Pairwise fun earlier later => later.validate = true → earlier.txn ≠ later.txn →
    ∀ k ∈ later.keys, k ∈ earlier.keys → earlier.commitTs ≤ later.snapshotTs

def System.Window (s : System) (snapshotTs : Timestamp) : Prop :=
  ∃ txn c, s.committers.lookup txn = some c ∧ c.validate = true ∧ c.phase = .taken ∧
    c.snapshotTs = snapshotTs

/-- A winning call keeps every record above the snapshot above it: without validation
it replaces no such record by a timestamp at or below the snapshot, and a due prune
drops none, its own records included. -/
def KeepsAbove (r : WriteConflictRegistry) (c : Committer) (commitTs snapshotTs : Timestamp) : Prop :=
  (c.validate = false → commitTs ≤ snapshotTs →
    ∀ k ∈ c.writeSet, ∀ ts, r.recentWrites.lookup k = some ts → ts ≤ snapshotTs) ∧
  (r.PruneDue → (snapshotTs < commitTs → r.minActive ≤ commitTs) ∧
    ∀ k, k ∉ c.writeSet → ∀ ts, r.recentWrites.lookup k = some ts → snapshotTs < ts → r.minActive ≤ ts)

/-- While a validating snapshot is taken and not yet registered, winning calls keep
the records above it. -/
def SafeCall (s : System) : Step → Prop
  | .call txn => ∀ c commitTs, s.committers.lookup txn = some c → c.phase = .drawn commitTs →
      c.writeSet.keys ≠ [] → ¬s.registry.Conflicts c.writeSet c.validate c.snapshotTs →
      ∀ snapshotTs, s.Window snapshotTs → KeepsAbove s.registry c commitTs snapshotTs
  | _ => True

/-- Registered, the call not yet made. -/
def Committer.Registered (c : Committer) : Prop := c.phase = .registered ∨ ∃ ts, c.phase = .drawn ts

/-- Every logged commit above the snapshot has a record above it at each of its keys. -/
def RecordsAbove (recent : Map Key Timestamp) (log : List Success) (snapshotTs : Timestamp) : Prop :=
  ∀ e ∈ log, ∀ k ∈ e.keys, snapshotTs < e.commitTs → ∃ ts, recent.lookup k = some ts ∧ snapshotTs < ts

structure Inv (s : System) : Prop where
  snapshots : ∀ txn c, s.committers.lookup txn = some c → c.snapshotTs ≤ s.clock
  drawn : ∀ txn c ts, s.committers.lookup txn = some c → c.phase = .drawn ts →
    c.snapshotTs < ts ∧ ts ≤ s.clock
  logged : ∀ e ∈ s.log, e.commitTs ≤ s.clock
  active : ∀ txn c, s.committers.lookup txn = some c → c.validate = true → c.Registered →
    s.registry.activeSnapshots.lookup txn = some c.snapshotTs
  behind : ∀ txn c other o ts, s.committers.lookup txn = some c → c.Registered →
    s.committers.lookup other = some o → o.phase = .drawn ts → o.writeSet.keys ≠ [] → c.snapshotTs < ts
  above : ∀ txn c, s.committers.lookup txn = some c → c.validate = true →
    c.phase = .taken ∨ c.Registered → RecordsAbove s.registry.recentWrites s.log c.snapshotTs
  wins : s.FirstWins

theorem inv_new : Inv System.new where
  snapshots := by simp [System.new]
  drawn := by simp [System.new]
  logged := by simp [System.new]
  active := by simp [System.new]
  behind := by simp [System.new]
  above := by simp [System.new]
  wins := List.Pairwise.nil

variable {snapshotTs : Timestamp} {txn : TxnId} {c : Committer} {s : System} {log : List Success}
variable {r : WriteConflictRegistry} {commitTs : Timestamp} {registry : WriteConflictRegistry}

theorem minActive_le (h : r.activeSnapshots.lookup txn = some snapshotTs) : r.minActive ≤ snapshotTs := by
  have hmm : snapshotTs ∈ r.activeSnapshots.entries.map (·.2) :=
    mem_map.mpr ⟨⟨txn,snapshotTs⟩,mem_lookup_iff.mp h,rfl⟩
  unfold minActive
  cases hm : (r.activeSnapshots.entries.map (·.2)).min? with
  | none => simp [min?_eq_none_iff.mp hm] at hmm
  | some ts => exact (min?_eq_some_iff.mp hm).2 snapshotTs hmm

theorem barrierPasses_drawn (h : s.barrierPasses snapshotTs = true) {ts : Timestamp} (hc : s.committers.lookup txn = some c)
    (hp : c.phase = .drawn ts) (hne : c.writeSet.keys ≠ []) : snapshotTs < ts := by
  have he := all_eq_true.mp h ⟨txn,c⟩ (mem_lookup_iff.mp hc)
  simpa [Committer.inFlight,hp,hne] using he

theorem recordsAbove_call (hw : ¬r.Conflicts c.writeSet c.validate c.snapshotTs)
    (hne : c.writeSet.keys ≠ []) (hd : c.snapshotTs < commitTs)
    (hkp : KeepsAbove r c commitTs snapshotTs) (h : RecordsAbove r.recentWrites log snapshotTs) (txn : TxnId) :
    RecordsAbove (r.validateAndRecord c.writeSet c.validate c.snapshotTs commitTs).1.recentWrites
      (log ++ [⟨txn,c.validate,c.snapshotTs,commitTs,c.writeSet.keys⟩]) snapshotTs := by
  obtain ⟨-,hl,-⟩ :=
    validateAndRecord_of_not_conflicts commitTs hw hne
  -- A record above the snapshot, replaced by the call or not, stays above it and survives a prune.
  have hst : ∀ k ts, (if k ∈ c.writeSet then some commitTs else r.recentWrites.lookup k) = some ts →
      snapshotTs < ts →
      (r.validateAndRecord c.writeSet c.validate c.snapshotTs commitTs).1.recentWrites.lookup k = some ts := by
    intro k ts hts hlt
    rw [hl,hts]
    simp only [Option.filter_eq_some_iff,decide_eq_true_eq,true_and]
    intro hdu
    obtain ⟨how,ho⟩ := hkp.2 hdu
    split at hts
    · cases hts
      exact how hlt
    next hk =>
      exact ho k hk ts hts hlt
  intro e he k hk hlt
  by_cases hm : k ∈ c.writeSet
  · -- The call wrote the key: its timestamp is above the snapshot too.
    have ha : snapshotTs < commitTs := by
      rcases mem_append.mp he with hold | hnew
      · obtain ⟨ts,hts,hs⟩ := h e hold k hk hlt
        by_cases hv : c.validate = true
        · have hp : ts ≤ c.snapshotTs := by
            by_contra hn
            exact hw ⟨hv,k,hm,ts,hts,Nat.not_le.mp hn⟩
          exact lt_of_lt_of_le hs (hp.trans hd.le)
        · by_contra hn
          have := hkp.1 (by simpa using hv) (Nat.not_lt.mp hn) k hm ts hts
          exact absurd hs (Nat.not_lt.mpr this)
      · obtain rfl := mem_singleton.mp hnew
        exact hlt
    exact ⟨commitTs,hst k commitTs (if_pos hm) ha,ha⟩
  · rcases mem_append.mp he with hold | hnew
    · obtain ⟨ts,hts,hs⟩ := h e hold k hk hlt
      exact ⟨ts,hst k ts (by rw [if_neg hm,hts]) hs,hs⟩
    · obtain rfl := mem_singleton.mp hnew
      exact absurd (AList.mem_keys.mpr hk) hm

variable (h : Inv s)
include h

theorem insert_inv {clock : Timestamp} (hc : s.clock ≤ clock) (hs : c.snapshotTs ≤ clock)
    (hd : ∀ ts, c.phase = .drawn ts → c.snapshotTs < ts ∧ ts ≤ clock) (hl : ∀ e ∈ log, e.commitTs ≤ clock)
    (hac : c.validate = true → c.Registered → registry.activeSnapshots.lookup txn = some c.snapshotTs)
    (hoh : ∀ t, t ≠ txn → registry.activeSnapshots.lookup t = s.registry.activeSnapshots.lookup t)
    (hb : c.Registered → ∀ other o ts, s.committers.lookup other = some o → o.phase = .drawn ts →
      o.writeSet.keys ≠ [] → c.snapshotTs < ts)
    (ha : ∀ ts, c.phase = .drawn ts → ∀ t o, s.committers.lookup t = some o → o.snapshotTs < ts)
    (hab : ∀ t o, (s.committers.insert txn c).lookup t = some o → o.validate = true →
      o.phase = .taken ∨ o.Registered → RecordsAbove registry.recentWrites log o.snapshotTs)
    (hw : ({ s with log := log } : System).FirstWins) : Inv ⟨registry,clock,s.committers.insert txn c,log⟩ := by
  refine ⟨?_,?_,hl,?_,?_,hab,hw⟩
  · intro t o ho
    rw [Map.lookup_insert_ite] at ho
    split at ho
    · cases ho
      exact hs
    · exact (h.snapshots t o ho).trans hc
  · intro t o ts ho hp
    rw [Map.lookup_insert_ite] at ho
    split at ho
    · cases ho
      exact hd ts hp
    · obtain ⟨hlt,hle⟩ := h.drawn t o ts ho hp
      exact ⟨hlt,hle.trans hc⟩
  · intro t o ho hv hr
    rw [Map.lookup_insert_ite] at ho
    split at ho
    next he =>
      cases ho
      rw [he]
      exact hac hv hr
    next hne =>
      rw [hoh t hne]
      exact h.active t o ho hv hr
  · intro t o other o' ts ho hr ho' hp hne
    rw [Map.lookup_insert_ite] at ho ho'
    split at ho'
    · cases ho'
      split at ho
      · cases ho
        exact (hd ts hp).1
      · exact ha ts hp t o ho
    · split at ho
      · cases ho
        exact hb hr other o' ts ho' hp hne
      · exact h.behind t o other o' ts ho hr ho' hp hne

theorem above_insert {recent : Map Key Timestamp} (hr : recent = s.registry.recentWrites)
    (hc : c.validate = true → c.phase = .taken ∨ c.Registered →
      RecordsAbove s.registry.recentWrites s.log c.snapshotTs) (t : TxnId) (o : Committer)
    (ho : (s.committers.insert txn c).lookup t = some o) (hv : o.validate = true)
    (hw : o.phase = .taken ∨ o.Registered) : RecordsAbove recent s.log o.snapshotTs := by
  rw [hr]
  rw [Map.lookup_insert_ite] at ho
  split at ho
  · cases ho
    exact hc hv hw
  · exact h.above t o ho hv hw

theorem take_inv (txn : TxnId) (validate : Bool) : Inv (step s (.take txn validate)) := by
  cases ht : s.committers.lookup txn with
  | some c => simpa only [step,ht] using h
  | none =>
    simp only [step,ht]
    refine insert_inv h (Nat.le_succ _) le_rfl (by simp) ?_ (by simp [Committer.Registered]) (fun _ _ => rfl)
      (by simp [Committer.Registered]) (by simp) ?_ h.wins
    · intro e he
      exact (h.logged e he).trans (Nat.le_succ _)
    · -- The new snapshot is above every commit drawn so far.
      apply above_insert h rfl
      intro _ _ e he k _ hlt
      exact absurd hlt (Nat.not_lt.mpr ((h.logged e he).trans (Nat.le_succ _)))

theorem register_inv (txn : TxnId) : Inv (step s (.register txn)) := by
  cases ht : s.committers.lookup txn with
  | none => simpa only [step,ht] using h
  | some c =>
    by_cases hr : c.phase = .taken ∧ s.barrierPasses c.snapshotTs = true
    · obtain ⟨htk,hb⟩ := hr
      simp only [step,ht,htk,hb,and_self,if_true,System.move]
      refine insert_inv h le_rfl (h.snapshots txn c ht) (by simp) h.logged ?_ ?_ ?_ (by simp) ?_ h.wins
      · intro hv _
        dsimp only at hv
        rw [if_pos hv]
        exact lookup_insert _
      · intro t hne
        split
        · rw [registerTxn,Map.lookup_insert_ite,if_neg hne]
        · rfl
      · intro _ other o ts ho hp hne
        exact barrierPasses_drawn hb ho hp hne
      · exact above_insert h (by split <;> rfl) fun hv _ => h.above txn c ht hv (.inl htk)
    · simpa only [step,ht,if_neg hr] using h

theorem draw_inv (txn : TxnId) (writeSet : Map Key (Option Bytes)) : Inv (step s (.draw txn writeSet)) := by
  cases ht : s.committers.lookup txn with
  | none => simpa only [step,ht] using h
  | some c =>
    by_cases hr : c.phase = .registered
    · simp only [step,ht,hr,if_true,System.move]
      have hrg : c.Registered := .inl hr
      have hs := h.snapshots txn c ht
      refine insert_inv h (Nat.le_succ _) (hs.trans (Nat.le_succ _)) ?_ ?_ ?_ (fun _ _ => rfl) ?_ ?_ ?_
        h.wins
      · intro ts hp
        cases hp
        exact ⟨Nat.lt_succ_of_le hs,le_rfl⟩
      · intro e he
        exact (h.logged e he).trans (Nat.le_succ _)
      · intro hv _
        exact h.active txn c ht hv hrg
      · intro _ other o ts ho hp hne
        exact h.behind txn c other o ts ht hrg ho hp hne
      · -- A commit drawn now is above every snapshot taken so far.
        intro ts hp t o ho
        cases hp
        exact Nat.lt_succ_of_le (h.snapshots t o ho)
      · exact above_insert h rfl fun hv _ => h.above txn c ht hv (.inr hrg)
    · simpa only [step,ht,if_neg hr] using h

theorem finish_inv (txn : TxnId) : Inv (step s (.finish txn)) := by
  cases ht : s.committers.lookup txn with
  | none => simpa only [step,ht] using h
  | some c =>
    have hm : Inv { s.move txn c .finished with
        registry := if c.validate then s.registry.deregisterTxn txn else s.registry } := by
      refine insert_inv h le_rfl (h.snapshots txn c ht) (by simp) h.logged
        (by simp [Committer.Registered]) ?_ (by simp [Committer.Registered]) (by simp) ?_ h.wins
      · intro t hne
        split
        · rw [deregisterTxn,Map.lookup_erase_ite,if_neg hne]
        · rfl
      · exact above_insert h (by split <;> rfl) (by simp [Committer.Registered])
    cases hp : c.phase with
    | taken | drawn ts | finished => simpa only [step,ht,hp] using h
    | registered | called ts => simpa only [step,ht,hp] using hm

theorem called_inv (ht : s.committers.lookup txn = some c)
    (hac : registry.activeSnapshots = s.registry.activeSnapshots) (hl : ∀ e ∈ log, e.commitTs ≤ s.clock)
    (ha : ∀ t o, s.committers.lookup t = some o → o.validate = true →
      o.phase = .taken ∨ o.Registered → RecordsAbove registry.recentWrites log o.snapshotTs)
    (hwn : ({ s with log := log } : System).FirstWins) :
    Inv { s.move txn c (.called commitTs) with registry := registry, log := log } := by
  refine insert_inv h le_rfl (h.snapshots txn c ht) (by simp) hl (by simp [Committer.Registered])
    (fun _ _ => by rw [hac]) (by simp [Committer.Registered]) (by simp) ?_ hwn
  intro t o ho hv hw
  rw [Map.lookup_insert_ite] at ho
  split at ho
  · cases ho
    simp [Committer.Registered] at hw
  · exact ha t o ho hv hw

theorem call_inv (hs : SafeCall s (.call txn)) : Inv (step s (.call txn)) := by
  cases ht : s.committers.lookup txn with
  | none =>
    simp only [step,ht]
    exact h
  | some c =>
    cases hp : c.phase with
    | taken | registered | called ts | finished => simpa only [step,ht,hp] using h
    | drawn commitTs =>
      obtain ⟨hd,hcl⟩ := h.drawn txn c commitTs ht hp
      simp only [step,ht,hp]
      by_cases hc : s.registry.Conflicts c.writeSet c.validate c.snapshotTs
      · -- A loser leaves every record and the log as they were.
        obtain ⟨⟨conflict,her⟩,hlk,ha⟩ :=
          validateAndRecord_of_conflicts commitTs hc
        rw [her]
        refine called_inv h ht ha h.logged (fun t o ho hv hw => ?_) h.wins
        intro e he k hk hlt
        rw [hlk]
        exact h.above t o ho hv hw e he k hk hlt
      · have hl : ∀ e ∈ s.log ++ [⟨txn,c.validate,c.snapshotTs,commitTs,c.writeSet.keys⟩],
            e.commitTs ≤ s.clock := by
          intro e he
          rcases mem_append.mp he with hold | hnew
          · exact h.logged e hold
          · obtain rfl := mem_singleton.mp hnew
            exact hcl
        by_cases hne : c.writeSet.keys = []
        · -- An empty write set passes without touching the registry.
          simp only [validateAndRecord,hne,if_true]
          rw [hne] at hl
          refine called_inv h ht rfl hl (fun t o ho hv hw => ?_) ?_
          · intro e he k hk hlt
            rcases mem_append.mp he with hold | hnew
            · exact h.above t o ho hv hw e hold k hk hlt
            · obtain rfl := mem_singleton.mp hnew
              simp at hk
          · refine pairwise_append.mpr ⟨h.wins,pairwise_singleton _ _,?_⟩
            intro e _ later hlr
            obtain rfl := mem_singleton.mp hlr
            simp
        · obtain ⟨hok,-,ha⟩ :=
            validateAndRecord_of_not_conflicts commitTs hc hne
          rw [hok]
          refine called_inv h ht ha hl (fun t o ho hv hw => ?_) ?_
          · apply recordsAbove_call hc hne hd _ (h.above t o ho hv hw)
            rcases hw with htk | hr
            · exact hs c commitTs ht hp hne hc o.snapshotTs ⟨t,o,ho,hv,htk,rfl⟩
            -- A registered snapshot is below the commit, and prunes respect it.
            have hlt := h.behind t o txn c commitTs ho hr ht hp hne
            have hm := minActive_le (h.active t o ho hv hr)
            refine ⟨fun _ hle => absurd hlt (Nat.not_lt.mpr hle),fun _ => ⟨fun _ => ?_,?_⟩⟩
            · exact hm.trans hlt.le
            · intro k _ ts _ hts
              exact hm.trans (Nat.le_of_lt hts)
          · refine pairwise_append.mpr ⟨h.wins,pairwise_singleton _ _,?_⟩
            intro e he later hlr hv _ k hk hke
            obtain rfl := mem_singleton.mp hlr
            -- A logged commit above the snapshot would have left a conflicting record.
            by_contra hn
            obtain ⟨ts,hts,hlt⟩ :=
              h.above txn c ht hv (.inr (.inr ⟨commitTs,hp⟩)) e he k hke (Nat.not_le.mp hn)
            exact hc ⟨hv,k,AList.mem_keys.mpr hk,ts,hts,hlt⟩

omit h

theorem step_inv (s : System) (a : Step) (h : Inv s) (hs : SafeCall s a) : Inv (step s a) := by
  cases a with
  | take txn validate => exact take_inv h txn validate
  | register txn => exact register_inv h txn
  | draw txn writeSet => exact draw_inv h txn writeSet
  | call txn => exact call_inv h hs
  | finish txn => exact finish_inv h txn

/-- In every run in which the winning calls, while a validating snapshot is taken and
not yet registered, keep the records above it, the first committer wins. -/
theorem first_committer_wins (steps : List Step) (hsafe : Guarded step SafeCall System.new steps) :
    (run step System.new steps).FirstWins :=
  (guarded_run_invariant step Inv step_inv inv_new hsafe).wins

theorem safeCall_of_none_taken (h : s.committers.entries.all (fun entry => decide (entry.2.phase ≠ .taken)) = true) (a : Step) :
    SafeCall s a := by
  cases a with
  | call txn =>
    rintro c commitTs - - - - snapshotTs ⟨t,o,ho,-,htk,-⟩
    have := all_eq_true.mp h ⟨t,o⟩ (mem_lookup_iff.mp ho)
    simp [htk] at this
  | take txn validate | register txn | draw txn writeSet | finish txn => trivial

/-- One key of a write set, with a staged value. -/
def sampleWrites : Map Key (Option Bytes) := (∅ : Map Key (Option Bytes)).insert [107] (some [1])

/-- Two validating transactions write one key: the second call loses. -/
theorem first_committer_wins_race :
    (run step System.new [.take 1 true,.register 1,.take 2 true,.register 2,.draw 1 sampleWrites,
      .draw 2 sampleWrites,.call 2,.call 1]).log = [⟨2,true,2,4,[[107]]⟩] ∧
    (run step System.new [.take 1 true,.register 1,.take 2 true,.register 2,.draw 1 sampleWrites,
      .draw 2 sampleWrites,.call 2,.call 1]).FirstWins := by
  refine ⟨by decide +kernel,first_committer_wins _ ?_⟩
  refine ⟨trivial,trivial,trivial,trivial,trivial,trivial,?_,?_,trivial⟩
  · exact safeCall_of_none_taken (by decide +kernel) _
  · exact safeCall_of_none_taken (by decide +kernel) _

/-- A commit drawn before the snapshot and recorded without validation replaces the
record of one drawn after it, while the snapshot waits at the barrier. -/
theorem record_lowered_before_registration : ¬∀ steps, (run step System.new steps).FirstWins := by
  intro h
  have hwins := h [.take 1 false,.register 1,.take 2 false,.register 2,.draw 1 sampleWrites,
    .take 3 true,.draw 2 sampleWrites,.call 2,.call 1,.finish 2,.finish 1,.register 3,
    .draw 3 sampleWrites,.call 3]
  have hlog : (run step System.new [.take 1 false,.register 1,.take 2 false,.register 2,
      .draw 1 sampleWrites,.take 3 true,.draw 2 sampleWrites,.call 2,.call 1,.finish 2,.finish 1,
      .register 3,.draw 3 sampleWrites,.call 3]).log =
      [⟨2,false,2,5,[[107]]⟩,⟨1,false,1,3,[[107]]⟩,⟨3,true,4,6,[[107]]⟩] := by
    decide +kernel
  rw [System.FirstWins,hlog] at hwins
  simp at hwins

end HeliosNano.Storage.FirstCommitterWins
