import HeliosNano.Foundation.Runs
import HeliosNano.Storage.Conflict
import Mathlib.Data.Fin.VecNotation

namespace HeliosNano.Storage.ConflictInterleaving
open Foundation List Function

/-- The arguments of a call, its keys in the order in which it meets them. -/
structure CallSpec where
  keys : List Key
  validate : Bool
  snapshotTs : Timestamp
  commitTs : Timestamp
  nodup : keys.Nodup
  ordered : snapshotTs < commitTs

/-- Any number of calls; commit timestamps are allocated once. -/
structure Calls (Caller : Type) where
  spec : Caller → CallSpec
  unique : ∀ i j, (spec i).commitTs = (spec j).commitTs → i = j

inductive Phase
  | recording (todo : List Key) (recorded : List (Key × Option Timestamp))
  | undoing (recorded : List (Key × Option Timestamp)) (conflict : Key × Timestamp)
  | pruning (minActive : Timestamp)
  | returned (result : Except (Key × Timestamp) Unit)
deriving DecidableEq

variable {Caller : Type}

structure State (Caller : Type) where
  recentWrites : Map Key Timestamp
  commitCount : Nat
  phase : Caller → Phase

def State.new (calls : Calls Caller) : State Caller where
  recentWrites := ∅
  commitCount := 0
  phase i := if (calls.spec i).keys = [] then .returned (.ok ()) else .recording (calls.spec i).keys []

/-- One step of one call. The oldest registered snapshot that a prune works with is an
input: registrations go on meanwhile. -/
inductive Access (Caller : Type)
  | record (i : Caller)
  | undo (i : Caller)
  | count (i : Caller) (minActive : Timestamp)
  | retain (i : Caller) (key : Key)
  | finish (i : Caller)

def State.move [DecidableEq Caller] (s : State Caller) (i : Caller) (phase : Phase) : State Caller :=
  { s with phase := Function.update s.phase i phase }

def access [DecidableEq Caller] (calls : Calls Caller) (s : State Caller) : Access Caller → State Caller
  | .record i =>
    match s.phase i with
    | .recording (key::todo) recorded =>
      match recordKey (calls.spec i).validate (calls.spec i).snapshotTs (calls.spec i).commitTs
          s.recentWrites key with
      | .error prior => s.move i (.undoing recorded (key,prior))
      | .ok (recent,prior) =>
        { s.move i (.recording todo (recorded ++ [(key,prior)])) with recentWrites := recent }
    | _ => s
  | .undo i =>
    match s.phase i with
    | .undoing (record::rest) conflict =>
      { s.move i (.undoing rest conflict) with recentWrites := undoKey s.recentWrites record }
    | _ => s
  | .count i minActive =>
    match s.phase i with
    | .recording [] _ =>
      { s.move i (if s.commitCount%pruneIntervalCommits = pruneIntervalCommits-1 then .pruning minActive
          else .returned (.ok ())) with commitCount := s.commitCount+1 }
    | _ => s
  | .retain i key =>
    match s.phase i with
    | .pruning minActive =>
      match s.recentWrites.lookup key with
      | some ts => if ts < minActive then { s with recentWrites := s.recentWrites.erase key } else s
      | none => s
    | _ => s
  | .finish i =>
    match s.phase i with
    | .undoing [] conflict => s.move i (.returned (.error conflict))
    | .pruning _ => s.move i (.returned (.ok ()))
    | _ => s

def Phase.records : Phase → List (Key × Option Timestamp)
  | .recording _ recorded => recorded
  | .undoing recorded _ => recorded
  | _ => []

def Phase.liveKeys (keys : List Key) : Phase → List Key
  | .recording _ recorded => recorded.map (·.1)
  | .undoing recorded _ => recorded.map (·.1)
  | .pruning _ => keys
  | .returned (.ok _) => keys
  | .returned (.error _) => []

def Live (calls : Calls Caller) (s : State Caller) (i : Caller) (key : Key) : Prop :=
  key ∈ (s.phase i).liveKeys (calls.spec i).keys

/-- No call is disturbed: recording without validation replaces no greater timestamp,
an undo finds the timestamp of its own call, and a prune drops no entry at which some
call has a record. -/
def Undisturbed (calls : Calls Caller) (s : State Caller) : Access Caller → Prop
  | .record i => ∀ key todo recorded ts, s.phase i = .recording (key::todo) recorded →
      (calls.spec i).validate = false → s.recentWrites.lookup key = some ts → ts ≤ (calls.spec i).commitTs
  | .undo i => ∀ record rest conflict, s.phase i = .undoing (record::rest) conflict →
      s.recentWrites.lookup record.1 = some (calls.spec i).commitTs
  | .retain i key => ∀ minActive ts, s.phase i = .pruning minActive → s.recentWrites.lookup key = some ts →
      ts < minActive → ∀ j, ¬Live calls s j key
  | _ => True

/-- Every entry is at least the commit timestamp of every successful call at its key. -/
def NoTrace (calls : Calls Caller) (s : State Caller) : Prop :=
  ∀ i, s.phase i = .returned (.ok ()) → ∀ key ∈ (calls.spec i).keys,
    ∃ ts, s.recentWrites.lookup key = some ts ∧ (calls.spec i).commitTs ≤ ts

structure Inv (calls : Calls Caller) (s : State Caller) : Prop where
  split : ∀ i todo recorded, s.phase i = .recording todo recorded →
    recorded.map (·.1) ++ todo = (calls.spec i).keys
  distinct : ∀ i, ((s.phase i).records.map (·.1)).Nodup
  bounded : ∀ i key, Live calls s i key →
    ∃ ts, s.recentWrites.lookup key = some ts ∧ (calls.spec i).commitTs ≤ ts
  -- Another live record at the key of one to be undone is older than it, hence at most the
  -- timestamp that the undo restores, or younger.
  priors : ∀ i, ∀ record ∈ (s.phase i).records, ∀ j, j ≠ i → Live calls s j record.1 →
    (∃ ts, record.2 = some ts ∧ (calls.spec j).commitTs ≤ ts) ∨
      (calls.spec i).commitTs ≤ (calls.spec j).commitTs

theorem inv_new (calls : Calls Caller) : Inv calls (State.new calls) := by
  have hph : ∀ i, ((State.new calls).phase i).records = [] ∧
      ((State.new calls).phase i).liveKeys (calls.spec i).keys = [] := by
    intro i
    by_cases hk : (calls.spec i).keys = []
    · simp [State.new,hk,Phase.records,Phase.liveKeys]
    · simp [State.new,hk,Phase.records,Phase.liveKeys]
  refine ⟨?_,?_,?_,?_⟩
  · intro i todo recorded hp
    by_cases hk : (calls.spec i).keys = []
    · simp [State.new,hk] at hp
    · simp only [State.new,hk,if_false,Phase.recording.injEq] at hp
      simp [← hp.1,← hp.2]
  · intro i
    simp [(hph i).1]
  · intro i key hl
    simp [Live,(hph i).2] at hl
  · intro i record hr
    simp [(hph i).1] at hr

variable {calls : Calls Caller} {s : State Caller}
variable {record : Key × Option Timestamp} {i : Caller}

theorem live_of_mem_records (h : record ∈ (s.phase i).records) : Live calls s i record.1 := by
  have hm : record.1 ∈ (s.phase i).records.map (·.1) := mem_map.mpr ⟨record,h,rfl⟩
  unfold Live
  cases hp : s.phase i with
  | recording todo recorded | undoing recorded conflict =>
    rw [hp] at hm
    exact hm
  | pruning minActive | returned result => simp [hp,Phase.records] at h

variable [DecidableEq Caller]

theorem live_move (i j : Caller) (phase : Phase) (key : Key) : Live calls (s.move i phase) j key ↔
      if j = i then key ∈ phase.liveKeys (calls.spec i).keys else Live calls s j key := by
  by_cases hj : j = i
  · subst hj
    simp [Live,State.move]
  · simp [Live,State.move,hj]

theorem move_inv (h : Inv calls s) {phase : Phase} (hs : ∀ todo recorded, phase = .recording todo recorded →
      recorded.map (·.1) ++ todo = (calls.spec i).keys) (hrs : phase.records.Sublist (s.phase i).records)
    (hlv : ∀ key ∈ phase.liveKeys (calls.spec i).keys, Live calls s i key) : Inv calls (s.move i phase) := by
  have hold : ∀ j key, Live calls (s.move i phase) j key → Live calls s j key := by
    intro j key hl
    rw [live_move] at hl
    split at hl
    next hj =>
      rw [hj]
      exact hlv key hl
    · exact hl
  have hrc : ∀ j, ((s.move i phase).phase j).records.Sublist (s.phase j).records := by
    intro j
    by_cases hj : j = i
    · subst hj
      simpa [State.move] using hrs
    · simp [State.move,hj]
  refine ⟨?_,?_,?_,?_⟩
  · intro j todo recorded hp
    by_cases hj : j = i
    · subst hj
      exact hs todo recorded (by simpa [State.move] using hp)
    · exact h.split j todo recorded (by simpa [State.move,hj] using hp)
  · intro j
    exact (h.distinct j).sublist ((hrc j).map _)
  · intro j key hl
    exact h.bounded j key (hold j key hl)
  · intro j record hr j' hne hl
    exact h.priors j record ((hrc j).subset hr) j' hne (hold j' _ hl)

theorem record_inv (h : Inv calls s) {key : Key} {todo : List Key}
    {recorded : List (Key × Option Timestamp)} (hp : s.phase i = .recording (key::todo) recorded)
    (hle : ∀ ts, s.recentWrites.lookup key = some ts → ts ≤ (calls.spec i).commitTs) :
    Inv calls { s.move i (.recording todo (recorded ++ [(key,s.recentWrites.lookup key)])) with
      recentWrites := s.recentWrites.insert key (calls.spec i).commitTs } := by
  have hs := h.split i (key::todo) recorded hp
  have hkey : key ∉ recorded.map (·.1) := by
    have hnd := (calls.spec i).nodup
    rw [← hs] at hnd
    intro hk
    exact (nodup_append.mp hnd).2.2 key hk key (by simp) rfl
  have hrc : (s.phase i).records = recorded := by rw [hp]; rfl
  have hlv : ∀ j k, Live calls { s.move i (.recording todo (recorded ++ [(key,s.recentWrites.lookup key)]))
      with recentWrites := s.recentWrites.insert key (calls.spec i).commitTs } j k →
      Live calls s j k ∨ (j = i ∧ k = key) := by
    intro j k hl
    have hl := (live_move i j _ k).mp hl
    split at hl
    next hj =>
      subst hj
      simp only [Phase.liveKeys,map_append,mem_append,map_cons,map_nil,
        mem_singleton] at hl
      refine hl.imp (fun hk => ?_) fun hk => ⟨rfl,hk⟩
      simpa [Live,hp,Phase.liveKeys] using hk
    · exact .inl hl
  refine ⟨?_,?_,?_,?_⟩
  · intro j todo' recorded' hj
    by_cases hji : j = i
    · subst hji
      simp only [State.move,update_self,Phase.recording.injEq] at hj
      obtain ⟨rfl,rfl⟩ := hj
      simpa using hs
    · exact h.split j todo' recorded' (by simpa [State.move,hji] using hj)
  · intro j
    by_cases hji : j = i
    · subst hji
      have hd := h.distinct j
      rw [hrc] at hd
      simp only [State.move,update_self,Phase.records,map_append,map_cons,
        map_nil]
      refine nodup_append.mpr ⟨hd,nodup_singleton _,?_⟩
      rintro a ha b hb rfl
      exact hkey (mem_singleton.mp hb ▸ ha)
    · simpa [State.move,hji] using h.distinct j
  · intro j k hl
    rw [Map.lookup_insert_ite]
    split
    next hk =>
      subst hk
      refine ⟨_,rfl,?_⟩
      rcases hlv j k hl with hl | ⟨rfl,-⟩
      · obtain ⟨ts,hts,hjt⟩ := h.bounded j k hl
        exact hjt.trans (hle ts hts)
      · exact le_rfl
    next hk =>
      rcases hlv j k hl with hl | ⟨-,rfl⟩
      · exact h.bounded j k hl
      · exact absurd rfl hk
  · intro j record hr j' hne hl
    by_cases hji : j = i
    · subst hji
      have hl : Live calls s j' record.1 := (hlv j' record.1 hl).resolve_right fun hand => hne hand.1
      simp only [State.move,update_self,Phase.records,mem_append,
        mem_singleton] at hr
      rcases hr with hr | rfl
      · exact h.priors j record (hrc ▸ hr) j' hne hl
      · -- What the new record replaced bounds the records that were there.
        exact .inl (h.bounded j' key hl)
    · have hold : record ∈ (s.phase j).records := by simpa [State.move,hji] using hr
      rcases hlv j' record.1 hl with hl | ⟨rfl,hk⟩
      · exact h.priors j record hold j' hne hl
      -- The new record is above the ones that were there.
      have hjl : Live calls s j key := hk ▸ live_of_mem_records hold
      obtain ⟨ts,hts,hjt⟩ := h.bounded j key hjl
      exact .inr (hjt.trans (hle ts hts))

theorem undo_inv (h : Inv calls s) {rest : List (Key × Option Timestamp)} {conflict : Key × Timestamp}
    (hp : s.phase i = .undoing (record::rest) conflict) (ho : s.recentWrites.lookup record.1 = some (calls.spec i).commitTs) :
    Inv calls { s.move i (.undoing rest conflict) with recentWrites := undoKey s.recentWrites record } := by
  have hr : (s.phase i).records = record::rest := by rw [hp]; rfl
  have hm : Inv calls (s.move i (.undoing rest conflict)) := by
    refine move_inv h (by simp) ?_ ?_
    · rw [hr]
      exact sublist_cons_self record rest
    · intro k hk
      simp only [Live,hp,Phase.liveKeys,map_cons,mem_cons]
      exact .inr hk
  have hg : ¬Live calls (s.move i (.undoing rest conflict)) i record.1 := by
    have hd := h.distinct i
    rw [hr] at hd
    simpa [Live,State.move,Phase.liveKeys] using (nodup_cons.mp hd).1
  refine ⟨hm.split,hm.distinct,?_,hm.priors⟩
  intro j k hl
  change Live calls (s.move i (.undoing rest conflict)) j k at hl
  obtain ⟨ts,hts,hj⟩ := hm.bounded j k hl
  rw [lookup_undoKey]
  split
  next hk =>
    subst hk
    have hji : j ≠ i := by
      rintro rfl
      exact hg hl
    have hl : Live calls s j record.1 := by
      rwa [live_move,if_neg hji] at hl
    rcases h.priors i record (by simp [hr]) j hji hl with ⟨prior,hpr,hle⟩ | hle
    · exact ⟨prior,hpr,hle⟩
    · -- A younger record would have left its own timestamp in the entry.
      have hts : ts = (calls.spec i).commitTs := Option.some.inj (hts.symm.trans ho)
      exact absurd (calls.unique j i (le_antisymm (hts ▸ hj) hle)) hji
  · exact ⟨ts,hts,hj⟩

theorem access_inv (a : Access Caller) (h : Inv calls s) (hs : Undisturbed calls s a) : Inv calls (access calls s a) := by
  cases a with
  | record i =>
    simp only [access]
    split
    next key todo recorded hp =>
      split
      · refine move_inv h (by simp) ?_ ?_
        · simp [hp,Phase.records]
        · simp [Live,hp,Phase.liveKeys]
      next recent prior hrc =>
        obtain ⟨rfl,rfl,hps⟩ := recordKey_ok hrc
        apply record_inv h hp
        intro ts hts
        by_cases hv : (calls.spec i).validate = true
        · exact (hps hv ts hts).trans (calls.spec i).ordered.le
        · exact hs key todo recorded ts hp (by simpa using hv) hts
    · exact h
  | undo i =>
    simp only [access]
    split
    next record rest conflict hp =>
      exact undo_inv h hp (hs record rest conflict hp)
    · exact h
  | count i minActive =>
    simp only [access]
    split
    next recorded hp =>
      have hky := h.split i [] recorded hp
      rw [append_nil] at hky
      have hm : ∀ phase : Phase, phase.records = [] → (∀ t r, phase ≠ .recording t r) →
          phase.liveKeys (calls.spec i).keys = (calls.spec i).keys → Inv calls (s.move i phase) := by
        intro phase hr hne hl
        refine move_inv h (fun t r he => absurd he (hne t r)) (by simp [hr]) ?_
        intro key hk
        rw [hl] at hk
        rw [Live,hp,Phase.liveKeys,hky]
        exact hk
      have hc := hm (if s.commitCount%pruneIntervalCommits = pruneIntervalCommits-1
        then .pruning minActive else .returned (.ok ())) (by split <;> rfl) (by split <;> simp)
        (by split <;> rfl)
      exact ⟨hc.split,hc.distinct,hc.bounded,hc.priors⟩
    · exact h
  | retain i key =>
    simp only [access]
    split
    next minActive hp =>
      split
      next ts hts =>
        split
        next hlt =>
          refine ⟨h.split,h.distinct,?_,h.priors⟩
          intro j k hl
          obtain ⟨ts',hts',hle⟩ := h.bounded j k hl
          refine ⟨ts',?_,hle⟩
          rw [Map.lookup_erase_ite,if_neg]
          · exact hts'
          · rintro rfl
            exact hs minActive ts hp hts hlt j hl
        · exact h
      · exact h
    · exact h
  | finish i =>
    simp only [access]
    split
    · refine move_inv h (by simp) (by simp [Phase.records]) ?_
      simp [Phase.liveKeys]
    next minActive hp =>
      refine move_inv h (by simp) (by simp [Phase.records]) ?_
      simp [Live,hp,Phase.liveKeys]
    · exact h

/-- In every interleaving in which no call is disturbed, a losing call leaves no trace:
every entry is at least the commit timestamp of every successful call at its key. -/
theorem losers_leave_no_trace (calls : Calls Caller) (accesses : List (Access Caller))
    (hsafe : Guarded (access calls) (Undisturbed calls) (State.new calls) accesses) :
    NoTrace calls (run (access calls) (State.new calls) accesses) := by
  have hinv := guarded_run_invariant (access calls) (Inv calls)
    (fun _ a h hok => access_inv a h hok) (inv_new calls) hsafe
  intro i hi key hkey
  apply hinv.bounded i key
  simpa [Live,hi,Phase.liveKeys] using hkey

/-- A loser that nobody disturbs: it meets a conflict at its second key. -/
def quietCalls : Calls (Fin 2) where
  spec := ![⟨[[2]],false,3,7,by decide,by decide⟩,⟨[[1],[2]],true,5,10,by decide,by decide⟩]
  unique := by decide

theorem losers_leave_no_trace_quiet :
    (run (access quietCalls) (State.new quietCalls) [.record 0,.count 0 0,.record 1,.record 1,.undo 1,
      .finish 1]).phase 1 = .returned (.error ([2],7)) ∧
    NoTrace quietCalls (run (access quietCalls) (State.new quietCalls) [.record 0,.count 0 0,.record 1,
      .record 1,.undo 1,.finish 1]) := by
  refine ⟨by decide +kernel,losers_leave_no_trace quietCalls _ ?_⟩
  refine ⟨?_,trivial,?_,?_,?_,trivial,trivial⟩
  · intro key todo recorded ts _ _ hts
    cases hts
  · intro key todo recorded ts _ hv
    cases hv
  · intro key todo recorded ts _ hv
    cases hv
  · intro record rest conflict hp
    have hphase : (run (access quietCalls) (State.new quietCalls) [.record 0,.count 0 0,.record 1,
        .record 1]).phase 1 = .undoing [([1],none)] ([2],7) := by decide +kernel
    have heq := hphase.symm.trans hp
    simp only [Phase.undoing.injEq,List.cons.injEq] at heq
    rw [← heq.1.1]
    decide +kernel

/-- The first call commits, the second will lose at the first one's key, the third
records between the second one's record and its undo. -/
def racingCalls : Calls (Fin 3) where
  spec := ![⟨[[2]],false,3,7,by decide,by decide⟩,⟨[[1],[2]],true,5,10,by decide,by decide⟩,
    ⟨[[1]],true,15,20,by decide,by decide⟩]
  unique := by decide

/-- The undo of the second call removes the record of the third, which succeeded. -/
theorem undo_erases_a_record : ¬∀ (calls : Calls (Fin 3)) (accesses : List (Access (Fin 3))),
      (∀ i, ∃ result, (run (access calls) (State.new calls) accesses).phase i = .returned result) →
      NoTrace calls (run (access calls) (State.new calls) accesses) := by
  intro h
  have hphases : ∀ i, (run (access racingCalls) (State.new racingCalls) [.record 0,.count 0 0,.record 1,
      .record 2,.count 2 0,.record 1,.undo 1,.finish 1]).phase i =
      ![.returned (.ok ()),.returned (.error ([2],7)),.returned (.ok ())] i := by decide +kernel
  have hlost : (run (access racingCalls) (State.new racingCalls) [.record 0,.count 0 0,.record 1,
      .record 2,.count 2 0,.record 1,.undo 1,.finish 1]).recentWrites.lookup [1] = none := by
    decide +kernel
  have htrace := h racingCalls [.record 0,.count 0 0,.record 1,.record 2,.count 2 0,.record 1,.undo 1,
    .finish 1] (fun i => by
      rw [hphases]
      match i with
      | 0 => exact ⟨_,rfl⟩
      | 1 => exact ⟨_,rfl⟩
      | 2 => exact ⟨_,rfl⟩)
  obtain ⟨ts,hts,-⟩ := htrace 2 (hphases 2) [1] (by decide)
  rw [hlost] at hts
  cases hts

end HeliosNano.Storage.ConflictInterleaving
