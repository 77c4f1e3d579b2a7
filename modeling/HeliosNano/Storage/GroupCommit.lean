import HeliosNano.Foundation.Maps
import HeliosNano.Foundation.Runs
import Mathlib.Control.Monad.Basic

namespace HeliosNano.Storage.GroupCommit
open Foundation List Function

def errorRetentionGens : Nat := 1024

structure State where
  accumulating : Nat
  completed : Nat
  leaderPresent : Bool
  flushInProgress : Bool
  failed : Map Nat String

/-- Where a committer is in its call of `wait_durable`. -/
inductive Phase
  | idle
  | appended
  | follower (myGen : Nat)
  | collecting (myGen : Nat)
  | flushing (myGen : Nat)
  | publishing (myGen : Nat) (result : Except String Unit)
  | returned (myGen : Nat) (result : Except String Unit)
deriving DecidableEq

def Phase.gen? : Phase → Option Nat
  | .idle => none
  | .appended => none
  | .follower myGen => some myGen
  | .collecting myGen => some myGen
  | .flushing myGen => some myGen
  | .publishing myGen _ => some myGen
  | .returned myGen _ => some myGen

/-- A flush, with the generation it was for, its leader, the length of the log when it began, and its result. -/
structure Flush where
  gen : Nat
  leader : Nat
  covered : Nat
  result : Except String Unit
deriving DecidableEq

/-- The log holds the batches in the order in which they were appended, of which the first ones are durable. -/
structure World where
  state : State
  wal : List Nat
  durable : Nat
  phases : Nat → Phase
  closed : List (Nat × Nat)
  flushes : List Flush

inductive Step
  | append (id : Nat)
  | join (id : Nat)
  | close (id : Nat)
  | flush (id : Nat) (result : Except String Unit)
  | publish (id : Nat)
  | wake (id : Nat)
deriving DecidableEq

namespace State

def new : State := ⟨1,0,false,false,∅⟩

def close (st : State) (myGen : Nat) : State :=
  { st with accumulating := myGen+1, leaderPresent := false, flushInProgress := true }

/-- A failure is kept for its generation, and the old ones are let go. -/
def publish (st : State) (myGen : Nat) (result : Except String Unit) : State :=
  let completed := max st.completed myGen
  { st with
    flushInProgress := false
    completed := completed
    failed :=
      match result with
      | .ok () => st.failed
      | .error message =>
        Map.retain (fun gen _ => completed-errorRetentionGens < gen) (st.failed.insert myGen message) }

def result (st : State) (myGen : Nat) : Except String Unit :=
  match st.failed.lookup myGen with
  | some message => .error message
  | none => .ok ()

end State

namespace World

def new : World := ⟨.new,[],0,fun _ => .idle,[],[]⟩

def setPhase (w : World) (id : Nat) (phase : Phase) : World := { w with phases := Function.update w.phases id phase }

def step (w : World) : Step → World
  | .append id =>
    match w.phases id with
    | .idle => { w.setPhase id .appended with wal := w.wal ++ [id] }
    | _ => w
  | .join id =>
    match w.phases id with
    | .appended =>
      if w.state.leaderPresent then w.setPhase id (.follower w.state.accumulating)
      else
        { w.setPhase id (.collecting w.state.accumulating) with state := { w.state with leaderPresent := true } }
    | _ => w
  | .close id =>
    match w.phases id with
    | .collecting myGen =>
      if w.state.flushInProgress then w
      else { w.setPhase id (.flushing myGen) with state := w.state.close myGen, closed := w.closed ++ [(myGen,id)] }
    | _ => w
  | .flush id result =>
    match w.phases id with
    | .flushing myGen =>
      { w.setPhase id (.publishing myGen result) with
        durable := if result.isOk then w.wal.length else w.durable
        flushes := w.flushes ++ [⟨myGen,id,w.wal.length,result⟩] }
    | _ => w
  | .publish id =>
    match w.phases id with
    | .publishing myGen result =>
      { w.setPhase id (.returned myGen result) with state := w.state.publish myGen result }
    | _ => w
  | .wake id =>
    match w.phases id with
    | .follower myGen =>
      if w.state.completed < myGen then w else w.setPhase id (.returned myGen (w.state.result myGen))
    | _ => w

/-- A failure is published only when no follower waits for one that it lets go. -/
def Retained (w : World) : Step → Prop
  | .publish id =>
    ∀ myGen message, w.phases id = .publishing myGen (.error message) →
      ∀ other gen, w.phases other = .follower gen → (w.state.failed.lookup gen).isSome →
        max w.state.completed myGen - errorRetentionGens < gen
  | _ => True

def PhaseSound (w : World) (id : Nat) : Phase → Prop
  | .idle => True
  | .appended => id ∈ w.wal
  | .follower myGen =>
    id ∈ w.wal ∧ 1 ≤ myGen ∧ myGen ≤ w.state.accumulating ∧
      (myGen ≤ w.state.completed → ∀ f ∈ w.flushes, f.gen = myGen → ∀ message, f.result = .error message →
        (w.state.failed.lookup myGen).isSome)
  | .collecting myGen => id ∈ w.wal ∧ myGen = w.state.accumulating ∧ w.state.leaderPresent = true
  | .flushing myGen =>
    id ∈ w.wal ∧ myGen+1 = w.state.accumulating ∧ w.state.flushInProgress = true ∧
      w.closed.getLast? = some (myGen,id) ∧ w.flushes.length+1 = w.closed.length
  | .publishing myGen result =>
    id ∈ w.wal ∧ myGen+1 = w.state.accumulating ∧ w.state.flushInProgress = true ∧
      w.closed.getLast? = some (myGen,id) ∧ w.flushes.length = w.closed.length ∧
      ∃ f ∈ w.flushes, f.gen = myGen ∧ f.result = result
  | .returned myGen result =>
    id ∈ w.wal ∧ myGen < w.state.accumulating ∧ ∃ f ∈ w.flushes, f.gen = myGen ∧ f.result = result

/-- The invariant. The flushes follow the cohorts as they were closed, one behind while one is in progress. -/
structure Sound (w : World) : Prop where
  phases : ∀ id, w.PhaseSound id (w.phases id)
  collector : ∀ id id' myGen myGen', w.phases id = .collecting myGen → w.phases id' = .collecting myGen' → id = id'
  idle : w.state.flushInProgress = false → w.state.completed+1 = w.state.accumulating
  busy : w.state.flushInProgress = true → w.state.completed+2 = w.state.accumulating
  closed : w.closed.map Prod.fst = List.range' 1 (w.state.accumulating-1)
  flushed : w.flushes.map (fun f => (f.gen,f.leader)) <+: w.closed
  behind : w.flushes.length = w.closed.length ∨
    ∃ id myGen, w.phases id = .flushing myGen
  covered : ∀ f ∈ w.flushes, f.covered ≤ w.wal.length
  durable : ∀ f ∈ w.flushes, f.result = .ok () →
    f.covered ≤ w.durable ∧ ∀ id, (w.phases id).gen? = some f.gen → id ∈ w.wal.take f.covered
  failed : ∀ gen message, w.state.failed.lookup gen = some message →
    ∃ f ∈ w.flushes, f.gen = gen ∧ f.result = .error message

theorem sound_new : World.new.Sound where
  phases id := trivial
  collector id id' myGen myGen' h := by simp [World.new] at h
  idle _ := rfl
  busy h := by simp [World.new,State.new] at h
  closed := rfl
  flushed := nil_prefix
  behind := .inl rfl
  covered f hf := by simp [World.new] at hf
  durable f hf := by simp [World.new] at hf
  failed gen message h := by simp [World.new,State.new] at h

variable {w : World} {id : Nat}
variable {phase : Phase} {f : Flush} {other gen myGen n : Nat}
variable {w' : World} {result : Except String Unit}

theorem phases_update (hw : w.Sound) (hp : w'.phases = Function.update w.phases id phase) (hs : w'.PhaseSound id phase)
    (ho : ∀ other, other ≠ id → w.PhaseSound other (w.phases other) → w'.PhaseSound other (w.phases other)) :
    ∀ other, w'.PhaseSound other (w'.phases other) := by
  intro other
  rw [hp]
  by_cases h : other = id
  · subst h
    rwa [update_self]
  · rw [update_of_ne h]
    exact ho other h (hw.phases other)

theorem collector_update (hw : w.Sound)
    (hp : w'.phases = Function.update w.phases id phase) (hph : ∀ myGen, phase ≠ .collecting myGen) :
    ∀ first second myGen myGen', w'.phases first = .collecting myGen → w'.phases second = .collecting myGen' →
      first = second := by
  intro first second myGen myGen' h h'
  rw [hp] at h h'
  have old : ∀ other gen, Function.update w.phases id phase other = .collecting gen → w.phases other = .collecting gen := by
    intro other gen ho
    by_cases hne : other = id
    · subst hne
      rw [update_self] at ho
      exact absurd ho (hph gen)
    · rwa [update_of_ne hne] at ho
  exact hw.collector first second myGen myGen' (old first myGen h) (old second myGen' h')

theorem durable_update {phase : Phase} (hw : w.Sound) (hph : ∀ f ∈ w.flushes, phase.gen? = some f.gen →
    (w.phases id).gen? = some f.gen) : ∀ f ∈ w.flushes, f.result = .ok () → f.covered ≤ w.durable ∧
      ∀ other, (Function.update w.phases id phase other).gen? = some f.gen → other ∈ w.wal.take f.covered := by
  intro f hf hok
  refine ⟨(hw.durable f hf hok).1,fun other hg => ?_⟩
  apply (hw.durable f hf hok).2 other
  by_cases hne : other = id
  · subst hne
    rw [update_self] at hg
    exact hph f hf hg
  · rwa [update_of_ne hne] at hg

theorem Sound.gen_lt (hw : w.Sound) (hf : f ∈ w.flushes) : 1 ≤ f.gen ∧ f.gen < w.state.accumulating := by
  have hm : (f.gen,f.leader) ∈ w.closed := hw.flushed.subset (mem_map.mpr ⟨f,hf,rfl⟩)
  have hg : f.gen ∈ w.closed.map Prod.fst := mem_map.mpr ⟨_,hm,rfl⟩
  rw [hw.closed,mem_range'_1] at hg
  omega

theorem Sound.flush_unique (hw : w.Sound) {f' : Flush} (hf : f ∈ w.flushes) (hf' : f' ∈ w.flushes)
    (hg : f.gen = f'.gen) : f = f' := by
  have hnd : (w.flushes.map Flush.gen).Nodup := by
    have hs : w.flushes.map Flush.gen <+: w.closed.map Prod.fst := by
      have := hw.flushed.map Prod.fst
      simpa only [map_map,comp_def] using this
    rw [hw.closed] at hs
    exact hs.sublist.nodup nodup_range'
  exact inj_on_of_nodup_map hnd hf hf' hg

theorem leader_unique {gen' : Nat} (h : w.closed.getLast? = some (gen,id))
    (h' : w.closed.getLast? = some (gen',other)) : other = id := by
  rw [h] at h'
  simp only [Option.some.injEq,Prod.mk.injEq] at h'
  exact h'.2.symm

variable (hw : w.Sound)
include hw

theorem Sound.exists_flush (ho : 1 ≤ gen) (hgn : gen ≤ w.state.completed) : ∃ f ∈ w.flushes, f.gen = gen := by
  have hg : w.flushes.map Flush.gen <+: List.range' 1 (w.state.accumulating-1) := by
    have := hw.flushed.map Prod.fst
    rw [hw.closed] at this
    simpa only [map_map,comp_def] using this
  have hc : w.closed.length = w.state.accumulating-1 := by
    rw [← length_map Prod.fst,hw.closed,length_range']
  have hl : w.state.completed ≤ w.flushes.length := by
    cases hf : w.state.flushInProgress with
    | false =>
      have hi := hw.idle hf
      rcases hw.behind with heq | ⟨id,myGen,hph⟩
      · omega
      · have := hw.phases id
        rw [hph] at this
        simp [PhaseSound,hf] at this
    | true =>
      have hb := hw.busy hf
      rcases hw.behind with heq | ⟨id,myGen,hph⟩
      · omega
      have := hw.phases id
      rw [hph] at this
      obtain ⟨-,-,-,-,ho⟩ := this
      omega
  rw [prefix_iff_eq_take] at hg
  have hm : gen ∈ w.flushes.map Flush.gen := by
    have hle : w.flushes.length ≤ w.closed.length := by simpa using hw.flushed.length_le
    rw [hg,length_map,take_range'_of_length_ge (by omega),mem_range'_1]
    omega
  simpa using hm

theorem behind_update (hph : ∀ myGen, w.phases id ≠ .flushing myGen) :
    w.flushes.length = w.closed.length ∨ ∃ other myGen, Function.update w.phases id phase other = .flushing myGen := by
  rcases hw.behind with heq | ⟨other,myGen,ho⟩
  · exact .inl heq
  have hne : other ≠ id := by
    rintro rfl
    exact hph myGen ho
  exact .inr ⟨other,myGen,by rwa [update_of_ne hne]⟩

theorem Sound.joined (hph : w.phases id ≠ .idle) : id ∈ w.wal := by
  have := hw.phases id
  cases hid : w.phases id with
  | idle => exact absurd hid hph
  | appended =>
    rw [hid] at this
    exact this
  | _ =>
    rw [hid] at this
    exact this.1

theorem Sound.append (hi : w.phases id = .idle) : (w.step (.append id)).Sound := by
  simp only [step,hi]
  refine ⟨?_,?_,hw.idle,hw.busy,hw.closed,hw.flushed,behind_update hw (by simp [hi]),?_,?_,hw.failed⟩
  · apply phases_update hw rfl
    · simp [PhaseSound]
    · intro other _ ho
      cases hph : w.phases other <;> grind [PhaseSound,setPhase]
  · exact collector_update hw rfl (by simp)
  · intro f hf
    have := hw.covered f hf
    simp only [length_append,length_singleton]
    omega
  · intro f hf hok
    obtain ⟨hc,hm⟩ := @durable_update w id .appended hw (by simp [Phase.gen?]) f hf hok
    refine ⟨hc,fun other hg => ?_⟩
    rw [setPhase,take_append_of_le_length (hw.covered f hf)]
    exact hm other hg

theorem Sound.join_follower (ha : w.phases id = .appended) : (w.setPhase id (.follower w.state.accumulating)).Sound := by
  have ho : 1 ≤ w.state.accumulating ∧ w.state.completed < w.state.accumulating := by
    cases hfl : w.state.flushInProgress with
    | false => exact ⟨by have := hw.idle hfl; omega,by have := hw.idle hfl; omega⟩
    | true => exact ⟨by have := hw.busy hfl; omega,by have := hw.busy hfl; omega⟩
  refine ⟨?_,collector_update hw rfl (by simp),hw.idle,hw.busy,hw.closed,hw.flushed,
    behind_update hw (by simp [ha]),hw.covered,?_,hw.failed⟩
  · apply phases_update hw rfl
    · have hm := hw.phases id
      rw [ha] at hm
      exact ⟨hm,ho.1,Nat.le_refl _,fun hle => absurd ho.2 (by simpa [setPhase] using hle)⟩
    · intro other _ hoh
      cases hph : w.phases other <;> grind [PhaseSound,setPhase]
  · apply durable_update hw
    intro f hf hg
    have := (hw.gen_lt hf).2
    simp [Phase.gen?] at hg
    omega

theorem Sound.join_leader (ha : w.phases id = .appended) (hfr : w.state.leaderPresent = false) :
    World.Sound { w.setPhase id (.collecting w.state.accumulating) with state := { w.state with leaderPresent := true } } := by
  refine ⟨?_,?_,hw.idle,hw.busy,hw.closed,hw.flushed,behind_update hw (by simp [ha]),hw.covered,?_,hw.failed⟩
  · apply phases_update hw rfl
    · have hm := hw.phases id
      rw [ha] at hm
      exact ⟨hm,rfl,rfl⟩
    · intro other _ ho
      cases hph : w.phases other <;> grind [PhaseSound,setPhase]
  · -- Nobody collects while no leader is present.
    have hn : ∀ other gen, w.phases other ≠ .collecting gen := by
      intro other gen ho
      have := hw.phases other
      rw [ho] at this
      simp [PhaseSound,hfr] at this
    have hc : ∀ other gen, (w.setPhase id (.collecting w.state.accumulating)).phases other = .collecting gen →
        other = id := by
      intro other gen ho
      by_contra hne
      exact hn other gen (by simpa [setPhase,hne] using ho)
    intro first second myGen myGen' h h'
    rw [hc first myGen h,hc second myGen' h']
  · apply durable_update hw
    intro f hf hg
    have := (hw.gen_lt hf).2
    simp [Phase.gen?] at hg
    omega

theorem Sound.close (hph : w.phases id = .collecting myGen)
    (hf : w.state.flushInProgress = false) : (w.step (.close id)).Sound := by
  have hs := hw.phases id
  rw [hph] at hs
  obtain ⟨hm,rfl,-⟩ := hs
  have hi := hw.idle hf
  have ha : w.flushes.length = w.closed.length := by
    rcases hw.behind with heq | ⟨other,gen,ho⟩
    · exact heq
    · have := hw.phases other
      rw [ho] at this
      simp [PhaseSound,hf] at this
  simp only [step,hph,hf,Bool.false_eq_true,if_false]
  refine ⟨?_,collector_update hw rfl (by simp),by simp [State.close],?_,?_,
    hw.flushed.trans (prefix_append _ _),?_,hw.covered,?_,hw.failed⟩
  · apply phases_update hw rfl
    · exact ⟨hm,rfl,rfl,by simp,by simp [setPhase,ha]⟩
    · intro other hne ho
      have hc := hw.collector other id
      cases hph' : w.phases other <;> grind [PhaseSound,setPhase,State.close]
  · intro _
    simp only [State.close]
    omega
  · simp only [map_append,hw.closed,State.close,map_cons,map_nil]
    rw [show w.state.accumulating+1-1 = w.state.accumulating-1 + 1 by omega,range'_concat]
    simp only [Nat.one_mul,append_cancel_left_eq,List.cons.injEq,and_true]
    omega
  · exact .inr ⟨id,w.state.accumulating,by simp [setPhase]⟩
  · exact durable_update hw (by simp [hph,Phase.gen?])

theorem Sound.flush (hph : w.phases id = .flushing myGen)
    (result : Except String Unit) : (w.step (.flush id result)).Sound := by
  have hs := hw.phases id
  rw [hph] at hs
  obtain ⟨hmm,hg,hfi,hls,hl⟩ := hs
  have hb := hw.busy hfi
  simp only [step,hph]
  refine ⟨?_,collector_update hw rfl (by simp),hw.idle,hw.busy,hw.closed,?_,?_,?_,?_,?_⟩
  · apply phases_update hw rfl
    · exact ⟨hmm,hg,hfi,hls,by simpa [setPhase] using hl,⟨myGen,id,w.wal.length,result⟩,by simp⟩
    · intro other hne ho
      cases hph' : w.phases other <;> grind [PhaseSound,setPhase,leader_unique]
  · -- The flush is for the cohort that was closed last.
    obtain ⟨closed,hc⟩ := getLast?_eq_some_iff.mp hls
    have hfl : w.flushes.map (fun f => (f.gen,f.leader)) = closed := by
      have hld := hw.flushed
      rw [prefix_iff_eq_take,hc,length_map] at hld
      rw [hld,take_append_of_le_length,take_of_length_le]
      · simp [hc] at hl
        omega
      · simp [hc] at hl
        omega
    simp [setPhase,hfl,hc]
  · left
    simpa [setPhase] using hl
  · intro f hf
    simp only [mem_append,mem_singleton] at hf
    rcases hf with hf | rfl
    · exact hw.covered f hf
    · exact Nat.le_refl _
  · intro f hf hok
    by_cases hf' : f ∈ w.flushes
    · obtain ⟨hcv,hm⟩ :=
        @durable_update w id (.publishing myGen result) hw (by simp [hph,Phase.gen?]) f hf' hok
      refine ⟨?_,hm⟩
      have := hw.covered f hf'
      simp only
      split
      · exact this
      · exact hcv
    · -- The flush itself covers everything that was appended before it began.
      obtain rfl : f = ⟨myGen,id,w.wal.length,result⟩ := by simpa [hf'] using hf
      simp only at hok
      simp only [hok,setPhase,Except.isOk,Except.toBool,if_true,take_length,Nat.le_refl,true_and]
      intro other ho
      apply hw.joined
      intro hi
      by_cases hne : other = id
      · subst hne
        simp [hph] at hi
      · simp [hne,hi,Phase.gen?] at ho
  · intro gen message hlk
    obtain ⟨f,hf,hfa⟩ := hw.failed gen message hlk
    exact ⟨f,mem_append_left _ hf,hfa⟩

omit hw

theorem lookup_publish (st : State) (myGen gen : Nat) (message : String) :
    (st.publish myGen (.error message)).failed.lookup gen =
      if max st.completed myGen - errorRetentionGens < gen then
        if gen = myGen then some message else st.failed.lookup gen
      else none := by
  simp only [State.publish,Map.lookup_retain,Map.lookup_insert_ite]
  generalize (if gen = myGen then some message else st.failed.lookup gen) = found
  split
  · next hk => cases found <;> simp [hk]
  · next hg => cases found <;> simp [hg]

theorem Sound.failed_publish (hw : w.Sound) {message : String}
    (hph : w.phases id = .publishing myGen result) (hk : w.Retained (.publish id))
    (ho : w.phases other = .follower gen) (hle : gen ≤ myGen) (hf : f ∈ w.flushes)
    (hfg : f.gen = gen) (hfl : f.result = .error message) : ((w.state.publish myGen result).failed.lookup gen).isSome := by
  have hs := hw.phases id
  rw [hph] at hs
  obtain ⟨-,ha,hfi,-,-,last,hl,hlg,hr⟩ := hs
  have hb := hw.busy hfi
  by_cases hg : gen = myGen
  · subst hg
    obtain rfl := hw.flush_unique hf hl (hfg.trans hlg.symm)
    rw [← hr,hfl,lookup_publish]
    have hp : max w.state.completed gen - errorRetentionGens < gen := by
      rw [errorRetentionGens]
      omega
    simp [hp]
  · have hwt := hw.phases other
    rw [ho] at hwt
    have hold := hwt.2.2.2 (by omega) f hf hfg message hfl
    cases result with
    | ok _ => exact hold
    | error error =>
      rw [lookup_publish,if_pos (hk myGen error hph other gen ho hold),if_neg hg]
      exact hold

theorem Sound.publish (hw : w.Sound) (hph : w.phases id = .publishing myGen result) (hk : w.Retained (.publish id)) :
    (w.step (.publish id)).Sound := by
  have hs := hw.phases id
  rw [hph] at hs
  obtain ⟨hm,hg,hfi,hl,hln,hfs⟩ := hs
  have hb := hw.busy hfi
  have hc : max w.state.completed myGen = myGen := by omega
  simp only [step,hph]
  refine ⟨?_,collector_update hw rfl (by simp),?_,by simp [State.publish],hw.closed,hw.flushed,
    behind_update hw (by simp [hph]),hw.covered,?_,?_⟩
  · apply phases_update hw rfl
    · refine ⟨hm,?_,hfs⟩
      simp only [State.publish]
      omega
    · intro other hne ho
      cases hph' : w.phases other with
      | follower gen =>
        rw [hph'] at ho
        refine ⟨ho.1,ho.2.1,ho.2.2.1,fun hle f hf hfg message hfl => ?_⟩
        simp only [State.publish,hc] at hle
        exact hw.failed_publish hph hk hph' hle hf hfg hfl
      | idle => trivial
      | appended | collecting | returned =>
        rw [hph'] at ho
        exact ho
      | flushing | publishing =>
        rw [hph'] at ho
        exact absurd (leader_unique hl ho.2.2.2.1) hne
  · intro _
    simp only [State.publish]
    omega
  · exact durable_update hw (by simp [hph,Phase.gen?])
  · intro gen message hlk
    cases result with
    | ok _ => exact hw.failed gen message hlk
    | error error =>
      rw [lookup_publish] at hlk
      split at hlk
      · split at hlk
        · next hs =>
          simp only [Option.some.injEq] at hlk
          obtain ⟨f,hf,hfg,hfl⟩ := hfs
          exact ⟨f,hf,hfg.trans hs.symm,by rw [hfl,hlk]⟩
        · exact hw.failed gen message hlk
      · simp at hlk

theorem Sound.wake (hw : w.Sound) (hph : w.phases id = .follower myGen)
    (hd : myGen ≤ w.state.completed) : (w.setPhase id (.returned myGen (w.state.result myGen))).Sound := by
  have hs := hw.phases id
  rw [hph] at hs
  obtain ⟨hm,ho,-,hfl⟩ := hs
  refine ⟨?_,collector_update hw rfl (by simp),hw.idle,hw.busy,hw.closed,hw.flushed,
    behind_update hw (by simp [hph]),hw.covered,durable_update hw (by simp [hph,Phase.gen?]),hw.failed⟩
  apply phases_update hw rfl
  · obtain ⟨f,hf,hg⟩ := hw.exists_flush ho hd
    refine ⟨hm,hg ▸ (hw.gen_lt hf).2,f,hf,hg,?_⟩
    simp only [State.result]
    cases hlk : w.state.failed.lookup myGen with
    | some message =>
      obtain ⟨f',hf',hg',hr⟩ := hw.failed myGen message hlk
      rw [hw.flush_unique hf hf' (hg.trans hg'.symm),hr]
    | none =>
      cases hr : f.result with
      | ok _ => rfl
      | error message =>
        have := hfl hd f hf hg message hr
        simp [hlk] at this
  · intro other _ hoh
    cases hph' : w.phases other <;> grind [PhaseSound,setPhase]

theorem Sound.step (hw : w.Sound) (s : Step) (hk : w.Retained s) : (w.step s).Sound := by
  cases s with
  | append id =>
    cases hph : w.phases id with
    | idle => exact hw.append hph
    | _ => simpa only [World.step,hph] using hw
  | join id =>
    cases hph : w.phases id with
    | appended =>
      simp only [World.step,hph]
      split
      · exact hw.join_follower hph
      · next hfr => exact hw.join_leader hph (by simpa using hfr)
    | _ => simpa only [World.step,hph] using hw
  | close id =>
    cases hph : w.phases id with
    | collecting myGen =>
      cases hf : w.state.flushInProgress with
      | false => exact hw.close hph hf
      | true => simpa only [World.step,hph,hf,if_true] using hw
    | _ => simpa only [World.step,hph] using hw
  | flush id result =>
    cases hph : w.phases id with
    | flushing myGen => exact hw.flush hph result
    | _ => simpa only [World.step,hph] using hw
  | publish id =>
    cases hph : w.phases id with
    | publishing myGen result => exact hw.publish hph hk
    | _ => simpa only [World.step,hph] using hw
  | wake id =>
    cases hph : w.phases id with
    | follower myGen =>
      simp only [World.step,hph]
      split
      · exact hw
      · next hd => exact hw.wake hph (by omega)
    | _ => simpa only [World.step,hph] using hw

theorem sound_run {steps : List Step} (hk : Guarded World.step World.Retained World.new steps) :
    (run World.step World.new steps).Sound :=
  guarded_run_invariant World.step World.Sound (fun _ s hw hs => hw.step s hs) sound_new hk

/-- A flush is running, or done and not published. -/
def Leads (w : World) (id : Nat) : Prop :=
  ∃ myGen, w.phases id = .flushing myGen ∨ ∃ result, w.phases id = .publishing myGen result

theorem Sound.leads (hw : w.Sound) (hid : w.Leads id) (ho : w.Leads other) : other = id := by
  have hl : ∀ id, w.Leads id → ∃ myGen, w.closed.getLast? = some (myGen,id) := by
    rintro id ⟨myGen,hph | ⟨result,hph⟩⟩
    · have := hw.phases id
      rw [hph] at this
      exact ⟨myGen,this.2.2.2.1⟩
    · have := hw.phases id
      rw [hph] at this
      exact ⟨myGen,this.2.2.2.1⟩
  obtain ⟨myGen,h⟩ := hl id hid
  obtain ⟨myGen',h'⟩ := hl other ho
  exact leader_unique h h'

/-- What group commit promises: an acknowledged batch was covered by the flush of its own generation, a failed flush
fails every member, there is one flush at a time, and the generations are closed and flushed in order, each once and by
one leader. -/
structure Correct (w : World) : Prop where
  acknowledged : ∀ id myGen, w.phases id = .returned myGen (.ok ()) →
    ∃ f ∈ w.flushes, f.gen = myGen ∧ f.result = .ok () ∧ f.covered ≤ w.durable ∧ id ∈ w.wal.take f.covered
  failed : ∀ id myGen result, w.phases id = .returned myGen result →
    ∀ f ∈ w.flushes, f.gen = myGen → ∀ message, f.result = .error message → result = .error message
  one : ∀ id id', w.Leads id → w.Leads id' → id = id'
  closed : w.closed.map Prod.fst = List.range' 1 w.closed.length
  flushed : w.flushes.map (fun f => (f.gen,f.leader)) <+: w.closed
  all : (∀ id, ¬w.Leads id) → w.flushes.length = w.closed.length

theorem Sound.correct (hw : w.Sound) : w.Correct where
  acknowledged id myGen hphase := by
    have := hw.phases id
    rw [hphase] at this
    obtain ⟨-,-,f,hf,hg,hok⟩ := this
    obtain ⟨hc,hm⟩ := hw.durable f hf hok
    exact ⟨f,hf,hg,hok,hc,hm id (by simp [hphase,Phase.gen?,hg])⟩
  failed id myGen result hphase f hf hg message hfailed := by
    have := hw.phases id
    rw [hphase] at this
    obtain ⟨-,-,f',hf',hg',hr⟩ := this
    obtain rfl := hw.flush_unique hf hf' (hg.trans hg'.symm)
    rw [← hr,hfailed]
  one id id' h h' := hw.leads h' h
  closed := by
    rw [hw.closed,← length_map Prod.fst,hw.closed,length_range']
  flushed := hw.flushed
  all hquiet := by
    rcases hw.behind with heq | ⟨id,myGen,hphase⟩
    · exact heq
    · exact absurd ⟨myGen,.inl hphase⟩ (hquiet id)

/-- Group commit is correct in every run that lets go no failure a waiting follower still needs. -/
theorem group_commit_durable {steps : List Step} (hkept : Guarded World.step Retained World.new steps) :
    (run World.step World.new steps).Correct :=
  (sound_run hkept).correct

/-- The second generation collects while the first one is flushed, and fails. -/
def pipelined : List Step :=
  [.append 0,.append 1,.join 0,.join 1,.close 0,.append 2,.join 2,.flush 0 (.ok ()),.publish 0,.close 2,
    .flush 2 (.error "fsync lost"),.publish 2,.wake 1]

theorem group_commit_durable_pipelined :
    Guarded World.step Retained World.new pipelined ∧ (run World.step World.new pipelined).Correct ∧
      (run World.step World.new pipelined).phases 1 = .returned 1 (.ok ()) := by
  have hkept : Guarded World.step Retained World.new pipelined := by
    refine ⟨trivial,trivial,trivial,trivial,trivial,trivial,trivial,trivial,?_,trivial,trivial,?_,trivial,
      trivial⟩
    · intro myGen message hphase
      have hok : Phase.publishing 1 (.ok ()) = .publishing myGen (.error message) := hphase
      simp at hok
    · intro myGen message _ other gen _ hfailed
      have hempty : ((∅ : Map Nat String).lookup gen).isSome = true := hfailed
      simp at hempty
  exact ⟨hkept,group_commit_durable hkept,rfl⟩

/-- A committer that leads a generation alone, whose flush fails. -/
def failingRound (id : Nat) : List Step :=
  [.append id,.join id,.close id,.flush id (.error "fsync lost"),.publish id]

def firstFailure : List Step :=
  [.append 0,.append 1,.join 0,.join 1,.close 0,.flush 0 (.error "fsync lost"),.publish 0]

/-- The follower of the first generation runs again after as many failures as are kept. -/
def lateFollower : List Step :=
  firstFailure ++ (List.range errorRetentionGens).flatMap (fun n => failingRound (n+2)) ++ [.wake 1]

/-- The follower sleeps while the generations after its own fail. -/
structure Stormed (w : World) (n : Nat) : Prop where
  accumulating : w.state.accumulating = n+2
  completed : w.state.completed = n+1
  leaderPresent : w.state.leaderPresent = false
  flushInProgress : w.state.flushInProgress = false
  sleeping : w.phases 1 = .follower 1
  durable : w.durable = 0
  idle : ∀ id, n+2 ≤ id → w.phases id = .idle
  failed : ∃ f ∈ w.flushes, f.gen = 1 ∧ f.result = .error "fsync lost"

theorem run_failingRound (h : w.Stormed n) : run World.step w (failingRound (n+2)) =
    { state := ({ w.state with leaderPresent := true }.close (n+2)).publish (n+2) (.error "fsync lost")
      wal := w.wal ++ [n+2]
      durable := w.durable
      phases := Function.update w.phases (n+2) (.returned (n+2) (.error "fsync lost"))
      closed := w.closed ++ [(n+2,n+2)]
      flushes := w.flushes ++ [⟨n+2,n+2,w.wal.length+1,.error "fsync lost"⟩] } := by
  have hi := h.idle (n+2) (Nat.le_refl _)
  simp [failingRound,World.step,setPhase,hi,h.leaderPresent,h.flushInProgress,h.accumulating,Except.isOk,
    Except.toBool,State.close]

theorem Stormed.failingRound (h : w.Stormed n) : (run World.step w (failingRound (n+2))).Stormed (n+1) := by
  rw [run_failingRound h]
  obtain ⟨f,hf,hfl⟩ := h.failed
  refine ⟨rfl,?_,rfl,rfl,?_,h.durable,fun id hid => ?_,f,mem_append_left _ hf,hfl⟩
  · simp only [State.publish,State.close,h.completed]
    omega
  · have hne : 1 ≠ n+2 := by omega
    simpa [hne] using h.sleeping
  · have hne : id ≠ n+2 := by omega
    simpa [hne] using h.idle id (by omega)

theorem stormed_firstFailure : (run World.step new firstFailure).Stormed 0 := by
  refine ⟨rfl,rfl,rfl,rfl,rfl,rfl,fun id hid => ?_,⟨1,0,2,.error "fsync lost"⟩,by decide,rfl,rfl⟩
  have h0 : id ≠ 0 := by omega
  have h1 : id ≠ 1 := by omega
  simp [firstFailure,World.step,new,State.new,State.close,setPhase,h0,h1]

theorem stormed_rounds (n : Nat) : (run World.step (run World.step new firstFailure)
    ((List.range n).flatMap fun n => failingRound (n+2))).Stormed n := by
  induction n with
  | zero => exact stormed_firstFailure
  | succ n ih =>
    rw [range_succ,flatMap_append,run_append,flatMap_singleton]
    exact ih.failingRound

theorem lookup_rounds (hn : errorRetentionGens = n+1) : (run World.step (run World.step new firstFailure)
      ((List.range (n+1)).flatMap fun n => failingRound (n+2))).state.failed.lookup 1 = none := by
  rw [range_succ,flatMap_append,run_append,flatMap_singleton,run_failingRound (stormed_rounds n),
    lookup_publish]
  refine if_neg ?_
  rw [hn]
  omega

/-- The late follower of a failed generation is told that its batch is durable, and nothing is. -/
theorem late_follower_acknowledged : (run World.step new lateFollower).phases 1 = .returned 1 (.ok ()) ∧
      (run World.step new lateFollower).durable = 0 ∧ ¬(run World.step new lateFollower).Correct := by
  obtain ⟨n,hn⟩ : ∃ n, errorRetentionGens = n+1 := ⟨1023,rfl⟩
  have hstorm := stormed_rounds (n+1)
  have hgone := lookup_rounds hn
  rw [lateFollower,hn,run_append,run_append]
  generalize run World.step (run World.step new firstFailure)
    ((List.range (n+1)).flatMap fun n => failingRound (n+2)) = w at hstorm hgone
  have hwake : run World.step w [.wake 1] = w.setPhase 1 (.returned 1 (.ok ())) := by
    simp [World.step,hstorm.sleeping,hstorm.completed,State.result,hgone]
  rw [hwake]
  refine ⟨by simp [setPhase],hstorm.durable,fun hcorrect => ?_⟩
  obtain ⟨f,hf,hgen,hfailed⟩ := hstorm.failed
  have := hcorrect.failed 1 1 (.ok ()) (by simp [setPhase]) f hf hgen _ hfailed
  simp at this

end World
end HeliosNano.Storage.GroupCommit
