import HeliosNano.Foundation.Runs
import HeliosNano.Sql.SeqWindow

namespace HeliosNano.Sql.Nextval
open Foundation SeqRuntime List Function

/-- A sequence without CYCLE as `CREATE SEQUENCE` accepts it. -/
structure Proper (d : PersistedSequence) : Prop where
  moves : d.incrementBy ≠ 0
  noCycle : d.cycle = false
  low : IsI64 d.minValue
  high : IsI64 d.maxValue
  started : d.minValue ≤ d.startValue ∧ d.startValue ≤ d.maxValue

/-- The runtime, the durable record, the calls in flight, and the values that were returned,
each with the record that was flushed last when it was. -/
structure State where
  rt : SeqRuntime
  disk : SeqDisk
  calls : ThreadId → Option Pc
  returned : List (Int × Option PersistedSeqState)

/-- A process that opens the sequence with the given record, after the given returns. -/
def resume (d : PersistedSequence) (record : Option PersistedSeqState)
    (returned : List (Int × Option PersistedSeqState)) : State :=
  ⟨fromPersisted d record false,⟨record,record⟩,fun _ => none,returned⟩

def start (d : PersistedSequence) (record : Option PersistedSeqState) : State := resume d record []

inductive Step
  /-- A thread without a call begins one. -/
  | begin (thread : ThreadId)
  | advance (thread : ThreadId) (answer : Answer)
  /-- After a crash an unsynced record may have reached the disk or not. -/
  | crash (kept : Bool)
deriving DecidableEq, Repr

/-- What is durable after a crash. -/
def SeqDisk.survivor (disk : SeqDisk) (kept : Bool) : Option PersistedSeqState :=
  if kept then disk.visible else disk.synced

/-- A call that found the window open again after the mutex starts over on the same runtime. -/
def goesOn : Progress → Option Pc
  | .goto pc => some pc
  | .again => some .loadNext
  | _ => none

def State.advance (s : State) (thread : ThreadId) (answer : Answer) (pc : Pc) : State :=
  let (rt,disk,progress) := s.rt.advance s.disk thread answer pc
  { rt := rt
    disk := disk
    calls := Function.update s.calls thread (goesOn progress)
    returned := s.returned ++ progress.handed.map fun value => (value,disk.synced) }

def step (d : PersistedSequence) (s : State) : Step → State
  | .begin thread =>
    match s.calls thread with
    | none => { s with calls := Function.update s.calls thread (some .loadNext) }
    | some _ => s
  | .advance thread answer =>
    match s.calls thread with
    | none => s
    | some pc => s.advance thread answer pc
  | .crash kept => resume d (SeqDisk.survivor s.disk kept) s.returned

/-- The runtime built from the record would start with a window that is not empty: the
pointer next to the record lies beyond the `i64` range. -/
def ParksBeyond (d : PersistedSequence) (record : Option PersistedSeqState) : Prop :=
  let st := record.getD (seedState d)
  st.lastReserved = limit (if st.isCalled then d.incrementBy else -d.incrementBy)
deriving Decidable

/-- The step parks no pointer beyond the `i64` range. -/
def ParksInside (d : PersistedSequence) (s : State) : Step → Prop
  | .begin _ => True
  | .advance thread _ => ∀ pc ∈ s.calls thread, ¬s.rt.Saturating pc
  | .crash kept => ¬ParksBeyond d (SeqDisk.survivor s.disk kept)

instance (d : PersistedSequence) (s : State) (a : Step) : Decidable (ParksInside d s a) :=
  match a with
  | .begin _ => inferInstanceAs (Decidable True)
  | .advance thread _ => inferInstanceAs (Decidable (∀ pc ∈ s.calls thread, ¬s.rt.Saturating pc))
  | .crash _ => inferInstanceAs (Decidable (¬ParksBeyond d _))

structure Runs (d : PersistedSequence) (rt : SeqRuntime) : Prop where
  increment : rt.increment = d.incrementBy
  minValue : rt.minValue = d.minValue
  maxValue : rt.maxValue = d.maxValue
  cycle : rt.cycle = d.cycle
  durable : rt.volatile = false

variable {d : PersistedSequence} {s : State}

theorem Runs.same {rt rt' : SeqRuntime} (h : Runs d rt) (hs : rt.SameDefinition rt') : Runs d rt' :=
  ⟨hs.increment.trans h.increment,hs.minValue.trans h.minValue,hs.maxValue.trans h.maxValue,
    hs.cycle.trans h.cycle,hs.volatile.trans h.durable⟩

theorem Runs.proper {rt : SeqRuntime} (h : Runs d rt) (hd : Proper d) : rt.Proper :=
  ⟨h.increment ▸ hd.moves,h.cycle.trans hd.noCycle,h.minValue ▸ hd.low,h.maxValue ▸ hd.high⟩

/-- No value was ever taken. -/
structure Quiet (s : State) : Prop where
  notCalled : s.rt.isCalled = false
  empty : s.rt.Exhausted
  nothing : s.returned = []
  noneTaken : ∀ t pc, s.calls t = some pc → pc.taken = none

/-- What a record promises: a called one reaches as far as the window, and before the first
flush there is nothing to promise but a first value past the empty window. -/
def RecordOk (s : State) : Option PersistedSeqState → Prop
  | some ⟨high,true⟩ => s.rt.lowest ≤ s.rt.pos high ∧ s.rt.pos high ≤ s.rt.highest ∧
      s.rt.pos s.rt.blockEnd ≤ s.rt.pos high
  | record => Quiet s ∧
      let first := (record.map (·.lastReserved)).getD s.rt.notCalledTarget
      s.rt.lowest ≤ s.rt.pos first ∧ s.rt.pos first ≤ s.rt.highest ∧ s.rt.pos s.rt.blockEnd < s.rt.pos first

def Reaches (incr v : Int) (record : Option PersistedSeqState) : Prop :=
  ∃ high, record = some ⟨high,true⟩ ∧ position incr v ≤ position incr high

structure Inv (d : PersistedSequence) (s : State) : Prop where
  window : s.rt.Window s.calls (s.returned.map (·.1))
  runs : Runs d s.rt
  floor : s.rt.lowest ≤ s.rt.pos s.rt.blockEnd + 1
  visible : RecordOk s s.disk.visible
  synced : RecordOk s s.disk.synced
  marked : ∀ t pc last, s.calls t = some pc → pc.publishes = some last →
    Reaches d.incrementBy last s.disk.visible ∧ Reaches d.incrementBy last s.disk.synced
  covered : ∀ entry ∈ s.returned, Reaches d.incrementBy entry.1 entry.2

variable {record : Option PersistedSeqState}

theorem RecordOk.called (h : RecordOk s record)
    (hq : ¬Quiet s) : ∃ high, record = some ⟨high,true⟩ ∧ s.rt.pos s.rt.blockEnd ≤ s.rt.pos high := by
  match record, h with
  | some ⟨high,true⟩, h => exact ⟨high,rfl,h.2.2⟩
  | some ⟨_,false⟩, h => exact absurd h.1 hq
  | none, h => exact absurd h.1 hq

theorem RecordOk.mono {s s' : State} (h : RecordOk s record)
    (hs : s.rt.SameDefinition s'.rt) (hbl : Quiet s → Quiet s' ∧ s'.rt.blockEnd = s.rt.blockEnd)
    (hc : ∀ high, record = some ⟨high,true⟩ → s.rt.pos s'.rt.blockEnd ≤ s.rt.pos high) : RecordOk s' record := by
  match record, h with
  | some ⟨high,true⟩, h =>
    refine ⟨?_,?_,?_⟩
    · rw [hs.lowest_eq,hs.pos_eq]
      exact h.1
    · rw [hs.highest_eq,hs.pos_eq]
      exact h.2.1
    · rw [hs.pos_eq,hs.pos_eq]
      exact hc high rfl
  | some ⟨first,false⟩, h =>
    obtain ⟨hq,hb⟩ := hbl h.1
    refine ⟨hq,?_⟩
    rw [hb,hs.lowest_eq,hs.highest_eq]
    simp only [hs.pos_eq,Option.map_some,Option.getD_some]
    exact h.2
  | none, h =>
    obtain ⟨hq,hb⟩ := hbl h.1
    refine ⟨hq,?_⟩
    rw [hb,hs.lowest_eq,hs.highest_eq,hs.notCalledTarget]
    simp only [hs.pos_eq,Option.map_none,Option.getD_none]
    exact h.2

theorem Inv.pos_eq (h : Inv d s) (v : Int) : s.rt.pos v = position d.incrementBy v := by
  rw [pos,h.runs.increment]

theorem Inv.opensPast (hd : Proper d) (h : Inv d s) {t : ThreadId} {pc : Pc}
    (hc : s.calls t = some pc) (answer : Answer) : s.rt.OpensPast s.disk answer pc := by
  cases pc with
  | readState inMemHigh inMemCalled =>
    obtain ⟨-,rfl,hcl⟩ := h.window.fits t _ hc
    intro durable first hrd hf
    have hd' : durable = s.disk.visible := by
      simp only [readDurable,h.runs.durable,Bool.false_eq_true,if_false] at hrd
      split at hrd
      · cases hrd
      · exact (Except.ok.inj hrd).symm
    subst hd'
    have hqt : Quiet s → inMemCalled = false := by
      intro hq
      cases inMemCalled with
      | false => rfl
      | true => exact absurd (hcl rfl) (by simp [hq.notCalled])
    have hp := h.runs.proper hd
    have hr := h.visible
    have hfl := h.floor
    match hv : s.disk.visible with
    | some ⟨high,true⟩ =>
      rw [hv] at hf hr
      simp only [firstOfBlock,Option.map_some,Option.getD_some,Bool.true_or,Bool.not_true,Bool.false_eq_true,
        if_false] at hf
      obtain ⟨ha,hh⟩ := checkedStep_ok hp hf
      obtain ⟨hl,-,hb⟩ := hr
      have hm := hp.moves
      refine ⟨?_,hh,?_⟩
      all_goals
        unfold pos position lowest at *
        split_ifs at * <;> omega
    | some ⟨target,false⟩ =>
      rw [hv] at hf hr
      obtain ⟨hq,hrest⟩ := hr
      rw [hqt hq] at hf
      simp only [firstOfBlock,Option.map_some,Option.getD_some,Bool.or_false,Bool.not_false,if_true,
        Bool.false_eq_true,if_false,Except.ok.injEq] at hf
      subst hf
      exact hrest
    | none =>
      rw [hv] at hf hr
      obtain ⟨hq,hrest⟩ := hr
      rw [hqt hq] at hf
      simp only [firstOfBlock,Option.map_none,Option.getD_none,Bool.or_false,Bool.not_false,if_true,
        Except.ok.injEq] at hf
      subst hf
      exact hrest
  | _ => trivial

section
variable {d : PersistedSequence} {s : State} {t : ThreadId} {pc : Pc} {answer : Answer}

theorem State.advance_same : s.rt.SameDefinition (s.advance t answer pc).rt := SeqRuntime.advance_same

theorem State.advance_calls_self : (s.advance t answer pc).calls t = goesOn (s.rt.advance s.disk t answer pc).2.2 :=
  update_self t _ s.calls

theorem Inv.window_advance (hd : Proper d) (h : Inv d s) (hc : s.calls t = some pc) (hs : ¬s.rt.Saturating pc) :
    (s.advance t answer pc).rt.Window (s.advance t answer pc).calls ((s.advance t answer pc).returned.map (·.1)) := by
  have ha := h.window.advance hc s.disk answer hs (h.opensPast hd hc answer)
  unfold State.advance
  dsimp only
  rw [map_append,map_map]
  rw [After] at ha
  cases hp : (s.rt.advance s.disk t answer pc).2.2 with
  | again =>
    rw [hp] at ha
    have hb := ha.begin t
    rw [update_idem] at hb
    exact hb
  | goto new | returned value | failed error =>
    rw [hp] at ha
    exact ha

theorem not_quiet_of_taken (hc : s.calls t = some pc) {v : Int} (hv : pc.taken = some v) : ¬Quiet s := by
  intro hq
  rw [hq.noneTaken t pc hc] at hv
  cases hv

variable (h : Inv d s)
include h

theorem Inv.reaches {v : Int} (hv : s.rt.pos v ≤ s.rt.pos s.rt.blockEnd) (hq : ¬Quiet s)
    {record : Option PersistedSeqState} (hr : RecordOk s record) : Reaches d.incrementBy v record := by
  obtain ⟨high,he,hb⟩ := hr.called hq
  refine ⟨high,he,?_⟩
  rw [← h.pos_eq,← h.pos_eq]
  exact hv.trans hb

theorem Inv.of_advance (hd : Proper d) (hc : s.calls t = some pc) (hs : ¬s.rt.Saturating pc)
    (hf : s.rt.lowest ≤ s.rt.pos (s.advance t answer pc).rt.blockEnd + 1)
    (hvs : RecordOk (s.advance t answer pc) (s.advance t answer pc).disk.visible)
    (hsy : RecordOk (s.advance t answer pc) (s.advance t answer pc).disk.synced)
    (hm : ∀ new last, (s.advance t answer pc).calls t = some new → new.publishes = some last →
      Reaches d.incrementBy last (s.advance t answer pc).disk.visible ∧
        Reaches d.incrementBy last (s.advance t answer pc).disk.synced)
    (hoh : (s.advance t answer pc).disk = s.disk ∨ pc.critical = true)
    (hh : ∀ v ∈ (s.rt.advance s.disk t answer pc).2.2.handed,
      Reaches d.incrementBy v (s.advance t answer pc).disk.synced) : Inv d (s.advance t answer pc) where
  window := h.window_advance hd hc hs
  runs := h.runs.same advance_same
  floor := by
    have hsame : s.rt.SameDefinition (s.advance t answer pc).rt := State.advance_same
    rw [hsame.lowest_eq,hsame.pos_eq]
    exact hf
  visible := hvs
  synced := hsy
  marked t' other last ho hp := by
    by_cases ht : t' = t
    · subst ht
      exact hm other last ho hp
    have hold : s.calls t' = some other := (update_of_ne ht _ _).symm.trans ho
    rcases hoh with hds | hcr
    · rw [hds]
      exact h.marked t' other last hold hp
    · have hoc := (publishes_opens (h.window.fits t' other hold) hp).1
      rw [h.window.not_critical hc hcr ht hold] at hoc
      cases hoc
  covered entry he := by
    rcases mem_append.mp he with he | he
    · exact h.covered entry he
    · obtain ⟨v,hv,rfl⟩ := mem_map.mp he
      exact hh v hv

variable (hd : Proper d)
include hd

theorem Inv.advance_taken (hc : s.calls t = some pc) (hs : ¬s.rt.Saturating pc)
    {v : Int} (hv : pc.taken = some v) : Inv d (s.advance t answer pc) := by
  have hsame : s.rt.SameDefinition (s.advance t answer pc).rt := State.advance_same
  have hq := not_quiet_of_taken hc hv
  have hf := h.window.fits t pc hc
  obtain ⟨hds,hbl,hgs⟩ := @SeqRuntime.advance_taken s.rt s.disk t answer pc v hv
  have hd' : (s.advance t answer pc).disk = s.disk := hds
  have hrc : ∀ record, RecordOk s record → (∀ last, pc.publishes = some last → Reaches d.incrementBy last record) →
      RecordOk (s.advance t answer pc) record := by
    intro record hr hm
    refine hr.mono hsame (fun hqt => absurd hqt hq) ?_
    rintro high rfl
    rcases hbl with hb | hb
    · have hb' : (s.advance t answer pc).rt.blockEnd = s.rt.blockEnd := hb
      rw [hb']
      exact hr.2.2
    · obtain ⟨hi',he,hle⟩ := hm _ hb
      cases he
      rw [h.pos_eq,h.pos_eq]
      exact hle
  refine h.of_advance hd hc hs ?_ ?_ ?_ ?_ (.inl hd') ?_
  · rcases hbl with hb | hb
    · have hb' : (s.advance t answer pc).rt.blockEnd = s.rt.blockEnd := hb
      rw [hb']
      exact h.floor
    · obtain ⟨-,first,ho⟩ := publishes_opens hf hb
      have hlw := ho.low.trans ho.ordered
      have hb' : (s.advance t answer pc).rt.blockEnd = (s.rt.advance s.disk t answer pc).1.blockEnd := rfl
      rw [hb']
      omega
  · rw [hd']
    exact hrc _ h.visible fun last hl => (h.marked t pc last hc hl).1
  · rw [hd']
    exact hrc _ h.synced fun last hl => (h.marked t pc last hc hl).2
  · intro new last hn hl
    rw [hd']
    rw [State.advance_calls_self] at hn
    rcases hgs with ⟨hrt,-⟩ | ⟨new',hg,-,hp⟩
    · rw [hrt] at hn
      cases hn
    rw [hg] at hn
    cases hn
    rcases hp with hp | hp
    · exact h.marked t pc last hc (hp ▸ hl)
    · rw [hp] at hl
      cases hl
  · intro w hw
    rw [hd']
    rcases hgs with ⟨hrt,hst⟩ | ⟨new,hg,-⟩
    · rw [hrt] at hw
      obtain rfl := mem_singleton.mp hw
      exact h.reaches (hst hf).covered hq h.synced
    · rw [hg] at hw
      cases hw

theorem Inv.advance_exchange {cur stop : Int} (hc : s.calls t = some (.exchange cur stop))
    (hs : ¬s.rt.Saturating (.exchange cur stop)) (hnx : s.rt.next = cur) : Inv d (s.advance t answer (.exchange cur stop)) := by
  obtain ⟨hb,hst⟩ := h.window.fits t _ hc
  have hq : ¬Quiet s := by
    intro hq
    have hem := hq.empty
    rw [Exhausted,hnx] at hem
    omega
  have ho : s.rt.advance s.disk t answer (.exchange cur stop) =
      ({ s.rt with next := s.rt.stepped cur stop },s.disk,.goto (.storeCalled cur)) := by
    rw [SeqRuntime.advance,if_pos hnx]
  have hsame : s.rt.SameDefinition (s.advance t answer (.exchange cur stop)).rt := State.advance_same
  have hds : (s.advance t answer (.exchange cur stop)).disk = s.disk := by rw [State.advance,ho]
  have he : (s.advance t answer (.exchange cur stop)).rt.blockEnd = s.rt.blockEnd := by rw [State.advance,ho]
  have hrc : ∀ record, RecordOk s record → RecordOk (s.advance t answer (.exchange cur stop)) record := by
    intro record hr
    refine hr.mono hsame (fun hqt => absurd hqt hq) ?_
    rintro high rfl
    rw [he]
    exact hr.2.2
  refine h.of_advance hd hc hs ?_ ?_ ?_ ?_ (.inl hds) ?_
  · rw [he]
    exact h.floor
  · rw [hds]
    exact hrc _ h.visible
  · rw [hds]
    exact hrc _ h.synced
  · intro new last hn hl
    rw [State.advance_calls_self,ho] at hn
    cases hn
    cases hl
  · rw [ho]
    simp [Progress.handed]

theorem Inv.advance_untaken (hc : s.calls t = some pc) (hst : ¬s.rt.Saturating pc)
    (refill : Option ThreadId) (hrt : (s.advance t answer pc).rt = { s.rt with refill := refill })
    (hh : (s.rt.advance s.disk t answer pc).2.2.handed = [])
    (hnew : ∀ new, (s.advance t answer pc).calls t = some new → new.taken = none ∧ new.publishes = none)
    (hvs : (s.advance t answer pc).disk.visible = s.disk.visible ∨
      pc.critical = true ∧ ∃ first last, s.rt.Opens first last ∧ (s.advance t answer pc).disk.visible = some ⟨last,true⟩)
    (hs : (s.advance t answer pc).disk.synced = s.disk.synced) : Inv d (s.advance t answer pc) := by
  have hsame : s.rt.SameDefinition (s.advance t answer pc).rt := State.advance_same
  have he : (s.advance t answer pc).rt.blockEnd = s.rt.blockEnd := by rw [hrt]
  have hqt : Quiet s → Quiet (s.advance t answer pc) := by
    intro hq
    refine ⟨by rw [hrt]; exact hq.notCalled,by rw [hrt]; exact hq.empty,?_,fun t' other ho => ?_⟩
    · have hre : (s.advance t answer pc).returned = s.returned ++ (s.rt.advance s.disk t answer pc).2.2.handed.map _ := rfl
      rw [hre,hh,hq.nothing]
      rfl
    · by_cases ht : t' = t
      · subst ht
        exact (hnew other ho).1
      · exact hq.noneTaken t' other ((update_of_ne ht _ _).symm.trans ho)
  have hrc : ∀ record, RecordOk s record → RecordOk (s.advance t answer pc) record := by
    intro record hr
    refine hr.mono hsame (fun hq => ⟨hqt hq,he⟩) ?_
    rintro high rfl
    rw [he]
    exact hr.2.2
  refine h.of_advance hd hc hst ?_ ?_ ?_ ?_ ?_ ?_
  · rw [he]
    exact h.floor
  · rcases hvs with hv | ⟨-,first,last,hop,hv⟩
    · rw [hv]
      exact hrc _ h.visible
    rw [hv]
    refine ⟨?_,?_,?_⟩
    · rw [hsame.lowest_eq,hsame.pos_eq]
      exact hop.low.trans hop.ordered
    · rw [hsame.highest_eq,hsame.pos_eq]
      exact hop.high
    · rw [hsame.pos_eq,hsame.pos_eq,he]
      exact hop.past.le.trans hop.ordered
  · rw [hs]
    exact hrc _ h.synced
  · intro new last hn hl
    rw [(hnew new hn).2] at hl
    cases hl
  · rcases hvs with hv | ⟨hcr,-⟩
    · left
      rw [SeqDisk.ext_iff]
      exact ⟨hv,hs⟩
    · exact .inr hcr
  · rw [hh]
    simp

theorem Inv.advance_flush {durable : Option PersistedSeqState} {first last : Int}
    (hc : s.calls t = some (.flush durable first last)) (hs : ¬s.rt.Saturating (.flush durable first last)) :
    Inv d (s.advance t answer (.flush durable first last)) := by
  obtain ⟨he,hop⟩ := h.window.fits t _ hc
  rcases @persistHighWater_cases s.rt s.disk answer h.runs.durable last with hw | ⟨disk,error,hw,hsy,hvs⟩
  · have ho : s.rt.advance s.disk t answer (.flush durable first last) =
        (s.rt,⟨some ⟨last,true⟩,some ⟨last,true⟩⟩,.goto (.publishNext first last)) := by
      rw [SeqRuntime.advance,hw]
    have hrc : RecordOk (s.advance t answer (.flush durable first last)) (some ⟨last,true⟩) := by
      rw [State.advance,ho]
      exact ⟨hop.low.trans hop.ordered,hop.high,hop.past.le.trans hop.ordered⟩
    have hr : Reaches d.incrementBy last (some ⟨last,true⟩) := ⟨last,rfl,le_rfl⟩
    have hds : (s.advance t answer (.flush durable first last)).disk = ⟨some ⟨last,true⟩,some ⟨last,true⟩⟩ := by
      rw [State.advance,ho]
    refine h.of_advance hd hc hs ?_ ?_ ?_ ?_ (.inr rfl) ?_
    · rw [State.advance,ho]
      exact h.floor
    · rw [hds]
      exact hrc
    · rw [hds]
      exact hrc
    · intro new last' hn hl
      rw [State.advance_calls_self,ho] at hn
      cases hn
      cases hl
      rw [hds]
      exact ⟨hr,hr⟩
    · rw [ho]
      simp [Progress.handed]
  · have ho : s.rt.advance s.disk t answer (.flush durable first last) =
        (s.rt,disk,.goto (.unlockAndFail error)) := by
      rw [SeqRuntime.advance,hw]
    refine h.advance_untaken hd hc hs s.rt.refill ?_ ?_ ?_ ?_ ?_
    · rw [State.advance,ho]
    · rw [ho]
      rfl
    · intro new hn
      rw [State.advance_calls_self,ho] at hn
      cases hn
      exact ⟨rfl,rfl⟩
    · rw [State.advance,ho]
      exact hvs.imp id fun hv => ⟨rfl,first,last,hop,hv⟩
    · rw [State.advance,ho]
      exact hsy

theorem Inv.advance (hc : s.calls t = some pc) (hs : ¬s.rt.Saturating pc) : Inv d (s.advance t answer pc) := by
  cases htk : pc.taken with
  | some v => exact h.advance_taken hd hc hs htk
  | none =>
    by_cases hex : ∃ cur stop, pc = .exchange cur stop ∧ s.rt.next = cur
    · obtain ⟨cur,stop,rfl,hnx⟩ := hex
      exact h.advance_exchange hd hc hs hnx
    by_cases hfl : ∃ durable first last, pc = .flush durable first last
    · obtain ⟨durable,first,last,rfl⟩ := hfl
      exact h.advance_flush hd hc hs
    obtain ⟨⟨refill,hrt⟩,hds,hh,hnew⟩ := @advance_plain s.rt s.disk t answer pc htk
      (fun cur stop hpc hn => hex ⟨cur,stop,hpc,hn⟩) (fun durable first last hpc => hfl ⟨durable,first,last,hpc⟩)
    have hd' : (s.advance t answer pc).disk = s.disk := hds
    refine h.advance_untaken hd hc hs refill hrt hh ?_ (.inl (by rw [hd'])) (by rw [hd'])
    intro new hn
    rw [State.advance_calls_self] at hn
    cases hp : (s.rt.advance s.disk t answer pc).2.2 with
    | goto pc' =>
      rw [hp] at hn
      cases hn
      exact hnew _ hp
    | again =>
      rw [hp] at hn
      cases hn
      exact ⟨rfl,rfl⟩
    | returned value | failed error =>
      rw [hp] at hn
      cases hn

end

section
variable {d : PersistedSequence} {record : Option PersistedSeqState}

def recordOf (d : PersistedSequence) (record : Option PersistedSeqState) : PersistedSeqState :=
  record.getD (seedState d)

theorem position_neighbor {incr v : Int} (hv : IsI64 v) (hl : v ≠ limit incr) :
    position incr (if 0 < incr then saturate (v+1) else saturate (v-1)) = position incr v + 1 := by
  unfold position limit saturate i64Min i64Max at *
  obtain ⟨hmn,hm⟩ := hv
  unfold i64Min i64Max at *
  split_ifs at * <;> omega

theorem fromPersisted_called (hc : (recordOf d record).isCalled = true)
    (hb : IsI64 (recordOf d record).lastReserved) (hp : ¬ParksBeyond d record) :
    (fromPersisted d record false).blockEnd = (recordOf d record).lastReserved ∧
      position d.incrementBy (fromPersisted d record false).next =
        position d.incrementBy (recordOf d record).lastReserved + 1 := by
  have hl : (recordOf d record).lastReserved ≠ limit d.incrementBy := by
    intro he
    apply hp
    unfold ParksBeyond
    change (recordOf d record).lastReserved = limit (if (recordOf d record).isCalled = true then _ else _)
    rw [if_pos hc]
    exact he
  have hw : (record.getD (seedState d)).isCalled = true := hc
  refine ⟨?_,?_⟩
  · simp only [fromPersisted,hw,if_true]
    rfl
  · simp only [fromPersisted,hw,if_true]
    exact position_neighbor hb hl

theorem fromPersisted_not_called (hd : Proper d) (hc : (recordOf d record).isCalled = false)
    (hb : IsI64 (recordOf d record).lastReserved) (hp : ¬ParksBeyond d record) :
    (fromPersisted d record false).next = (recordOf d record).lastReserved ∧
      position d.incrementBy (fromPersisted d record false).blockEnd =
        position d.incrementBy (recordOf d record).lastReserved - 1 := by
  have hl : (recordOf d record).lastReserved ≠ limit (-d.incrementBy) := by
    intro he
    apply hp
    unfold ParksBeyond
    change (recordOf d record).lastReserved = limit (if (recordOf d record).isCalled = true then _ else _)
    rw [hc,if_neg (by simp)]
    exact he
  have hw : (record.getD (seedState d)).isCalled = false := hc
  have hm := hd.moves
  refine ⟨?_,?_⟩
  · simp only [fromPersisted,hw,Bool.false_eq_true,if_false]
    rfl
  · simp only [fromPersisted,hw,Bool.false_eq_true,if_false]
    obtain ⟨hmn,hmx⟩ := hb
    change position d.incrementBy (if 0 < d.incrementBy then saturate ((recordOf d record).lastReserved - 1)
      else saturate ((recordOf d record).lastReserved + 1)) = _
    unfold position limit saturate i64Min i64Max at *
    split_ifs at * <;> omega

/-- What a crash leaves: a record within the bounds that reaches past all returned values. -/
structure Resumes (d : PersistedSequence) (record : Option PersistedSeqState)
    (returned : List (Int × Option PersistedSeqState)) : Prop where
  within : d.minValue ≤ (recordOf d record).lastReserved ∧ (recordOf d record).lastReserved ≤ d.maxValue
  unique : (returned.map (·.1)).Nodup
  bounded : ∀ entry ∈ returned, d.minValue ≤ entry.1 ∧ entry.1 ≤ d.maxValue
  covered : ∀ entry ∈ returned, Reaches d.incrementBy entry.1 entry.2
  behind : ∀ entry ∈ returned, (recordOf d record).isCalled = true ∧
    position d.incrementBy entry.1 ≤ position d.incrementBy (recordOf d record).lastReserved

theorem runs_fromPersisted : Runs d (fromPersisted d record false) := ⟨rfl,rfl,rfl,rfl,rfl⟩

theorem inv_resume (hd : Proper d) {returned : List (Int × Option PersistedSeqState)}
    (hr : Resumes d record returned) (hpr : ¬ParksBeyond d record) : Inv d (resume d record returned) := by
  have hrn : Runs d (fromPersisted d record false) := runs_fromPersisted
  have hi64 : IsI64 (recordOf d record).lastReserved :=
    ⟨hd.low.1.trans hr.within.1,hr.within.2.trans hd.high.2⟩
  have hp : ∀ v, (fromPersisted d record false).pos v = position d.incrementBy v := fun v => rfl
  have hin : ∀ v, d.minValue ≤ v ∧ v ≤ d.maxValue → (fromPersisted d record false).lowest ≤
      (fromPersisted d record false).pos v ∧ (fromPersisted d record false).pos v ≤
        (fromPersisted d record false).highest := fun v hv => within_iff.mpr hv
  obtain ⟨hl,hh⟩ := hin _ hr.within
  have hpt := hp (fromPersisted d record false).next
  have hpositions' := hp (fromPersisted d record false).blockEnd
  rw [hp] at hl hh
  cases hc : (recordOf d record).isCalled with
  | true =>
    obtain ⟨hen,hn⟩ := fromPersisted_called hc hi64 hpr
    rw [hen] at hpositions'
    have hrc : RecordOk (resume d record returned) record := by
      cases record with
      | none => cases hc
      | some st =>
        obtain ⟨high,called⟩ := st
        obtain rfl : called = true := hc
        exact ⟨hl,hh,by rw [resume,hen]; exact le_rfl⟩
    have ha : (fromPersisted d record false).lowest ≤
        (fromPersisted d record false).pos (fromPersisted d record false).next := by omega
    have hf : (fromPersisted d record false).lowest ≤
        (fromPersisted d record false).pos (fromPersisted d record false).blockEnd + 1 := by
      rw [hp,hen]
      omega
    have hcp : (fromPersisted d record false).pos (fromPersisted d record false).blockEnd ≤
        (fromPersisted d record false).highest := by
      rw [hp,hen]
      exact hh
    have hs : ∀ v ∈ returned.map (·.1), (fromPersisted d record false).Settled v := by
      intro v hv
      obtain ⟨entry,he,rfl⟩ := mem_map.mp hv
      obtain ⟨-,hle⟩ := hr.behind entry he
      refine ⟨(hin _ (hr.bounded entry he)).1,?_,?_⟩
      · rw [hp,hp,hn]
        omega
      · rw [hp,hp,hen]
        exact hle
    exact ⟨⟨hrn.proper hd,ha,hcp,by simp [resume],by simp [resume],hs,hr.unique,
      by simp [resume],by simp [resume]⟩,hrn,hf,hrc,hrc,by simp [resume],hr.covered⟩
  | false =>
    obtain ⟨hn,hen⟩ := fromPersisted_not_called hd hc hi64 hpr
    have hnn : returned = [] := by
      apply eq_nil_iff_forall_not_mem.mpr
      intro entry he
      rw [(hr.behind entry he).1] at hc
      cases hc
    subst hnn
    have hem : (fromPersisted d record false).Exhausted := by
      rw [Exhausted,hp,hp,hen,hn]
      omega
    have hqt : Quiet (resume d record []) := ⟨hc,hem,rfl,by simp [resume]⟩
    have hps : position d.incrementBy (fromPersisted d record false).blockEnd <
        position d.incrementBy (recordOf d record).lastReserved := by
      rw [hen]
      omega
    have hrc : RecordOk (resume d record []) record := by
      cases record with
      | none => exact ⟨hqt,hl,hh,hps⟩
      | some st =>
        obtain ⟨target,called⟩ := st
        obtain rfl : called = false := hc
        exact ⟨hqt,hl,hh,hps⟩
    have ha : (fromPersisted d record false).lowest ≤
        (fromPersisted d record false).pos (fromPersisted d record false).next := by
      rw [hp,hn]
      exact hl
    have hf : (fromPersisted d record false).lowest ≤
        (fromPersisted d record false).pos (fromPersisted d record false).blockEnd + 1 := by omega
    have hcp : (fromPersisted d record false).pos (fromPersisted d record false).blockEnd ≤
        (fromPersisted d record false).highest := by omega
    exact ⟨⟨hrn.proper hd,ha,hcp,by simp [resume],by simp [resume],by simp [resume],by simp [resume],
      by simp [resume],by simp [resume]⟩,hrn,hf,hrc,hrc,by simp [resume],by simp [resume]⟩

theorem Inv.resumes (hd : Proper d) {s : State} (h : Inv d s) (hr : RecordOk s record) : Resumes d record s.returned := by
  have hb : ∀ v, s.rt.lowest ≤ s.rt.pos v ∧ s.rt.pos v ≤ s.rt.highest → d.minValue ≤ v ∧ v ≤ d.maxValue := by
    intro v hv
    rw [← h.runs.minValue,← h.runs.maxValue]
    exact within_iff.mp hv
  have hst : ∀ entry ∈ s.returned, s.rt.Settled entry.1 := fun entry he =>
    h.window.settled _ (mem_map.mpr ⟨entry,he,rfl⟩)
  refine ⟨?_,h.window.unique,?_,h.covered,?_⟩
  · match record, hr with
    | some ⟨high,true⟩, hr => exact hb high ⟨hr.1,hr.2.1⟩
    | some ⟨target,false⟩, hr => exact hb target ⟨hr.2.1,hr.2.2.1⟩
    | none, _ => exact hd.started
  · intro entry he
    have hs := hst entry he
    exact hb _ ⟨hs.low,hs.covered.trans h.window.capped⟩
  · intro entry he
    have hq : ¬Quiet s := by
      intro hq
      rw [hq.nothing] at he
      cases he
    obtain ⟨high,rfl,hle⟩ := hr.called hq
    refine ⟨rfl,?_⟩
    rw [← h.pos_eq,← h.pos_eq]
    exact (hst entry he).covered.trans hle

theorem step_inv (hd : Proper d) (s : State) (a : Step) (h : Inv d s) (hok : ParksInside d s a) : Inv d (step d s a) := by
  cases a with
  | begin t =>
    cases hc : s.calls t with
    | some pc =>
      simp only [step,hc]
      exact h
    | none =>
      simp only [step,hc]
      have hoh : ∀ t' other, Function.update s.calls t (some Pc.loadNext) t' = some other →
          s.calls t' = some other ∨ other = .loadNext := by
        intro t' other ho
        by_cases ht : t' = t
        · subst ht
          rw [update_self] at ho
          exact .inr (Option.some.inj ho).symm
        · rw [update_of_ne ht] at ho
          exact .inl ho
      have hqt : Quiet s → Quiet { s with calls := Function.update s.calls t (some Pc.loadNext) } := by
        intro hq
        refine ⟨hq.notCalled,hq.empty,hq.nothing,fun t' other ho => ?_⟩
        rcases hoh t' other ho with hold | rfl
        · exact hq.noneTaken t' other hold
        · rfl
      refine ⟨h.window.begin t,h.runs,h.floor,?_,?_,?_,h.covered⟩
      · exact h.visible.mono (.refl _) (fun hq => ⟨hqt hq,rfl⟩) fun high he => by
          have hv := h.visible
          rw [he] at hv
          exact hv.2.2
      · exact h.synced.mono (.refl _) (fun hq => ⟨hqt hq,rfl⟩) fun high he => by
          have hv := h.synced
          rw [he] at hv
          exact hv.2.2
      · intro t' other last ho hp
        rcases hoh t' other ho with hold | rfl
        · exact h.marked t' other last hold hp
        · cases hp
  | advance t answer =>
    cases hc : s.calls t with
    | none =>
      simp only [step,hc]
      exact h
    | some pc =>
      simp only [step,hc]
      exact h.advance hd hc (hok pc hc)
  | crash kept =>
    refine inv_resume hd (h.resumes hd ?_) hok
    cases kept with
    | true => exact h.visible
    | false => exact h.synced

end

/-- In every run that parks no pointer beyond the `i64` range, whatever the interleaving, the
crashes and the failures of the storage, no value is returned twice, all of them lie within
the bounds, and each was covered by a flushed high-water mark when it was returned. -/
theorem nextval_unique (d : PersistedSequence) (hd : Proper d) (record : Option PersistedSeqState)
    (hrecord : ∀ st ∈ record, d.minValue ≤ st.lastReserved ∧ st.lastReserved ≤ d.maxValue)
    (hpark : ¬ParksBeyond d record) (steps : List Step) (hok : Guarded (step d) (ParksInside d) (start d record) steps) :
    ((run (step d) (start d record) steps).returned.map (·.1)).Nodup ∧ ∀ entry ∈ (run (step d) (start d record) steps).returned,
        (d.minValue ≤ entry.1 ∧ entry.1 ≤ d.maxValue) ∧ Reaches d.incrementBy entry.1 entry.2 := by
  have hwithin : d.minValue ≤ (recordOf d record).lastReserved ∧ (recordOf d record).lastReserved ≤ d.maxValue := by
    cases record with
    | none => exact hd.started
    | some st => exact hrecord st rfl
  have hstart : Inv d (start d record) :=
    inv_resume hd ⟨hwithin,nodup_nil,by simp,by simp,by simp⟩ hpark
  have hrun := guarded_run_invariant (step d) (Inv d) (step_inv hd) hstart hok
  have hresumes := hrun.resumes hd hrun.synced
  exact ⟨hresumes.unique,fun entry he => ⟨hresumes.bounded entry he,hresumes.covered entry he⟩⟩

/-- A sequence from one with two values in a block. -/
def sampleSequence : PersistedSequence := ⟨"s",1,1,1,100,2,false⟩

/-- The accesses of a call that refills, and of one that takes the fast path. -/
def refillingCall (t : ThreadId) : List Step := .begin t :: List.replicate 14 (.advance t .done)
def fastCall (t : ThreadId) : List Step := .begin t :: List.replicate 5 (.advance t .done)

/-- Two calls in one block, then a crash: the next call skips nothing that was returned. -/
theorem nextval_unique_sample : (run (step sampleSequence) (start sampleSequence none)
      (refillingCall 1 ++ fastCall 2 ++ [.crash false] ++ refillingCall 1)).returned.map (·.1) = [1,2,3] ∧
    ((run (step sampleSequence) (start sampleSequence none)
      (refillingCall 1 ++ fastCall 2 ++ [.crash false] ++ refillingCall 1)).returned.map (·.1)).Nodup := by
  refine ⟨by decide +kernel,(nextval_unique sampleSequence ?_ none (by simp) (by decide) _ (by decide +kernel)).1⟩
  exact ⟨by decide,by decide,by decide,by decide,by decide⟩

/-- A sequence that starts at the largest `i64`. -/
def endSequence : PersistedSequence := ⟨"s",i64Max,1,1,i64Max,1,false⟩

/-- The pointer next to the last value of the range is the last value: two calls, one after
the other, return it both. -/
theorem last_value_returned_twice : ¬∀ (d : PersistedSequence), Proper d → ∀ steps : List Step,
      ((run (step d) (start d none) steps).returned.map (·.1)).Nodup := by
  intro h
  have hd : Proper endSequence := ⟨by decide,by decide,by decide,by decide,by decide⟩
  have htwice : (run (step endSequence) (start endSequence none) (refillingCall 1 ++ fastCall 2)).returned.map (·.1) =
      [i64Max,i64Max] := by decide +kernel
  have hnodup := h endSequence hd (refillingCall 1 ++ fastCall 2)
  rw [htwice] at hnodup
  exact absurd hnodup (by decide)

end HeliosNano.Sql.Nextval
