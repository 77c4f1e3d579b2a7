import HeliosNano.Replication.SwitchoverSafety
import Mathlib.Data.List.Infix

namespace HeliosNano.Replication.Switchover
open Foundation List Function RoleManager
def Stage.demoted : Stage → Bool
  | .reconfiguration | .notify | .follow | .resumption | .unblockWrites | .complete | .done => true
  | _ => false

def Pc.returns : Pc → Bool
  | .idle | .rollback _ _ => true
  | _ => false

def Step.isCommand : Step → Bool
  | .initiate _ _ | .cancel => true
  | _ => false

namespace World
variable {config : SwitchoverConfig} {w w' : World} {x : Execution} {failure : Option String}

/-- The target is primary, and every node that has handled the events knows it. -/
def HandedOver (w : World) (targetNode : Uuid) : Prop :=
  (w.nodes targetNode).role = .primary ∧ w.source.role = .standby ∧ w.source.currentPrimary = some targetNode ∧
    ∀ n, w.seen n = w.events.length → (w.nodes n).currentPrimary = some targetNode

/-- The source is primary again and a later switchover can start. -/
def Restored (w : World) (targetNode : Uuid) : Prop :=
  w.source.role = .primary ∧ w.writesBlocked = false ∧ w.source.currentPrimary = some w.source.nodeId ∧
    (w.nodes targetNode).role = .standby ∧ w.source.switchoverState = none

/-- The cluster is as the answer to the last command says. -/
def Ended (w : World) (targetNode : Uuid) : Prop :=
  match w.answer with
  | some (.initiate (.ok _)) => w.HandedOver targetNode
  | some (.initiate (.error _)) | some (.cancel (.ok _)) => w.Restored targetNode
  | some (.cancel (.error _)) | none => True

def Reachable (config : SwitchoverConfig) (w : World) : Prop :=
  ∃ nodeId lsn standbys steps, w = run (step config) (start nodeId lsn standbys) steps

/-- The role manager of another node after some events. -/
def heard (n : Uuid) (events : List SwitchoverEvent) : RoleManager := events.foldl handleEvent (.new n .standby)

theorem heard_append (n : Uuid) (events : List SwitchoverEvent) (event : SwitchoverEvent) :
    heard n (events ++ [event]) = handleEvent (heard n events) event := by
  rw [heard,foldl_append]
  rfl

theorem follows_heard (n : Uuid) (events : List SwitchoverEvent) : (heard n events).role.follows = true := by
  induction events using List.reverseRecOn with
  | nil => rfl
  | append_singleton events event ih =>
    rw [heard_append]
    exact follows_handleEvent ih event

variable {m : RoleManager} {stage : Stage} {m' : RoleManager}

theorem standby_of_ended (h : m.role.follows = true) {event : SwitchoverEvent}
    (he : (∃ id e, event = .failed id e) ∨ ∃ id, event = .cancelled id) : (handleEvent m event).role = .standby := by
  have hr : (if m.role.isTransitioning then m.orLog (m.changeRole .standby) else m).role = .standby := by
    rw [changeRole]
    cases hrl : m.role with
    | standby => exact hrl
    | catchingUp => rfl
    | _ => rw [hrl] at h; cases h
  obtain ⟨id,e,rfl⟩ | ⟨id,rfl⟩ := he
  · exact hr
  · exact hr

theorem none_of_canProceed {targetNode : Uuid} (h : (w.handleCheck config targetNode).canProceed = true) :
    w.source.role = .primary ∧ w.source.switchoverState = none := by
  rw [handleCheck] at h
  simp only [Bool.and_eq_true,decide_eq_true_eq,Option.isNone_iff_eq_none] at h
  exact h.1.1

theorem initiate_cases (config : SwitchoverConfig) (hpr : w.source.role = .primary) (targetNode switchoverId : Uuid) :
    ((w.handleCheck config targetNode).canProceed = false ∧
      ∃ e, w.initiate config targetNode switchoverId = { w with answer := some (.initiate (.error e)) }) ∨
      (w.handleCheck config targetNode).canProceed = true ∧ w.initiate config targetNode switchoverId =
        ({ w with source := begun w.source targetNode switchoverId }.send
          (.started switchoverId w.source.nodeId targetNode)).goto ⟨switchoverId,targetNode,0⟩ .preparation := by
  rw [initiate,if_neg (not_not.mpr hpr)]
  dsimp only
  cases hp : (w.handleCheck config targetNode).canProceed with
  | false => exact .inl ⟨rfl,_,if_pos rfl⟩
  | true =>
    refine .inr ⟨rfl,?_⟩
    have hok : w.source.beginSwitchover targetNode switchoverId = .ok (begun w.source targetNode switchoverId) := by
      rw [beginSwitchover,(none_of_canProceed hp).2,if_neg (not_not.mpr hpr)]
      rfl
    rw [hok]
    exact if_neg Bool.false_ne_true

/-- What every run keeps for the end of a switchover. -/
structure Settled (w : World) : Prop where
  delivered : ∀ n, w.seen n ≤ w.events.length ∧ w.nodes n = heard n (w.events.take (w.seen n))
  demoted : w.pc.has Stage.demoted = true → w.source.role = .standby
  reverted : w.pc.returns = true → w.source.role = .standby ∨ ∀ n, (heard n w.events).role = .standby
  unblocked : ∀ stage answer, w.pc = .rollback stage answer → stage ≠ .unblockWrites → w.writesBlocked = false
  primary : w.pc.isIdle = true → w.source.role = .primary →
    w.writesBlocked = false ∧ w.source.currentPrimary = some w.source.nodeId

variable (h : w.Settled)
include h

theorem Settled.delivered_of_grows (hg : w.events <+: w'.events) (hnd : w'.nodes = w.nodes)
    (hs : w'.seen = w.seen) : ∀ n, w'.seen n ≤ w'.events.length ∧ w'.nodes n = heard n (w'.events.take (w'.seen n)) := by
  intro n
  obtain ⟨hle,hn⟩ := h.delivered n
  rw [hnd,hs]
  obtain ⟨more,hm⟩ := hg
  rw [← hm,take_append_of_le_length hle,length_append]
  exact ⟨Nat.le_add_right_of_le hle,hn⟩

theorem Settled.executing (u : Untouched w w') (hg : w.events <+: w'.events)
    (hpc : w'.pc = .executing x stage) (hd : stage.demoted = true → w'.source.role = .standby) : w'.Settled := by
  refine ⟨h.delivered_of_grows hg u.nodes u.seen,?_,?_,?_,?_⟩
  · rw [hpc]
    exact hd
  · rw [hpc]
    exact nofun
  · rw [hpc]
    exact nofun
  · rw [hpc]
    exact nofun

theorem Settled.fail (x : Execution) (e : String) : { w with pc := .failing x e }.Settled :=
  ⟨h.delivered,fun hno => (nomatch hno),fun hno => (nomatch hno),fun _ _ hno => (nomatch hno),nofun⟩

variable {result : Except String RoleManager} {next : World → World}

theorem Settled.attempt (hn : ∀ source, result = .ok source → (next { w with source := source }).Settled) :
    (w.attempt x failure result next).Settled := by
  obtain ⟨e,heq⟩ | ⟨source,hok,heq⟩ := attempt_cases w x failure result next
  · rw [heq]
    exact h.fail x e
  · rw [heq]
    exact hn source hok

theorem Settled.advancePhase {stage' : Stage} (hpc : w.pc = .executing x stage) (phase : SwitchoverPhase)
    (hdm : stage'.demoted = true → stage.demoted = true) : (w.advancePhase x failure phase stage').Settled := by
  refine h.attempt fun source hok => ?_
  refine h.executing ⟨rfl,rfl,rfl,rfl,rfl,rfl,rfl⟩ (prefix_append _ _) rfl fun hd => ?_
  have hr : w.source.role = .standby := h.demoted (by rw [hpc]; exact hdm hd)
  exact (role_of_advance hok).trans hr

theorem Settled.executeSwitchover (hpc : w.pc = .executing x stage) : (w.executeSwitchover x failure stage).Settled := by
  have hr : stage.demoted = true → w.source.role = .standby := fun hd => h.demoted (by rw [hpc]; exact hd)
  have hno : ∀ {p : Prop}, false = true → p := by rintro _ ⟨⟩
  have hg : ∀ {result} stage', (∀ source, result = .ok source → stage'.demoted = true → source.role = .standby) →
      (w.attempt x failure result fun w => w.goto x stage').Settled := fun stage' hsr =>
    h.attempt fun source hok => h.executing ⟨rfl,rfl,rfl,rfl,rfl,rfl,rfl⟩ prefix_rfl rfl (hsr source hok)
  have hs : ∀ (x' : Execution) (stage' : Stage) (blocked : Bool) (agreed : Option (Lsn × Lsn)),
      stage'.demoted = false ∨ stage.demoted = true →
        ({ w with writesBlocked := blocked, agreed := agreed }.goto x' stage').Settled := by
    intro x' stage' blocked agreed hsg
    refine h.executing ⟨rfl,rfl,rfl,rfl,rfl,rfl,rfl⟩ prefix_rfl rfl fun hd => ?_
    obtain hf | hd' := hsg
    · rw [hf] at hd
      cases hd
    · exact hr hd'
  cases stage with
  | preparation | synchronization | roleChange => exact h.advancePhase hpc _ hno
  | blockWrites => exact hs x .enterDraining true w.agreed (.inl rfl)
  | enterDraining => exact hg .drain fun _ _ => hno
  | drain =>
    rw [World.executeSwitchover.eq_def]
    dsimp only
    split
    · split
      · exact h.fail x _
      · exact h
    · exact hs x .readFinalLsn w.writesBlocked w.agreed (.inl rfl)
  | readFinalLsn => exact hs _ .setTargetLsn w.writesBlocked w.agreed (.inl rfl)
  | setTargetLsn => exact hg .awaitTarget fun _ _ => hno
  | awaitTarget =>
    rw [World.executeSwitchover.eq_def]
    dsimp only
    split
    next info _ =>
      split
      · exact hs x .roleChange w.writesBlocked (some (x.finalLsn,info.applyLsn)) (.inl rfl)
      · split
        · exact h.fail x _
        · exact h
    · split
      · exact h.fail x _
      · exact h
  | transition => exact hg .demote fun _ _ => hno
  | demote => exact hg .reconfiguration fun _ hok _ => role_of_demote hok
  | reconfiguration | resumption => exact h.advancePhase hpc _ fun _ => rfl
  | notify =>
    exact h.executing ⟨rfl,rfl,rfl,rfl,rfl,rfl,rfl⟩ (prefix_append _ _) rfl fun _ => hr rfl
  | follow =>
    exact h.executing ⟨rfl,rfl,rfl,rfl,rfl,rfl,rfl⟩ prefix_rfl rfl fun _ => hr rfl
  | unblockWrites => exact hs x .complete false w.agreed (.inr rfl)
  | complete => exact hg .done fun _ hok _ => (role_of_advance hok).trans (hr rfl)
  | done =>
    have hst := hr rfl
    refine ⟨h.delivered_of_grows (prefix_append _ _) rfl rfl,(by rintro ⟨⟩),fun _ => .inl hst,
      (by rintro _ _ ⟨⟩),fun _ hp => ?_⟩
    exact absurd (hst.symm.trans hp) (by decide)

omit h

theorem role_of_restored (m : RoleManager) : (match m.role with
    | .draining | .transitioningToStandby => m.orLog (m.changeRole .primary) | _ => m).role = .standby ↔ m.role = .standby := by
  split
  next hr =>
    rw [changeRole,hr]
    exact ⟨(by rintro ⟨⟩),(by rintro ⟨⟩)⟩
  next hr =>
    rw [changeRole,hr]
    exact ⟨(by rintro ⟨⟩),(by rintro ⟨⟩)⟩
  · exact Iff.rfl

theorem Settled.rollbackSwitchover (h : w.Settled) {answer : Answer} {stage : RollbackStage} (hpc : w.pc = .rollback stage answer) :
    (w.rollbackSwitchover answer stage).Settled := by
  have hr := h.reverted (by rw [hpc]; rfl)
  cases stage with
  | unblockWrites =>
    exact ⟨h.delivered,(by rintro ⟨⟩),fun _ => hr,fun _ _ _ _ => rfl,(by rintro ⟨⟩)⟩
  | restoreRole =>
    have hu := h.unblocked _ _ hpc (by rintro ⟨⟩)
    exact ⟨h.delivered,nofun,fun _ => hr.imp_left (role_of_restored w.source).mpr,
      fun _ _ _ _ => hu,(by rintro ⟨⟩)⟩
  | trackPrimary =>
    have hu := h.unblocked _ _ hpc (by rintro ⟨⟩)
    have hqt : { w with
        source := w.source.setCurrentPrimary (some w.source.nodeId), pc := .idle, answer := some answer }.Settled :=
      ⟨h.delivered,(by rintro ⟨⟩),fun _ => hr,(by rintro _ _ ⟨⟩),fun _ _ => ⟨hu,rfl⟩⟩
    rw [World.rollbackSwitchover]
    cases answer with
    | initiate result => exact hqt
    | cancel result =>
      rw [announceCancel]
      split
      · refine ⟨hqt.delivered_of_grows (prefix_append _ _) rfl rfl,(by rintro ⟨⟩),fun _ => .inr fun n => ?_,
          (by rintro _ _ ⟨⟩),fun _ _ => ⟨hu,rfl⟩⟩
        exact (congrArg role (heard_append n w.events _)).trans
          (standby_of_ended (follows_heard n w.events) (.inr ⟨_,rfl⟩))
      · exact hqt

theorem Settled.coordinate (h : w.Settled) (failure : Option String) : (w.coordinate failure).Settled := by
  rw [World.coordinate]
  cases hpc : w.pc with
  | idle => exact h
  | executing x stage => exact h.executeSwitchover hpc
  | failing x e =>
    refine ⟨h.delivered_of_grows (prefix_append _ _) rfl rfl,(by rintro ⟨⟩),fun _ => .inr fun n => ?_,
      fun stage answer heq hne => ?_,(by rintro ⟨⟩)⟩
    · exact (congrArg role (heard_append n w.events _)).trans
        (standby_of_ended (follows_heard n w.events) (.inl ⟨_,_,rfl⟩))
    · exact absurd (Pc.rollback.inj heq).1.symm hne
  | rollback stage answer => exact h.rollbackSwitchover hpc

theorem Settled.initiate (h : w.Settled) (config : SwitchoverConfig) (targetNode switchoverId : Uuid) :
    (w.initiate config targetNode switchoverId).Settled := by
  by_cases hp : w.source.role = .primary
  · obtain ⟨-,e,heq⟩ | ⟨-,heq⟩ := initiate_cases config hp targetNode switchoverId
    · rw [heq]
      exact ⟨h.delivered,h.demoted,h.reverted,h.unblocked,h.primary⟩
    · rw [heq]
      exact h.executing ⟨rfl,rfl,rfl,rfl,rfl,rfl,rfl⟩ (prefix_append _ _) rfl nofun
  · rw [World.initiate,if_pos hp]
    exact ⟨h.delivered,h.demoted,h.reverted,h.unblocked,h.primary⟩

theorem cancel_cases (w : World) :
    w.source.switchoverState = none ∧ (∃ e, w.cancel = { w with answer := some (.cancel (.error e)) }) ∨
      w.source.switchoverState ≠ none ∧ w.cancel = { w with
        source := { w.source with switchoverState := none }, pc := .rollback .unblockWrites (.cancel (.ok ())) } := by
  rw [cancel,cancelSwitchover]
  cases hst : w.source.switchoverState with
  | none => exact .inl ⟨rfl,_,rfl⟩
  | some s => exact .inr ⟨(by rintro ⟨⟩),rfl⟩

theorem Settled.cancel (h : w.Settled) (hi : w.pc.isIdle = true) : w.cancel.Settled := by
  have hr : w.pc.returns = true := by
    cases hpc : w.pc with
    | idle => rfl
    | _ => rw [hpc] at hi; cases hi
  obtain ⟨-,e,heq⟩ | ⟨-,heq⟩ := cancel_cases w
  · rw [heq]
    exact ⟨h.delivered,h.demoted,h.reverted,h.unblocked,h.primary⟩
  rw [heq]
  refine ⟨h.delivered,fun hno => (nomatch hno),fun _ => h.reverted hr,fun stage answer hpc hne => ?_,
    nofun⟩
  exact absurd (Pc.rollback.inj hpc).1.symm hne

theorem Settled.deliver (h : w.Settled) (node : Uuid) : (w.deliver node).Settled := by
  rw [World.deliver]
  split
  · exact h
  next event he =>
    refine ⟨fun n => ?_,h.demoted,h.reverted,h.unblocked,h.primary⟩
    dsimp only
    by_cases hn : n = node
    · obtain ⟨hlt,hg⟩ := List.getElem?_eq_some_iff.mp he
      rw [hn,update_self,update_self,(h.delivered node).2,← take_append_getElem hlt,hg,
        heard_append]
      exact ⟨hlt,rfl⟩
    · rw [update_of_ne hn,update_of_ne hn]
      exact h.delivered n

theorem Settled.step (h : w.Settled) (config : SwitchoverConfig) (s : Step) : (w.step config s).Settled := by
  have hsame : ∀ lsn standbys inFlight admitting commits, { w with
      lsn := lsn, standbys := standbys, inFlight := inFlight, admitting := admitting, commits := commits }.Settled :=
    fun _ _ _ _ _ => ⟨h.delivered,h.demoted,h.reverted,h.unblocked,h.primary⟩
  cases s with
  | load =>
    rw [World.step]
    split
    · exact h
    · exact hsame _ _ _ _ _
  | admitWrite | commit advance | dropGuard =>
    rw [World.step]
    split
    · exact hsame _ _ _ _ _
    · exact h
  | register standbys => exact hsame _ _ _ _ _
  | initiate targetNode switchoverId =>
    rw [World.step]
    split
    · exact h.initiate config targetNode switchoverId
    · exact h
  | cancel =>
    rw [World.step]
    split
    next hi =>
      exact h.cancel hi
    · exact h
  | coordinate failure => exact h.coordinate failure
  | deliver node => exact h.deliver node

theorem settled_start (nodeId : Uuid) (lsn : Lsn) (standbys : List StandbyInfo) : (World.start nodeId lsn standbys).Settled :=
  ⟨fun _ => ⟨Nat.le_refl _,rfl⟩,fun hno => (nomatch hno),fun _ => .inr fun _ => rfl,fun _ _ hno => (nomatch hno),
    fun _ _ => ⟨rfl,rfl⟩⟩

theorem Reachable.settled (h : Reachable config w) : w.Settled := by
  obtain ⟨nodeId,lsn,standbys,steps,rfl⟩ := h
  exact run_invariant (World.step config) Settled (fun _ s h => h.step config s) (settled_start nodeId lsn standbys) steps

theorem Reachable.follows (h : Reachable config w) (n : Uuid) : (w.nodes n).role.follows = true := by
  obtain ⟨nodeId,lsn,standbys,steps,rfl⟩ := h
  exact follows_run config nodeId lsn standbys steps n

theorem Reachable.run (h : Reachable config w) (steps : List Step) : Reachable config (run (World.step config) w steps) := by
  obtain ⟨nodeId,lsn,standbys,before,rfl⟩ := h
  exact ⟨nodeId,lsn,standbys,before ++ steps,(run_append (World.step config) _ before steps).symm⟩

theorem Settled.standby (h : w.Settled) (hi : w.pc.isIdle = true) (hp : w.source.role = .primary) {n : Uuid}
    (hsn : w.seen n = w.events.length) : (w.nodes n).role = .standby := by
  have hr : w.pc.returns = true := by
    cases hpc : w.pc with
    | idle => rfl
    | _ => rw [hpc] at hi; cases hi
  have hn := (h.delivered n).2
  rw [hsn,take_length] at hn
  rw [hn]
  refine (h.reverted hr).resolve_left (fun hs => ?_) n
  rw [hp] at hs
  cases hs

theorem step_other (config : SwitchoverConfig) (w : World) {s : Step} (hc : s.isCommand = false) :
    (∃ failure, s = .coordinate failure) ∨ (w.step config s).pc = w.pc ∧ (w.step config s).source = w.source ∧
      (w.step config s).writesBlocked = w.writesBlocked ∧ (w.step config s).answer = w.answer := by
  cases s with
  | coordinate failure => exact .inl ⟨failure,rfl⟩
  | initiate _ _ | cancel => cases hc
  | load | admitWrite | commit advance | dropGuard =>
    rw [step]
    split <;> exact .inr ⟨rfl,rfl,rfl,rfl⟩
  | register standbys => exact .inr ⟨rfl,rfl,rfl,rfl⟩
  | deliver node =>
    rw [step,deliver]
    split <;> exact .inr ⟨rfl,rfl,rfl,rfl⟩

theorem run_resting (config : SwitchoverConfig) (hi : w.pc = .idle) {steps : List Step}
    (hst : ∀ s ∈ steps, s.isCommand = false) : let w' := run (step config) w steps
    w'.pc = .idle ∧ w'.source = w.source ∧ w'.writesBlocked = w.writesBlocked ∧ w'.answer = w.answer := by
  refine forall_run_invariant (step config) (fun w' : World => w'.pc = .idle ∧ w'.source = w.source ∧
    w'.writesBlocked = w.writesBlocked ∧ w'.answer = w.answer) (fun w' s h hs => ?_) ⟨hi,rfl,rfl,rfl⟩ hst
  obtain ⟨failure,rfl⟩ | ⟨hpc,hsr,hb,ha⟩ := step_other config w' hs
  · rw [step,coordinate,h.1]
    exact h
  · exact ⟨hpc.trans h.1,hsr.trans h.2.1,hb.trans h.2.2.1,ha.trans h.2.2.2⟩

/-- A switchover that has begun stays recorded until it is complete, whatever fails. -/
def Recorded (w : World) : Prop :=
  match w.pc with
  | .executing _ .done => True
  | .executing _ _ | .failing _ _ => w.source.switchoverState ≠ none
  | .rollback _ answer => w.source.switchoverState ≠ none ∧ ∃ e, answer = .initiate (.error e)
  | .idle => (∃ id, w.answer = some (.initiate (.ok id))) ∨
      w.source.switchoverState ≠ none ∧ ∃ e, w.answer = some (.initiate (.error e))

theorem recorded_attempt (h : w.source.switchoverState ≠ none)
    (hn : ∀ source, result = .ok source → (next { w with source := source }).Recorded) :
    (w.attempt x failure result next).Recorded := by
  obtain ⟨e,heq⟩ | ⟨source,hok,heq⟩ := attempt_cases w x failure result next
  · rw [heq]
    exact h
  · rw [heq]
    exact hn source hok

theorem recorded_advance {phase : SwitchoverPhase} (h : m.advanceSwitchoverPhase phase = .ok m')
    (hph : phase.isTerminal = false) : m'.switchoverState ≠ none := by
  rw [advanceSwitchoverPhase] at h
  split at h
  · rw [← Except.ok.inj h,hph]
    rintro ⟨⟩
  · cases h

theorem recorded_setTargetLsn {lsn : Lsn} (h : m.setSwitchoverTargetLsn lsn = .ok m') : m'.switchoverState ≠ none := by
  rw [setSwitchoverTargetLsn] at h
  split at h
  · rw [← Except.ok.inj h]
    rintro ⟨⟩
  · cases h

theorem state_of_changeRole {role : NodeRole} (h : m.changeRole role = .ok m') : m'.switchoverState = m.switchoverState := by
  rw [changeRole] at h
  split at h
  · cases h
  · rw [← Except.ok.inj h]

theorem state_of_demote (h : m.demoteToStandby = .ok m') : m'.switchoverState = m.switchoverState := by
  rw [demoteToStandby.eq_def] at h
  split at h
  · exact state_of_changeRole h
  · exact state_of_changeRole h
  · exact state_of_changeRole h
  · cases h

theorem Recorded.executeSwitchover (h : w.Recorded) (hpc : w.pc = .executing x stage) :
    (w.executeSwitchover x failure stage).Recorded := by
  by_cases hd : stage = .done
  · rw [hd]
    exact .inl ⟨_,rfl⟩
  have hst : w.source.switchoverState ≠ none := by
    rw [Recorded,hpc] at h
    cases stage <;> first | exact h | exact absurd rfl hd
  cases stage with
  | preparation | synchronization | roleChange
  | reconfiguration | resumption => exact recorded_attempt hst fun _ hok => recorded_advance hok rfl
  | blockWrites | readFinalLsn | notify | follow | unblockWrites => exact hst
  | enterDraining | transition => exact recorded_attempt hst fun _ hok => (state_of_changeRole hok).trans_ne hst
  | drain =>
    rw [World.executeSwitchover.eq_def]
    dsimp only
    split
    · split
      · exact hst
      · exact h
    · exact hst
  | setTargetLsn => exact recorded_attempt hst fun _ hok => recorded_setTargetLsn hok
  | awaitTarget =>
    rw [World.executeSwitchover.eq_def]
    dsimp only
    split
    · split
      · exact hst
      · split
        · exact hst
        · exact h
    · split
      · exact hst
      · exact h
  | demote => exact recorded_attempt hst fun _ hok => (state_of_demote hok).trans_ne hst
  | complete => exact recorded_attempt hst fun _ _ => trivial
  | done => exact absurd rfl hd

theorem state_of_restored (m : RoleManager) : (match m.role with
    | .draining | .transitioningToStandby => m.orLog (m.changeRole .primary) | _ => m).switchoverState = m.switchoverState := by
  split
  next hr =>
    rw [changeRole,hr]
    rfl
  next hr =>
    rw [changeRole,hr]
    rfl
  · rfl

theorem Recorded.step (h : w.Recorded) (config : SwitchoverConfig) {s : Step} (hc : s.isCommand = false) :
    (w.step config s).Recorded := by
  obtain ⟨failure,rfl⟩ | ⟨hpc,hs,-,ha⟩ := step_other config w hc
  · rw [World.step,World.coordinate]
    cases hpc : w.pc with
    | idle => exact h
    | executing x stage => exact h.executeSwitchover hpc
    | failing x e =>
      rw [Recorded,hpc] at h
      exact ⟨h,e,rfl⟩
    | rollback stage answer =>
      rw [Recorded,hpc] at h
      obtain ⟨hst,e,rfl⟩ := h
      cases stage with
      | unblockWrites => exact ⟨hst,e,rfl⟩
      | restoreRole => exact ⟨(state_of_restored w.source).trans_ne hst,e,rfl⟩
      | trackPrimary => exact .inr ⟨hst,e,rfl⟩
  · rw [Recorded,hpc,hs,ha]
    exact h

def Cancelling (w : World) : Prop :=
  w.source.role = .primary ∧ w.source.switchoverState = none ∧ match w.pc with
    | .idle => w.answer = some (.cancel (.ok ()))
    | .rollback _ answer => answer = .cancel (.ok ())
    | _ => False

theorem Cancelling.step (h : w.Cancelling) (config : SwitchoverConfig) {s : Step} (hc : s.isCommand = false) :
    (w.step config s).Cancelling := by
  obtain ⟨failure,rfl⟩ | ⟨hpc,hs,-,ha⟩ := step_other config w hc
  · obtain ⟨hr,hst,ha⟩ := h
    rw [World.step,World.coordinate]
    cases hpc : w.pc with
    | idle => exact ⟨hr,hst,ha⟩
    | executing x stage | failing x e =>
      rw [hpc] at ha
      exact ha.elim
    | rollback stage answer =>
      rw [hpc] at ha
      dsimp only at ha ⊢
      rw [ha]
      cases stage with
      | unblockWrites => exact ⟨hr,hst,rfl⟩
      | restoreRole =>
        rw [rollbackSwitchover,hr]
        exact ⟨hr,hst,rfl⟩
      | trackPrimary =>
        rw [rollbackSwitchover,announceCancel]
        dsimp only
        have hn : (w.source.setCurrentPrimary (some w.source.nodeId)).switchoverState = none := hst
        rw [hn]
        exact ⟨hr,hst,rfl⟩
  · rw [Cancelling,hpc,hs,ha]
    exact h

end World
open World

/-- A command is given to a coordinator at rest on a primary, and its outcome looked at when the coordinator is at rest again and the
target has handled every event. A switchover ends as it answers exactly when it does not begin: when its precondition check refuses
it, with none recorded. A cancellation of a recorded one always does. -/
theorem switchover_usable_iff {config : SwitchoverConfig} {w : World} (hreachable : Reachable config w)
    (hidle : w.pc.isIdle = true) (hprimary : w.source.role = .primary) {steps : List Step}
    (hsteps : ∀ s ∈ steps, s.isCommand = false) :
    (∀ targetNode switchoverId, let w' := run (step config) (w.step config (.initiate targetNode switchoverId)) steps
      w'.pc.isIdle = true → w'.seen targetNode = w'.events.length →
        (w'.Ended targetNode ↔ w.source.switchoverState = none ∧ (w.handleCheck config targetNode).canProceed = false)) ∧
      ∀ targetNode, let w' := run (step config) (w.step config .cancel) steps
        w.source.switchoverState ≠ none → w'.pc.isIdle = true → w'.seen targetNode = w'.events.length → w'.Ended targetNode := by
  have hidle_of : ∀ {w' : World}, w'.pc.isIdle = true → w'.pc = .idle := by
    intro w' hidle'
    cases hpc : w'.pc with
    | idle => rfl
    | _ => rw [hpc] at hidle'; cases hidle'
  have hpc := hidle_of hidle
  constructor
  · intro targetNode switchoverId w' hidle' hseen
    have hreachable' : Reachable config w' := (hreachable.run [.initiate targetNode switchoverId]).run steps
    have hstep : w.step config (.initiate targetNode switchoverId) = w.initiate config targetNode switchoverId := if_pos hidle
    obtain ⟨hrefuses,e,heq⟩ | ⟨hproceed,heq⟩ := initiate_cases config hprimary targetNode switchoverId
    · -- Nothing happens after the refusal.
      have hw := hstep.trans heq
      have hrests : (w.step config (.initiate targetNode switchoverId)).pc = .idle := by
        rw [hw]
        exact hpc
      obtain ⟨-,hsource,hblocked,hanswer⟩ := run_resting config hrests hsteps
      replace hsource : w'.source = w.source := hsource.trans (by rw [hw])
      replace hblocked : w'.writesBlocked = w.writesBlocked := hblocked.trans (by rw [hw])
      replace hanswer : w'.answer = some (.initiate (.error e)) := hanswer.trans (by rw [hw])
      obtain ⟨hopen,hself⟩ := hreachable.settled.primary hidle hprimary
      have hstandby := hreachable'.settled.standby hidle' (by rw [hsource]; exact hprimary) hseen
      rw [Ended,hanswer]
      dsimp only
      rw [Restored,hsource,hblocked]
      exact ⟨fun hrestored => ⟨hrestored.2.2.2.2,hrefuses⟩,fun hnone => ⟨hprimary, hopen,hself,hstandby,hnone.1⟩⟩
    · have hbegun : (w.step config (.initiate targetNode switchoverId)).Recorded := by
        rw [hstep,heq]
        exact nofun
      have hrecorded : w'.Recorded :=
        forall_run_invariant (step config) Recorded (fun _ _ h hs => h.step config hs) hbegun hsteps
      rw [Recorded,hidle_of hidle'] at hrecorded
      refine ⟨fun hended => ?_,fun hno => ?_⟩
      · obtain ⟨id,hanswer⟩ | ⟨hstate,e,hanswer⟩ := hrecorded
        · rw [Ended,hanswer] at hended
          have hfollows := hreachable'.follows targetNode
          rw [hended.1] at hfollows
          cases hfollows
        · rw [Ended,hanswer] at hended
          exact absurd hended.2.2.2.2 hstate
      · rw [hproceed] at hno
        cases hno.2
  · intro targetNode w' hstate hidle' hseen
    have hreachable' : Reachable config w' := (hreachable.run [.cancel]).run steps
    have hstep : w.step config .cancel = w.cancel := if_pos hidle
    obtain ⟨hnone,-⟩ | ⟨-,heq⟩ := cancel_cases w
    · exact absurd hnone hstate
    have hbegun : (w.step config .cancel).Cancelling := by
      rw [hstep,heq]
      exact ⟨hprimary,rfl,rfl⟩
    obtain ⟨hrole,hnone,hanswer⟩ : w'.Cancelling :=
      forall_run_invariant (step config) Cancelling (fun _ _ h hs => h.step config hs) hbegun hsteps
    rw [hidle_of hidle'] at hanswer
    obtain ⟨hopen,hself⟩ := hreachable'.settled.primary hidle' hrole
    rw [Ended,hanswer]
    exact ⟨hrole, hopen,hself,hreachable'.settled.standby hidle' hrole hseen,hnone⟩

/-- A switchover of node 1 to a node that is not registered. -/
theorem switchover_usable_iff_refused :
    (run (step ⟨1,false⟩) ((World.start 1 0 []).step ⟨1,false⟩ (.initiate 2 7)) [.coordinate none,.deliver 2]).Ended 2 :=
  (@switchover_usable_iff ⟨1,false⟩ (World.start 1 0 []) ⟨1,0,[],[],rfl⟩ rfl rfl [.coordinate none,.deliver 2]
    (by decide)).1 2 7 (by decide) (by decide) |>.mpr ⟨rfl,by decide⟩

/-- Node 1 hands over to node 2, which handles every event. -/
def handOverHandled : List Step := List.replicate 18 (.coordinate none) ++ List.replicate 8 (.deliver 2)

/-- The target is not seen at the final LSN in time; node 2 handles every event. -/
def handOverFailed : List Step :=
  List.replicate 7 (.coordinate none) ++ List.replicate 5 (.coordinate (some "Sync timeout: target standby not caught up")) ++
    List.replicate 4 (.deliver 2)

/-- The switchover is answered with `Ok`, and no node is primary; or it fails and is still recorded. -/
theorem switchover_leaves_no_primary :
    (let w := run (step ⟨1,true⟩) ((World.start 1 0 [⟨2,0⟩]).step ⟨1,true⟩ (.initiate 2 7)) handOverHandled;
      w.pc.isIdle = true ∧ w.seen 2 = w.events.length ∧ w.source.role = .standby ∧ (w.nodes 2).role = .catchingUp ∧
        ¬w.Ended 2) ∧
    let w := run (step ⟨1,true⟩) ((World.start 1 5 [⟨2,0⟩]).step ⟨1,true⟩ (.initiate 2 7)) handOverFailed;
    w.pc.isIdle = true ∧ w.seen 2 = w.events.length ∧ w.source.role = .primary ∧ w.source.switchoverState.isSome = true ∧
      (w.handleCheck ⟨1,true⟩ 2).canProceed = false ∧ ¬w.Ended 2 := by
  refine ⟨⟨by decide,by decide,by decide,by decide,fun hended => ?_⟩,by decide,by decide,by decide,by decide,by decide,
    fun hended => ?_⟩
  · obtain ⟨hprimary,-⟩ : HandedOver (run (step ⟨1,true⟩) ((World.start 1 0 [⟨2,0⟩]).step ⟨1,true⟩ (.initiate 2 7))
      handOverHandled) 2 := hended
    exact absurd hprimary (by decide)
  · obtain ⟨-,-,-,-,hnone⟩ : Restored (run (step ⟨1,true⟩) ((World.start 1 5 [⟨2,0⟩]).step ⟨1,true⟩ (.initiate 2 7))
      handOverFailed) 2 := hended
    exact absurd hnone (by decide)

end HeliosNano.Replication.Switchover
