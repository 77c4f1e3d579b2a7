import HeliosNano.Replication.Switchover

/-! What a switchover keeps under every interleaving: the primary changes its role at an LSN that its target has applied and that no
commit exceeds, and no other node becomes primary. -/
namespace HeliosNano.Replication.Switchover
open Foundation List Function Option RoleManager Pc.executing

def NodeRole.departed : NodeRole → Bool
  | .transitioningToStandby | .standby => true
  | _ => false

def NodeRole.follows : NodeRole → Bool
  | .standby | .catchingUp => true
  | _ => false

/-- Writes have been blocked, and transactions are over from `readFinalLsn` on. -/
def Stage.frozen : Stage → Bool
  | .readFinalLsn | .setTargetLsn | .awaitTarget | .roleChange | .transition | .demote => true
  | _ => false

def Stage.blocks : Stage → Bool
  | .enterDraining | .drain => true
  | stage => stage.frozen

def Stage.synced : Stage → Bool
  | .roleChange | .transition | .demote => true
  | _ => false

def Stage.hasFinalLsn : Stage → Bool
  | .setTargetLsn | .awaitTarget => true
  | _ => false

def Pc.has (p : Stage → Bool) : Pc → Bool
  | .executing _ stage => p stage
  | _ => false

namespace World
variable {config : SwitchoverConfig} {w w' : World} {x : Execution} {failure : Option String}

/-- What the coordinator does not touch. -/
structure Untouched (w w' : World) : Prop where
  lsn : w'.lsn = w.lsn
  standbys : w'.standbys = w.standbys
  inFlight : w'.inFlight = w.inFlight
  admitting : w'.admitting = w.admitting
  nodes : w'.nodes = w.nodes
  seen : w'.seen = w.seen
  commits : w'.commits = w.commits

theorem attempt_cases (w : World) (x : Execution) (failure : Option String) (result : Except String RoleManager)
    (next : World → World) : (∃ e, w.attempt x failure result next = { w with pc := .failing x e }) ∨
      ∃ source, result = .ok source ∧ w.attempt x failure result next = next { w with source := source } := by
  cases failure with
  | some e => exact .inl ⟨e,rfl⟩
  | none =>
    cases result with
    | error e => exact .inl ⟨e,rfl⟩
    | ok source => exact .inr ⟨source,rfl,rfl⟩

variable {result : Except String RoleManager} {m m' : RoleManager} {stage' stage : Stage}

theorem untouched_attempt {next : World → World}
    (hn : ∀ source, Untouched w (next { w with source := source })) : Untouched w (w.attempt x failure result next) := by
  obtain ⟨e,heq⟩ | ⟨source,-,heq⟩ := attempt_cases w x failure result next
  · rw [heq]
    exact ⟨rfl,rfl,rfl,rfl,rfl,rfl,rfl⟩
  · rw [heq]
    exact hn source

theorem untouched_executeSwitchover (w : World) (x : Execution) (failure : Option String) (stage : Stage) :
    Untouched w (w.executeSwitchover x failure stage) := by
  have hph : ∀ phase next, Untouched w (w.advancePhase x failure phase next) := fun phase next =>
    untouched_attempt fun source => ⟨rfl,rfl,rfl,rfl,rfl,rfl,rfl⟩
  have hg : ∀ result next, Untouched w (w.attempt x failure result fun w => w.goto x next) := fun result next =>
    untouched_attempt fun source => ⟨rfl,rfl,rfl,rfl,rfl,rfl,rfl⟩
  cases stage with
  | preparation | synchronization | roleChange | reconfiguration | resumption => exact hph _ _
  | enterDraining | setTargetLsn | transition | demote | complete => exact hg _ _
  | drain =>
    rw [executeSwitchover.eq_def]
    dsimp only
    split
    · split <;> exact ⟨rfl,rfl,rfl,rfl,rfl,rfl,rfl⟩
    · exact ⟨rfl,rfl,rfl,rfl,rfl,rfl,rfl⟩
  | awaitTarget =>
    rw [executeSwitchover.eq_def]
    dsimp only
    split
    · split
      · exact ⟨rfl,rfl,rfl,rfl,rfl,rfl,rfl⟩
      · split <;> exact ⟨rfl,rfl,rfl,rfl,rfl,rfl,rfl⟩
    · split <;> exact ⟨rfl,rfl,rfl,rfl,rfl,rfl,rfl⟩
  | _ => exact ⟨rfl,rfl,rfl,rfl,rfl,rfl,rfl⟩

theorem untouched_rollbackSwitchover (w : World) (answer : Answer) (stage : RollbackStage) :
    Untouched w (w.rollbackSwitchover answer stage) := by
  cases stage with
  | unblockWrites | restoreRole => exact ⟨rfl,rfl,rfl,rfl,rfl,rfl,rfl⟩
  | trackPrimary =>
    rw [rollbackSwitchover]
    cases answer with
    | initiate result => exact ⟨rfl,rfl,rfl,rfl,rfl,rfl,rfl⟩
    | cancel result =>
      rw [announceCancel]
      split <;> exact ⟨rfl,rfl,rfl,rfl,rfl,rfl,rfl⟩

theorem untouched_coordinate (w : World) (failure : Option String) : Untouched w (w.coordinate failure) := by
  rw [coordinate]
  cases w.pc with
  | idle | failing x e => exact ⟨rfl,rfl,rfl,rfl,rfl,rfl,rfl⟩
  | executing x stage => exact untouched_executeSwitchover w x failure stage
  | rollback stage answer => exact untouched_rollbackSwitchover w answer stage

theorem untouched_initiate (config : SwitchoverConfig) (w : World) (targetNode switchoverId : Uuid) :
    Untouched w (w.initiate config targetNode switchoverId) := by
  rw [initiate]
  dsimp only
  split
  · exact ⟨rfl,rfl,rfl,rfl,rfl,rfl,rfl⟩
  · split
    · exact ⟨rfl,rfl,rfl,rfl,rfl,rfl,rfl⟩
    · split <;> exact ⟨rfl,rfl,rfl,rfl,rfl,rfl,rfl⟩

theorem untouched_cancel (w : World) : Untouched w w.cancel := by
  rw [cancel]
  split <;> exact ⟨rfl,rfl,rfl,rfl,rfl,rfl,rfl⟩

theorem follows_handleEvent (h : m.role.follows = true) (event : SwitchoverEvent) :
    (handleEvent m event).role.follows = true := by
  have hr : m.role = .standby ∨ m.role = .catchingUp := by
    cases hr : m.role with
    | standby => exact .inl rfl
    | catchingUp => exact .inr rfl
    | _ => rw [hr] at h; cases h
  cases event with
  | started _ _ target | failed _ _ | cancelled _ =>
    rw [handleEvent]
    split
    · obtain hr | hr := hr <;> rw [changeRole,hr] <;> rfl
    · exact h
  | prepareNewPrimary _ newPrimary =>
    rw [handleEvent]
    split
    · obtain hr | hr := hr
      · rw [promoteToPrimary,hr]
        dsimp only
        rw [changeRole,hr]
        exact h
      · rw [promoteToPrimary,hr]
        dsimp only
        rw [changeRole,hr]
        exact h
    · exact h
  | completed _ _ | phaseChanged _ _ => exact h

theorem follows_step (config : SwitchoverConfig) {w : World} (h : ∀ n, (w.nodes n).role.follows = true) (s : Step) :
    ∀ n, ((w.step config s).nodes n).role.follows = true := by
  intro n
  cases s with
  | deliver node =>
    rw [step,deliver]
    split
    · exact h n
    next event _ =>
      dsimp only
      by_cases hn : n = node
      · rw [hn,update_self]
        exact follows_handleEvent (h node) event
      · rw [update_of_ne hn]
        exact h n
  | initiate targetNode switchoverId =>
    rw [step]
    split
    · rw [(untouched_initiate config w targetNode switchoverId).nodes]
      exact h n
    · exact h n
  | cancel =>
    rw [step]
    split
    · rw [(untouched_cancel w).nodes]
      exact h n
    · exact h n
  | coordinate failure =>
    rw [step,(untouched_coordinate w failure).nodes]
    exact h n
  | load | admitWrite | commit advance | dropGuard =>
    rw [step]
    split <;> exact h n
  | register standbys => exact h n

theorem follows_run (config : SwitchoverConfig) (nodeId : Uuid) (lsn : Lsn) (standbys : List StandbyInfo) (steps : List Step) :
    ∀ n, ((run (step config) (start nodeId lsn standbys) steps).nodes n).role.follows = true :=
  run_invariant (step config) (fun w => ∀ n, (w.nodes n).role.follows = true) (fun _ s h => follows_step config h s)
    (fun _ => rfl) steps

/-- No transaction is between the test and the count of `begin_transaction` when the drain finds the counter at zero, and none
begins on a node that has given its role up. -/
def Quiescent (w : World) : Step → Prop
  | .load => w.writesBlocked = false → w.source.role.departed = false
  | .coordinate _ => w.pc.has (fun stage => stage == .drain) = true → w.inFlight = 0 → w.admitting = 0
  | _ => True

instance (w : World) : (s : Step) → Decidable (w.Quiescent s)
  | .load => inferInstanceAs (Decidable (_ = _ → _ = _))
  | .coordinate _ => inferInstanceAs (Decidable (_ = _ → _ = _ → _ = _))
  | .admitWrite | .commit _ | .dropGuard | .register _ | .initiate _ _ | .cancel | .deliver _ => inferInstanceAs (Decidable True)

/-- What every quiescent run keeps. From the end of the drain no transaction is open; the final LSN is the node's LSN and, once the
target has been seen at it, agreed. -/
structure Safe (w : World) : Prop where
  committed : ∀ l ∈ w.commits, l ≤ w.lsn
  blocked : w.pc.has Stage.blocks = true → w.writesBlocked = true
  quiet : w.source.role.departed = true ∨ w.pc.has Stage.frozen = true → w.admitting = 0 ∧ w.inFlight = 0
  final : ∀ x stage, w.pc = .executing x stage → stage.hasFinalLsn = true → x.finalLsn = w.lsn
  agreed : w.source.role.departed = true ∨ w.pc.has Stage.synced = true → ∃ applied, w.agreed = some (w.lsn,applied) ∧ w.lsn ≤ applied

theorem Safe.move (h : w.Safe) (u : Untouched w w') (hb : w'.pc.has Stage.blocks = true → w'.writesBlocked = true)
    (hqt : w'.source.role.departed = true ∨ w'.pc.has Stage.frozen = true → w.admitting = 0 ∧ w.inFlight = 0)
    (hfinal : ∀ x stage, w'.pc = .executing x stage → stage.hasFinalLsn = true → x.finalLsn = w.lsn)
    (ha : w'.source.role.departed = true ∨ w'.pc.has Stage.synced = true →
      ∃ applied, w'.agreed = some (w.lsn,applied) ∧ w.lsn ≤ applied) : w'.Safe := by
  refine ⟨?_,hb,?_,?_,?_⟩
  · rw [u.commits,u.lsn]
    exact h.committed
  · rw [u.admitting,u.inFlight]
    exact hqt
  · rw [u.lsn]
    exact hfinal
  · rw [u.lsn]
    exact ha

theorem Safe.fail (h : w.Safe) (x : Execution) (e : String) : { w with pc := .failing x e }.Safe :=
  ⟨h.committed,fun hno => (nomatch hno),fun hor => h.quiet (hor.imp_right nofun),fun _ _ hno => (nomatch hno),
    fun hor => h.agreed (hor.imp_right nofun)⟩

theorem Safe.attempt (h : w.Safe) {next : World → World}
    (hn : ∀ source, result = .ok source → (next { w with source := source }).Safe) :
    (w.attempt x failure result next).Safe := by
  obtain ⟨e,heq⟩ | ⟨source,hok,heq⟩ := attempt_cases w x failure result next
  · rw [heq]
    exact h.fail x e
  · rw [heq]
    exact hn source hok

theorem role_of_advance {phase : SwitchoverPhase} (h : m.advanceSwitchoverPhase phase = .ok m') : m'.role = m.role := by
  rw [advanceSwitchoverPhase] at h
  split at h
  · rw [← Except.ok.inj h]
  · cases h

theorem role_of_setTargetLsn {lsn : Lsn} (h : m.setSwitchoverTargetLsn lsn = .ok m') : m'.role = m.role := by
  rw [setSwitchoverTargetLsn] at h
  split at h
  · rw [← Except.ok.inj h]
  · cases h

theorem role_of_changeRole {role : NodeRole} (h : m.changeRole role = .ok m') : m'.role = role := by
  rw [changeRole] at h
  split at h
  · cases h
  · rw [← Except.ok.inj h]

theorem role_of_demote (h : m.demoteToStandby = .ok m') : m'.role = .standby := by
  rw [demoteToStandby.eq_def] at h
  split at h
  · exact role_of_changeRole h
  · exact role_of_changeRole h
  · exact role_of_changeRole h
  · cases h

variable (h : w.Safe)
include h

theorem Safe.next {stage stage' : Stage} (hpc : w.pc = .executing x stage) (u : Untouched w w')
    (hpc' : w'.pc = .executing x stage') (hr : w'.source.role = w.source.role)
    (hw : stage'.blocks = true → stage.blocks = true ∧ w'.writesBlocked = w.writesBlocked)
    (hf : stage'.frozen = true → stage.frozen = true) (hfinal : stage'.hasFinalLsn = true → stage.hasFinalLsn = true)
    (hs : stage'.synced = true → stage.synced = true) (hag : w'.agreed = w.agreed) : w'.Safe := by
  have hh : ∀ p : Stage → Bool, w.pc.has p = p stage := fun p => by rw [hpc]; rfl
  have hh' : ∀ p : Stage → Bool, w'.pc.has p = p stage' := fun p => by rw [hpc']; rfl
  have hb := h.blocked
  have hqt := h.quiet
  have ha := h.agreed
  rw [hh] at hb hqt ha
  refine h.move u ?_ ?_ ?_ ?_
  · rw [hh']
    intro hbl
    obtain ⟨hbf,hsame⟩ := hw hbl
    exact hsame.trans (hb hbf)
  · rw [hh',hr]
    exact fun hor => hqt (hor.imp_right hf)
  · intro x' stage'' heq hl
    obtain ⟨rfl,rfl⟩ := inj (hpc'.symm.trans heq)
    exact h.final x stage hpc (hfinal hl)
  · rw [hh',hr,hag]
    exact fun hor => ha (hor.imp_right hs)

theorem Safe.advancePhase (hpc : w.pc = .executing x stage) (phase : SwitchoverPhase)
    (hbl : stage'.blocks = true → stage.blocks = true) (hf : stage'.frozen = true → stage.frozen = true)
    (hfinal : stage'.hasFinalLsn = true → stage.hasFinalLsn = true) (hs : stage'.synced = true → stage.synced = true) :
    (w.advancePhase x failure phase stage').Safe :=
  h.attempt fun _ hok => h.next hpc ⟨rfl,rfl,rfl,rfl,rfl,rfl,rfl⟩ rfl (role_of_advance hok) (fun hb => ⟨hbl hb,rfl⟩)
    hf hfinal hs rfl

theorem Safe.attemptGoto (hpc : w.pc = .executing x stage) (hr : ∀ source, result = .ok source → source.role = w.source.role)
    (hbl : stage'.blocks = true → stage.blocks = true) (hf : stage'.frozen = true → stage.frozen = true)
    (hfinal : stage'.hasFinalLsn = true → stage.hasFinalLsn = true) (hs : stage'.synced = true → stage.synced = true) :
    (w.attempt x failure result fun w => w.goto x stage').Safe :=
  h.attempt fun source hok => h.next hpc ⟨rfl,rfl,rfl,rfl,rfl,rfl,rfl⟩ rfl (hr source hok) (fun hb => ⟨hbl hb,rfl⟩)
    hf hfinal hs rfl

theorem Safe.changeRole (hpc : w.pc = .executing x stage)
    {role : NodeRole} (hr : ∀ source, result = .ok source → source.role = role)
    (hbc : stage'.blocks = true → stage.blocks = true)
    (hf : role.departed = true ∨ stage'.frozen = true → stage.frozen = true) (hfinal : stage'.hasFinalLsn = false)
    (hsy : role.departed = true ∨ stage'.synced = true → stage.synced = true) :
    (w.attempt x failure result fun w => w.goto x stage').Safe := by
  have hh : ∀ p : Stage → Bool, w.pc.has p = p stage := fun p => by rw [hpc]; rfl
  have hbl := h.blocked
  have hqt := h.quiet
  have ha := h.agreed
  rw [hh] at hbl hqt ha
  refine h.attempt fun source hok => ?_
  have hs := hr source hok
  refine h.move ⟨rfl,rfl,rfl,rfl,rfl,rfl,rfl⟩ (fun hb => hbl (hbc hb)) (fun hor => hqt (.inr (hf ?_)))
    (fun x' stage'' heq hl => ?_) fun hor => ha (.inr (hsy ?_))
  · rw [← hs]
    exact hor
  · rw [← (inj heq).2,hfinal] at hl
    cases hl
  · rw [← hs]
    exact hor

theorem Safe.executeSwitchover (hpc : w.pc = .executing x stage)
    (hq : stage = .drain → w.inFlight = 0 → w.admitting = 0) : (w.executeSwitchover x failure stage).Safe := by
  have hh : ∀ p : Stage → Bool, w.pc.has p = p stage := fun p => by rw [hpc]; rfl
  have hb := h.blocked
  have hqt := h.quiet
  have ha := h.agreed
  rw [hh] at hb hqt ha
  have hno : ∀ {p : Prop}, false = true → p := nofun
  cases stage with
  | preparation | synchronization | reconfiguration | resumption => exact h.advancePhase hpc _ hno hno hno hno
  | blockWrites =>
    exact h.move ⟨rfl,rfl,rfl,rfl,rfl,rfl,rfl⟩ (fun _ => rfl) (fun hor => hqt (hor.imp_right hno))
      (fun _ _ heq hl => by obtain ⟨-,rfl⟩ := inj heq; cases hl) fun hor => ha (hor.imp_right hno)
  | enterDraining =>
    exact h.changeRole hpc (fun _ => role_of_changeRole) (fun _ => rfl) (fun hor => hor.elim hno hno) rfl fun hor => hor.elim hno hno
  | drain =>
    rw [World.executeSwitchover.eq_def]
    dsimp only
    split
    · split
      · exact h.fail x _
      · exact h
    next hz =>
      have hi := Nat.eq_zero_of_not_pos hz
      exact h.move ⟨rfl,rfl,rfl,rfl,rfl,rfl,rfl⟩ (fun _ => hb rfl) (fun _ => ⟨hq rfl hi,hi⟩)
        (fun _ _ heq hl => by obtain ⟨-,rfl⟩ := inj heq; cases hl) fun hor => ha (hor.imp_right hno)
  | readFinalLsn =>
    exact h.move ⟨rfl,rfl,rfl,rfl,rfl,rfl,rfl⟩ (fun _ => hb rfl) (fun _ => hqt (.inr rfl))
      (fun _ _ heq _ => by rw [← (inj heq).1]) fun hor => ha (hor.imp_right hno)
  | setTargetLsn => exact h.attemptGoto hpc (fun _ => role_of_setTargetLsn) id id id hno
  | awaitTarget =>
    rw [World.executeSwitchover.eq_def]
    dsimp only
    split
    next info _ =>
      split
      next hle =>
        have hl := h.final x _ hpc rfl
        refine h.move ⟨rfl,rfl,rfl,rfl,rfl,rfl,rfl⟩ (fun _ => hb rfl) (fun _ => hqt (.inr rfl))
          (fun _ _ heq hl => by obtain ⟨-,rfl⟩ := inj heq; cases hl) fun _ => ⟨info.applyLsn,?_,?_⟩
        · rw [← hl]
          rfl
        · rw [← hl]
          exact hle
      · split
        · exact h.fail x _
        · exact h
    · split
      · exact h.fail x _
      · exact h
  | roleChange => exact h.advancePhase hpc _ (fun _ => rfl) (fun _ => rfl) hno fun _ => rfl
  | transition =>
    exact h.changeRole hpc (fun _ => role_of_changeRole) (fun _ => rfl) (fun _ => rfl) rfl fun _ => rfl
  | demote =>
    exact h.changeRole hpc (fun _ => role_of_demote) hno (fun _ => rfl) rfl fun _ => rfl
  | notify | follow | unblockWrites =>
    exact h.next hpc ⟨rfl,rfl,rfl,rfl,rfl,rfl,rfl⟩ rfl rfl hno hno hno hno rfl
  | complete => exact h.attemptGoto hpc (fun _ => role_of_advance) hno hno hno hno
  | done =>
    exact h.move ⟨rfl,rfl,rfl,rfl,rfl,rfl,rfl⟩ hno (fun hor => hqt (hor.imp_right hno))
      nofun fun hor => ha (hor.imp_right hno)

theorem Safe.outside (u : Untouched w w') (hpc : ∀ x stage, w'.pc ≠ .executing x stage)
    (hr : w'.source.role.departed = true → w.source.role.departed = true) (ha : w'.agreed = w.agreed) : w'.Safe := by
  have hh : ∀ p : Stage → Bool, w'.pc.has p = false := by
    intro p
    cases hw : w'.pc with
    | executing x stage => exact absurd hw (hpc x stage)
    | _ => rfl
  refine h.move u (fun hno => ?_) (fun hor => h.quiet (.inl ?_)) (fun x stage hno => absurd hno (hpc x stage)) ?_
  · rw [hh] at hno
    cases hno
  · rw [hh] at hor
    exact hr (hor.resolve_right Bool.false_ne_true)
  · rw [hh,ha]
    exact fun hor => h.agreed (.inl (hr (hor.resolve_right Bool.false_ne_true)))

omit h

theorem departed_of_restored {m : RoleManager} (h : (match m.role with
    | .draining | .transitioningToStandby => m.orLog (m.changeRole .primary)
    | _ => m).role.departed = true) : m.role.departed = true := by
  split at h
  next hr =>
    rw [changeRole,hr] at h
    cases h
  next hr =>
    rw [hr]
    rfl
  · exact h

theorem Safe.rollbackSwitchover (h : w.Safe) (answer : Answer) (stage : RollbackStage) :
    (w.rollbackSwitchover answer stage).Safe := by
  have u := untouched_rollbackSwitchover w answer stage
  cases stage with
  | unblockWrites => exact h.outside u nofun id rfl
  | restoreRole => exact h.outside u nofun departed_of_restored rfl
  | trackPrimary =>
    rw [World.rollbackSwitchover] at u ⊢
    cases answer with
    | initiate result => exact h.outside u nofun id rfl
    | cancel result =>
      rw [announceCancel] at u ⊢
      split at u
      · exact h.outside u nofun id rfl
      · exact h.outside u nofun id rfl

theorem Safe.coordinate (h : w.Safe) (hq : w.Quiescent (.coordinate failure)) : (w.coordinate failure).Safe := by
  rw [World.coordinate]
  cases hpc : w.pc with
  | idle => exact h
  | executing x stage =>
    refine h.executeSwitchover hpc fun hd => hq ?_
    rw [hpc,hd]
    rfl
  | failing x e => exact h.outside ⟨rfl,rfl,rfl,rfl,rfl,rfl,rfl⟩ nofun id rfl
  | rollback stage answer => exact h.rollbackSwitchover answer stage

def begun (m : RoleManager) (targetNode switchoverId : Uuid) : RoleManager :=
  { m with switchoverState := some ⟨switchoverId,m.nodeId,targetNode,.preparation,none⟩ }

theorem begin_ok {targetNode switchoverId : Uuid} (h : m.beginSwitchover targetNode switchoverId = .ok m') :
    m.switchoverState = none ∧ m.role = .primary ∧ m' = begun m targetNode switchoverId := by
  rw [beginSwitchover] at h
  split at h
  · cases h
  next hn =>
    split at h
    · cases h
    next hr =>
      exact ⟨not_isSome_iff_eq_none.mp hn,not_not.mp hr,(Except.ok.inj h).symm⟩

theorem Safe.initiate (h : w.Safe) (hi : w.pc.isIdle = true) (config : SwitchoverConfig) (targetNode switchoverId : Uuid) :
    (w.initiate config targetNode switchoverId).Safe := by
  have hpc : ∀ x stage, w.pc ≠ .executing x stage := by
    intro x stage heq
    rw [heq] at hi
    cases hi
  have u := untouched_initiate config w targetNode switchoverId
  rw [World.initiate] at u ⊢
  dsimp only at u ⊢
  split
  · exact h.outside ⟨rfl,rfl,rfl,rfl,rfl,rfl,rfl⟩ hpc id rfl
  split
  · exact h.outside ⟨rfl,rfl,rfl,rfl,rfl,rfl,rfl⟩ hpc id rfl
  split
  · exact h.outside ⟨rfl,rfl,rfl,rfl,rfl,rfl,rfl⟩ hpc id rfl
  next hp _ _ source hok =>
    have hr : source.role = w.source.role := by
      rw [(begin_ok hok).2.2]
      rfl
    have hd : w.source.role.departed = false := by
      rw [not_not.mp hp]
      rfl
    refine h.move ⟨rfl,rfl,rfl,rfl,rfl,rfl,rfl⟩ nofun (fun hor => ?_)
      (fun _ _ heq hl => by obtain ⟨-,rfl⟩ := inj heq; cases hl) fun hor => ?_
    · obtain hor | hor := hor
      · exact absurd ((congrArg NodeRole.departed hr).symm.trans hor) (by rw [hd]; exact Bool.false_ne_true)
      · cases hor
    · obtain hor | hor := hor
      · exact absurd ((congrArg NodeRole.departed hr).symm.trans hor) (by rw [hd]; exact Bool.false_ne_true)
      · cases hor

theorem Safe.cancel (h : w.Safe) (hi : w.pc.isIdle = true) : w.cancel.Safe := by
  have hpc : ∀ x stage, w.pc ≠ .executing x stage := by
    intro x stage heq
    rw [heq] at hi
    cases hi
  rw [World.cancel]
  split
  · exact h.outside ⟨rfl,rfl,rfl,rfl,rfl,rfl,rfl⟩ hpc id rfl
  next source hok =>
    refine h.outside ⟨rfl,rfl,rfl,rfl,rfl,rfl,rfl⟩ nofun ?_ rfl
    rw [cancelSwitchover] at hok
    split at hok
    · rw [← Except.ok.inj hok]
      exact id
    · cases hok

theorem Safe.open (h : w.Safe) (hopen : 0 < w.admitting ∨ 0 < w.inFlight) :
    ¬(w.source.role.departed = true ∨ w.pc.has Stage.frozen = true) := by
  intro hor
  obtain ⟨ha,hi⟩ := h.quiet hor
  omega

theorem Stage.frozen_of_hasFinalLsn (h : stage.hasFinalLsn = true) : stage.frozen = true := by
  cases stage <;> first | rfl | cases h

theorem Pc.frozen_of_synced {pc : Pc} (h : pc.has Stage.synced = true) : pc.has Stage.frozen = true := by
  cases pc with
  | executing x stage => cases stage <;> first | rfl | cases h
  | _ => cases h

theorem Pc.blocks_of_frozen {pc : Pc} (h : pc.has Stage.frozen = true) : pc.has Stage.blocks = true := by
  cases pc with
  | executing x stage => cases stage <;> first | rfl | cases h
  | _ => cases h

theorem Safe.step (h : w.Safe) (config : SwitchoverConfig) {s : Step} (hq : w.Quiescent s) : (w.step config s).Safe := by
  cases s with
  | load =>
    rw [World.step]
    split
    · exact h
    next hf =>
      refine ⟨h.committed,h.blocked,fun hor => ?_,h.final,h.agreed⟩
      obtain hd | hfrozen := hor
      · have hs := hq (Bool.eq_false_iff.mpr hf)
        rw [hs] at hd
        cases hd
      · exact absurd (h.blocked (Pc.blocks_of_frozen hfrozen)) hf
  | admitWrite =>
    rw [World.step]
    split
    next hp =>
      exact ⟨h.committed,h.blocked,fun hor => absurd hor (h.open (.inl hp)),h.final,h.agreed⟩
    · exact h
  | commit advance =>
    rw [World.step]
    split
    next hp =>
      have hopen := h.open (.inr hp)
      refine ⟨fun l hl => ?_,h.blocked,h.quiet,fun x stage heq hls => ?_,fun hor => ?_⟩
      · obtain hl | hl := mem_append.mp hl
        · have hle := h.committed l hl
          exact Nat.le_succ_of_le (Nat.le_trans hle (Nat.le_add_right _ _))
        · exact Nat.le_of_eq (mem_singleton.mp hl)
      · refine absurd (.inr ?_) hopen
        change w.pc = .executing x stage at heq
        rw [heq]
        exact Stage.frozen_of_hasFinalLsn hls
      · exact absurd (hor.imp_right Pc.frozen_of_synced) hopen
    · exact h
  | dropGuard =>
    rw [World.step]
    split
    next hp =>
      exact ⟨h.committed,h.blocked,fun hor => absurd hor (h.open (.inr hp)),h.final,h.agreed⟩
    · exact h
  | register standbys => exact ⟨h.committed,h.blocked,h.quiet,h.final,h.agreed⟩
  | initiate targetNode switchoverId =>
    rw [World.step]
    split
    next hi =>
      exact h.initiate hi config targetNode switchoverId
    · exact h
  | cancel =>
    rw [World.step]
    split
    next hi =>
      exact h.cancel hi
    · exact h
  | coordinate failure => exact h.coordinate hq
  | deliver node =>
    rw [World.step,World.deliver]
    split
    · exact h
    · exact ⟨h.committed,h.blocked,h.quiet,h.final,h.agreed⟩

end World
open World

/-- In every quiescent run the primary gives its role up only at an LSN that the target has been seen at and that no commit exceeds;
and in every run, while the source is primary, no other node is. -/
theorem switchover_loses_no_commit (config : SwitchoverConfig) (nodeId : Uuid) (lsn : Lsn) (standbys : List StandbyInfo)
    (steps : List Step) :
    let w := run (step config) (World.start nodeId lsn standbys) steps
    (Guarded (step config) Quiescent (World.start nodeId lsn standbys) steps →
      w.source.role = .transitioningToStandby ∨ w.source.role = .standby →
        ∃ final applied, w.agreed = some (final,applied) ∧ final ≤ applied ∧ ∀ l ∈ w.commits, l ≤ final) ∧
      ∀ n, (w.nodes n).role ≠ .primary := by
  intro w
  refine ⟨fun hguard hrole => ?_,fun n hprimary => ?_⟩
  · have hstart : (World.start nodeId lsn standbys).Safe := by
      refine ⟨fun l hl => absurd hl not_mem_nil,fun hno => (nomatch hno),fun _ => ⟨rfl,rfl⟩,fun _ _ hno => (nomatch hno),
        fun hor => ?_⟩
      obtain hno | hno := hor <;> cases hno
    have h : w.Safe := guarded_run_invariant (step config) Safe (fun w s hw hs => World.Safe.step hw config hs) hstart hguard
    have hdeparted : w.source.role.departed = true := by
      obtain hrole | hrole := hrole <;> rw [hrole] <;> rfl
    obtain ⟨applied,hagreed,hle⟩ := h.agreed (.inl hdeparted)
    exact ⟨w.lsn,applied,hagreed,hle,h.committed⟩
  · have hfollows := follows_run config nodeId lsn standbys steps n
    change (w.nodes n).role.follows = true at hfollows
    rw [hprimary] at hfollows
    cases hfollows

/-- Node 1 hands over to node 2. -/
def handOver : List Step :=
  [.load,.admitWrite,.register [⟨2,1⟩],.initiate 2 7] ++ List.replicate 4 (.coordinate none) ++
    [.commit 0,.dropGuard] ++ List.replicate 7 (.coordinate none)

theorem switchover_loses_no_commit_hand_over :
    ∃ final applied, (run (step ⟨1,false⟩) (World.start 1 0 []) handOver).agreed = some (final,applied) ∧ final ≤ applied ∧
      ∀ l ∈ (run (step ⟨1,false⟩) (World.start 1 0 []) handOver).commits, l ≤ final :=
  (switchover_loses_no_commit ⟨1,false⟩ 1 0 [] handOver).1 (by decide) (by decide)

/-- A transaction that has found writes unblocked counts itself when the final LSN has been read. -/
def lateAdmission : List Step :=
  [.register [⟨2,0⟩],.load,.initiate 2 7] ++ List.replicate 6 (.coordinate none) ++ [.admitWrite,.commit 0] ++
    List.replicate 5 (.coordinate none)

/-- After the switchover the old primary admits transactions again. -/
def standbyAdmission : List Step :=
  [.register [⟨2,0⟩],.initiate 2 7] ++ List.replicate 18 (.coordinate none) ++ [.load,.admitWrite,.commit 0]

/-- Both transactions commit above the LSN that the target had to apply. -/
theorem late_commit_lost : (∀ steps ∈ [lateAdmission,standbyAdmission],
      (run (step ⟨1,false⟩) (World.start 1 0 []) steps).source.role = .standby ∧
        (run (step ⟨1,false⟩) (World.start 1 0 []) steps).agreed = some (0,0) ∧
        (run (step ⟨1,false⟩) (World.start 1 0 []) steps).commits = [1]) ∧
      ¬∃ final applied, (run (step ⟨1,false⟩) (World.start 1 0 []) lateAdmission).agreed = some (final,applied) ∧
        ∀ l ∈ (run (step ⟨1,false⟩) (World.start 1 0 []) lateAdmission).commits, l ≤ final := by
  refine ⟨by decide,?_⟩
  rintro ⟨final,applied,hagreed,hcommits⟩
  have hfinal : (run (step ⟨1,false⟩) (World.start 1 0 []) lateAdmission).agreed = some (0,0) := by decide
  have hle : 1 ≤ final := hcommits 1 (by decide)
  rw [hfinal,some.injEq,Prod.mk.injEq] at hagreed
  rw [← hagreed.1] at hle
  exact absurd hle (by decide)

end HeliosNano.Replication.Switchover
