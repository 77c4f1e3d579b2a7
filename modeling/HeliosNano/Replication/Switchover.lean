import HeliosNano.Foundation.Runs
import Mathlib.Logic.Function.Basic

/-! Controlled switchover: the role manager of a node, the coordinator on the primary, one step for each access to what it shares with
transactions and standbys, and the event handler of the other nodes. -/
namespace HeliosNano.Replication.Switchover
open Foundation

abbrev Uuid := Nat
abbrev Lsn := Nat

inductive NodeRole
  | primary
  | standby
  | transitioningToPrimary
  | transitioningToStandby
  | draining
  | catchingUp
  | offline
deriving DecidableEq

def NodeRole.asStr : NodeRole → String
  | .primary => "primary"
  | .standby => "standby"
  | .transitioningToPrimary => "transitioning_to_primary"
  | .transitioningToStandby => "transitioning_to_standby"
  | .draining => "draining"
  | .catchingUp => "catching_up"
  | .offline => "offline"

def NodeRole.isTransitioning : NodeRole → Bool
  | .transitioningToPrimary | .transitioningToStandby | .draining | .catchingUp => true
  | _ => false

inductive SwitchoverPhase
  | preparation
  | synchronization
  | roleChange
  | reconfiguration
  | resumption
  | completed
  | failed
  | cancelled
deriving DecidableEq

def SwitchoverPhase.isTerminal : SwitchoverPhase → Bool
  | .completed | .failed | .cancelled => true
  | _ => false

structure SwitchoverState where
  switchoverId : Uuid
  sourceNode : Uuid
  targetNode : Uuid
  phase : SwitchoverPhase
  targetLsn : Option Lsn
deriving DecidableEq

/-- `Error::ha`. -/
def haError (message : String) : String := "HA error: " ++ message

structure RoleManager where
  nodeId : Uuid
  role : NodeRole
  currentPrimary : Option Uuid
  switchoverState : Option SwitchoverState
deriving DecidableEq

namespace RoleManager

def new (nodeId : Uuid) (initialRole : NodeRole) : RoleManager :=
  ⟨nodeId,initialRole,if initialRole = .primary then some nodeId else none,none⟩

def validateTransition (source target : NodeRole) : Except String Unit :=
  let valid := match source, target with
    | .primary, .draining => true
    | .primary, .transitioningToStandby => true
    | .primary, .offline => true
    | .standby, .catchingUp => true
    | .standby, .transitioningToPrimary => true
    | .standby, .offline => true
    | .draining, .transitioningToStandby => true
    | .draining, .primary => true
    | .catchingUp, .transitioningToPrimary => true
    | .catchingUp, .standby => true
    | .transitioningToPrimary, .primary => true
    | .transitioningToPrimary, .standby => true
    | .transitioningToStandby, .standby => true
    | .transitioningToStandby, .primary => true
    | .offline, .primary => true
    | .offline, .standby => true
    | a, b => a == b
  if valid then .ok () else .error (haError ("Invalid role transition: " ++ source.asStr ++ " -> " ++ target.asStr))

variable (m : RoleManager)

def setCurrentPrimary (primaryId : Option Uuid) : RoleManager := { m with currentPrimary := primaryId }

def changeRole (newRole : NodeRole) : Except String RoleManager :=
  match validateTransition m.role newRole with
  | .error e => .error e
  | .ok () => .ok { m with
      role := newRole
      currentPrimary := if newRole = .primary then some m.nodeId else m.currentPrimary }

def beginSwitchover (targetNode switchoverId : Uuid) : Except String RoleManager :=
  if m.switchoverState.isSome then .error (haError "Switchover already in progress")
  else if m.role ≠ .primary then .error (haError "Only primary can initiate switchover")
  else .ok { m with switchoverState := some ⟨switchoverId,m.nodeId,targetNode,.preparation,none⟩ }

def advanceSwitchoverPhase (newPhase : SwitchoverPhase) : Except String RoleManager :=
  match m.switchoverState with
  | some s => .ok { m with switchoverState := if newPhase.isTerminal then none else some { s with phase := newPhase } }
  | none => .error (haError "No switchover in progress")

def setSwitchoverTargetLsn (lsn : Lsn) : Except String RoleManager :=
  match m.switchoverState with
  | some s => .ok { m with switchoverState := some { s with targetLsn := some lsn } }
  | none => .error (haError "No switchover in progress")

def cancelSwitchover : Except String RoleManager :=
  match m.switchoverState with
  | some _ => .ok { m with switchoverState := none }
  | none => .error (haError "No switchover in progress")

def promoteToPrimary : Except String RoleManager :=
  match m.role with
  | .catchingUp | .transitioningToPrimary | .standby => m.changeRole .primary
  | role => .error (haError ("Cannot promote from role: " ++ role.asStr))

def demoteToStandby : Except String RoleManager :=
  match m.role with
  | .draining | .transitioningToStandby | .primary => m.changeRole .standby
  | role => .error (haError ("Cannot demote from role: " ++ role.asStr))

end RoleManager

inductive SwitchoverEvent
  | started (switchoverId source target : Uuid)
  | phaseChanged (switchoverId : Uuid) (phase : SwitchoverPhase)
  | prepareNewPrimary (switchoverId newPrimary : Uuid)
  | completed (switchoverId newPrimary : Uuid)
  | failed (switchoverId : Uuid) (error : String)
  | cancelled (switchoverId : Uuid)
deriving DecidableEq

/-- The role manager after a change that is logged when it fails. -/
def RoleManager.orLog (m : RoleManager) : Except String RoleManager → RoleManager
  | .ok m' => m'
  | .error _ => m

/-- `StandbySwitchoverHandler::handle_event`. -/
def handleEvent (m : RoleManager) : SwitchoverEvent → RoleManager
  | .started _ _ target => if target = m.nodeId then m.orLog (m.changeRole .catchingUp) else m
  | .prepareNewPrimary _ newPrimary =>
    if newPrimary = m.nodeId then m.orLog m.promoteToPrimary else m.setCurrentPrimary (some newPrimary)
  | .failed _ _ | .cancelled _ => if m.role.isTransitioning then m.orLog (m.changeRole .standby) else m
  | .completed _ _ | .phaseChanged _ _ => m

structure StandbyInfo where
  nodeId : Uuid
  applyLsn : Lsn
deriving DecidableEq

structure SwitchoverConfig where
  minSyncedStandbys : Nat
  allowPartialSync : Bool

structure SwitchoverCheck where
  canProceed : Bool
  targetHealthy : Bool
  targetLsn : Lsn
  primaryLsn : Lsn
  lagBytes : Nat
  syncedStandbys : List Uuid
  warnings : List String
  blockers : List String

/-- What `execute_switchover` has in its variables. -/
structure Execution where
  switchoverId : Uuid
  targetNode : Uuid
  finalLsn : Lsn
deriving DecidableEq

/-- Where `execute_switchover` is. -/
inductive Stage
  | preparation
  | synchronization
  | blockWrites
  | enterDraining
  | drain
  | readFinalLsn
  | setTargetLsn
  | awaitTarget
  | roleChange
  | transition
  | demote
  | reconfiguration
  | notify
  | follow
  | resumption
  | unblockWrites
  | complete
  | done
deriving DecidableEq

inductive RollbackStage
  | unblockWrites
  | restoreRole
  | trackPrimary
deriving DecidableEq

inductive Answer
  | initiate (result : Except String Uuid)
  | cancel (result : Except String Unit)

inductive Pc
  | idle
  | executing (x : Execution) (stage : Stage)
  | failing (x : Execution) (error : String)
  | rollback (stage : RollbackStage) (answer : Answer)

def Pc.isIdle : Pc → Bool
  | .idle => true
  | _ => false

/-- The primary, what it has broadcast and the other nodes, each with the number of events that it has handled. `admitting` are the
calls of `begin_transaction` that have found writes unblocked and not yet counted themselves. `commits` are the LSNs of all commits,
`agreed` the final LSN of the last switchover whose target was seen at it, with the LSN at which it was seen. -/
structure World where
  source : RoleManager
  lsn : Lsn
  standbys : List StandbyInfo
  writesBlocked : Bool
  inFlight : Nat
  admitting : Nat
  pc : Pc
  events : List SwitchoverEvent
  nodes : Uuid → RoleManager
  seen : Uuid → Nat
  answer : Option Answer
  commits : List Lsn
  agreed : Option (Lsn × Lsn)

inductive Step
  | load
  | admitWrite
  | commit (advance : Nat)
  | dropGuard
  | register (standbys : List StandbyInfo)
  | initiate (targetNode switchoverId : Uuid)
  | cancel
  | coordinate (failure : Option String)
  | deliver (node : Uuid)

namespace World

def start (nodeId : Uuid) (lsn : Lsn) (standbys : List StandbyInfo) : World :=
  ⟨.new nodeId .primary,lsn,standbys,false,0,0,.idle,[],fun n => .new n .standby,fun _ => 0,none,[],none⟩

variable (w : World) (x : Execution) (failure : Option String)

def send (event : SwitchoverEvent) : World := { w with events := w.events ++ [event] }

def handleCheck (config : SwitchoverConfig) (w : World) (targetNode : Uuid) : SwitchoverCheck :=
  let info := w.standbys.find? fun s => s.nodeId = targetNode
  let synced := (w.standbys.filter fun s => decide (w.lsn-100 ≤ s.applyLsn)).map StandbyInfo.nodeId
  let insufficient := synced.length < config.minSyncedStandbys
  { canProceed := w.source.role = .primary && w.source.switchoverState.isNone && info.isSome &&
      !(insufficient && !config.allowPartialSync)
    targetHealthy := info.isSome
    targetLsn := (info.map StandbyInfo.applyLsn).getD 0
    primaryLsn := w.lsn
    lagBytes := (info.map fun s => w.lsn-s.applyLsn).getD 0
    syncedStandbys := synced
    warnings :=
      (match info with
        | some s => if s.applyLsn < w.lsn then
            ["Target standby is " ++ toString (w.lsn-s.applyLsn) ++ " LSN behind (will sync during switchover)"] else []
        | none => []) ++
      (if insufficient && config.allowPartialSync then
        ["Only " ++ toString synced.length ++ " standbys synced (minimum: " ++ toString config.minSyncedStandbys ++ ")"] else [])
    blockers :=
      (if w.source.role ≠ .primary then ["This node is not the primary"] else []) ++
      (if w.source.switchoverState.isSome then ["Switchover already in progress"] else []) ++
      (if info.isNone then ["Target node " ++ toString targetNode ++ " not found or not healthy"] else []) ++
      (if insufficient && !config.allowPartialSync then
        ["Insufficient synced standbys: " ++ toString synced.length ++ " (need " ++ toString config.minSyncedStandbys ++ ")"]
      else []) }

def goto (stage : Stage) : World := { w with pc := .executing x stage }

/-- A step that ends with `?`: its own result, or a failure from outside. -/
def attempt (result : Except String RoleManager) (next : World → World) : World :=
  match failure, result with
  | some e, _ => { w with pc := .failing x e }
  | none, .error e => { w with pc := .failing x e }
  | none, .ok source => next { w with source := source }

def advancePhase (phase : SwitchoverPhase) (next : Stage) : World :=
  w.attempt x failure (w.source.advanceSwitchoverPhase phase) fun w =>
    (w.send (.phaseChanged x.switchoverId phase)).goto x next

/-- One step of `execute_switchover`. `failure` is a timeout where the code waits. -/
def executeSwitchover : Stage → World
  | .preparation => w.advancePhase x failure .preparation .synchronization
  | .synchronization => w.advancePhase x failure .synchronization .blockWrites
  | .blockWrites => { w with writesBlocked := true }.goto x .enterDraining
  | .enterDraining => w.attempt x failure (w.source.changeRole .draining) fun w => w.goto x .drain
  | .drain =>
    if 0 < w.inFlight then
      match failure with
      | some e => { w with pc := .failing x e }
      | none => w
    else w.goto x .readFinalLsn
  | .readFinalLsn => w.goto { x with finalLsn := w.lsn } .setTargetLsn
  | .setTargetLsn => w.attempt x failure (w.source.setSwitchoverTargetLsn x.finalLsn) fun w => w.goto x .awaitTarget
  | .awaitTarget =>
    match w.standbys.find? fun s => s.nodeId = x.targetNode with
    | some info =>
      if x.finalLsn ≤ info.applyLsn then { w with agreed := some (x.finalLsn,info.applyLsn) }.goto x .roleChange
      else match failure with
        | some e => { w with pc := .failing x e }
        | none => w
    | none =>
      match failure with
      | some e => { w with pc := .failing x e }
      | none => w
  | .roleChange => w.advancePhase x failure .roleChange .transition
  | .transition => w.attempt x failure (w.source.changeRole .transitioningToStandby) fun w => w.goto x .demote
  | .demote => w.attempt x failure w.source.demoteToStandby fun w => w.goto x .reconfiguration
  | .reconfiguration => w.advancePhase x failure .reconfiguration .notify
  | .notify => (w.send (.prepareNewPrimary x.switchoverId x.targetNode)).goto x .follow
  | .follow => { w with source := w.source.setCurrentPrimary (some x.targetNode) }.goto x .resumption
  | .resumption => w.advancePhase x failure .resumption .unblockWrites
  | .unblockWrites => { w with writesBlocked := false }.goto x .complete
  | .complete => w.attempt x failure (w.source.advanceSwitchoverPhase .completed) fun w => w.goto x .done
  -- `handle_initiate` again
  | .done =>
    { w.send (.completed x.switchoverId x.targetNode) with pc := .idle, answer := some (.initiate (.ok x.switchoverId)) }

/-- The end of `handle_cancel`. -/
def announceCancel : Answer → World
  | .cancel _ =>
    match w.source.switchoverState with
    | some s => w.send (.cancelled s.switchoverId)
    | none => w
  | .initiate _ => w

/-- One step of `rollback_switchover`; with the last one its caller returns. -/
def rollbackSwitchover (answer : Answer) : RollbackStage → World
  | .unblockWrites => { w with writesBlocked := false, pc := .rollback .restoreRole answer }
  | .restoreRole =>
    { w with
      source := match w.source.role with
        | .draining | .transitioningToStandby => w.source.orLog (w.source.changeRole .primary)
        | _ => w.source
      pc := .rollback .trackPrimary answer }
  | .trackPrimary =>
    { w with source := w.source.setCurrentPrimary (some w.source.nodeId), pc := .idle, answer := some answer }.announceCancel answer

def coordinate : World :=
  match w.pc with
  | .idle => w
  | .executing x stage => w.executeSwitchover x failure stage
  | .failing x e =>
    { w.send (.failed x.switchoverId e) with pc := .rollback .unblockWrites (.initiate (.error e)) }
  | .rollback stage answer => w.rollbackSwitchover answer stage

/-- `handle_initiate` up to the first step of the execution. -/
def initiate (config : SwitchoverConfig) (w : World) (targetNode switchoverId : Uuid) : World :=
  if w.source.role ≠ .primary then
    { w with answer := some (.initiate (.error (haError "Only primary can initiate switchover"))) }
  else
    let check := w.handleCheck config targetNode
    if !check.canProceed then
      { w with answer := some (.initiate (.error (haError ("Switchover blocked: " ++ ", ".intercalate check.blockers)))) }
    else match w.source.beginSwitchover targetNode switchoverId with
      | .error e => { w with answer := some (.initiate (.error e)) }
      | .ok source =>
        ({ w with source := source }.send (.started switchoverId source.nodeId targetNode)).goto
          ⟨switchoverId,targetNode,0⟩ .preparation

/-- `handle_cancel` up to the rollback. -/
def cancel (w : World) : World :=
  match w.source.cancelSwitchover with
  | .error e => { w with answer := some (.cancel (.error e)) }
  | .ok source => { w with source := source, pc := .rollback .unblockWrites (.cancel (.ok ())) }

def deliver (node : Uuid) : World :=
  match w.events[w.seen node]? with
  | none => w
  | some event => { w with
      nodes := Function.update w.nodes node (handleEvent (w.nodes node) event)
      seen := Function.update w.seen node (w.seen node + 1) }

/-- The coordinator takes a command when it is done with the one before. -/
def step (config : SwitchoverConfig) (w : World) : Step → World
  | .load => if w.writesBlocked then w else { w with admitting := w.admitting+1 }
  | .admitWrite => if 0 < w.admitting then { w with admitting := w.admitting-1, inFlight := w.inFlight+1 } else w
  | .commit advance =>
    if 0 < w.inFlight then { w with lsn := w.lsn+advance+1, commits := w.commits ++ [w.lsn+advance+1] } else w
  | .dropGuard => if 0 < w.inFlight then { w with inFlight := w.inFlight-1 } else w
  | .register standbys => { w with standbys := standbys }
  | .initiate targetNode switchoverId => if w.pc.isIdle then w.initiate config targetNode switchoverId else w
  | .cancel => if w.pc.isIdle then w.cancel else w
  | .coordinate failure => w.coordinate failure
  | .deliver node => w.deliver node

end World
end HeliosNano.Replication.Switchover
