import Mathlib.Data.Finset.Max
import Mathlib.Data.Prod.Lex
import HeliosNano.Foundation.Settle
import HeliosNano.Storage.Basics
import HeliosNano.Sync.VectorClock

namespace HeliosNano.Sync
open Foundation Storage List VectorClock

inductive ConflictType
  | updateUpdate
  | updateDelete
  | deleteUpdate
  | insertInsert
deriving DecidableEq

inductive ChangeOperation
  | insert
  | update
  | delete
deriving DecidableEq

structure ConflictChangeEntry where
  data : Bytes
  timestamp : Int
  node_id : Uuid
  vector_clock : VectorClock
  operation : ChangeOperation
deriving DecidableEq

structure Conflict where
  id : Uuid
  conflict_type : ConflictType
  table : String
  row_id : Bytes
  local_entry : ConflictChangeEntry
  remote_entry : ConflictChangeEntry
  local_vector_clock : VectorClock
  remote_vector_clock : VectorClock
  detected_at : Int

inductive ConflictResolution
  | lastWriteWins
  | vectorClockCausal
  | manual
deriving DecidableEq

structure ConflictReport where
  conflict : Conflict
  resolution : ConflictResolution
  winner : String
  reason : String
  resolved_at : Int

inductive ConflictError
  | manualResolutionRequired (id : Uuid)
  | invalidWinner (winner : String)

structure Display where
  time : Int → String
  uuid : Uuid → String

structure ConflictDetector where
  resolution_strategy : ConflictResolution
  conflict_log : List ConflictReport
  node_id : Uuid

/-- The kind of conflict of two operations, if they conflict at all. -/
def conflictType? : ChangeOperation → ChangeOperation → Option ConflictType
  | .update, .update => some .updateUpdate
  | .update, .delete => some .updateDelete
  | .delete, .update => some .deleteUpdate
  | .insert, .insert => some .insertInsert
  | _, _ => none

def isConcurrent (local_vc remote_vc : VectorClock) : Bool :=
  !local_vc.happensBefore remote_vc && !remote_vc.happensBefore local_vc

/-- The conflict of two entries, under an identifier and at a time that are given. -/
def detect (id : Uuid) (now : Int) (table : String) (row_id : Bytes) (localEntry remote : ConflictChangeEntry) :
    Option Conflict :=
  if !isConcurrent localEntry.vector_clock remote.vector_clock then none
  else
    match conflictType? localEntry.operation remote.operation with
    | none => none
    | some conflict_type =>
      some ⟨id,conflict_type,table,row_id,localEntry,remote,localEntry.vector_clock,remote.vector_clock,now⟩

def lwwResolve (display : Display) (conflict : Conflict) : String × String :=
  let local_ts := conflict.local_entry.timestamp
  let remote_ts := conflict.remote_entry.timestamp
  if remote_ts > local_ts then
    ("remote",s!"Remote timestamp ({display.time remote_ts}) is later than local ({display.time local_ts})")
  else if local_ts > remote_ts then
    ("local",s!"Local timestamp ({display.time local_ts}) is later than remote ({display.time remote_ts})")
  else
    let local_node := conflict.local_entry.node_id
    let remote_node := conflict.remote_entry.node_id
    if remote_node > local_node then
      ("remote",
        s!"Timestamp tie - remote node_id ({display.uuid remote_node}) > local node_id ({display.uuid local_node})")
    else
      ("local",
        s!"Timestamp tie - local node_id ({display.uuid local_node}) >= remote node_id ({display.uuid remote_node})")

def vectorClockResolve (display : Display) (conflict : Conflict) : String × String :=
  let local_vc := conflict.local_vector_clock
  let remote_vc := conflict.remote_vector_clock
  if remote_vc.happensBefore local_vc then ("local", "Local change is causally later than remote")
  else if local_vc.happensBefore remote_vc then ("remote", "Remote change is causally later than local")
  else
    let winner := (lwwResolve display conflict).1
    (winner,s!"Changes are concurrent - falling back to LWW, {winner} wins")

namespace ConflictDetector

def resolve (display : Display) (now : Int) (d : ConflictDetector) (conflict : Conflict) :
    Except ConflictError (ConflictReport × ConflictDetector) := do
  let (winner,reason) ← match d.resolution_strategy with
    | .lastWriteWins => pure (lwwResolve display conflict)
    | .vectorClockCausal => pure (vectorClockResolve display conflict)
    | .manual => throw (.manualResolutionRequired conflict.id)
  let report : ConflictReport := ⟨conflict,d.resolution_strategy,winner,reason,now⟩
  return (report,{ d with conflict_log := d.conflict_log ++ [report] })

end ConflictDetector

def applyResolution (report : ConflictReport) : Except ConflictError ConflictChangeEntry :=
  if report.winner = "local" then .ok report.conflict.local_entry
  else if report.winner = "remote" then .ok report.conflict.remote_entry
  else .error (.invalidWinner report.winner)

/-- How an entry arrives: in which role, and under which identifier and time a conflict is reported. -/
structure Manner where
  swapped : Bool
  conflict : Uuid
  now : Int

/-- A replica of one row. Without a conflict the causally later entry stays; of two entries that are not ordered and not
reported either, the replica has a fixed choice. -/
structure Replica where
  detector : ConflictDetector
  table : String
  row_id : Bytes
  takesUnreported : Bool
  entry : Option ConflictChangeEntry

def keepUnreported (takesUnreported : Bool) (kept arriving : ConflictChangeEntry) : ConflictChangeEntry :=
  if kept.vector_clock.happensBefore arriving.vector_clock then arriving
  else if arriving.vector_clock.happensBefore kept.vector_clock then kept
  else if takesUnreported then arriving
  else kept

def Replica.receive (display : Display) (r : Replica) (arrival : Manner × ConflictChangeEntry) :
    Except ConflictError Replica :=
  match r.entry with
  | none => .ok { r with entry := some arrival.2 }
  | some kept =>
    let (localEntry,remote) := if arrival.1.swapped then (arrival.2,kept) else (kept,arrival.2)
    match detect arrival.1.conflict arrival.1.now r.table r.row_id localEntry remote with
    | none => .ok { r with entry := some (keepUnreported r.takesUnreported kept arrival.2) }
    | some conflict => do
      let (report,detector) ← r.detector.resolve display arrival.1.now conflict
      let entry ← applyResolution report
      return { r with detector := detector, entry := some entry }

def Replica.receiveAll (display : Display) (r : Replica) (arrivals : List (Manner × ConflictChangeEntry)) :
    Except ConflictError Replica :=
  arrivals.foldlM (Replica.receive display) r

/-- The later of two entries in the order of timestamps, ties going to the larger node. -/
def lwwKeeps (localEntry remote : ConflictChangeEntry) : ConflictChangeEntry :=
  if remote.timestamp > localEntry.timestamp then remote
  else if localEntry.timestamp > remote.timestamp then localEntry
  else if remote.node_id > localEntry.node_id then remote
  else localEntry

def keepEntry (takesUnreported : Bool) (manner : Manner) (kept arriving : ConflictChangeEntry) : ConflictChangeEntry :=
  let (localEntry,remote) := if manner.swapped then (arriving,kept) else (kept,arriving)
  if isConcurrent localEntry.vector_clock remote.vector_clock && (conflictType? localEntry.operation remote.operation).isSome
  then lwwKeeps localEntry remote
  else keepUnreported takesUnreported kept arriving

variable {display : Display} {d : ConflictDetector} {conflict : Conflict}

theorem applyResolution_lww {report : ConflictReport} (hw : report.winner = (lwwResolve display report.conflict).1) :
    applyResolution report = .ok (lwwKeeps report.conflict.local_entry report.conflict.remote_entry) := by
  rw [applyResolution,hw,lwwResolve,lwwKeeps]
  simp only
  split
  · simp
  split
  · simp
  · split
    · simp
    · simp

theorem vectorClockResolve_fst (hc : isConcurrent conflict.local_vector_clock conflict.remote_vector_clock = true) :
    (vectorClockResolve display conflict).1 = (lwwResolve display conflict).1 := by
  have hp : conflict.local_vector_clock.happensBefore conflict.remote_vector_clock = false ∧
      conflict.remote_vector_clock.happensBefore conflict.local_vector_clock = false := by
    simpa [isConcurrent] using hc
  simp [vectorClockResolve,hp.1,hp.2]

theorem resolve_detect (display : Display) (now' : Int) {id : Uuid} {now : Int} {table : String} {row_id : Bytes}
    {localEntry remote : ConflictChangeEntry} (ha : d.resolution_strategy ≠ .manual)
    (hd : detect id now table row_id localEntry remote = some conflict) :
    ∃ report detector, d.resolve display now' conflict = .ok (report,detector) ∧
      detector.resolution_strategy = d.resolution_strategy ∧ applyResolution report = .ok (lwwKeeps localEntry remote) := by
  rw [detect] at hd
  split at hd
  · cases hd
  next hc =>
  split at hd
  · cases hd
  simp only [Option.some.injEq] at hd
  subst hd
  rw [ConflictDetector.resolve]
  cases hs : d.resolution_strategy with
  | lastWriteWins => exact ⟨_,_,rfl,rfl,applyResolution_lww rfl⟩
  | vectorClockCausal =>
    refine ⟨⟨_,_,(vectorClockResolve display _).1,(vectorClockResolve display _).2,_⟩,_,rfl,rfl,
      applyResolution_lww (vectorClockResolve_fst ?_)⟩
    simpa using hc
  | manual => exact absurd hs ha

theorem detect_isSome {id : Uuid} {now : Int} {table : String} {row_id : Bytes} {localEntry remote : ConflictChangeEntry} :
    (detect id now table row_id localEntry remote).isSome = (isConcurrent localEntry.vector_clock remote.vector_clock &&
        (conflictType? localEntry.operation remote.operation).isSome) := by
  rw [detect]
  cases isConcurrent localEntry.vector_clock remote.vector_clock with
  | false => rfl
  | true => cases conflictType? localEntry.operation remote.operation <;> rfl

theorem Replica.receive_some (display : Display) {r : Replica} (hat : r.detector.resolution_strategy ≠ .manual)
    {kept : ConflictChangeEntry} (hk : r.entry = some kept) (arrival : Manner × ConflictChangeEntry) :
    ∃ r', r.receive display arrival = .ok r' ∧ r'.detector.resolution_strategy = r.detector.resolution_strategy ∧
      r'.takesUnreported = r.takesUnreported ∧ r'.entry = some (keepEntry r.takesUnreported arrival.1 kept arrival.2) := by
  rw [Replica.receive,hk]
  simp only [keepEntry]
  generalize (if arrival.1.swapped = true then (arrival.2,kept) else (kept,arrival.2)) = roles
  obtain ⟨localEntry,remote⟩ := roles
  simp only
  rw [← @detect_isSome arrival.1.conflict arrival.1.now r.table r.row_id localEntry remote]
  cases hd : detect arrival.1.conflict arrival.1.now r.table r.row_id localEntry remote with
  | none => exact ⟨_,rfl,rfl,rfl,rfl⟩
  | some conflict =>
    obtain ⟨report,detector,hr,hs,ha⟩ := resolve_detect display arrival.1.now hat hd
    refine ⟨{ r with detector := detector, entry := some (lwwKeeps localEntry remote) },?_,hs,rfl,rfl⟩
    simp only [hr,bind,Except.bind,ha]
    rfl

theorem Replica.receiveAll_some (display : Display) {r : Replica} (ha : r.detector.resolution_strategy ≠ .manual)
    {kept : ConflictChangeEntry} (hk : r.entry = some kept) (arrivals : List (Manner × ConflictChangeEntry)) :
    ∃ r', r.receiveAll display arrivals = .ok r' ∧ r'.entry = some
      (arrivals.foldl (fun kept arrival => keepEntry r.takesUnreported arrival.1 kept arrival.2) kept) := by
  induction arrivals generalizing r kept with
  | nil => exact ⟨r,rfl,hk⟩
  | cons arrival rest ih =>
    obtain ⟨r₁,hr,hs,htk,he⟩ := Replica.receive_some display ha hk arrival
    obtain ⟨r₂,hrest,hk₂⟩ := ih (hs ▸ ha) he
    refine ⟨r₂,?_,?_⟩
    · rw [Replica.receiveAll,foldlM_cons,hr]
      exact hrest
    · rw [hk₂,htk]
      rfl

theorem Replica.receiveAll_none (display : Display) {r : Replica} (ha : r.detector.resolution_strategy ≠ .manual)
    (hn : r.entry = none) (arrivals : List (Manner × ConflictChangeEntry)) :
    ∃ r', r.receiveAll display arrivals = .ok r' ∧ r'.entry = settle (keepEntry r.takesUnreported) arrivals := by
  cases arrivals with
  | nil => exact ⟨r,rfl,hn⟩
  | cons arrival rest =>
    obtain ⟨r',hrest,hk⟩ :=
      @Replica.receiveAll_some display { r with entry := some arrival.2 } ha arrival.2 rfl rest
    refine ⟨r',?_,hk⟩
    rw [Replica.receiveAll,foldlM_cons,Replica.receive,hn]
    exact hrest

/-- An entry beats one that happens before it, and one that it conflicts with by a reported pair of operations when its
timestamp, and on a tie its node, is larger. -/
def ConflictChangeEntry.Beats (m e : ConflictChangeEntry) : Prop :=
  e.vector_clock.happensBefore m.vector_clock = true ∨
    (isConcurrent m.vector_clock e.vector_clock = true ∧ (conflictType? m.operation e.operation).isSome ∧
      (e.timestamp < m.timestamp ∨ (e.timestamp = m.timestamp ∧ e.node_id < m.node_id)))
deriving Decidable

theorem conflictType?_comm (o o' : ChangeOperation) : (conflictType? o o').isSome = (conflictType? o' o).isSome := by
  cases o <;> cases o' <;> rfl

theorem isConcurrent_comm (c c' : VectorClock) : isConcurrent c c' = isConcurrent c' c := by
  rw [isConcurrent,isConcurrent,Bool.and_comm]

theorem not_happensBefore_of {c c' : VectorClock} (h : c.happensBefore c' = true) : c'.happensBefore c = false := by
  rw [happensBefore_iff] at h
  have hn : ¬c'.happensBefore c = true := fun h' => lt_asymm h (happensBefore_iff.mp h')
  simpa using hn

variable {b a m e : ConflictChangeEntry} {manner : Manner} {takes : Bool}

theorem lwwKeeps_comm (hn : a.node_id ≠ b.node_id) : lwwKeeps a b = lwwKeeps b a := by
  simp only [lwwKeeps]
  grind

theorem lwwKeeps_eq_left (hn : m.node_id ≠ e.node_id) : lwwKeeps m e = m ↔
    e.timestamp < m.timestamp ∨ (e.timestamp = m.timestamp ∧ e.node_id < m.node_id) := by
  simp only [lwwKeeps]
  grind

theorem keepEntry_pick (takes : Bool) (manner : Manner) (kept arriving : ConflictChangeEntry) :
    keepEntry takes manner kept arriving = kept ∨ keepEntry takes manner kept arriving = arriving := by
  simp only [keepEntry,keepUnreported,lwwKeeps]
  grind

theorem keepEntry_ordered (h : e.vector_clock.happensBefore m.vector_clock = true) :
    keepEntry takes manner m e = m ∧ keepEntry takes manner e m = m := by
  have h' := not_happensBefore_of h
  simp only [keepEntry,isConcurrent,keepUnreported]
  constructor
  · cases manner.swapped <;> simp [h,h']
  · cases manner.swapped <;> simp [h,h']

variable (hc : isConcurrent a.vector_clock b.vector_clock = true)
include hc

theorem keepEntry_reported (hr : (conflictType? a.operation b.operation).isSome = true) (hn : a.node_id ≠ b.node_id) :
    keepEntry takes manner a b = lwwKeeps a b := by
  simp only [keepEntry]
  cases manner.swapped with
  | false => simp [hc,hr]
  | true =>
    rw [conflictType?_comm] at hr
    rw [isConcurrent_comm] at hc
    simp [hc,hr,lwwKeeps_comm hn]

theorem keepEntry_unreported (hr : (conflictType? a.operation b.operation).isSome = false) :
    keepEntry takes manner a b = if takes then b else a := by
  have hp : a.vector_clock.happensBefore b.vector_clock = false ∧ b.vector_clock.happensBefore a.vector_clock = false := by
    simpa [isConcurrent] using hc
  have hreported' := conflictType?_comm a.operation b.operation
  simp only [keepEntry,keepUnreported,hp.1,hp.2]
  cases manner.swapped with
  | false => simp [hr]
  | true => simp [← hreported',hr]

omit hc

theorem prevails_iff (hn : m.node_id ≠ e.node_id) : Prevails (keepEntry takes) m e ↔ m.Beats e := by
  have hne : m ≠ e := fun h => hn (congrArg _ h)
  have hm : Nonempty Manner := ⟨⟨false,0,0⟩⟩
  obtain ⟨manner₀⟩ := hm
  cases hb : e.vector_clock.happensBefore m.vector_clock with
  | true => exact ⟨fun _ => .inl hb,fun _ manner => keepEntry_ordered hb⟩
  | false =>
    cases ha : m.vector_clock.happensBefore e.vector_clock with
    | true =>
      constructor
      · intro h
        exact absurd ((h manner₀).1.symm.trans (keepEntry_ordered ha).2) hne
      · rintro (h | ⟨h,-⟩)
        · simp [hb] at h
        · simp [isConcurrent,ha] at h
    | false =>
      have hc : isConcurrent m.vector_clock e.vector_clock = true := by simp [isConcurrent,hb,ha]
      have hconcurrent' := isConcurrent_comm m.vector_clock e.vector_clock ▸ hc
      cases hr : (conflictType? m.operation e.operation).isSome with
      | true =>
        have hreported' := conflictType?_comm m.operation e.operation ▸ hr
        have hl : ∀ manner, keepEntry takes manner m e = lwwKeeps m e := fun _ =>
          keepEntry_reported hc hr hn
        have hrt : ∀ manner, keepEntry takes manner e m = lwwKeeps m e := fun _ =>
          (keepEntry_reported hconcurrent' hreported' hn.symm).trans (lwwKeeps_comm hn.symm)
        have hbt : m.Beats e ↔ lwwKeeps m e = m := by
          rw [lwwKeeps_eq_left hn]
          simp [ConflictChangeEntry.Beats,hb,hc,hr]
        rw [hbt]
        exact ⟨fun h => (hl manner₀).symm.trans (h manner₀).1,fun h manner =>
          ⟨(hl manner).trans h,(hrt manner).trans h⟩⟩
      | false =>
        have hreported' := conflictType?_comm m.operation e.operation ▸ hr
        have hbt : ¬m.Beats e := by
          rintro (h | ⟨-,h,-⟩)
          · simp [hb] at h
          · simp [hr] at h
        refine ⟨fun h => ?_,fun h => absurd h hbt⟩
        have hl := (h manner₀).1
        have hrt := (h manner₀).2
        rw [keepEntry_unreported hc hr] at hl
        rw [keepEntry_unreported hconcurrent' hreported'] at hrt
        cases takes with
        | true => exact absurd hl.symm hne
        | false => exact absurd hrt.symm hne

/-- All replicas keep the same entry of a set, in every order of arrival and in either role, and it happens before none
of the set. -/
def Converges (takesUnreported : Bool) (entries : List ConflictChangeEntry) : Prop :=
  ∃ final : Option ConflictChangeEntry,
    (∀ m, final = some m → m ∈ entries ∧ ∀ e ∈ entries, m.vector_clock.happensBefore e.vector_clock = false) ∧
    ∀ (display : Display) (r : Replica) (arrivals : List (Manner × ConflictChangeEntry)), r.entry = none →
      r.detector.resolution_strategy ≠ .manual → r.takesUnreported = takesUnreported →
      (arrivals.map Prod.snd).Perm entries → ∃ r', r.receiveAll display arrivals = .ok r' ∧ r'.entry = final

variable {takes : Bool} {entries : List ConflictChangeEntry}

theorem ConflictChangeEntry.Beats.not_before (h : m.Beats e) : m.vector_clock.happensBefore e.vector_clock = false := by
  rcases h with h | ⟨h,-⟩
  · exact not_happensBefore_of h
  · simp only [isConcurrent,Bool.and_eq_true,Bool.not_eq_true'] at h
    exact h.1

theorem not_happensBefore_self (c : VectorClock) : c.happensBefore c = false := by
  have hn : ¬c.happensBefore c = true := fun h => lt_irrefl _ (happensBefore_iff.mp h)
  simpa using hn

theorem settles_iff {final : Option ConflictChangeEntry} :
    (∀ (display : Display) (r : Replica) (arrivals : List (Manner × ConflictChangeEntry)), r.entry = none →
      r.detector.resolution_strategy ≠ .manual → r.takesUnreported = takes → (arrivals.map Prod.snd).Perm entries →
      ∃ r', r.receiveAll display arrivals = .ok r' ∧ r'.entry = final) ↔
    ∀ arrivals : List (Manner × ConflictChangeEntry), (arrivals.map Prod.snd).Perm entries →
      settle (keepEntry takes) arrivals = final := by
  constructor
  · intro h arrivals hp
    let r : Replica := ⟨⟨.lastWriteWins,[],0⟩,"",[],takes,none⟩
    have ha : r.detector.resolution_strategy ≠ .manual := by simp [r]
    let display : Display := ⟨fun _ => "",fun _ => ""⟩
    obtain ⟨r',hr,hfinal⟩ := h display r arrivals rfl ha rfl hp
    obtain ⟨r'',hr',hs⟩ := Replica.receiveAll_none display ha rfl arrivals
    rw [hr] at hr'
    cases hr'
    exact hs.symm.trans hfinal
  · intro h display r arrivals hn ha htk hp
    obtain ⟨r',hr,hs⟩ := Replica.receiveAll_none display ha hn arrivals
    exact ⟨r',hr,hs.trans (htk ▸ h arrivals hp)⟩

theorem converges_iff (hn : (entries.map ConflictChangeEntry.node_id).Nodup) :
    Converges takes entries ↔ entries = [] ∨ ∃ m ∈ entries, ∀ e ∈ entries, e ≠ m → m.Beats e := by
  have hnd : entries.Nodup := hn.of_map _
  have hd : ∀ m ∈ entries, ∀ e ∈ entries, e ≠ m → m.node_id ≠ e.node_id := fun m hm e he hne heq =>
    hne (inj_on_of_nodup_map hn he hm heq.symm)
  have hnn : Nonempty Manner := ⟨⟨false,0,0⟩⟩
  have hs : ∀ m, (∀ arrivals : List (Manner × ConflictChangeEntry), (arrivals.map Prod.snd).Perm entries →
      settle (keepEntry takes) arrivals = some m) ↔ m ∈ entries ∧ ∀ e ∈ entries, e ≠ m → m.Beats e := by
    intro m
    rw [settle_eq_iff (keepEntry_pick takes) hnd]
    refine and_congr_right fun hm => forall₂_congr fun e he => ?_
    exact ⟨fun h hne => (prevails_iff (hd m hm e he hne)).mp (h hne),
      fun h hne => (prevails_iff (hd m hm e he hne)).mpr (h hne)⟩
  simp only [Converges,settles_iff]
  constructor
  · rintro ⟨final,hfinal,ha⟩
    cases hm : final with
    | none =>
      left
      have hem := ha (entries.map fun e => (⟨false,0,0⟩,e)) (by simp [Function.comp_def])
      rw [hm] at hem
      cases entries with
      | nil => rfl
      | cons e rest => simp [settle] at hem
    | some m => exact .inr ⟨m,(hs m).mp (hm ▸ ha)⟩
  · rintro (rfl | ⟨m,hm,hb⟩)
    · refine ⟨none,by simp,fun arrivals hp => ?_⟩
      rw [perm_nil,map_eq_nil_iff] at hp
      rw [hp]
      rfl
    · refine ⟨some m,fun m' heq => ?_,(hs m).mpr ⟨hm,hb⟩⟩
      cases heq
      refine ⟨hm,fun e he => ?_⟩
      by_cases hne : e = m
      · rw [hne]
        exact not_happensBefore_self _
      · exact (hb e he hne).not_before

/-- Happening before is a strict order of the clocks as maps, merging is its least upper bound, and the entries of
distinct nodes converge exactly when one of them beats all the others. -/
theorem conflict_resolution_converges (takesUnreported : Bool) {entries : List ConflictChangeEntry}
    (hnodes : (entries.map ConflictChangeEntry.node_id).Nodup) : (∀ a b : VectorClock, a.happensBefore b = true ↔ a.get < b.get) ∧
    (∀ a b : VectorClock, IsLUB {a.get, b.get} (a.merge b).get) ∧
    (Converges takesUnreported entries ↔ entries = [] ∨ ∃ m ∈ entries, ∀ e ∈ entries, e ≠ m → m.Beats e) := by
  refine ⟨fun a b => VectorClock.happensBefore_iff,fun a b => ?_,converges_iff hnodes⟩
  rw [VectorClock.get_merge]
  exact isLUB_pair

/-- An update of each of three nodes. The second follows the first, and its clock is behind. -/
def skewedUpdates : List ConflictChangeEntry :=
  [⟨[1],30,1,new.increment 1,.update⟩,
   ⟨[2],10,2,(new.increment 1).increment 2,.update⟩,
   ⟨[3],20,3,new.increment 3,.update⟩]

/-- The updates of two nodes, the second of which has the later timestamp. -/
def concurrentUpdates : List ConflictChangeEntry :=
  [⟨[1],10,1,new.increment 1,.update⟩,⟨[2],20,2,new.increment 2,.update⟩]

theorem conflict_resolution_converges_concurrent : Converges false concurrentUpdates := by
  refine (conflict_resolution_converges false (by decide)).2.2.mpr (.inr ⟨_,.tail _ (.head _),?_⟩)
  intro e he hne
  simp only [concurrentUpdates,mem_cons,not_mem_nil,or_false] at he
  rcases he with rfl | rfl
  · exact .inr (by decide)
  · exact absurd rfl hne

/-- Every one of the three updates loses to another one, so the last arrival decides. -/
theorem skewed_updates_diverge : ¬Converges false skewedUpdates ∧ ¬Converges true skewedUpdates := by
  have hcycle : ¬∃ m ∈ skewedUpdates, ∀ e ∈ skewedUpdates, e ≠ m → m.Beats e := by
    rintro ⟨m,hm,hbeats⟩
    have hlosing : ∀ m ∈ skewedUpdates, ∃ e ∈ skewedUpdates, e.node_id ≠ m.node_id ∧ ¬m.Beats e := by decide
    obtain ⟨e,he,hne,hnot⟩ := hlosing m hm
    exact hnot (hbeats e he fun h => hne (congrArg _ h))
  have hnodes : (skewedUpdates.map ConflictChangeEntry.node_id).Nodup := by decide
  constructor
  · rw [converges_iff hnodes]
    exact fun h => hcycle (h.resolve_left (by simp [skewedUpdates]))
  · rw [converges_iff hnodes]
    exact fun h => hcycle (h.resolve_left (by simp [skewedUpdates]))

end HeliosNano.Sync
