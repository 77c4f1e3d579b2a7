import HeliosNano.Foundation.Deletions
import HeliosNano.Storage.Branch.MergeRows

namespace HeliosNano.Storage.Branch
open Foundation List

inductive GcAction
  | dropBranch (name : String) (ifExists : Bool)
  | runGc
  | setTimestamp (timestamp : Timestamp)

/-- A manager, with the dropped branches that wait, each with the time of its drop, and the branches that are collected. -/
structure GcState where
  manager : BranchManager
  waiting : Nat → Option Timestamp
  collected : Set Nat

/-- The branch that is dropped under a name: not the main branch, and none with children. -/
def BranchManager.droppedBy (m : BranchManager) (name : String) : Option Nat :=
  match m.getBranchByName name with
  | .ok metadata =>
    if metadata.branchId ≠ m.registry.mainBranch ∧ m.getChildBranches metadata.branchId = [] then some metadata.branchId else none
  | .error _ => none

def BranchManager.act (m : BranchManager) : GcAction → BranchManager
  | .dropBranch name ifExists => (m.dropBranch name ifExists).1
  | .runGc => m.gcEligibleBranches.1
  | .setTimestamp timestamp => { m with timestamp := timestamp }

variable (ids : Set Nat)

def keysOf : Set Key := fun key => ∃ id ∈ ids, branchLead id <+: key

def bdataLead : Bytes := ascii ['b','d','a','t','a']

def sweptFrom : Set Key := fun key => ∃ id ∈ ids, bdataLead <+: key ∧ branchLead id ≤ key

namespace GcState

variable (s : GcState)

/-- The branches that are collected by an action: the one that is dropped, or those whose drop is old enough. -/
def due : GcAction → Set Nat
  | .dropBranch name _ => fun id => s.manager.droppedBy name = some id ∧
      s.manager.gcConfig.autoGcEnabled = true ∧ s.manager.gcConfig.gcMode = .immediate
  | .runGc => fun id => ∃ dropped, s.waiting id = some dropped ∧
      s.manager.gcConfig.minRetentionSeconds ≤ s.manager.timestamp-dropped
  | .setTimestamp _ => ∅

def waitingAfter : GcAction → Nat → Option Timestamp
  | .dropBranch name _, id =>
    if s.manager.droppedBy name = some id ∧ s.manager.gcConfig.autoGcEnabled = true ∧
      s.manager.gcConfig.gcMode = .deferred then some s.manager.timestamp else s.waiting id
  | .runGc, id => (s.waiting id).filter fun dropped =>
      decide (s.manager.timestamp-dropped < s.manager.gcConfig.minRetentionSeconds)
  | .setTimestamp _, id => s.waiting id

def step (s : GcState) (a : GcAction) : GcState := ⟨s.manager.act a,s.waitingAfter a,s.collected ∪ s.due a⟩

def start (m : BranchManager) : GcState := ⟨m,m.pendingGc.lookup,∅⟩

/-- Against the rows of the start, exactly the keys of the collected branches are missing. -/
def Exact (rows : Store) (s : GcState) : Prop := Map.Without (keysOf s.collected) rows s.manager.db.rows

/-- Every stored key that a sweep comes to is a key of a branch that is due. -/
def SparesOthers (a : GcAction) : Prop := ∀ key ∈ s.manager.db.rows, key ∈ sweptFrom (s.due a) → key ∈ keysOf (s.due a)

end GcState

theorem bdataLead_isPrefix_branchLead (id : Nat) : bdataLead <+: branchLead id :=
  ⟨colon::(beBytes 8 id ++ [colon]),rfl⟩

theorem keysOf_subset : keysOf ids ⊆ sweptFrom ids := by
  rintro key ⟨id,hid,rest,rfl⟩
  exact ⟨id,hid,(bdataLead_isPrefix_branchLead id).trans (prefix_append _ _),branchLead_le_encode id rest⟩

theorem keysOf_union (ids' : Set Nat) : keysOf (ids ∪ ids') = keysOf ids ∪ keysOf ids' := by
  ext key
  constructor
  · rintro ⟨id,hid | hid,hkey⟩
    · exact .inl ⟨id,hid,hkey⟩
    · exact .inr ⟨id,hid,hkey⟩
  · rintro (⟨id,hid,hkey⟩ | ⟨id,hid,hkey⟩)
    · exact ⟨id,.inl hid,hkey⟩
    · exact ⟨id,.inr hid,hkey⟩

theorem mem_prefixIterator (rows : Store) (id : Nat) (key : Key) :
    key ∈ (prefixIterator rows (branchLead id)).map Prod.fst ↔ key ∈ rows ∧ bdataLead <+: key ∧ branchLead id ≤ key := by
  obtain ⟨rest,hrest⟩ := bdataLead_isPrefix_branchLead id
  have hsame : ∀ entry : Key × Bytes, entry.1.take 5 = (branchLead id).take 5 ↔ bdataLead <+: entry.1 := by
    intro entry
    rw [prefix_iff_eq_take,eq_comm]
    exact Iff.rfl
  have hf := rows.prefix_first_from bdataLead rest
  rw [hrest] at hf
  rw [prefixIterator,takeWhile_eq_filter (hf.imp fun h => by simpa only [decide_eq_true_eq,hsame] using h),mem_map]
  simp only [mem_filter,Map.mem_iterFrom,decide_eq_true_eq,hsame]
  constructor
  · rintro ⟨entry,⟨⟨hlk,hle⟩,hl⟩,rfl⟩
    exact ⟨AList.lookup_isSome.mp (by rw [hlk]; rfl),hl,hle⟩
  · rintro ⟨hm,hl,hle⟩
    obtain ⟨value,hv⟩ := Option.isSome_iff_exists.mp (AList.lookup_isSome.mpr hm)
    exact ⟨(key,value),⟨⟨hv,hle⟩,hl⟩,rfl⟩

namespace BranchManager

variable (m : BranchManager)

theorem gcBranchData_without (id : Nat) : Map.Without (sweptFrom {id}) m.db.rows (m.gcBranchData id).db.rows := by
  refine (Map.Without.foldl_erase (prefixIterator m.db.rows (branchLead id)) m.db.rows).congr fun key hkey => ?_
  rw [Set.mem_ofPred_eq,mem_prefixIterator]
  constructor
  · rintro ⟨id',hid',hl,hle⟩
    obtain rfl := Set.mem_singleton_iff.mp hid'
    exact ⟨hkey,hl,hle⟩
  · rintro ⟨-,hl,hle⟩
    exact ⟨id,rfl,hl,hle⟩

theorem collect_without (ids : List Nat) (m : BranchManager) :
    let m' := ids.foldl (fun (m : BranchManager) id => { m.gcBranchData id with pendingGc := m.pendingGc.erase id }) m
    Map.Without (sweptFrom {id | id ∈ ids}) m.db.rows m'.db.rows ∧
      ∀ id, m'.pendingGc.lookup id = if id ∈ ids then none else m.pendingGc.lookup id := by
  induction ids generalizing m with
  | nil =>
    refine ⟨(Map.Without.refl m.db.rows).congr fun key _ => ⟨?_,fun hno => hno.elim⟩,fun id => ?_⟩
    · rintro ⟨id,hid,-⟩
      exact absurd hid not_mem_nil
    · rw [if_neg not_mem_nil,foldl_nil]
  | cons first rest ih =>
    obtain ⟨hr,hq⟩ := ih { m.gcBranchData first with pendingGc := m.pendingGc.erase first }
    refine ⟨((m.gcBranchData_without first).trans hr).congr fun key _ => ?_,fun id => ?_⟩
    · constructor
      · rintro ⟨id,hid,hkey⟩
        rcases mem_cons.mp hid with rfl | hid
        · exact .inl ⟨id,rfl,hkey⟩
        · exact .inr ⟨id,hid,hkey⟩
      · rintro (⟨id,rfl,hkey⟩ | ⟨id,hid,hkey⟩)
        · exact ⟨_,mem_cons_self,hkey⟩
        · exact ⟨id,mem_cons_of_mem first hid,hkey⟩
    · rw [foldl_cons,hq,Map.lookup_erase_ite]
      by_cases hid : id = first
      · rw [if_pos hid,if_pos (mem_cons.mpr (.inl hid)),ite_self]
      · rw [if_neg hid]
        refine if_congr ?_ rfl rfl
        rw [mem_cons,or_iff_right hid]

theorem dropBranch_collects (name : String) (ifExists : Bool) : (m.droppedBy name = none ∧ (m.dropBranch name ifExists).1 = m) ∨
    ∃ id, ∃ m' : BranchManager, m.droppedBy name = some id ∧ (m.dropBranch name ifExists).1 = m'.scheduleBranchGc id ∧
      m'.db.rows = m.db.rows ∧ m'.pendingGc = m.pendingGc ∧ m'.gcConfig = m.gcConfig ∧ m'.timestamp = m.timestamp := by
  unfold droppedBy
  cases hn : m.getBranchByName name with
  | error e => exact .inl ⟨rfl,by simp only [dropBranch,hn]⟩
  | ok metadata =>
    simp only
    by_cases hm : metadata.branchId = m.registry.mainBranch
    · refine .inl ⟨if_neg fun h => h.1 hm,?_⟩
      simp only [dropBranch,hn,if_pos hm]
    by_cases hc : m.getChildBranches metadata.branchId = []
    · obtain ⟨children,hfr⟩ := releaseChild_frame (m.putMetadata name { metadata with state := .dropped m.timestamp }) metadata
      have hd : m.dropBranch name ifExists = ((((m.putMetadata name { metadata with state := .dropped m.timestamp }).releaseChild
          metadata).unregister metadata.branchId).scheduleBranchGc metadata.branchId,.ok ()) := by
        simp only [dropBranch,hn,if_neg hm,hc,ne_eq,not_true_eq_false,if_false]
      refine .inr ⟨metadata.branchId,_,if_pos ⟨hm,hc⟩,congrArg Prod.fst hd,?_⟩
      rw [hfr]
      exact ⟨rfl,rfl,rfl,rfl⟩
    · refine .inl ⟨if_neg fun h => hc h.2,?_⟩
      simp only [dropBranch,hn,if_neg hm,ne_eq,if_pos hc]

theorem mem_eligible {m : BranchManager} {id : Nat} :
    id ∈ (m.pendingGc.entries.filter fun entry => decide (m.gcConfig.minRetentionSeconds ≤ m.timestamp-entry.2)).map (·.1) ↔
      ∃ dropped, m.pendingGc.lookup id = some dropped ∧ m.gcConfig.minRetentionSeconds ≤ m.timestamp-dropped := by
  simp only [mem_map,mem_filter,decide_eq_true_eq]
  constructor
  · rintro ⟨⟨id',dropped⟩,⟨hm,hold⟩,rfl⟩
    exact ⟨dropped,AList.mem_lookup_iff.mpr hm,hold⟩
  · rintro ⟨dropped,hlk,hold⟩
    exact ⟨⟨id,dropped⟩,⟨AList.mem_lookup_iff.mp hlk,hold⟩,rfl⟩

theorem gcEligibleBranches_without : Map.Without (sweptFrom {id | ∃ dropped, m.pendingGc.lookup id = some dropped ∧
      m.gcConfig.minRetentionSeconds ≤ m.timestamp-dropped}) m.db.rows m.gcEligibleBranches.1.db.rows ∧
    ∀ id, m.gcEligibleBranches.1.pendingGc.lookup id = (m.pendingGc.lookup id).filter fun dropped =>
      decide (m.timestamp-dropped < m.gcConfig.minRetentionSeconds) := by
  obtain ⟨hr,hq⟩ := collect_without ((m.pendingGc.entries.filter fun entry =>
    decide (m.gcConfig.minRetentionSeconds ≤ m.timestamp-entry.2)).map (·.1)) m
  simp only [mem_eligible] at hr hq
  refine ⟨hr,fun id => (hq id).trans ?_⟩
  cases hw : m.pendingGc.lookup id with
  | none => simp
  | some dropped =>
    by_cases hold : m.gcConfig.minRetentionSeconds ≤ m.timestamp-dropped
    · rw [if_pos ⟨dropped,rfl,hold⟩,Option.filter_some_neg (by simpa using hold)]
    rw [Option.filter_some_pos (by simpa using hold)]
    refine if_neg ?_
    rintro ⟨_,⟨⟩,hy⟩
    exact hold hy

theorem sweptFrom_empty {ids : Set Nat} (h : ∀ id, id ∉ ids) (rows : Store) : Map.Without (sweptFrom ids) rows rows := by
  refine (Map.Without.refl rows).congr fun key _ => ⟨?_,fun hno => hno.elim⟩
  rintro ⟨id,hid,-⟩
  exact absurd hid (h id)

theorem scheduleBranchGc_without (dropped : Nat) :
    Map.Without (sweptFrom {id | dropped = id ∧ m.gcConfig.autoGcEnabled = true ∧ m.gcConfig.gcMode = .immediate})
      m.db.rows (m.scheduleBranchGc dropped).db.rows ∧
    ∀ id, (m.scheduleBranchGc dropped).pendingGc.lookup id =
      if dropped = id ∧ m.gcConfig.autoGcEnabled = true ∧ m.gcConfig.gcMode = .deferred then some m.timestamp
      else m.pendingGc.lookup id := by
  unfold scheduleBranchGc
  cases ha : m.gcConfig.autoGcEnabled with
  | false => exact ⟨sweptFrom_empty (by rintro id ⟨-,⟨⟩,-⟩) _,fun id => (if_neg (by rintro ⟨-,⟨⟩,-⟩)).symm⟩
  | true =>
    cases hmode : m.gcConfig.gcMode with
    | immediate =>
      refine ⟨(m.gcBranchData_without dropped).congr fun key _ => ?_,fun id => (if_neg (by rintro ⟨-,-,⟨⟩⟩)).symm⟩
      constructor
      · rintro ⟨id,⟨rfl,-,-⟩,hkey⟩
        exact ⟨dropped,rfl,hkey⟩
      · rintro ⟨id,rfl,hkey⟩
        exact ⟨id,⟨rfl,rfl,rfl⟩,hkey⟩
    | deferred =>
      refine ⟨sweptFrom_empty (by rintro id ⟨-,-,⟨⟩⟩) _,fun id => ?_⟩
      refine (Map.lookup_insert_ite m.pendingGc dropped id m.timestamp).trans (if_congr ?_ rfl rfl)
      rw [eq_comm]
      exact ⟨fun h => ⟨h,rfl,rfl⟩,fun h => h.1⟩

end BranchManager

namespace GcState
open BranchManager

def Queued (s : GcState) : Prop := ∀ id, s.manager.pendingGc.lookup id = s.waiting id

variable {s : GcState}

theorem Queued.step_without (h : s.Queued) (a : GcAction) :
    Map.Without (sweptFrom (s.due a)) s.manager.db.rows (s.step a).manager.db.rows ∧ (s.step a).Queued := by
  cases a with
  | setTimestamp timestamp => exact ⟨sweptFrom_empty (fun id hid => hid) _,h⟩
  | runGc =>
    obtain ⟨hr,hq⟩ := s.manager.gcEligibleBranches_without
    simp only [h _] at hr hq
    exact ⟨hr,hq⟩
  | dropBranch name ifExists =>
    rcases s.manager.dropBranch_collects name ifExists with ⟨hd,hsame⟩ | ⟨dropped,m',hd,ha,hr,hq,hc,htm⟩
    · have ha : (s.step (.dropBranch name ifExists)).manager = s.manager := hsame
      unfold Queued
      rw [ha]
      refine ⟨sweptFrom_empty (fun id hid => ?_) _,fun id => (h id).trans (if_neg ?_).symm⟩
      · have hsm := hid.1
        rw [hd] at hsm
        cases hsm
      · rw [hd]
        rintro ⟨⟨⟩,-⟩
    · have ha : (s.step (.dropBranch name ifExists)).manager = m'.scheduleBranchGc dropped := ha
      obtain ⟨hs,hw⟩ := m'.scheduleBranchGc_without dropped
      unfold Queued
      rw [ha,← hr]
      simp only [hc,htm,hq,h _] at hs hw
      refine ⟨hs.congr fun key _ => ?_,fun id => (hw id).trans ?_⟩
      · simp only [due,hd,Option.some.injEq]
        exact Iff.rfl
      · simp only [step,waitingAfter,hd,Option.some.injEq]

theorem Exact.step {rows : Store} (h : s.Exact rows) (hq : s.Queued) {a : GcAction} (hs : s.SparesOthers a) :
    (s.step a).Exact rows := by
  have hk : Map.Without (keysOf (s.due a)) s.manager.db.rows (s.step a).manager.db.rows :=
    (hq.step_without a).1.congr fun key hkey => ⟨fun hd => keysOf_subset _ hd,hs key hkey⟩
  have htr := h.trans hk
  rw [← keysOf_union] at htr
  exact htr

theorem Exact.not_step {rows : Store} (h : s.Exact rows) (hq : s.Queued) {a : GcAction}
    (hs : ¬s.SparesOthers a) : ¬(s.step a).Exact rows := by
  intro hst
  unfold SparesOthers at hs
  push Not at hs
  obtain ⟨key,hkey,hsw,ho⟩ := hs
  have hg : key ∉ (s.step a).manager.db.rows := (hq.step_without a).1.lost key hsw
  have hk : key ∉ keysOf (s.collected ∪ s.due a) := by
    rw [keysOf_union]
    rintro (hc | hd)
    · exact h.lost key hc hkey
    · exact ho hd
  exact hg ((hst.mem hk).mpr (h.mem_before hkey))

/-- Every sweep of a run spares the other branches exactly when, after each action, exactly the keys of the branches
collected so far are missing. -/
theorem collection_exact_iff (m : BranchManager) (actions : List GcAction) :
    Guarded step SparesOthers (start m) actions ↔ ∀ n, (run step (start m) (actions.take n)).Exact m.db.rows := by
  have hempty : keysOf ∅ = ∅ := Set.eq_empty_of_forall_notMem fun key hkey => hkey.elim fun id hid => hid.1
  have hstart : (start m).Exact m.db.rows := by
    unfold Exact
    rw [start,hempty]
    exact Map.Without.refl m.db.rows
  refine guarded_iff_forall_take step (fun s => s.Exact m.db.rows ∧ s.Queued) (P := fun s => s.Exact m.db.rows)
    (fun s h => h.1) (fun s a h hspares => ?_) (fun s a h hspares => ?_) ⟨hstart,fun id => rfl⟩
  · exact ⟨h.1.step h.2 hspares,(h.2.step_without a).2⟩
  · exact h.1.not_step h.2 hspares

/-- Two branches, 2 and 3, and a row of the second. -/
def twoBranches : BranchManager :=
  run BranchManager.step
    (BranchManager.start ((∅ : Store).insert (encodeBranchDataKey 3 (ascii ['k'])) []) 0 ⟨0,true,.immediate⟩ none)
    [.create "first" none 0,.create "second" none 0]

/-- The row of the second branch is deleted when the first is dropped. -/
theorem drop_sweeps_live_branch : ¬(run step (start twoBranches) [.dropBranch "first" false]).Exact twoBranches.db.rows := by
  intro hexact
  have hgone : ((start twoBranches).step (.dropBranch "first" false)).manager.db.rows.lookup (encodeBranchDataKey 3 (ascii ['k'])) =
      none := by decide +kernel
  have hrow : twoBranches.db.rows.lookup (encodeBranchDataKey 3 (ascii ['k'])) = some [] := by decide +kernel
  have hdropped : twoBranches.droppedBy "first" = some 2 := by decide +kernel
  have hkept := hexact.kept (encodeBranchDataKey 3 (ascii ['k'])) ?_
  · rw [hrow] at hkept
    exact absurd (hgone.symm.trans hkept) nofun
  · rintro ⟨id,hid | hid,hkey⟩
    · exact hid
    · obtain rfl : 2 = id := Option.some.inj (hdropped.symm.trans hid.1)
      revert hkey
      decide

end GcState
end HeliosNano.Storage.Branch
