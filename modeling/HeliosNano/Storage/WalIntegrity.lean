import HeliosNano.Foundation.Contiguous
import HeliosNano.Storage.WalCleanup
import HeliosNano.Storage.WalRecovery

/-! The verification of the write-ahead log, over runs of the log. LSNs are also used up by commits without an entry, by
batches that are not written and by checkpoints, and those are missing among the retained ones. -/
namespace HeliosNano.Storage.Wal
open Foundation List WalState

abbrev WalEntry := WalCleanup.WalEntry

structure WalIntegrityReport where
  totalEntries : Nat
  corruptedEntries : List Nat
  missingLsns : List (Nat × Nat)
  duplicateLsns : List Nat
  timestampViolations : List Nat
  isValid : Bool
deriving DecidableEq

/-- An item of the scan: an error of the iterator, an entry that cannot be decoded, or an entry. -/
inductive ScanItem (Op : Type)
  | unreadable
  | corrupted
  | entry (entry : WalEntry Op)

structure Verification where
  report : WalIntegrityReport
  lsnMap : Map Nat Nat
  lastLsn : Option Nat
  lastTimestamp : Nat

namespace Verification
variable {Op : Type}

def new : Verification := ⟨⟨0,[],[],[],[],true⟩,∅,none,0⟩

def checkDuplicate (v : Verification) (lsn : Nat) : Verification :=
  match v.lsnMap.lookup lsn with
  | some count =>
    { v with
      lsnMap := v.lsnMap.insert lsn (count+1)
      report := { v.report with duplicateLsns := v.report.duplicateLsns ++ [lsn], isValid := false } }
  | none => { v with lsnMap := v.lsnMap.insert lsn 1 }

/-- The gap goes from the LSN after the last one to the LSN before this one. -/
def checkGap (v : Verification) (lsn : Nat) : Verification :=
  match v.lastLsn with
  | none => v
  | some previous =>
    if lsn = previous+1 then v
    else { v with report := { v.report with
      missingLsns := v.report.missingLsns ++ [(previous+1,lsn-1)], isValid := false } }

/-- Timestamps out of order are reported, and the log may be valid all the same. -/
def checkTimestamp (v : Verification) (entry : WalEntry Op) : Verification :=
  if entry.timestamp < v.lastTimestamp then
    { v with report := { v.report with timestampViolations := v.report.timestampViolations ++ [entry.lsn] } }
  else v

def count (v : Verification) : Verification := { v with report := { v.report with totalEntries := v.report.totalEntries+1 } }

def visit (v : Verification) : ScanItem Op → Verification
  | .unreadable => { v with report := { v.report with isValid := false } }
  | .corrupted =>
    let lsn := v.lastLsn.elim 0 (· + 1)
    { v.count with report := { v.count.report with corruptedEntries := v.report.corruptedEntries ++ [lsn], isValid := false } }
  | .entry entry =>
    { ((v.count.checkDuplicate entry.lsn).checkGap entry.lsn).checkTimestamp entry with
      lastLsn := some entry.lsn, lastTimestamp := entry.timestamp }

end Verification
open Verification

def verifyIntegrity {Op : Type} (scan : List (ScanItem Op)) : WalIntegrityReport :=
  (scan.foldl visit .new).report

section
variable {Op : Type}

abbrev Stamped (Op : Type) := Nat × Op

/-- The retained entries in the order of their LSNs; each is decoded as it was stored. -/
def WalStore.retained (store : WalStore (Stamped Op)) : List (WalEntry Op) :=
  (store.entries.iterFrom 0).map fun e => ⟨e.1,e.2.1,e.2.2⟩

def WalStore.verify (store : WalStore (Stamped Op)) : WalIntegrityReport := verifyIntegrity (store.retained.map .entry)

/-- The log, and the LSNs that were resolved as holes or truncated. -/
structure World (Op : Type) where
  log : WalState (Stamped Op)
  resolved : List Nat

def WalBatch.lsns {Op : Type} (batch : WalBatch Op) : List Nat := batch.entries.map Prod.fst

/-- The LSNs that a step resolves without an entry, or whose entries it deletes. -/
def WalState.resolves {Op : Type} (s : WalState Op) : WalStep Op → List Nat
  | .abandon i => (s.staged[i]?).elim [] WalBatch.lsns
  | .drain sealingFailed => if s.queue.isEmpty ∨ s.flushing.isSome then [] else (s.queue.map Prod.fst).filter (· ∈ sealingFailed)
  | .flush false => s.flushing.elim [] WalBatch.lsns
  | .incrementLsn => [s.current+1]
  | .checkpoint i true =>
    match s.truncations[i]? with
    | some ⟨_,deleted,some _⟩ => deleted
    | _ => []
  | _ => []

def World.start (Op : Type) : World Op := ⟨.opened .empty,[]⟩

def World.step (w : World Op) (a : WalStep (Stamped Op)) : World Op := ⟨w.log.step a,w.resolved ++ w.log.resolves a⟩

/-- The report of a log in order: no entry is corrupted or there twice, and what is missing was resolved. -/
structure Healthy (resolved : List Nat) (report : WalIntegrityReport) : Prop where
  valid : report.isValid = true
  corrupted : report.corruptedEntries = []
  duplicates : report.duplicateLsns = []
  missing : ∀ range ∈ report.missingLsns, ∀ lsn, range.1 ≤ lsn → lsn ≤ range.2 → lsn ∈ resolved

/-- What reaches the store leaves no LSN without an entry between two retained ones. -/
def LeavesNoGap (s : WalState Op) : WalStep Op → Prop
  | .write i => ∀ batch, s.staged[i]? = some batch → Unbroken fun lsn => lsn ∈ s.store.entries ∨ lsn ∈ batch.lsns
  | .flush true => ∀ batch, s.flushing = some batch → Unbroken fun lsn => lsn ∈ s.store.entries ∨ lsn ∈ batch.lsns
  | .checkpoint i true => ∀ upTo deleted durableLast, s.truncations[i]? = some ⟨upTo,deleted,some durableLast⟩ →
      Unbroken fun lsn => lsn ∈ s.store.entries ∧ lsn ∉ deleted
  | _ => True

end

section
variable {Op : Type}

theorem Verification.visit_entry {v : Verification} {entry : WalEntry Op} (hnew : entry.lsn ∉ v.lsnMap) :
    (v.visit (.entry entry)).lastLsn = some entry.lsn ∧
    (∀ lsn, lsn ∈ (v.visit (.entry entry)).lsnMap ↔ lsn = entry.lsn ∨ lsn ∈ v.lsnMap) ∧
    (v.visit (.entry entry)).report.corruptedEntries = v.report.corruptedEntries ∧
    (v.visit (.entry entry)).report.duplicateLsns = v.report.duplicateLsns ∧ ((v.visit (.entry entry)).report.isValid = true ↔
      v.report.isValid = true ∧ ∀ previous, v.lastLsn = some previous → entry.lsn = previous+1) ∧
    ((∀ previous, v.lastLsn = some previous → entry.lsn = previous+1) →
      (v.visit (.entry entry)).report.missingLsns = v.report.missingLsns) := by
  have hlk : v.count.lsnMap.lookup entry.lsn = none := AList.lookup_eq_none.mpr hnew
  have htm : ∀ w : Verification, (w.checkTimestamp entry).lsnMap = w.lsnMap ∧
      (w.checkTimestamp entry).report.corruptedEntries = w.report.corruptedEntries ∧
      (w.checkTimestamp entry).report.duplicateLsns = w.report.duplicateLsns ∧
      (w.checkTimestamp entry).report.isValid = w.report.isValid ∧
      (w.checkTimestamp entry).report.missingLsns = w.report.missingLsns := by
    intro w
    rw [checkTimestamp]
    split <;> exact ⟨rfl,rfl,rfl,rfl,rfl⟩
  rw [visit]
  obtain ⟨hm,hc,hd,hv,hms⟩ :=
    htm ((v.count.checkDuplicate entry.lsn).checkGap entry.lsn)
  dsimp only
  rw [hm,hc,hd,hv,hms,checkDuplicate,hlk]
  dsimp only
  rw [checkGap]
  dsimp only [count]
  cases v.lastLsn with
  | none => exact ⟨rfl,fun lsn => AList.mem_insert _,rfl,rfl,⟨fun h => ⟨h,fun _ hno => (by cases hno)⟩,fun h => h.1⟩,fun _ => rfl⟩
  | some previous =>
    dsimp only
    split
    next heq =>
      refine ⟨rfl,fun lsn => AList.mem_insert _,rfl,rfl,⟨fun h => ⟨h,fun p hp => ?_⟩,fun h => h.1⟩,fun _ => rfl⟩
      rw [← Option.some.inj hp]
      exact heq
    next hne =>
      refine ⟨rfl,fun lsn => AList.mem_insert _,rfl,rfl,⟨fun h => absurd h Bool.false_ne_true,fun h => ?_⟩,fun h => ?_⟩
      · exact absurd (h.2 previous rfl) hne
      · exact absurd (h previous rfl) hne

/-- The entries of a log in ascending order: no entry is corrupted or there twice, and the log is valid when each LSN is the
successor of the one before. -/
theorem foldl_visit (entries : List (WalEntry Op)) (hsr : (entries.map (·.lsn)).Pairwise (· < ·)) (v : Verification)
    (hnew : ∀ entry ∈ entries, entry.lsn ∉ v.lsnMap) :
    ((entries.map ScanItem.entry).foldl visit v).report.corruptedEntries = v.report.corruptedEntries ∧
    ((entries.map ScanItem.entry).foldl visit v).report.duplicateLsns = v.report.duplicateLsns ∧
    (((entries.map ScanItem.entry).foldl visit v).report.isValid = true ↔
      v.report.isValid = true ∧ Consecutive v.lastLsn (entries.map (·.lsn))) ∧ (Consecutive v.lastLsn (entries.map (·.lsn)) →
      ((entries.map ScanItem.entry).foldl visit v).report.missingLsns = v.report.missingLsns) := by
  induction entries generalizing v with
  | nil => exact ⟨rfl,rfl,(and_iff_left trivial).symm,fun _ => rfl⟩
  | cons entry rest ih =>
    obtain ⟨hf,hrest⟩ := pairwise_cons.mp hsr
    obtain ⟨hl,hm,hc,hd,hv,hms⟩ := visit_entry (hnew entry mem_cons_self)
    have hn' : ∀ other ∈ rest, other.lsn ∉ (v.visit (.entry entry)).lsnMap := by
      intro other ho hin
      rcases (hm other.lsn).mp hin with heq | hold
      · exact absurd heq.symm (Nat.ne_of_lt (hf _ (mem_map_of_mem ho)))
      · exact hnew other (mem_cons_of_mem _ ho) hold
    obtain ⟨ihcorrupted,ihduplicates,ihvalid,ihmissing⟩ := ih hrest (v.visit (.entry entry)) hn'
    rw [hl] at ihvalid ihmissing
    have hs : Consecutive v.lastLsn ((entry::rest).map (·.lsn)) ↔
        (∀ previous, v.lastLsn = some previous → entry.lsn = previous+1) ∧ Consecutive (some entry.lsn) (rest.map (·.lsn)) := by
      rw [map_cons]
      cases v.lastLsn with
      | none => exact ⟨fun h => ⟨fun _ hno => (by cases hno),h⟩,fun h => h.2⟩
      | some previous =>
        exact ⟨fun h => ⟨fun p hp => (Option.some.inj hp) ▸ h.1,h.2⟩,fun h => ⟨h.1 previous rfl,h.2⟩⟩
    rw [map_cons,foldl_cons,hs]
    refine ⟨ihcorrupted.trans hc,ihduplicates.trans hd,?_,fun h => (ihmissing h.2).trans (hms h.1)⟩
    rw [ihvalid,hv,and_assoc]

theorem mem_retained {store : WalStore (Stamped Op)} {lsn : Nat} : lsn ∈ store.retained.map (·.lsn) ↔ lsn ∈ store.entries := by
  rw [WalStore.retained,map_map,mem_map]
  constructor
  · rintro ⟨e,he,rfl⟩
    exact AList.lookup_isSome.mp (Option.isSome_iff_exists.mpr ⟨_,((Map.mem_iterFrom _ _ _).mp he).1⟩)
  · intro hl
    obtain ⟨stored,hs⟩ := Option.isSome_iff_exists.mp (AList.lookup_isSome.mpr hl)
    exact ⟨(lsn,stored),(Map.mem_iterFrom _ _ _).mpr ⟨hs,Nat.zero_le _⟩,rfl⟩

theorem pairwise_retained (store : WalStore (Stamped Op)) : (store.retained.map (·.lsn)).Pairwise (· < ·) := by
  rw [WalStore.retained,map_map,pairwise_map]
  exact Map.pairwise_iterFrom store.entries 0

theorem verify_healthy_iff (store : WalStore (Stamped Op)) (resolved : List Nat) :
    Healthy resolved store.verify ↔ Unbroken (· ∈ store.entries) := by
  have hnew : ∀ entry ∈ store.retained, entry.lsn ∉ new.lsnMap := fun entry _ => AList.notMem_empty _
  obtain ⟨hcr,hd,hv,hm⟩ := foldl_visit store.retained (pairwise_retained store) .new hnew
  have hu : Consecutive none (store.retained.map (·.lsn)) ↔ Unbroken (· ∈ store.entries) := by
    rw [consecutive_iff_unbroken (pairwise_retained store)]
    exact unbroken_congr fun _ => mem_retained
  constructor
  · intro h
    exact hu.mp (hv.mp h.valid).2
  · intro h
    have hc := hu.mpr h
    refine ⟨hv.mpr ⟨rfl,hc⟩,hcr,hd,fun range hr => ?_⟩
    rw [WalStore.verify,verifyIntegrity,hm hc] at hr
    exact absurd hr not_mem_nil

end

section
variable {Op : Type}

theorem mem_write {store : WalStore Op} {batch : WalBatch Op} {lsn : Nat} :
    lsn ∈ (store.write batch).entries ↔ lsn ∈ store.entries ∨ lsn ∈ batch.lsns := Map.mem_foldl_insert _ _ _

theorem unbroken_step {s : WalState Op} (h : Unbroken (· ∈ s.store.entries)) (a : WalStep Op) :
    Unbroken (· ∈ (s.step a).store.entries) ↔ LeavesNoGap s a := by
  have hsame : (s.step a).store = s.store → LeavesNoGap s a → (Unbroken (· ∈ (s.step a).store.entries) ↔ LeavesNoGap s a) := by
    intro hs hno
    rw [hs]
    exact iff_of_true h hno
  cases a with
  | stage operations => exact hsame (by cases operations <;> rfl) trivial
  | write i =>
    cases hb : s.staged[i]? with
    | none =>
      refine hsame ?_ fun batch hsm => ?_
      · rw [step,hb]
      · rw [hb] at hsm
        cases hsm
    | some batch =>
      have hs : (s.step (.write i)).store = s.store.write batch := by rw [step,hb]
      rw [hs,unbroken_congr fun _ => mem_write,LeavesNoGap,hb]
      exact ⟨fun ha other ho => Option.some.inj ho ▸ ha,fun ha => ha batch rfl⟩
  | abandon i | appendGroupCommit operation | incrementLsn | scan upTo | readLast i ok | crash => exact hsame rfl trivial
  | enqueue i | drain sealingFailed => exact hsame (by rw [step]; split <;> rfl) trivial
  | flush ok =>
    cases ok with
    | false => exact hsame (by rw [step]; split <;> rfl) trivial
    | true =>
      cases hb : s.flushing with
      | none =>
        refine hsame ?_ fun batch hsm => ?_
        · rw [step,hb]
        · rw [hb] at hsm
          cases hsm
      | some batch =>
        have hs : (s.step (.flush true)).store = s.store.write batch := by rw [step,hb]; rfl
        rw [hs,unbroken_congr fun _ => mem_write,LeavesNoGap,hb]
        exact ⟨fun ha other ho => Option.some.inj ho ▸ ha,fun ha => ha batch rfl⟩
  | checkpoint i ok =>
    cases ok with
    | false => exact hsame (by rw [step]; split <;> rfl) trivial
    | true =>
      by_cases hr : ∃ upTo deleted durableLast, s.truncations[i]? = some ⟨upTo,deleted,some durableLast⟩
      · obtain ⟨upTo,deleted,durableLast,htr⟩ := hr
        have hs : (s.step (.checkpoint i true)).store = s.store.writeCheckpoint upTo deleted durableLast := by
          rw [step,htr]
          rfl
        rw [hs,unbroken_congr fun _ => mem_writeCheckpoint,LeavesNoGap,htr]
        constructor
        · intro ha _ _ _ heq
          cases heq
          exact ha
        · exact fun ha => ha upTo deleted durableLast rfl
      · refine hsame ?_ fun upTo deleted durableLast heq => absurd ⟨upTo,deleted,durableLast,heq⟩ hr
        rw [step]
        split
        next upTo deleted durableLast heq =>
          exact absurd ⟨upTo,deleted,durableLast,heq⟩ hr
        · rfl

end

/-- The log verifies as healthy after every step of a run exactly when nothing that reaches the store in it leaves a gap
between retained LSNs. -/
theorem verify_integrity_exact {Op : Type} (steps : List (WalStep (Stamped Op))) :
    (∀ n, Healthy (run World.step (.start Op) (steps.take n)).resolved (run World.step (.start Op) (steps.take n)).log.store.verify) ↔
      Guarded World.step (fun w a => LeavesNoGap w.log a) (.start Op) steps := by
  refine Iff.symm (guarded_iff_forall_take (P := fun w => Healthy w.resolved w.log.store.verify) World.step
    (fun w => Unbroken (· ∈ w.log.store.entries)) (fun w hw => (verify_healthy_iff _ _).mpr hw)
    (fun w a hw ha => (unbroken_step hw a).mpr ha) (fun w a hw ha hhealthy => ?_) ?_)
  · exact ha ((unbroken_step hw a).mp ((verify_healthy_iff _ _).mp hhealthy))
  · exact fun a _ _ ha => absurd ha (AList.notMem_empty _)

def holeBetweenAppends : List (WalStep (Stamped String)) :=
  [.stage [(1, "a")],.write 0,.incrementLsn,.stage [(2, "b")],.write 0]

/-- A commit without an entry between two appends: its LSN was resolved as a hole, and the log does not verify. -/
theorem verify_rejects_hole : (run World.step (.start String) holeBetweenAppends).resolved = [2] ∧
    (run World.step (.start String) holeBetweenAppends).log.store.verify = ⟨2,[],[(2,2)],[],[],false⟩ ∧
    ¬Healthy (run World.step (.start String) holeBetweenAppends).resolved
      (run World.step (.start String) holeBetweenAppends).log.store.verify := by
  refine ⟨by decide +kernel,by decide +kernel,fun h => ?_⟩
  exact absurd h.valid (by decide +kernel)

end HeliosNano.Storage.Wal
