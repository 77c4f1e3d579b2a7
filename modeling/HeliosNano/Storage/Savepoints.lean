import HeliosNano.Storage.Staging
import Mathlib.Data.List.Infix

namespace HeliosNano.Storage.Savepoints
open Foundation List Transaction

/-- What was staged at a savepoint, and the tables that have been dropped since. -/
structure Mark where
  name : String
  writeSet : Map Key (Option Bytes)
  insertLog : List (Key × Bytes)
  dropped : List String

namespace Mark

def dropTable (mark : Mark) (table : String) : Mark := { mark with dropped := mark.dropped ++ [table] }

def left (mark : Mark) : List (Key × Bytes) :=
  mark.insertLog.filter fun entry => decide (∀ table ∈ mark.dropped, ¬Under (textBytes table) entry.1)

end Mark

/-- A transaction with the marks of its live savepoints, the latest first. -/
structure Marked where
  txn : Transaction
  marks : List Mark

inductive StagingOp
  | put (locks : Option LockManager) (key : Key) (value : Bytes) (timedOut : Bool)
  | putInsertFast (locks : Option LockManager) (key : Key) (value : Bytes) (timedOut : Bool)
  | delete (key : Key)
  | discardStagedForTable (table : String)
  | savepoint (name : String) (artUndoLen : Nat)
  | release (name : String)
  | rollbackTo (name : String)

def fromName (marks : List Mark) (name : String) : List Mark := marks.dropWhile (·.name ≠ name)

def step (s : Marked) : StagingOp → Marked
  | .put locks key value timedOut => { s with txn := (s.txn.stagePut locks key value timedOut).1 }
  | .putInsertFast locks key value timedOut => { s with txn := (s.txn.putInsertFast locks key value timedOut).1 }
  | .delete key => { s with txn := (s.txn.delete key).1 }
  | .discardStagedForTable table => ⟨s.txn.discardStagedForTable table,s.marks.map (·.dropTable table)⟩
  | .savepoint name artUndoLen =>
    ⟨s.txn.pushSavepoint name s.txn.savepointSnapshot artUndoLen,⟨name,s.txn.writeSet,s.txn.insertLog,[]⟩ :: s.marks⟩
  | .release name => ⟨(s.txn.releaseSavepoint name).1,match fromName s.marks name with
    | [] => s.marks
    | _::older => older⟩
  | .rollbackTo name =>
    match s.txn.resolveSavepointTarget name with
    | (txn,some (snapshot,_)) => ⟨txn.rollbackToSavepoint snapshot,fromName s.marks name⟩
    | (txn,none) => ⟨txn,s.marks⟩

structure MarkOf (entry : SavepointEntry) (mark : Mark) : Prop where
  name : entry.name = mark.name
  writeSet : entry.snapshot.writeSet = mark.writeSet.entries.map fun entry => (entry.1,entry.2)
  insertLogLen : entry.snapshot.insertLogLen = mark.insertLog.length

/-- The stack is that of the marks, and the insert log begins with what is left of each of theirs, an older one before a newer one. -/
structure Tracks (s : Marked) : Prop where
  stack : List.Forall₂ MarkOf s.txn.savepoints.reverse s.marks
  nested : s.marks.Pairwise fun newer older => older.left <+: newer.left
  logged : ∀ mark ∈ s.marks, mark.left <+: s.txn.insertLog

section
variable {marks : List Mark} {mark : Mark} {stack : List SavepointEntry} {name table : String}

theorem Mark.left_dropTable : (mark.dropTable table).left = mark.left.filter fun entry => decide ¬Under (textBytes table) entry.1 := by
  rw [left,left,filter_filter]
  refine filter_congr fun entry _ => ?_
  rw [dropTable,← Bool.decide_and,decide_eq_decide]
  simp only [mem_append,mem_singleton,or_imp,forall_and,forall_eq,and_comm]

theorem Mark.left_new (writeSet : Map Key (Option Bytes)) (insertLog : List (Key × Bytes)) :
    Mark.left ⟨name,writeSet,insertLog,[]⟩ = insertLog :=
  filter_eq_self.mpr fun _ _ => decide_eq_true fun _ hno => absurd hno not_mem_nil

theorem forall₂_fromName (h : List.Forall₂ MarkOf stack marks) : List.Forall₂ MarkOf (stack.dropWhile (·.name ≠ name)) (fromName marks name) := by
  induction h with
  | nil => exact .nil
  | @cons entry mark stack marks he hrest ih =>
    rw [fromName,dropWhile_cons,dropWhile_cons,he.name]
    split
    · exact ih
    · exact .cons he hrest

variable (h : List.Forall₂ MarkOf stack.reverse marks)
include h

theorem splitAtSavepoint_nil (hf : fromName marks name = []) : splitAtSavepoint stack name = none := by
  have hm := @forall₂_fromName _ _ name h
  rw [hf,forall₂_nil_right_iff] at hm
  rw [splitAtSavepoint,hm]

theorem splitAtSavepoint_cons {older : List Mark} (hf : fromName marks name = mark::older) :
    ∃ olderStack target, splitAtSavepoint stack name = some (olderStack,target) ∧ MarkOf target mark ∧
      List.Forall₂ MarkOf olderStack.reverse older := by
  have hm := @forall₂_fromName _ _ name h
  rw [hf,forall₂_cons_right_iff] at hm
  obtain ⟨target,olderStack,htg,holder,hs⟩ := hm
  refine ⟨olderStack.reverse,target,?_,htg,by rwa [reverse_reverse]⟩
  rw [splitAtSavepoint,hs]

omit h

theorem exists_fromName (h : marks.find? (·.name = name) = some mark) : ∃ older, fromName marks name = mark::older := by
  induction marks with
  | nil => cases h
  | cons first marks ih =>
    rw [fromName,dropWhile_cons]
    rw [find?_cons] at h
    by_cases hn : first.name = name
    · rw [decide_eq_true hn] at h
      cases h
      exact ⟨marks,if_neg (by simpa using hn)⟩
    · rw [decide_eq_false hn] at h
      rw [if_pos (by simpa using hn)]
      exact ih h

theorem fromName_suffix : fromName marks name <:+ marks := dropWhile_suffix _

end

section
variable {s : Marked} {name : String} {mark : Mark} {older : List Mark}
variable (h : Tracks s)
include h

theorem Tracks.append {txn : Transaction} (hs : txn.savepoints = s.txn.savepoints)
    (hl : s.txn.insertLog <+: txn.insertLog) : Tracks { s with txn := txn } where
  stack := by
    rw [hs]
    exact h.stack
  nested := h.nested
  logged mark hmark := (h.logged mark hmark).trans hl

theorem Tracks.put {txn : Transaction} {key : Key} {value : Bytes} (hp : s.txn.MayPut txn key value) :
    Tracks { s with txn := txn } := by
  refine h.append hp.savepoints ?_
  rw [hp.insertLog]

theorem Tracks.discard (table : String) : Tracks (step s (.discardStagedForTable table)) where
  stack := forall₂_map_right_iff.mpr (h.stack.imp fun _ _ hm => ⟨hm.name,hm.writeSet,hm.insertLogLen⟩)
  nested := by
    rw [step,pairwise_map]
    refine h.nested.imp fun hle => ?_
    rw [Mark.left_dropTable,Mark.left_dropTable]
    exact hle.filter _
  logged := by
    intro mark hm
    obtain ⟨mark,hold,rfl⟩ := mem_map.mp hm
    rw [Mark.left_dropTable]
    exact (h.logged mark hold).filter _

theorem Tracks.savepoint (name : String) (artUndoLen : Nat) : Tracks (step s (.savepoint name artUndoLen)) where
  stack := by
    change List.Forall₂ MarkOf (s.txn.savepoints ++ [_]).reverse _
    rw [reverse_append,reverse_singleton,singleton_append]
    exact .cons ⟨rfl,rfl,rfl⟩ h.stack
  nested := by
    refine pairwise_cons.mpr ⟨fun older holder => ?_,h.nested⟩
    rw [Mark.left_new]
    exact h.logged older holder
  logged := by
    refine forall_mem_cons.mpr ⟨?_,h.logged⟩
    rw [Mark.left_new]
    exact prefix_rfl

theorem Tracks.release (name : String) : Tracks (step s (.release name)) := by
  rw [step,releaseSavepoint.eq_def]
  cases hf : fromName s.marks name with
  | nil =>
    rw [splitAtSavepoint_nil h.stack hf]
    exact h
  | cons mark older =>
    obtain ⟨olderStack,target,hsp,-,holder⟩ := splitAtSavepoint_cons h.stack hf
    have hs : older.Sublist s.marks := ((sublist_cons_self mark older).trans (hf ▸ fromName_suffix.sublist))
    rw [hsp]
    exact ⟨holder,h.nested.sublist hs,fun mark hm => h.logged mark (hs.subset hm)⟩

theorem Tracks.rollback_eq (hf : fromName s.marks name = mark::older) :
    ∃ txn target, step s (.rollbackTo name) = ⟨txn,mark::older⟩ ∧ MarkOf target mark ∧
      List.Forall₂ MarkOf txn.savepoints.reverse (mark::older) ∧ txn.insertLog = s.txn.insertLog.take mark.insertLog.length ∧
      ∀ key, txn.writeSet.lookup key = mark.writeSet.lookup key := by
  obtain ⟨olderStack,target,hsp,htg,holder⟩ := splitAtSavepoint_cons h.stack hf
  rw [step,resolveSavepointTarget.eq_def,hsp]
  dsimp only
  rw [hf]
  refine ⟨_,target,rfl,htg,?_,?_,fun key => ?_⟩
  · change List.Forall₂ MarkOf (olderStack ++ [target]).reverse _
    rw [reverse_append,reverse_singleton,singleton_append]
    exact .cons htg holder
  · rw [← htg.insertLogLen]
    rfl
  · have hs : target.snapshot = ⟨mark.writeSet.entries.map fun entry => (entry.1,entry.2),target.snapshot.insertLogLen⟩ := by
      rw [← htg.writeSet]
    rw [hs]
    exact lookup_rollbackToSavepoint _ key

omit h

theorem length_left_le (mark : Mark) : mark.left.length ≤ mark.insertLog.length := length_filter_le _ _

theorem Tracks.rollback (h : Tracks s) (name : String) : Tracks (step s (.rollbackTo name)) := by
  cases hf : fromName s.marks name with
  | nil =>
    rw [step,resolveSavepointTarget.eq_def,splitAtSavepoint_nil h.stack hf]
    exact h
  | cons mark older =>
    obtain ⟨txn,target,hst,-,hsk,hl,-⟩ := h.rollback_eq hf
    have hs : (mark::older).Sublist s.marks := hf ▸ fromName_suffix.sublist
    rw [hst]
    refine ⟨hsk,h.nested.sublist hs,fun other ho => ?_⟩
    -- what is left of an older mark is no longer than what is left of the target
    have hle : other.left.length ≤ mark.insertLog.length := by
      obtain rfl | holder := mem_cons.mp ho
      · exact length_left_le other
      · exact ((pairwise_cons.mp (h.nested.sublist hs)).1 other holder).length_le.trans (length_left_le mark)
    rw [hl]
    exact prefix_take_iff.mpr ⟨h.logged other (hs.subset ho),hle⟩

theorem Tracks.step (h : Tracks s) (op : StagingOp) : Tracks (step s op) := by
  cases op with
  | put locks key value timedOut => exact h.put (s.txn.stagePut_mayPut locks key value timedOut)
  | putInsertFast locks key value timedOut =>
    obtain heq | hput := s.txn.putInsertFast_staged locks key value timedOut
    · rw [Savepoints.step,heq]
      exact h.append rfl (prefix_append _ _)
    · exact h.put hput
  | delete key =>
    rw [Savepoints.step,delete.eq_def]
    split
    · exact h
    · exact h.append rfl prefix_rfl
  | discardStagedForTable table => exact h.discard table
  | savepoint name artUndoLen => exact h.savepoint name artUndoLen
  | release name => exact h.release name
  | rollbackTo name => exact h.rollback name

end

def rowsOf (table : Bytes) (insertLog : List (Key × Bytes)) : List (Key × Bytes) :=
  insertLog.filter fun entry => decide (parseDataKeyTable entry.1 = some table)

/-- Every table that has not been dropped since is staged as it was, and no later write is staged for any table. -/
structure Restored (mark : Mark) (t : Transaction) : Prop where
  tables : ∀ table, table ∉ mark.dropped.map textBytes →
    (∀ key, parseDataKeyTable key = some table → t.writeSet.lookup key = mark.writeSet.lookup key) ∧
      rowsOf table t.insertLog = rowsOf table mark.insertLog
  earlierWrites : ∀ key staged, t.writeSet.lookup key = some staged → mark.writeSet.lookup key = some staged
  earlierRows : t.insertLog <+: mark.left

/-- No drop has taken a row of another table than its own from the log. Where it has taken any, no later row is in the log. -/
structure Recoverable (mark : Mark) (t : Transaction) : Prop where
  unmoved : mark.left = mark.insertLog ∨ t.insertLog = mark.left
  ownRows : ∀ entry ∈ mark.insertLog, ∀ table ∈ parseDataKeyTable entry.1, table ∉ mark.dropped.map textBytes → entry ∈ mark.left

section
variable {mark : Mark} {insertLog later : List (Key × Bytes)}

theorem rowsOf_left (table : Bytes) : rowsOf table mark.left = rowsOf table mark.insertLog ↔
    ∀ entry ∈ mark.insertLog, parseDataKeyTable entry.1 = some table → entry ∈ mark.left := by
  rw [rowsOf,rowsOf,Mark.left,filter_comm,filter_eq_self]
  simp only [mem_filter,decide_eq_true_eq,and_imp]
  constructor
  · exact fun ha entry he htb => ⟨he,ha entry he htb⟩
  · exact fun ha entry he htb => (ha entry he htb).2

theorem take_prefix_left_iff (h : insertLog = mark.left ++ later) :
    insertLog.take mark.insertLog.length <+: mark.left ↔ mark.left = mark.insertLog ∨ insertLog = mark.left := by
  have hle := length_left_le mark
  have hn : ∀ rows : List (Key × Bytes), mark.left ++ rows <+: mark.left ↔ rows = [] := by
    intro rows
    have hl : mark.left ++ rows <+: mark.left ++ [] ↔ rows <+: [] := prefix_append_right_inj mark.left
    rwa [append_nil,prefix_nil] at hl
  have hsame : mark.insertLog.length-mark.left.length = 0 ↔ mark.left = mark.insertLog := by
    rw [Nat.sub_eq_zero_iff_le]
    constructor
    · exact fun hln => filter_sublist.eq_of_length (Nat.le_antisymm hle hln)
    · exact fun heq => by rw [heq]
  rw [h,take_append,take_of_length_le hle,hn,take_eq_nil_iff,hsame,append_right_eq_self]

theorem Tracks.restored_iff {s : Marked} {older : List Mark} {name : String} (h : Tracks s) (hf : fromName s.marks name = mark::older) :
    Restored mark (Savepoints.step s (.rollbackTo name)).txn ↔ Recoverable mark s.txn := by
  obtain ⟨txn,target,hs,-,-,hlg,hw⟩ := h.rollback_eq hf
  have hm : mark ∈ s.marks := fromName_suffix.subset (hf ▸ mem_cons_self)
  obtain ⟨later,hlt⟩ := h.logged mark hm
  have hc := take_prefix_left_iff hlt.symm
  rw [← hlg] at hc
  rw [hs]
  constructor
  · intro hrs
    have hl : txn.insertLog = mark.left := by
      refine hrs.earlierRows.eq_of_length_le ?_
      rw [hlg,← hlt,length_take,length_append]
      have hle := length_left_le mark
      omega
    refine ⟨hc.mp hrs.earlierRows,fun entry hen table htb hk => ?_⟩
    have hrw := (hrs.tables table hk).2
    rw [hl,rowsOf_left] at hrw
    exact hrw entry hen htb
  · intro hr
    have he : txn.insertLog <+: mark.left := hc.mpr hr.unmoved
    have hl : txn.insertLog = mark.left := by
      refine he.eq_of_length_le ?_
      rw [hlg,← hlt,length_take,length_append]
      have hle := length_left_le mark
      omega
    refine ⟨fun table hk => ⟨fun key _ => hw key,?_⟩,fun key staged hst => (hw key).symm.trans hst,he⟩
    rw [hl,rowsOf_left]
    exact fun entry hen htb => hr.ownRows entry hen table htb hk

end

/-- After any run of writes, drops and savepoints, rolling back to the latest savepoint of a name restores what was staged then just where
no drop since has moved later rows to the place of earlier ones or taken rows of another table. -/
theorem rollback_restores_savepoint_iff {t : Transaction} (ht : t.savepoints = []) (ops : List StagingOp) {name : String} {mark : Mark}
    (hmark : (run step ⟨t,[]⟩ ops).marks.find? (·.name = name) = some mark) :
    let s := run step ⟨t,[]⟩ ops
    Restored mark (step s (.rollbackTo name)).txn ↔ Recoverable mark s.txn := by
  intro s
  have hstart : Tracks ⟨t,[]⟩ := by
    refine ⟨?_,.nil,fun _ hno => absurd hno not_mem_nil⟩
    rw [ht]
    exact .nil
  have htracks : Tracks s := run_invariant step Tracks (fun _ op h => h.step op) hstart ops
  obtain ⟨older,hfrom⟩ := exists_fromName hmark
  exact htracks.restored_iff hfrom

/-- A new row of a table. -/
def newRow (table : List Char) (row : RowId) : StagingOp := .putInsertFast none (dataKey (ascii table) row) [1] false

/-- A row from before the savepoint stays, a row from after it goes. -/
theorem rollback_restores_savepoint_iff_rows :
    let s := run step ⟨.new 1 5,[]⟩ [newRow ['b'] 1,.savepoint "s" 0,newRow ['b'] 2,.discardStagedForTable "a"]
    ∃ mark, Restored mark (step s (.rollbackTo "s")).txn := by
  intro s
  have hmark : s.marks.find? (·.name = "s") = some ⟨"s",∅,[(dataKey (ascii ['b']) 1,[1])],["a"]⟩ := by rfl
  refine ⟨_,(@rollback_restores_savepoint_iff (.new 1 5) rfl
    [newRow ['b'] 1,.savepoint "s" 0,newRow ['b'] 2,.discardStagedForTable "a"] "s" _ hmark).mpr ⟨.inl ?_,?_⟩⟩
  · decide +kernel
  · decide +kernel

/-- The drop of a table moves a later row up behind the savepoint. The drop of another takes the rows of a table whose name begins with
its own and a separator. -/
theorem dropped_table_shifts_savepoint :
    let s := run step ⟨.new 1 5,[]⟩ [newRow ['a'] 1,.savepoint "s" 0,.discardStagedForTable "a",newRow ['b'] 2]
    let s' := run step ⟨.new 1 5,[]⟩ [newRow ['a',':','b'] 1,.savepoint "s" 0,.discardStagedForTable "a"]
    ((step s (.rollbackTo "s")).txn.insertLog = [(dataKey (ascii ['b']) 2,[1])] ∧
      ∃ mark, s.marks.find? (·.name = "s") = some mark ∧ ¬Restored mark (step s (.rollbackTo "s")).txn) ∧
    (step s' (.rollbackTo "s")).txn.insertLog = [] ∧
      ∃ mark, s'.marks.find? (·.name = "s") = some mark ∧ ¬Restored mark (step s' (.rollbackTo "s")).txn := by
  intro s s'
  have hlater : (step s (.rollbackTo "s")).txn.insertLog = [(dataKey (ascii ['b']) 2,[1])] := by decide +kernel
  have hnone : (step s' (.rollbackTo "s")).txn.insertLog = [] := by decide +kernel
  refine ⟨⟨hlater,⟨"s",∅,[(dataKey (ascii ['a']) 1,[1])],["a"]⟩,rfl,fun h => ?_⟩,
    hnone,⟨"s",∅,[(dataKey (ascii ['a',':','b']) 1,[1])],["a"]⟩,rfl,fun h => ?_⟩
  · have hearlier := h.earlierRows
    rw [hlater] at hearlier
    exact absurd hearlier (by decide +kernel)
  · have hrows := (h.tables (ascii ['a',':','b']) (by decide +kernel)).2
    rw [hnone] at hrows
    exact absurd hrows (by decide +kernel)

end HeliosNano.Storage.Savepoints
