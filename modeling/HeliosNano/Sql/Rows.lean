import HeliosNano.Foundation.Joins
import HeliosNano.Sql.Expr

/-! The operators of the executor that read one row at a time: `FilterOperator` and
`NestedLoopJoinOperator`, as the lists of rows that they return. Timeouts and the memory limit are
left out. -/
namespace HeliosNano.Sql
open Foundation List

inductive JoinType
  | inner
  | left
  | right
  | full
  | cross
deriving DecidableEq

namespace JoinType

/-- The left rows without a partner are kept. -/
def keepsLeft (t : JoinType) : Bool := t = .left ∨ t = .full

def keepsRight (t : JoinType) : Bool := t = .right ∨ t = .full

end JoinType

/-- `evaluate_predicate`: a filter fails on a value that is no truth value. -/
def evaluatePredicate (ev : Evaluator) (predicate : LogicalExpr) (tuple : Tuple) : Except SqlError Bool := do
  match ← ev.evaluate tuple predicate with
  | .boolean b => .ok b
  | .null => .ok false
  | value => .error (.queryExecution ("Filter predicate must evaluate to boolean, got: " ++ ev.conversions.debug value))

/-- The test of a pair of rows; without a condition every pair matches. -/
def conditionHolds (ev : Evaluator) (on : Option LogicalExpr) (tuple : Tuple) : Except SqlError Bool :=
  match on with
  | none => .ok true
  | some condition => do
    match ← ev.evaluate tuple condition with
    | .boolean b => .ok b
    | _ => .ok false

def passes {α : Type} (test : α → Except SqlError Bool) (a : α) : Bool :=
  match test a with
  | .ok b => b
  | .error _ => false

def filterRows {α : Type} (test : α → Except SqlError Bool) : List α → Except SqlError (List α)
  | [] => .ok []
  | row::rest => do
    let keep ← test row
    let more ← filterRows test rest
    return if keep then row::more else more

def Total {α : Type} (test : α → Except SqlError Bool) (rows : List α) : Prop := ∀ row ∈ rows, ∃ b, test row = .ok b

theorem loop_ok_iff {α β : Type} {test : α → Except SqlError Bool} {loop : List α → Except SqlError β} {start : β}
    {add : α → Bool → β → β} (hnil : loop [] = .ok start)
    (hcons : ∀ row rest, loop (row::rest) = do let b ← test row; let more ← loop rest; return add row b more) {rows : List α}
    {out : β} : loop rows = .ok out ↔ Total test rows ∧ out = rows.foldr (fun row => add row (passes test row)) start := by
  induction rows generalizing out with
  | nil => simp [hnil,Total,eq_comm]
  | cons row rest ih =>
    rw [hcons]
    cases hr : test row with
    | error e =>
      refine ⟨nofun,fun h => ?_⟩
      obtain ⟨b,hb⟩ := h.1 row mem_cons_self
      rw [hr] at hb
      cases hb
    | ok keep =>
      have htl : Total test (row::rest) ↔ Total test rest := by
        simp [Total,hr]
      rw [htl,foldr_cons,passes,hr]
      constructor
      · intro h
        cases hl : loop rest with
        | error e => rw [hl] at h; cases h
        | ok more =>
          obtain ⟨htt,rfl⟩ := ih.mp hl
          rw [hl] at h
          exact ⟨htt,(Except.ok.inj h).symm⟩
      · rintro ⟨htt,rfl⟩
        rw [ih.mpr ⟨htt,rfl⟩]
        rfl

theorem filterRows_ok_iff {α : Type} {test : α → Except SqlError Bool} {rows out : List α} :
    filterRows test rows = .ok out ↔ Total test rows ∧ out = rows.filter (passes test) := by
  refine (@loop_ok_iff _ _ test (filterRows test) [] (fun row keep more => if keep then row::more else more) rfl fun _ _ => rfl).trans ?_
  simp only [filter_eq_foldr,cond_eq_ite]

def nulls (n : Nat) : Tuple := List.replicate n .null

/-- A row of a join: the missing side is NULL. -/
def combine (leftWidth rightWidth : Nat) : Option Tuple × Option Tuple → Tuple
  | (l,r) => l.getD (nulls leftWidth) ++ r.getD (nulls rightWidth)

/-- The tests of one left row against all right rows, in their order. -/
def probeRight (test : Tuple → Except SqlError Bool) : List Tuple → Except SqlError (List Bool)
  | [] => .ok []
  | r::rest => do
    let matched ← test r
    let more ← probeRight test rest
    return matched::more

def matchedRows (l : Tuple) : List Tuple → List Bool → List Tuple
  | r::rs, true::flags => (l ++ r) :: matchedRows l rs flags
  | _::rs, false::flags => matchedRows l rs flags
  | _, _ => []

/-- The left rows in turn, with the right rows that have been matched. -/
def loopLeft (t : JoinType) (rightWidth : Nat) (test : Tuple → Tuple → Except SqlError Bool) (rs : List Tuple) :
    List Tuple → List Bool → Except SqlError (List Tuple × List Bool)
  | [], rightMatched => .ok ([],rightMatched)
  | l::rest, rightMatched => do
    let flags ← probeRight (test l) rs
    let emitted := if !flags.any id && t.keepsLeft then [l ++ nulls rightWidth] else matchedRows l rs flags
    let rightMatched := if t.keepsRight then rightMatched.zipWith (· || ·) flags else rightMatched
    let (more,rightMatched) ← loopLeft t rightWidth test rs rest rightMatched
    return (emitted ++ more,rightMatched)

def emitUnmatchedRight (leftWidth : Nat) : List Tuple → List Bool → List Tuple
  | r::rs, false::flags => (nulls leftWidth ++ r) :: emitUnmatchedRight leftWidth rs flags
  | _::rs, true::flags => emitUnmatchedRight leftWidth rs flags
  | _, _ => []

def nestedLoopJoin (t : JoinType) (leftWidth rightWidth : Nat) (test : Tuple → Tuple → Except SqlError Bool)
    (ls rs : List Tuple) : Except SqlError (List Tuple) := do
  let (emitted,rightMatched) ← loopLeft t rightWidth test rs ls (List.replicate rs.length false)
  return emitted ++ if t.keepsRight then emitUnmatchedRight leftWidth rs rightMatched else []

variable {rs : List Tuple} {flags : List Bool} {test : Tuple → Tuple → Except SqlError Bool} {ls : List Tuple} {rightWidth : Nat}
  {t : JoinType}

theorem probeRight_ok_iff {test : Tuple → Except SqlError Bool} :
    probeRight test rs = .ok flags ↔ Total test rs ∧ flags = rs.map (passes test) := by
  refine (@loop_ok_iff _ _ test (probeRight test) [] (fun _ => cons) rfl fun _ _ => rfl).trans ?_
  rw [map_eq_foldr]

theorem matchedRows_map (l : Tuple) (p : Tuple → Bool) (rs : List Tuple) :
    matchedRows l rs (rs.map p) = (rs.filter p).map (l ++ ·) := by
  induction rs with
  | nil => rfl
  | cons r rest ih => cases hp : p r <;> simp [matchedRows,hp,ih]

theorem emitUnmatchedRight_map (leftWidth : Nat) (p : Tuple → Bool) (rs : List Tuple) :
    emitUnmatchedRight leftWidth rs (rs.map p) = (rs.filter fun r => !p r).map (nulls leftWidth ++ ·) := by
  induction rs with
  | nil => rfl
  | cons r rest ih => cases hp : p r <;> simp [emitUnmatchedRight,hp,ih]

theorem emitted_eq (t : JoinType) (leftWidth rightWidth : Nat) (p : Tuple → Tuple → Bool) (l : Tuple) (rs : List Tuple) :
    (if !(rs.map (p l)).any id && t.keepsLeft then [l ++ nulls rightWidth] else matchedRows l rs (rs.map (p l))) =
      (Joins.matchesOf t.keepsLeft p rs l).map (combine leftWidth rightWidth) := by
  have he : (!(rs.map (p l)).any id) = (rs.filter (p l)).isEmpty := by
    rw [Bool.eq_iff_iff]
    simp [filter_eq_nil_iff]
  rw [he,Bool.and_comm,matchedRows_map,Joins.matchesOf]
  split
  · rfl
  · rw [map_map]
    rfl

theorem loopLeft_ok {t : JoinType} {leftWidth rightWidth : Nat} {test : Tuple → Tuple → Except SqlError Bool} {rs ls : List Tuple}
    (htt : ∀ l ∈ ls, Total (test l) rs) (m : Tuple → Bool) : loopLeft t rightWidth test rs ls (rs.map m) =
      .ok ((ls.flatMap (Joins.matchesOf t.keepsLeft (fun l => passes (test l)) rs)).map (combine leftWidth rightWidth),
        rs.map fun r => m r || (t.keepsRight && ls.any fun l => passes (test l) r)) := by
  induction ls generalizing m with
  | nil => simp [loopLeft]
  | cons l rest ih =>
    have hf : probeRight (test l) rs = .ok (rs.map (passes (test l))) :=
      probeRight_ok_iff.mpr ⟨htt l mem_cons_self,rfl⟩
    have hm : (if t.keepsRight then (rs.map m).zipWith (· || ·) (rs.map (passes (test l))) else rs.map m) =
        rs.map fun r => m r || (t.keepsRight && passes (test l) r) := by
      cases t.keepsRight <;> simp [zipWith_map,zipWith_self]
    rw [loopLeft,hf]
    simp only [bind,Except.bind,hm,pure,Except.pure]
    rw [ih (fun l hl => htt l (mem_cons_of_mem _ hl))]
    simp only [emitted_eq t leftWidth rightWidth (fun l => passes (test l)),flatMap_cons,map_append,any_cons]
    refine congrArg (fun flags => Except.ok (_,flags)) (map_congr_left fun r _ => ?_)
    cases m r <;> cases t.keepsRight <;> simp

theorem total_of_loopLeft {out : List Tuple × List Bool} (h : loopLeft t rightWidth test rs ls flags = .ok out) :
    ∀ l ∈ ls, Total (test l) rs := by
  induction ls generalizing flags out with
  | nil => exact nofun
  | cons l rest ih =>
    rw [loopLeft] at h
    obtain ⟨probed,hp,h⟩ := Storage.bind_eq_ok.mp h
    obtain ⟨more,hm,-⟩ := Storage.bind_eq_ok.mp h
    intro l' hl'
    rcases mem_cons.mp hl' with rfl | hrest
    · exact (probeRight_ok_iff.mp hp).1
    · exact ih hm l' hrest

theorem nestedLoopJoin_ok_iff {leftWidth : Nat} {out : List Tuple} : nestedLoopJoin t leftWidth rightWidth test ls rs = .ok out ↔
      (∀ l ∈ ls, Total (test l) rs) ∧
        out = (Joins.join t.keepsLeft t.keepsRight (fun l => passes (test l)) ls rs).map (combine leftWidth rightWidth) := by
  have hv : (∀ l ∈ ls, Total (test l) rs) → nestedLoopJoin t leftWidth rightWidth test ls rs =
      .ok ((Joins.join t.keepsLeft t.keepsRight (fun l => passes (test l)) ls rs).map (combine leftWidth rightWidth)) := by
    intro htt
    have hi : List.replicate rs.length false = rs.map fun _ => false := by
      rw [map_const']
    have hu : (if t.keepsRight then emitUnmatchedRight leftWidth rs
          (rs.map fun r => false || (t.keepsRight && ls.any fun l => passes (test l) r)) else []) =
        (if t.keepsRight then (Joins.unmatched (fun l => passes (test l)) ls rs).map fun r => (none,some r) else []).map
          (combine leftWidth rightWidth) := by
      cases t.keepsRight
      · rfl
      rw [if_pos rfl,if_pos rfl,emitUnmatchedRight_map,map_map,Joins.unmatched]
      refine congrArg₂ List.map (funext fun r => rfl) (filter_congr fun r _ => ?_)
      rw [Bool.eq_iff_iff]
      simp
    rw [nestedLoopJoin,hi,@loopLeft_ok _ leftWidth _ _ _ _ htt]
    simp only [bind,Except.bind,pure,Except.pure,hu]
    rw [Joins.join,map_append]
  constructor
  · intro h
    have htt : ∀ l ∈ ls, Total (test l) rs := by
      obtain ⟨looped,hl,-⟩ := Storage.bind_eq_ok.mp h
      exact total_of_loopLeft hl
    refine ⟨htt,?_⟩
    rw [hv htt] at h
    exact (Except.ok.inj h).symm
  · rintro ⟨htt,rfl⟩
    exact hv htt

end HeliosNano.Sql
