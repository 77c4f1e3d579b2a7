import HeliosNano.Sql.Columns
import HeliosNano.Sql.Conjuncts

/-! Logical plans and the rows that they return. Common table expressions and the projections of
scans are left out; projections, sorts, limits, aggregates and set operations are any functions of
their inputs. -/
namespace HeliosNano.Sql
open Foundation List

structure Relation where
  schema : Schema
  rows : List Tuple
  width : ∀ row ∈ rows, row.length = schema.length

namespace Relation

theorem ext_rows {a b : Relation} (hs : a.schema = b.schema) (hr : a.rows = b.rows) : a = b := by
  cases a
  cases b
  cases hs
  cases hr
  rfl

def select (rel : Relation) (p : Tuple → Bool) : Relation where
  schema := rel.schema
  rows := rel.rows.filter p
  width row hrow := rel.width row (mem_filter.mp hrow).1

def filter (ev : Evaluator) (rel : Relation) (predicate : LogicalExpr) : Except SqlError Relation :=
  match h : filterRows (evaluatePredicate (ev.withSchema rel.schema) predicate) rel.rows with
  | .error e => .error e
  | .ok rows => .ok ⟨rel.schema,rows,fun row hrow => by
      rw [(filterRows_ok_iff.mp h).2] at hrow
      exact rel.width row (mem_filter.mp hrow).1⟩

variable {r l out : Relation} {ev : Evaluator}

theorem combine_length {keepLeft keepRight : Bool} {p : Tuple → Tuple → Bool} {row : Tuple}
    (h : row ∈ (Joins.join keepLeft keepRight p l.rows r.rows).map (combine l.schema.length r.schema.length)) :
    row.length = (l.schema.merge r.schema).length := by
  obtain ⟨⟨lo,ro⟩,hp,rfl⟩ := mem_map.mp h
  obtain ⟨hl,hr⟩ := Joins.mem_of_mem_join hp
  have hlf : (lo.getD (nulls l.schema.length)).length = l.schema.length := by
    cases lo with
    | none => exact length_replicate
    | some row => exact l.width row (hl row rfl)
  have hrt : (ro.getD (nulls r.schema.length)).length = r.schema.length := by
    cases ro with
    | none => exact length_replicate
    | some row => exact r.width row (hr row rfl)
  rw [combine,length_append,hlf,hrt,Schema.merge,length_append]

def pairTest (ev : Evaluator) (l r : Relation) (on : Option LogicalExpr) (a b : Tuple) : Except SqlError Bool :=
  conditionHolds (ev.withSchema (l.schema.merge r.schema)) on (a ++ b)

def join (ev : Evaluator) (l r : Relation) (t : JoinType) (on : Option LogicalExpr) : Except SqlError Relation :=
  match h : nestedLoopJoin t l.schema.length r.schema.length (pairTest ev l r on) l.rows r.rows with
  | .error e => .error e
  | .ok rows => .ok ⟨l.schema.merge r.schema,rows,fun row hrow => by
      rw [(nestedLoopJoin_ok_iff.mp h).2] at hrow
      exact combine_length hrow⟩

/-- The join under a test that cannot fail. -/
def joinBy (l r : Relation) (t : JoinType) (p : Tuple → Tuple → Bool) : Relation where
  schema := l.schema.merge r.schema
  rows := (Joins.join t.keepsLeft t.keepsRight p l.rows r.rows).map (combine l.schema.length r.schema.length)
  width _ hrow := combine_length hrow

theorem filter_ok_iff {rel : Relation} {predicate : LogicalExpr} : rel.filter ev predicate = .ok out ↔
      Total (evaluatePredicate (ev.withSchema rel.schema) predicate) rel.rows ∧
        out = rel.select (passes (evaluatePredicate (ev.withSchema rel.schema) predicate)) := by
  unfold filter
  split
  next e h =>
    refine ⟨nofun,fun hok => ?_⟩
    rw [filterRows_ok_iff.mpr ⟨hok.1,rfl⟩] at h
    cases h
  next rows h =>
    obtain ⟨htt,hr⟩ := filterRows_ok_iff.mp h
    constructor
    · intro hok
      exact ⟨htt,(Except.ok.inj hok).symm.trans (ext_rows rfl hr)⟩
    · rintro ⟨-,rfl⟩
      exact congrArg Except.ok (ext_rows rfl hr)

theorem join_ok_iff {t : JoinType} {on : Option LogicalExpr} : l.join ev r t on = .ok out ↔
      (∀ a ∈ l.rows, Total (pairTest ev l r on a) r.rows) ∧ out = l.joinBy r t fun a => passes (pairTest ev l r on a) := by
  unfold join
  split
  next e h =>
    refine ⟨nofun,fun hok => ?_⟩
    rw [nestedLoopJoin_ok_iff.mpr ⟨hok.1,rfl⟩] at h
    cases h
  next rows h =>
    obtain ⟨htt,hr⟩ := nestedLoopJoin_ok_iff.mp h
    constructor
    · intro hok
      exact ⟨htt,(Except.ok.inj hok).symm.trans (ext_rows rfl hr)⟩
    · rintro ⟨-,rfl⟩
      exact congrArg Except.ok (ext_rows rfl hr)

end Relation

inductive LogicalPlan
  | scan (tableName : String) (tableAlias : Option String)
  | filteredScan (tableName : String) (tableAlias : Option String) (predicate : Option LogicalExpr)
  | filter (input : LogicalPlan) (predicate : LogicalExpr)
  | project (input : LogicalPlan) (exprs : Nat) (sourceAlias : Option String)
  | aggregate (input : LogicalPlan) (groupBy : Nat)
  | join (left right : LogicalPlan) (joinType : JoinType) (on : Option LogicalExpr) (lateral : Bool)
  | sort (input : LogicalPlan) (exprs : Nat)
  | limit (input : LogicalPlan) (bounds : Nat)
  | union (left right : LogicalPlan) (all : Bool)
  | intersect (left right : LogicalPlan) (all : Bool)
  | except (left right : LogicalPlan) (all : Bool)
  | other (node : Nat)

/-- The tables and the operators that are not modelled. -/
structure Engine where
  evaluator : Evaluator
  table : String → Relation
  project : Nat → Option String → Relation → Except SqlError Relation
  aggregate : Nat → Relation → Except SqlError Relation
  sort : Nat → Relation → Except SqlError Relation
  limit : Nat → Relation → Except SqlError Relation
  union : Bool → Relation → Relation → Except SqlError Relation
  intersect : Bool → Relation → Relation → Except SqlError Relation
  except : Bool → Relation → Relation → Except SqlError Relation
  other : Nat → Except SqlError Relation

/-- A scan stamps the alias and the name of the table on every column. -/
def stamp (tableName : String) (tableAlias : Option String) (rel : Relation) : Relation where
  schema := rel.schema.map fun column =>
    { column with sourceTable := some (tableAlias.getD tableName), sourceTableName := some tableName }
  rows := rel.rows
  width row hrow := by rw [length_map,rel.width row hrow]

/-- A LATERAL join runs its right side once, like any other join. -/
def Engine.run (g : Engine) : LogicalPlan → Except SqlError Relation
  | .scan tableName tableAlias => .ok (stamp tableName tableAlias (g.table tableName))
  | .filteredScan tableName tableAlias predicate =>
    let rel := stamp tableName tableAlias (g.table tableName)
    match predicate with
    | none => .ok rel
    | some predicate => rel.filter g.evaluator predicate
  | .filter input predicate => do
    let rel ← g.run input
    rel.filter g.evaluator predicate
  | .project input exprs sourceAlias => do
    let rel ← g.run input
    g.project exprs sourceAlias rel
  | .aggregate input groupBy => do
    let rel ← g.run input
    g.aggregate groupBy rel
  | .join left right joinType on _ => do
    let l ← g.run left
    let r ← g.run right
    l.join g.evaluator r joinType on
  | .sort input exprs => do
    let rel ← g.run input
    g.sort exprs rel
  | .limit input bounds => do
    let rel ← g.run input
    g.limit bounds rel
  | .union left right all => do
    let l ← g.run left
    let r ← g.run right
    g.union all l r
  | .intersect left right all => do
    let l ← g.run left
    let r ← g.run right
    g.intersect all l r
  | .except left right all => do
    let l ← g.run left
    let r ← g.run right
    g.except all l r
  | .other node => g.other node

end HeliosNano.Sql
