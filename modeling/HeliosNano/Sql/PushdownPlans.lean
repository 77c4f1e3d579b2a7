import HeliosNano.Sql.PushdownSound

namespace HeliosNano.Sql.Pushdown
open List

theorem collectTableRefs_wrap (plan : LogicalPlan) (conjuncts : List LogicalExpr) :
    collectTableRefs (wrap plan conjuncts) = collectTableRefs plan := by
  cases conjuncts <;> rfl

theorem collectTableRefs_rewrite (plan : LogicalPlan) : collectTableRefs (rewrite plan) = collectTableRefs plan := by
  induction plan with
  | join left right t on lateral ihl ihr =>
    unfold rewrite
    cases lateral with
    | true => simp only [if_true,collectTableRefs,ihl,ihr]
    | false =>
      cases on with
      | none => simp only [Bool.false_eq_true,if_false,collectTableRefs,ihl,ihr]
      | some condition => simp only [Bool.false_eq_true,if_false,collectTableRefs,collectTableRefs_wrap,ihl,ihr]
  | filter input predicate ih | sort input exprs ih | limit input bounds ih | aggregate input groupBy ih => exact ih
  | project input exprs sourceAlias ih => rw [rewrite,collectTableRefs,ih,collectTableRefs]
  | _ => rfl

/-- The conjuncts that the ON rule moves belong to the side they are moved to, in every join of the
plan that is not LATERAL. -/
def OnPushable (g : Engine) : LogicalPlan → Prop
  | .join left right t on lateral =>
    OnPushable g left ∧ OnPushable g right ∧ (lateral = false → ∀ condition, on = some condition →
      ∀ l r, g.run left = .ok l → g.run right = .ok r →
        Attributed g.evaluator (onSide t (collectTableRefs left) (collectTableRefs right)) (extractConjuncts condition) l r)
  | .filter input _ | .project input _ _ | .sort input _ | .limit input _ | .aggregate input _ => OnPushable g input
  | .union left right _ | .intersect left right _ | .except left right _ => OnPushable g left ∧ OnPushable g right
  | .scan _ _ | .filteredScan _ _ _ | .other _ => True

/-- The conjuncts that the WHERE rule moves belong to the side they are moved to, and none is moved
to the left of a join that preserves its right side. -/
def WherePushable (g : Engine) (left right : LogicalPlan) (t : JoinType) (predicate : LogicalExpr) : Prop :=
  (∀ l r, g.run left = .ok l → g.run right = .ok r →
    Attributed g.evaluator (whereSide t (collectTableRefs left) (collectTableRefs right)) (extractConjuncts predicate) l r) ∧
  (t.keepsRight = true →
    sent (whereSide t (collectTableRefs left) (collectTableRefs right)) .left (extractConjuncts predicate) = [])

section
variable {t : JoinType} {leftTables rightTables : List String} {conjuncts : List LogicalExpr}

theorem onSide_left (h : t.keepsLeft = true) : sent (onSide t leftTables rightTables) .left conjuncts = [] := by
  refine filter_eq_nil_iff.mpr fun c _ => ?_
  rw [onSide]
  cases touches leftTables rightTables c <;> cases t <;> simp_all [JoinType.keepsLeft]

theorem onSide_right (h : t.keepsRight = true) : sent (onSide t leftTables rightTables) .right conjuncts = [] := by
  refine filter_eq_nil_iff.mpr fun c _ => ?_
  rw [onSide]
  cases touches leftTables rightTables c <;> cases t <;> simp_all [JoinType.keepsRight]

theorem whereSide_right (h : t.keepsLeft = true) : sent (whereSide t leftTables rightTables) .right conjuncts = [] := by
  refine filter_eq_nil_iff.mpr fun c _ => ?_
  rw [whereSide]
  cases touches leftTables rightTables c <;> cases t <;> simp_all [JoinType.keepsLeft]

end

variable {g : Engine}
variable {plan : LogicalPlan} {conjuncts : List LogicalExpr}

theorem run_rewrite {out : Relation} (h : OnPushable g plan) (hrn : g.run plan = .ok out) : g.run (rewrite plan) = .ok out := by
  induction plan generalizing out with
  | join left right t on lateral ihl ihr =>
    obtain ⟨hlf,hrt,hon⟩ := h
    obtain ⟨l,hl,hb⟩ := Storage.bind_eq_ok.mp hrn
    obtain ⟨r,hr,hj⟩ := Storage.bind_eq_ok.mp hb
    have hl' := ihl hlf hl
    have hr' := ihr hrt hr
    unfold rewrite
    cases lateral with
    | true =>
      rw [if_pos rfl,Engine.run,hl',hr']
      exact hj
    | false =>
      rw [if_neg Bool.false_ne_true]
      cases on with
      | none =>
        rw [Engine.run,hl',hr']
        exact hj
      | some condition =>
        simp only [collectTableRefs_rewrite]
        have ha := hon rfl condition rfl l r hl hr
        have hf := run_wrap hl' fun row hrw => ha.seqAll_left hrw
        have hfiltered' := run_wrap hr' fun row hrw => ha.seqAll_right hrw
        rw [Engine.run,hf,hfiltered']
        exact join_on ha onSide_left onSide_right hj
  | filter input predicate ih | project input exprs sourceAlias ih | sort input exprs ih | limit input bounds ih
  | aggregate input groupBy ih =>
    obtain ⟨rel,hrl,hrn⟩ := Storage.bind_eq_ok.mp hrn
    rw [rewrite,Engine.run,ih h hrl]
    exact hrn
  | union left right all ihl ihr | intersect left right all ihl ihr | except left right all ihl ihr =>
    obtain ⟨l,hl,hrn⟩ := Storage.bind_eq_ok.mp hrn
    obtain ⟨r,hr,hrn⟩ := Storage.bind_eq_ok.mp hrn
    rw [rewrite,Engine.run,ihl h.1 hl,ihr h.2 hr]
    exact hrn
  | scan tableName tableAlias | filteredScan tableName tableAlias predicate | other node => exact hrn

theorem of_run_wrap {rel : Relation} (h : g.run (wrap plan conjuncts) = .ok rel) :
    ∃ whole, g.run plan = .ok whole ∧ rel.schema = whole.schema ∧ ∀ row ∈ rel.rows, row ∈ whole.rows := by
  cases conjuncts with
  | nil => exact ⟨rel,h,rfl,fun _ hr => hr⟩
  | cons first rest =>
    obtain ⟨whole,hw,hf⟩ := Storage.bind_eq_ok.mp h
    obtain ⟨-,rfl⟩ := Relation.filter_ok_iff.mp hf
    exact ⟨whole,hw,rfl,fun row hr => (mem_filter.mp hr).1⟩

theorem onPushable_wrap (h : OnPushable g plan) : OnPushable g (wrap plan conjuncts) := by
  cases conjuncts <;> exact h

theorem onPushable_join_wrap {left right : LogicalPlan} {t : JoinType} {on : Option LogicalExpr} {lateral : Bool}
    (h : OnPushable g (.join left right t on lateral)) (leftConjuncts rightConjuncts : List LogicalExpr) :
    OnPushable g (.join (wrap left leftConjuncts) (wrap right rightConjuncts) t on lateral) := by
  obtain ⟨hlf,hrt,hon⟩ := h
  refine ⟨onPushable_wrap hlf,onPushable_wrap hrt,fun hlt condition hsm l r hl hr => ?_⟩
  obtain ⟨l',hl',hls,hlr⟩ := of_run_wrap hl
  obtain ⟨r',hr',hrs,hrr⟩ := of_run_wrap hr
  have ha := hon hlt condition hsm l' r' hl' hr'
  rw [collectTableRefs_wrap,collectTableRefs_wrap]
  refine ⟨fun c hc hs => ?_,fun c hc hs => ?_⟩
  · obtain ⟨hof,hst⟩ := ha.left c hc hs
    rw [hls,hrs]
    refine ⟨hof,fun row hrw => ?_⟩
    rw [hls]
    exact hst row (hlr row hrw)
  · obtain ⟨hof,hst⟩ := ha.right c hc hs
    rw [hls,hrs]
    refine ⟨hof,fun row hrw => ?_⟩
    rw [hrs]
    exact hst row (hrr row hrw)

def oneRow (column : String) (value : Value) : Relation where
  schema := [⟨column,.int4,none,none⟩]
  rows := [[value]]
  width row hrow := by rw [mem_singleton.mp hrow]; rfl

def twoTables : Engine where
  evaluator := { Evaluator.bare [] with castValue := fun value _ => .ok value }
  table name := if name = "a" then oneRow "x" (.int4 1) else oneRow "y" (.int4 1)
  project _ _ rel := .ok rel
  aggregate _ rel := .ok rel
  sort _ rel := .ok rel
  limit _ rel := .ok rel
  union _ l _ := .ok l
  intersect _ l _ := .ok l
  except _ l _ := .ok l
  other _ := .error (.queryExecution "not a plan")

def columnA : LogicalExpr := .column (some "a") "x"

def columnB : LogicalExpr := .column (some "b") "y"

def equalTo (left right : LogicalExpr) : LogicalExpr := .binaryExpr left .eq right

end HeliosNano.Sql.Pushdown
