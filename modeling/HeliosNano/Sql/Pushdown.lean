import HeliosNano.Sql.Plan

namespace HeliosNano.Sql.Pushdown

def collectTableRefs : LogicalPlan → List String
  | .scan tableName tableAlias | .filteredScan tableName tableAlias _ => tableName::tableAlias.toList
  | .filter input _ | .sort input _ | .limit input _ | .aggregate input _ => collectTableRefs input
  | .project input _ sourceAlias => sourceAlias.toList ++ collectTableRefs input
  | .join left right _ _ _ => collectTableRefs left ++ collectTableRefs right
  | .union _ _ _ | .intersect _ _ _ | .except _ _ _ | .other _ => []

mutual

def extractColumnTableRefs : LogicalExpr → List String
  | .column (some table) _ => [table]
  | .binaryExpr left _ right => extractColumnTableRefs left ++ extractColumnTableRefs right
  | .unaryExpr _ expr | .isNull expr _ => extractColumnTableRefs expr
  | .inList expr list _ => extractColumnTableRefs expr ++ extractTableRefsList list
  | .between expr low high _ => extractColumnTableRefs expr ++ extractColumnTableRefs low ++ extractColumnTableRefs high
  | .case operand whenThen elseResult =>
    extractTableRefsOption operand ++ extractTableRefsPairs whenThen ++ extractTableRefsOption elseResult
  | .scalarFunction _ args | .aggregateFunction _ args _ => extractTableRefsList args
  | _ => []

def extractTableRefsList : List LogicalExpr → List String
  | [] => []
  | expr::rest => extractColumnTableRefs expr ++ extractTableRefsList rest

def extractTableRefsPairs : List (LogicalExpr × LogicalExpr) → List String
  | [] => []
  | pair::rest => extractTableRefsPair pair ++ extractTableRefsPairs rest

def extractTableRefsPair : LogicalExpr × LogicalExpr → List String
  | (first,second) => extractColumnTableRefs first ++ extractColumnTableRefs second

def extractTableRefsOption : Option LogicalExpr → List String
  | none => []
  | some expr => extractColumnTableRefs expr

end

mutual

def hasUnqualifiedColumnRef : LogicalExpr → Bool
  | .column none _ | .wildcard => true
  | .binaryExpr left _ right => hasUnqualifiedColumnRef left || hasUnqualifiedColumnRef right
  | .unaryExpr _ expr | .isNull expr _ | .inSet expr _ _ | .cast expr _ => hasUnqualifiedColumnRef expr
  | .inList expr list _ => hasUnqualifiedColumnRef expr || hasUnqualifiedList list
  | .between expr low high _ =>
    hasUnqualifiedColumnRef expr || hasUnqualifiedColumnRef low || hasUnqualifiedColumnRef high
  | .case operand whenThen elseResult =>
    hasUnqualifiedOption operand || hasUnqualifiedPairs whenThen || hasUnqualifiedOption elseResult
  | .scalarFunction _ args | .aggregateFunction _ args _ => hasUnqualifiedList args
  | _ => false

def hasUnqualifiedList : List LogicalExpr → Bool
  | [] => false
  | expr::rest => hasUnqualifiedColumnRef expr || hasUnqualifiedList rest

def hasUnqualifiedPairs : List (LogicalExpr × LogicalExpr) → Bool
  | [] => false
  | pair::rest => hasUnqualifiedPair pair || hasUnqualifiedPairs rest

def hasUnqualifiedPair : LogicalExpr × LogicalExpr → Bool
  | (first,second) => hasUnqualifiedColumnRef first || hasUnqualifiedColumnRef second

def hasUnqualifiedOption : Option LogicalExpr → Bool
  | none => false
  | some expr => hasUnqualifiedColumnRef expr

end

inductive Side
  | left
  | right
  | stay
deriving DecidableEq

def touches (leftTables rightTables : List String) (conjunct : LogicalExpr) : Side :=
  let refs := extractColumnTableRefs conjunct
  if refs.isEmpty then .stay
  else if hasUnqualifiedColumnRef conjunct then .stay
  else match refs.any (leftTables.contains ·), refs.any (rightTables.contains ·) with
    | true, false => .left
    | false, true => .right
    | _, _ => .stay

def whereSide (t : JoinType) (leftTables rightTables : List String) (conjunct : LogicalExpr) : Side :=
  match touches leftTables rightTables conjunct with
  | .left => .left
  | .right => if t = .inner ∨ t = .right then .right else .stay
  | .stay => .stay

def onSide (t : JoinType) (leftTables rightTables : List String) (conjunct : LogicalExpr) : Side :=
  match touches leftTables rightTables conjunct with
  | .left => if t = .inner ∨ t = .right then .left else .stay
  | .right => if t = .inner ∨ t = .left then .right else .stay
  | .stay => .stay

def wrap (plan : LogicalPlan) : List LogicalExpr → LogicalPlan
  | [] => plan
  | first::rest => .filter plan (combineConjuncts first rest)

def conditionOf : List LogicalExpr → Option LogicalExpr
  | [] => none
  | first::rest => some (combineConjuncts first rest)

def sent (side : LogicalExpr → Side) (target : Side) (conjuncts : List LogicalExpr) : List LogicalExpr :=
  conjuncts.filter fun conjunct => side conjunct = target

/-- `None` when no conjunct can move. -/
def pushThroughJoin (left right : LogicalPlan) (t : JoinType) (on : Option LogicalExpr) (lateral : Bool)
    (predicate : LogicalExpr) : Option LogicalPlan :=
  let side := whereSide t (collectTableRefs left) (collectTableRefs right)
  let conjuncts := extractConjuncts predicate
  if (sent side .left conjuncts).isEmpty ∧ (sent side .right conjuncts).isEmpty then none
  else some (wrap (.join (wrap left (sent side .left conjuncts)) (wrap right (sent side .right conjuncts)) t on lateral)
    (sent side .stay conjuncts))

def rewrite : LogicalPlan → LogicalPlan
  | .join left right t on lateral =>
    let left := rewrite left
    let right := rewrite right
    if lateral then .join left right t on lateral
    else match on with
      | none => .join left right t none lateral
      | some condition =>
        let side := onSide t (collectTableRefs left) (collectTableRefs right)
        let conjuncts := extractConjuncts condition
        .join (wrap left (sent side .left conjuncts)) (wrap right (sent side .right conjuncts)) t
          (conditionOf (sent side .stay conjuncts)) lateral
  | .filter input predicate => .filter (rewrite input) predicate
  | .project input exprs sourceAlias => .project (rewrite input) exprs sourceAlias
  | .sort input exprs => .sort (rewrite input) exprs
  | .limit input bounds => .limit (rewrite input) bounds
  | .aggregate input groupBy => .aggregate (rewrite input) groupBy
  | .union left right all => .union (rewrite left) (rewrite right) all
  | .intersect left right all => .intersect (rewrite left) (rewrite right) all
  | .except left right all => .except (rewrite left) (rewrite right) all
  | .scan tableName tableAlias => .scan tableName tableAlias
  | .filteredScan tableName tableAlias predicate => .filteredScan tableName tableAlias predicate
  | .other node => .other node

end HeliosNano.Sql.Pushdown
