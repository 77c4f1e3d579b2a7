import HeliosNano.Sql.Pushdown

namespace HeliosNano.Sql.Pushdown
open Foundation List

def OfLeft (left right : Schema) (expr : LogicalExpr) : Prop :=
  allColumns (fun table name => decide ((left.getQualifiedColumnIndex table name).isSome ∧
    (left.merge right).getQualifiedColumnIndex table name = left.getQualifiedColumnIndex table name)) expr = true
deriving Decidable

def OfRight (left right : Schema) (expr : LogicalExpr) : Prop :=
  allColumns (fun table name => decide ((right.getQualifiedColumnIndex table name).isSome ∧
    (left.merge right).getQualifiedColumnIndex table name =
      (right.getQualifiedColumnIndex table name).map (left.length + ·))) expr = true
deriving Decidable

theorem getQualifiedColumnIndex_lt {s : Schema} {table : Option String} {name : String} {i : Nat}
    (h : s.getQualifiedColumnIndex table name = some i) : i < s.length := by
  have hf : ∀ {p : Column → Bool} {i : Nat}, s.findIdx? p = some i → i < s.length := by
    intro p i hp
    exact (findIdx?_eq_some_iff_getElem.mp hp).1
  cases table with
  | none => exact hf h
  | some t =>
    rw [Schema.getQualifiedColumnIndex] at h
    split at h
    · cases h
      exact hf ‹_›
    · exact hf h

variable {ev : Evaluator}
variable {left : Schema} {a : Tuple} {expr : LogicalExpr} {b : Tuple} {right : Schema} {tuple : Tuple}

theorem truthOf_left (h : OfLeft left right expr) (ha : a.length = left.length) :
    truthOf (ev.withSchema (left.merge right)) (a ++ b) expr = truthOf (ev.withSchema left) a expr := by
  have hv : (ev.withSchema (left.merge right)).evaluate (a ++ b) expr = (ev.withSchema left).evaluate a expr := by
    refine @Evaluator.evaluate_withSchema (ev.withSchema (left.merge right)) _ _ _ _ _ h fun table name hp => ?_
    obtain ⟨hs,hsame⟩ := of_decide_eq_true hp
    obtain ⟨i,hi⟩ := Option.isSome_iff_exists.mp hs
    have hlt := getQualifiedColumnIndex_lt hi
    simp only [Evaluator.evaluateColumn,Evaluator.withSchema,hsame,hi]
    rw [getElem?_append_left (by omega)]
  rw [truthOf,hv,truthOf]
  rfl

theorem truthOf_right (h : OfRight left right expr) (ha : a.length = left.length) (hb : b.length = right.length) :
    truthOf (ev.withSchema (left.merge right)) (a ++ b) expr = truthOf (ev.withSchema right) b expr := by
  have hv : (ev.withSchema (left.merge right)).evaluate (a ++ b) expr = (ev.withSchema right).evaluate b expr := by
    refine @Evaluator.evaluate_withSchema (ev.withSchema (left.merge right)) _ _ _ _ _ h fun table name hp => ?_
    obtain ⟨hs,hsame⟩ := of_decide_eq_true hp
    obtain ⟨i,hi⟩ := Option.isSome_iff_exists.mp hs
    have hlt := getQualifiedColumnIndex_lt hi
    simp only [Evaluator.evaluateColumn,Evaluator.withSchema,hsame,hi,Option.map_some]
    rw [getElem?_append_right (by omega),show left.length+i-a.length = i by omega,
      getElem?_eq_getElem (by omega)]
  rw [truthOf,hv,truthOf]
  rfl

def holdsAll (ev : Evaluator) (conjuncts : List LogicalExpr) (tuple : Tuple) : Bool :=
  match seqAll (conjuncts.map (truthOf ev tuple)) with
  | .ok t => t == some true
  | .error _ => false

variable {conjuncts : List LogicalExpr}

theorem holdsAll_iff : holdsAll ev conjuncts tuple = true ↔ ∀ c ∈ conjuncts, truthOf ev tuple c = .ok (some true) := by
  have htr : holdsAll ev conjuncts tuple = true ↔ seqAll (conjuncts.map (truthOf ev tuple)) = .ok (some true) := by
    rw [holdsAll]
    split
    next t h => rw [h]; simp
    next e h => rw [h]; simp
  rw [htr,seqAll_eq_true]
  exact forall_mem_map

theorem passes_predicate (predicate : LogicalExpr) (tuple : Tuple) :
    passes (evaluatePredicate ev predicate) tuple = holdsAll ev (extractConjuncts predicate) tuple := by
  rw [holdsAll,← truthOf_conjuncts,passes]
  cases h : truthOf ev tuple predicate with
  | ok t =>
    rw [evaluatePredicate_ok_iff.mpr ⟨t,h,rfl⟩]
  | error e =>
    cases hp : evaluatePredicate ev predicate tuple with
    | error e => rfl
    | ok b =>
      obtain ⟨t,ht,-⟩ := evaluatePredicate_ok_iff.mp hp
      rw [h] at ht
      cases ht

theorem holdsAll_split (conjuncts : List LogicalExpr) (p : LogicalExpr → Bool) (tuple : Tuple) : holdsAll ev conjuncts tuple =
      (holdsAll ev (conjuncts.filter p) tuple && holdsAll ev (conjuncts.filter fun c => !p c) tuple) := by
  rw [Bool.eq_iff_iff,Bool.and_eq_true,holdsAll_iff,holdsAll_iff,holdsAll_iff]
  constructor
  · intro h
    exact ⟨fun c hc => h c (mem_filter.mp hc).1,fun c hc => h c (mem_filter.mp hc).1⟩
  · rintro ⟨hy,hno⟩ c hc
    cases hp : p c with
    | true => exact hy c (mem_filter.mpr ⟨hc,hp⟩)
    | false => exact hno c (mem_filter.mpr ⟨hc,by rw [hp]; rfl⟩)

theorem holdsAll_congr {ev' : Evaluator} {tuple' : Tuple} (h : ∀ c ∈ conjuncts, truthOf ev tuple c = truthOf ev' tuple' c) :
    holdsAll ev conjuncts tuple = holdsAll ev' conjuncts tuple' := by
  rw [holdsAll,holdsAll,map_congr_left h]

/-- The conjunct is TRUE, FALSE or NULL on every row. -/
def Settled (ev : Evaluator) (rel : Relation) (conjunct : LogicalExpr) : Prop :=
  ∀ row ∈ rel.rows, ∃ t, truthOf (ev.withSchema rel.schema) row conjunct = .ok t

theorem seqAll_ok {xs : List (Except SqlError Tri)} (h : ∀ x ∈ xs, ∃ t, x = .ok t) : ∃ t, seqAll xs = .ok t := by
  induction xs with
  | nil => exact ⟨some true,rfl⟩
  | cons x rest ih =>
    obtain ⟨t,ht⟩ := ih fun y hy => h y (mem_cons_of_mem _ hy)
    obtain ⟨s,hs⟩ := h x mem_cons_self
    rw [seqAll,ht,hs]
    rcases s with _ | _ | _
    · exact ⟨_,rfl⟩
    · exact ⟨_,rfl⟩
    · exact ⟨_,rfl⟩

theorem run_wrap {g : Engine} {plan : LogicalPlan} {rel : Relation} (hp : g.run plan = .ok rel)
    (h : ∀ row ∈ rel.rows, ∃ t, seqAll (conjuncts.map (truthOf (g.evaluator.withSchema rel.schema) row)) = .ok t) :
    g.run (wrap plan conjuncts) = .ok (rel.select (holdsAll (g.evaluator.withSchema rel.schema) conjuncts)) := by
  cases conjuncts with
  | nil =>
    rw [wrap,hp]
    refine congrArg Except.ok (Relation.ext_rows rfl ?_)
    exact (filter_eq_self.mpr fun _ _ => rfl).symm
  | cons first rest =>
    have hf : rel.filter g.evaluator (combineConjuncts first rest) =
        .ok (rel.select (holdsAll (g.evaluator.withSchema rel.schema) (first::rest))) := by
      refine Relation.filter_ok_iff.mpr ⟨fun row hr => ?_,Relation.ext_rows rfl (filter_congr fun row hr => ?_)⟩
      · obtain ⟨t,ht⟩ := h row hr
        exact ⟨_,evaluatePredicate_ok_iff.mpr ⟨t,(truthOf_combine first rest).trans ht,rfl⟩⟩
      · obtain ⟨t,ht⟩ := h row hr
        rw [holdsAll,ht,passes,evaluatePredicate_ok_iff.mpr ⟨t,(truthOf_combine first rest).trans ht,rfl⟩]
    rw [wrap,Engine.run,hp]
    exact hf

section
variable {side : LogicalExpr → Side} {conjuncts : List LogicalExpr}

theorem mem_sent {target : Side} {c : LogicalExpr} : c ∈ sent side target conjuncts ↔ c ∈ conjuncts ∧ side c = target := by
  simp [sent]

def others (side : LogicalExpr → Side) (conjuncts : List LogicalExpr) : List LogicalExpr :=
  conjuncts.filter fun c => !decide (side c = .left)

theorem sent_right_others : (others side conjuncts).filter (fun c => decide (side c = .right)) = sent side .right conjuncts := by
  rw [others,filter_filter,sent]
  refine filter_congr fun c _ => ?_
  cases side c <;> rfl

theorem sent_stay_others : (others side conjuncts).filter (fun c => !decide (side c = .right)) = sent side .stay conjuncts := by
  rw [others,filter_filter,sent]
  refine filter_congr fun c _ => ?_
  cases side c <;> rfl

theorem holdsAll_left (tuple : Tuple) :
    holdsAll ev conjuncts tuple = (holdsAll ev (sent side .left conjuncts) tuple && holdsAll ev (others side conjuncts) tuple) :=
  holdsAll_split conjuncts (fun c => decide (side c = .left)) tuple

theorem holdsAll_right (tuple : Tuple) : holdsAll ev (others side conjuncts) tuple =
      (holdsAll ev (sent side .right conjuncts) tuple && holdsAll ev (sent side .stay conjuncts) tuple) := by
  rw [holdsAll_split (others side conjuncts) (fun c => decide (side c = .right)),sent_right_others,sent_stay_others]

/-- Where the conjuncts that move hold, those that stay decide. -/
theorem seqAll_stay {tuple : Tuple} (hl : holdsAll ev (sent side .left conjuncts) tuple = true)
    (hrt : holdsAll ev (sent side .right conjuncts) tuple = true) :
    seqAll (conjuncts.map (truthOf ev tuple)) = seqAll ((sent side .stay conjuncts).map (truthOf ev tuple)) := by
  rw [holdsAll_iff] at hl hrt
  refine seqAll_filter _ _ _ fun c hc hm => ?_
  have hsd : side c = .left ∨ side c = .right := by
    cases hs : side c <;> simp_all
  rcases hsd with hs | hs
  · exact hl c (mem_sent.mpr ⟨hc,hs⟩)
  · exact hrt c (mem_sent.mpr ⟨hc,hs⟩)

/-- The conjuncts that are sent to a side belong there. -/
structure Attributed (ev : Evaluator) (side : LogicalExpr → Side) (conjuncts : List LogicalExpr) (l r : Relation) : Prop where
  left : ∀ c ∈ conjuncts, side c = .left → OfLeft l.schema r.schema c ∧ Settled ev l c
  right : ∀ c ∈ conjuncts, side c = .right → OfRight l.schema r.schema c ∧ Settled ev r c

def sideTest (ev : Evaluator) (side : LogicalExpr → Side) (conjuncts : List LogicalExpr) (target : Side) (rel : Relation) :
    Tuple → Bool :=
  holdsAll (ev.withSchema rel.schema) (sent side target conjuncts)

variable {l r : Relation} (h : Attributed ev side conjuncts l r)
include h

variable {b a : Tuple}

theorem Attributed.holdsAll_left (ha : a ∈ l.rows) :
    holdsAll (ev.withSchema (l.schema.merge r.schema)) (sent side .left conjuncts) (a ++ b) =
      sideTest ev side conjuncts .left l a := by
  refine holdsAll_congr fun c hc => ?_
  obtain ⟨hm,hs⟩ := mem_sent.mp hc
  exact truthOf_left (h.left c hm hs).1 (l.width a ha)

theorem Attributed.holdsAll_right (ha : a.length = l.schema.length) (hb : b ∈ r.rows) :
    holdsAll (ev.withSchema (l.schema.merge r.schema)) (sent side .right conjuncts) (a ++ b) =
      sideTest ev side conjuncts .right r b := by
  refine holdsAll_congr fun c hc => ?_
  obtain ⟨hm,hs⟩ := mem_sent.mp hc
  exact truthOf_right (h.right c hm hs).1 ha (r.width b hb)

theorem Attributed.seqAll_left (ha : a ∈ l.rows) :
    ∃ t, seqAll ((sent side .left conjuncts).map (truthOf (ev.withSchema l.schema) a)) = .ok t := by
  refine seqAll_ok (forall_mem_map.mpr fun c hc => ?_)
  obtain ⟨hm,hs⟩ := mem_sent.mp hc
  exact (h.left c hm hs).2 a ha

theorem Attributed.seqAll_right (hb : b ∈ r.rows) :
    ∃ t, seqAll ((sent side .right conjuncts).map (truthOf (ev.withSchema r.schema) b)) = .ok t := by
  refine seqAll_ok (forall_mem_map.mpr fun c hc => ?_)
  obtain ⟨hm,hs⟩ := mem_sent.mp hc
  exact (h.right c hm hs).2 b hb

theorem Attributed.holdsAll_combine {t : JoinType} {p : Tuple → Tuple → Bool}
    (hkr : t.keepsRight = true → sent side .left conjuncts = [])
    (hkl : t.keepsLeft = true → sent side .right conjuncts = []) {pair : Option Tuple × Option Tuple}
    (hp : pair ∈ Joins.join t.keepsLeft t.keepsRight p l.rows r.rows) :
    holdsAll (ev.withSchema (l.schema.merge r.schema)) (sent side .left conjuncts)
        (combine l.schema.length r.schema.length pair) = pair.1.all (sideTest ev side conjuncts .left l) ∧
      holdsAll (ev.withSchema (l.schema.merge r.schema)) (sent side .right conjuncts)
        (combine l.schema.length r.schema.length pair) = pair.2.all (sideTest ev side conjuncts .right r) := by
  obtain ⟨hl,hr⟩ := Joins.mem_of_mem_join hp
  obtain ⟨lo,ro⟩ := pair
  have hw : (lo.getD (nulls l.schema.length)).length = l.schema.length := by
    cases lo with
    | none => exact length_replicate
    | some a => exact l.width a (hl a rfl)
  constructor
  · cases lo with
    | none =>
      rw [hkr (Joins.keepRight_of_fst_none hp rfl)]
      rfl
    | some a => exact h.holdsAll_left (hl a rfl)
  · cases ro with
    | none =>
      rw [hkl (Joins.keepLeft_of_snd_none hp rfl)]
      rfl
    | some b => exact h.holdsAll_right hw (hr b rfl)

omit h in
theorem select_joinBy_rows {t : JoinType} {p : Tuple → Tuple → Bool}
    (hkr : t.keepsRight = true → sent side .left conjuncts = []) (hkl : t.keepsLeft = true → sent side .right conjuncts = []) :
    ((l.select (sideTest ev side conjuncts .left l)).joinBy (r.select (sideTest ev side conjuncts .right r)) t p).rows =
      ((Joins.join t.keepsLeft t.keepsRight p l.rows r.rows).filter fun pair =>
        pair.1.all (sideTest ev side conjuncts .left l) && pair.2.all (sideTest ev side conjuncts .right r)).map
          (combine l.schema.length r.schema.length) := by
  have htr : ∀ {target : Side} {rel : Relation}, sent side target conjuncts = [] →
      ∀ row ∈ rel.rows, sideTest ev side conjuncts target rel row = true := by
    intro target rel hn row _
    rw [sideTest,hn]
    rfl
  change (Joins.join t.keepsLeft t.keepsRight p (l.rows.filter _) (r.rows.filter _)).map _ = _
  rw [Joins.join_tested_left (fun hk => htr (hkr hk)),Joins.join_tested_right (fun hk => htr (hkl hk)),
    filter_filter]
  rfl

end

section
variable {g : Engine} {left right : LogicalPlan} {t : JoinType} {on : Option LogicalExpr} {lateral : Bool} {l r : Relation}

/-- A filter over a join returns the same rows when the conjuncts that belong to one side are
checked below it, unless the other side is preserved. -/
theorem run_where {side : LogicalExpr → Side} {predicate : LogicalExpr} {out : Relation}
    (h : Attributed g.evaluator side (extractConjuncts predicate) l r)
    (hkr : t.keepsRight = true → sent side .left (extractConjuncts predicate) = [])
    (hkl : t.keepsLeft = true → sent side .right (extractConjuncts predicate) = [])
    (hl : g.run left = .ok l) (hr : g.run right = .ok r)
    (hrn : g.run (.filter (.join left right t on lateral) predicate) = .ok out) :
    g.run (wrap (.join (wrap left (sent side .left (extractConjuncts predicate)))
      (wrap right (sent side .right (extractConjuncts predicate))) t on lateral)
        (sent side .stay (extractConjuncts predicate))) = .ok out := by
  have hjn : g.run (.join left right t on lateral) = l.join g.evaluator r t on := by
    rw [Engine.run,hl,hr]
    rfl
  rw [Engine.run,hjn] at hrn
  obtain ⟨joined,hj,hfl⟩ := Storage.bind_eq_ok.mp hrn
  obtain ⟨hpr,rfl⟩ := Relation.join_ok_iff.mp hj
  obtain ⟨htt,rfl⟩ := Relation.filter_ok_iff.mp hfl
  set conjuncts := extractConjuncts predicate with hc
  have hlf := run_wrap hl fun row hrw => h.seqAll_left hrw
  have hrt := run_wrap hr fun row hrw => h.seqAll_right hrw
  have hnew : g.run (.join (wrap left (sent side .left conjuncts)) (wrap right (sent side .right conjuncts)) t on lateral) =
      .ok ((l.select (sideTest g.evaluator side conjuncts .left l)).joinBy
        (r.select (sideTest g.evaluator side conjuncts .right r)) t fun a => passes (Relation.pairTest g.evaluator l r on a)) := by
    rw [Engine.run,hlf,hrt]
    refine Relation.join_ok_iff.mpr ⟨fun a ha b hb => ?_,rfl⟩
    exact hpr a (mem_filter.mp ha).1 b (mem_filter.mp hb).1
  -- A row of the join below which the sides were checked is a row of the join whose moved
  -- conjuncts are true.
  have hk := @select_joinBy_rows g.evaluator side conjuncts l r t
    (fun a => passes (Relation.pairTest g.evaluator l r on a)) hkr hkl
  have hm : ∀ {pair : Option Tuple × Option Tuple},
      pair ∈ Joins.join t.keepsLeft t.keepsRight (fun a => passes (Relation.pairTest g.evaluator l r on a)) l.rows r.rows →
      holdsAll (g.evaluator.withSchema (l.schema.merge r.schema)) conjuncts (combine l.schema.length r.schema.length pair) =
        (pair.1.all (sideTest g.evaluator side conjuncts .left l) && (pair.2.all (sideTest g.evaluator side conjuncts .right r) &&
          holdsAll (g.evaluator.withSchema (l.schema.merge r.schema)) (sent side .stay conjuncts)
            (combine l.schema.length r.schema.length pair))) := by
    intro pair hp
    obtain ⟨hf,hsn⟩ := h.holdsAll_combine hkr hkl hp
    rw [← hf,← hsn,← holdsAll_right,← holdsAll_left]
  have hst : ∀ row ∈ ((l.select (sideTest g.evaluator side conjuncts .left l)).joinBy
      (r.select (sideTest g.evaluator side conjuncts .right r)) t fun a => passes (Relation.pairTest g.evaluator l r on a)).rows,
      ∃ t, seqAll ((sent side .stay conjuncts).map (truthOf (g.evaluator.withSchema (l.schema.merge r.schema)) row)) = .ok t := by
    intro row hrw
    rw [hk] at hrw
    obtain ⟨pair,hp,rfl⟩ := mem_map.mp hrw
    obtain ⟨hj,hs⟩ := mem_filter.mp hp
    obtain ⟨hf,hsn⟩ := h.holdsAll_combine hkr hkl hj
    rw [Bool.and_eq_true,← hf,← hsn] at hs
    obtain ⟨b,hb⟩ := htt _ (mem_map_of_mem hj)
    obtain ⟨truth,htr,-⟩ := evaluatePredicate_ok_iff.mp hb
    rw [truthOf_conjuncts] at htr
    exact ⟨truth,(seqAll_stay hs.1 hs.2).symm.trans htr⟩
  rw [run_wrap hnew hst]
  refine congrArg Except.ok (Relation.ext_rows rfl ?_)
  change List.filter _ (Relation.joinBy _ _ _ _).rows = List.filter _ (List.map _ _)
  rw [hk,filter_map,filter_map,filter_filter]
  refine congrArg _ (filter_congr fun pair hp => ?_)
  simp only [Function.comp_apply]
  rw [passes_predicate]
  refine Eq.trans ?_ (hm hp).symm
  exact (Bool.and_comm _ _).trans (Bool.and_assoc _ _ _)

end

section
variable {side : LogicalExpr → Side} {condition : LogicalExpr} {l r out : Relation} {t : JoinType} {tuple : Tuple}

theorem passes_condition : passes (conditionHolds ev (some condition)) tuple = holdsAll ev (extractConjuncts condition) tuple := by
  rw [holdsAll,← truthOf_conjuncts]
  cases h : truthOf ev tuple condition with
  | ok truth => rw [passes,conditionHolds_of_truthOf h]
  | error e =>
    rw [passes,conditionHolds]
    rw [truthOf] at h
    cases hv : ev.evaluate tuple condition with
    | error e => rfl
    | ok v =>
      rw [hv] at h
      cases v with
      | boolean b | null => cases h
      | _ => rfl

theorem passes_conditionOf (conjuncts : List LogicalExpr) :
    passes (conditionHolds ev (conditionOf conjuncts)) tuple = holdsAll ev conjuncts tuple := by
  cases conjuncts with
  | nil => rfl
  | cons first rest => rw [conditionOf,passes_condition,holdsAll,holdsAll,← truthOf_conjuncts,truthOf_combine]

theorem conditionOf_stay_ok {b : Bool} (hok : conditionHolds ev (some condition) tuple = .ok b)
    (hl : holdsAll ev (sent side .left (extractConjuncts condition)) tuple = true)
    (hrt : holdsAll ev (sent side .right (extractConjuncts condition)) tuple = true) :
    ∃ b, conditionHolds ev (conditionOf (sent side .stay (extractConjuncts condition))) tuple = .ok b := by
  have hsy : ∀ {truth : Tri}, truthOf ev tuple condition = .ok truth →
      ∃ b, conditionHolds ev (conditionOf (sent side .stay (extractConjuncts condition))) tuple = .ok b := by
    intro truth htr
    rw [truthOf_conjuncts,seqAll_stay hl hrt] at htr
    cases hst : sent side .stay (extractConjuncts condition) with
    | nil => exact ⟨true,rfl⟩
    | cons first rest =>
      rw [hst,← truthOf_combine] at htr
      exact ⟨_,conditionHolds_of_truthOf htr⟩
  -- A conjunction has a truth value. Any other condition is its only conjunct.
  by_cases hand : ∃ a c, condition = .binaryExpr a .and c
  · obtain ⟨a,c,rfl⟩ := hand
    cases hv : ev.evaluate tuple (.binaryExpr a .and c) with
    | error e =>
      rw [conditionHolds,hv] at hok
      cases hok
    | ok v =>
      obtain ⟨truth,htr⟩ := truthOf_of_and hv
      exact hsy htr
  · have hsn : extractConjuncts condition = [condition] := by
      rw [extractConjuncts]
      exact fun a c h => hand ⟨a,c,h⟩
    rw [hsn,sent]
    by_cases hs : side condition = .stay
    · rw [filter_cons_of_pos (by simp [hs])]
      exact ⟨b,hok⟩
    · rw [filter_cons_of_neg (by simp [hs])]
      exact ⟨true,rfl⟩

/-- A join returns the same rows when the conjuncts of its condition that belong to one side are
checked below it, unless that side is preserved. -/
theorem join_on {ev : Evaluator} (h : Attributed ev side (extractConjuncts condition) l r)
    (hkl : t.keepsLeft = true → sent side .left (extractConjuncts condition) = [])
    (hkr : t.keepsRight = true → sent side .right (extractConjuncts condition) = [])
    (hj : l.join ev r t (some condition) = .ok out) : (l.select (sideTest ev side (extractConjuncts condition) .left l)).join ev
      (r.select (sideTest ev side (extractConjuncts condition) .right r)) t
      (conditionOf (sent side .stay (extractConjuncts condition))) = .ok out := by
  obtain ⟨hp,rfl⟩ := Relation.join_ok_iff.mp hj
  set conjuncts := extractConjuncts condition with hcn
  set whole := ev.withSchema (l.schema.merge r.schema) with hw
  have htr : ∀ {target : Side} {rel : Relation}, sent side target conjuncts = [] →
      ∀ row ∈ rel.rows, sideTest ev side conjuncts target rel row = true := by
    intro target rel hn row _
    rw [sideTest,hn]
    rfl
  refine Relation.join_ok_iff.mpr ⟨fun a ha b hb => ?_,Relation.ext_rows rfl ?_⟩
  · obtain ⟨ha,hl⟩ := mem_filter.mp ha
    obtain ⟨hb,hrt⟩ := mem_filter.mp hb
    obtain ⟨c,hc⟩ := hp a ha b hb
    refine conditionOf_stay_ok hc ?_ ?_
    · exact (h.holdsAll_left ha).trans hl
    · exact (h.holdsAll_right (l.width a ha) hb).trans hrt
  · -- The left conjuncts first, then the right ones.
    have hf := @Joins.join_filter_left _ _ t.keepsLeft t.keepsRight
      (fun a => passes (Relation.pairTest ev l r (some condition) a))
      (fun a b => holdsAll whole (others side conjuncts) (a ++ b)) (sideTest ev side conjuncts .left l)
      l.rows r.rows (fun hk => htr (hkl hk)) fun a ha b _ => by
        rw [← h.holdsAll_left (b := b) ha,← holdsAll_left]
        exact passes_condition
    have hs := @Joins.join_filter_right _ _ t.keepsLeft t.keepsRight
      (fun a b => holdsAll whole (others side conjuncts) (a ++ b))
      (fun a b => holdsAll whole (sent side .stay conjuncts) (a ++ b)) (sideTest ev side conjuncts .right r)
      (l.rows.filter (sideTest ev side conjuncts .left l)) r.rows (fun hk => htr (hkr hk))
      fun a ha b hb => by
        rw [← h.holdsAll_right (l.width a (mem_filter.mp ha).1) hb,← holdsAll_right]
    refine congrArg (List.map _) (hf.trans (hs.trans ?_))
    exact Joins.join_congr fun a _ b _ => (passes_conditionOf _).symm

end

end HeliosNano.Sql.Pushdown
