import HeliosNano.Foundation.Selection
import HeliosNano.Sql.Columns

/-! `SortOperator` and `TopKOperator`, as the rows that they return for the rows of their input. Timeouts are left out, and
the comparison of two values is any. -/
namespace HeliosNano.Sql
open Foundation List

namespace Evaluator
variable (ev : Evaluator)

/-- `Evaluator::bind`. It also normalizes the names of functions, as each call of `function` does. -/
def bind (expr : LogicalExpr) : LogicalExpr := bindColumns ev.schema.getQualifiedColumnIndex expr

inductive SortKeyAccessor
  | column (index : Nat)
  | expr (e : LogicalExpr)

def sortKeyAccessor (expr : LogicalExpr) : SortKeyAccessor :=
  match expr with
  | .column table name =>
    match ev.schema.getQualifiedColumnIndex table name with
    | some index => .column index
    | none => .expr (ev.bind expr)
  | _ => .expr (ev.bind expr)

/-- A column that the row does not have is NULL. -/
def accessKey (tuple : Tuple) : SortKeyAccessor → Result
  | .column index => .ok (tuple[index]?.getD .null)
  | .expr e => ev.evaluate tuple e

/-- The sort key of a row in `SortOperator`. -/
def sortKey (exprs : List LogicalExpr) (tuple : Tuple) : Except SqlError (List Value) :=
  exprs.mapM fun e => ev.evaluate tuple (ev.bind e)

/-- The sort key of a row in `TopKOperator`. -/
def topKKey (exprs : List LogicalExpr) (tuple : Tuple) : Except SqlError (List Value) :=
  exprs.mapM fun e => ev.accessKey tuple (ev.sortKeyAccessor e)

end Evaluator

/-- `HeapEntry::cmp`, which is the comparison of `SortOperator` too. -/
def compareKeys (cmp : Value → Value → Ordering) : List Bool → List Value → List Value → Ordering
  | asc, a::as, b::bs =>
    let c := if asc.head?.getD true then cmp a b else (cmp a b).swap
    if c ≠ .eq then c else compareKeys cmp asc.tail as bs
  | _, _, _ => .eq

section
variable {α : Type} (cmp : α → α → Ordering)

/-- `BinaryHeap::pop`: one of the greatest elements, and what is left. -/
def popGreatest : List α → Option (α × List α)
  | [] => none
  | a::rest =>
    match popGreatest rest with
    | none => some (a,[])
    | some (top,others) => if cmp a top = .lt then some (top,a::others) else some (a,rest)

/-- An entry while there is room, and then in the place of the greatest one if it is smaller. -/
def pushBounded (k : Nat) (heap : List α) (entry : α) : List α :=
  if heap.length < k then entry::heap
  else
    match popGreatest cmp heap with
    | some (top,rest) => if cmp entry top = .lt then entry::rest else heap
    | none => heap

/-- `BinaryHeap::into_sorted_vec`, and `sort_by`. -/
def sortBy (l : List α) : List α := l.mergeSort fun a b => (cmp a b).isLE

end

section
variable (ev : Evaluator) (cmp : Value → Value → Ordering) (exprs : List LogicalExpr) (asc : List Bool)

def compareEntries (a b : List Value × Tuple) : Ordering := compareKeys cmp asc a.1 b.1

def decorate (key : Tuple → Except SqlError (List Value)) (rows : List Tuple) : Except SqlError (List (List Value × Tuple)) :=
  rows.mapM fun tuple => do return (← key tuple,tuple)

/-- `SortOperator::new`. -/
def sortRows (rows : List Tuple) : Except SqlError (List Tuple) := do
  let decorated ← decorate (ev.sortKey exprs) rows
  return (sortBy (compareEntries cmp asc) decorated).map (·.2)

/-- `TopKOperator::new`. -/
def topKRows (k : Nat) (rows : List Tuple) : Except SqlError (List Tuple) :=
  if k = 0 then .ok []
  else do
    let heap ← rows.foldlM (fun heap tuple => do
      return pushBounded (compareEntries cmp asc) k heap (← ev.topKKey exprs tuple,tuple)) []
    return (sortBy (compareEntries cmp asc) heap).map (·.2)

def keyOf (tuple : Tuple) : List Value := (ev.topKKey exprs tuple).toOption.getD []

structure TopKAgrees (k : Nat) (rows : List Tuple) : Prop where
  fails : 0 < k → (topKRows ev cmp exprs asc k rows).isOk = (sortRows ev cmp exprs asc rows).isOk
  length : ∀ top, topKRows ev cmp exprs asc k rows = .ok top → top.length = min k rows.length
  subperm : ∀ top, topKRows ev cmp exprs asc k rows = .ok top → top.Subperm rows
  sorted : ∀ top, topKRows ev cmp exprs asc k rows = .ok top →
    top.Pairwise fun a b => (compareKeys cmp asc (keyOf ev exprs a) (keyOf ev exprs b)).isLE
  keys : ∀ top all, topKRows ev cmp exprs asc k rows = .ok top → sortRows ev cmp exprs asc rows = .ok all →
    Forall₂ (fun a b => compareKeys cmp asc (keyOf ev exprs a) (keyOf ev exprs b) = .eq) top (all.take (min k rows.length))

/-- The expression is a column of the schema that the row is too short for. -/
def missesColumn (tuple : Tuple) : LogicalExpr → Prop
  | .column table name => ∃ index, ev.schema.getQualifiedColumnIndex table name = some index ∧ tuple.length ≤ index
  | _ => False

end

section
variable {α : Type} {cmp : α → α → Ordering} {r : α → Nat} {l heap : List α}

theorem popGreatest_eq_none {l : List α} (h : popGreatest cmp l = none) : l = [] := by
  cases l with
  | nil => rfl
  | cons a rest =>
    rw [popGreatest] at h
    split at h
    · cases h
    · split at h <;> cases h

theorem popGreatest_spec (hr : Ranked cmp r heap) {top : α} {rest : List α} (h : popGreatest cmp heap = some (top,rest)) :
    heap.Perm (top::rest) ∧ ∀ a ∈ rest, r a ≤ r top := by
  induction heap generalizing top rest with
  | nil => cases h
  | cons a heap ih =>
    rw [popGreatest] at h
    split at h
    next hn =>
      cases h
      rw [popGreatest_eq_none hn]
      exact ⟨.refl _,nofun⟩
    next most others hs =>
      obtain ⟨hp,hg⟩ := ih (fun b hb c hc => hr b (mem_cons_of_mem a hb) c (mem_cons_of_mem a hc)) hs
      have hm : most ∈ a::heap := mem_cons_of_mem a (hp.mem_iff.mpr mem_cons_self)
      have hcmp := hr a mem_cons_self most hm
      split at h
      next hlt =>
        rw [hcmp,compare_lt_iff_lt] at hlt
        cases h
        refine ⟨(hp.cons a).trans (.swap _ _ _),fun b hb => ?_⟩
        rcases mem_cons.mp hb with rfl | hb
        · exact hlt.le
        · exact hg b hb
      next hge =>
        rw [hcmp,compare_lt_iff_lt,not_lt] at hge
        cases h
        refine ⟨.refl _,fun b hb => ?_⟩
        rcases mem_cons.mp (hp.mem_iff.mp hb) with rfl | hb
        · exact hge
        · exact (hg b hb).trans hge

theorem selected_pushBounded {k : Nat} (hk : 0 < k) {e : α} (hr : Ranked cmp r (l ++ [e])) (h : Selected r k l heap) :
    Selected r k (l ++ [e]) (pushBounded cmp k heap e) := by
  have hin : ∀ a ∈ heap, a ∈ l ++ [e] := by
    obtain ⟨left,hp,-⟩ := h
    exact fun a ha => mem_append_left _ (hp.mem_iff.mpr (mem_append_left left ha))
  have he : e ∈ l ++ [e] := mem_append_right l mem_cons_self
  rw [pushBounded]
  split
  next hlt =>
    exact h.push hlt
  next hfull =>
    have hle := not_lt.mp hfull
    split
    next top rest hpop =>
      obtain ⟨hp,hg⟩ := popGreatest_spec (fun a ha b hb => hr a (hin a ha) b (hin b hb)) hpop
      have htop := hp.mem_iff.mpr mem_cons_self
      have hcmp := hr e he top (hin top htop)
      split
      next hlt =>
        exact h.replace hle hp hg (compare_lt_iff_lt.mp (hcmp ▸ hlt))
      next hge =>
        rw [hcmp,compare_lt_iff_lt,not_lt] at hge
        refine h.keep hle fun a ha => ?_
        rcases mem_cons.mp (hp.mem_iff.mp ha) with rfl | ha
        · exact hge
        · exact (hg a ha).trans hge
    next hpop =>
      rw [popGreatest_eq_none hpop] at hle
      exact absurd hk (not_lt.mpr hle)

theorem selected_foldl {k : Nat} (hk : 0 < k) (es : List α) (hr : Ranked cmp r (l ++ es)) (h : Selected r k l heap) :
    Selected r k (l ++ es) (es.foldl (pushBounded cmp k) heap) := by
  induction es generalizing l heap with
  | nil => rwa [append_nil]
  | cons e rest ih =>
    rw [append_cons] at hr ⊢
    exact ih hr (selected_pushBounded hk (fun a ha b hb => hr a (mem_append_left rest ha) b (mem_append_left rest hb)) h)

end

section
variable {ε α β γ : Type} {f f' : α → Except ε β} {g : α → β} {l : List α}

theorem isOk_bind_pure (x : Except ε α) (g : α → β) : (x >>= fun a => pure (g a)).isOk = x.isOk := by
  cases x <;> rfl

theorem isOk_mapM : (l.mapM f).isOk = l.all fun a => (f a).isOk := by
  induction l with
  | nil => rfl
  | cons a rest ih =>
    rw [mapM_cons,all_cons,← ih]
    cases f a with
    | error e => rfl
    | ok b => cases rest.mapM f <;> rfl

theorem mapM_eq_map (h : ∀ a ∈ l, f a = .ok (g a)) : l.mapM f = .ok (l.map g) := by
  induction l with
  | nil => rfl
  | cons a rest ih =>
    rw [mapM_cons,h a mem_cons_self,ih fun b hb => h b (mem_cons_of_mem a hb)]
    rfl

theorem mapM_eq_ok_of_imp (h : ∀ a ∈ l, ∀ b, f a = .ok b → f' a = .ok b) {bs : List β} (hok : l.mapM f = .ok bs) :
    l.mapM f' = .ok bs := by
  induction l generalizing bs with
  | nil => exact hok
  | cons a rest ih =>
    rw [mapM_cons] at hok ⊢
    cases hf : f a with
    | error e =>
      rw [hf] at hok
      cases hok
    | ok b =>
      rw [h a mem_cons_self b hf]
      cases hm : rest.mapM f with
      | error e =>
        rw [hf,hm] at hok
        cases hok
      | ok more =>
        rw [ih (fun c hc => h c (mem_cons_of_mem a hc)) hm]
        rw [hf,hm] at hok
        exact hok

theorem isOk_foldlM (step : γ → β × α → γ) (c : γ) :
    (l.foldlM (fun c a => do return step c (← f a,a)) c).isOk = l.all fun a => (f a).isOk := by
  induction l generalizing c with
  | nil => rfl
  | cons a rest ih =>
    rw [foldlM_cons,all_cons]
    cases f a with
    | error e => rfl
    | ok b => exact ih _

theorem foldlM_eq_foldl (step : γ → β × α → γ) (c : γ) (h : ∀ a ∈ l, f a = .ok (g a)) :
    l.foldlM (fun c a => do return step c (← f a,a)) c = .ok ((l.map fun a => (g a,a)).foldl step c) := by
  induction l generalizing c with
  | nil => rfl
  | cons a rest ih =>
    rw [foldlM_cons,h a mem_cons_self]
    exact ih _ fun b hb => h b (mem_cons_of_mem a hb)

end

section
variable {ev : Evaluator} {cmp : Value → Value → Ordering} {exprs : List LogicalExpr} {asc : List Bool} {k : Nat}
  {rows : List Tuple}

theorem accessKey_cases (ev : Evaluator) (tuple : Tuple) (e : LogicalExpr) :
    (missesColumn ev tuple e ∧ (ev.accessKey tuple (ev.sortKeyAccessor e)).isOk = true ∧
      (ev.evaluate tuple (ev.bind e)).isOk = false) ∨
      (¬missesColumn ev tuple e ∧ ev.accessKey tuple (ev.sortKeyAccessor e) = ev.evaluate tuple (ev.bind e)) := by
  cases e with
  | column table name =>
    rw [Evaluator.sortKeyAccessor,Evaluator.bind,bindColumns,bindColumn,missesColumn]
    cases hi : ev.schema.getQualifiedColumnIndex table name with
    | none => exact .inr ⟨nofun,rfl⟩
    | some index =>
      dsimp only
      rw [Evaluator.accessKey,Evaluator.evaluate]
      cases ht : tuple[index]? with
      | none => exact .inl ⟨⟨index,rfl,getElem?_eq_none_iff.mp ht⟩,rfl,rfl⟩
      | some value =>
        refine .inr ⟨?_,rfl⟩
        rintro ⟨_,⟨⟩,hle⟩
        rw [getElem?_eq_none hle] at ht
        cases ht
  | _ => exact .inr ⟨id,rfl⟩

theorem topKKey_of_sortKey {tuple : Tuple} {key : List Value} (h : ev.sortKey exprs tuple = .ok key) : ev.topKKey exprs tuple = .ok key := by
  refine mapM_eq_ok_of_imp (fun e _ value hv => ?_) h
  obtain ⟨-,-,hf⟩ | ⟨-,he⟩ := accessKey_cases ev tuple e
  · rw [hv] at hf
    cases hf
  · exact he.trans hv

theorem isOk_sortRows : (sortRows ev cmp exprs asc rows).isOk =
    rows.all fun tuple => exprs.all fun e => (ev.evaluate tuple (ev.bind e)).isOk := by
  rw [sortRows,isOk_bind_pure,decorate,isOk_mapM]
  refine congrArg rows.all (funext fun tuple => ?_)
  rw [isOk_bind_pure,Evaluator.sortKey,isOk_mapM]

theorem isOk_topKRows (hk : 0 < k) : (topKRows ev cmp exprs asc k rows).isOk =
    rows.all fun tuple => exprs.all fun e => (ev.accessKey tuple (ev.sortKeyAccessor e)).isOk := by
  rw [topKRows,if_neg hk.ne',isOk_bind_pure,isOk_foldlM (pushBounded (compareEntries cmp asc) k)]
  exact congrArg rows.all (funext fun tuple => isOk_mapM)

theorem topKKey_of_isOk {tuple : Tuple} (h : (ev.topKKey exprs tuple).isOk = true) :
    ev.topKKey exprs tuple = .ok (keyOf ev exprs tuple) := by
  rw [keyOf]
  cases hkey : ev.topKKey exprs tuple with
  | ok key => rfl
  | error e =>
    rw [hkey] at h
    cases h

/-- The rows with the keys that order them. -/
def entriesOf (ev : Evaluator) (exprs : List LogicalExpr) (rows : List Tuple) : List (List Value × Tuple) :=
  rows.map fun tuple => (keyOf ev exprs tuple,tuple)

theorem sortRows_eq {all : List Tuple} (h : sortRows ev cmp exprs asc rows = .ok all) :
    all = (sortBy (compareEntries cmp asc) (entriesOf ev exprs rows)).map (·.2) := by
  have hok : ∀ tuple ∈ rows, ev.sortKey exprs tuple = .ok (keyOf ev exprs tuple) := by
    intro tuple ht
    have hall := @isOk_sortRows ev cmp exprs asc rows
    rw [h] at hall
    have hone := all_eq_true.mp hall.symm tuple ht
    rw [← isOk_mapM,← Evaluator.sortKey] at hone
    cases hkey : ev.sortKey exprs tuple with
    | ok key =>
      rw [keyOf,topKKey_of_sortKey hkey]
      rfl
    | error e =>
      rw [hkey] at hone
      cases hone
  rw [sortRows,decorate,mapM_eq_map (g := fun tuple => (keyOf ev exprs tuple,tuple)) fun tuple ht => by rw [hok tuple ht]; rfl] at h
  exact (Except.ok.inj h).symm

variable {top : List Tuple}

theorem topKRows_eq (hk : 0 < k) (h : topKRows ev cmp exprs asc k rows = .ok top) :
    top = (sortBy (compareEntries cmp asc) ((entriesOf ev exprs rows).foldl (pushBounded (compareEntries cmp asc) k) [])).map (·.2) := by
  have hok : ∀ tuple ∈ rows, ev.topKKey exprs tuple = .ok (keyOf ev exprs tuple) := by
    intro tuple ht
    have hall := @isOk_topKRows ev cmp exprs asc k rows hk
    rw [h] at hall
    exact topKKey_of_isOk (isOk_mapM.trans (all_eq_true.mp hall.symm tuple ht))
  rw [topKRows,if_neg hk.ne',foldlM_eq_foldl _ _ hok] at h
  exact (Except.ok.inj h).symm

variable (h : PreordersOn (compareKeys cmp asc) (rows.map (keyOf ev exprs)))
include h

theorem exists_ranked : ∃ r, Ranked (compareEntries cmp asc) r (entriesOf ev exprs rows) := by
  refine ⟨fun entry => rank (compareKeys cmp asc) (rows.map (keyOf ev exprs)) entry.1,fun a ha b hb => ?_⟩
  have hkey : ∀ entry ∈ entriesOf ev exprs rows, entry.1 ∈ rows.map (keyOf ev exprs) := by
    intro entry he
    obtain ⟨tuple,ht,rfl⟩ := mem_map.mp he
    exact mem_map_of_mem ht
  exact h.cmp_eq_compare_rank (hkey a ha) (hkey b hb)

theorem topK_selects (hk : 0 < k) : ∃ r heap, Ranked (compareEntries cmp asc) r (entriesOf ev exprs rows) ∧
    Selected r k (entriesOf ev exprs rows) heap ∧
    ∀ top, topKRows ev cmp exprs asc k rows = .ok top → top = (sortBy (compareEntries cmp asc) heap).map (·.2) := by
  obtain ⟨r,hr⟩ := exists_ranked h
  have hstart : Selected r k ([] : List (List Value × Tuple)) [] := ⟨[],.refl _,(Nat.min_zero k).symm,nofun⟩
  exact ⟨r,_,hr,selected_foldl hk (entriesOf ev exprs rows) hr hstart,fun _ => topKRows_eq hk⟩

omit h in
theorem key_of_mem_entries {entry : List Value × Tuple} (he : entry ∈ entriesOf ev exprs rows) :
    keyOf ev exprs entry.2 = entry.1 := by
  obtain ⟨tuple,-,rfl⟩ := mem_map.mp he
  rfl

omit h in
theorem map_entriesOf : (entriesOf ev exprs rows).map (·.2) = rows := by
  rw [entriesOf,map_map]
  exact map_id rows

theorem topK_rows (hk : 0 < k) (htop : topKRows ev cmp exprs asc k rows = .ok top) :
    top.length = min k rows.length ∧ top.Subperm rows := by
  obtain ⟨r,heap,-,⟨left,hp,hl,-⟩,heq⟩ := topK_selects h hk
  have hs : (sortBy (compareEntries cmp asc) heap).Perm heap := mergeSort_perm _ _
  rw [heq top htop]
  refine ⟨?_,?_⟩
  · rw [length_map,hs.length_eq,hl,entriesOf,length_map]
  · have hkept : (heap.map (·.2)).Subperm ((heap ++ left).map (·.2)) := ((sublist_append_left heap left).map _).subperm
    have hall := (hs.map (·.2)).subperm.trans (hkept.trans (hp.symm.map (·.2)).subperm)
    rwa [map_entriesOf] at hall

theorem topK_sorted (hk : 0 < k) (htop : topKRows ev cmp exprs asc k rows = .ok top) :
    top.Pairwise fun a b => (compareKeys cmp asc (keyOf ev exprs a) (keyOf ev exprs b)).isLE := by
  obtain ⟨r,heap,hr,⟨left,hp,-⟩,heq⟩ := topK_selects h hk
  have hin : ∀ entry ∈ heap, entry ∈ entriesOf ev exprs rows := fun entry he => hp.mem_iff.mpr (mem_append_left left he)
  have hheap : Ranked (compareEntries cmp asc) r heap := fun a ha b hb => hr a (hin a ha) b (hin b hb)
  have hs := pairwise_mergeSort' (r := (· ≤ ·)) (heap.map r)
  rw [← hheap.map_mergeSort,pairwise_map] at hs
  rw [heq top htop,pairwise_map]
  refine hs.imp_of_mem fun {a b} ha hb hab => ?_
  have ha' := hin a (mem_mergeSort.mp ha)
  have hb' := hin b (mem_mergeSort.mp hb)
  rw [key_of_mem_entries ha',key_of_mem_entries hb']
  exact (hr.isLE_iff ha' hb').mpr hab

theorem topK_keys (hk : 0 < k) {top all : List Tuple} (htop : topKRows ev cmp exprs asc k rows = .ok top)
    (hall : sortRows ev cmp exprs asc rows = .ok all) :
    Forall₂ (fun a b => compareKeys cmp asc (keyOf ev exprs a) (keyOf ev exprs b) = .eq) top (all.take (min k rows.length)) := by
  obtain ⟨r,heap,hr,hsel,heq⟩ := topK_selects h hk
  have hranks := hsel.map_mergeSort hr
  obtain ⟨left,hp,-⟩ := hsel
  rw [entriesOf,length_map,← entriesOf] at hranks
  rw [heq top htop,sortRows_eq hall,← map_take,forall₂_map_left_iff,forall₂_map_right_iff]
  refine forall₂_of_map_eq hranks fun a ha b hb he => ?_
  have ha' := hp.mem_iff.mpr (mem_append_left left (mem_mergeSort.mp ha))
  have hb' := mem_mergeSort.mp (mem_of_mem_take hb)
  rw [key_of_mem_entries ha',key_of_mem_entries hb']
  exact (hr a ha' b hb').trans (compare_eq_iff_eq.mpr he)

end

def oneColumn : Evaluator := .bare [⟨"a",.int4,none,none⟩]

def compareIntegers : Value → Value → Ordering
  | .int4 m, .int4 n => compare m n
  | _, _ => .eq

end HeliosNano.Sql
