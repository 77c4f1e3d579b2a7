import HeliosNano.Sql.Expr
import Mathlib.Algebra.Order.Ring.Int

namespace HeliosNano.Sql
open List Option

structure GenerateSeriesOperator where
  current : Int
  stop : Int
  step : Int
  exhausted : Bool
deriving DecidableEq

namespace GenerateSeriesOperator

/-- A step of zero, or one that leads away from the stop, leaves nothing to return. -/
def new (start stop step : Int) : GenerateSeriesOperator where
  current := start
  stop := stop
  step := step
  exhausted := match cmp step 0 with
    | .eq => true
    | .gt => decide (stop < start)
    | .lt => decide (start < stop)

def next (op : GenerateSeriesOperator) : Option Tuple × GenerateSeriesOperator :=
  if op.exhausted then (none,op)
  else
    let value := op.current
    let current := saturate (op.current+op.step)
    let exhausted :=
      if op.step > 0 ∧ current > op.stop then true
      else if op.step < 0 ∧ current < op.stop then true
      else op.exhausted
    (some [.int8 value],{ op with current := current, exhausted := exhausted })

def after (op : GenerateSeriesOperator) (calls : Nat) : GenerateSeriesOperator := (fun o => o.next.2)^[calls] op

def output (op : GenerateSeriesOperator) (calls : Nat) : Option Tuple := (op.after calls).next.1

end GenerateSeriesOperator

def NotBeyond (stop step v : Int) : Prop := (0 < step → v ≤ stop) ∧ (step < 0 → stop ≤ v)
deriving Decidable

theorem notBeyond_of_pos {stop step v : Int} (h : 0 < step) : NotBeyond stop step v ↔ v ≤ stop := by
  constructor
  · intro hv
    exact hv.1 h
  · intro hv
    exact ⟨fun _ => hv,fun _ => by omega⟩

theorem notBeyond_of_neg {stop step v : Int} (h : step < 0) : NotBeyond stop step v ↔ stop ≤ v := by
  constructor
  · intro hv
    exact hv.2 h
  · intro hv
    exact ⟨fun _ => by omega,fun _ => hv⟩

def seriesLength (start stop step : Int) : Nat :=
  if NotBeyond stop step start then (stop-start).natAbs / step.natAbs+1 else 0

def series (start stop step : Int) : List Int :=
  (List.range (seriesLength start stop step)).map fun i : Nat => start+i*step

section
variable {start stop step : Int}

theorem lt_seriesLength_iff (hsp : step ≠ 0) (n : Nat) :
    n < seriesLength start stop step ↔ NotBeyond stop step (start+n*step) := by
  unfold seriesLength
  have hd : n ≤ (stop-start).natAbs / step.natAbs ↔ n*step.natAbs ≤ (stop-start).natAbs :=
    Nat.le_div_iff_mul_le (by omega)
  rcases lt_or_gt_of_ne hsp with hn | hp
  · have hm : ((n*step.natAbs : Nat) : Int) = -(n*step) := by
      rw [Nat.cast_mul,Int.ofNat_natAbs_of_nonpos hn.le,mul_neg]
    have hle : NotBeyond stop step (start+n*step) ↔ stop ≤ start+n*step := notBeyond_of_neg hn
    have hst : NotBeyond stop step start ↔ stop ≤ start := notBeyond_of_neg hn
    have hsg : (n : Int)*step ≤ 0 := mul_nonpos_of_nonneg_of_nonpos (Int.natCast_nonneg n) hn.le
    rw [hle]
    split
    · next h =>
      have hs := hst.mp h
      omega
    · next h =>
      rw [hst] at h
      omega
  · have hm : ((n*step.natAbs : Nat) : Int) = n*step := by
      rw [Nat.cast_mul,Int.natAbs_of_nonneg hp.le]
    have hle : NotBeyond stop step (start+n*step) ↔ start+n*step ≤ stop := notBeyond_of_pos hp
    have hst : NotBeyond stop step start ↔ start ≤ stop := notBeyond_of_pos hp
    have hsg : 0 ≤ (n : Int)*step := mul_nonneg (Int.natCast_nonneg n) hp.le
    rw [hle]
    split
    · next h =>
      have hs := hst.mp h
      omega
    · next h =>
      rw [hst] at h
      omega

theorem getElem?_series (hs : step ≠ 0) (n : Nat) :
    (series start stop step)[n]? = if NotBeyond stop step (start+n*step) then some (start+n*step) else none := by
  unfold series
  rw [getElem?_map]
  split
  · next h =>
    rw [getElem?_range ((lt_seriesLength_iff hs n).mpr h)]
    rfl
  · next h =>
    have : seriesLength start stop step ≤ n := Nat.le_of_not_lt fun hlt => h ((lt_seriesLength_iff hs n).mp hlt)
    rw [getElem?_eq_none (by simpa using this)]
    rfl

end

namespace GenerateSeriesOperator
variable {start stop step : Int}

/-- The operator before it returns the given value. -/
def holding (stop step v : Int) : GenerateSeriesOperator := ⟨v,stop,step,decide ¬ NotBeyond stop step v⟩

theorem new_eq (hs : step ≠ 0) : new start stop step = holding stop step start := by
  unfold new holding
  congr 1
  rcases lt_or_gt_of_ne hs with hn | hp
  · rw [(cmp_eq_lt_iff step 0).mpr hn,decide_eq_decide,notBeyond_of_neg hn,not_le]
  · rw [(cmp_eq_gt_iff step 0).mpr hp,decide_eq_decide,notBeyond_of_pos hp,not_le]

theorem next_holding {v : Int} (h : NotBeyond stop step v) :
    (holding stop step v).next = (some [.int8 v],holding stop step (saturate (v+step))) := by
  have ha : (if step > 0 ∧ saturate (v+step) > stop then true
      else if step < 0 ∧ saturate (v+step) < stop then true else decide ¬ NotBeyond stop step v) =
        decide ¬ NotBeyond stop step (saturate (v+step)) := by
    rw [decide_eq_false (not_not_intro h)]
    unfold NotBeyond
    split
    · next hup => rw [decide_eq_true (by omega)]
    next hup =>
    split
    · next hd => rw [decide_eq_true (by omega)]
    · next hd => rw [decide_eq_false (by omega)]
  unfold next
  rw [if_neg (by simpa [holding] using h)]
  exact congrArg (fun exhausted => (some [Value.int8 v],
    (⟨saturate (v+step),stop,step,exhausted⟩ : GenerateSeriesOperator))) ha

theorem after_succ (op : GenerateSeriesOperator) (n : Nat) : op.after (n+1) = (op.after n).next.2 :=
  Function.iterate_succ_apply' ..

theorem next_of_exhausted {op : GenerateSeriesOperator} (h : op.exhausted = true) : op.next = (none,op) := by
  unfold next
  rw [if_pos h]

/-- The stop lies before the limit that the advance saturates at. -/
def StopInside (stop step : Int) : Prop := (0 < step → stop ≠ i64Max) ∧ (step < 0 → stop ≠ i64Min)
deriving Decidable

theorem saturate_advance (hsa : IsI64 start) (hst : IsI64 stop) (hs : step ≠ 0) (hi : StopInside stop step)
    (n : Nat) : (NotBeyond stop step (saturate (start+n*step+step)) ↔ NotBeyond stop step (start+n*step+step)) ∧
      (NotBeyond stop step (start+n*step+step) → saturate (start+n*step+step) = start+n*step+step) := by
  obtain ⟨hl,hh⟩ := hsa
  obtain ⟨hsl,hsh⟩ := hst
  obtain ⟨hm,hmn⟩ := hi
  unfold saturate
  rcases lt_or_gt_of_ne hs with hn | hp
  · rw [notBeyond_of_neg hn,notBeyond_of_neg hn]
    have hd : (n : Int)*step ≤ 0 := mul_nonpos_of_nonneg_of_nonpos (Int.natCast_nonneg n) hn.le
    have hne := hmn hn
    omega
  · rw [notBeyond_of_pos hp,notBeyond_of_pos hp]
    have hup : 0 ≤ (n : Int)*step := mul_nonneg (Int.natCast_nonneg n) hp.le
    have hne := hm hp
    omega

theorem notBeyond_of_succ (hs : step ≠ 0) {n : Nat} (h : NotBeyond stop step (start+(n+1 : Nat)*step)) :
    NotBeyond stop step (start+n*step) :=
  (lt_seriesLength_iff hs n).mp (Nat.lt_of_succ_lt ((lt_seriesLength_iff hs (n+1)).mpr h))

theorem after_new (hsa : IsI64 start) (hsp : IsI64 stop) (hst : step ≠ 0) (hin : StopInside stop step) (n : Nat) :
    (NotBeyond stop step (start+n*step) → (new start stop step).after n = holding stop step (start+n*step)) ∧
      (¬ NotBeyond stop step (start+n*step) → ((new start stop step).after n).exhausted = true) := by
  induction n with
  | zero =>
    have hz : (new start stop step).after 0 = holding stop step start := new_eq hst
    rw [hz,Nat.cast_zero,zero_mul,add_zero]
    constructor
    · intro _
      rfl
    · intro h
      exact decide_eq_true h
  | succ n ih =>
    have hv : start+(n+1 : Nat)*step = start+n*step+step := by
      rw [Nat.cast_succ,add_mul,one_mul,add_assoc]
    rw [after_succ]
    by_cases h : NotBeyond stop step (start+n*step)
    · obtain ⟨hi,hexact⟩ := saturate_advance hsa hsp hst hin n
      rw [ih.1 h,next_holding h,hv]
      constructor
      · intro hn
        rw [hexact hn]
      · intro hn
        exact decide_eq_true fun hs => hn (hi.mp hs)
    · have hex := ih.2 h
      rw [next_of_exhausted hex]
      constructor
      · intro hn
        exact absurd (notBeyond_of_succ hst hn) h
      · intro _
        exact hex

theorem notBeyond_start (hs : step ≠ 0) {n : Nat} (h : NotBeyond stop step (start+n*step)) : NotBeyond stop step start := by
  induction n with
  | zero => simpa using h
  | succ n ih => exact ih (notBeyond_of_succ hs h)

theorem after_new_of_beyond (hs : step ≠ 0) (h : ¬ NotBeyond stop step start) (n : Nat) :
    ((new start stop step).after n).exhausted = true := by
  induction n with
  | zero =>
    have hz : (new start stop step).after 0 = holding stop step start := new_eq hs
    rw [hz]
    exact decide_eq_true h
  | succ n ih => rw [after_succ,next_of_exhausted ih,ih]

theorem saturate_notBeyond (hi : ¬ StopInside stop step) (w : Int) : NotBeyond stop step (saturate w) := by
  unfold StopInside at hi
  unfold NotBeyond saturate
  have hle : i64Min ≤ i64Max := by decide
  constructor
  · intro hp
    have : stop = i64Max := by
      by_contra hne
      exact hi ⟨fun _ => hne,fun hn => by omega⟩
    omega
  · intro hn
    have : stop = i64Min := by
      by_contra hne
      exact hi ⟨fun hp => by omega,fun _ => hne⟩
    omega

theorem after_new_of_limit (hs : step ≠ 0) (hi : ¬ StopInside stop step) (h : NotBeyond stop step start)
    (n : Nat) : ∃ v, NotBeyond stop step v ∧ (new start stop step).after n = holding stop step v := by
  induction n with
  | zero => exact ⟨start,h,new_eq hs⟩
  | succ n ih =>
    obtain ⟨v,hv,ha⟩ := ih
    refine ⟨saturate (v+step),saturate_notBeyond hi _,?_⟩
    rw [after_succ,ha,next_holding hv]

end GenerateSeriesOperator

/-- The calls return the series, value by value, and nothing afterwards, unless the series is
not empty and its stop is the limit of the integers: there the advance never passes the stop. -/
theorem generate_series_exact_iff (start stop step : Int) (hstart : IsI64 start) (hstop : IsI64 stop)
    (hstep : IsI64 step ∧ step ≠ 0) : (∀ n, (GenerateSeriesOperator.new start stop step).output n =
        ((series start stop step)[n]?).map fun v => [.int8 v]) ↔
      (NotBeyond stop step start → GenerateSeriesOperator.StopInside stop step) := by
  constructor
  · intro hexact hbegin
    by_contra hinside
    obtain ⟨v,hv,hafter⟩ :=
      GenerateSeriesOperator.after_new_of_limit hstep.2 hinside hbegin (seriesLength start stop step)
    have hend := hexact (seriesLength start stop step)
    rw [GenerateSeriesOperator.output,hafter,GenerateSeriesOperator.next_holding hv,
      getElem?_series hstep.2,if_neg fun hlt => absurd ((lt_seriesLength_iff hstep.2 _).mpr hlt) (lt_irrefl _)] at hend
    cases hend
  · intro hinside n
    rw [getElem?_series hstep.2,GenerateSeriesOperator.output]
    by_cases hbegin : NotBeyond stop step start
    · have hafter := GenerateSeriesOperator.after_new hstart hstop hstep.2 (hinside hbegin) n
      split
      · next h => rw [hafter.1 h,GenerateSeriesOperator.next_holding h,map_some]
      · next h => rw [GenerateSeriesOperator.next_of_exhausted (hafter.2 h),map_none]
    · rw [GenerateSeriesOperator.next_of_exhausted (GenerateSeriesOperator.after_new_of_beyond hstep.2 hbegin n),
        if_neg fun h => hbegin (GenerateSeriesOperator.notBeyond_start hstep.2 h),map_none]

theorem generate_series_exact_iff_countdown :
    (GenerateSeriesOperator.new 5 1 (-2)).output 1 = ((series 5 1 (-2))[1]?).map fun v => [.int8 v] :=
  (generate_series_exact_iff 5 1 (-2) (by decide) (by decide) (by decide)).mpr (fun _ => by decide) 1

example : series 5 1 (-2) = [5,3,1] := by decide

/-- Up to the largest integer the last value comes again, and one that the series lacks comes too. -/
theorem generate_series_repeats_limit : (¬ ∀ n, (GenerateSeriesOperator.new (i64Max-1) i64Max 3).output n =
        ((series (i64Max-1) i64Max 3)[n]?).map fun v => [.int8 v]) ∧ series (i64Max-1) i64Max 3 = [i64Max-1] ∧
      (GenerateSeriesOperator.new (i64Max-1) i64Max 3).output 1 = some [.int8 i64Max] ∧
      (GenerateSeriesOperator.new (i64Max-1) i64Max 3).output 2 = some [.int8 i64Max] := by
  refine ⟨?_,by decide,by decide,by decide⟩
  intro h
  exact absurd (h 1) (by decide)

end HeliosNano.Sql
