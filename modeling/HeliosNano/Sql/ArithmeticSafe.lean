import HeliosNano.Sql.Arithmetic
import Mathlib.Algebra.Order.Group.Int

namespace HeliosNano.Sql
open Option ArithOp

def intValue : Value → Option Int
  | .int2 n | .int4 n | .int8 n => some n
  | _ => none

def NoPanic (o : Outcome Value) : Prop := o ≠ .error .panic

variable {a b : Int}

theorem natAbs_exact_le (op : ArithOp) {m : Nat} (hm : 2 ≤ m) (ha : a.natAbs ≤ m) (hb : b.natAbs ≤ m) :
    (op.exact a b).natAbs ≤ m*m := by
  have htw : 2*m ≤ m*m := Nat.mul_le_mul_right m hm
  cases op with
  | add =>
    have hle : (a+b).natAbs ≤ a.natAbs+b.natAbs := Int.natAbs_add_le a b
    simp only [exact]
    omega
  | sub =>
    have hle : (a-b).natAbs ≤ a.natAbs+b.natAbs := Int.natAbs_sub_le a b
    simp only [exact]
    omega
  | mul =>
    rw [exact,Int.natAbs_mul]
    exact Nat.mul_le_mul ha hb
  | div =>
    have hle : a.natAbs.div b.natAbs ≤ a.natAbs := Nat.div_le_self _ _
    rw [exact,Int.natAbs_tdiv]
    omega

variable {op : ArithOp} {arm : IntArm} {r l : Value}

theorem unchecked_eq {InType : Int → Prop} [DecidablePred InType]
    (hz : op = .div → b ≠ 0) (hf : InType (op.exact a b)) : op.unchecked InType a b = .ok (op.exact a b) := by
  unfold unchecked
  rw [if_neg fun h => hz h.1 h.2,if_pos hf]

theorem intArm_cases (hl : l.WellTyped) (hr : r.WellTyped) (h : intArm l r = some (arm,a,b)) :
    intValue l = some a ∧ intValue r = some b ∧
      (arm = .narrow16 → IsI16 a ∧ IsI16 b) ∧ (arm = .narrow32 → IsI32 a ∧ IsI32 b) := by
  have hw : ∀ n, IsI16 n → IsI32 n := by
    rintro n ⟨hlw,hh⟩
    exact ⟨by omega,by omega⟩
  unfold intArm at h
  split at h
  · cases h
    exact ⟨rfl,rfl,fun _ => ⟨hl,hr⟩,nofun⟩
  · cases h
    exact ⟨rfl,rfl,nofun,fun _ => ⟨hl,hr⟩⟩
  · cases h
    exact ⟨rfl,rfl,nofun,fun _ => ⟨hw _ hl,hr⟩⟩
  · cases h
    exact ⟨rfl,rfl,nofun,fun _ => ⟨hl,hw _ hr⟩⟩
  -- the checked arms ask for nothing
  all_goals
    cases h
    try exact ⟨rfl,rfl,nofun,nofun⟩

/-- Sums, differences, products and quotients of `INT`s are computed in `i64`. -/
def narrowed (result : Int) : Value := if IsI32 result then .int4 result else .int8 result

theorem onIntegers_narrow32 {op : ArithOp} {a b : Int} (ha : IsI32 a) (hb : IsI32 b) (hz : op = .div → b ≠ 0) :
    op.onIntegers .narrow32 a b = .ok (narrowed (op.exact a b)) := by
  obtain ⟨ha,ha'⟩ := ha
  obtain ⟨hb,hb'⟩ := hb
  have hbd := natAbs_exact_le op (a := a) (b := b) (m := 2147483648) (by decide) (by omega) (by omega)
  have hf : IsI64 (op.exact a b) := by
    unfold IsI64 i64Min i64Max
    omega
  rw [onIntegers,unchecked_eq hz hf]
  rfl

theorem onIntegers_spec (hl : l.WellTyped) (hr : r.WellTyped) (har : intArm l r = some (arm,a,b)) (hz : op = .div → b ≠ 0) :
    NoPanic (op.onIntegers arm a b) ∧ ∀ v, op.onIntegers arm a b = .ok v → intValue v = some (op.exact a b) := by
  obtain ⟨-,-,h16,h32⟩ := intArm_cases hl hr har
  cases arm with
  | narrow16 =>
    obtain ⟨⟨ha,ha'⟩,hb,hb'⟩ := h16 rfl
    have hbd := natAbs_exact_le op (a := a) (b := b) (m := 32768) (by decide) (by omega) (by omega)
    have hf : IsI32 (op.exact a b) := ⟨by omega,by omega⟩
    rw [onIntegers,unchecked_eq hz hf]
    constructor
    · rintro ⟨⟩
    · rintro v ⟨⟩
      split <;> rfl
  | narrow32 =>
    obtain ⟨ha,hb⟩ := h32 rfl
    rw [onIntegers_narrow32 ha hb hz,narrowed]
    constructor
    · rintro ⟨⟩
    · rintro v ⟨⟩
      split <;> rfl
  | checked64 =>
    rw [onIntegers]
    unfold checked
    split
    · next n hn =>
      split at hn
      · cases hn
      split at hn
      · cases hn
        exact ⟨nofun,by rintro v ⟨⟩; rfl⟩
      · cases hn
    · exact ⟨nofun,nofun⟩

/-! The conditions under which the other crates panic. -/

namespace Arithmetic
variable (ar : Arithmetic)

/-- Two finite decimals whose result the decimal crate cannot hold. -/
def DecimalOverflow (op : ArithOp) (l r : Value) : Prop :=
  isSpecialNumeric l = false ∧ isSpecialNumeric r = false ∧
    ∃ x y, ar.decimalArm l r = some (.ok x,.ok y) ∧ ar.crate.checked op x y = none

/-- A date or timestamp that would leave the calendar, or two dates whose distance no interval holds. -/
def TemporalOverflow (op : ArithOp) (l r : Value) : Prop :=
  match op, l, r with
  | .add, .timestamp ts, .other i | .add, .other i, .timestamp ts =>
    ∃ micros, ar.interval i = some micros ∧ ar.timestampInRange (ts+micros*1000) = false
  | .add, .date d, .other i | .add, .other i, .date d =>
    ∃ micros, ar.interval i = some micros ∧ ar.dateInRange (d + micros.tdiv microsPerDay) = false
  | .sub, .timestamp ts, .other i =>
    ∃ micros, ar.interval i = some micros ∧ ar.timestampInRange (ts-micros * 1000) = false
  | .sub, .date d, .other i =>
    ∃ micros, ar.interval i = some micros ∧ ar.dateInRange (d - micros.tdiv microsPerDay) = false
  | .sub, .date a, .date b => ¬ IsI64 ((a-b)*microsPerDay)
  | _, _, _ => False

def Overflows (op : Operator) (l r : Value) : Prop :=
  match op with
  | .plus => ar.DecimalOverflow .add l r ∨ ar.TemporalOverflow .add l r
  | .minus => ar.DecimalOverflow .sub l r ∨ ar.TemporalOverflow .sub l r
  | .multiply => ar.DecimalOverflow .mul l r
  | .divide => ar.isZero r = false ∧ ar.DecimalOverflow .div l r
  | .modulo => False

section
variable {ar} {op : ArithOp} {l r : Value}

theorem parseNumeric_ne_panic (payload : Text) : ar.parseNumeric payload ≠ .error .panic := by
  unfold parseNumeric
  split <;> rintro ⟨⟩

variable {payload : Text} {d : ar.crate.Decimal} {n days : Int} {i : Nat} {b a : Int} {InType : Int → Prop} {wrap : Int → Value}
  {typeName : String}

theorem parse_of_parseNumeric (h : ar.parseNumeric payload = .ok d) : ar.crate.parse payload = .ok d := by
  unfold parseNumeric at h
  split at h
  · next hp =>
    cases h
    exact hp
  · cases h

theorem arithOperand_of_parse (h : ar.parseNumeric payload = .ok d) :
    (arithOperand ar.crate (.numeric payload)).isSome = true := by
  simp only [arithOperand,parse_of_parseNumeric h]
  cases specialOf payload <;> rfl

variable {x y : ar.crate.Decimal} {temporal : Value → Value → Option (Outcome Value)}

theorem arithOperand_of_decimalArm (h : ar.decimalArm l r = some (.ok x,.ok y)) :
    (arithOperand ar.crate l).isSome = true ∧ (arithOperand ar.crate r).isSome = true := by
  unfold decimalArm at h
  split at h
  · obtain ⟨hx,hy⟩ := Prod.mk.inj (Option.some.inj h)
    exact ⟨arithOperand_of_parse hx,arithOperand_of_parse hy⟩
  · exact ⟨arithOperand_of_parse (Prod.mk.inj (Option.some.inj h)).1,rfl⟩
  · exact ⟨arithOperand_of_parse (Prod.mk.inj (Option.some.inj h)).1,rfl⟩
  · exact ⟨rfl,arithOperand_of_parse (Prod.mk.inj (Option.some.inj h)).2⟩
  · exact ⟨rfl,arithOperand_of_parse (Prod.mk.inj (Option.some.inj h)).2⟩
  · cases h

theorem specialArith_of_finite (hl : isSpecialNumeric l = false) (hr : isSpecialNumeric r = false) :
    specialArith ar.crate op l r = .ok none := by
  unfold specialArith
  rw [hl,hr]
  rfl

theorem finite_of_specialArith (h : specialArith ar.crate op l r = .ok none)
    (har : ar.decimalArm l r = some (.ok x,.ok y)) : isSpecialNumeric l = false ∧ isSpecialNumeric r = false := by
  obtain ⟨hl,hr⟩ := arithOperand_of_decimalArm har
  obtain ⟨a,ha⟩ := isSome_iff_exists.mp hl
  obtain ⟨b,hb⟩ := isSome_iff_exists.mp hr
  rw [← Bool.or_eq_false_iff]
  by_contra hs
  rw [specialArith,if_pos (Bool.eq_true_of_not_eq_false hs),ha,hb] at h
  simp only at h
  cases hc : computeSpecial op a b with
  | error e | ok v =>
    rw [hc] at h
    cases h

/-- The arms for times take no operand of the arms before them. -/
def Apart (ar : Arithmetic) (temporal : Value → Value → Option (Outcome Value)) : Prop :=
  ∀ l r o, temporal l r = some o → l ≠ .null ∧ r ≠ .null ∧ intArm l r = none ∧ ar.decimalArm l r = none ∧
    isSpecialNumeric l = false ∧ isSpecialNumeric r = false

theorem apart_temporalAdd : Apart ar ar.temporalAdd := by
  intro l r o h
  unfold temporalAdd at h
  split at h
  case h_6 => cases h
  all_goals exact ⟨nofun,nofun,rfl,rfl,rfl,rfl⟩

theorem apart_temporalSubtract : Apart ar ar.temporalSubtract := by
  intro l r o h
  unfold temporalSubtract at h
  split at h
  case h_6 => cases h
  all_goals exact ⟨nofun,nofun,rfl,rfl,rfl,rfl⟩

theorem onDecimals_noPanic_iff : NoPanic (ar.onDecimals op x y) ↔ ar.crate.checked op x y ≠ none := by
  unfold onDecimals NoPanic
  cases ar.crate.checked op x y with
  | none | some d => simp

theorem ofResult_ne_panic (r : Result) : NoPanic (Outcome.ofResult r) := by
  cases r with
  | error e | ok v => rintro ⟨⟩

theorem isZero_of_intValue (h : intValue r = some n) : ar.isZero r = decide (n = 0) := by
  cases r <;> cases h <;> rfl

theorem decimalArm_of_intArm (h : intArm l r ≠ none) : ar.decimalArm l r = none := by
  unfold intArm at h
  split at h
  all_goals first | rfl | exact absurd rfl h

theorem quiet_of_special (ha : Apart ar temporal) (hs : specialArith ar.crate op l r ≠ .ok none) :
    ¬ ar.DecimalOverflow op l r ∧ temporal l r ≠ some (.error .panic) := by
  constructor
  · rintro ⟨hl,hr,-⟩
    exact hs (specialArith_of_finite hl hr)
  · intro h
    obtain ⟨-,-,-,-,hl,hr⟩ := ha l r _ h
    exact hs (specialArith_of_finite hl hr)

theorem quiet_of_intArm (hap : Apart ar temporal)
    (ha : intArm l r ≠ none) : ¬ ar.DecimalOverflow op l r ∧ temporal l r ≠ some (.error .panic) := by
  constructor
  · rintro ⟨-,-,x,y,h,-⟩
    rw [decimalArm_of_intArm ha] at h
    cases h
  · intro h
    exact ha (hap l r _ h).2.2.1

theorem quiet_of_null (ha : Apart ar temporal)
    (hn : l = .null ∨ r = .null) : ¬ ar.DecimalOverflow op l r ∧ temporal l r ≠ some (.error .panic) := by
  constructor
  · rintro ⟨-,-,x,y,h,-⟩
    rcases hn with rfl | rfl
    · cases h
    · cases l <;> cases h
  · intro h
    obtain ⟨hl,hr,-⟩ := ha l r _ h
    rcases hn with hn | hn
    · exact hl hn
    · exact hr hn

theorem decimals_noPanic_iff {a b : Outcome ar.crate.Decimal} (ha : ar.decimalArm l r = some (a,b)) : NoPanic (do
      let x ← a
      let y ← b
      ar.onDecimals op x y) ↔ ∀ x y, a = .ok x → b = .ok y → ar.crate.checked op x y ≠ none := by
  have hqt : a ≠ .error .panic ∧ b ≠ .error .panic := by
    unfold decimalArm at ha
    split at ha
    case h_6 => cases ha
    all_goals
      cases ha
      refine ⟨?_,?_⟩ <;> first | exact parseNumeric_ne_panic _ | rintro ⟨⟩
  cases a with
  | error e =>
    constructor
    · rintro - x y ⟨⟩
    · intro _ h
      have hp : (.error e : Outcome Value) = .error .panic := h
      cases hp
      exact hqt.1 rfl
  | ok x =>
    cases b with
    | error e =>
      constructor
      · rintro - x y - ⟨⟩
      · intro _ h
        have hp : (.error e : Outcome Value) = .error .panic := h
        cases hp
        exact hqt.2 rfl
    | ok y =>
      have hb : (do
          let x ← (.ok x : Outcome ar.crate.Decimal)
          let y ← (.ok y : Outcome ar.crate.Decimal)
          ar.onDecimals op x y) = ar.onDecimals op x y := rfl
      rw [hb,onDecimals_noPanic_iff]
      constructor
      · rintro h _ _ ⟨⟩ ⟨⟩
        exact h
      · intro h
        exact h x y rfl rfl

theorem arithmetic_noPanic_iff (hl : l.WellTyped)
    (hr : r.WellTyped) (hz : op = .div → ar.isZero r = false) (ha : Apart ar temporal) :
    NoPanic (ar.arithmetic op temporal l r) ↔ ¬ ar.DecimalOverflow op l r ∧ temporal l r ≠ some (.error .panic) := by
  unfold arithmetic
  split
  · next hnl => exact iff_of_true nofun (quiet_of_null ha hnl)
  next hnl =>
  cases hs : specialArith ar.crate op l r with
  | error e => exact iff_of_true nofun (quiet_of_special ha (by rw [hs]; rintro ⟨⟩))
  | ok result =>
    cases result with
    | some v => exact iff_of_true nofun (quiet_of_special ha (by rw [hs]; rintro ⟨⟩))
    | none =>
      cases har : intArm l r with
      | some triple =>
        obtain ⟨arm,a,b⟩ := triple
        have hb : op = .div → b ≠ 0 := by
          intro hop hb
          have hnt := hz hop
          rw [isZero_of_intValue (intArm_cases hl hr har).2.1,decide_eq_false_iff_not] at hnt
          exact hnt hb
        exact iff_of_true (onIntegers_spec hl hr har hb).1 (quiet_of_intArm ha (by rw [har]; rintro ⟨⟩))
      | none =>
        cases hd : ar.decimalArm l r with
        | some pair =>
          obtain ⟨a,b⟩ := pair
          have htm : temporal l r ≠ some (.error .panic) := by
            intro h
            have hn := (ha l r _ h).2.2.2.1
            rw [hd] at hn
            cases hn
          simp only [decimals_noPanic_iff hd,ne_eq,htm,not_false_eq_true,and_true]
          constructor
          · rintro h ⟨-,-,x,y,hxy,hn⟩
            rw [hd] at hxy
            cases hxy
            exact h x y rfl rfl hn
          · rintro h x y rfl rfl hn
            obtain ⟨hlf,hrf⟩ := finite_of_specialArith hs hd
            exact h ⟨hlf,hrf,x,y,hd,hn⟩
        | none =>
          have hf : ¬ ar.DecimalOverflow op l r := by
            rintro ⟨-,-,x,y,h,-⟩
            rw [hd] at h
            cases h
          cases htm : temporal l r with
          | some outcome => simp only [NoPanic,hf,not_false_eq_true,true_and,ne_eq,some.injEq]
          | none =>
            refine iff_of_true ?_ ⟨hf,nofun⟩
            cases ar.floatArith op l r with
            | none => rintro ⟨⟩
            | some res => exact ofResult_ne_panic res

theorem shiftTimestamp_panics_iff {ts micros : Int} :
    ar.shiftTimestamp ts micros = .error .panic ↔ ar.timestampInRange (ts+micros*1000) = false := by
  unfold shiftTimestamp
  split
  · next h => simp [h]
  · next h => simpa using h

theorem shiftDate_panics_iff {d : Int} : ar.shiftDate d days = .error .panic ↔ ar.dateInRange (d+days) = false := by
  unfold shiftDate
  split
  · next h => simp [h]
  · next h => simpa using h

theorem intervalOfMicros_noPanic (micros : Int) : NoPanic (ar.intervalOfMicros micros) := by
  unfold intervalOfMicros
  split <;> rintro ⟨⟩

theorem map_interval_panics_iff {f : Int → Outcome Value} :
    (ar.interval i).map f = some (.error .panic) ↔ ∃ micros, ar.interval i = some micros ∧ f micros = .error .panic := by
  rw [map_eq_some_iff]

theorem two_intervals_noPanic {j : Nat} {f : Int → Int → Int} : (match ar.interval i, ar.interval j with
      | some a, some b => some (ar.intervalOfMicros (f a b)) | _, _ => none) ≠ some (.error .panic) := by
  cases ar.interval i with
  | none => rintro ⟨⟩
  | some a =>
    cases ar.interval j with
    | none => rintro ⟨⟩
    | some b =>
      intro h
      exact intervalOfMicros_noPanic (f a b) (Option.some.inj h)

theorem temporalAdd_panics_iff : ar.temporalAdd l r = some (.error .panic) ↔ ar.TemporalOverflow .add l r := by
  unfold temporalAdd
  split
  · simp only [map_interval_panics_iff,shiftTimestamp_panics_iff,TemporalOverflow]
  · simp only [map_interval_panics_iff,shiftTimestamp_panics_iff,TemporalOverflow]
  · simp only [map_interval_panics_iff,shiftDate_panics_iff,TemporalOverflow]
  · simp only [map_interval_panics_iff,shiftDate_panics_iff,TemporalOverflow]
  · exact iff_of_false two_intervals_noPanic nofun
  next h1 h2 h3 h4 h5 =>
  refine iff_of_false nofun ?_
  unfold TemporalOverflow
  split
  · exact (h1 _ _ rfl rfl).elim
  · exact (h2 _ _ rfl rfl).elim
  · exact (h3 _ _ rfl rfl).elim
  · exact (h4 _ _ rfl rfl).elim
  · next hop => cases hop
  · next hop => cases hop
  · next hop => cases hop
  · exact not_false

theorem dateDifference_panics_iff {days : Int} : (do
      let micros ← mul.unchecked IsI64 days microsPerDay
      return .other (ar.ofInterval micros) : Outcome Value) = .error .panic ↔ ¬ IsI64 (days*microsPerDay) := by
  unfold unchecked
  rw [if_neg (by simp)]
  split
  · next h => exact iff_of_false nofun (not_not_intro h)
  · next h => exact iff_of_true rfl h

theorem temporalSubtract_panics_iff : ar.temporalSubtract l r = some (.error .panic) ↔ ar.TemporalOverflow .sub l r := by
  unfold temporalSubtract
  split
  · simp only [map_interval_panics_iff,shiftTimestamp_panics_iff,TemporalOverflow,neg_mul,sub_eq_add_neg]
  · simp only [map_interval_panics_iff,shiftDate_panics_iff,TemporalOverflow,sub_eq_add_neg]
  · exact iff_of_false nofun nofun
  · rw [some.injEq,dateDifference_panics_iff]
    rfl
  · exact iff_of_false two_intervals_noPanic nofun
  next h1 h2 h3 h4 h5 =>
  refine iff_of_false nofun ?_
  unfold TemporalOverflow
  split
  · next hop => cases hop
  · next hop => cases hop
  · next hop => cases hop
  · next hop => cases hop
  · exact (h1 _ _ rfl rfl).elim
  · exact (h2 _ _ rfl rfl).elim
  · exact (h4 _ _ rfl rfl).elim
  · exact not_false

def IntegersExact (exact : Int → Int → Int) (l r : Value) (o : Outcome Value) : Prop :=
  ∀ a b v, intValue l = some a → intValue r = some b → o = .ok v → intValue v = some (exact a b)

theorem intArm_of_intValue (ha : intValue l = some a) (hb : intValue r = some b) : ∃ arm, intArm l r = some (arm,a,b) := by
  cases l <;> cases ha <;> cases r <;> cases hb <;> exact ⟨_,rfl⟩

theorem arithmetic_exact (hl : l.WellTyped) (hr : r.WellTyped)
    (hz : op = .div → ar.isZero r = false) : IntegersExact op.exact l r (ar.arithmetic op temporal l r) := by
  intro a b v ha hb h
  obtain ⟨arm,har⟩ := intArm_of_intValue ha hb
  have hnl : ¬ (l = .null ∨ r = .null) := by
    rintro (rfl | rfl)
    · cases ha
    · cases hb
  have hs : specialArith ar.crate op l r = .ok none := by
    apply specialArith_of_finite
    · cases l <;> cases ha <;> rfl
    · cases r <;> cases hb <;> rfl
  have hb0 : op = .div → b ≠ 0 := by
    intro hop h0
    have hn := hz hop
    rw [isZero_of_intValue hb,decide_eq_false_iff_not] at hn
    exact hn h0
  rw [arithmetic,if_neg hnl,hs] at h
  simp only [har] at h
  exact (onIntegers_spec hl hr har hb0).2 v h

theorem remainder_spec [DecidablePred InType] (hw : ∀ n, intValue (wrap n) = some n) :
    NoPanic (remainder InType wrap typeName a b) ∧
      ∀ v, remainder InType wrap typeName a b = .ok v → intValue v = some (a.tmod b) := by
  unfold remainder
  split
  · exact ⟨nofun,nofun⟩
  split
  · refine ⟨nofun,?_⟩
    rintro v ⟨⟩
    exact hw _
  · exact ⟨nofun,nofun⟩

theorem arithmeticModulo_spec : NoPanic (ar.arithmeticModulo l r) ∧ IntegersExact Int.tmod l r (ar.arithmeticModulo l r) := by
  unfold arithmeticModulo
  split
  · next hn =>
    refine ⟨nofun,?_⟩
    rintro a b v ha hb ⟨⟩
    rcases hn with rfl | rfl
    · cases ha
    · cases hb
  · split
    case h_6 =>
      refine ⟨nofun,?_⟩
      rintro a b v - - ⟨⟩
    all_goals
      refine ⟨(remainder_spec fun _ => rfl).1,?_⟩
      rintro a b v ⟨⟩ ⟨⟩ h
      exact (remainder_spec fun _ => rfl).2 v h

theorem negate_spec [DecidablePred InType] (hw : ∀ m, intValue (wrap m) = some m) :
    NoPanic (negate InType wrap typeName n) ∧ ∀ v, negate InType wrap typeName n = .ok v → intValue v = some (-n) := by
  unfold negate
  split
  · refine ⟨nofun,?_⟩
    rintro v ⟨⟩
    exact hw _
  · exact ⟨nofun,nofun⟩

theorem evaluateUnaryOp_spec (op : UnaryOperator) (value : Value) : NoPanic (ar.evaluateUnaryOp op value) ∧
      ∀ n v, intValue value = some n → ar.evaluateUnaryOp .minus value = .ok v → intValue v = some (-n) := by
  constructor
  · cases op with
    | not =>
      cases value with
      | null | boolean b => rintro ⟨⟩
      | _ => rintro ⟨⟩
    | plus => rintro ⟨⟩
    | minus =>
      cases value with
      | int2 n | int4 n | int8 n => exact (negate_spec fun _ => rfl).1
      | other code =>
        simp only [evaluateUnaryOp]
        cases ar.floatNegate code <;> rintro ⟨⟩
      | _ => rintro ⟨⟩
  · intro n v hn h
    cases value with
    | int2 m | int4 m | int8 m =>
      cases hn
      exact (negate_spec fun _ => rfl).2 v h
    | _ => cases hn

end

def Operator.exact : Operator → Int → Int → Int
  | .plus => add.exact
  | .minus => sub.exact
  | .multiply => mul.exact
  | .divide => div.exact
  | .modulo => Int.tmod

theorem apart_none : Apart ar fun _ _ => none := by
  rintro l r o ⟨⟩

variable {r l : Value}

theorem divide_noPanic_iff (hl : l.WellTyped) (hr : r.WellTyped) :
    NoPanic (ar.evaluateBinaryOp l .divide r) ↔ ¬ ar.Overflows .divide l r := by
  simp only [evaluateBinaryOp,Overflows]
  split
  · next hnl => exact iff_of_true (by rintro ⟨⟩) fun h => (quiet_of_null (ar.apart_none) hnl).1 h.2
  split
  · next hz => exact iff_of_true (by rintro ⟨⟩) (by rintro ⟨h,-⟩; rw [hz] at h; cases h)
  next hz =>
  have hn : ar.isZero r = false := by simpa using hz
  rw [arithmeticDivide,arithmetic_noPanic_iff hl hr (fun _ => hn) ar.apart_none]
  simp [hn]

theorem evaluateBinaryOp_exact {op : Operator} (hl : l.WellTyped) (hr : r.WellTyped) :
    IntegersExact op.exact l r (ar.evaluateBinaryOp l op r) := by
  cases op with
  | plus | minus => exact arithmetic_exact hl hr nofun
  | multiply =>
    have hm : IntegersExact mul.exact l r (ar.arithmetic .mul (fun _ _ => none) l r) :=
      arithmetic_exact hl hr nofun
    exact hm
  | modulo => exact arithmeticModulo_spec.2
  | divide =>
    intro a b v ha hb h
    have hn : ¬ (l = .null ∨ r = .null) := by
      rintro (rfl | rfl)
      · cases ha
      · cases hb
    simp only [evaluateBinaryOp,if_neg hn] at h
    split at h
    · cases h
    · next hz => exact arithmetic_exact hl hr (fun _ => by simpa using hz) a b v ha hb h

/-- A binary operator ends in a value or an error, with the exact result on integers, unless a
decimal result leaves its 96 bits or a time leaves the calendar; a unary operator always does. -/
theorem arithmetic_safe_iff (ar : Arithmetic) (op : Operator) (l r : Value) (hl : l.WellTyped) (hr : r.WellTyped) :
    (NoPanic (ar.evaluateBinaryOp l op r) ∧ IntegersExact op.exact l r (ar.evaluateBinaryOp l op r) ↔ ¬ ar.Overflows op l r) ∧
      ∀ unary, NoPanic (ar.evaluateUnaryOp unary l) ∧
        ∀ n v, intValue l = some n → ar.evaluateUnaryOp .minus l = .ok v → intValue v = some (-n) := by
  refine ⟨?_,fun unary => evaluateUnaryOp_spec unary l⟩
  have hexact : IntegersExact op.exact l r (ar.evaluateBinaryOp l op r) := ar.evaluateBinaryOp_exact hl hr
  rw [and_iff_left hexact]
  cases op with
  | plus =>
    rw [evaluateBinaryOp,arithmeticAdd,arithmetic_noPanic_iff hl hr (by rintro ⟨⟩) apart_temporalAdd,ne_eq,
      temporalAdd_panics_iff,Overflows,not_or]
  | minus =>
    rw [evaluateBinaryOp,arithmeticSubtract,arithmetic_noPanic_iff hl hr (by rintro ⟨⟩) apart_temporalSubtract,ne_eq,
      temporalSubtract_panics_iff,Overflows,not_or]
  | multiply =>
    rw [evaluateBinaryOp,arithmeticMultiply,arithmetic_noPanic_iff hl hr (by rintro ⟨⟩) ar.apart_none,Overflows]
    simp
  | divide => exact ar.divide_noPanic_iff hl hr
  | modulo => exact iff_of_true arithmeticModulo_spec.1 not_false

/-! Rational decimals and the calendar of the crates, for inputs without floats. -/

def rationalDecimals : DecimalCrate where
  Decimal := ℚ
  parse payload :=
    match digitsText payload with
    | some q => .ok q
    | none => .error "Invalid decimal"
  ofInt n := n
  value q := q
  checked op a b :=
    let q := match op with
      | .add => a+b
      | .sub => a-b
      | .mul => a*b
      | .div => a/b
    if op = .div ∧ b = 0 then none
    else if q.num.natAbs < 2^96*q.den then some q
    else none
  display q := intText q.num

def sample : Arithmetic where
  crate := rationalDecimals
  debug _ := "value"
  timestampInRange nanos := decide (-96465292 ≤ dateNaive nanos ∧ dateNaive nanos ≤ 95026236)
  dateInRange days := decide (-96465292 ≤ days ∧ days ≤ 95026236)
  interval code := some code
  ofInterval micros := micros.toNat
  floatArith _ _ _ := none
  floatIsZero _ := false
  floatNegate _ := none

theorem arithmetic_safe_iff_smallest_bigint : NoPanic (sample.evaluateBinaryOp (.int8 i64Min) .divide (.int8 (-1))) ∧
      IntegersExact Operator.divide.exact (.int8 i64Min) (.int8 (-1))
        (sample.evaluateBinaryOp (.int8 i64Min) .divide (.int8 (-1))) :=
  (arithmetic_safe_iff sample .divide (.int8 i64Min) (.int8 (-1)) (show IsI64 i64Min by decide)
    (show IsI64 (-1) by decide)).1.mpr (by
    rintro ⟨-,-,-,x,y,⟨⟩,-⟩)

/-- Twenty-eight nines times themselves leave the decimals, the day after the last one leaves the
calendar, and the distance of its ends leaves the intervals. -/
theorem arithmetic_panics :
    sample.evaluateBinaryOp (.numeric (List.replicate 28 '9')) .multiply (.numeric (List.replicate 28 '9')) = .error .panic ∧
      sample.evaluateBinaryOp (.date 95026236) .plus (.other 86400000000) = .error .panic ∧
      sample.evaluateBinaryOp (.date 95026236) .minus (.date (-96465292)) = .error .panic := by
  refine ⟨?_,?_,?_⟩ <;> decide +kernel

end Arithmetic
end HeliosNano.Sql
