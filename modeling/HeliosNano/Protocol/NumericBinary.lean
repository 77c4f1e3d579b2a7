import HeliosNano.Foundation.Decimal
import HeliosNano.Protocol.Copy
import HeliosNano.Sql.Interpolate
import Mathlib.Data.List.DropRight
import Mathlib.Tactic.IntervalCases
import Mathlib.Tactic.Ring

namespace HeliosNano.Protocol
open Foundation Sql Interpolate List

/-- A `numeric` on the wire: base-10000 groups, the first of which counts `10000^weight`. -/
structure Numeric where
  groups : List Nat
  weight : Int
  sign : Nat
  dscale : Nat
deriving DecidableEq

def Numeric.bytes (n : Numeric) : List (Fin 256) :=
  (n.groups.length::(n.weight%65536).toNat::n.sign::n.dscale::n.groups).flatMap (beBytes 2)

def numericSpecial : Special → Nat
  | .nan => 0xC000
  | .posInf => 0xD000
  | .negInf => 0xF000

/-- The groups of digits that arrive one at a time; the last group is filled up. -/
def pushDigits (group inGroup : Nat) : List Nat → List Nat
  | [] => if 0 < inGroup then [group*10^(4-inGroup)] else []
  | d::rest => if inGroup+1 = 4 then (group*10+d)::pushDigits 0 0 rest else pushDigits (group*10+d) (inGroup+1) rest

def digit (c : Char) : Nat := c.toNat-48

/-- The point ends a group; zero groups at both ends are dropped. -/
def numericOf (negative : Bool) (intPart fracPart : Text) : Numeric :=
  let int := intPart.dropWhile (· == '0')
  let weight : Int := if int.length = 0 then -1 else ((int.length+3)/4 : Nat)-1
  let offset := if int.length = 0 then 0 else (int.length+3)/4*4-int.length
  let digits := pushDigits 0 0 (replicate offset 0 ++ int.map digit ++ fracPart.map digit)
  let leading := (digits.takeWhile (· == 0)).length
  let groups := (digits.dropWhile (· == 0)).rdropWhile (· == 0)
  if groups = [] then ⟨[],0,0,fracPart.length⟩
  else ⟨groups,weight-leading,if negative then 0x4000 else 0,fracPart.length⟩

/-- The `i16::try_from` of the header words. -/
def Numeric.Fits (n : Numeric) : Prop :=
  n.dscale ≤ 32767 ∧ n.groups.length ≤ 32767 ∧ -32768 ≤ n.weight ∧ n.weight ≤ 32767

instance (n : Numeric) : Decidable n.Fits := inferInstanceAs (Decidable (_ ∧ _))

def stripNegative : Text → Bool × Text
  | '-'::rest => (true,rest)
  | '+'::rest => (false,rest)
  | rest => (false,rest)

def numericParts (text : Text) : Bool × Text × Text :=
  let (negative,body) := stripNegative text
  (negative,(splitOnce (· == '.') body).getD (body,[]))

/-- A text has at most `isize::MAX` bytes, so that the conversions to `i64` succeed. -/
def encodeNumericBinary (text : Text) : Option (List (Fin 256)) :=
  let text := trim text
  match parseSpecial text with
  | some special => some (Numeric.mk [] 0 (numericSpecial special) 0).bytes
  | none =>
    let (negative,intPart,fracPart) := numericParts text
    if intPart = [] ∧ fracPart = [] then none
    else if !(intPart ++ fracPart).all Char.isDigit then none
    else if (numericOf negative intPart fracPart).Fits then some (numericOf negative intPart fracPart).bytes
    else none

structure IsDecimal (text : Text) (negative : Bool) (whole fraction : Text) : Prop where
  digits : (whole ++ fraction).all Char.isDigit = true
  nonempty : ¬(whole = [] ∧ fraction = [])
  spelled : ∃ sign point, (sign,negative) ∈ [([],false),(['+'],false),(['-'],true)] ∧
    (point = '.'::fraction ∨ point = [] ∧ fraction = []) ∧ text = sign ++ whole ++ point

/-- `Σ digits[i] * base^(weight - i)` -/
def positional (base : ℚ) : List Nat → Int → ℚ
  | [], _ => 0
  | d::rest, weight => d*base^weight+positional base rest (weight-1)

def decimalValue (negative : Bool) (whole fraction : Text) : ℚ :=
  (if negative then -1 else 1)*positional 10 ((whole ++ fraction).map digit) (whole.length-1)

def Numeric.value (n : Numeric) : ℚ := (if n.sign = 0x4000 then -1 else 1)*positional 10000 n.groups n.weight

structure Numeric.Canonical (n : Numeric) : Prop where
  below : ∀ g ∈ n.groups, g < 10000
  sign : n.sign = 0 ∨ n.sign = 0x4000
  first : n.groups.head? ≠ some 0
  last : n.groups.getLast? ≠ some 0
  zero : n.value = 0 ↔ n.groups = []
  plain : n.groups = [] → n.weight = 0 ∧ n.sign = 0

def wordsOf : List (Fin 256) → List Nat
  | a::b::rest => (a.val*256+b.val)::wordsOf rest
  | _ => []

def readNumeric (bytes : List (Fin 256)) : Option Numeric :=
  match wordsOf bytes with
  | ndigits::weight::sign::dscale::groups =>
    if groups.length = ndigits then some ⟨groups,if weight < 32768 then weight else weight-65536,sign,dscale⟩ else none
  | _ => none

variable {base : ℚ} {group inGroup : Nat} {rest : List Nat} {text whole fraction : Text} {negative : Bool}

theorem eq_replicate_append {α : Type} [DecidableEq α] (a : α) (l : List α) :
    replicate (l.takeWhile (· == a)).length a ++ l.dropWhile (· == a) = l := by
  have h : l.takeWhile (· == a) = replicate (l.takeWhile (· == a)).length a :=
    eq_replicate_length.mpr fun b hb => by simpa using mem_takeWhile_imp hb
  rw [← h,takeWhile_append_dropWhile]

theorem positional_zeros (n : Nat) (weight : Int) :
    positional base (replicate n 0 ++ rest) weight = positional base rest (weight-n) := by
  induction n generalizing weight with
  | zero => simp
  | succ n ih =>
    rw [replicate_succ,cons_append,positional,ih]
    simp [sub_sub,add_comm]

theorem positional_rdropWhile (ds : List Nat) (weight : Int) :
    positional base (ds.rdropWhile (· == 0)) weight = positional base ds weight := by
  have hz (ds : List Nat) (weight : Int) : positional base (ds ++ [0]) weight = positional base ds weight := by
    induction ds generalizing weight with
    | nil => simp [positional]
    | cons d ds ih => rw [cons_append,positional,ih,positional]
  induction ds using List.reverseRecOn with
  | nil => rfl
  | append_singleton ds d ih =>
    rw [rdropWhile_concat]
    split
    next hd => rw [ih,eq_of_beq hd,hz]
    · rfl

theorem positional_nonneg (hb : 0 < base) (ds : List Nat) (weight : Int) : 0 ≤ positional base ds weight := by
  induction ds generalizing weight with
  | nil => exact le_rfl
  | cons d ds ih =>
    exact add_nonneg (mul_nonneg (Nat.cast_nonneg d) (zpow_pos hb weight).le) (ih (weight-1))

theorem positional_pushDigits (hk : inGroup < 4) (h0 : inGroup = 0 → group = 0) (rest : List Nat) (weight : Int) :
    positional 10000 (pushDigits group inGroup rest) weight =
      group*10^(4*weight+4-inGroup)+positional 10 rest (4*weight+3-inGroup) := by
  have hbase (e : Int) : (10000 : ℚ)^e = 10^(4*e) := by
    rw [zpow_mul]
    norm_num
  have hs (e : Int) : (10 : ℚ)^(e+1) = 10^e*10 := zpow_add_one₀ (by norm_num) e
  induction rest generalizing group inGroup weight with
  | nil =>
    rw [pushDigits]
    split
    next hpos =>
      have he : 4*weight+4-inGroup = 4*weight+(4-inGroup : Nat) := by omega
      rw [he,zpow_add₀ (by norm_num),zpow_natCast]
      simp only [positional,hbase]
      push_cast
      ring
    next hpos => simp [positional,h0 (by omega)]
  | cons d rest ih =>
    have he : 4*weight+4-inGroup = 4*weight+3-inGroup+1 := by omega
    rw [pushDigits,positional,he,hs]
    split
    next hfull =>
      have hz : 4*weight+3-inGroup = 4*weight := by omega
      rw [positional,ih (by omega) (fun _ => rfl),hbase,hz,show 4*(weight-1)+3-(0 : Nat) = 4*weight-1 by omega]
      push_cast
      ring
    next hfull =>
      rw [ih (by omega) (fun h => absurd h (Nat.succ_ne_zero _)),
        show 4*weight+4-(inGroup+1 : Nat) = 4*weight+3-inGroup by omega,
        show 4*weight+3-(inGroup+1 : Nat) = 4*weight+3-inGroup-1 by omega]
      push_cast
      ring

theorem lt_of_mem_pushDigits (hk : inGroup < 4) (hg : group < 10^inGroup) (hd : ∀ d ∈ rest, d < 10) :
    ∀ g ∈ pushDigits group inGroup rest, g < 10000 := by
  induction rest generalizing group inGroup with
  | nil =>
    rw [pushDigits]
    split
    · intro g hm
      obtain rfl := mem_singleton.mp hm
      interval_cases inGroup <;> omega
    · nofun
  | cons d rest ih =>
    have hn : group*10+d < 10^(inGroup+1) := by
      have := hd d mem_cons_self
      rw [pow_succ]
      omega
    have hr := fun x hx => hd x (mem_cons_of_mem d hx)
    rw [pushDigits]
    split
    next hfull =>
      rw [hfull] at hn
      exact forall_mem_cons.mpr ⟨hn,ih (by omega) (by decide) hr⟩
    next hfull => exact ih (by omega) hn hr

theorem numericOf_value (negative : Bool) (whole fraction : Text) :
    (numericOf negative whole fraction).value = decimalValue negative whole fraction := by
  rw [numericOf,decimalValue]
  conv_rhs => rw [← eq_replicate_append '0' whole]
  generalize whole.dropWhile (· == '0') = int
  generalize (whole.takeWhile (· == '0')).length = zeros
  have hw : 4*(if int.length = 0 then (-1 : Int) else ((int.length+3)/4 : Nat)-1)+3-(0 : Nat)-
      (if int.length = 0 then 0 else (int.length+3)/4*4-int.length : Nat) = int.length-1 := by
    split_ifs <;> omega
  generalize (if int.length = 0 then (-1 : Int) else ((int.length+3)/4 : Nat)-1) = weight at hw ⊢
  generalize (if int.length = 0 then 0 else (int.length+3)/4*4-int.length : Nat) = offset at hw ⊢
  have hv := @positional_pushDigits 0 0 (by decide) (fun _ => rfl)
    (replicate offset 0 ++ int.map digit ++ fraction.map digit) weight
  generalize pushDigits 0 0 _ = digits at hv ⊢
  rw [append_assoc,positional_zeros,hw,Nat.cast_zero,zero_mul,zero_add,← eq_replicate_append 0 digits,positional_zeros,
    ← positional_rdropWhile] at hv
  have hd : ((replicate zeros '0' ++ int) ++ fraction).map digit =
      replicate zeros 0 ++ (int.map digit ++ fraction.map digit) := by
    simp [show digit '0' = 0 from rfl]
  have hz : ((replicate zeros '0' ++ int).length : Int)-1-zeros = int.length-1 := by
    rw [length_append,length_replicate]
    omega
  rw [hd,positional_zeros,hz]
  rw [← hv]
  split
  next hg => rw [hg,Numeric.value,positional,positional,mul_zero,mul_zero]
  next hg => cases negative <;> rfl

theorem digit_lt {c : Char} (h : c.isDigit = true) : digit c < 10 := by
  rw [Char.isDigit,Bool.and_eq_true,decide_eq_true_eq,decide_eq_true_eq] at h
  have h2 := h.2
  rw [UInt32.le_iff_toNat_le] at h2
  exact (Nat.sub_le_sub_right h2 48).trans_lt (by decide)

theorem numericOf_canonical (negative : Bool) (h : (whole ++ fraction).all Char.isDigit = true) :
    (numericOf negative whole fraction).Canonical ∧ (numericOf negative whole fraction).dscale = fraction.length := by
  rw [numericOf]
  generalize hds : pushDigits 0 0 _ = digits
  have hb : ∀ g ∈ digits, g < 10000 := by
    rw [← hds]
    refine lt_of_mem_pushDigits (by decide) (by decide) fun d hd => ?_
    rw [all_append,Bool.and_eq_true,all_eq_true,all_eq_true] at h
    rcases mem_append.mp hd with hd | hd
    · rcases mem_append.mp hd with hd | hd
      · rw [eq_of_mem_replicate hd]
        decide
      · obtain ⟨c,hc,rfl⟩ := mem_map.mp hd
        exact digit_lt (h.1 c ((dropWhile_sublist _).subset hc))
    · obtain ⟨c,hc,rfl⟩ := mem_map.mp hd
      exact digit_lt (h.2 c hc)
  split
  next hg => exact ⟨⟨nofun,.inl rfl,nofun,nofun,by simp [Numeric.value,positional],fun _ => ⟨rfl,rfl⟩⟩,rfl⟩
  next hg =>
    have hp := rdropWhile_prefix (· == 0) (digits.dropWhile (· == 0))
    obtain ⟨g,gs,hgs⟩ := exists_cons_of_ne_nil hg
    have hf : g ≠ 0 := by
      have := head?_dropWhile_not (· == 0) digits
      rw [hgs] at hp
      obtain ⟨more,hm⟩ := hp
      rw [← hm] at this
      simpa using this
    refine ⟨⟨fun g hm => hb g ((dropWhile_sublist _).subset (hp.subset hm)),by cases negative <;> simp,?_,fun hl => ?_,?_,
      fun hno => absurd hno hg⟩,rfl⟩
    · rw [hgs]
      exact fun h => hf (Option.some.inj h)
    · have := rdropWhile_last_not (· == 0) (digits.dropWhile (· == 0)) hg
      rw [getLast?_eq_some_getLast hg] at hl
      rw [Option.some.inj hl] at this
      exact this rfl
    · refine iff_of_false (mul_ne_zero (by cases negative <;> simp) ?_) hg
      rw [hgs,positional]
      exact (add_pos_of_pos_of_nonneg (mul_pos (Nat.cast_pos.mpr (Nat.pos_of_ne_zero hf)) (zpow_pos (by norm_num) _))
        (positional_nonneg (by norm_num) gs _)).ne'

theorem wordsOf_flatMap {ws : List Nat} (h : ∀ n ∈ ws, n < 65536) : wordsOf (ws.flatMap (beBytes 2)) = ws := by
  induction ws with
  | nil => rfl
  | cons n ws ih =>
    rw [forall_mem_cons] at h
    rw [flatMap_cons]
    show ((Fin.ofNat 256 (n/256)).val*256+(Fin.ofNat 256 n).val)::wordsOf (ws.flatMap (beBytes 2)) = _
    rw [ih h.2,Fin.val_ofNat,Fin.val_ofNat]
    congr 1
    omega

theorem readNumeric_bytes {n : Numeric} (hc : n.Canonical) (hf : n.Fits) : readNumeric n.bytes = some n := by
  obtain ⟨hd,hl,hlo,hhi⟩ := hf
  have hs := hc.sign
  have hw : ∀ m ∈ n.groups.length::(n.weight%65536).toNat::n.sign::n.dscale::n.groups, m < 65536 := by
    simp only [forall_mem_cons]
    exact ⟨by omega,by omega,by omega,by omega,fun g hg => (hc.below g hg).trans (by decide)⟩
  rw [readNumeric,Numeric.bytes,wordsOf_flatMap hw]
  dsimp only
  rw [if_pos rfl]
  congr
  split <;> omega

theorem numericParts_of_isDecimal (h : IsDecimal text negative whole fraction) :
    numericParts text = (negative,whole,fraction) := by
  obtain ⟨hd,hne,sign,point,hs,hp,rfl⟩ := h
  rw [all_append,Bool.and_eq_true,all_eq_true] at hd
  have hw : ∀ c ∈ whole, (!(c == '.')) = true := fun c hc => by
    rw [Bool.not_eq_true',beq_eq_false_iff_ne]
    rintro rfl
    cases hd.1 _ hc
  have hb : (splitOnce (· == '.') (whole ++ point)).getD (whole ++ point,[]) = (whole,fraction) := by
    rw [splitOnce,dropWhile_append_of_pos hw,takeWhile_append_of_pos hw]
    rcases hp with rfl | ⟨rfl,rfl⟩ <;> simp
  have hu : stripNegative (whole ++ point) = (false,whole ++ point) := by
    rcases whole with _ | ⟨c,whole⟩
    · rcases hp with rfl | ⟨rfl,rfl⟩
      · rfl
      · exact absurd ⟨rfl,rfl⟩ hne
    rw [cons_append,stripNegative]
    all_goals
      intro rest heq
      cases heq
      cases hd.1 _ mem_cons_self
  rw [append_assoc,numericParts]
  simp only [mem_cons,Prod.mk.injEq,not_mem_nil,or_false] at hs
  rcases hs with ⟨rfl,rfl⟩ | ⟨rfl,rfl⟩ | ⟨rfl,rfl⟩
  · rw [nil_append,hu]
    exact congrArg (Prod.mk false) hb
  · exact congrArg (Prod.mk false) hb
  · exact congrArg (Prod.mk true) hb

theorem isDecimal_of_numericParts (h : numericParts text = (negative,whole,fraction)) (hne : ¬(whole = [] ∧ fraction = []))
    (hd : (whole ++ fraction).all Char.isDigit = true) : IsDecimal text negative whole fraction := by
  have hb {body : Text} (h : (splitOnce (· == '.') body).getD (body,[]) = (whole,fraction)) :
      ∃ point, (point = '.'::fraction ∨ point = [] ∧ fraction = []) ∧ body = whole ++ point := by
    rw [splitOnce] at h
    split at h
    · cases h
      exact ⟨[],.inr ⟨rfl,rfl⟩,(append_nil _).symm⟩
    next c rest hs =>
      have hc : c = '.' := by
        simpa [hs] using head?_dropWhile_not (fun c => !(c == '.')) body
      rw [← takeWhile_append_dropWhile (p := fun c => !(c == '.')) (l := body),hs,hc]
      cases h
      exact ⟨_,.inl rfl,rfl⟩
  rcases hs : stripNegative text with ⟨negative',body⟩
  rw [numericParts,hs] at h
  dsimp only at h
  obtain ⟨rfl,hparts⟩ := Prod.mk.inj h
  obtain ⟨point,hp,rfl⟩ := hb hparts
  rw [stripNegative.eq_def] at hs
  refine ⟨hd,hne,?_⟩
  split at hs <;> cases hs
  · exact ⟨['-'],point,by decide,hp,rfl⟩
  · exact ⟨['+'],point,by decide,hp,rfl⟩
  · exact ⟨[],point,by decide,hp,rfl⟩

/-- A special value is sent as a header, a plain decimal as far as the header words hold it, and nothing else; the groups have
the value of the decimal and no zeros around them, and they are read back. -/
theorem encodeNumericBinary_exact (text : Text) :
    (∀ special, parseSpecial (trim text) = some special →
      encodeNumericBinary text = some (Numeric.mk [] 0 (numericSpecial special) 0).bytes) ∧
    (parseSpecial (trim text) = none → ∀ bytes, encodeNumericBinary text = some bytes ↔
      ∃ negative whole fraction, IsDecimal (trim text) negative whole fraction ∧
        (numericOf negative whole fraction).Fits ∧ bytes = (numericOf negative whole fraction).bytes) ∧
    ∀ negative whole fraction, IsDecimal (trim text) negative whole fraction →
      (numericOf negative whole fraction).value = decimalValue negative whole fraction ∧
      (numericOf negative whole fraction).Canonical ∧ (numericOf negative whole fraction).dscale = fraction.length ∧
      ((numericOf negative whole fraction).Fits →
        readNumeric (numericOf negative whole fraction).bytes = some (numericOf negative whole fraction)) := by
  refine ⟨fun special h => by rw [encodeNumericBinary,h],fun h bytes => ?_,fun negative whole fraction hs => ?_⟩
  · rw [encodeNumericBinary,h]
    dsimp only
    rcases hp : numericParts (trim text) with ⟨negative,whole,fraction⟩
    dsimp only
    constructor
    · intro hb
      split at hb
      · cases hb
      next hne =>
        split at hb
        · cases hb
        next hd =>
          split at hb
          next hf =>
            have hs := isDecimal_of_numericParts hp hne (by simpa using hd)
            exact ⟨negative,whole,fraction,hs,hf,(Option.some.inj hb).symm⟩
          · cases hb
    · rintro ⟨negative',whole',fraction',hs,hf,rfl⟩
      have hp' := numericParts_of_isDecimal hs
      rw [hp] at hp'
      cases hp'
      rw [if_neg hs.nonempty,hs.digits,if_neg (by decide),if_pos hf]
  · obtain ⟨hc,hsc⟩ := numericOf_canonical negative hs.digits
    refine ⟨numericOf_value negative whole fraction,hc,hsc,readNumeric_bytes hc⟩

example : encodeNumericBinary ['-','.','0','0','0','0','1'] = some [0,1,255,254,64,0,0,5,3,232] := by decide

end HeliosNano.Protocol
