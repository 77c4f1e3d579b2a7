import HeliosNano.Sql.Rows
import HeliosNano.Storage.KeyEncoding

namespace HeliosNano.Sql.IndexJoin
open Foundation Storage List

/-- What dates and timestamps print as in a key, and the values of the other types. -/
structure KeyTexts where
  timestamp : Int → Text
  date : Int → Text
  other : Nat → KeyEncoding.Value

def KeyTexts.keyValue (texts : KeyTexts) : Value → KeyEncoding.Value
  | .null => .null
  | .boolean b => .boolean b
  | .int2 n => .int2 (BitVec.ofInt 16 n)
  | .int4 n => .int4 (BitVec.ofInt 32 n)
  | .int8 n => .int8 (BitVec.ofInt 64 n)
  | .numeric payload => .numeric payload
  | .string s => .string s
  | .bytes b => .bytes b
  | .uuid n => .uuid (BitVec.ofNat 128 n)
  | .timestamp nanos => .timestamp (texts.timestamp nanos)
  | .date days => .date (texts.date days)
  | .other code => texts.other code

def KeyTexts.encodedKey (texts : KeyTexts) (value : Value) : Bytes := KeyEncoding.encodeKey [texts.keyValue value]

structure LeftSide where
  width : Nat
  key : Nat
  key_lt : key < width
  rows : List Tuple
  typed : ∀ l ∈ rows, l.length = width

/-- A table and the index on its join column. Ids in the index without a row are those of staged rows. -/
structure RightSide (texts : KeyTexts) where
  width : Nat
  key : Nat
  key_lt : key < width
  rows : Map Nat Tuple
  typed : ∀ id r, rows.lookup id = some r → r.length = width
  indexGetAll : Bytes → List Nat
  nodup : ∀ k, (indexGetAll k).Nodup
  holds : ∀ id r, rows.lookup id = some r → ∀ k, id ∈ indexGetAll k ↔ k = texts.encodedKey (r.getD key .null)

section
variable {texts : KeyTexts} (ev : Evaluator) (isLeft : Bool) (left : LeftSide) (right : RightSide texts)

def LeftSide.keyOf (l : Tuple) : Value := l.getD left.key .null

def RightSide.keyOf (r : Tuple) : Value := r.getD right.key .null

def RightSide.stored : List Tuple := right.rows.entries.map Sigma.snd

def matchingRowIds (l : Tuple) : List Nat := right.indexGetAll (texts.encodedKey (left.keyOf l))

/-- What a left row is combined with. Whether it is matched is decided by the ids. -/
def partners (l : Tuple) : List Tuple :=
  if left.keyOf l = .null then if isLeft then [nulls right.width] else []
  else if (matchingRowIds left right l).isEmpty then if isLeft then [nulls right.width] else []
  else (matchingRowIds left right l).filterMap right.rows.lookup

def tryIndexNestedLoopJoin : List Tuple := left.rows.flatMap fun l => (partners isLeft left right l).map (l ++ ·)

def onCondition : LogicalExpr :=
  .binaryExpr (.boundColumn left.key none "") .eq (.boundColumn (left.width+right.key) none "")

def joinTest (l r : Tuple) : Except SqlError Bool := conditionHolds ev (some (onCondition left right)) (l ++ r)

def Agrees : Prop := ∃ out, nestedLoopJoin (if isLeft then .left else .inner) left.width right.width
  (joinTest ev left right) left.rows right.stored = .ok out ∧ (tryIndexNestedLoopJoin isLeft left right).Perm out

def SameKey (l r : Tuple) : Prop := texts.encodedKey (right.keyOf r) = texts.encodedKey (left.keyOf l)

instance (l r : Tuple) : Decidable (SameKey left right l r) := inferInstanceAs (Decidable (_ = _))

/-- The stored rows with the same bytes as a key are the equal ones, and a left row that is kept without any has no
staged ones either. Under a left join, a single row of NULLs with the same bytes looks like no row. -/
def Sound (l : Tuple) : Prop :=
  left.keyOf l = .null ∨
    (∀ r ∈ right.stored, decide (SameKey left right l r) = passes (joinTest ev left right l) r) ∧
      (isLeft = true → (∀ r ∈ right.stored, passes (joinTest ev left right l) r = false) →
        matchingRowIds left right l = []) ∨
    isLeft = true ∧ (∀ r ∈ right.stored, passes (joinTest ev left right l) r = false) ∧
      right.stored.filter (fun r => SameKey left right l r) = [nulls right.width]

end

section
variable {texts : KeyTexts} {ev : Evaluator} {isLeft : Bool} {left : LeftSide} {right : RightSide texts} {l r : Tuple}

theorem mem_stored_iff : r ∈ right.stored ↔ ∃ id, right.rows.lookup id = some r := by
  rw [RightSide.stored,mem_map]
  constructor
  · rintro ⟨⟨id,r⟩,hm,rfl⟩
    exact ⟨id,AList.mem_lookup_iff.mpr hm⟩
  · rintro ⟨id,hl⟩
    exact ⟨⟨id,r⟩,AList.mem_lookup_iff.mp hl,rfl⟩

theorem joinTest_null (hl : l.length = left.width) (hr : r ∈ right.stored) (h : left.keyOf l = .null ∨ right.keyOf r = .null) :
    joinTest ev left right l r = .ok false := by
  obtain ⟨id,hid⟩ := mem_stored_iff.mp hr
  have hw := right.typed id r hid
  have hlk : (l ++ r)[left.key]? = some (left.keyOf l) := by
    have hlt := left.key_lt
    rw [getElem?_append_left (by omega),LeftSide.keyOf,getD_eq_getElem?_getD,getElem?_eq_getElem (by omega)]
    rfl
  have hrk : (l ++ r)[left.width+right.key]? = some (right.keyOf r) := by
    have hlt := right.key_lt
    rw [getElem?_append_right (by omega),hl,Nat.add_sub_cancel_left,RightSide.keyOf,getD_eq_getElem?_getD,
      getElem?_eq_getElem (by omega)]
    rfl
  simp only [joinTest,conditionHolds,onCondition,Evaluator.evaluate,hlk,hrk,Evaluator.evaluateBinaryOp,compareValues,
    if_pos h,bind,Except.bind]

theorem fetched_perm (l : Tuple) : ((matchingRowIds left right l).filterMap right.rows.lookup).Perm
    (right.stored.filter fun r => SameKey left right l r) := by
  let entry (id : Nat) : Option (Sigma fun _ : Nat => Tuple) := (right.rows.lookup id).map (Sigma.mk id)
  have he : ((matchingRowIds left right l).filterMap entry).Perm
      (right.rows.entries.filter fun e => SameKey left right l e.2) := by
    refine (perm_ext_iff_of_nodup ?_ ?_).mpr ?_
    · refine (right.nodup _).filterMap fun a a' b hb hb' => ?_
      obtain ⟨x,-,rfl⟩ := Option.mem_map.mp hb
      obtain ⟨y,-,hy⟩ := Option.mem_map.mp hb'
      exact (congrArg Sigma.fst hy).symm
    · exact right.rows.nodupKeys.nodup.filter _
    · rintro ⟨id,r⟩
      rw [mem_filterMap,mem_filter,← AList.mem_lookup_iff]
      constructor
      · rintro ⟨a,ha,hs⟩
        obtain ⟨x,hx,hxe⟩ := Option.map_eq_some_iff.mp hs
        cases hxe
        exact ⟨hx,decide_eq_true ((right.holds id r hx _).mp ha).symm⟩
      · rintro ⟨hx,hs⟩
        refine ⟨id,(right.holds id r hx _).mpr (of_decide_eq_true hs).symm,?_⟩
        rw [show entry id = (right.rows.lookup id).map (Sigma.mk id) from rfl,hx]
        rfl
  have hm := he.map Sigma.snd
  rw [map_filterMap] at hm
  rw [RightSide.stored,filter_map]
  refine (Perm.of_eq (filterMap_congr fun id _ => ?_)).trans hm
  rw [show entry id = (right.rows.lookup id).map (Sigma.mk id) from rfl,Option.map_map]
  exact Option.map_id'.symm

def plainPartners (ev : Evaluator) (isLeft : Bool) (left : LeftSide) (right : RightSide texts) (l : Tuple) : List Tuple :=
  if isLeft && (right.stored.filter (passes (joinTest ev left right l))).isEmpty then [nulls right.width]
  else right.stored.filter (passes (joinTest ev left right l))

theorem nestedLoopJoin_iff {out : List Tuple} : nestedLoopJoin (if isLeft then .left else .inner) left.width right.width
    (joinTest ev left right) left.rows right.stored = .ok out ↔
      (∀ l ∈ left.rows, Total (joinTest ev left right l) right.stored) ∧
        out = left.rows.flatMap fun l => (plainPartners ev isLeft left right l).map (l ++ ·) := by
  rw [nestedLoopJoin_ok_iff]
  have hk : JoinType.keepsLeft (if isLeft then .left else .inner) = isLeft := by cases isLeft <;> rfl
  have hr : JoinType.keepsRight (if isLeft then .left else .inner) = false := by cases isLeft <;> rfl
  rw [hk,hr,Joins.join,if_neg Bool.false_ne_true,append_nil,map_flatMap]
  refine and_congr_right fun _ => Eq.congr_right (flatMap_congr fun l _ => ?_)
  rw [Joins.matchesOf,plainPartners]
  split
  · rfl
  · rw [map_map]
    rfl

theorem partners_perm_iff (hl : l ∈ left.rows) :
    (partners isLeft left right l).Perm (plainPartners ev isLeft left right l) ↔ Sound ev isLeft left right l := by
  have hw := left.typed l hl
  have hnil {p : Tuple → Bool} : right.stored.filter p = [] ↔ ∀ r ∈ right.stored, p r = false := by simp
  rw [partners,plainPartners,Sound]
  by_cases hn : left.keyOf l = .null
  · have hno : ∀ r ∈ right.stored, passes (joinTest ev left right l) r = false := fun r hr => by
      rw [passes,joinTest_null hw hr (.inl hn)]
    rw [if_pos hn,hnil.mpr hno]
    cases isLeft <;> simp [hn]
  rw [if_neg hn,or_iff_right hn]
  by_cases hids : matchingRowIds left right l = []
  · have hsame : ∀ r ∈ right.stored, decide (SameKey left right l r) = false := by
      have hf := @fetched_perm texts left right l
      rw [hids] at hf
      exact hnil.mp hf.nil_eq.symm
    rw [hids,if_pos isEmpty_nil]
    by_cases hm : right.stored.filter (passes (joinTest ev left right l)) = []
    · rw [hm]
      refine iff_of_true (by cases isLeft <;> simp) (.inl ⟨fun r hr => ?_,fun _ _ => rfl⟩)
      rw [hsame r hr,hnil.mp hm r hr]
    · -- A row of NULLs matches nothing.
      refine iff_of_false ?_ ?_
      · rw [isEmpty_eq_false_iff.mpr hm,Bool.and_false,if_neg Bool.false_ne_true]
        intro hp
        cases isLeft with
        | false => exact hm hp.nil_eq.symm
        | true =>
          have hmem := mem_filter.mp (hp.mem_iff.mp (mem_singleton_self (nulls right.width)))
          have hkey : right.keyOf (nulls right.width) = .null := by simp [RightSide.keyOf,nulls]
          rw [passes,joinTest_null hw hmem.1 (.inr hkey)] at hmem
          exact Bool.false_ne_true hmem.2
      · rintro (⟨hs,-⟩ | ⟨-,hno,-⟩)
        · exact hm (hnil.mpr fun r hr => (hs r hr).symm.trans (hsame r hr))
        · exact hm (hnil.mpr hno)
  · rw [if_neg (by simpa using hids),(fetched_perm l).congr_left]
    by_cases hk : isLeft = true ∧ right.stored.filter (passes (joinTest ev left right l)) = []
    · rw [if_pos (by simp [hk]),perm_singleton]
      refine ⟨fun h => .inr ⟨hk.1,hnil.mp hk.2,h⟩,?_⟩
      rintro (⟨-,h⟩ | ⟨-,-,h⟩)
      · exact absurd (h hk.1 (hnil.mp hk.2)) hids
      · exact h
    · rw [if_neg (by simpa using hk),Joins.filter_perm_filter_iff]
      refine ⟨fun h => .inl ⟨h,fun ht hno => absurd ⟨ht,hnil.mpr hno⟩ hk⟩,?_⟩
      rintro (⟨h,-⟩ | ⟨ht,hno,-⟩)
      · exact h
      · exact absurd ⟨ht,hnil.mpr hno⟩ hk

/-- The index nested loops agree with the plain join exactly when its condition fails on no pair and every left row is sound. -/
theorem indexJoin_agrees_iff : Agrees ev isLeft left right ↔ (∀ l ∈ left.rows, Total (joinTest ev left right l) right.stored) ∧
    ∀ l ∈ left.rows, Sound ev isLeft left right l := by
  have hb : (tryIndexNestedLoopJoin isLeft left right).Perm
      (left.rows.flatMap fun l => (plainPartners ev isLeft left right l).map (l ++ ·)) ↔
        ∀ l ∈ left.rows, Sound ev isLeft left right l := by
    refine (Joins.perm_flatMap_iff fun a ha a' ha' b b' h => ?_).trans (forall₂_congr fun l hl => partners_perm_iff hl)
    exact append_inj h (by rw [left.typed a ha,left.typed a' ha'])
  rw [Agrees,← hb]
  constructor
  · rintro ⟨out,ho,hp⟩
    obtain ⟨htt,rfl⟩ := nestedLoopJoin_iff.mp ho
    exact ⟨htt,hp⟩
  · rintro ⟨htt,hp⟩
    exact ⟨_,nestedLoopJoin_iff.mpr ⟨htt,rfl⟩,hp⟩

/-- A left join of one row with an empty table, whose index has the key of a row that is staged. -/
theorem indexJoin_drops_staged : ¬ ∀ ev isLeft left texts, ∀ right : RightSide texts, Agrees ev isLeft left right := by
  intro h
  let left : LeftSide := ⟨1,0,by decide,[[.int4 1]],by simp⟩
  let right : RightSide ⟨intText,intText,fun _ => .null⟩ :=
    ⟨1,0,by decide,∅,by simp,fun k => if k = [128,0,0,1] then [7] else [],fun k => by split <;> simp,by simp⟩
  obtain ⟨out,ho,hp⟩ := h (.bare []) true left _ right
  have hnone : tryIndexNestedLoopJoin true left right = [] := by decide
  rw [hnone] at hp
  cases hp.nil_eq
  cases ho

end
end HeliosNano.Sql.IndexJoin
