import HeliosNano.Foundation.FirstBy
import HeliosNano.Foundation.Maps
import HeliosNano.Sql.Expr

namespace HeliosNano.Sql
open Foundation List Conversions

namespace Conversions
variable (c : Conversions)

def printed (tuple : Tuple) : List String := tuple.map c.debug

/-- `hash_tuple`, with the hasher that is fed the printed values. -/
def hashTuple (hasher : List String → UInt64) (tuple : Tuple) : UInt64 := hasher (c.printed tuple)

def tuplesEqual (a b : Tuple) : Bool :=
  if a.length ≠ b.length then false else (a.zip b).all fun pair => c.debug pair.1 = c.debug pair.2

/-- How often a row occurs, as `tuples_equal` tells rows apart. -/
def copies (row : Tuple) (rows : List Tuple) : Nat := rows.countP (c.tuplesEqual row)

variable {c}

theorem tuplesEqual_iff {a b : Tuple} : c.tuplesEqual a b ↔ c.printed a = c.printed b := by
  induction a generalizing b with
  | nil => cases b <;> simp [tuplesEqual,printed]
  | cons v rest ih =>
    cases b with
    | nil => simp [tuplesEqual,printed]
    | cons w more =>
      have hrest : (rest.length = more.length ∧ ∀ x y, (x,y) ∈ rest.zip more → c.debug x = c.debug y) ↔
          c.printed rest = c.printed more := by simpa [tuplesEqual] using @ih more
      simp [tuplesEqual,printed] at hrest ⊢
      tauto

theorem copies_eq (row : Tuple) (rows : List Tuple) : c.copies row rows = rows.countP fun t => c.printed t = c.printed row := by
  refine countP_congr fun t _ => ?_
  rw [tuplesEqual_iff,decide_eq_true_iff,eq_comm]

theorem hashTuple_respects (hasher : List String → UInt64) {a b : Tuple} (h : c.tuplesEqual a b) :
    c.hashTuple hasher a = c.hashTuple hasher b := congrArg hasher (tuplesEqual_iff.mp h)

end Conversions

section
variable (c : Conversions) (hashTuple : Tuple → UInt64)

def hashRows (rows : List Tuple) : Map UInt64 (List Tuple) :=
  rows.foldl (fun m tuple => m.insert (hashTuple tuple) ((m.lookup (hashTuple tuple)).getD [] ++ [tuple])) ∅

def removeMatch (m : Map UInt64 (List Tuple)) (tuple : Tuple) : Option (Map UInt64 (List Tuple)) :=
  match m.lookup (hashTuple tuple) with
  | none => none
  | some list =>
    match list.findIdx? fun t => c.tuplesEqual t tuple with
    | none => none
    | some pos => some (m.insert (hashTuple tuple) (list.eraseIdx pos))

def unionStep (acc : Finset UInt64 × List Tuple) (tuple : Tuple) : Finset UInt64 × List Tuple :=
  let hash := hashTuple tuple
  if hash ∈ acc.1 ∧ acc.2.any fun t => c.tuplesEqual t tuple then acc else (insert hash acc.1,acc.2 ++ [tuple])

/-- `UnionOperator::new`. -/
def unionRows (all : Bool) (left right : List Tuple) : List Tuple :=
  if all then left ++ right else ((left ++ right).foldl (unionStep c hashTuple) (∅,[])).2

def intersectAllStep (acc : Map UInt64 (List Tuple) × List Tuple) (tuple : Tuple) : Map UInt64 (List Tuple) × List Tuple :=
  match removeMatch c hashTuple acc.1 tuple with
  | some m => (m,acc.2 ++ [tuple])
  | none => acc

/-- Only the hashes of the returned rows are remembered. -/
def intersectStep (right : List Tuple) (acc : Finset UInt64 × List Tuple) (tuple : Tuple) : Finset UInt64 × List Tuple :=
  let hash := hashTuple tuple
  if hash ∈ right.map hashTuple ∧ hash ∉ acc.1 then
    if right.any fun t => c.tuplesEqual t tuple then (insert hash acc.1,acc.2 ++ [tuple]) else acc
  else acc

/-- `IntersectOperator::new`. -/
def intersectRows (all : Bool) (left right : List Tuple) : List Tuple :=
  if all then (left.foldl (intersectAllStep c hashTuple) (hashRows hashTuple right,[])).2
  else (left.foldl (intersectStep c hashTuple right) (∅,[])).2

def exceptAllStep (acc : Map UInt64 (List Tuple) × List Tuple) (tuple : Tuple) : Map UInt64 (List Tuple) × List Tuple :=
  match removeMatch c hashTuple acc.1 tuple with
  | some m => (m,acc.2)
  | none => (acc.1,acc.2 ++ [tuple])

/-- The hashes of all left rows are remembered, those of the rows that are not returned too. -/
def exceptStep (right : List Tuple) (acc : Finset UInt64 × List Tuple) (tuple : Tuple) : Finset UInt64 × List Tuple :=
  let hash := hashTuple tuple
  if hash ∈ acc.1 then acc
  else
    let inRight := decide (hash ∈ right.map hashTuple) && right.any fun t => c.tuplesEqual t tuple
    (insert hash acc.1,if inRight then acc.2 else acc.2 ++ [tuple])

/-- `ExceptOperator::new`. -/
def exceptRows (all : Bool) (left right : List Tuple) : List Tuple :=
  if all then (left.foldl (exceptAllStep c hashTuple) (hashRows hashTuple right,[])).2
  else (left.foldl (exceptStep c hashTuple right) (∅,[])).2

end

def inRight (c : Conversions) (right : List Tuple) (row : Tuple) : Bool := right.any fun t => c.tuplesEqual t row

inductive SetOperation
  | union
  | intersect
  | except
deriving DecidableEq

namespace SetOperation

def rows (op : SetOperation) (c : Conversions) (hashTuple : Tuple → UInt64) : Bool → List Tuple → List Tuple → List Tuple :=
  match op with
  | union => unionRows c hashTuple
  | intersect => intersectRows c hashTuple
  | except => exceptRows c hashTuple

/-- How often a row is to be returned that the two inputs hold that many times. -/
def expected : SetOperation → Bool → Nat → Nat → Nat
  | union, true, m, n => m+n
  | intersect, true, m, n => min m n
  | except, true, m, n => m-n
  | union, false, m, n => if 0 < m ∨ 0 < n then 1 else 0
  | intersect, false, m, n => if 0 < m ∧ 0 < n then 1 else 0
  | except, false, m, n => if 0 < m ∧ n = 0 then 1 else 0

/-- No left row is hidden by another one with its hash: by a common row from `INTERSECT`, by the
first left row from `EXCEPT`. -/
def HashesApart (op : SetOperation) (c : Conversions) (hashTuple : Tuple → UInt64) (all : Bool) (left right : List Tuple) : Prop :=
  match op, all with
  | intersect, false =>
    ∀ a ∈ left, ∀ b ∈ left, inRight c right a → inRight c right b → hashTuple a = hashTuple b → c.tuplesEqual a b
  | except, false =>
    ∀ a, ∀ b ∈ left, ¬inRight c right b → left.find? (fun t => hashTuple t = hashTuple b) = some a → c.tuplesEqual a b
  | _, _ => True

end SetOperation
open SetOperation

section
variable {c : Conversions} {hashTuple : Tuple → UInt64} (h : ∀ a b, c.tuplesEqual a b → hashTuple a = hashTuple b)
include h

omit h in
/-- The rows that are still there for a row to match. -/
def stock (c : Conversions) (hashTuple : Tuple → UInt64) (m : Map UInt64 (List Tuple)) (row : Tuple) : Nat :=
  c.copies row ((m.lookup (hashTuple row)).getD [])

theorem stock_congr (m : Map UInt64 (List Tuple)) {a b : Tuple} (he : c.printed a = c.printed b) :
    stock c hashTuple m a = stock c hashTuple m b := by
  rw [stock,stock,h a b (tuplesEqual_iff.mpr he),copies_eq,copies_eq,he]

omit h in
theorem stock_insert (m : Map UInt64 (List Tuple)) (tuple row : Tuple) (rows : List Tuple) :
    stock c hashTuple (m.insert (hashTuple tuple) rows) row =
      if hashTuple row = hashTuple tuple then c.copies row rows else stock c hashTuple m row := by
  rw [stock,Map.lookup_insert_ite]
  split <;> rfl

omit h in
theorem copies_cons (row tuple : Tuple) (rows : List Tuple) :
    c.copies row (tuple::rows) = c.copies row rows + if c.printed tuple = c.printed row then 1 else 0 := by
  rw [copies_eq,countP_cons,copies_eq]
  simp only [decide_eq_true_iff]

omit h in
theorem copies_concat (row tuple : Tuple) (rows : List Tuple) :
    c.copies row (rows ++ [tuple]) = c.copies row rows + if c.printed tuple = c.printed row then 1 else 0 := by
  rw [copies_eq,countP_append,countP_singleton,copies_eq]
  simp only [decide_eq_true_iff]

theorem printed_ne {row tuple : Tuple} (he : ¬hashTuple row = hashTuple tuple) : c.printed tuple ≠ c.printed row :=
  fun hp => he (h _ _ (tuplesEqual_iff.mpr hp.symm))

theorem stock_foldl (rows : List Tuple) (m : Map UInt64 (List Tuple)) (row : Tuple) :
    stock c hashTuple (rows.foldl (fun m tuple => m.insert (hashTuple tuple) ((m.lookup (hashTuple tuple)).getD [] ++ [tuple])) m) row =
      stock c hashTuple m row + c.copies row rows := by
  induction rows generalizing m with
  | nil => rfl
  | cons tuple rest ih =>
    rw [foldl_cons,ih,stock_insert,copies_cons]
    split
    next he =>
      rw [copies_concat,stock,he]
      omega
    next he =>
      rw [if_neg (printed_ne h he)]
      rfl

theorem stock_hashRows (rows : List Tuple) (row : Tuple) :
    stock c hashTuple (hashRows hashTuple rows) row = c.copies row rows :=
  (stock_foldl h rows ∅ row).trans (Nat.zero_add _)

omit h in
theorem stock_of_removeMatch_none {m : Map UInt64 (List Tuple)} {tuple : Tuple} (hrm : removeMatch c hashTuple m tuple = none) :
    stock c hashTuple m tuple = 0 := by
  rw [removeMatch] at hrm
  rw [stock]
  split at hrm
  next hlk =>
    rw [hlk]
    rfl
  next list hlk =>
    split at hrm
    next hi =>
      rw [hlk,copies,countP_eq_zero]
      intro t ht he
      have hne := findIdx?_eq_none_iff.mp hi t ht
      rw [tuplesEqual_iff.mpr (tuplesEqual_iff.mp he).symm] at hne
      cases hne
    · cases hrm

theorem stock_of_removeMatch {m m' : Map UInt64 (List Tuple)} {tuple : Tuple} (hrm : removeMatch c hashTuple m tuple = some m')
    (row : Tuple) : stock c hashTuple m row = stock c hashTuple m' row + if c.printed tuple = c.printed row then 1 else 0 := by
  rw [removeMatch] at hrm
  split at hrm
  · cases hrm
  next list hlk =>
    split at hrm
    · cases hrm
    next pos hi =>
      obtain ⟨hlt,hm,-⟩ := findIdx?_eq_some_iff_getElem.mp hi
      cases hrm
      rw [stock_insert]
      split
      next he =>
        have hp := (getElem_cons_eraseIdx_perm hlt).countP_eq (c.tuplesEqual row)
        rw [stock,he,hlk,Option.getD_some,copies,← hp,← copies,copies_cons,
          tuplesEqual_iff.mp hm]
      next he =>
        rw [if_neg (printed_ne h he)]
        rfl

theorem copies_all (left : List Tuple) (m : Map UInt64 (List Tuple)) (results results' : List Tuple) (row : Tuple) :
    c.copies row (left.foldl (intersectAllStep c hashTuple) (m,results)).2 =
        c.copies row results + min (c.copies row left) (stock c hashTuple m row) ∧
      c.copies row (left.foldl (exceptAllStep c hashTuple) (m,results')).2 =
        c.copies row results' + (c.copies row left - stock c hashTuple m row) := by
  induction left generalizing m results results' with
  | nil => simp [copies]
  | cons tuple rest ih =>
    rw [foldl_cons,foldl_cons,intersectAllStep,exceptAllStep,copies_cons]
    cases hrm : removeMatch c hashTuple m tuple with
    | some m' =>
      have hst := stock_of_removeMatch h hrm row
      obtain ⟨hi,he⟩ := ih m' (results ++ [tuple]) results'
      rw [copies_concat] at hi
      dsimp only
      constructor <;> omega
    | none =>
      obtain ⟨hi,he⟩ := ih m results (results' ++ [tuple])
      rw [copies_concat] at he
      dsimp only
      by_cases hp : c.printed tuple = c.printed row
      · have hst := stock_congr h m hp
        rw [stock_of_removeMatch_none hrm] at hst
        rw [if_pos hp] at he ⊢
        constructor <;> omega
      · rw [if_neg hp] at he ⊢
        constructor <;> omega

theorem unionRun_eq (rows : List Tuple) {seen : Finset UInt64} {kept : List Tuple} (hs : ∀ t ∈ kept, hashTuple t ∈ seen) :
    (rows.foldl (unionStep c hashTuple) (seen,kept)).2 = kept ++ firstBy c.printed (kept.map c.printed).toFinset rows := by
  induction rows generalizing seen kept with
  | nil => simp [firstBy]
  | cons tuple rest ih =>
    have hdp : (hashTuple tuple ∈ seen ∧ kept.any fun t => c.tuplesEqual t tuple) ↔
        c.printed tuple ∈ (kept.map c.printed).toFinset := by
      simp only [any_eq_true,mem_toFinset,mem_map,tuplesEqual_iff]
      refine ⟨And.right,fun hex => ⟨?_,hex⟩⟩
      obtain ⟨t,ht,he⟩ := hex
      exact h _ _ (tuplesEqual_iff.mpr he) ▸ hs t ht
    rw [foldl_cons,unionStep,firstBy]
    dsimp only
    split
    next hd =>
      rw [if_pos (hdp.mp hd),ih hs]
    next hd =>
      have hm : ((kept ++ [tuple]).map c.printed).toFinset = insert (c.printed tuple) (kept.map c.printed).toFinset := by
        ext k
        simp [or_comm]
      rw [if_neg fun hmm => hd (hdp.mpr hmm),ih,hm,append_assoc,singleton_append]
      intro t ht
      rcases mem_append.mp ht with ht | ht
      · exact Finset.mem_insert_of_mem (hs t ht)
      · rw [mem_singleton.mp ht]
        exact Finset.mem_insert_self _ _

theorem mem_hashes {right : List Tuple} {row : Tuple} (hin : inRight c right row) : hashTuple row ∈ right.map hashTuple := by
  obtain ⟨t,ht,he⟩ := any_eq_true.mp hin
  exact mem_map.mpr ⟨t,ht,h t row he⟩

theorem intersectRun_eq (right rows : List Tuple) (seen : Finset UInt64) (kept : List Tuple) :
    (rows.foldl (intersectStep c hashTuple right) (seen,kept)).2 =
      kept ++ firstBy hashTuple seen (rows.filter (inRight c right)) := by
  induction rows generalizing seen kept with
  | nil => simp [firstBy]
  | cons tuple rest ih =>
    rw [foldl_cons,intersectStep,filter_cons,← inRight]
    dsimp only
    by_cases hin : inRight c right tuple
    · rw [if_pos hin,if_pos hin,firstBy]
      by_cases hs : hashTuple tuple ∈ seen
      · rw [if_neg fun hif => hif.2 hs,if_pos hs,ih]
      · rw [if_pos ⟨mem_hashes h hin,hs⟩,if_neg hs,ih,append_assoc,singleton_append]
    · rw [if_neg hin,if_neg hin,ite_self,ih]

theorem exceptRun_eq (right rows : List Tuple) (seen : Finset UInt64) (kept : List Tuple) :
    (rows.foldl (exceptStep c hashTuple right) (seen,kept)).2 =
      kept ++ (firstBy hashTuple seen rows).filter fun row => !inRight c right row := by
  induction rows generalizing seen kept with
  | nil => simp [firstBy]
  | cons tuple rest ih =>
    rw [foldl_cons,exceptStep,firstBy,← inRight]
    dsimp only
    by_cases hs : hashTuple tuple ∈ seen
    · rw [if_pos hs,if_pos hs,ih]
    rw [if_neg hs,if_neg hs,ih,filter_cons]
    by_cases hin : inRight c right tuple
    · simp [hin,mem_hashes h hin]
    · simp [hin]

omit h in
theorem copies_pos {row : Tuple} {rows : List Tuple} : 0 < c.copies row rows ↔ ∃ b ∈ rows, c.printed b = c.printed row := by
  simp only [copies_eq,countP_pos_iff,decide_eq_true_iff]

omit h in
theorem inRight_iff {right : List Tuple} {row : Tuple} : inRight c right row ↔ 0 < c.copies row right := by
  simp only [inRight,any_eq_true,tuplesEqual_iff,copies_pos]

omit h in
theorem inRight_congr {right : List Tuple} {a b : Tuple} (he : c.printed a = c.printed b) : inRight c right a = inRight c right b := by
  rw [Bool.eq_iff_iff,inRight_iff,inRight_iff,copies_eq,copies_eq,he]

omit h in
theorem copies_firstBy_iff {β : Type} [DecidableEq β] {f : Tuple → β} (hf : ∀ a b, c.printed a = c.printed b → f a = f b)
    (l : List Tuple) (p : Tuple → Bool) (hp : ∀ a b, c.printed a = c.printed b → p a = p b) :
    (∀ row, c.copies row ((firstBy f ∅ l).filter p) = if ∃ b ∈ l, p b ∧ c.printed b = c.printed row then 1 else 0) ↔
      ∀ a, ∀ b ∈ l, p b → l.find? (fun t => f t = f b) = some a → c.printed a = c.printed b := by
  simp only [copies_eq]
  exact countP_firstBy_iff hf hp

theorem copies_union (left right : List Tuple) (row : Tuple) : c.copies row (unionRows c hashTuple false left right) =
    union.expected false (c.copies row left) (c.copies row right) := by
  have hr : unionRows c hashTuple false left right = (firstBy c.printed ∅ (left ++ right)).filter fun _ => true := by
    rw [filter_true]
    exact unionRun_eq h (left ++ right) nofun
  rw [hr,(copies_firstBy_iff (fun _ _ he => he) (left ++ right) (fun _ => true) fun _ _ _ => rfl).mpr]
  · simp only [expected,copies_pos,mem_append,or_and_right,exists_or,true_and]
  · intro a b _ _ ha
    exact of_decide_eq_true (find?_some (p := fun t => c.printed t = c.printed b) ha)

theorem copies_intersect_iff (left right : List Tuple) : (∀ row, c.copies row (intersectRows c hashTuple false left right) =
      intersect.expected false (c.copies row left) (c.copies row right)) ↔
      intersect.HashesApart c hashTuple false left right := by
  have hkey : ∀ a b, c.printed a = c.printed b → hashTuple a = hashTuple b :=
    fun a b he => h a b (tuplesEqual_iff.mpr he)
  have hr : intersectRows c hashTuple false left right =
      (firstBy hashTuple ∅ (left.filter (inRight c right))).filter fun _ => true := by
    rw [filter_true]
    exact intersectRun_eq h right left ∅ []
  have hbt (row : Tuple) : (∃ b ∈ left.filter (inRight c right), true ∧ c.printed b = c.printed row) ↔
      0 < c.copies row left ∧ 0 < c.copies row right := by
    simp only [mem_filter,true_and,@copies_pos c row left,and_assoc]
    constructor
    · rintro ⟨b,hb,hin,he⟩
      exact ⟨⟨b,hb,he⟩,inRight_iff.mp (inRight_congr he ▸ hin)⟩
    · rintro ⟨⟨b,hb,he⟩,hp⟩
      exact ⟨b,hb,inRight_congr he ▸ inRight_iff.mpr hp,he⟩
  refine (forall_congr' fun row => ?_).trans ((copies_firstBy_iff hkey (left.filter (inRight c right)) (fun _ => true) fun _ _ _ => rfl).trans ?_)
  · rw [hr,expected,← if_congr (hbt row) rfl rfl]
  simp only [true_implies]
  rw [find?_image_iff]
  simp only [HashesApart,mem_filter,tuplesEqual_iff]
  constructor
  · intro hal a ha b hb hi hib
    exact hal a ⟨ha,hi⟩ b ⟨hb,hib⟩
  · intro hal a ha b hb
    exact hal a ha.1 b hb.1 ha.2 hb.2

theorem copies_except_iff (left right : List Tuple) : (∀ row, c.copies row (exceptRows c hashTuple false left right) =
      except.expected false (c.copies row left) (c.copies row right)) ↔
      except.HashesApart c hashTuple false left right := by
  have hkey : ∀ a b, c.printed a = c.printed b → hashTuple a = hashTuple b :=
    fun a b he => h a b (tuplesEqual_iff.mpr he)
  have hrn : exceptRows c hashTuple false left right = (firstBy hashTuple ∅ left).filter fun row => !inRight c right row :=
    exceptRun_eq h right left ∅ []
  have hr (a b : Tuple) (he : c.printed a = c.printed b) : (!inRight c right a) = !inRight c right b := by rw [inRight_congr he]
  have hon (row : Tuple) : (∃ b ∈ left, (!inRight c right b) = true ∧ c.printed b = c.printed row) ↔
      0 < c.copies row left ∧ c.copies row right = 0 := by
    rw [← Nat.le_zero,← Nat.not_lt,← @inRight_iff c right row,@copies_pos c row left]
    constructor
    · rintro ⟨b,hb,ho,he⟩
      exact ⟨⟨b,hb,he⟩,by simpa [inRight_congr he] using ho⟩
    · rintro ⟨⟨b,hb,he⟩,ho⟩
      exact ⟨b,hb,by simpa [inRight_congr he] using ho,he⟩
  refine (forall_congr' fun row => ?_).trans ((copies_firstBy_iff hkey left _ hr).trans ?_)
  · rw [hrn,expected,← if_congr (hon row) rfl rfl]
  simp only [HashesApart,tuplesEqual_iff,Bool.not_eq_true',Bool.not_eq_true]

theorem SetOperation.counts_iff (op : SetOperation) (all : Bool) (left right : List Tuple) :
    (∀ row, c.copies row (op.rows c hashTuple all left right) = op.expected all (c.copies row left) (c.copies row right)) ↔
      op.HashesApart c hashTuple all left right := by
  match op, all with
  | union, true => exact iff_of_true (fun _ => countP_append) trivial
  | union, false => exact iff_of_true (copies_union h left right) trivial
  | intersect, true =>
    refine iff_of_true (fun row => ?_) trivial
    exact (copies_all h left _ [] [] row).1.trans (by rw [stock_hashRows h]; exact Nat.zero_add _)
  | intersect, false => exact copies_intersect_iff h left right
  | except, true =>
    refine iff_of_true (fun row => ?_) trivial
    exact (copies_all h left _ [] [] row).2.trans (by rw [stock_hashRows h]; exact Nat.zero_add _)
  | except, false => exact copies_except_iff h left right

end

/-! Two rows with one column, with two hashes and with one. -/

def twoIntegers : Conversions := { bareConversions with debug := fun v => if v = .int4 1 then "Int4(1)" else "Int4(2)" }

def twoRows : List Tuple := [[.int4 1],[.int4 2]]

theorem SetOperation.counts_apart :
    (∀ row, twoIntegers.copies row (intersect.rows twoIntegers
        (twoIntegers.hashTuple fun values => if values = ["Int4(1)"] then 1 else 2) false twoRows twoRows) =
      intersect.expected false (twoIntegers.copies row twoRows) (twoIntegers.copies row twoRows)) ∧
      twoIntegers.copies [.int4 2] twoRows = 1 :=
  ⟨(counts_iff (fun _ _ => Conversions.hashTuple_respects _) .intersect false twoRows twoRows).mpr
    (by unfold HashesApart; decide),by decide⟩

theorem SetOperation.not_counts_collision :
    (∀ a b, twoIntegers.tuplesEqual a b → twoIntegers.hashTuple (fun _ => 0) a = twoIntegers.hashTuple (fun _ => 0) b) ∧
      ¬∀ row, twoIntegers.copies row (intersect.rows twoIntegers (twoIntegers.hashTuple fun _ => 0) false twoRows twoRows) =
        intersect.expected false (twoIntegers.copies row twoRows) (twoIntegers.copies row twoRows) :=
  ⟨fun _ _ => Conversions.hashTuple_respects _,fun hall => absurd (hall [.int4 2]) (by decide)⟩

end HeliosNano.Sql
