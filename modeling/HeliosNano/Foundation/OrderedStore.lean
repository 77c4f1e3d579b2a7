import HeliosNano.Foundation.Maps
import Mathlib.Data.List.Lex
import Mathlib.Data.List.Sort

/-! A key-value store with ordered iteration and write batches, and what a seek to
a prefix finds when keys are ordered lexicographically. -/
namespace HeliosNano.Foundation
open List

namespace Map
variable {Key Value : Type} [LinearOrder Key] [DecidableEq Key]

omit [DecidableEq Key] in
def iterFrom (m : Map Key Value) (start : Key) : List (Key × Value) :=
  (((m.entries.map fun entry => (entry.1,entry.2)).filter fun entry => decide (start ≤ entry.1)).insertionSort
    fun a b => a.1 ≤ b.1)

theorem mem_iterFrom (m : Map Key Value) (start : Key) (entry : Key × Value) :
    entry ∈ m.iterFrom start ↔ m.lookup entry.1 = some entry.2 ∧ start ≤ entry.1 := by
  obtain ⟨k,v⟩ := entry
  rw [iterFrom,mem_insertionSort,mem_filter,decide_eq_true_eq]
  refine and_congr_left fun _ => ?_
  rw [← Option.mem_def,AList.mem_lookup_iff,mem_map]
  constructor
  · rintro ⟨⟨k',v'⟩,hm,he⟩
    cases he
    exact hm
  · intro hm
    exact ⟨⟨k,v⟩,hm,rfl⟩

omit [DecidableEq Key] in
theorem pairwise_iterFrom (m : Map Key Value) (start : Key) : (m.iterFrom start).Pairwise fun a b => a.1 < b.1 := by
  have hs : (m.iterFrom start).Pairwise fun a b => a.1 ≤ b.1 := pairwise_insertionSort _ _
  have hk : ((m.iterFrom start).map Prod.fst).Nodup := by
    have hp : ((m.iterFrom start).map Prod.fst).Perm
        (((m.entries.map fun entry => (entry.1,entry.2)).filter fun entry => decide (start ≤ entry.1)).map Prod.fst) :=
      (perm_insertionSort _ _).map _
    rw [hp.nodup_iff]
    have ha : ((m.entries.map fun entry => (entry.1,entry.2)).map Prod.fst).Nodup := by
      have hnd := m.nodupKeys
      rw [List.NodupKeys,List.keys] at hnd
      simpa only [map_map,Function.comp_def] using hnd
    exact ha.sublist (filter_sublist.map _)
  rw [List.Nodup,pairwise_map] at hk
  exact (hs.and hk).imp fun ⟨hle,hne⟩ => lt_of_le_of_ne hle hne

variable {m : Map Key Value} {start : Key}

theorem iterFrom_head {entry : Key × Value} (h : (m.iterFrom start).head? = some entry) :
    m.lookup entry.1 = some entry.2 ∧ start ≤ entry.1 ∧ ∀ k v, m.lookup k = some v → start ≤ k → entry.1 ≤ k := by
  obtain ⟨hl,hs⟩ := (mem_iterFrom m start entry).mp (mem_of_head? h)
  refine ⟨hl,hs,fun k v hk hle => ?_⟩
  have hm := (mem_iterFrom m start (k,v)).mpr ⟨hk,hle⟩
  have hsr : (m.iterFrom start).Pairwise fun a b => a.1 ≤ b.1 := pairwise_insertionSort _ _
  cases hi : m.iterFrom start with
  | nil => simp [hi] at hm
  | cons first rest =>
    rw [hi] at h hm hsr
    obtain rfl : first = entry := Option.some.inj h
    rcases mem_cons.mp hm with rfl | hrest
    · exact le_rfl
    · exact (pairwise_cons.mp hsr).1 _ hrest

theorem iterFrom_empty (h : (m.iterFrom start).head? = none) (k : Key) (v : Value) (hk : m.lookup k = some v) : ¬start ≤ k := by
  intro hle
  have hm := (mem_iterFrom m start (k,v)).mpr ⟨hk,hle⟩
  rw [head?_eq_none_iff.mp h] at hm
  simp at hm

theorem head?_iterFrom_congr {m' : Map Key Value}
    (h : ∀ k, start ≤ k → m'.lookup k = m.lookup k) : (m'.iterFrom start).head? = (m.iterFrom start).head? := by
  cases hm : (m.iterFrom start).head? with
  | none =>
    cases hm' : (m'.iterFrom start).head? with
    | none => rfl
    | some entry =>
      obtain ⟨hl,hs,-⟩ := iterFrom_head hm'
      rw [h _ hs] at hl
      exact absurd hs (iterFrom_empty hm _ _ hl)
  | some entry =>
    obtain ⟨hl,hs,hls⟩ := iterFrom_head hm
    cases hm' : (m'.iterFrom start).head? with
    | none =>
      rw [← h _ hs] at hl
      exact absurd hs (iterFrom_empty hm' _ _ hl)
    | some entry' =>
      obtain ⟨hl',hs',hls'⟩ := iterFrom_head hm'
      have hkey : entry'.1 = entry.1 :=
        le_antisymm (hls' _ _ ((h _ hs).trans hl) hs) (hls _ _ ((h _ hs').symm.trans hl') hs')
      rw [h _ hs',hkey,hl] at hl'
      rw [Option.some.injEq]
      exact Prod.ext hkey (Option.some.inj hl').symm

end Map

inductive BatchOp (Key Value : Type)
  | put (key : Key) (value : Value)
  | delete (key : Key)
deriving DecidableEq, Repr

namespace BatchOp
variable {Key Value : Type}

def key : BatchOp Key Value → Key
  | .put key _ => key
  | .delete key => key

def value : BatchOp Key Value → Option Value
  | .put _ value => some value
  | .delete _ => none

end BatchOp

namespace Map
variable {Key Value : Type} [DecidableEq Key]

def apply (m : Map Key Value) : BatchOp Key Value → Map Key Value
  | .put key value => m.insert key value
  | .delete key => m.erase key

/-- The operations of a batch take effect in order. -/
def write (m : Map Key Value) (batch : List (BatchOp Key Value)) : Map Key Value := batch.foldl apply m

variable (m : Map Key Value)
include m

theorem lookup_apply (op : BatchOp Key Value) (k : Key) :
    (m.apply op).lookup k = if k = op.key then op.value else m.lookup k := by
  cases op with
  | put key value => exact lookup_insert_ite m key k value
  | delete key => exact lookup_erase_ite m key k

theorem lookup_apply_put (key : Key) (value : Value) (k : Key) :
    (m.apply (.put key value)).lookup k = if k = key then some value else m.lookup k :=
  lookup_insert_ite m key k value

theorem lookup_apply_delete (key k : Key) : (m.apply (.delete key)).lookup k = if k = key then none else m.lookup k :=
  lookup_erase_ite m key k

theorem write_cons (op : BatchOp Key Value) (rest : List (BatchOp Key Value)) :
    m.write (op::rest) = (m.apply op).write rest := rfl

@[simp] theorem write_nil : m.write [] = m := rfl

theorem write_append (first second : List (BatchOp Key Value)) : m.write (first ++ second) = (m.write first).write second := by
  simp [write]

omit m

variable {k : Key}

theorem lookup_write_congr {m m' : Map Key Value} (h : m'.lookup k = m.lookup k)
    (batch : List (BatchOp Key Value)) : (m'.write batch).lookup k = (m.write batch).lookup k := by
  induction batch generalizing m m' with
  | nil => exact h
  | cons op rest ih =>
    refine ih ?_
    rw [lookup_apply,lookup_apply,h]

variable {batch : List (BatchOp Key Value)}

theorem lookup_write_of_not_mem (m : Map Key Value) (h : ∀ op ∈ batch, op.key ≠ k) : (m.write batch).lookup k = m.lookup k := by
  induction batch generalizing m with
  | nil => rfl
  | cons op rest ih =>
    obtain ⟨hop,hrest⟩ := forall_mem_cons.mp h
    change ((m.apply op).write rest).lookup k = _
    rw [ih (m.apply op) hrest,lookup_apply,if_neg (Ne.symm hop)]

theorem lookup_write_of_agree (m : Map Key Value) {v : Option Value} (h : ∀ op ∈ batch, op.key = k → op.value = v) :
    (m.write batch).lookup k = if ∃ op ∈ batch, op.key = k then v else m.lookup k := by
  induction batch generalizing m with
  | nil => simp
  | cons op rest ih =>
    obtain ⟨hop,hrest⟩ := forall_mem_cons.mp h
    change ((m.apply op).write rest).lookup k = _
    rw [ih (m.apply op) hrest,lookup_apply]
    by_cases hr : ∃ o ∈ rest, o.key = k
    · simp [hr]
    rw [if_neg hr]
    by_cases hk : k = op.key
    · simp [hk,hop hk.symm]
    · simp [hr,hk,Ne.symm hk]

end Map

section
variable {α : Type} [LinearOrder α]
variable {b a : List α}

theorem append_lt_append_left_iff (p : List α) : p ++ a < p ++ b ↔ a < b := by
  induction p with
  | nil => rfl
  | cons x p ih => simp [ih]

theorem append_le_append_left_iff (p : List α) : p ++ a ≤ p ++ b ↔ a ≤ b := by
  rw [← not_lt,← not_lt,append_lt_append_left_iff]

theorem lt_of_append_le_of_not_prefix {p k : List α} (h : p ++ a ≤ k) (hk : ¬p <+: k) (b : List α) : p ++ b < k := by
  induction p generalizing k with
  | nil => exact absurd nil_prefix hk
  | cons x p ih =>
    rw [← not_lt] at h
    cases k with
    | nil => exact absurd (nil_lt_cons x (p ++ a)) h
    | cons y k =>
      rw [cons_append,cons_lt_cons_iff,not_or,not_and,not_lt] at h
      rw [cons_append,cons_lt_cons_iff]
      obtain ⟨hle,hrest⟩ := h
      rcases hle.lt_or_eq with hlt | rfl
      · exact .inl hlt
      · refine .inr ⟨rfl,ih (not_lt.mp (hrest rfl)) fun hp => hk ?_⟩
        exact cons_prefix_cons.mpr ⟨rfl,hp⟩

theorem append_singleton_lt_iff (h : a.length = b.length) {x y : α} : a ++ [x] < b ++ [y] ↔ a < b ∨ a = b ∧ x < y := by
  induction a generalizing b with
  | nil =>
    cases b with
    | nil => simp [cons_lt_cons_iff]
    | cons _ _ => simp at h
  | cons c a ih =>
    cases b with
    | nil => simp at h
    | cons d b =>
      simp only [cons_append,cons_lt_cons_iff,ih (by simpa using h),List.cons.injEq]
      constructor
      · rintro (hlt | ⟨rfl,hlt | ⟨rfl,hxy⟩⟩)
        · exact .inl (.inl hlt)
        · exact .inl (.inr ⟨rfl,hlt⟩)
        · exact .inr ⟨⟨rfl,rfl⟩,hxy⟩
      · rintro ((hlt | ⟨rfl,hlt⟩) | ⟨⟨rfl,rfl⟩,hxy⟩)
        · exact .inl hlt
        · exact .inr ⟨rfl,.inl hlt⟩
        · exact .inr ⟨rfl,.inr ⟨rfl,hxy⟩⟩

theorem append_lt_append_of_lt (hl : a.length = b.length) (h : a < b) (x y : List α) : a ++ x < b ++ y := by
  induction a generalizing b with
  | nil =>
    obtain rfl := length_eq_zero_iff.mp hl.symm
    exact absurd h (lt_irrefl _)
  | cons c a ih =>
    cases b with
    | nil => cases hl
    | cons d b =>
      rw [cons_lt_cons_iff] at h
      rw [cons_append,cons_append,cons_lt_cons_iff]
      rcases h with hlt | ⟨rfl,hlt⟩
      · exact .inl hlt
      · exact .inr ⟨rfl,ih (Nat.succ.inj hl) hlt⟩

end

variable {Value α : Type}

theorem Map.iterFrom_write_delete {Key : Type} [LinearOrder Key] [DecidableEq Key] (m : Map Key Value) (keys : List Key)
    (start : Key) : (m.write (keys.map .delete)).iterFrom start = (m.iterFrom start).filter fun entry => decide (entry.1 ∉ keys) := by
  have hlk : ∀ k, (m.write (keys.map .delete)).lookup k = if k ∈ keys then none else m.lookup k := by
    intro k
    have ha : ∀ op ∈ keys.map (@BatchOp.delete Key Value), op.key = k → op.value = none := by
      intro op hop _
      obtain ⟨key,-,rfl⟩ := mem_map.mp hop
      rfl
    rw [lookup_write_of_agree m ha]
    refine if_congr ?_ rfl rfl
    constructor
    · rintro ⟨op,hop,rfl⟩
      obtain ⟨key,hkey,rfl⟩ := mem_map.mp hop
      exact hkey
    · intro hk
      exact ⟨.delete k,mem_map_of_mem hk,rfl⟩
  refine List.Pairwise.eq_of_mem_iff (r := fun a b : Key × Value => a.1 < b.1) (pairwise_iterFrom _ start)
    ((pairwise_iterFrom m start).sublist filter_sublist) fun entry => ?_
  rw [mem_iterFrom,mem_filter,mem_iterFrom,hlk,decide_eq_true_eq]
  by_cases hm : entry.1 ∈ keys
  · simp [hm]
  · simp [hm]

variable (m : Map (List α) Value)
include m

theorem Map.prefix_first_from [LinearOrder α] [DecidableEq (List α)] (p a : List α) :
    (m.iterFrom (p ++ a)).Pairwise fun a b => p <+: b.1 → p <+: a.1 := by
  refine (pairwise_iterFrom m (p ++ a)).imp_of_mem fun {first second} hf _ hlt hs => ?_
  by_contra hno
  obtain ⟨rest,hrest⟩ := hs
  have hgt := lt_of_append_le_of_not_prefix ((mem_iterFrom m (p ++ a) first).mp hf).2 hno rest
  rw [hrest] at hgt
  exact absurd hlt (not_lt.mpr hgt.le)

theorem Map.prefix_first [LinearOrder α] [DecidableEq (List α)] (p : List α) :
    (m.iterFrom p).Pairwise fun a b => p <+: b.1 → p <+: a.1 := by
  have h := m.prefix_first_from p []
  rw [append_nil] at h
  exact h

theorem Map.seek_prefix [LinearOrder α] [DecidableEq (List α)] (p a : List α) :
    (∃ b v, (m.iterFrom (p ++ a)).head? = some (p ++ b,v) ∧ m.lookup (p ++ b) = some v ∧ a ≤ b ∧
      ∀ c w, m.lookup (p ++ c) = some w → a ≤ c → b ≤ c) ∨ ((∀ k v, (m.iterFrom (p ++ a)).head? = some (k,v) → ¬p <+: k) ∧
      ∀ c w, m.lookup (p ++ c) = some w → ¬a ≤ c) := by
  cases hh : (m.iterFrom (p ++ a)).head? with
  | none =>
    refine .inr ⟨by simp,fun c w hc hle => ?_⟩
    exact Map.iterFrom_empty hh (p ++ c) w hc ((append_le_append_left_iff p).mpr hle)
  | some entry =>
    obtain ⟨k,v⟩ := entry
    obtain ⟨hl,hs,hls⟩ := Map.iterFrom_head hh
    by_cases hp : p <+: k
    · obtain ⟨b,rfl⟩ := hp
      refine .inl ⟨b,v,rfl,hl,(append_le_append_left_iff p).mp hs,fun c w hc hle => ?_⟩
      exact (append_le_append_left_iff p).mp (hls (p ++ c) w hc ((append_le_append_left_iff p).mpr hle))
    · refine .inr ⟨fun k' v' he => ?_,fun c w hc hle => ?_⟩
      · cases he
        exact hp
      · -- Everything with the prefix lies before the key that was found.
        have hlt := lt_of_append_le_of_not_prefix hs hp c
        have hle := hls (p ++ c) w hc ((append_le_append_left_iff p).mpr hle)
        exact absurd hlt (not_lt.mpr hle)

end HeliosNano.Foundation
