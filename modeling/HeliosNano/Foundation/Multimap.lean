import Mathlib.Algebra.BigOperators.Group.Finset.Basic

namespace HeliosNano.Foundation
open List

/-- A key may have several values, and a value several times. -/
abbrev Multimap (Key Value : Type*) := Multiset (Key × Value)

namespace Multimap
variable {Key Value : Type*}

def entries (k : Key) (values : Multiset Value) : Multimap Key Value := values.map fun v => (k,v)

variable {k : Key} {m : Multimap Key Value}

theorem mem_entries {values : Multiset Value} {entry : Key × Value} :
    entry ∈ entries k values ↔ entry.1 = k ∧ entry.2 ∈ values := by
  obtain ⟨k',v⟩ := entry
  simp only [entries,Multiset.mem_map,Prod.mk.injEq]
  constructor
  · rintro ⟨v',hv',rfl,rfl⟩
    exact ⟨rfl,hv'⟩
  · rintro ⟨rfl,hv⟩
    exact ⟨v,hv,rfl,rfl⟩

@[simp] theorem card_entries (k : Key) (values : Multiset Value) : (entries k values).card = values.card :=
  Multiset.card_map _ _

@[simp] theorem entries_zero (k : Key) : entries k (0 : Multiset Value) = 0 := rfl

theorem entries_add (k : Key) (a b : Multiset Value) : entries k (a+b) = entries k a + entries k b :=
  Multiset.map_add _ _ _

variable [DecidableEq Key]

def valuesAt (m : Multimap Key Value) (k : Key) : Multiset Value := (m.filter fun entry => entry.1 = k).map (·.2)

@[simp] theorem valuesAt_zero (k : Key) : valuesAt (0 : Multimap Key Value) k = 0 := rfl

@[simp] theorem valuesAt_add (a b : Multimap Key Value) (k : Key) : valuesAt (a+b) k = valuesAt a k + valuesAt b k := by
  rw [valuesAt,Multiset.filter_add,Multiset.map_add]
  rfl

theorem valuesAt_sum {ι : Type*} (s : Finset ι) (f : ι → Multimap Key Value) (k : Key) :
    valuesAt (∑ i ∈ s, f i) k = ∑ i ∈ s, valuesAt (f i) k := by
  induction s using Finset.cons_induction with
  | empty => rfl
  | cons i s hi ih => rw [Finset.sum_cons,Finset.sum_cons,valuesAt_add,ih]

theorem valuesAt_entries (k k' : Key) (values : Multiset Value) :
    valuesAt (entries k values) k' = if k' = k then values else 0 := by
  split
  next hk =>
    subst hk
    rw [valuesAt,Multiset.filter_eq_self.mpr fun entry he => (mem_entries.mp he).1,entries,Multiset.map_map]
    exact Multiset.map_id _
  next hk =>
    rw [valuesAt,Multiset.filter_eq_nil.mpr fun entry he heq => hk (heq.symm.trans (mem_entries.mp he).1)]
    rfl

theorem valuesAt_eq_zero_iff : valuesAt m k = 0 ↔ ∀ entry ∈ m, entry.1 ≠ k := by
  rw [valuesAt,Multiset.map_eq_zero,Multiset.filter_eq_nil]

theorem eq_entries_of_forall (h : ∀ entry ∈ m, entry.1 = k) : m = entries k (valuesAt m k) := by
  rw [valuesAt,Multiset.filter_eq_self.mpr h,entries,Multiset.map_map]
  refine (Multiset.map_id m).symm.trans (Multiset.map_congr rfl fun entry he => ?_)
  obtain ⟨k',v⟩ := entry
  have hk : k' = k := h _ he
  rw [hk]
  rfl

theorem valuesAt_filter_key (m : Multimap Key Value) (p : Key → Bool) (k : Key) :
    valuesAt (m.filter fun entry => p entry.1 = true) k = if p k then valuesAt m k else 0 := by
  rw [valuesAt,Multiset.filter_filter]
  split
  next hp =>
    have hsame : (m.filter fun entry => entry.1 = k ∧ p entry.1 = true) = m.filter fun entry => entry.1 = k :=
      Multiset.filter_congr fun entry _ => ⟨fun h => h.1,fun h => ⟨h,h ▸ hp⟩⟩
    rw [hsame]
    rfl
  next hp =>
    have hn : (m.filter fun entry => entry.1 = k ∧ p entry.1 = true) = 0 :=
      Multiset.filter_eq_nil.mpr fun entry _ h => hp (h.1 ▸ h.2)
    rw [hn,Multiset.map_zero]

theorem valuesAt_map_key {Key' : Type*} [DecidableEq Key'] {f : Key → Key'} (hf : Function.Injective f) (m : Multimap Key Value)
    (k : Key) : valuesAt (m.map (Prod.map f id) : Multimap Key' Value) (f k) = valuesAt m k := by
  rw [valuesAt,valuesAt,Multiset.filter_map,Multiset.map_map]
  have hsame : (m.filter fun entry => (Prod.map f id entry).1 = f k) = m.filter fun entry => entry.1 = k :=
    Multiset.filter_congr fun entry _ => hf.eq_iff
  exact congrArg (Multiset.map _) hsame

theorem mem_valuesAt {v : Value} : v ∈ valuesAt m k ↔ (k,v) ∈ m := by
  simp only [valuesAt,Multiset.mem_map,Multiset.mem_filter]
  constructor
  · rintro ⟨⟨k',v'⟩,⟨hm,rfl⟩,rfl⟩
    exact hm
  · intro hm
    exact ⟨(k,v),⟨hm,rfl⟩,rfl⟩

theorem filter_ne_add_entries (m : Multimap Key Value) (k : Key) :
    (m.filter fun entry => entry.1 ≠ k) + entries k (valuesAt m k) = m := by
  have hkey : entries k (valuesAt m k) = m.filter fun entry => entry.1 = k := by
    have ha : ∀ entry ∈ m.filter fun entry => entry.1 = k, entry.1 = k := fun entry he => (Multiset.mem_filter.mp he).2
    refine Eq.trans ?_ (eq_entries_of_forall ha).symm
    rw [valuesAt,valuesAt,Multiset.filter_eq_self.mpr ha]
  rw [hkey,add_comm]
  exact Multiset.filter_add_not _ m

theorem add_entries_erase [DecidableEq Value] (m : Multimap Key Value) (k : Key) (v : Value) :
    m.erase (k,v) + entries k (valuesAt m k) = m + entries k ((valuesAt m k).erase v) := by
  by_cases hv : v ∈ valuesAt m k
  · obtain ⟨rest,hrest⟩ := Multiset.exists_cons_of_mem hv
    obtain ⟨others,ho⟩ := Multiset.exists_cons_of_mem (mem_valuesAt.mp hv)
    rw [hrest,Multiset.erase_cons_head,ho,Multiset.erase_cons_head,entries,entries,Multiset.map_cons,Multiset.add_cons,Multiset.cons_add]
  · rw [Multiset.erase_of_notMem hv,Multiset.erase_of_notMem fun he => hv (mem_valuesAt.mpr he)]

theorem valuesAt_cons (m : Multimap Key Value) (k' : Key) (v : Value) (k : Key) :
    valuesAt ((k',v) ::ₘ m) k = (if k = k' then {v} else 0) + valuesAt m k := by
  rw [← Multiset.singleton_add,valuesAt_add]
  exact congrArg (· + _) (valuesAt_entries k' k {v})

theorem valuesAt_erase [DecidableEq Value] (m : Multimap Key Value) (k' : Key) (v : Value) (k : Key) :
    valuesAt (m.erase (k',v)) k = if k = k' then (valuesAt m k).erase v else valuesAt m k := by
  have hv := congrArg (fun m => valuesAt m k) (add_entries_erase m k' v)
  simp only [valuesAt_add,valuesAt_entries] at hv
  by_cases hk : k = k'
  · subst hk
    rw [if_pos rfl,if_pos rfl,add_comm (valuesAt m k)] at hv
    rw [if_pos rfl]
    exact add_right_cancel hv
  · rw [if_neg hk,if_neg hk,add_zero,add_zero] at hv
    rw [if_neg hk]
    exact hv

theorem filter_ne_eq_erase [DecidableEq Value] {v : Value} (h : valuesAt m k = {v}) :
    (m.filter fun entry => entry.1 ≠ k) = m.erase (k,v) := by
  have he := add_entries_erase m k v
  rw [h,← Multiset.cons_zero,Multiset.erase_cons_head,entries_zero,add_zero,Multiset.cons_zero,← h] at he
  exact add_right_cancel ((filter_ne_add_entries m k).trans he.symm)

theorem filter_ne_eq_self (h : valuesAt m k = 0) : (m.filter fun entry => entry.1 ≠ k) = m :=
  Multiset.filter_eq_self.mpr (valuesAt_eq_zero_iff.mp h)

variable {m' : Multimap Key Value}

theorem valuesAt_le (h : m ≤ m') (k : Key) : valuesAt m k ≤ valuesAt m' k :=
  Multiset.map_le_map (Multiset.filter_le_filter _ h)

theorem ext_valuesAt (h : ∀ k, valuesAt m k = valuesAt m' k) : m = m' := by
  classical
  ext ⟨k,v⟩
  have hc : ∀ m : Multimap Key Value, m.count (k,v) = (valuesAt m k).count v := by
    intro m
    rw [valuesAt,Multiset.count_map,Multiset.filter_filter,Multiset.count,Multiset.countP_eq_card_filter]
    refine congrArg Multiset.card (Multiset.filter_congr fun entry _ => ?_)
    obtain ⟨k',v'⟩ := entry
    simp only [Prod.mk.injEq]
    exact ⟨fun h => ⟨h.2,h.1.symm⟩,fun h => ⟨h.2.symm,h.1⟩⟩
  rw [hc,hc,h]

theorem card_valuesAt_le (m : Multimap Key Value) (k : Key) : (valuesAt m k).card ≤ m.card := by
  rw [valuesAt,Multiset.card_map]
  exact Multiset.card_le_card (Multiset.filter_le _ _)

def listAt (entries : List (Key × Value)) (k : Key) : List Value := (entries.filter fun entry => entry.1 = k).map (·.2)

@[simp] theorem listAt_nil (k : Key) : listAt ([] : List (Key × Value)) k = [] := rfl

theorem coe_listAt (entries : List (Key × Value)) (k : Key) :
    (listAt entries k : Multiset Value) = valuesAt (entries : Multimap Key Value) k := rfl

theorem listAt_append (a b : List (Key × Value)) (k : Key) : listAt (a ++ b) k = listAt a k ++ listAt b k := by
  rw [listAt,filter_append,map_append]
  rfl

theorem listAt_flatMap {ι : Type*} (xs : List ι) (f : ι → List (Key × Value)) (k : Key) :
    listAt (xs.flatMap f) k = xs.flatMap fun x => listAt (f x) k := by
  induction xs with
  | nil => rfl
  | cons x rest ih => rw [flatMap_cons,flatMap_cons,listAt_append,ih]

theorem listAt_map_mk (values : List Value) (k k' : Key) :
    listAt (values.map fun v => (k',v)) k = if k = k' then values else [] := by
  induction values with
  | nil => simp
  | cons v rest ih =>
    by_cases hk : k = k'
    · subst hk
      simpa [listAt] using ih
    · simp [listAt,hk,Ne.symm hk]

variable {entries : List (Key × Value)}

theorem nodup_keys_of_listAt (h : ∀ k, (listAt entries k).length ≤ 1) : (entries.map (·.1)).Nodup := by
  rw [nodup_iff_count_le_one]
  intro k
  have hc : (entries.map (·.1)).count k = (listAt entries k).length := by
    rw [listAt,length_map,List.count,countP_map,countP_eq_length_filter]
    exact congrArg List.length (filter_congr fun entry _ => beq_eq_decide _ _)
  rw [hc]
  exact h k

theorem mem_of_listAt {entry : Key × Value} (h : entry ∈ entries) : listAt entries entry.1 ≠ [] :=
  ne_nil_of_mem (mem_map_of_mem (mem_filter.mpr ⟨h,by simp⟩))

end Multimap
end HeliosNano.Foundation
