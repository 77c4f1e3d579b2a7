import Mathlib.Data.List.Pairwise
import Mathlib.Data.List.Nodup

namespace HeliosNano.Foundation
open List Option
variable {Id Label Value : Type*}

/-- The list has the elements of the family and no others. No label is in it twice. -/
structure Lists (label : Value → Label) (values : List Value) (family : Id → Value → Prop) : Prop where
  distinct : values.Pairwise fun a b => label a ≠ label b
  listed : ∀ value, value ∈ values ↔ ∃ i, family i value

namespace Lists
variable {label : Value → Label} {values others : List Value} {family other : Id → Value → Prop}
variable (h : Lists label values family)
include h

theorem congr (hsame : ∀ i value, family i value ↔ other i value) : Lists label values other where
  distinct := h.distinct
  listed value := by
    rw [h.listed]
    exact exists_congr fun i => hsame i value

theorem filterMap {replace : Value → Option Value}
    (hl : ∀ value value', replace value = some value' → label value' = label value) :
    Lists label (values.filterMap replace) fun i value' => ∃ value, family i value ∧ replace value = some value' where
  distinct := by
    rw [pairwise_filterMap]
    refine h.distinct.imp fun hne a ha b hb => ?_
    rw [hl _ _ ha,hl _ _ hb]
    exact hne
  listed value' := by
    rw [mem_filterMap]
    constructor
    · rintro ⟨value,hm,hr⟩
      obtain ⟨i,hi⟩ := (h.listed value).mp hm
      exact ⟨i,value,hi,hr⟩
    · rintro ⟨i,value,hi,hr⟩
      exact ⟨value,(h.listed value).mpr ⟨i,hi⟩,hr⟩

theorem append (h' : Lists label others other)
    (hd : ∀ i value j value', family i value → other j value' → label value ≠ label value') :
    Lists label (values ++ others) fun i value => family i value ∨ other i value where
  distinct := by
    refine pairwise_append.mpr ⟨h.distinct,h'.distinct,fun value hv value' hv' => ?_⟩
    obtain ⟨i,hi⟩ := (h.listed value).mp hv
    obtain ⟨j,hj⟩ := (h'.listed value').mp hv'
    exact hd i value j value' hi hj
  listed value := by
    rw [mem_append,h.listed,h'.listed,exists_or]

omit h

theorem ofEntries {Entry : Type*} {entries : List Entry} {idOf : Entry → Option Id} {read : Id → Entry → Option Value}
    (hd : entries.Pairwise fun a b => ∀ i j, idOf a = some i → idOf b = some j → i ≠ j)
    (hl : ∀ i j entry entry' value value', read i entry = some value → read j entry' = some value' →
      label value = label value' → i = j) :
    Lists label (entries.filterMap fun entry => (idOf entry).bind fun i => read i entry)
      fun i value => ∃ entry ∈ entries, idOf entry = some i ∧ read i entry = some value where
  distinct := by
    rw [pairwise_filterMap]
    refine hd.imp fun hne a ha b hb heq => ?_
    obtain ⟨i,hi,ha⟩ := bind_eq_some_iff.mp ha
    obtain ⟨j,hj,hb⟩ := bind_eq_some_iff.mp hb
    exact hne i j hi hj (hl i j _ _ a b ha hb heq)
  listed value := by
    rw [mem_filterMap]
    constructor
    · rintro ⟨entry,hm,hr⟩
      obtain ⟨i,hi,hr⟩ := bind_eq_some_iff.mp hr
      exact ⟨i,entry,hm,hi,hr⟩
    · rintro ⟨i,entry,hm,hi,hr⟩
      exact ⟨entry,hm,bind_eq_some_iff.mpr ⟨i,hi,hr⟩⟩

end Lists
end HeliosNano.Foundation
