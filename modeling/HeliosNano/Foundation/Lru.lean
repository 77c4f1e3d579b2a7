import Mathlib.Data.List.Nodup

namespace HeliosNano.Foundation
open List

/-- The entries of a least-recently-used map, the most recent first. -/
structure Lru (Key Value : Type) where
  capacity : Nat
  entries : List (Key × Value)
  pos : 0 < capacity
  nodup : (entries.map Prod.fst).Nodup
  bounded : entries.length ≤ capacity

namespace Lru
variable {Key Value : Type} [DecidableEq Key] (c : Lru Key Value) (k k' : Key) (v : Value)

def empty (capacity : Nat) (hpos : 0 < capacity) : Lru Key Value := ⟨capacity,[],hpos,nodup_nil,Nat.zero_le _⟩

/-- Look a key up and leave the recency as it is. -/
def peek : Option Value := c.entries.lookup k

def others : List (Key × Value) := c.entries.filter fun entry => entry.1 ≠ k

theorem others_sublist : (c.others k).Sublist c.entries := filter_sublist

theorem notMem_others : k ∉ (c.others k).map Prod.fst := by
  simp [others]

def pop : Lru Key Value where
  capacity := c.capacity
  entries := c.others k
  pos := c.pos
  nodup := c.nodup.sublist ((c.others_sublist k).map Prod.fst)
  bounded := Nat.le_trans (c.others_sublist k).length_le c.bounded

def kept : List (Key × Value) :=
  if (c.others k).length < c.capacity then c.others k else (c.others k).dropLast

theorem kept_prefix : c.kept k <+: c.others k := by
  rw [kept]
  split
  · exact prefix_rfl
  · exact dropLast_prefix _

theorem length_kept : (c.kept k).length < c.capacity := by
  have hle := Nat.le_trans (c.others_sublist k).length_le c.bounded
  have hp := c.pos
  rw [kept]
  split
  · assumption
  · rw [length_dropLast]
    omega

def put : Lru Key Value where
  capacity := c.capacity
  entries := (k,v) :: c.kept k
  pos := c.pos
  nodup := by
    have hsub := (c.kept_prefix k).sublist.map Prod.fst
    rw [map_cons,nodup_cons]
    exact ⟨fun h => c.notMem_others k (hsub.subset h),
      (c.nodup.sublist ((c.others_sublist k).map Prod.fst)).sublist hsub⟩
  bounded := c.length_kept k

/-- Replace the value of a key that is there, as its most recent use. -/
def touch (f : Value → Value) : Lru Key Value :=
  match c.peek k with
  | none => c
  | some v => c.put k (f v)

theorem lookup_filter (entries : List (Key × Value)) : (entries.filter fun entry => entry.1 ≠ k).lookup k' =
    if k' = k then none else entries.lookup k' := by
  induction entries with
  | nil => simp
  | cons entry rest ih =>
    obtain ⟨key,value⟩ := entry
    by_cases hkey : key = k
    · subst hkey
      rw [filter_cons_of_neg (by simp),ih,lookup_cons]
      by_cases hk' : k' = key
      · simp [hk']
      · simp [beq_eq_false_iff_ne.mpr hk',hk']
    · rw [filter_cons_of_pos (by simpa using hkey),lookup_cons,lookup_cons,ih]
      by_cases hk' : k' = key
      · simp [hk',hkey]
      · simp [beq_eq_false_iff_ne.mpr hk']

theorem lookup_others : (c.others k).lookup k' = if k' = k then none else c.peek k' := lookup_filter k k' c.entries

theorem peek_pop : (c.pop k).peek k' = if k' = k then none else c.peek k' := c.lookup_others k k'

@[simp] theorem peek_put_self : (c.put k v).peek k = some v := by
  simp [put,peek]

variable {v' : Value} {k : Key} {c : Lru Key Value} {k' : Key}

theorem peek_of_peek_put {v : Value} (hne : k' ≠ k) (h : (c.put k v).peek k' = some v') : c.peek k' = some v' := by
  have hk : (c.kept k).lookup k' = some v' := by
    simpa [put,peek,lookup_cons,beq_eq_false_iff_ne.mpr hne] using h
  have ho := (c.kept_prefix k).lookup_eq_some hk
  rwa [c.lookup_others k k',if_neg hne] at ho

theorem peek_touch_self (f : Value → Value) : (c.touch k f).peek k = (c.peek k).map f := by
  rw [touch]
  cases hp : c.peek k with
  | none => simp [hp]
  | some v => simp

theorem peek_of_peek_touch {f : Value → Value} (hne : k' ≠ k) (h : (c.touch k f).peek k' = some v') : c.peek k' = some v' := by
  rw [touch] at h
  split at h
  · exact h
  · exact peek_of_peek_put hne h

@[simp] theorem peek_empty {capacity : Nat} {hp : 0 < capacity} : (empty capacity hp : Lru Key Value).peek k = none :=
  rfl

end Lru
end HeliosNano.Foundation
