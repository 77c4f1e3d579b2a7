import Mathlib.Order.Bounds.Basic
import HeliosNano.Foundation.Maps

namespace HeliosNano.Sync
open Foundation List Function

abbrev Uuid := Nat

structure VectorClock where
  clocks : Map Uuid Nat
deriving DecidableEq

namespace VectorClock

def new : VectorClock := ⟨∅⟩

def get (c : VectorClock) (id : Uuid) : Nat := (c.clocks.lookup id).getD 0

def increment (c : VectorClock) (node : Uuid) : VectorClock := ⟨c.clocks.insert node (c.get node + 1)⟩

def happensBefore (c other : VectorClock) : Bool :=
  (c.clocks.entries.all fun e =>
    match other.clocks.lookup e.1 with
    | some ov => e.2 ≤ ov
    | none => e.2 == 0) &&
  ((c.clocks.entries.any fun e =>
    match other.clocks.lookup e.1 with
    | some ov => e.2 < ov
    | none => e.2 > 0) ||
   other.clocks.entries.any fun e =>
    match c.clocks.lookup e.1 with
    | some v => v < e.2
    | none => e.2 > 0)

def conflictsWith (c other : VectorClock) : Bool := !c.happensBefore other && !other.happensBefore c

def raise (c : VectorClock) (id : Uuid) (v : Nat) : VectorClock := ⟨c.clocks.insert id (max (c.get id) v)⟩

def merge (c other : VectorClock) : VectorClock := other.clocks.entries.foldl (fun c e => c.raise e.1 e.2) c

variable {a b c : VectorClock}

theorem get_of_mem {e : Sigma fun _ : Uuid => Nat} (h : e ∈ c.clocks.entries) : c.get e.1 = e.2 := by
  have hlk : c.clocks.lookup e.1 = some e.2 := AList.mem_lookup_iff.mpr h
  rw [get,hlk,Option.getD_some]

theorem mem_or_get_eq_zero (c : VectorClock) (id : Uuid) : ⟨id,c.get id⟩ ∈ c.clocks.entries ∨ c.get id = 0 := by
  cases hlk : c.clocks.lookup id with
  | none => exact .inr (by rw [get,hlk,Option.getD_none])
  | some v =>
    left
    rw [get,hlk,Option.getD_some]
    exact AList.mem_lookup_iff.mp hlk

theorem all_le_iff : (a.clocks.entries.all fun e =>
    match b.clocks.lookup e.1 with
    | some ov => e.2 ≤ ov
    | none => e.2 == 0) = true ↔ a.get ≤ b.get := by
  have hen : ∀ e ∈ a.clocks.entries, (match b.clocks.lookup e.1 with
      | some ov => decide (e.2 ≤ ov)
      | none => e.2 == 0) = true ↔ a.get e.1 ≤ b.get e.1 := by
    intro e he
    rw [get_of_mem he,get]
    cases b.clocks.lookup e.1 with
    | none | some ov => simp
  rw [all_eq_true,Pi.le_def]
  constructor
  · intro h id
    rcases mem_or_get_eq_zero a id with hm | hz
    · exact (hen _ hm).mp (h _ hm)
    · omega
  · intro h e he
    exact (hen e he).mpr (h e.1)

theorem any_lt_iff : (b.clocks.entries.any fun e =>
    match a.clocks.lookup e.1 with
    | some v => v < e.2
    | none => e.2 > 0) = true ↔ ∃ id, a.get id < b.get id := by
  have hen : ∀ e ∈ b.clocks.entries, (match a.clocks.lookup e.1 with
      | some v => decide (v < e.2)
      | none => decide (e.2 > 0)) = true ↔ a.get e.1 < b.get e.1 := by
    intro e he
    rw [get_of_mem he,get]
    cases a.clocks.lookup e.1 with
    | none | some v => simp
  rw [any_eq_true]
  constructor
  · rintro ⟨e,he,hlt⟩
    exact ⟨e.1,(hen e he).mp hlt⟩
  · rintro ⟨id,hlt⟩
    rcases mem_or_get_eq_zero b id with hm | hz
    · exact ⟨_,hm,(hen _ hm).mpr hlt⟩
    · omega

theorem any_below (hle : a.get ≤ b.get) (h : (a.clocks.entries.any fun e =>
    match b.clocks.lookup e.1 with
    | some ov => e.2 < ov
    | none => e.2 > 0) = true) : ∃ id, a.get id < b.get id := by
  obtain ⟨e,he,hlt⟩ := any_eq_true.mp h
  have hg := hle e.1
  rw [get_of_mem he] at hg
  refine ⟨e.1,?_⟩
  rw [get_of_mem he]
  rw [get] at hg ⊢
  cases hlk : b.clocks.lookup e.1 with
  | none =>
    rw [hlk] at hlt hg
    have hp : 0 < e.2 := by simpa using hlt
    simp only [Option.getD_none] at hg
    omega
  | some ov =>
    rw [hlk] at hlt
    simpa using hlt

theorem happensBefore_iff : a.happensBefore b = true ↔ a.get < b.get := by
  rw [happensBefore,Bool.and_eq_true,all_le_iff,Bool.or_eq_true,any_lt_iff,Pi.lt_def]
  constructor
  · rintro ⟨hle,ha | hlt⟩
    · exact ⟨hle,any_below hle ha⟩
    · exact ⟨hle,hlt⟩
  · rintro ⟨hle,hlt⟩
    exact ⟨hle,.inr hlt⟩

theorem get_raise (id v : Nat) : (c.raise id v).get = Function.update c.get id (max (c.get id) v) := by
  funext other
  simp only [get,raise,Map.lookup_insert_ite,update_apply]
  split
  · simp
  · rfl

theorem get_foldl_raise {entries : List (Sigma fun _ : Uuid => Nat)} (hnd : entries.NodupKeys) (id : Uuid) :
    (entries.foldl (fun c e => c.raise e.1 e.2) c).get id = max (c.get id) ((entries.dlookup id).getD 0) := by
  induction entries generalizing c with
  | nil => simp
  | cons e rest ih =>
    obtain ⟨hf,hrest⟩ := nodupKeys_cons.mp hnd
    rw [foldl_cons,ih hrest,get_raise,update_apply]
    by_cases hid : id = e.1
    · subst hid
      rw [if_pos rfl,dlookup_eq_none.mpr hf,dlookup_cons_eq]
      simp
    · rw [if_neg hid,dlookup_cons_ne _ _ hid]

theorem get_merge : (a.merge b).get = a.get ⊔ b.get := by
  funext id
  exact get_foldl_raise b.clocks.nodupKeys id

end VectorClock
end HeliosNano.Sync
