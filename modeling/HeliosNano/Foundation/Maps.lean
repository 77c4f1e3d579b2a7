import Mathlib.Data.List.AList

namespace HeliosNano.Foundation
open List Option AList

/-- A finite map from keys to values. Its iteration order is that of its entries. -/
abbrev Map (Key Value : Type) := AList fun _ : Key => Value

namespace Map
variable {Key Value : Type} [DecidableEq Key]

theorem lookup_insert_ite (m : Map Key Value) (k k' : Key) (v : Value) :
    (m.insert k v).lookup k' = if k' = k then some v else m.lookup k' := by
  split
  next h =>
    subst h
    exact lookup_insert m
  next h =>
    exact lookup_insert_ne h

theorem lookup_erase_ite (m : Map Key Value) (k k' : Key) : (m.erase k).lookup k' = if k' = k then none else m.lookup k' := by
  split
  next h =>
    subst h
    exact lookup_erase k' m
  next h =>
    exact lookup_erase_ne h

def retain (keep : Key → Value → Bool) (m : Map Key Value) : Map Key Value :=
  ⟨m.entries.filter fun entry => keep entry.1 entry.2,m.nodupKeys.sublist filter_sublist⟩

theorem lookup_retain (keep : Key → Value → Bool) (m : Map Key Value) (k : Key) :
    (m.retain keep).lookup k = (m.lookup k).filter (keep k) := by
  ext v
  rw [← mem_def,mem_lookup_iff,filter_eq_some_iff,← mem_def,
    mem_lookup_iff]
  exact mem_filter

/-- Every value replaced by its image. -/
def mapValues {Value' : Type} (f : Value → Value') (m : Map Key Value) : Map Key Value' where
  entries := m.entries.map fun entry => ⟨entry.1,f entry.2⟩
  nodupKeys := by
    have hkeys : (m.entries.map fun entry => (⟨entry.1,f entry.2⟩ : Sigma fun _ => Value')).keys = m.entries.keys := by
      simp [List.keys]
    rw [List.NodupKeys,hkeys]
    exact m.nodupKeys

theorem lookup_mapValues {Value' : Type} (f : Value → Value') (m : Map Key Value) (k : Key) :
    (m.mapValues f).lookup k = (m.lookup k).map f := by
  ext v
  rw [← mem_def,mem_lookup_iff,map_eq_some_iff]
  constructor
  · intro h
    obtain ⟨⟨k',v'⟩,hm,he⟩ := mem_map.mp h
    cases he
    exact ⟨v',mem_lookup_iff.mpr hm,rfl⟩
  · rintro ⟨v',hv',rfl⟩
    exact mem_map.mpr ⟨⟨k,v'⟩,mem_lookup_iff.mp hv',rfl⟩

theorem mem_foldl_insert (entries : List (Key × Value)) (m : Map Key Value) (k : Key) :
    k ∈ entries.foldl (fun m entry => m.insert entry.1 entry.2) m ↔ k ∈ m ∨ k ∈ entries.map (·.1) := by
  induction entries generalizing m with
  | nil => simp
  | cons entry rest ih =>
    rw [foldl_cons,ih,mem_insert,map_cons,mem_cons]
    tauto

variable {entries : List (Key × Value)}

theorem lookup_foldl_insert_of_notMem (m : Map Key Value) {k : Key} (h : k ∉ entries.map (·.1)) :
    (entries.foldl (fun m entry => m.insert entry.1 entry.2) m).lookup k = m.lookup k := by
  induction entries generalizing m with
  | nil => rfl
  | cons entry rest ih =>
    rw [map_cons,mem_cons,not_or] at h
    rw [foldl_cons,ih _ h.2,lookup_insert_ne h.1]

theorem lookup_foldl_insert_of_mem (m : Map Key Value) (hnd : (entries.map (·.1)).Nodup)
    {entry : Key × Value} (h : entry ∈ entries) :
    (entries.foldl (fun m entry => m.insert entry.1 entry.2) m).lookup entry.1 = some entry.2 := by
  induction entries generalizing m with
  | nil => cases h
  | cons first rest ih =>
    obtain ⟨hf,hrest⟩ := nodup_cons.mp hnd
    rcases mem_cons.mp h with rfl | hm
    · rw [foldl_cons,lookup_foldl_insert_of_notMem _ hf,lookup_insert]
    · exact ih _ hrest hm

theorem length_erase_lt (m : Map Key Value) {k : Key} (h : k ∈ m) : (m.erase k).entries.length < m.entries.length := by
  obtain ⟨entry,he,hkey⟩ := mem_map.mp (AList.mem_keys.mp h)
  have her : (m.erase k).entries.length = m.entries.length-1 :=
    length_eraseP_of_mem he (by simp [hkey])
  have hp : 0 < m.entries.length := length_pos_of_mem he
  omega

theorem mem_foldl_erase {kept : Key → Prop} [DecidablePred kept] (keys : List Key) (m : Map Key Value)
    (k : Key) : k ∈ keys.foldl (fun m key => if kept key then m else m.erase key) m ↔ k ∈ m ∧ (kept k ∨ k ∉ keys) := by
  induction keys generalizing m with
  | nil => simp
  | cons key rest ih =>
    rw [foldl_cons,ih,mem_cons]
    by_cases hk : kept key
    · rw [if_pos hk]
      by_cases he : k = key
      · subst he
        simp [hk]
      · simp [he]
    · rw [if_neg hk,mem_erase]
      by_cases he : k = key
      · subst he
        simp [hk]
      · simp [he]

section
variable (dest : Key → Value → Key) (change : Value → Key → Value)

def moveEntry (acc : Map Key Value × List (Key × Key)) (k : Key) : Map Key Value × List (Key × Key) :=
  match acc.1.lookup k with
  | none => acc
  | some v => ((acc.1.erase k).insert (dest k v) (change v (dest k v)),acc.2 ++ [(k,dest k v)])

def movesTo (m : Map Key Value) (k : Key) : Key :=
  match m.lookup k with
  | none => k
  | some v => dest k v

theorem movesTo_eq {m : Map Key Value} {k : Key} {v : Value} (h : m.lookup k = some v) : movesTo dest m k = dest k v := by
  rw [movesTo,h]

theorem foldl_moveEntry {keys : List Key} {m : Map Key Value} (moves : List (Key × Key)) (hnd : keys.Nodup)
    (hin : ∀ k ∈ keys, k ∈ m) (hc : ∀ k ∈ keys, movesTo dest m k ∈ m → movesTo dest m k = k)
    (hi : ∀ k ∈ keys, ∀ k' ∈ keys, movesTo dest m k = movesTo dest m k' → k = k') :
    (keys.foldl (moveEntry dest change) (m,moves)).2 = moves ++ keys.map (fun k => (k,movesTo dest m k)) ∧
      (∀ k ∈ keys, ∀ v, m.lookup k = some v →
        (keys.foldl (moveEntry dest change) (m,moves)).1.lookup (movesTo dest m k) = some (change v (movesTo dest m k))) ∧
      ∀ j, (∀ k ∈ keys, j ≠ movesTo dest m k) →
        (keys.foldl (moveEntry dest change) (m,moves)).1.lookup j = if j ∈ keys then none else m.lookup j := by
  induction keys generalizing m moves with
  | nil => simp
  | cons k rest ih =>
    obtain ⟨hf,hrest⟩ := nodup_cons.mp hnd
    obtain ⟨v,hv⟩ := isSome_iff_exists.mp (lookup_isSome.mpr (hin k mem_cons_self))
    have hto := movesTo_eq dest hv
    have hcl : dest k v ∈ m → dest k v = k := hto ▸ hc k mem_cons_self
    have htr : moveEntry dest change (m,moves) k =
        ((m.erase k).insert (dest k v) (change v (dest k v)),moves ++ [(k,dest k v)]) := by
      simp only [moveEntry,hv]
    have hlk : ∀ j, ((m.erase k).insert (dest k v) (change v (dest k v))).lookup j =
        if j = dest k v then some (change v (dest k v)) else if j = k then none else m.lookup j := by
      intro j
      rw [lookup_insert_ite,lookup_erase_ite]
    -- The entries that move later are still where they were.
    have hne : ∀ r ∈ rest, r ≠ k ∧ r ≠ dest k v := by
      intro r hr
      have hrk : r ≠ k := by
        rintro rfl
        exact hf hr
      refine ⟨hrk,fun he => hrk ?_⟩
      rw [he]
      exact hcl (he ▸ hin r (mem_cons_of_mem k hr))
    have hsame : ∀ r ∈ rest, ((m.erase k).insert (dest k v) (change v (dest k v))).lookup r = m.lookup r := by
      intro r hr
      obtain ⟨hrk,hrt⟩ := hne r hr
      rw [hlk,if_neg hrt,if_neg hrk]
    have hmv : ∀ r ∈ rest, movesTo dest ((m.erase k).insert (dest k v) (change v (dest k v))) r = movesTo dest m r := by
      intro r hr
      rw [movesTo,movesTo,hsame r hr]
    have ha : ∀ r ∈ rest, movesTo dest m r ≠ dest k v := by
      intro r hr he
      exact (hne r hr).1 (hi r (mem_cons_of_mem k hr) k mem_cons_self (he.trans hto.symm))
    obtain ⟨hl,hmd,hs⟩ := @ih ((m.erase k).insert (dest k v) (change v (dest k v))) (moves ++ [(k,dest k v)]) hrest
      (fun r hr => by
        rw [← lookup_isSome,hsame r hr,lookup_isSome]
        exact hin r (mem_cons_of_mem k hr))
      (fun r hr hmm => by
        rw [hmv r hr] at hmm ⊢
        rw [← lookup_isSome,hlk,if_neg (ha r hr)] at hmm
        split at hmm
        · cases hmm
        · exact hc r (mem_cons_of_mem k hr) (lookup_isSome.mp hmm))
      (fun r hr r' hr' he => by
        rw [hmv r hr,hmv r' hr'] at he
        exact hi r (mem_cons_of_mem k hr) r' (mem_cons_of_mem k hr') he)
    rw [foldl_cons,htr]
    refine ⟨?_,?_,?_⟩
    · rw [hl,map_cons,hto,append_assoc,singleton_append]
      congr 2
      exact map_congr_left fun r hr => by rw [hmv r hr]
    · intro k' hk' v' hv'
      rcases mem_cons.mp hk' with rfl | hr
      · obtain rfl : v = v' := Option.some.inj (hv.symm.trans hv')
        have hn : dest k' v ∉ rest := fun hmm => (hne _ hmm).2 rfl
        rw [hto,hs (dest k' v) (fun r hr => by rw [hmv r hr]; exact (ha r hr).symm),if_neg hn,hlk,if_pos rfl]
      · have hm := hmd k' hr v' ((hsame k' hr).trans hv')
        rwa [hmv k' hr] at hm
    · intro j hj
      obtain ⟨hjk,hjr⟩ := forall_mem_cons.mp hj
      rw [hto] at hjk
      rw [hs j (fun r hr => by rw [hmv r hr]; exact hjr r hr),hlk,if_neg hjk]
      by_cases hjk' : j = k
      · simp [hjk']
      · simp [hjk']

end

end Map

theorem exists_split_of_nodup_keys {Key Value : Type} {entries : List (Key × Value)} {k : Key} {v : Value}
    (hnd : (entries.map (·.1)).Nodup) (h : (k,v) ∈ entries) : ∃ before after, entries = before ++ (k,v)::after ∧
      (∀ entry ∈ before, entry.1 ≠ k) ∧ ∀ entry ∈ after, entry.1 ≠ k := by
  obtain ⟨before,after,rfl⟩ := append_of_mem h
  rw [map_append,map_cons,nodup_append] at hnd
  obtain ⟨-,hc,hd⟩ := hnd
  refine ⟨before,after,rfl,fun entry he heq => ?_,fun entry he heq => ?_⟩
  · exact hd _ (mem_map_of_mem he) _ mem_cons_self heq
  · exact (nodup_cons.mp hc).1 (mem_map.mpr ⟨entry,he,heq⟩)

end HeliosNano.Foundation
