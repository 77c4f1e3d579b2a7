import HeliosNano.Foundation.Maps
import HeliosNano.Storage.Basics

namespace HeliosNano.Storage
open Foundation List

def pruneIntervalCommits : Nat := 4096

/-- Last recorded write per key, the snapshots of the registered validating
transactions and the number of recorded commits. -/
structure WriteConflictRegistry where
  recentWrites : Map Key Timestamp
  activeSnapshots : Map TxnId Timestamp
  commitCount : Nat

/-- One entry access of the validation loop: the conflicting timestamp, or the
recorded map with the timestamp that was there before. -/
def recordKey (validate : Bool) (snapshotTs commitTs : Timestamp) (recent : Map Key Timestamp) (key : Key) :
    Except Timestamp (Map Key Timestamp × Option Timestamp) :=
  match recent.lookup key with
  | some prior =>
    if validate && decide (snapshotTs < prior) then .error prior
    else .ok (recent.insert key commitTs,some prior)
  | none => .ok (recent.insert key commitTs,none)

/-- One entry access of the undo loop: what was there before returns. -/
def undoKey (recent : Map Key Timestamp) (record : Key × Option Timestamp) : Map Key Timestamp :=
  match record.2 with
  | some prior => recent.insert record.1 prior
  | none => recent.erase record.1

/-- The loop over the write set: the map, the records made and the conflict, if any. -/
def recordKeys (validate : Bool) (snapshotTs commitTs : Timestamp) :
    List Key → Map Key Timestamp → List (Key × Option Timestamp) →
      Map Key Timestamp × List (Key × Option Timestamp) × Option (Key × Timestamp)
  | [], recent, recorded => (recent,recorded,none)
  | key::rest, recent, recorded =>
    match recordKey validate snapshotTs commitTs recent key with
    | .error prior => (recent,recorded,some (key,prior))
    | .ok (recent,prior) => recordKeys validate snapshotTs commitTs rest recent (recorded ++ [(key,prior)])

namespace WriteConflictRegistry

def new : WriteConflictRegistry := ⟨∅,∅,0⟩

def registerTxn (r : WriteConflictRegistry) (txn : TxnId) (snapshotTs : Timestamp) : WriteConflictRegistry :=
  { r with activeSnapshots := r.activeSnapshots.insert txn snapshotTs }

def deregisterTxn (r : WriteConflictRegistry) (txn : TxnId) : WriteConflictRegistry :=
  { r with activeSnapshots := r.activeSnapshots.erase txn }

/-- The oldest registered snapshot, the largest timestamp when there is none. -/
def minActive (r : WriteConflictRegistry) : Timestamp :=
  ((r.activeSnapshots.entries.map (·.2)).min?).getD u64Max

/-- Drop the entries no registered validating snapshot can conflict with. -/
def prune (r : WriteConflictRegistry) : WriteConflictRegistry :=
  { r with recentWrites := r.recentWrites.retain fun _ ts => decide (r.minActive ≤ ts) }

/-- Pruning comes with every commit that completes an interval. -/
def PruneDue (r : WriteConflictRegistry) : Prop :=
  r.commitCount%pruneIntervalCommits = pruneIntervalCommits-1
deriving Decidable

def countCommit (r : WriteConflictRegistry) : WriteConflictRegistry :=
  let counted := { r with commitCount := r.commitCount+1 }
  if r.PruneDue then counted.prune else counted

/-- The whole call, run alone. A loser puts back what its records replaced. -/
def validateAndRecord (r : WriteConflictRegistry) (writeSet : Map Key (Option Bytes)) (validate : Bool)
    (snapshotTs commitTs : Timestamp) : WriteConflictRegistry × Except (Key × Timestamp) Unit :=
  if writeSet.keys = [] then (r,.ok ())
  else match recordKeys validate snapshotTs commitTs writeSet.keys r.recentWrites [] with
    | (recent,recorded,some conflict) =>
      ({ r with recentWrites := recorded.foldl undoKey recent },.error conflict)
    | (recent,_,none) => ({ r with recentWrites := recent }.countCommit,.ok ())

end WriteConflictRegistry

section
variable (validate : Bool) (snapshotTs commitTs : Timestamp)

variable {validate snapshotTs commitTs} in
theorem recordKey_ok {recent recent' : Map Key Timestamp} {key : Key} {prior : Option Timestamp}
    (h : recordKey validate snapshotTs commitTs recent key = .ok (recent',prior)) :
    recent' = recent.insert key commitTs ∧ prior = recent.lookup key ∧
      (validate = true → ∀ ts, recent.lookup key = some ts → ts ≤ snapshotTs) := by
  unfold recordKey at h
  split at h
  next ts hts =>
    split at h
    · cases h
    next hp =>
      cases h
      refine ⟨rfl,hts.symm,fun hv ts' hts' => ?_⟩
      obtain rfl : ts = ts' := Option.some.inj (hts.symm.trans hts')
      simpa [hv] using hp
  next hn =>
    cases h
    exact ⟨rfl,hn.symm,fun _ ts hts => by simp [hn] at hts⟩

variable {validate snapshotTs commitTs} in
theorem recordKey_error {recent : Map Key Timestamp} {key : Key} {prior : Timestamp}
    (h : recordKey validate snapshotTs commitTs recent key = .error prior) :
    validate = true ∧ recent.lookup key = some prior ∧ snapshotTs < prior := by
  unfold recordKey at h
  split at h
  next ts hts =>
    split at h
    next hf =>
      cases h
      simp only [Bool.and_eq_true,decide_eq_true_eq] at hf
      exact ⟨hf.1,hts,hf.2⟩
    · cases h
  · cases h

theorem lookup_undoKey (recent : Map Key Timestamp) (record : Key × Option Timestamp) (k : Key) :
    (undoKey recent record).lookup k = if k = record.1 then record.2 else recent.lookup k := by
  obtain ⟨key,prior⟩ := record
  cases prior with
  | some ts => exact Map.lookup_insert_ite recent key k ts
  | none => exact Map.lookup_erase_ite recent key k

/-- Where the loop over distinct keys stops: the keys before that point are recorded,
and each record holds what the map had before the call. -/
theorem recordKeys_spec (keys : List Key) (hnd : keys.Nodup) (recent : Map Key Timestamp)
    (recorded : List (Key × Option Timestamp)) : ∃ done rest, keys = done ++ rest ∧
      (∀ k, (recordKeys validate snapshotTs commitTs keys recent recorded).1.lookup k =
        if k ∈ done then some commitTs else recent.lookup k) ∧
      (recordKeys validate snapshotTs commitTs keys recent recorded).2.1 =
        recorded ++ done.map (fun k => (k,recent.lookup k)) ∧
      (validate = true → ∀ k ∈ done, ∀ ts, recent.lookup k = some ts → ts ≤ snapshotTs) ∧
      ((recordKeys validate snapshotTs commitTs keys recent recorded).2.2 = none ∧ rest = [] ∨
        ∃ k ts, (recordKeys validate snapshotTs commitTs keys recent recorded).2.2 = some (k,ts) ∧
          k ∈ rest ∧ validate = true ∧ recent.lookup k = some ts ∧ snapshotTs < ts) := by
  induction keys generalizing recent recorded with
  | nil => exact ⟨[],[],by simp [recordKeys]⟩
  | cons key rest ih =>
    obtain ⟨hkey,hrest⟩ := nodup_cons.mp hnd
    cases hr : recordKey validate snapshotTs commitTs recent key with
    | error prior =>
      obtain ⟨hv,hl,hlt⟩ := recordKey_error hr
      refine ⟨[],key::rest,rfl,?_⟩
      simp only [recordKeys,hr]
      simp [hv,hl,hlt]
    | ok out =>
      obtain ⟨recent',prior⟩ := out
      obtain ⟨rfl,rfl,hp⟩ := recordKey_ok hr
      obtain ⟨done,tail,hs,hlk,hrc,hd,hen⟩ :=
        ih hrest (recent.insert key commitTs) (recorded ++ [(key,recent.lookup key)])
      -- The keys still to come differ from this one, so their entries are as before.
      have hsame : ∀ k ∈ rest, (recent.insert key commitTs).lookup k = recent.lookup k := by
        intro k hk
        rw [Map.lookup_insert_ite,if_neg]
        rintro rfl
        exact hkey hk
      have hsb : ∀ k ∈ done, k ∈ rest := fun k hk => hs ▸ mem_append_left tail hk
      refine ⟨key::done,tail,by rw [hs,cons_append],?_,?_,?_,?_⟩
      · intro k
        simp only [recordKeys,hr]
        rw [hlk,Map.lookup_insert_ite]
        by_cases hk : k ∈ done
        · simp [hk]
        · by_cases he : k = key
          · simp [he]
          · simp [hk,he]
      · simp only [recordKeys,hr]
        rw [hrc,append_assoc]
        congr 1
        simp only [map_cons,singleton_append,List.cons.injEq,true_and]
        exact map_congr_left fun k hk => by rw [hsame k (hsb k hk)]
      · intro hv k hk ts hts
        rcases mem_cons.mp hk with rfl | hk
        · exact hp hv ts hts
        · exact hd hv k hk ts ((hsame k (hsb k hk)).trans hts)
      · simp only [recordKeys,hr]
        rcases hen with hen | ⟨k,ts,hc,hk,hv,hl,hlt⟩
        · exact .inl hen
        · have hkr : k ∈ rest := hs ▸ mem_append_right done hk
          exact .inr ⟨k,ts,hc,hk,hv,(hsame k hkr).symm.trans hl,hlt⟩

theorem lookup_foldl_undoKey (old : Key → Option Timestamp) (done : List Key) (recent : Map Key Timestamp)
    (k : Key) : ((done.map fun k => (k,old k)).foldl undoKey recent).lookup k =
      if k ∈ done then old k else recent.lookup k := by
  induction done generalizing recent with
  | nil => simp
  | cons key rest ih =>
    rw [map_cons,foldl_cons,ih,lookup_undoKey]
    by_cases hk : k ∈ rest
    · simp [hk]
    · by_cases he : k = key
      · simp [he]
      · simp [hk,he]

end

namespace WriteConflictRegistry
variable {r : WriteConflictRegistry} {writeSet : Map Key (Option Bytes)} {validate : Bool}
  {snapshotTs : Timestamp} (commitTs : Timestamp)

/-- A key of the write set was recorded after the snapshot of a validating call. -/
def Conflicts (r : WriteConflictRegistry) (writeSet : Map Key (Option Bytes)) (validate : Bool)
    (snapshotTs : Timestamp) : Prop :=
  validate = true ∧ ∃ k ∈ writeSet, ∃ ts, r.recentWrites.lookup k = some ts ∧ snapshotTs < ts

theorem validateAndRecord_of_conflicts (h : r.Conflicts writeSet validate snapshotTs) :
    (∃ conflict, (r.validateAndRecord writeSet validate snapshotTs commitTs).2 = .error conflict) ∧
      (∀ k, (r.validateAndRecord writeSet validate snapshotTs commitTs).1.recentWrites.lookup k = r.recentWrites.lookup k) ∧
      (r.validateAndRecord writeSet validate snapshotTs commitTs).1.activeSnapshots = r.activeSnapshots := by
  obtain ⟨hv,key,hkey,ts,hts,hlt⟩ := h
  have hne : writeSet.keys ≠ [] := ne_nil_of_mem (AList.mem_keys.mp hkey)
  obtain ⟨done,rest,hs,hl,hr,hd,he⟩ :=
    recordKeys_spec validate snapshotTs commitTs writeSet.keys writeSet.keys_nodup r.recentWrites []
  rcases he with ⟨hn,rfl⟩ | ⟨k,cts,hc,-,-,-,-⟩
  · -- Every key would have been recorded, the conflicting one too.
    have hm : key ∈ done := by
      have := AList.mem_keys.mp hkey
      rwa [hs,append_nil] at this
    exact absurd (hd hv key hm ts hts) (Nat.not_le.mpr hlt)
  · cases ho : recordKeys validate snapshotTs commitTs writeSet.keys r.recentWrites [] with
    | mk recent out =>
      obtain ⟨recorded,conflict⟩ := out
      rw [ho] at hl hr hc
      dsimp only at hl hr hc
      subst hc
      simp only [validateAndRecord,if_neg hne,ho]
      refine ⟨⟨_,rfl⟩,fun k => ?_,trivial⟩
      rw [hr,nil_append,lookup_foldl_undoKey r.recentWrites.lookup]
      split
      · rfl
      next hk =>
        rw [hl,if_neg hk]

/-- A call that wins over a non-empty write set records its timestamp at every key;
a due prune then drops what is older than every registered snapshot. -/
theorem validateAndRecord_of_not_conflicts (h : ¬r.Conflicts writeSet validate snapshotTs) (hne : writeSet.keys ≠ []) :
    (r.validateAndRecord writeSet validate snapshotTs commitTs).2 = .ok () ∧
      (∀ k, (r.validateAndRecord writeSet validate snapshotTs commitTs).1.recentWrites.lookup k =
        (if k ∈ writeSet then some commitTs else r.recentWrites.lookup k).filter
          fun ts => decide (r.PruneDue → r.minActive ≤ ts)) ∧
      (r.validateAndRecord writeSet validate snapshotTs commitTs).1.activeSnapshots = r.activeSnapshots := by
  obtain ⟨done,rest,hs,hlk,hr,hd,he⟩ :=
    recordKeys_spec validate snapshotTs commitTs writeSet.keys writeSet.keys_nodup r.recentWrites []
  rcases he with ⟨hn,rfl⟩ | ⟨k,cts,-,hk,hv,hl,hlt⟩
  · cases ho : recordKeys validate snapshotTs commitTs writeSet.keys r.recentWrites [] with
    | mk recent out =>
      obtain ⟨recorded,conflict⟩ := out
      rw [ho] at hlk hn
      dsimp only at hlk hn
      subst hn
      simp only [validateAndRecord,if_neg hne,ho,countCommit]
      have hm : ∀ k, recent.lookup k = if k ∈ writeSet then some commitTs else r.recentWrites.lookup k := by
        intro k
        have hk : k ∈ writeSet ↔ k ∈ done := by rw [AList.mem_keys,hs,append_nil]
        rw [hlk]
        simp only [hk]
      by_cases hp : r.PruneDue
      · have hp' : PruneDue { r with recentWrites := recent } := hp
        simp only [if_pos hp']
        refine ⟨trivial,fun k => ?_,rfl⟩
        simp only [prune,Map.lookup_retain,hm,hp,true_imp_iff]
        rfl
      · have hp' : ¬PruneDue { r with recentWrites := recent } := hp
        simp only [if_neg hp']
        refine ⟨trivial,fun k => ?_,trivial⟩
        ext ts
        rw [hm,Option.filter_eq_some_iff]
        simp [hp]
  · have hkey : k ∈ writeSet := AList.mem_keys.mpr (hs ▸ mem_append_right done hk)
    exact absurd ⟨hv,k,hkey,cts,hl,hlt⟩ h

end WriteConflictRegistry
end HeliosNano.Storage
