import HeliosNano.Storage.Branch.Registry
import HeliosNano.Storage.Branch.Transactions

namespace HeliosNano.Storage.Branch
open Foundation List Option AList

namespace BranchManager

def branchRow (m : BranchManager) (id : Nat) (key : Bytes) : Option Bytes :=
  readRawDecoded m.keyManager m.db.rows (encodeBranchDataKey id key)

def withRows (m : BranchManager) (rows : Store) : BranchManager := { m with db := { m.db with rows := rows } }

def Conflicting (m : BranchManager) (sourceId targetId : Nat) (key : Bytes) : Prop :=
  ∃ sourceValue targetValue, m.branchRow sourceId key = some sourceValue ∧ m.branchRow targetId key = some targetValue ∧
    sourceValue ≠ targetValue

structure ThreeWay (m m' : BranchManager) (sourceId targetId : Nat) (strategy : MergeStrategy) (result : MergeResult) : Prop where
  onlySource : ∀ (key : UserKey) value, m.branchRow sourceId key.bytes = some value → m.branchRow targetId key.bytes = none →
    ¬(strategy = .manual ∧ ∃ other : UserKey, m.Conflicting sourceId targetId other.bytes) →
    m'.branchRow targetId key.bytes = some value
  onlyTarget : ∀ (key : UserKey) value, m.branchRow sourceId key.bytes = none → m.branchRow targetId key.bytes = some value →
    m'.branchRow targetId key.bytes = some value
  others : ∀ id ≤ u64Max, id ≠ targetId → ∀ key : UserKey, m'.branchRow id key.bytes = m.branchRow id key.bytes
  reported : ∀ key : UserKey, m.Conflicting sourceId targetId key.bytes → ∃ conflict ∈ result.conflicts, conflict.key = key.bytes
  theirs : ∀ key : UserKey, m.Conflicting sourceId targetId key.bytes → strategy = .auto ∨ strategy = .theirs →
    m'.branchRow targetId key.bytes = m.branchRow sourceId key.bytes
  ours : ∀ key : UserKey, m.Conflicting sourceId targetId key.bytes → strategy = .ours →
    m'.branchRow targetId key.bytes = m.branchRow targetId key.bytes
  held : ∀ key : UserKey, m.Conflicting sourceId targetId key.bytes → strategy = .manual →
    m'.db = m.db ∧ result.completed = false
  equal : ∀ (key : UserKey) value, m.branchRow sourceId key.bytes = some value → m.branchRow targetId key.bytes = some value →
    ∀ conflict ∈ result.conflicts, conflict.key ≠ key.bytes

def NoRowsFrom (rows : Store) (branchId : Nat) : Prop :=
  ∀ id, branchId ≤ id → id ≤ u64Max → ∀ key : UserKey, encodeBranchDataKey id key.bytes ∉ rows

end BranchManager

theorem encodeBranchDataKey_lt_branchLead {id id' : Nat} (h : id < id') (hid : id' ≤ u64Max) (key : Bytes) :
    encodeBranchDataKey id key < branchLead id' := by
  have hlt : id' < 256^8 := by
    rw [u64Max] at hid
    omega
  have hb := append_lt_append_of_lt (by rw [length_beBytes,length_beBytes]) (beBytes_lt_beBytes h hlt) ([colon] ++ key) [colon]
  rw [encodeBranchDataKey,branchLead,branchLead,append_assoc,append_assoc]
  exact (append_lt_append_left_iff branchDataPrefix).mpr hb

theorem branchLead_le_encode (id : Nat) (key : Bytes) : branchLead id ≤ encodeBranchDataKey id key := by
  rw [encodeBranchDataKey]
  nth_rewrite 1 [← append_nil (branchLead id)]
  exact (append_le_append_left_iff _).mpr (not_lt.mp (not_lt_nil key))

theorem encode_of_decode {raw : Key} {id : Nat} {key : Bytes} (h : decodeBranchDataKey raw = some (id,key)) :
    raw = encodeBranchDataKey id key ∧ id ≤ u64Max ∧ IsUtf8 key := by
  unfold decodeBranchDataKey at h
  cases hst : stripPrefix branchDataPrefix raw with
  | none => simp [hst] at h
  | some rest =>
    rw [hst,bind_eq_bind,bind_some] at h
    split at h
    next => cases h
    next hl =>
      simp only at h
      split at h
      next => cases h
      next hc =>
        split at h
        next hutf8 =>
          cases h
          have htk : (rest.take 8).length = 8 := by
            rw [length_take]
            omega
          have hsp : rest = rest.take 8 ++ ([colon] ++ rest.drop 9) := by
            obtain ⟨hlt,heq⟩ := List.getElem?_eq_some_iff.mp (Decidable.not_not.mp hc)
            rw [singleton_append,← heq,← drop_eq_getElem_cons hlt,take_append_drop]
          refine ⟨?_,?_,(isSome_fromUtf8 _).mp hutf8⟩
          · have hb := beBytes_beValue (rest.take 8)
            rw [htk] at hb
            rw [encodeBranchDataKey,branchLead,hb,append_assoc,append_assoc,← hsp]
            exact stripPrefix_eq_some hst
          · have hlt := beValue_lt (rest.take 8)
            rw [htk] at hlt
            rw [u64Max]
            omega
        next => cases h

variable {rows : Store}

theorem collectModifiedKeys_eq_nil {branchId : Nat} (hid : branchId ≤ u64Max)
    (h : BranchManager.NoRowsFrom rows branchId) : collectModifiedKeys rows branchId = [] := by
  rw [collectModifiedKeys,dedup_eq_nil,filterMap_eq_nil_iff]
  intro entry he
  cases hd : decodeBranchDataKey entry.1 with
  | none => rfl
  | some decoded =>
    obtain ⟨id,key⟩ := decoded
    obtain ⟨heq,hle,hutf8⟩ := encode_of_decode hd
    obtain ⟨hlk,hl⟩ := (Map.mem_iterFrom rows _ entry).mp ((takeWhile_sublist _).subset he)
    rw [heq] at hlk hl
    have hls : id < branchId := by
      by_contra hge
      exact h id (Nat.le_of_not_lt hge) hle ⟨key,hutf8⟩ (lookup_isSome.mp (by rw [hlk]; rfl))
    exact absurd hl (not_le.mpr (encodeBranchDataKey_lt_branchLead hls hid key))

variable {keyManager : Option KeyManager} {sourceId targetId : Nat}

theorem applyMerge_preserves {P : Store → Prop}
    (hc : ∀ rows rows' key, P rows → copyKeyToBranch rows keyManager sourceId targetId key = .ok rows' → P rows')
    (targetKeys conflictKeys : List Bytes) (strategy : MergeStrategy) (mergeBase : Timestamp) (keys : List Bytes)
    (h : P rows) (merged : Nat) :
    P (applyMerge keyManager targetKeys conflictKeys strategy sourceId targetId mergeBase keys rows merged).1 := by
  induction keys generalizing rows merged with
  | nil => exact h
  | cons key rest ih =>
    unfold applyMerge
    split
    next =>
      split
      next rows' hr => exact ih (hc _ _ _ h hr) _
      next => exact h
    next => exact ih h _

theorem getLatestKeyValue_congr {rows' : Store} (keyManager : Option KeyManager) {branchId : Nat} (key : Bytes)
    (h : ∀ k, branchLead branchId ≤ k → rows'.lookup k = rows.lookup k) :
    getLatestKeyValue rows' keyManager branchId key = getLatestKeyValue rows keyManager branchId key := by
  have hh : (rows'.iterFrom (encodeBranchDataKey branchId key ++ [colon])).head? =
      (rows.iterFrom (encodeBranchDataKey branchId key ++ [colon])).head? := by
    refine Map.head?_iterFrom_congr fun k hk => h k (le_trans ?_ hk)
    rw [encodeBranchDataKey,append_assoc]
    exact branchLead_le_encode branchId (key ++ [colon])
  simp only [getLatestKeyValue,prefixIterator,head?_takeWhile,hh]

theorem copyKeyToBranch_earlier {rows' start : Store} (hsl : SoundSeal keyManager)
    (hlt : targetId < sourceId) (hid : sourceId ≤ u64Max) (key : Bytes) {copied : Bytes}
    (hst : ∀ k, branchLead sourceId ≤ k → rows.lookup k = start.lookup k)
    (hc : copyKeyToBranch rows keyManager sourceId targetId copied = .ok rows') :
    (∀ k, branchLead sourceId ≤ k → rows'.lookup k = start.lookup k) ∧
    (readRawDecoded keyManager rows' (encodeBranchDataKey targetId key) = readRawDecoded keyManager rows (encodeBranchDataKey targetId key) ∨
      readRawDecoded keyManager rows' (encodeBranchDataKey targetId key) = (getLatestKeyValue start keyManager sourceId key).map (·.1)) := by
  have hb : ∀ k, branchLead sourceId ≤ k → k ≠ encodeBranchDataKey targetId copied := by
    rintro k hk rfl
    exact absurd hk (not_le.mpr (encodeBranchDataKey_lt_branchLead hlt hid copied))
  -- the one key a copy writes
  obtain ⟨stored,hr,hsd⟩ : ∃ stored : Option Bytes,
      (∀ k, rows'.lookup k = if k = encodeBranchDataKey targetId copied then stored else rows.lookup k) ∧
        stored.map (openOwned keyManager) = (getLatestKeyValue rows keyManager sourceId copied).map (·.1) := by
    unfold copyKeyToBranch at hc
    rcases hl : getLatestKeyValue rows keyManager sourceId copied with _ | ⟨data,ts⟩
    · rw [hl] at hc
      cases hc
      exact ⟨none,fun k => Map.lookup_erase_ite _ _ _,rfl⟩
    · obtain ⟨stored,hs, hopen⟩ := hsl.seal_open (encodeBranchDataKey targetId copied) data
      have hsp : isRowValueKey (encodeBranchDataKey targetId copied) = true := by
        simp only [isRowValueKey,any_cons,Bool.or_eq_true,decide_eq_true_eq]
        exact .inr (.inr (.inr (.inr (.inl (branchDataPrefix_encode targetId copied)))))
      simp only [hl,sealRowValue,hsp,if_true,hs] at hc
      cases hc
      refine ⟨some stored,fun k => Map.lookup_insert_ite _ _ _ _,?_⟩
      rw [map_some,map_some, hopen]
  refine ⟨fun k hk => ?_,?_⟩
  · rw [hr,if_neg (hb k hk),hst k hk]
  · rw [readRawDecoded,readRawDecoded,hr]
    by_cases hsame : encodeBranchDataKey targetId key = encodeBranchDataKey targetId copied
    · have hkey : key = copied := append_cancel_left hsame
      rw [if_pos hsame,hsd,hkey,getLatestKeyValue_congr keyManager copied hst]
      exact .inr rfl
    · rw [if_neg hsame]
      exact .inl rfl

namespace BranchManager

variable {m : BranchManager}

theorem Recached.linked_frame {m' : BranchManager} (h : m.Recached m') :
    m'.registry = m.registry ∧ m'.db = m.db ∧ m'.keyManager = m.keyManager := by
  obtain ⟨c,rfl⟩ := h
  exact ⟨rfl,rfl,rfl⟩

theorem Linked.findMergeBase_ok (h : m.Linked) {sourceId targetId : Nat}
    (hsource : sourceId ∈ m.registry.branches) (htarget : targetId ∈ m.registry.branches) :
    ∃ c mergeBase, m.findMergeBase sourceId targetId = ({ m with metadataCache := c },.ok mergeBase) := by
  obtain ⟨c,hc⟩ := Recached.findMergeBase m sourceId targetId
  suffices hok : ∃ mergeBase, (m.findMergeBase sourceId targetId).2 = .ok mergeBase by
    obtain ⟨mergeBase,hok⟩ := hok
    exact ⟨c,mergeBase,Prod.ext hc hok⟩
  have hch : ∀ {m₁ : BranchManager}, m₁.Linked → m₁.registry = m.registry → ∀ {id}, id ∈ m.registry.branches →
      ∃ m₂ chain, m₁.buildParentChain id = (m₂,.ok chain) ∧ m₂.Linked ∧ m₂.registry = m.registry := by
    intro m₁ h₁ hr id hid
    obtain ⟨chain,hb,-⟩ := h₁.buildParentChain (by rw [hr]; exact hid)
    refine ⟨(m₁.buildParentChain id).1,chain,Prod.ext rfl hb,?_,?_⟩
    · exact parentChain_preserves (fun _ id hm => (hm.getBranchById id).1) _ h₁ id
    · exact (@Recached.buildParentChain m₁ m₁ ⟨_,rfl⟩ id).linked_frame.1.trans hr
  have hbr : ∀ {m₁ : BranchManager}, m₁.Linked → m₁.registry = m.registry → ∀ {id}, id ∈ m.registry.branches →
      ∃ m₂ metadata, m₁.getBranchById id = (m₂,.ok metadata) ∧ m₂.Linked ∧ m₂.registry = m.registry := by
    intro m₁ h₁ hr id hid
    obtain ⟨metadata,hrg,-⟩ := h₁.exists_registered (by rw [hr]; exact hid)
    refine ⟨(m₁.getBranchById id).1,metadata,Prod.ext rfl (((h₁.getBranchById id).2 metadata).mpr hrg),?_,?_⟩
    · exact (h₁.getBranchById id).1
    · exact (@Recached.getBranchById m₁ m₁ ⟨_,rfl⟩ id).linked_frame.1.trans hr
  unfold BranchManager.findMergeBase
  obtain ⟨m₁,sourceChain,hfs,h₁,hr₁⟩ := hch h rfl hsource
  obtain ⟨m₂,targetChain,hsc,h₂,hr₂⟩ := hch h₁ hr₁ htarget
  simp only [hfs,hsc]
  split
  next => exact ⟨_,rfl⟩
  next =>
    obtain ⟨m₃,source,hth,h₃,hr₃⟩ := hbr h₂ hr₂ hsource
    obtain ⟨m₄,target,hf,-,-⟩ := hbr h₃ hr₃ htarget
    simp only [hth,hf]
    exact ⟨_,rfl⟩

theorem Linked.mergeBranch_eq (h : m.Linked) (order : HashOrder) {sourceName targetName : String}
    {source target : BranchMetadata} (strategy : MergeStrategy) (hsource : m.db.metadata.lookup sourceName = some source)
    (htarget : m.db.metadata.lookup targetName = some target) (hs : source.state = .active) (ht : target.state = .active) :
    ∃ c mergeBase, m.mergeBranch order sourceName targetName strategy =
      mergeRows { m with metadataCache := c } order source target sourceName targetName strategy mergeBase := by
  have hm : ∀ {name metadata}, m.db.metadata.lookup name = some metadata → metadata.state = .active →
      metadata.branchId ∈ m.registry.branches := by
    intro name metadata hn ha
    have hl := (h.record name metadata hn).2.2.2.mpr (by rw [ha]; rfl)
    exact lookup_isSome.mp (by rw [hl]; rfl)
  obtain ⟨c,mergeBase,hb⟩ := h.findMergeBase_ok (hm hsource hs) (hm htarget ht)
  refine ⟨c,mergeBase,?_⟩
  simp only [BranchManager.mergeBranch,getBranchByName,hsource,htarget,hs,ht,ne_eq,not_true_eq_false,if_false,hb]

section
variable {m : BranchManager} (h : m.Linked) {order : HashOrder} {sourceName targetName : String} {source target : BranchMetadata}
  {strategy : MergeStrategy} (hsource : m.db.metadata.lookup sourceName = some source)
  (htarget : m.db.metadata.lookup targetName = some target) (hs : source.state = .active) (ht : target.state = .active)
include h hsource htarget hs ht

theorem Linked.mergeBranch_of_noRows (ho : order.Sound) (hn : NoRowsFrom m.db.rows source.branchId) :
    ∃ m' result, m.mergeBranch order sourceName targetName strategy = (m',.ok result) ∧
      m.ThreeWay m' source.branchId target.branchId strategy result := by
  have hid : source.branchId ≤ u64Max :=
    Nat.le_of_lt (Nat.lt_of_lt_of_le (h.record sourceName source hsource).2.1 h.bound)
  have hk := collectModifiedKeys_eq_nil hid hn
  have hcm : order.common [] = [] := (ho.common []).eq_nil
  have hvs : order.source [] = [] := (ho.source []).eq_nil
  obtain ⟨c,mergeBase,hm⟩ := h.mergeBranch_eq order strategy hsource htarget hs ht
  have hc : ∀ targetKeys, detectConflicts m.db.rows m.keyManager order [] targetKeys source.branchId target.branchId
      mergeBase = [] := by
    intro targetKeys
    rw [detectConflicts,filter_nil,hcm,filterMap_nil]
  have he : ∀ key : UserKey, m.branchRow source.branchId key.bytes = none := by
    intro key
    rw [branchRow,readRawDecoded,AList.lookup_eq_none.mpr (hn _ (Nat.le_refl _) hid key),map_none]
  have hno : ∀ key : UserKey, ¬m.Conflicting source.branchId target.branchId key.bytes := by
    rintro key ⟨value,-,hv,-⟩
    rw [he key] at hv
    cases hv
  set merged := (nextTimestamp { m with metadataCache := c }).recordMerge sourceName targetName source target (m.timestamp+1) with hmr
  refine ⟨merged,⟨m.timestamp+1,0,[],true⟩,?_,?_⟩
  · rw [hm]
    simp only [mergeRows,hk,hc,ne_eq,not_true_eq_false,and_false,if_false,hvs,applyMerge,map_nil]
    rfl
  · have hr : ∀ id key, merged.branchRow id key = m.branchRow id key := fun _ _ => rfl
    refine ⟨fun key value hv => ?_,fun key value _ hv => ?_,fun id _ _ key => rfl,fun key hkey => absurd hkey (hno key),
      fun key hkey => absurd hkey (hno key),fun key hkey => absurd hkey (hno key),fun key hkey => absurd hkey (hno key),
      fun key value hv => ?_⟩
    · rw [he key] at hv
      cases hv
    · rw [hr]
      exact hv
    · rw [he key] at hv
      cases hv

theorem Linked.latest_of_threeWay (hsl : SoundSeal m.keyManager) {m' : BranchManager} {result : MergeResult}
    (hm : m.mergeBranch order sourceName targetName strategy = (m',.ok result))
    (hth : m.ThreeWay m' source.branchId target.branchId strategy result) (hlt : target.branchId < source.branchId)
    (hst : strategy = .auto ∨ strategy = .theirs) (key : UserKey) {value : Bytes}
    (hv : m.branchRow source.branchId key.bytes = some value) (ho : m.branchRow target.branchId key.bytes ≠ some value) :
    (getLatestKeyValue m.db.rows m.keyManager source.branchId key.bytes).map (·.1) = some value := by
  have hid : source.branchId ≤ u64Max :=
    Nat.le_of_lt (Nat.lt_of_lt_of_le (h.record sourceName source hsource).2.1 h.bound)
  have hmn : strategy ≠ .manual := by
    rintro rfl
    rcases hst with heq | heq <;> cases heq
  -- the row the merge has to leave
  have ha : m'.branchRow target.branchId key.bytes = some value := by
    cases htr : m.branchRow target.branchId key.bytes with
    | none => exact hth.onlySource key value hv htr fun hh => hmn hh.1
    | some targetValue =>
      rw [← hv]
      refine hth.theirs key ⟨value,targetValue,hv,htr,?_⟩ hst
      rintro rfl
      exact ho htr
  -- the row it does leave
  obtain ⟨c,mergeBase,heq⟩ := h.mergeBranch_eq order strategy hsource htarget hs ht
  rw [heq] at hm
  simp only [mergeRows,hmn,false_and,if_false] at hm
  set conflicts := detectConflicts m.db.rows m.keyManager order (collectModifiedKeys m.db.rows source.branchId)
    (collectModifiedKeys m.db.rows target.branchId) source.branchId target.branchId mergeBase
  have hl := applyMerge_preserves
    (P := fun rows => (∀ k, branchLead source.branchId ≤ k → rows.lookup k = m.db.rows.lookup k) ∧
      (readRawDecoded m.keyManager rows (encodeBranchDataKey target.branchId key.bytes) = m.branchRow target.branchId key.bytes ∨
        readRawDecoded m.keyManager rows (encodeBranchDataKey target.branchId key.bytes) =
          (getLatestKeyValue m.db.rows m.keyManager source.branchId key.bytes).map (·.1)))
    (fun rows rows' copied hr hc => by
      obtain ⟨hsa,hrw⟩ := copyKeyToBranch_earlier hsl hlt hid key.bytes hr.1 hc
      refine ⟨hsa,?_⟩
      rcases hrw with hrw | hrw
      · rw [hrw]
        exact hr.2
      · exact .inr hrw)
    (collectModifiedKeys m.db.rows target.branchId) (conflicts.map (·.key)) strategy mergeBase
    (order.source (collectModifiedKeys m.db.rows source.branchId)) ⟨fun _ _ => rfl,.inl rfl⟩ 0
  split at hm
  next => cases (Prod.mk.inj hm).2
  next rows' merged hr =>
    obtain ⟨rfl,-⟩ := Prod.mk.inj hm
    have hlf : readRawDecoded m.keyManager rows' (encodeBranchDataKey target.branchId key.bytes) = some value := ha
    change applyMerge m.keyManager _ _ strategy source.branchId target.branchId mergeBase _ m.db.rows 0 = _ at hr
    rw [hr,hlf] at hl
    rcases hl.2 with hsame | hls
    · exact absurd hsame.symm ho
    · exact hls.symm

end
end BranchManager

/-- Two branches of the main branch, with ids 2 and 3. -/
def siblings (rows : Store) : BranchManager :=
  (run BranchManager.step (.start ∅ 0 ⟨300,true,.deferred⟩ none) [.create "a" none 0,.create "b" none 0]).withRows rows

theorem isUtf8_keyK : IsUtf8 [107] := isUtf8_of_ascii (by simp)

def keyK : UserKey := ⟨[107],isUtf8_keyK⟩

def rowA : Store := (∅ : Store).insert (encodeBranchDataKey 2 keyK.bytes) [1]

end HeliosNano.Storage.Branch
