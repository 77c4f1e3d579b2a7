import HeliosNano.Foundation.Runs
import HeliosNano.Storage.Branch.Merge

namespace HeliosNano.Storage.Branch
open Foundation List Option AList Option.some BranchManager

namespace BranchManager

def Registered (m : BranchManager) (id : Nat) (metadata : BranchMetadata) : Prop :=
  m.registry.branches.lookup id = some metadata.name ∧ m.db.metadata.lookup metadata.name = some metadata

def isDropped (state : BranchState) : Bool :=
  match state with
  | .dropped _ => true
  | _ => false

/-- What every history keeps. Ids are given out in order, a branch is registered until it is dropped,
and its parent is an older registered branch. -/
structure Linked (m : BranchManager) : Prop where
  stored : m.db.registry = some m.registry
  mainBranch : m.registry.mainBranch = 1
  main : m.registry.branches.lookup 1 = some "main"
  bound : m.registry.nextBranchId ≤ u64Max
  named : ∀ id name, m.registry.branches.lookup id = some name →
    ∃ metadata, m.Registered id metadata ∧ metadata.name = name ∧ metadata.branchId = id
  record : ∀ name metadata, m.db.metadata.lookup name = some metadata →
    metadata.name = name ∧ metadata.branchId < m.registry.nextBranchId ∧
      (metadata.parentId = none ↔ metadata.branchId = 1) ∧
      (m.registry.branches.lookup metadata.branchId = some name ↔ isDropped metadata.state = false)
  unique : ∀ name name' metadata metadata', m.db.metadata.lookup name = some metadata →
    m.db.metadata.lookup name' = some metadata' → metadata.branchId = metadata'.branchId → name = name'
  parent : ∀ id metadata parentId, m.Registered id metadata → metadata.parentId = some parentId →
    parentId < id ∧ parentId ∈ m.registry.branches
  cached : ∀ id metadata, m.metadataCache.lookup id = some metadata → m.Registered id metadata
  children : ∀ parentId, (m.getChildBranches parentId).Nodup ∧
    ∀ id, id ∈ m.getChildBranches parentId ↔ ∃ metadata, m.Registered id metadata ∧ metadata.parentId = some parentId

variable {id : Nat} {m : BranchManager} {chain : List (Nat × Timestamp)} {name : String}

theorem Linked.exists_registered (h : m.Linked) (hid : id ∈ m.registry.branches) :
    ∃ metadata, m.Registered id metadata ∧ metadata.branchId = id := by
  obtain ⟨name,hname⟩ := isSome_iff_exists.mp (lookup_isSome.mpr hid)
  obtain ⟨metadata,hr,-,hbr⟩ := h.named id name hname
  exact ⟨metadata,hr,hbr⟩

variable {metadata : BranchMetadata} {m' : BranchManager} {P : BranchManager → Prop} {old : BranchMetadata}

theorem Linked.branchId_eq (h : m.Linked) (hr : m.Registered id metadata) : metadata.branchId = id := by
  obtain ⟨metadata',hr',hname,hid⟩ := h.named id metadata.name hr.1
  have heq : metadata' = metadata := by
    have hlk := hr'.2
    rw [hname,hr.2] at hlk
    exact (inj hlk).symm
  rw [← heq]
  exact hid

theorem Linked.lt_next (h : m.Linked) (hid : id ∈ m.registry.branches) : id < m.registry.nextBranchId := by
  obtain ⟨metadata,hr,hbr⟩ := h.exists_registered hid
  rw [← hbr]
  exact (h.record _ _ hr.2).2.1

theorem Registered.mem (h : m.Registered id metadata) : id ∈ m.registry.branches := lookup_isSome.mp (by rw [h.1]; rfl)

theorem Registered.eq {a b : BranchMetadata} (ha : m.Registered id a) (hb : m.Registered id b) : a = b := by
  have hname : a.name = b.name := inj (ha.1.symm.trans hb.1)
  have hlk := ha.2
  rw [hname,hb.2] at hlk
  exact (inj hlk).symm

theorem Linked.recache (h : m.Linked) (hm : m'.db.metadata = m.db.metadata)
    (hs : m'.db.registry = m.db.registry) (hch : m'.db.children = m.db.children) (hr : m'.registry = m.registry)
    (hc : ∀ id metadata, m'.metadataCache.lookup id = some metadata → m.Registered id metadata) : m'.Linked := by
  have hi : ∀ id metadata, m'.Registered id metadata ↔ m.Registered id metadata := by
    intro id metadata
    rw [Registered,Registered, hm,hr]
  have hl : ∀ parentId, m'.getChildBranches parentId = m.getChildBranches parentId := by
    intro parentId
    rw [getChildBranches,getChildBranches,hch]
  constructor
  · rw [hs,hr]
    exact h.stored
  · rw [hr]
    exact h.mainBranch
  · rw [hr]
    exact h.main
  · rw [hr]
    exact h.bound
  · intro id name hname
    rw [hr] at hname
    obtain ⟨metadata,hrg,hrest⟩ := h.named id name hname
    exact ⟨metadata,(hi id metadata).mpr hrg,hrest⟩
  · rw [hm,hr]
    exact h.record
  · rw [hm]
    exact h.unique
  · intro id metadata parentId hrg hp
    rw [hr]
    exact h.parent id metadata parentId ((hi id metadata).mp hrg) hp
  · exact fun id metadata hlk => (hi id metadata).mpr (hc id metadata hlk)
  · intro parentId
    rw [hl]
    refine ⟨(h.children parentId).1,fun id => ?_⟩
    rw [(h.children parentId).2 id]
    simp only [hi]

theorem getBranchById_frame (m : BranchManager) (id : Nat) : ∃ c, (m.getBranchById id).1 = { m with metadataCache := c } := by
  unfold getBranchById
  split
  · exact ⟨_,rfl⟩
  · split
    · exact ⟨_,rfl⟩
    · split <;> exact ⟨_,rfl⟩

theorem parentChain_preserves (hs : ∀ m id, P m → P (m.getBranchById id).1) (fuel : Nat)
    (h : P m) (id : Nat) : P (parentChain fuel m id).1 := by
  induction fuel generalizing m id with
  | zero => exact h
  | succ fuel ih =>
    have hf := hs m id h
    unfold parentChain
    rcases hg : m.getBranchById id with ⟨m₁,r⟩
    rw [hg] at hf
    cases r with
    | error e => exact hf
    | ok metadata =>
      simp only
      cases metadata.parentId with
      | none => exact hf
      | some parentId =>
        have hrest := ih hf parentId
        simp only
        rcases hc : parentChain fuel m₁ parentId with ⟨m₂,r₂⟩
        rw [hc] at hrest
        cases r₂ <;> exact hrest

/-- Only the cache may differ. -/
def Recached (m m' : BranchManager) : Prop := ∃ c, m' = { m with metadataCache := c }

theorem Recached.getBranchById {m m' : BranchManager} (h : m.Recached m') (id : Nat) : m.Recached (m'.getBranchById id).1 := by
  obtain ⟨c,rfl⟩ := h
  obtain ⟨c',hc'⟩ := getBranchById_frame { m with metadataCache := c } id
  exact ⟨c',hc'⟩

theorem Recached.buildParentChain {m m' : BranchManager} (h : m.Recached m') (id : Nat) : m.Recached (m'.buildParentChain id).1 :=
  parentChain_preserves (fun _ id hm => hm.getBranchById id) _ h id

theorem Linked.getBranchById {m : BranchManager} (h : m.Linked) (id : Nat) : (m.getBranchById id).1.Linked ∧
      ∀ metadata, (m.getBranchById id).2 = .ok metadata ↔ m.Registered id metadata := by
  unfold BranchManager.getBranchById
  cases hc : m.metadataCache.lookup id with
  | some cached =>
    refine ⟨h,fun metadata => ⟨fun heq => ?_,fun hr => ?_⟩⟩
    · cases heq
      exact h.cached id _ hc
    · rw [(h.cached id _ hc).eq hr]
  | none =>
    cases hname : m.registry.branches.lookup id with
    | none =>
      refine ⟨h,fun metadata => ⟨fun heq => (by cases heq),fun hr => ?_⟩⟩
      rw [Registered,hname] at hr
      cases hr.1
    | some name =>
      obtain ⟨metadata,hr,rfl,hid⟩ := h.named id name hname
      simp only [getBranchByName,hr.2]
      refine ⟨h.recache rfl rfl rfl rfl fun id' metadata' hlk => ?_,fun metadata' => ⟨fun heq => ?_,fun hr' => ?_⟩⟩
      · rw [cache,Map.lookup_insert_ite] at hlk
        split at hlk
        next heq =>
          cases hlk
          rw [heq]
          exact hr
        next => exact h.cached id' metadata' hlk
      · cases heq
        exact hr
      · rw [hr.eq hr']

/-- The parents of a registered branch, with the snapshots its line was created from. -/
inductive Ancestry (m : BranchManager) : Nat → List (Nat × Timestamp) → Prop
  | root {id : Nat} {metadata : BranchMetadata} : m.Registered id metadata → metadata.parentId = none → Ancestry m id []
  | child {id parentId : Nat} {metadata : BranchMetadata} {chain : List (Nat × Timestamp)} : m.Registered id metadata →
      metadata.parentId = some parentId → Ancestry m parentId chain →
      Ancestry m id ((parentId,metadata.createdFromSnapshot)::chain)

theorem Ancestry.mem (h : m.Ancestry id chain) : id ∈ m.registry.branches := by
  cases h with
  | root hr _ | child hr _ _ => exact hr.mem

theorem Ancestry.unique {chain' : List (Nat × Timestamp)} (h : m.Ancestry id chain)
    (h' : m.Ancestry id chain') : chain = chain' := by
  induction h generalizing chain' with
  | root hr hp =>
    cases h' with
    | root _ _ => rfl
    | child hr' hp' _ =>
      rw [hr.eq hr',hp'] at hp
      cases hp
  | child hr hp _ ih =>
    cases h' with
    | root hr' hp' =>
      rw [hr.eq hr',hp'] at hp
      cases hp
    | child hr' hp' hrs' =>
      cases hr.eq hr'
      cases hp.symm.trans hp'
      rw [ih hrs']

theorem Ancestry.mono {m m' : BranchManager} (hrg : ∀ id metadata, m.Registered id metadata → m'.Registered id metadata)
    {id : Nat} {chain : List (Nat × Timestamp)} (h : m.Ancestry id chain) : m'.Ancestry id chain := by
  induction h with
  | root hr hp => exact .root (hrg _ _ hr) hp
  | child hr hp _ ih => exact .child (hrg _ _ hr) hp ih

theorem Ancestry.descends (h : m.Linked)
    (hc : m.Ancestry id chain) : (id :: chain.map (·.1)).Pairwise (· > ·) ∧ (id :: chain.map (·.1)).getLast? = some 1 := by
  induction hc with
  | root hr hp =>
    refine ⟨pairwise_singleton _ _,?_⟩
    rw [← h.branchId_eq hr,((h.record _ _ hr.2).2.2.1).mp hp]
    rfl
  | @child id parentId metadata chain hr hp _ ih =>
    have hlt := (h.parent id metadata parentId hr hp).1
    refine ⟨pairwise_cons.mpr ⟨fun a ha => ?_,ih.1⟩,?_⟩
    · rcases mem_cons.mp ha with rfl | hm
      · exact hlt
      · exact Nat.lt_trans ((pairwise_cons.mp ih.1).1 a hm) hlt
    · rw [map_cons,getLast?_cons_cons]
      exact ih.2

theorem Linked.parentChain (h : m.Linked) {fuel : Nat} (hid : id ∈ m.registry.branches)
    (hf : id < fuel) : ∃ chain, (parentChain fuel m id).2 = .ok chain ∧ m.Ancestry id chain := by
  induction fuel generalizing m id with
  | zero => cases hf
  | succ fuel ih =>
    obtain ⟨metadata,hrg,hbr⟩ := h.exists_registered hid
    obtain ⟨hl,hok⟩ := h.getBranchById id
    obtain ⟨c,hc⟩ := getBranchById_frame m id
    have heq : m.getBranchById id = ({ m with metadataCache := c },.ok metadata) := Prod.ext hc ((hok metadata).mpr hrg)
    rw [hc] at hl
    unfold parentChain
    rw [heq]
    cases hp : metadata.parentId with
    | none =>
      simp only [hp]
      exact ⟨[],rfl,.root hrg hp⟩
    | some parentId =>
      obtain ⟨hlt,hm⟩ := h.parent id metadata parentId hrg hp
      obtain ⟨chain,hch,ha⟩ := ih hl hm (by omega)
      simp only [hp]
      rcases hrest : parentChain fuel { m with metadataCache := c } parentId with ⟨m',r⟩
      rw [hrest] at hch
      cases hch
      have hln : m.Ancestry parentId chain := @Ancestry.mono { m with metadataCache := c } m (fun _ _ hr => hr) _ _ ha
      exact ⟨(parentId,metadata.createdFromSnapshot)::chain,rfl,.child hrg hp hln⟩

theorem Linked.buildParentChain {m : BranchManager} (h : m.Linked) {id : Nat} (hid : id ∈ m.registry.branches) :
    ∃ chain, (m.buildParentChain id).2 = .ok chain ∧ m.Ancestry id chain := h.parentChain hid (h.lt_next hid)

def created (m : BranchManager) (name : String) (parentId : Nat) (snapshotId : Timestamp) : BranchManager :=
  let branchId := m.registry.nextBranchId
  let metadata : BranchMetadata := ⟨name,branchId,some parentId,m.timestamp+1,snapshotId,.active,none⟩
  let registry : BranchRegistry := ⟨m.registry.branches.insert branchId name,m.registry.mainBranch,branchId+1⟩
  { m with
    db := { m.db with
      metadata := m.db.metadata.insert name metadata
      registry := some registry
      children := m.db.children.insert parentId (m.getChildBranches parentId ++ [branchId]) }
    registry := registry
    metadataCache := m.metadataCache.insert branchId metadata
    timestamp := m.timestamp+1 }

def Creates (m : BranchManager) (name : String) (parentName : Option String) (parentId : Nat) : Prop :=
  m.db.metadata.lookup name = none ∧ m.resolveParent parentName = .ok parentId ∧ m.registry.nextBranchId ≠ u64Max

theorem createBranch_cases (m : BranchManager) (name : String) (parentName : Option String) (snapshotId : Timestamp) :
    ((m.createBranch name parentName snapshotId).1 = m ∧ ∀ parentId, ¬m.Creates name parentName parentId) ∨
      ∃ parentId, m.Creates name parentName parentId ∧
        (m.createBranch name parentName snapshotId).1 = m.created name parentId snapshotId := by
  unfold createBranch
  cases hname : m.db.metadata.lookup name with
  | some metadata =>
    refine .inl ⟨by simp only [getBranchByName,hname],fun parentId hc => ?_⟩
    rw [Creates,hname] at hc
    cases hc.1
  | none =>
    simp only [getBranchByName,hname]
    cases hp : m.resolveParent parentName with
    | error e =>
      refine .inl ⟨rfl,fun parentId hc => ?_⟩
      rw [Creates,hp] at hc
      cases hc.2.1
    | ok parentId =>
      simp only
      split
      next hm => exact .inl ⟨rfl,fun _ hc => hc.2.2 hm⟩
      next hm => exact .inr ⟨parentId,⟨hname,hp,hm⟩,rfl⟩

theorem Linked.notMem_next (h : m.Linked) : m.registry.nextBranchId ∉ m.registry.branches :=
  fun hm => absurd (h.lt_next hm) (Nat.lt_irrefl _)

theorem Linked.registered_created (h : m.Linked) (hname : m.db.metadata.lookup name = none)
    (parentId : Nat) (snapshotId : Timestamp) (id : Nat) (metadata : BranchMetadata) :
    (m.created name parentId snapshotId).Registered id metadata ↔ (id = m.registry.nextBranchId ∧
        metadata = ⟨name,id,some parentId,m.timestamp+1,snapshotId,.active,none⟩) ∨ m.Registered id metadata := by
  simp only [Registered,created,Map.lookup_insert_ite]
  by_cases hid : id = m.registry.nextBranchId
  · have hf : m.registry.branches.lookup id = none := by
      rw [hid]
      exact AList.lookup_eq_none.mpr h.notMem_next
    rw [if_pos hid,hf]
    constructor
    · rintro ⟨hn,hm⟩
      rw [if_pos (inj hn).symm] at hm
      refine .inl ⟨hid,?_⟩
      rw [← inj hm,hid]
    · rintro (⟨-,rfl⟩ | ⟨hno,-⟩)
      · rw [if_pos rfl,hid]
        exact ⟨rfl,rfl⟩
      · cases hno
  · rw [if_neg hid]
    constructor
    · rintro ⟨hn,hm⟩
      split at hm
      next heq =>
        obtain ⟨other,hr,ho,-⟩ := h.named id metadata.name hn
        rw [← heq,← ho,hr.2] at hname
        cases hname
      next => exact .inr ⟨hn,hm⟩
    · rintro (⟨hno,-⟩ | ⟨hn,hm⟩)
      · exact absurd hno hid
      · refine ⟨hn,?_⟩
        split
        next heq =>
          rw [heq,hname] at hm
          cases hm
        next => exact hm

theorem Linked.created (h : m.Linked) {parentId : Nat} (snapshotId : Timestamp)
    (hname : m.db.metadata.lookup name = none) (hpn : parentId ∈ m.registry.branches)
    (hmx : m.registry.nextBranchId ≠ u64Max) : (m.created name parentId snapshotId).Linked := by
  have hi := h.registered_created hname parentId snapshotId
  have hlt := h.lt_next hpn
  have hmn := h.lt_next (lookup_isSome.mp (by rw [h.main]; rfl))
  have hf : ∀ other metadata, m.db.metadata.lookup other = some metadata → metadata.branchId ≠ m.registry.nextBranchId :=
    fun other metadata ho => Nat.ne_of_lt (h.record other metadata ho).2.1
  have hm : ∀ {id}, id ∈ m.registry.branches → id ∈ (m.created name parentId snapshotId).registry.branches :=
    fun hid => (mem_insert _).mpr (.inr hid)
  constructor
  · rfl
  · exact h.mainBranch
  · change (m.registry.branches.insert m.registry.nextBranchId name).lookup 1 = some "main"
    rw [lookup_insert_ne (by omega)]
    exact h.main
  · have hbd := h.bound
    change m.registry.nextBranchId + 1 ≤ u64Max
    omega
  · intro id other ho
    change (m.registry.branches.insert m.registry.nextBranchId name).lookup id = some other at ho
    rw [Map.lookup_insert_ite] at ho
    split at ho
    next hid =>
      cases ho
      exact ⟨_,(hi id _).mpr (.inl ⟨hid,rfl⟩),rfl,rfl⟩
    next =>
      obtain ⟨metadata,hr,hrest⟩ := h.named id other ho
      exact ⟨metadata,(hi id metadata).mpr (.inr hr),hrest⟩
  · intro other metadata ho
    change (m.db.metadata.insert name _).lookup other = some metadata at ho
    change metadata.name = other ∧ metadata.branchId < m.registry.nextBranchId+1 ∧
      (metadata.parentId = none ↔ metadata.branchId = 1) ∧
      ((m.registry.branches.insert m.registry.nextBranchId name).lookup metadata.branchId = some other ↔ isDropped metadata.state = false)
    rw [Map.lookup_insert_ite] at ho
    split at ho
    next heq =>
      cases ho
      refine ⟨heq.symm,Nat.lt_succ_self _,⟨fun hno => (by cases hno),fun hon => ?_⟩,?_⟩
      · exact absurd hon (by simp only; omega)
      · rw [lookup_insert,heq]
        exact ⟨fun _ => rfl,fun _ => rfl⟩
    next =>
      obtain ⟨hn,hbr,hrt,hlv⟩ := h.record other metadata ho
      refine ⟨hn,Nat.lt_succ_of_lt hbr,hrt,?_⟩
      rw [lookup_insert_ne (Nat.ne_of_lt hbr)]
      exact hlv
  · intro a b ma mb ha hb heq
    change (m.db.metadata.insert name _).lookup a = some ma at ha
    change (m.db.metadata.insert name _).lookup b = some mb at hb
    rw [Map.lookup_insert_ite] at ha hb
    split at ha
    next hna =>
      split at hb
      next hnb => rw [hna,hnb]
      next =>
        cases ha
        exact absurd heq.symm (hf b mb hb)
    next =>
      split at hb
      next =>
        cases hb
        exact absurd heq (hf a ma ha)
      next => exact h.unique a b ma mb ha hb heq
  · intro id metadata p hr hp
    rcases (hi id metadata).mp hr with ⟨rfl,rfl⟩ | hold
    · cases hp
      exact ⟨hlt,hm hpn⟩
    · obtain ⟨hl,hin⟩ := h.parent id metadata p hold hp
      exact ⟨hl,hm hin⟩
  · intro id metadata hlk
    change (m.metadataCache.insert m.registry.nextBranchId _).lookup id = some metadata at hlk
    rw [Map.lookup_insert_ite] at hlk
    split at hlk
    next hid =>
      cases hlk
      refine (hi id _).mpr (.inl ⟨hid,?_⟩)
      rw [hid]
    next => exact (hi id metadata).mpr (.inr (h.cached id metadata hlk))
  · intro p
    have hls : (m.created name parentId snapshotId).getChildBranches p =
        if p = parentId then m.getChildBranches parentId ++ [m.registry.nextBranchId] else m.getChildBranches p := by
      change ((m.db.children.insert parentId _).lookup p).getD [] = _
      rw [Map.lookup_insert_ite]
      split <;> rfl
    have hnew : m.registry.nextBranchId ∉ m.getChildBranches parentId := by
      intro hin
      obtain ⟨metadata,hr,-⟩ := ((h.children parentId).2 _).mp hin
      exact h.notMem_next hr.mem
    rw [hls]
    split
    next hp =>
      refine ⟨List.Nodup.append (h.children parentId).1 (nodup_singleton _) (by simpa using hnew),fun id => ?_⟩
      rw [mem_append,mem_singleton,(h.children parentId).2 id]
      constructor
      · rintro (⟨metadata,hr,hpr⟩ | rfl)
        · exact ⟨metadata,(hi id metadata).mpr (.inr hr),by rw [hpr,hp]⟩
        · exact ⟨_,(hi _ _).mpr (.inl ⟨rfl,rfl⟩),by rw [hp]⟩
      · rintro ⟨metadata,hr,hpr⟩
        rcases (hi id metadata).mp hr with ⟨hid,-⟩ | hold
        · exact .inr hid
        · exact .inl ⟨metadata,hold,by rw [hpr,hp]⟩
    next hp =>
      refine ⟨(h.children p).1,fun id => ?_⟩
      rw [(h.children p).2 id]
      constructor
      · rintro ⟨metadata,hr,hpr⟩
        exact ⟨metadata,(hi id metadata).mpr (.inr hr),hpr⟩
      · rintro ⟨metadata,hr,hpr⟩
        rcases (hi id metadata).mp hr with ⟨-,rfl⟩ | hold
        · cases hpr
          exact absurd rfl hp
        · exact ⟨metadata,hold,hpr⟩

theorem getChildBranches_removeChildBranch (m : BranchManager) (parentId childId p : Nat) :
    (m.removeChildBranch parentId childId).getChildBranches p =
      if p = parentId then (m.getChildBranches p).filter fun id => decide (id ≠ childId) else m.getChildBranches p := by
  by_cases hp : p = parentId
  · subst hp
    rw [if_pos rfl]
    cases hl : m.db.children.lookup p with
    | none => simp only [removeChildBranch,getChildBranches,hl,getD_none,filter_nil]
    | some children =>
      have hold : m.getChildBranches p = children := by
        rw [getChildBranches,hl]
        rfl
      simp only [removeChildBranch,hl,hold]
      split
      next hln =>
        rw [hold]
        exact (filter_sublist.eq_of_length hln).symm
      next =>
        rw [getChildBranches,lookup_insert]
        rfl
  · rw [if_neg hp]
    cases hl : m.db.children.lookup parentId with
    | none => simp only [removeChildBranch,hl]
    | some children =>
      simp only [removeChildBranch,hl]
      split
      next => rfl
      next =>
        rw [getChildBranches,lookup_insert_ne hp]
        rfl

theorem getChildBranches_releaseChild (m : BranchManager) (metadata : BranchMetadata) (p : Nat) :
    (m.releaseChild metadata).getChildBranches p = if metadata.parentId = some p
      then (m.getChildBranches p).filter fun id => decide (id ≠ metadata.branchId) else m.getChildBranches p := by
  unfold releaseChild
  cases hpr : metadata.parentId with
  | none => rw [if_neg nofun]
  | some parentId =>
    simp only
    rw [getChildBranches_removeChildBranch]
    by_cases hp : p = parentId
    · rw [if_pos hp,if_pos (by rw [hp])]
    · rw [if_neg hp,if_neg (fun heq => hp (inj heq).symm)]

theorem releaseChild_frame (m : BranchManager) (metadata : BranchMetadata) :
    ∃ children, m.releaseChild metadata = { m with db := { m.db with children := children } } := by
  unfold releaseChild
  split
  · unfold removeChildBranch
    split
    · exact ⟨_,rfl⟩
    · simp only
      split <;> exact ⟨_,rfl⟩
  · exact ⟨_,rfl⟩

theorem scheduleBranchGc_frame (m : BranchManager) (id : Nat) : ∃ pending stored rows, m.scheduleBranchGc id =
      { m with pendingGc := pending, db := { m.db with pendingGc := stored, rows := rows } } := by
  unfold scheduleBranchGc
  split
  · exact ⟨_,_,_,rfl⟩
  · split <;> exact ⟨_,_,_,rfl⟩

/-- What dropping a branch does to the records, the registry, the lists and the cache. -/
structure Drops (m m' : BranchManager) (name : String) (old : BranchMetadata) : Prop where
  metadata : ∃ ts, m'.db.metadata = m.db.metadata.insert name { old with state := .dropped ts }
  registry : m'.registry = m.registry.removeBranch old.branchId
  stored : m'.db.registry = some m'.registry
  cache : m'.metadataCache = m.metadataCache.erase old.branchId
  children : ∀ p, m'.getChildBranches p = if old.parentId = some p
    then (m.getChildBranches p).filter fun id => decide (id ≠ old.branchId) else m.getChildBranches p

theorem dropBranch_cases (m : BranchManager) (name : String) (ifExists : Bool) : (m.dropBranch name ifExists).1 = m ∨
      ∃ old, m.db.metadata.lookup name = some old ∧ old.branchId ≠ m.registry.mainBranch ∧
        m.getChildBranches old.branchId = [] ∧ m.Drops (m.dropBranch name ifExists).1 name old := by
  unfold dropBranch
  cases hname : m.db.metadata.lookup name with
  | none => exact .inl (by simp only [getBranchByName,hname])
  | some old =>
    simp only [getBranchByName,hname]
    split
    next => exact .inl rfl
    next hm =>
      split
      next => exact .inl rfl
      next hc =>
        refine .inr ⟨old,rfl,hm,Decidable.not_not.mp hc,?_⟩
        have hl := getChildBranches_releaseChild (m.putMetadata name { old with state := .dropped m.timestamp }) old
        obtain ⟨children,hfr⟩ := releaseChild_frame (m.putMetadata name { old with state := .dropped m.timestamp }) old
        rw [hfr] at hl
        simp only [hfr]
        obtain ⟨pending,stored,rows,heq⟩ := scheduleBranchGc_frame (unregister { m with db := { m.db with
          metadata := m.db.metadata.insert name { old with state := .dropped m.timestamp }, children := children } }
          old.branchId) old.branchId
        exact ⟨⟨m.timestamp,congrArg (·.db.metadata) heq⟩,congrArg (·.registry) heq,
          (congrArg (·.db.registry) heq).trans (congrArg (fun m => some m.registry) heq).symm,
          congrArg (·.metadataCache) heq,fun p => (congrArg (·.getChildBranches p) heq).trans (hl p)⟩

theorem Drops.lookup (h : m.Drops m' name old) (id : Nat) :
    m'.registry.branches.lookup id = if id = old.branchId then none else m.registry.branches.lookup id := by
  rw [h.registry]
  exact Map.lookup_erase_ite _ _ _

theorem Linked.eq_of_name (h : m.Linked)
    (hname : m.db.metadata.lookup name = some old) (hid : m.registry.branches.lookup id = some name) : id = old.branchId := by
  obtain ⟨metadata,hr,heq,hbr⟩ := h.named id name hid
  have hsame := hr.2
  rw [heq,hname] at hsame
  rw [← hbr,← inj hsame]

section
variable {m m' : BranchManager} (h : m.Linked) {name : String} {old : BranchMetadata}
  (hname : m.db.metadata.lookup name = some old) (hdrops : m.Drops m' name old)
include h hname hdrops

theorem Linked.registered_dropped (id : Nat) (metadata : BranchMetadata) :
    m'.Registered id metadata ↔ id ≠ old.branchId ∧ m.Registered id metadata := by
  obtain ⟨ts, hm⟩ := hdrops.metadata
  rw [Registered,hdrops.lookup, hm,Map.lookup_insert_ite]
  by_cases hid : id = old.branchId
  · rw [if_pos hid]
    exact ⟨fun hno => absurd hno.1 (by simp),fun hno => absurd hid hno.1⟩
  rw [if_neg hid,and_iff_right hid,Registered]
  refine and_congr_right fun hr => ?_
  have hne : metadata.name ≠ name := by
    intro heq
    rw [heq] at hr
    exact hid (h.eq_of_name hname hr)
  rw [if_neg hne]

theorem Linked.dropped (hm : old.branchId ≠ m.registry.mainBranch) (hl : m.getChildBranches old.branchId = []) : m'.Linked := by
  have hi := h.registered_dropped hname hdrops
  have hlk := hdrops.lookup
  have hnx : m'.registry.nextBranchId = m.registry.nextBranchId := congrArg (·.nextBranchId) hdrops.registry
  obtain ⟨ts, hmt⟩ := hdrops.metadata
  rw [h.mainBranch] at hm
  constructor
  · exact hdrops.stored
  · rw [hdrops.registry]
    exact h.mainBranch
  · rw [hlk,if_neg (Ne.symm hm)]
    exact h.main
  · rw [hnx]
    exact h.bound
  · intro id other ho
    rw [hlk] at ho
    split at ho
    next => cases ho
    next hid =>
      obtain ⟨metadata,hr,hrest⟩ := h.named id other ho
      exact ⟨metadata,(hi id metadata).mpr ⟨hid,hr⟩,hrest⟩
  · intro other metadata ho
    rw [hmt,Map.lookup_insert_ite] at ho
    rw [hnx,hlk]
    split at ho
    next heq =>
      obtain ⟨hn,hbr,hrt,-⟩ := h.record name old hname
      cases ho
      refine ⟨hn.trans heq.symm,hbr,hrt,?_⟩
      rw [if_pos rfl]
      exact ⟨fun hno => (by cases hno),fun hno => (by cases hno)⟩
    next hne =>
      obtain ⟨hn,hbr,hrt,hlv⟩ := h.record other metadata ho
      refine ⟨hn,hbr,hrt,?_⟩
      rw [if_neg fun heq => hne (h.unique other name metadata old ho hname heq)]
      exact hlv
  · intro a b ma mb ha hb heq
    rw [hmt,Map.lookup_insert_ite] at ha hb
    split at ha
    next hna =>
      split at hb
      next hnb => rw [hna,hnb]
      next =>
        cases ha
        rw [hna]
        exact h.unique name b old mb hname hb heq
    next =>
      split at hb
      next hnb =>
        cases hb
        rw [hnb]
        exact h.unique a name ma old ha hname heq
      next => exact h.unique a b ma mb ha hb heq
  · intro id metadata p hr hp
    obtain ⟨hid,hold⟩ := (hi id metadata).mp hr
    obtain ⟨hls,hin⟩ := h.parent id metadata p hold hp
    refine ⟨hls,lookup_isSome.mp ?_⟩
    -- a dropped branch has no children, so it is not the parent
    have hne : p ≠ old.branchId := by
      rintro rfl
      have hch := ((h.children old.branchId).2 id).mpr ⟨metadata,hold,hp⟩
      rw [hl] at hch
      cases hch
    rw [hlk,if_neg hne]
    exact lookup_isSome.mpr hin
  · intro id metadata hc
    rw [hdrops.cache,Map.lookup_erase_ite] at hc
    split at hc
    next => cases hc
    next hid => exact (hi id metadata).mpr ⟨hid,h.cached id metadata hc⟩
  · intro p
    have hcs : ∀ id, id ∈ m.getChildBranches p ∧ id ≠ old.branchId ↔
        ∃ metadata, m'.Registered id metadata ∧ metadata.parentId = some p := by
      intro id
      rw [(h.children p).2 id]
      simp only [hi]
      constructor
      · rintro ⟨⟨metadata,hr,hp⟩,hid⟩
        exact ⟨metadata,⟨hid,hr⟩,hp⟩
      · rintro ⟨metadata,⟨hid,hr⟩,hp⟩
        exact ⟨⟨metadata,hr,hp⟩,hid⟩
    rw [hdrops.children]
    split
    next =>
      refine ⟨(h.children p).1.filter _,fun id => ?_⟩
      rw [mem_filter,decide_eq_true_eq]
      exact hcs id
    next hp =>
      refine ⟨(h.children p).1,fun id => ?_⟩
      rw [← hcs id]
      refine ⟨fun hin => ⟨hin,?_⟩,fun hin => hin.1⟩
      rintro rfl
      obtain ⟨metadata,hr,hpr⟩ := ((h.children p).2 _).mp hin
      have heq := h.unique metadata.name name metadata old hr.2 hname (h.branchId_eq hr)
      have hsame := hr.2
      rw [heq,hname] at hsame
      rw [← inj hsame] at hpr
      exact hp hpr

end

theorem Linked.rewrite {m : BranchManager} (h : m.Linked) {name : String} {old new : BranchMetadata}
    (hname : m.db.metadata.lookup name = some old) (hl : isDropped old.state = false)
    (hsame : new.name = old.name ∧ new.branchId = old.branchId ∧ new.parentId = old.parentId)
    (hnew : isDropped new.state = false) : ((m.putMetadata name new).cache new.branchId new).Linked := by
  obtain ⟨hn,hb,hp⟩ := hsame
  obtain ⟨hn',hbr,hrt,hre⟩ := h.record name old hname
  have hrg : m.Registered old.branchId old := ⟨by rw [hn']; exact hre.mpr hl,by rw [hn']; exact hname⟩
  set m' := (m.putMetadata name new).cache new.branchId new with hm'
  have hlk : ∀ other, m'.db.metadata.lookup other = if other = name then some new else m.db.metadata.lookup other :=
    fun other => Map.lookup_insert_ite _ _ _ _
  -- the branch keeps its place; all others are as they were
  have hi : ∀ id metadata, m'.Registered id metadata ↔
      (id = old.branchId ∧ metadata = new) ∨ (id ≠ old.branchId ∧ m.Registered id metadata) := by
    intro id metadata
    change m.registry.branches.lookup id = some metadata.name ∧ m'.db.metadata.lookup metadata.name = some metadata ↔ _
    rw [hlk]
    by_cases hid : id = old.branchId
    · subst hid
      rw [hrg.1]
      constructor
      · rintro ⟨heq,hm⟩
        rw [if_pos ((inj heq).symm.trans hn')] at hm
        exact .inl ⟨rfl,(inj hm).symm⟩
      · rintro (⟨-,rfl⟩ | ⟨hno,-⟩)
        · exact ⟨by rw [hn],by rw [if_pos (hn.trans hn')]⟩
        · exact absurd rfl hno
    · constructor
      · rintro ⟨hr,hm⟩
        split at hm
        next heq =>
          rw [heq] at hr
          exact absurd (h.eq_of_name hname hr) hid
        next => exact .inr ⟨hid,hr,hm⟩
      · rintro (⟨hno,-⟩ | ⟨-,hr,hm⟩)
        · exact absurd hno hid
        · refine ⟨hr,?_⟩
          rw [if_neg fun heq => hid (h.eq_of_name hname (by rw [← heq]; exact hr))]
          exact hm
  have hpn : ∀ id p, (∃ metadata, m'.Registered id metadata ∧ metadata.parentId = some p) ↔
      ∃ metadata, m.Registered id metadata ∧ metadata.parentId = some p := by
    intro id p
    constructor
    · rintro ⟨metadata,hr,hpr⟩
      rcases (hi id metadata).mp hr with ⟨rfl,rfl⟩ | ⟨-,hr⟩
      · exact ⟨old,hrg,by rw [← hp]; exact hpr⟩
      · exact ⟨metadata,hr,hpr⟩
    · rintro ⟨metadata,hr,hpr⟩
      by_cases hid : id = old.branchId
      · subst hid
        rw [hr.eq hrg] at hpr
        exact ⟨new,(hi _ _).mpr (.inl ⟨rfl,rfl⟩),by rw [hp]; exact hpr⟩
      · exact ⟨metadata,(hi id metadata).mpr (.inr ⟨hid,hr⟩),hpr⟩
  constructor
  · exact h.stored
  · exact h.mainBranch
  · exact h.main
  · exact h.bound
  · intro id other ho
    by_cases hid : id = old.branchId
    · subst hid
      have heq : old.name = other := inj (hrg.1.symm.trans ho)
      exact ⟨new,(hi _ _).mpr (.inl ⟨rfl,rfl⟩),hn.trans heq,hb⟩
    · obtain ⟨metadata,hr,hrest⟩ := h.named id other ho
      exact ⟨metadata,(hi id metadata).mpr (.inr ⟨hid,hr⟩),hrest⟩
  · intro other metadata ho
    rw [hlk] at ho
    change metadata.name = other ∧ metadata.branchId < m.registry.nextBranchId ∧ _
    split at ho
    next heq =>
      cases ho
      refine ⟨(hn.trans hn').trans heq.symm,by rw [hb]; exact hbr,by rw [hp,hb]; exact hrt,?_⟩
      rw [hb,heq,hnew]
      exact ⟨fun _ => rfl,fun _ => hre.mpr hl⟩
    next => exact h.record other metadata ho
  · intro a b ma mb ha hb' heq
    rw [hlk] at ha hb'
    split at ha
    next hna =>
      split at hb'
      next hnb => rw [hna,hnb]
      next =>
        cases ha
        rw [hna]
        exact h.unique name b old mb hname hb' (hb ▸ heq)
    next =>
      split at hb'
      next hnb =>
        cases hb'
        rw [hnb]
        exact h.unique a name ma old ha hname (hb ▸ heq)
      next => exact h.unique a b ma mb ha hb' heq
  · intro id metadata p hr hpr
    obtain ⟨metadata',hr',hp'⟩ := (hpn id p).mp ⟨metadata,hr,hpr⟩
    exact h.parent id metadata' p hr' hp'
  · intro id metadata hc
    change (m.metadataCache.insert new.branchId new).lookup id = some metadata at hc
    rw [Map.lookup_insert_ite] at hc
    split at hc
    next hid =>
      cases hc
      exact (hi id _).mpr (.inl ⟨hid.trans hb,rfl⟩)
    next hid => exact (hi id metadata).mpr (.inr ⟨fun heq => hid (heq.trans hb.symm),h.cached id metadata hc⟩)
  · intro p
    refine ⟨(h.children p).1,fun id => ?_⟩
    rw [hpn]
    exact (h.children p).2 id

theorem findMergeBase_preserves (hs : ∀ m id, P m → P (m.getBranchById id).1)
    (h : P m) (sourceId targetId : Nat) : P (m.findMergeBase sourceId targetId).1 := by
  have hc : ∀ (m : BranchManager) id, P m → P (m.buildParentChain id).1 :=
    fun m id hm => parentChain_preserves hs _ hm id
  have h₁ := hc m sourceId h
  unfold findMergeBase
  rcases hfs : m.buildParentChain sourceId with ⟨m₁,r₁⟩
  rw [hfs] at h₁
  cases r₁ with
  | error e => exact h₁
  | ok sourceChain =>
    have h₂ := hc m₁ targetId h₁
    simp only
    rcases hsc : m₁.buildParentChain targetId with ⟨m₂,r₂⟩
    rw [hsc] at h₂
    cases r₂ with
    | error e => exact h₂
    | ok targetChain =>
      simp only
      split
      next => exact h₂
      next =>
        have h₃ := hs m₂ sourceId h₂
        rcases hth : m₂.getBranchById sourceId with ⟨m₃,r₃⟩
        rw [hth] at h₃
        cases r₃ with
        | error e => exact h₃
        | ok source =>
          have h₄ := hs m₃ targetId h₃
          simp only
          rcases hf : m₃.getBranchById targetId with ⟨m₄,r₄⟩
          rw [hf] at h₄
          cases r₄ <;> exact h₄

theorem Linked.findMergeBase (h : m.Linked) (sourceId targetId : Nat) : (m.findMergeBase sourceId targetId).1.Linked :=
  findMergeBase_preserves (fun _ id hm => (hm.getBranchById id).1) h sourceId targetId

theorem Recached.findMergeBase (m : BranchManager) (sourceId targetId : Nat) : m.Recached (m.findMergeBase sourceId targetId).1 :=
  findMergeBase_preserves (fun _ id hm => hm.getBranchById id) ⟨_,rfl⟩ sourceId targetId

theorem Linked.recordMerge (h : m.Linked) {sourceName targetName : String} {source target : BranchMetadata}
    (hsr : m.db.metadata.lookup sourceName = some source) (htg : m.db.metadata.lookup targetName = some target)
    (hs : isDropped source.state = false) (ht : isDropped target.state = false) (ts : Timestamp) :
    (m.recordMerge sourceName targetName source target ts).Linked := by
  have hf := @Linked.rewrite m h _ _ { source with state := .merged target.branchId ts } hsr hs ⟨rfl,rfl,rfl⟩ rfl
  by_cases hn : targetName = sourceName
  · subst hn
    cases hsr.symm.trans htg
    exact @Linked.rewrite _ hf _ _ { source with mergeBase := some ts } (lookup_insert _) rfl ⟨rfl,rfl,rfl⟩ ht
  · refine @Linked.rewrite _ hf _ _ { target with mergeBase := some ts } ?_ ht ⟨rfl,rfl,rfl⟩ ht
    exact (lookup_insert_ne hn).trans htg

theorem Linked.mergeBranch (h : m.Linked) (order : HashOrder) (sourceName targetName : String)
    (strategy : MergeStrategy) : (m.mergeBranch order sourceName targetName strategy).1.Linked := by
  unfold BranchManager.mergeBranch
  cases hsr : m.db.metadata.lookup sourceName with
  | none =>
    simp only [getBranchByName,hsr]
    exact h
  | some source =>
    cases htg : m.db.metadata.lookup targetName with
    | none =>
      simp only [getBranchByName,hsr,htg]
      exact h
    | some target =>
      simp only [getBranchByName,hsr,htg]
      split
      next => exact h
      next hs =>
        split
        next => exact h
        next ht =>
          have hb := h.findMergeBase source.branchId target.branchId
          obtain ⟨c,hc⟩ := Recached.findMergeBase m source.branchId target.branchId
          rcases hf : m.findMergeBase source.branchId target.branchId with ⟨m₁,_ | mergeBase⟩
          · rw [hf] at hb
            exact hb
          rw [hf] at hb hc
          cases hc
          simp only [mergeRows]
          have hl : ∀ state : BranchState, ¬state ≠ .active → isDropped state = false := by
            intro state hst
            rw [Decidable.not_not.mp hst]
            rfl
          split
          next => exact hb
          next =>
            split
            next => exact hb.recache rfl rfl rfl rfl hb.cached
            next =>
              refine Linked.recordMerge ?_ ?_ ?_ (hl _ hs) (hl _ ht) _
              · exact hb.recache rfl rfl rfl rfl hb.cached
              · exact hsr
              · exact htg

theorem gcEligibleBranches_frame (m : BranchManager) : ∃ pending stored rows, m.gcEligibleBranches.1 =
      { m with pendingGc := pending, db := { m.db with pendingGc := stored, rows := rows } } := by
  have hf : ∀ (ids : List Nat) (m : BranchManager), ∃ pending rows,
      ids.foldl (fun (m : BranchManager) id => { m.gcBranchData id with pendingGc := m.pendingGc.erase id }) m =
        { m with pendingGc := pending, db := { m.db with rows := rows } } := by
    intro ids
    induction ids with
    | nil => exact fun m => ⟨_,_,rfl⟩
    | cons id rest ih =>
      intro m
      obtain ⟨pending,rows,heq⟩ := ih { m.gcBranchData id with pendingGc := m.pendingGc.erase id }
      exact ⟨pending,rows,heq⟩
  obtain ⟨pending,rows,heq⟩ := hf ((m.pendingGc.entries.filter fun entry =>
    decide (m.gcConfig.minRetentionSeconds ≤ m.timestamp-entry.2)).map (·.1)) m
  refine ⟨pending,pending,rows,?_⟩
  unfold gcEligibleBranches
  simp only [heq]
  rfl

end BranchManager

inductive BranchCall
  | create (name : String) (parentName : Option String) (snapshotId : Timestamp)
  | drop (name : String) (ifExists : Bool)
  | merge (order : HashOrder) (sourceName targetName : String) (strategy : MergeStrategy)
  | getById (branchId : Nat)
  | parentChain (branchId : Nat)
  | runGc
  | reopen (gcConfig : BranchGcConfig)

namespace BranchManager

def start (rows : Store) (timestamp : Timestamp) (gcConfig : BranchGcConfig) (keyManager : Option KeyManager) :
    BranchManager := withGcConfig ⟨∅,none,∅,∅,rows⟩ timestamp gcConfig keyManager

def step (m : BranchManager) : BranchCall → BranchManager
  | .create name parentName snapshotId => (m.createBranch name parentName snapshotId).1
  | .drop name ifExists => (m.dropBranch name ifExists).1
  | .merge order sourceName targetName strategy => (m.mergeBranch order sourceName targetName strategy).1
  | .getById branchId => (m.getBranchById branchId).1
  | .parentChain branchId => (m.buildParentChain branchId).1
  | .runGc => m.gcEligibleBranches.1
  | .reopen gcConfig => withGcConfig m.db m.timestamp gcConfig m.keyManager

structure Consistent (m : BranchManager) : Prop where
  stored : m.db.registry = some m.registry
  recorded : ∀ id name, m.registry.branches.lookup id = some name →
    ∃ metadata, m.db.metadata.lookup name = some metadata ∧ metadata.name = name ∧ metadata.branchId = id
  children : ∀ parentId, (m.getChildBranches parentId).Nodup ∧
    ∀ id, id ∈ m.getChildBranches parentId ↔ ∃ metadata, m.Registered id metadata ∧ metadata.parentId = some parentId
  parents : ∀ id metadata parentId, m.Registered id metadata → metadata.parentId = some parentId →
    parentId ∈ m.registry.branches
  chain : ∀ id ∈ m.registry.branches, ∃ chain, (m.buildParentChain id).2 = .ok chain ∧
    (id :: chain.map (·.1)).Pairwise (· > ·) ∧ (id :: chain.map (·.1)).getLast? = some m.registry.mainBranch
  byId : ∀ id metadata, (m.getBranchById id).2 = .ok metadata ↔ m.Registered id metadata

def ParentLive (m : BranchManager) : BranchCall → Prop
  | .create name (some parent) _ => ∀ old, m.db.metadata.lookup name = none → m.registry.nextBranchId ≠ u64Max →
      m.db.metadata.lookup parent = some old → isDropped old.state = false
  | _ => True

variable {m : BranchManager}

theorem Linked.consistent (h : m.Linked) : m.Consistent where
  stored := h.stored
  recorded id name hname := by
    obtain ⟨metadata,hr,rfl,hid⟩ := h.named id name hname
    exact ⟨metadata,hr.2,rfl,hid⟩
  children := h.children
  parents id metadata parentId hr hparent := (h.parent id metadata parentId hr hparent).2
  chain id hid := by
    obtain ⟨chain,hc,ha⟩ := h.buildParentChain hid
    rw [h.mainBranch]
    exact ⟨chain,hc,ha.descends h⟩
  byId id := (h.getBranchById id).2

theorem linked_start (rows : Store) (timestamp : Timestamp) (gcConfig : BranchGcConfig) (keyManager : Option KeyManager) :
    (start rows timestamp gcConfig keyManager).Linked := by
  have hr : ∀ name metadata, (start rows timestamp gcConfig keyManager).db.metadata.lookup name = some metadata →
      name = "main" ∧ metadata = mainMetadata := by
    intro name metadata hlk
    change ((∅ : Map String BranchMetadata).insert "main" mainMetadata).lookup name = some metadata at hlk
    rw [Map.lookup_insert_ite] at hlk
    split at hlk
    next heq => exact ⟨heq,(inj hlk).symm⟩
    next => cases hlk
  have hrg : ∀ id name, (start rows timestamp gcConfig keyManager).registry.branches.lookup id = some name →
      id = 1 ∧ name = "main" := by
    intro id name hlk
    change ((∅ : Map Nat String).insert 1 "main").lookup id = some name at hlk
    rw [Map.lookup_insert_ite] at hlk
    split at hlk
    next heq => exact ⟨heq,(inj hlk).symm⟩
    next => cases hlk
  constructor
  · rfl
  · rfl
  · rfl
  · exact (by decide : 2 ≤ u64Max)
  · intro id name hname
    obtain ⟨rfl,rfl⟩ := hrg id name hname
    exact ⟨mainMetadata,⟨rfl,rfl⟩,rfl,rfl⟩
  · intro name metadata hname
    obtain ⟨rfl,rfl⟩ := hr name metadata hname
    exact ⟨rfl,(by decide : 1 < 2),⟨fun _ => rfl,fun _ => rfl⟩,fun _ => rfl,fun _ => rfl⟩
  · intro a b ma mb ha hb _
    rw [(hr a ma ha).1,(hr b mb hb).1]
  · intro id metadata p hre hp
    rw [(hr _ metadata hre.2).2] at hp
    cases hp
  · intro id metadata hc
    cases hc
  · intro p
    refine ⟨nodup_nil,fun id => ⟨fun hm => (by cases hm),?_⟩⟩
    rintro ⟨metadata,hre,hp⟩
    rw [(hr _ metadata hre.2).2] at hp
    cases hp

theorem Linked.reopen (h : m.Linked) (gcConfig : BranchGcConfig) :
    (withGcConfig m.db m.timestamp gcConfig m.keyManager).Linked := by
  have hl : loadOrCreateRegistry m.db = (m.db,m.registry) := by rw [loadOrCreateRegistry,h.stored]
  unfold withGcConfig
  rw [hl]
  exact h.recache rfl rfl rfl rfl nofun

theorem Linked.notMem_of_dropped (h : m.Linked) {name : String} {old : BranchMetadata}
    (hname : m.db.metadata.lookup name = some old) (hd : isDropped old.state = true) : old.branchId ∉ m.registry.branches := by
  intro hm
  obtain ⟨metadata,hr,hid⟩ := h.exists_registered hm
  have heq := h.unique metadata.name name metadata old hr.2 hname hid
  have hl := (h.record name old hname).2.2.2.mp (by rw [← heq]; exact hr.1)
  rw [hd] at hl
  cases hl

theorem Linked.step {m : BranchManager} (h : m.Linked) (call : BranchCall) (hcall : m.ParentLive call) :
    (m.step call).Linked := by
  cases call with
  | create name parentName snapshotId =>
    rcases m.createBranch_cases name parentName snapshotId with ⟨heq,-⟩ | ⟨parentId,⟨hname,hp,hmx⟩,heq⟩
    · rw [BranchManager.step,heq]
      exact h
    rw [BranchManager.step,heq]
    refine h.created snapshotId hname ?_ hmx
    cases parentName with
    | none =>
      cases hp
      rw [h.mainBranch]
      exact lookup_isSome.mp (by rw [h.main]; rfl)
    | some parent =>
      cases hold : m.db.metadata.lookup parent with
      | none =>
        rw [resolveParent,getBranchByName,hold] at hp
        cases hp
      | some old =>
        rw [resolveParent,getBranchByName,hold] at hp
        cases hp
        refine lookup_isSome.mp ?_
        rw [(h.record parent old hold).2.2.2.mpr (hcall old hname hmx hold)]
        rfl
  | drop name ifExists =>
    rcases m.dropBranch_cases name ifExists with heq | ⟨old,hname,hmn,hl,hdrops⟩
    · rw [BranchManager.step,heq]
      exact h
    · exact h.dropped hname hdrops hmn hl
  | merge order sourceName targetName strategy => exact h.mergeBranch order sourceName targetName strategy
  | getById branchId => exact (h.getBranchById branchId).1
  | parentChain branchId => exact parentChain_preserves (fun _ id hm => (hm.getBranchById id).1) _ h branchId
  | runGc =>
    obtain ⟨pending,stored,rows,heq⟩ := m.gcEligibleBranches_frame
    rw [BranchManager.step,heq]
    exact h.recache rfl rfl rfl rfl h.cached
  | reopen gcConfig => exact h.reopen gcConfig

theorem Linked.not_consistent_step (h : m.Linked) (call : BranchCall) (hcall : ¬m.ParentLive call) :
    ¬(m.step call).Consistent := by
  cases call with
  | create name parentName snapshotId =>
    cases parentName with
    | none => exact absurd trivial hcall
    | some parent =>
      simp only [ParentLive,not_forall] at hcall
      obtain ⟨old,hname,hmx,hold,hd⟩ := hcall
      have hp : m.resolveParent (some parent) = .ok old.branchId := by
        rw [resolveParent,getBranchByName,hold]
        rfl
      rcases m.createBranch_cases name (some parent) snapshotId with ⟨-,hno⟩ | ⟨parentId,hc,heq⟩
      · exact absurd ⟨hname,hp,hmx⟩ (hno old.branchId)
      have hid : parentId = old.branchId := Except.ok.inj (hc.2.1.symm.trans hp)
      subst hid
      intro hcn
      rw [BranchManager.step,heq] at hcn
      have hr := (h.registered_created hname old.branchId snapshotId m.registry.nextBranchId _).mpr (.inl ⟨rfl,rfl⟩)
      have hm := hcn.parents _ _ old.branchId hr rfl
      rcases (mem_insert _).mp hm with hnew | hm
      · exact absurd hnew (Nat.ne_of_lt (h.record parent old hold).2.1)
      · exact h.notMem_of_dropped hold (Bool.eq_true_of_not_eq_false hd) hm
  | drop name ifExists | merge order sourceName targetName strategy | getById branchId
  | parentChain branchId | runGc | reopen gcConfig => exact absurd trivial hcall

end BranchManager

/-- The stores of the manager agree after every call of a history, exactly when no call creates a
branch under a dropped one. -/
theorem branch_registry_consistent (rows : Store) (timestamp : Timestamp) (gcConfig : BranchGcConfig)
    (keyManager : Option KeyManager) (calls : List BranchCall) :
    (∀ n, (run BranchManager.step (.start rows timestamp gcConfig keyManager) (calls.take n)).Consistent) ↔
      Guarded BranchManager.step BranchManager.ParentLive (.start rows timestamp gcConfig keyManager) calls := by
  refine Iff.symm (guarded_iff_forall_take (P := BranchManager.Consistent) BranchManager.step BranchManager.Linked
    ?_ ?_ ?_ (BranchManager.linked_start rows timestamp gcConfig keyManager))
  · exact fun m h => h.consistent
  · exact fun m call h hcall => h.step call hcall
  · exact fun m call h hcall => h.not_consistent_step call hcall

/-- A branch is dropped, and another one is created under its name: the new branch cannot be read. -/
theorem branch_registry_inconsistent : ∃ m : BranchManager, m = run BranchManager.step (.start ∅ 0 ⟨300,true,.deferred⟩ none)
      [.create "a" none 0,.drop "a" false,.create "b" (some "a") 0] ∧ ¬m.Consistent ∧ 3 ∈ m.registry.branches ∧
      (m.buildParentChain 3).2 = .error (.storage "Branch ID 2 not found") := by
  refine ⟨_,rfl,fun h => ?_,by decide,rfl⟩
  obtain ⟨chain,hchain,-⟩ := h.chain 3 (by decide)
  cases hchain

end HeliosNano.Storage.Branch
