import HeliosNano.Foundation.Overlay
import HeliosNano.Storage.Branch.Registry
import HeliosNano.Storage.Branch.Transactions

/-! What a branch reads after a history of branches, of transactions on them and of writes of the
main branch. A branch is a layer over its parent, and the rows of the main branch are the base. -/
namespace HeliosNano.Storage.Branch
open Foundation List Option AList BranchTransaction Overlay BranchManager

structure RowKey extends UserKey where
  outside : ¬branchDataPrefix <+: bytes

/-- The main branch is written by the engine, under the keys themselves. -/
inductive BranchEvent
  | create (name : String) (parentName : Option String) (snapshotId : Timestamp)
  | commit (name : String) (notMain : name ≠ "main") (transactionId : TxnId) (snapshots : SnapshotManager) (ops : List BranchOp)
  | writeMain (key : RowKey) (value : Option Bytes)

/-- The manager with its store, and what was done so far: the last operation on a key that was
committed on a branch, and the rows of the main branch. -/
structure BranchWorld where
  manager : BranchManager
  last : Nat → Bytes → Option (Option Bytes)
  mainRow : Bytes → Option Bytes

namespace BranchWorld

def start (timestamp : Timestamp) (gcConfig : BranchGcConfig) (keyManager : Option KeyManager) : BranchWorld :=
  ⟨.start ∅ timestamp gcConfig keyManager,fun _ _ => none,fun _ => none⟩

def withRows (m : BranchManager) (rows : Store) : BranchManager := { m with db := { m.db with rows := rows } }

/-- `engine.put` seals every value, `engine.delete` removes the key. -/
def mainRows (keyManager : Option KeyManager) (rows : Store) (key : Key) : Option Bytes → Store
  | some value =>
    match sealStored keyManager key value with
    | .ok stored => rows.insert key stored
    | .error _ => rows
  | none => rows.erase key

def step (w : BranchWorld) : BranchEvent → BranchWorld
  | .create name parentName snapshotId => { w with manager := (w.manager.createBranch name parentName snapshotId).1 }
  | .commit name _ transactionId snapshots ops =>
    match w.manager.beginBranchTransaction name transactionId with
    | (m,.error _) => { w with manager := m }
    | (m,.ok t) =>
      let staged := ops.foldl apply t
      { w with
        manager := withRows m (staged.commit m.keyManager snapshots m.db.rows).db.store
        last := fun id key => if id = t.branchId then (lastOp key ops).or (w.last id key) else w.last id key }
  | .writeMain key value =>
    { w with
      manager := withRows w.manager (mainRows w.manager.keyManager w.manager.db.rows key.bytes value)
      mainRow := fun k => if k = key.bytes then value else w.mainRow k }

def read (w : BranchWorld) (name : String) (key : Key) : Option (CallResult (Option Bytes)) :=
  match (w.manager.beginBranchTransaction name 0).2 with
  | .ok t => some (t.get w.manager.keyManager w.manager.db.rows key)
  | .error _ => none

def mainRead (w : BranchWorld) (key : RowKey) : Option Bytes :=
  readRawDecoded w.manager.keyManager w.manager.db.rows key.bytes

/-- What was done to a key on a branch and on its line, the nearest first. -/
def layers (w : BranchWorld) (key : Bytes) (ids : List Nat) : List (Option (Option Bytes)) :=
  ids.map fun id => w.last id key

/-- Every branch reads the last operation of the nearest branch of its line that has one, and else
the row of the main branch. -/
def ReadsThrough (key : RowKey) (w : BranchWorld) : Prop :=
  ∀ id name, w.manager.registry.branches.lookup id = some name → id ≠ w.manager.registry.mainBranch →
    ∃ chain, (w.manager.buildParentChain id).2 = .ok chain ∧
      w.read name key.bytes = some (.ok (visible (w.mainRow key.bytes) (w.layers key.bytes (id :: chain.map (·.1)))))

/-- The store holds what was done, and no branch is dropped. -/
structure Mirrors (w : BranchWorld) : Prop where
  linked : w.manager.Linked
  sealing : SoundSeal w.manager.keyManager
  live : ∀ name metadata, w.manager.db.metadata.lookup name = some metadata → isDropped metadata.state = false
  rows : ∀ id key, id ≤ u64Max → readRawDecoded w.manager.keyManager w.manager.db.rows (encodeBranchDataKey id key) = (w.last id key).join
  main : ∀ key, ¬branchDataPrefix <+: key → readRawDecoded w.manager.keyManager w.manager.db.rows key = w.mainRow key
  known : ∀ id key, w.last id key ≠ none → id ∈ w.manager.registry.branches ∧ id ≠ 1

theorem mirrors_start {keyManager : Option KeyManager} (h : SoundSeal keyManager) (timestamp : Timestamp)
    (gcConfig : BranchGcConfig) : (start timestamp gcConfig keyManager).Mirrors where
  linked := linked_start _ _ _ _
  sealing := h
  live name metadata hlookup := by
    change ((∅ : Map String BranchMetadata).insert "main" mainMetadata).lookup name = some metadata at hlookup
    rw [Map.lookup_insert_ite] at hlookup
    split at hlookup
    next => cases hlookup; rfl
    next => cases hlookup
  rows _ _ _ := rfl
  main _ _ := rfl
  known _ _ h := absurd rfl h

section
variable {w : BranchWorld} (h : w.Mirrors)
include h

variable {id : Nat} {key : RowKey} {chain : List (Nat × Timestamp)} {metadata : BranchMetadata}

theorem Mirrors.id_le (hid : id ∈ w.manager.registry.branches) : id ≤ u64Max :=
  Nat.le_of_lt (Nat.lt_of_lt_of_le (h.linked.lt_next hid) h.linked.bound)

theorem Mirrors.readParents (hc : w.manager.Ancestry id chain) (hm : id ≠ 1) :
    BranchTransaction.readParents w.manager.keyManager w.manager.db.rows key.bytes chain =
      topmost (w.mainRow key.bytes) (w.layers key.bytes (chain.map (·.1))) := by
  induction hc with
  | root hr hp =>
    exact absurd ((h.linked.branchId_eq hr).symm.trans (((h.linked.record _ _ hr.2).2.2.1).mp hp)) hm
  | @child id parentId metadata chain hr hp hrest ih =>
    unfold BranchTransaction.readParents
    simp only
    by_cases ho : parentId = 1
    · have hn : w.last 1 key.bytes = none := by
        by_contra hne
        exact (h.known 1 _ hne).2 rfl
      have hnl : chain = [] := by
        cases hrest with
        | root => rfl
        | child hr' hp' _ =>
          have hrt := ((h.linked.record _ _ hr'.2).2.2.1).mpr ((h.linked.branchId_eq hr').trans ho)
          rw [hp'] at hrt
          cases hrt
      subst ho hnl
      rw [if_pos rfl,h.main _ key.outside]
      simp only [layers,map_cons,map_nil,hn,topmost,BranchTransaction.readParents]
      cases w.mainRow key.bytes <;> rfl
    · rw [if_neg ho,lossyBytes_eq key.utf8,h.rows _ _ (h.id_le hrest.mem)]
      have hih := ih ho
      simp only [layers,map_cons]
      rcases hl : w.last parentId key.bytes with _ | _ | value
      · simp only [join_none,topmost]
        exact hih
      · simp only [join_some,topmost]
        exact hih
      · rfl

theorem Mirrors.beginBranchTransaction (hr : w.manager.Registered id metadata) (hc : w.manager.Ancestry id chain) :
    (w.manager.beginBranchTransaction metadata.name 0).2 =
      .ok (.new 0 id chain ((w.manager.buildParentChain id).1.timestamp + 1)) := by
  obtain ⟨chain',hbl,hc'⟩ := h.linked.buildParentChain hr.mem
  cases hc.unique hc'
  unfold BranchManager.beginBranchTransaction
  simp only [BranchManager.getBranchByName,hr.2,h.linked.branchId_eq hr]
  rcases hb : w.manager.buildParentChain id with ⟨m,r⟩
  rw [hb] at hbl
  cases hbl
  rfl

theorem Mirrors.read (hr : w.manager.Registered id metadata) (hc : w.manager.Ancestry id chain) (hm : id ≠ 1) :
    w.read metadata.name key.bytes =
      some (.ok (topmost (w.mainRow key.bytes) (w.layers key.bytes (id :: chain.map (·.1))))) := by
  unfold BranchWorld.read
  rw [h.beginBranchTransaction hr hc]
  simp only [get_new,lossyBytes_eq key.utf8,h.rows id key.bytes (h.id_le hr.mem),h.readParents hc hm]
  simp only [layers,map_cons]
  rcases w.last id key.bytes with _ | _ | value <;> rfl

theorem Mirrors.read_main (hr : w.manager.Registered 1 metadata) : w.read metadata.name key.bytes = some (.ok none) := by
  have hrt : w.manager.Ancestry 1 [] :=
    .root hr (((h.linked.record _ _ hr.2).2.2.1).mpr (h.linked.branchId_eq hr))
  have hn : w.last 1 key.bytes = none := by
    by_contra hne
    exact (h.known 1 _ hne).2 rfl
  unfold BranchWorld.read
  rw [h.beginBranchTransaction hr hrt]
  simp only [get_new,lossyBytes_eq key.utf8,h.rows 1 key.bytes (h.id_le hr.mem),hn]
  rfl

end

theorem ancestry_split {m : BranchManager} {id b : Nat} {chain : List (Nat × Timestamp)} (h : m.Ancestry id chain)
    (hm : b ∈ id :: chain.map (·.1)) : ∃ above below, id :: chain.map (·.1) = above ++ b :: below.map (·.1) ∧
      m.Ancestry b below ∧ ∀ e ∈ above, ∃ line, m.Ancestry e line ∧ b ∈ line.map (·.1) := by
  induction h with
  | @root id metadata hr hp =>
    obtain rfl := mem_singleton.mp hm
    exact ⟨[],[],rfl,.root hr hp,nofun⟩
  | @child id parentId metadata chain hr hp hrest ih =>
    rcases mem_cons.mp hm with rfl | hm'
    · exact ⟨[],_,rfl,.child hr hp hrest,nofun⟩
    obtain ⟨above,below,hs,hb,hl⟩ := ih hm'
    refine ⟨id::above,below,?_,hb,fun e he => ?_⟩
    · rw [map_cons,hs]
      rfl
    · rcases mem_cons.mp he with rfl | he
      · exact ⟨_,.child hr hp hrest,hm'⟩
      · exact hl e he

/-- A transaction with these operations was committed on the branch. -/
structure Commits (w w' : BranchWorld) (branchId : Nat) (ops : List BranchOp) : Prop where
  mirrors : w'.Mirrors
  registered : ∀ id metadata, w'.manager.Registered id metadata ↔ w.manager.Registered id metadata
  last : ∀ id key, w'.last id key =
    if id = branchId then (lastOp key ops).or (w.last id key) else w.last id key
  mainRow : w'.mainRow = w.mainRow

variable {w : BranchWorld}

theorem Mirrors.registered_of_name (h : w.Mirrors) {name : String} {branch : BranchMetadata}
    (hn : w.manager.db.metadata.lookup name = some branch) : w.manager.Registered branch.branchId branch := by
  obtain ⟨heq,-,-,hl⟩ := h.linked.record name branch hn
  rw [← heq] at hn hl
  exact ⟨hl.mpr (h.live _ _ hn),hn⟩

theorem Mirrors.commit_cases (h : w.Mirrors) (name : String) (hn : name ≠ "main") (transactionId : TxnId)
    (snapshots : SnapshotManager) (ops : List BranchOp) :
    (w.manager.db.metadata.lookup name = none ∧ w.step (.commit name hn transactionId snapshots ops) = w) ∨
      ∃ branch, w.manager.db.metadata.lookup name = some branch ∧ branch.branchId ≠ 1 ∧
        w.Commits (w.step (.commit name hn transactionId snapshots ops)) branch.branchId ops := by
  cases hbr : w.manager.db.metadata.lookup name with
  | none =>
    refine .inl ⟨rfl,?_⟩
    simp only [step,BranchManager.beginBranchTransaction,BranchManager.getBranchByName,hbr]
  | some branch =>
    have hr := h.registered_of_name hbr
    have hid : branch.branchId ≠ 1 := by
      intro ho
      have hmn := hr.1
      rw [ho,h.linked.main] at hmn
      exact hn ((h.linked.record name branch hbr).1.symm.trans (Option.some.inj hmn).symm)
    obtain ⟨chain,hch,-⟩ := h.linked.buildParentChain hr.mem
    obtain ⟨c,hc⟩ := @BranchManager.Recached.buildParentChain w.manager w.manager ⟨_,rfl⟩ branch.branchId
    have hcc : ∀ id metadata, c.lookup id = some metadata → w.manager.Registered id metadata := by
      have hln : (w.manager.buildParentChain branch.branchId).1.Linked :=
        BranchManager.parentChain_preserves (fun _ id hm => (hm.getBranchById id).1) _ h.linked branch.branchId
      rw [hc] at hln
      exact hln.cached
    have hb : w.manager.buildParentChain branch.branchId = ({ w.manager with metadataCache := c },.ok chain) :=
      Prod.ext hc hch
    refine .inr ⟨branch,rfl,hid,?_⟩
    simp only [step,BranchManager.beginBranchTransaction,BranchManager.getBranchByName,hbr,hb]
    set t := new transactionId branch.branchId chain
      (BranchManager.nextTimestamp { w.manager with metadataCache := c }).timestamp with ht
    obtain ⟨hs,hsame,-,hlk⟩ := Staged.applyAll
      (staged_new transactionId branch.branchId chain
        (BranchManager.nextTimestamp { w.manager with metadataCache := c }).timestamp) ops
    have hw := (hs.commit h.sealing snapshots w.manager.db.rows).2
    have hbd : t.branchId = branch.branchId := rfl
    refine ⟨⟨?_,h.sealing,h.live,fun id key hle => ?_,fun key hkey => ?_,fun id key hne => ?_⟩,
      fun id metadata => Iff.rfl,fun id key => rfl,rfl⟩
    · exact h.linked.recache rfl rfl rfl rfl hcc
    · refine (hw (encodeBranchDataKey id key)).trans ?_
      change _ = (if id = branch.branchId then (lastOp key ops).or (w.last id key) else w.last id key).join
      by_cases heq : id = branch.branchId
      · have hl := hlk key
        rw [heq,if_pos rfl]
        rw [show t.branchId = branch.branchId from rfl] at hl
        rw [hl,show t.tx.writeSet.lookup (encodeBranchDataKey branch.branchId key) = none from rfl,or_none,
          h.rows _ _ (heq ▸ hle)]
        rcases lastOp key ops with _ | outcome <;> rfl
      · rw [if_neg heq]
        have hnn : (ops.foldl apply t).tx.writeSet.lookup (encodeBranchDataKey id key) = none := by
          refine AList.lookup_eq_none.mpr fun hmm => ?_
          obtain ⟨userKey,hkey⟩ := hs.keys _ hmm
          rw [hsame] at hkey
          exact heq (encodeBranchDataKey_inj hle (h.id_le hr.mem) hkey).1
        rw [hnn]
        exact h.rows id key hle
    · refine (hw key).trans ?_
      have hnn : (ops.foldl apply t).tx.writeSet.lookup key = none := by
        refine AList.lookup_eq_none.mpr fun hmm => ?_
        obtain ⟨userKey,heq⟩ := hs.keys _ hmm
        rw [heq] at hkey
        exact hkey (branchDataPrefix_encode _ _)
      rw [hnn]
      exact h.main key hkey
    · change (if id = branch.branchId then (lastOp key ops).or (w.last id key) else w.last id key) ≠ none at hne
      by_cases heq : id = branch.branchId
      · rw [heq]
        exact ⟨hr.mem,hid⟩
      · rw [if_neg heq] at hne
        exact h.known id key hne

theorem Mirrors.writeMain (h : w.Mirrors) (key : RowKey) (value : Option Bytes) : (w.step (.writeMain key value)).Mirrors := by
  have hr : ∀ k, readRawDecoded w.manager.keyManager (mainRows w.manager.keyManager w.manager.db.rows key.bytes value) k =
      if k = key.bytes then value else readRawDecoded w.manager.keyManager w.manager.db.rows k := by
    intro k
    cases value with
    | none =>
      rw [mainRows,readRawDecoded,Map.lookup_erase_ite]
      split <;> rfl
    | some value =>
      obtain ⟨stored, hs, hopen⟩ := h.sealing.seal_open key.bytes value
      simp only [mainRows, hs,readRawDecoded,Map.lookup_insert_ite]
      split
      next => rw [map_some, hopen]
      next => rfl
  refine ⟨?_,h.sealing,h.live,fun id k hle => ?_,fun k hk => ?_,h.known⟩
  · exact h.linked.recache rfl rfl rfl rfl h.linked.cached
  · refine (hr _).trans ?_
    rw [if_neg fun heq => key.outside (by rw [← heq]; exact branchDataPrefix_encode id k)]
    exact h.rows id k hle
  · refine (hr k).trans ?_
    change _ = if k = key.bytes then value else w.mainRow k
    split
    next => rfl
    next => exact h.main k hk

theorem Mirrors.create (h : w.Mirrors) (name : String) (parentName : Option String) (snapshotId : Timestamp) :
    (w.step (.create name parentName snapshotId)).Mirrors ∧
      ∀ id chain, (w.step (.create name parentName snapshotId)).manager.Ancestry id chain → w.manager.Ancestry id chain ∨
        ∃ parentId line, chain.map (·.1) = parentId :: line.map (·.1) ∧ w.manager.Ancestry parentId line ∧
          ∀ key, w.last id key = none := by
  have hlv : w.manager.ParentLive (.create name parentName snapshotId) := by
    cases parentName with
    | none => trivial
    | some parent => exact fun old _ _ hold => h.live parent old hold
  have hl : (w.manager.createBranch name parentName snapshotId).1.Linked := h.linked.step (.create name parentName snapshotId) hlv
  rcases w.manager.createBranch_cases name parentName snapshotId with ⟨heq,-⟩ | ⟨parentId,⟨hn,-,-⟩,heq⟩
  · have hst : w.step (.create name parentName snapshotId) = w := by rw [step,heq]
    rw [hst]
    exact ⟨h,fun id chain hc => .inl hc⟩
  · have hrg := h.linked.registered_created hn parentId snapshotId
    simp only [step,heq] at hl ⊢
    refine ⟨⟨hl,h.sealing,fun other metadata ho => ?_,h.rows,h.main,fun id key hne => ?_⟩,fun id chain hc => ?_⟩
    · change (w.manager.db.metadata.insert name _).lookup other = some metadata at ho
      rw [Map.lookup_insert_ite] at ho
      split at ho
      next => cases ho; rfl
      next => exact h.live other metadata ho
    · exact ⟨(mem_insert _).mpr (.inr (h.known id key hne).1),(h.known id key hne).2⟩
    · -- a registered branch keeps its line; the new one has its parent's
      have hold : ∀ {id chain}, (w.manager.created name parentId snapshotId).Ancestry id chain →
          id ∈ w.manager.registry.branches → w.manager.Ancestry id chain := by
        intro id chain hc hm
        obtain ⟨line,-,hln⟩ := h.linked.buildParentChain hm
        have hline' := hln.mono fun id metadata hr => (hrg id metadata).mpr (.inr hr)
        rw [hc.unique hline']
        exact hln
      by_cases hid : id ∈ w.manager.registry.branches
      · exact .inl (hold hc hid)
      have hf : ∀ key, w.last id key = none := by
        intro key
        by_contra hne
        exact hid (h.known id key hne).1
      cases hc with
      | root hr hp =>
        rcases (hrg _ _).mp hr with ⟨-,rfl⟩ | hr
        · cases hp
        · exact absurd hr.mem hid
      | @child _ nearest _ line hr hp hrest =>
        have hin : nearest ∈ w.manager.registry.branches := by
          rcases (mem_insert _).mp hrest.mem with hnew | hin
          · exfalso
            have hlt := (hl.parent _ _ _ hr hp).1
            rcases (mem_insert _).mp hr.mem with hs | hin
            · exact absurd hlt (by rw [hnew,hs]; exact Nat.lt_irrefl _)
            · exact hid hin
          · exact hin
        exact .inr ⟨nearest,line,rfl,hold hrest hin,hf⟩

/-- On every line, the topmost value is what is visible. -/
def Agrees (key : RowKey) (w : BranchWorld) : Prop :=
  ∀ id chain, w.manager.Ancestry id chain →
    topmost (w.mainRow key.bytes) (w.layers key.bytes (id :: chain.map (·.1))) =
      visible (w.mainRow key.bytes) (w.layers key.bytes (id :: chain.map (·.1)))

/-- The key is deleted on a branch only where its parent reads nothing, and it is given a value only
where no branch below has it deleted. -/
def NoneBelow (key : RowKey) (w : BranchWorld) : BranchEvent → Prop
  | .create _ _ _ => True
  | .commit name _ _ _ ops => ∀ branch, w.manager.db.metadata.lookup name = some branch →
      match lastOp key.bytes ops with
      | none => True
      | some none => ∀ chain, (w.manager.buildParentChain branch.branchId).2 = .ok chain →
          visible (w.mainRow key.bytes) (w.layers key.bytes (chain.map (·.1))) = none
      | some (some _) => ∀ id ∈ w.manager.registry.branches, ∀ chain, (w.manager.buildParentChain id).2 = .ok chain →
          branch.branchId ∈ chain.map (·.1) → w.last id key.bytes ≠ some none
  | .writeMain written value => written.bytes = key.bytes → value ≠ none →
      ∀ id ∈ w.manager.registry.branches, w.last id key.bytes ≠ some none

section
variable {w : BranchWorld} (h : w.Mirrors) {key : RowKey}
include h

variable {id : Nat} {chain : List (Nat × Timestamp)}

theorem Mirrors.buildParentChain_iff (hid : id ∈ w.manager.registry.branches) :
    (w.manager.buildParentChain id).2 = .ok chain ↔ w.manager.Ancestry id chain := by
  obtain ⟨line,hb,hl⟩ := h.linked.buildParentChain hid
  rw [hb]
  constructor
  · rintro ⟨⟩
    exact hl
  · intro hc
    rw [hc.unique hl]

theorem Mirrors.readsThrough_iff : ReadsThrough key w ↔ Agrees key w := by
  constructor
  · intro hrs id chain hc
    by_cases hm : id = 1
    · -- nothing is committed on the main branch
      subst hm
      have hnn : w.last 1 key.bytes = none := by
        by_contra hne
        exact (h.known 1 _ hne).2 rfl
      cases hc with
      | root => simp only [layers,map_cons,map_nil,hnn,topmost,visible]
      | child hr hp _ =>
        rw [((h.linked.record _ _ hr.2).2.2.1).mpr (h.linked.branchId_eq hr)] at hp
        cases hp
    · obtain ⟨metadata,hr,-⟩ := h.linked.exists_registered hc.mem
      obtain ⟨line,hb,hrd⟩ := hrs id metadata.name hr.1 (by rw [h.linked.mainBranch]; exact hm)
      have hl := (h.buildParentChain_iff hc.mem).mp hb
      rw [hl.unique hc,h.read hr hc hm] at hrd
      exact CallResult.ok.inj (Option.some.inj hrd)
  · intro ha id name hn hm
    obtain ⟨metadata,hr,rfl,-⟩ := h.linked.named id name hn
    obtain ⟨chain,hb,hc⟩ := h.linked.buildParentChain hr.mem
    rw [h.linked.mainBranch] at hm
    refine ⟨chain,hb,?_⟩
    rw [h.read hr hc hm,ha id chain hc]

theorem Mirrors.notMem_chain (hc : w.manager.Ancestry id chain) : id ∉ chain.map (·.1) :=
  fun hm => Nat.lt_irrefl id ((pairwise_cons.mp (hc.descends h.linked).1).1 id hm)

end

section
variable {w w' : BranchWorld} {b : Nat} {ops : List BranchOp} (hcommits : w.Commits w' b ops)
include hcommits

theorem Commits.ancestry {id : Nat} {chain : List (Nat × Timestamp)} :
    w'.manager.Ancestry id chain ↔ w.manager.Ancestry id chain :=
  ⟨fun hc => hc.mono fun id metadata => (hcommits.registered id metadata).mp,
    fun hc => hc.mono fun id metadata => (hcommits.registered id metadata).mpr⟩

theorem Commits.layers_of_notMem (key : Bytes) {ids : List Nat} (hi : b ∉ ids) : w'.layers key ids = w.layers key ids := by
  refine map_congr_left fun id hid => ?_
  rw [hcommits.last,if_neg]
  rintro rfl
  exact hi hid

theorem Commits.layers_split (h : w.Mirrors) (key : Bytes) {id : Nat} {chain below : List (Nat × Timestamp)} {above : List Nat}
    (hch : w.manager.Ancestry id chain) (hs : id :: chain.map (·.1) = above ++ b :: below.map (·.1)) :
    w'.layers key (id :: chain.map (·.1)) = w.layers key above ++
      (lastOp key ops).or (w.last b key) :: w.layers key (below.map (·.1)) := by
  have hp := (hch.descends h.linked).1
  rw [hs] at hp
  obtain ⟨-,hb,hc⟩ := pairwise_append.mp hp
  have ha : b ∉ above := fun hm => Nat.lt_irrefl b (hc b hm b mem_cons_self)
  have hb' : b ∉ below.map (·.1) := fun hm => Nat.lt_irrefl b ((pairwise_cons.mp hb).1 b hm)
  have hh : w'.last b key = (lastOp key ops).or (w.last b key) := by rw [hcommits.last,if_pos rfl]
  have hup := hcommits.layers_of_notMem key ha
  have hd := hcommits.layers_of_notMem key hb'
  rw [hs,← hup,← hd,← hh]
  exact map_append

theorem Commits.agrees (h : w.Mirrors) {key : RowKey} (ha : Agrees key w) (hb : b ≠ 1)
    (hd : lastOp key.bytes ops = some none → ∀ chain, w.manager.Ancestry b chain →
      visible (w.mainRow key.bytes) (w.layers key.bytes (chain.map (·.1))) = none)
    (hpt : ∀ value, lastOp key.bytes ops = some (some value) → ∀ id chain, w.manager.Ancestry id chain →
      b ∈ chain.map (·.1) → w.last id key.bytes ≠ some none) : Agrees key w' := by
  intro id chain hc
  have hc := hcommits.ancestry.mp hc
  rw [hcommits.mainRow]
  by_cases hm : b ∈ id :: chain.map (·.1)
  · obtain ⟨above,below,hs,hln,hab⟩ := ancestry_split hc hm
    have hold := ha id chain hc
    rw [hcommits.layers_split h key.bytes hc hs]
    rw [hs,show w.layers key.bytes (above ++ b :: below.map (·.1)) =
      w.layers key.bytes above ++ w.last b key.bytes :: w.layers key.bytes (below.map (·.1)) from map_append] at hold
    -- the line of the parent
    have hp : topmost (w.mainRow key.bytes) (w.layers key.bytes (below.map (·.1))) =
        visible (w.mainRow key.bytes) (w.layers key.bytes (below.map (·.1))) := by
      cases hln with
      | root hr hrt =>
        exact absurd ((h.linked.branchId_eq hr).symm.trans (((h.linked.record _ _ hr.2).2.2.1).mp hrt)) hb
      | child _ _ hrest => exact ha _ _ hrest
    refine agree_replace hold ?_ ?_
    · rcases hop : lastOp key.bytes ops with _ | _ | value
      · exact ha b below hln
      · rw [some_or]
        exact hp.trans (hd hop below hln)
      · rfl
    · intro hdl hn
      rcases hop : lastOp key.bytes ops with _ | _ | value
      · exact hn
      · rw [some_or]
        rcases hl : w.last b key.bytes with _ | _ | value
        · rw [hl] at hn
          exact hn
        · rw [hl] at hn
          exact hn
        · rw [hl] at hn
          cases hn
      · obtain ⟨e,he,hl⟩ := mem_map.mp hdl
        obtain ⟨line,hl',hin⟩ := hab e he
        exact absurd hl (hpt value hop e line hl' hin)
  · rw [hcommits.layers_of_notMem key.bytes hm]
    exact ha id chain hc

end

theorem Mirrors.step {w : BranchWorld} (h : w.Mirrors) (e : BranchEvent) : (w.step e).Mirrors := by
  cases e with
  | create name parentName snapshotId => exact (h.create name parentName snapshotId).1
  | commit name hn transactionId snapshots ops =>
    rcases h.commit_cases name hn transactionId snapshots ops with ⟨-,heq⟩ | ⟨branch,-,-,hcommits⟩
    · rw [heq]
      exact h
    · exact hcommits.mirrors
  | writeMain key value => exact h.writeMain key value

theorem Mirrors.agrees_step (h : w.Mirrors) {key : RowKey} (hag : Agrees key w) (e : BranchEvent) :
    Agrees key (w.step e) ↔ NoneBelow key w e := by
  cases e with
  | create name parentName snapshotId =>
    refine iff_of_true (fun id chain hc => ?_) trivial
    rcases (h.create name parentName snapshotId).2 id chain hc with hold | ⟨parentId,line,heq,hl,hf⟩
    · exact hag id chain hold
    have hly : (w.step (.create name parentName snapshotId)).layers key.bytes (id :: chain.map (·.1)) =
        none :: w.layers key.bytes (parentId :: line.map (·.1)) := by
      rw [heq,layers,map_cons]
      exact congrArg (· :: _) (hf key.bytes)
    rw [hly]
    exact hag parentId line hl
  | commit name hn transactionId snapshots ops =>
    rcases h.commit_cases name hn transactionId snapshots ops with ⟨hnn,heq⟩ | ⟨branch,hbr,hid,hcommits⟩
    · rw [heq]
      refine iff_of_true hag fun branch hbr => ?_
      rw [hnn] at hbr
      cases hbr
    · have hrg := h.registered_of_name hbr
      obtain ⟨line,hbd,hl⟩ := h.linked.buildParentChain hrg.mem
      have how := @Commits.layers_split w _ branch.branchId ops hcommits h key.bytes branch.branchId line line [] hl rfl
      constructor
      · intro haf other ho
        cases hbr.symm.trans ho
        rcases hop : lastOp key.bytes ops with _ | _ | value
        · trivial
        · intro chain hc
          rw [(h.buildParentChain_iff hrg.mem).mp hc |>.unique hl]
          have ha := haf branch.branchId line (hcommits.ancestry.mpr hl)
          rw [how,hop,hcommits.mainRow] at ha
          -- the deletion is passed over, and the parent's value shows
          cases hl with
          | root hr' hrt =>
            exact absurd ((h.linked.branchId_eq hr').symm.trans (((h.linked.record _ _ hr'.2).2.2.1).mp hrt)) hid
          | child _ _ hrest =>
            exact (hag _ _ hrest).symm.trans ha
        · intro id hm chain hc hin hd
          have hc := (h.buildParentChain_iff hm).mp hc
          have ha := haf id chain (hcommits.ancestry.mpr hc)
          have hne : id ≠ branch.branchId := by
            rintro rfl
            exact h.notMem_chain hc hin
          have hfs : (w.step (.commit name hn transactionId snapshots ops)).last id key.bytes = some none := by
            rw [hcommits.last,if_neg hne,hd]
          have hbl : some (some value) ∈
              (w.step (.commit name hn transactionId snapshots ops)).layers key.bytes (chain.map (·.1)) := by
            refine mem_map.mpr ⟨branch.branchId,hin,?_⟩
            rw [hcommits.last,if_pos rfl,hop]
            rfl
          rw [layers,map_cons,hfs] at ha
          exact topmost_ne_none_of_mem hbl ha
      · intro hgd
        have hgd := hgd branch hbr
        refine hcommits.agrees h hag hid (fun hop chain hc => ?_) (fun value hop id chain hc hin => ?_)
        · rw [hop] at hgd
          exact hgd chain ((h.buildParentChain_iff hc.mem).mpr hc)
        · rw [hop] at hgd
          exact hgd id hc.mem chain ((h.buildParentChain_iff hc.mem).mpr hc) hin
  | writeMain written value =>
    have hly : ∀ ids, (w.step (.writeMain written value)).layers key.bytes ids = w.layers key.bytes ids := fun _ => rfl
    have hb : (w.step (.writeMain written value)).mainRow key.bytes =
        if key.bytes = written.bytes then value else w.mainRow key.bytes := rfl
    have han : ∀ id chain, (w.step (.writeMain written value)).manager.Ancestry id chain ↔ w.manager.Ancestry id chain :=
      fun id chain => ⟨@Ancestry.mono (w.step (.writeMain written value)).manager w.manager (fun _ _ hr => hr) id chain,
        @Ancestry.mono w.manager (w.step (.writeMain written value)).manager (fun _ _ hr => hr) id chain⟩
    constructor
    · intro haf heq hv id hm hd
      obtain ⟨chain,-,hc⟩ := h.linked.buildParentChain hm
      obtain ⟨shown,rfl⟩ := ne_none_iff_exists'.mp hv
      have ha := haf id chain ((han id chain).mpr hc)
      rw [hly,hb,if_pos heq.symm,layers,map_cons,hd] at ha
      exact topmost_some_ne_none shown _ ha
    · intro hgd id chain hc
      have hc := (han id chain).mp hc
      rw [hly,hb]
      split
      next heq =>
        have hold := hag id chain hc
        rw [← append_nil (w.layers key.bytes (id :: chain.map (·.1)))] at hold ⊢
        refine agree_replace hold rfl fun hd hnn => ?_
        by_contra hv
        obtain ⟨e,he,hls⟩ := mem_map.mp hd
        obtain ⟨above,below,hs,hl,hab⟩ := ancestry_split hc he
        exact hgd heq.symm hv e hl.mem hls
      next => exact hag id chain hc

def Unrelated (w : BranchWorld) (name other : String) : Prop :=
  ∀ branch reader chain, w.manager.db.metadata.lookup name = some branch → w.manager.db.metadata.lookup other = some reader →
    (w.manager.buildParentChain reader.branchId).2 = .ok chain → branch.branchId ∉ reader.branchId :: chain.map (·.1)

theorem Mirrors.read_commit (h : w.Mirrors) (key : RowKey) (name : String) (hn : name ≠ "main")
    (transactionId : TxnId) (snapshots : SnapshotManager) (ops : List BranchOp) {other : String} {reader : BranchMetadata}
    (hrd : w.manager.db.metadata.lookup other = some reader) (ho : w.Unrelated name other) :
    (w.step (.commit name hn transactionId snapshots ops)).read other key.bytes = w.read other key.bytes := by
  rcases h.commit_cases name hn transactionId snapshots ops with ⟨-,heq⟩ | ⟨branch,hbr,-,hcommits⟩
  · rw [heq]
  have hr := h.registered_of_name hrd
  have hn' : reader.name = other := (h.linked.record other reader hrd).1
  obtain ⟨chain,hb,hc⟩ := h.linked.buildParentChain hr.mem
  have hnt := ho branch reader chain hbr hrd hb
  rw [← hn']
  by_cases hm : reader.branchId = 1
  · rw [hm] at hr
    rw [hcommits.mirrors.read_main ((hcommits.registered _ _).mpr hr),h.read_main hr]
  · rw [hcommits.mirrors.read ((hcommits.registered _ _).mpr hr) (hcommits.ancestry.mpr hc) hm,
      h.read hr hc hm,hcommits.mainRow,hcommits.layers_of_notMem key.bytes hnt]

theorem Mirrors.main_commit (h : w.Mirrors) (key : RowKey) (name : String) (hn : name ≠ "main")
    (transactionId : TxnId) (snapshots : SnapshotManager) (ops : List BranchOp) :
    (w.step (.commit name hn transactionId snapshots ops)).mainRead key = w.mainRead key := by
  rcases h.commit_cases name hn transactionId snapshots ops with ⟨-,heq⟩ | ⟨branch,-,-,hcommits⟩
  · rw [heq]
  · rw [mainRead,mainRead,hcommits.mirrors.main _ key.outside,h.main _ key.outside,hcommits.mainRow]

end BranchWorld

/-- Every branch reads the last operation of its line after every event of a history exactly when no
event shows a value under a deletion, and a commit on a branch is never seen by its parents, by its
siblings or by the main branch. -/
theorem branch_reads {keyManager : Option KeyManager} (hseal : SoundSeal keyManager) (timestamp : Timestamp)
    (gcConfig : BranchGcConfig) (key : RowKey) (events : List BranchEvent) :
    ((∀ n, (run BranchWorld.step (.start timestamp gcConfig keyManager) (events.take n)).ReadsThrough key) ↔
      Guarded BranchWorld.step (BranchWorld.NoneBelow key) (.start timestamp gcConfig keyManager) events) ∧
    ∀ n name hname transactionId snapshots ops, ∀ w : BranchWorld,
      w = run BranchWorld.step (.start timestamp gcConfig keyManager) (events.take n) →
      (w.step (.commit name hname transactionId snapshots ops)).mainRead key = w.mainRead key ∧
      ∀ other ∈ w.manager.db.metadata, w.Unrelated name other →
        (w.step (.commit name hname transactionId snapshots ops)).read other key.bytes = w.read other key.bytes := by
  have hstart := BranchWorld.mirrors_start hseal timestamp gcConfig
  have hagrees : BranchWorld.Agrees key (.start timestamp gcConfig keyManager) := by
    refine (hstart.readsThrough_iff).mp fun id name hname hmain => ?_
    change ((∅ : Map Nat String).insert 1 "main").lookup id = some name at hname
    rw [Map.lookup_insert_ite] at hname
    split at hname
    next heq => exact absurd heq hmain
    next => cases hname
  constructor
  · refine Iff.symm (guarded_iff_forall_take (P := BranchWorld.ReadsThrough key) BranchWorld.step
      (fun w => w.Mirrors ∧ w.Agrees key) ?_ ?_ ?_ ⟨hstart,hagrees⟩)
    · exact fun w h => h.1.readsThrough_iff.mpr h.2
    · exact fun w e h he => ⟨h.1.step e,(h.1.agrees_step h.2 e).mpr he⟩
    · exact fun w e h he hreads => he ((h.1.agrees_step h.2 e).mp ((h.1.step e).readsThrough_iff.mp hreads))
  · rintro n name hname transactionId snapshots ops w rfl
    have hmirrors := run_invariant BranchWorld.step BranchWorld.Mirrors (fun w e h => h.step e) hstart (events.take n)
    refine ⟨hmirrors.main_commit key name hname transactionId snapshots ops,fun other hother hunrelated => ?_⟩
    obtain ⟨reader,hreader⟩ := isSome_iff_exists.mp (lookup_isSome.mpr hother)
    exact hmirrors.read_commit key name hname transactionId snapshots ops hreader hunrelated

theorem isUtf8_rowK : IsUtf8 [107] := isUtf8_of_ascii (by simp)

def rowK : RowKey where
  bytes := [107]
  utf8 := isUtf8_rowK
  outside := by decide

/-- A row of the main branch is written again on a branch: the branch reads its own value. -/
theorem branch_reads_put : ∃ events : List BranchEvent, events = [.writeMain rowK (some [1]),.create "dev" none 0,
      .commit "dev" (by decide) 1 (.new none) [.put rowK.toUserKey [2]]] ∧
    (∀ n, (run BranchWorld.step (.start 0 ⟨300,true,.deferred⟩ none) (events.take n)).ReadsThrough rowK) ∧
    (run BranchWorld.step (.start 0 ⟨300,true,.deferred⟩ none) events).read "dev" rowK.bytes = some (.ok (some [2])) := by
  refine ⟨_,rfl,((branch_reads (fun _ h => by cases h) 0 ⟨300,true,.deferred⟩ rowK _).1).mpr ?_,rfl⟩
  refine ⟨fun _ _ _ _ h => (by cases h),trivial,fun branch _ => ?_,trivial⟩
  intro id _ chain _ _ h
  cases h

/-- The row is deleted on the branch, and the branch still reads it. -/
theorem branch_delete_shows_parent : ∃ w : BranchWorld, w = run BranchWorld.step (.start 0 ⟨300,true,.deferred⟩ none)
      [.writeMain rowK (some [1]),.create "dev" none 0,.commit "dev" (by decide) 1 (.new none) [.delete rowK.toUserKey]] ∧
    ¬w.ReadsThrough rowK ∧ w.last 2 rowK.bytes = some none ∧ w.read "dev" rowK.bytes = some (.ok (some [1])) := by
  refine ⟨_,rfl,fun h => ?_,rfl,rfl⟩
  obtain ⟨chain,-,hread⟩ := h 2 "dev" rfl (by decide)
  cases hread

end HeliosNano.Storage.Branch
