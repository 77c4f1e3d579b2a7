import HeliosNano.Storage.RegistryRuns
import HeliosNano.Storage.RowIndexes

namespace HeliosNano.Storage.RowIndexes
open Foundation Foundation.Multimap Art IndexRegistry KeyEncoding Function Option

abbrev Rows := Name → Multimap Bytes RowId

structure IndexMeta where
  columns : List Name
  indexType : ArtIndexType
  constraintLabel : Option Name

def metaOf (entry : IndexEntry CountedTree) : IndexMeta := ⟨entry.columns,entry.indexType,entry.constraintLabel⟩

def metas (indexes : Indexes) (name : Name) : Option IndexMeta := (indexes.lookup name).map metaOf

abbrev Catalog := Name → Option IndexMeta

def kindOf (catalog : Catalog) (name : Name) : ArtIndexType := (catalog name).elim .manual IndexMeta.indexType

/-- A registered index is a tree of its kind with the entries of a multimap. -/
structure TreeOf (entry : IndexEntry CountedTree) (m : Multimap Bytes RowId) : Prop where
  refines : entry.tree.contents.tree.Refines m
  type : entry.tree.contents.tree.indexType = entry.indexType
  admissible : Admissible entry.indexType m

/-- Every registered index has the entries that the multimaps say. -/
structure Tracks (catalog : Catalog) (indexes : Indexes) (rows : Rows) : Prop where
  metas : metas indexes = catalog
  trees : ∀ name entry, indexes.lookup name = some entry → TreeOf entry (rows name)

def IndexCall.op : IndexCall → Option Op
  | .insert _ key rowId => some (.insert key rowId)
  | .remove _ key => some (.remove key)
  | .removeValue _ key rowId => some (.removeValue key rowId)
  | _ => none

def SafeAt (c : IndexCall) : Option (IndexEntry CountedTree) → Prop
  | none => False
  | some entry => ∀ op ∈ c.op, Safe entry.tree.contents.tree op

instance (c : IndexCall) : (entry : Option (IndexEntry CountedTree)) → Decidable (SafeAt c entry)
  | none => inferInstanceAs (Decidable False)
  | some entry => inferInstanceAs (Decidable (∀ op ∈ c.op, Safe entry.tree.contents.tree op))

/-- The call is one on a registered index that its tree carries out. -/
def SafeCall (indexes : Indexes) (c : IndexCall) : Prop := SafeAt c (indexes.lookup c.name)
deriving Decidable

def IndexCall.apply (kind : ArtIndexType) (m : Multimap Bytes RowId) (c : IndexCall) : Multimap Bytes RowId :=
  c.op.elim m fun op => op.apply kind m

section
variable {catalog : Catalog} {indexes : Indexes} {rows : Rows} {entry : IndexEntry CountedTree} {m : Multimap Bytes RowId}
variable {c : IndexCall}

theorem TreeOf.answer (h : TreeOf entry m) (hs : ∀ op ∈ c.op, Safe entry.tree.contents.tree op) :
    (answer entry.tree.contents c).1.tree.Refines (c.apply entry.indexType m) ∧
      (answer entry.tree.contents c).1.tree.indexType = entry.indexType := by
  have hop : ∀ op, c.op = some op → (entry.tree.contents.tree.step op).Refines (op.apply entry.indexType m) ∧
      (entry.tree.contents.tree.step op).indexType = entry.indexType := by
    intro op hop
    have hcall := (h.refines.call (hs op hop)).1
    rw [h.type] at hcall
    exact ⟨hcall,(entry.tree.contents.tree.indexType_step op).trans h.type⟩
  cases c with
  | insert name key rowId | remove name key | removeValue name key rowId => exact hop _ rfl
  | get name key | getAll name key => exact ⟨h.refines,h.type⟩
  | recordDenseIntInsert name keyWidth value =>
    have htr := CountedTree.tree_recordDenseIntInsert (c := entry.tree.contents) keyWidth value
    rw [RowIndexes.answer,htr]
    exact ⟨h.refines,h.type⟩
  | recordDenseIntDelete name value =>
    have htr := CountedTree.tree_recordDenseIntDelete (c := entry.tree.contents) value
    rw [RowIndexes.answer,htr]
    exact ⟨h.refines,h.type⟩

def Answers (kind : ArtIndexType) (m : Multimap Bytes RowId) : (c : IndexCall) → c.Answer → Prop
  | .insert _ key _, answer =>
    if key = [] ∧ kind = .primaryKey then answer = .error .nullPrimaryKey
    else if kind.isUnique ∧ valuesAt m key ≠ 0 then ∃ message, answer = .error (.duplicateKey message)
    else answer = .ok ()
  | .remove _ key, answer => ∃ removed, answer = .ok removed ∧ (removed.isSome = true ↔ valuesAt m key ≠ 0)
  | .removeValue _ key rowId, answer => answer = .ok (decide (rowId ∈ valuesAt m key))
  | .get _ key, answer => (answer.isSome = true ↔ valuesAt m key ≠ 0) ∧ ∀ rowId, answer = some rowId → rowId ∈ valuesAt m key
  | .getAll _ key, answer => (answer : Multiset RowId) = valuesAt m key
  | .recordDenseIntInsert _ _ _, _ => True
  | .recordDenseIntDelete _ _, _ => True

theorem TreeOf.answers (h : TreeOf entry m) (hs : ∀ op ∈ c.op, Safe entry.tree.contents.tree op) :
    ∃ a, (RowIndexes.answer entry.tree.contents c).2 = some a ∧ Answers entry.indexType m c a := by
  have hop : ∀ op, c.op = some op → op.Reports entry.indexType m (entry.tree.contents.tree.call op).2 := by
    intro op hop
    have hcall := (h.refines.call (hs op hop)).2
    rwa [h.type] at hcall
  cases c with
  | insert name key rowId =>
    have hr := hop _ rfl
    change Op.Reports _ m (.insert key rowId) (.inserted (entry.tree.contents.tree.insert key rowId).2) at hr
    rw [Op.Reports] at hr
    rw [RowIndexes.answer]
    by_cases hn : key = [] ∧ entry.indexType = .primaryKey
    · rw [if_pos hn] at hr
      rw [hr]
      exact ⟨_,rfl,(if_pos hn).mpr rfl⟩
    rw [if_neg hn] at hr
    by_cases hd : entry.indexType.isUnique ∧ valuesAt m key ≠ 0
    · rw [if_pos hd] at hr
      obtain ⟨message,hm⟩ := hr
      rw [hm]
      exact ⟨_,rfl,(if_neg hn).mpr ((if_pos hd).mpr ⟨message,rfl⟩)⟩
    · rw [if_neg hd] at hr
      rw [hr]
      exact ⟨_,rfl,(if_neg hn).mpr ((if_neg hd).mpr rfl)⟩
  | remove name key =>
    obtain ⟨removed,hrm,hsm,-⟩ := hop _ rfl
    change (entry.tree.contents.tree.remove key).2 = .ok removed at hrm
    rw [RowIndexes.answer,hrm]
    exact ⟨_,rfl,removed,rfl,hsm⟩
  | removeValue name key rowId =>
    have hr := hop _ rfl
    change (entry.tree.contents.tree.removeValue key rowId).2 = _ at hr
    rw [RowIndexes.answer,hr]
    exact ⟨_,rfl,rfl⟩
  | get name key => exact ⟨_,rfl,h.refines.isSome_get key,fun rowId hg => h.refines.mem_of_get hg⟩
  | getAll name key => exact ⟨_,rfl,h.refines.getAll key⟩
  | recordDenseIntInsert name keyWidth value | recordDenseIntDelete name value => exact ⟨(),rfl,trivial⟩

theorem admissible_apply {kind : ArtIndexType} (h : Admissible kind m) (c : IndexCall) : Admissible kind (c.apply kind m) := by
  rw [IndexCall.apply]
  cases c.op with
  | none => exact h
  | some op => exact h.apply op

def Does (kind : Name → ArtIndexType) (rows : Rows) (c : IndexCall) (answer : c.Answer) (rows' : Rows) : Prop :=
  Answers (kind c.name) (rows c.name) c answer ∧ rows' = Function.update rows c.name (c.apply (kind c.name) (rows c.name))

theorem Tracks.call (h : Tracks catalog indexes rows) (hs : SafeCall indexes c) :
    ∃ answer rows', (callIndex indexes c).2 = some answer ∧ Does (kindOf catalog) rows c answer rows' ∧
      Tracks catalog (callIndex indexes c).1 rows' := by
  rw [SafeCall] at hs
  rw [callIndex]
  cases hlk : indexes.lookup c.name with
  | none =>
    rw [hlk] at hs
    exact hs.elim
  | some entry =>
    rw [hlk] at hs
    have htr := h.trees c.name entry hlk
    have hk : kindOf catalog c.name = entry.indexType := by
      rw [kindOf,← h.metas,RowIndexes.metas,hlk]
      rfl
    obtain ⟨a,ha,han⟩ := htr.answers hs
    refine ⟨a,_,ha,⟨by rw [hk]; exact han,rfl⟩,?_,?_⟩
    · rw [← h.metas]
      funext name
      dsimp only
      rw [RowIndexes.metas,RowIndexes.metas,setContents.eq_def,Map.lookup_insert_ite]
      by_cases hn : name = c.name
      · rw [if_pos hn,hn,hlk]
        rfl
      · rw [if_neg hn]
    · intro name entry' he'
      dsimp only at he'
      rw [setContents.eq_def,Map.lookup_insert_ite] at he'
      by_cases hn : name = c.name
      · rw [if_pos hn] at he'
        cases he'
        obtain ⟨hr,hty⟩ := htr.answer hs
        rw [hn,update_self,hk]
        exact ⟨hr,hty,admissible_apply htr.admissible c⟩
      · rw [if_neg hn] at he'
        rw [update_of_ne hn]
        exact h.trees name entry' he'

theorem Tracks.run (h : Tracks catalog indexes rows) {α : Type} {script : IndexScript α} {post : α → Rows → Prop}
    (hs : script.Allowed callIndex SafeCall indexes) (hp : script.Post (Does (kindOf catalog)) rows post) :
    ∃ a rows', (script.run callIndex indexes).2 = some a ∧ Tracks catalog (script.run callIndex indexes).1 rows' ∧ post a rows' :=
  hp.run (fun _ _ _ hR hok => hR.call hok) h hs

end

section
variable {kind : Name → ArtIndexType} {rows : Rows} {name : Name} {key : Bytes} {rowId : RowId}

def Refuses (kind : ArtIndexType) (m : Multimap Bytes RowId) (key : Bytes) : Prop :=
  key = [] ∧ kind = .primaryKey ∨ kind.isUnique ∧ valuesAt m key ≠ 0

instance (kind : ArtIndexType) (m : Multimap Bytes RowId) (key : Bytes) : Decidable (Refuses kind m key) := instDecidableOr

theorem post_insert {post : Except ArtIndexError Unit → Rows → Prop}
    (he : ∀ e, Refuses (kind name) (rows name) key → post (.error e) rows)
    (hok : ¬Refuses (kind name) (rows name) key → post (.ok ()) (Function.update rows name ((key,rowId) ::ₘ rows name))) :
    (insert name key rowId).Post (Does kind) rows post := by
  rintro answer rows' ⟨ha,hr⟩
  change rows' = Function.update rows name ((Op.insert key rowId).apply (kind name) (rows name)) at hr
  dsimp only [Answers,IndexCall.name] at ha
  rw [show (Op.insert key rowId).apply (kind name) (rows name) =
    if Refuses (kind name) (rows name) key then rows name else (key,rowId) ::ₘ rows name from rfl] at hr
  by_cases hrf : Refuses (kind name) (rows name) key
  · rw [if_pos hrf,update_eq_self] at hr
    subst hr
    split at ha
    · rw [ha]
      exact he _ hrf
    split at ha
    · obtain ⟨message,rfl⟩ := ha
      exact he _ hrf
    next hn hd =>
      exact absurd hrf (not_or.mpr ⟨hn,hd⟩)
  · obtain ⟨hn,hd⟩ := not_or.mp hrf
    rw [if_neg hrf] at hr
    rw [if_neg hn,if_neg hd] at ha
    rw [hr,ha]
    exact hok hrf

theorem post_remove {post : Except ArtIndexError (Option RowId) → Rows → Prop}
    (h : ∀ removed : Option RowId, (removed.isSome = true ↔ valuesAt (rows name) key ≠ 0) →
      post (.ok removed) (Function.update rows name ((rows name).filter fun entry => entry.1 ≠ key))) :
    (remove name key).Post (Does kind) rows post := by
  rintro answer rows' ⟨⟨removed,rfl,hs⟩,rfl⟩
  exact h removed hs

theorem post_removeValue {post : Except ArtIndexError Bool → Rows → Prop}
    (h : post (.ok (decide (rowId ∈ valuesAt (rows name) key))) (Function.update rows name ((rows name).erase (key,rowId)))) :
    (removeValue name key rowId).Post (Does kind) rows post := by
  rintro answer rows' ⟨rfl,rfl⟩
  exact h

theorem post_get {post : Option RowId → Rows → Prop}
    (h : ∀ owner : Option RowId, (owner.isSome = true ↔ valuesAt (rows name) key ≠ 0) →
      (∀ rowId, owner = some rowId → rowId ∈ valuesAt (rows name) key) → post owner rows) :
    (get name key).Post (Does kind) rows post := by
  rintro answer rows' ⟨⟨hs,hm⟩,rfl⟩
  change post answer (Function.update rows name (rows name))
  rw [update_eq_self]
  exact h answer hs hm

theorem post_getAll {post : List RowId → Rows → Prop}
    (h : ∀ rowIds : List RowId, (rowIds : Multiset RowId) = valuesAt (rows name) key → post rowIds rows) :
    (getAll name key).Post (Does kind) rows post := by
  rintro answer rows' ⟨hv,rfl⟩
  change post answer (Function.update rows name (rows name))
  rw [update_eq_self]
  exact h answer hv

variable {post : Unit → Rows → Prop}

theorem post_recordInserted {dense : Option (Int × Nat)} (h : post () rows) :
    (recordInserted name dense).Post (Does kind) rows post := by
  cases dense with
  | none => exact h
  | some dense =>
    rintro answer rows' ⟨-,rfl⟩
    change post () (Function.update rows name (rows name))
    rw [update_eq_self]
    exact h

theorem post_recordDeleted {value : Option Int} (h : post () rows) : (recordDeleted name value).Post (Does kind) rows post := by
  cases value with
  | none => exact h
  | some value =>
    rintro answer rows' ⟨-,rfl⟩
    change post () (Function.update rows name (rows name))
    rw [update_eq_self]
    exact h

end

def rowIds (manager : ArtIndexManager CountedTree) (name : Name) (key : Bytes) : Multiset RowId :=
  ((manager.indexes.lookup name).elim [] fun entry => entry.tree.contents.tree.getAll key : List RowId)

/-- No table lists an index twice, and every index is a tree of its kind with some entries. -/
structure Sound (manager : ArtIndexManager CountedTree) : Prop where
  distinct : ∀ table, (tableNames manager table).Nodup
  tracked : ∃ rows, Tracks (metas manager.indexes) manager.indexes rows

/-- The script calls on trees only as they carry it out. -/
def SafeScript {α : Type} (manager : ArtIndexManager CountedTree) (script : IndexScript α) : Prop :=
  script.Allowed callIndex SafeCall manager.indexes
deriving Decidable

def SafeRequest (manager : ArtIndexManager CountedTree) (request : RowRequest) : Prop := SafeScript manager (request.script manager)
deriving Decidable

section
variable {manager : ArtIndexManager CountedTree} {catalog : Catalog} {rows : Rows}

theorem Tracks.rowIds (h : Tracks catalog manager.indexes rows) (name : Name) (key : Bytes) :
    rowIds manager name key = if (catalog name).isSome then valuesAt (rows name) key else 0 := by
  rw [RowIndexes.rowIds,← h.metas,RowIndexes.metas,isSome_map]
  cases hlk : manager.indexes.lookup name with
  | none => rfl
  | some entry => exact ((h.trees name entry hlk).refines.getAll key).trans (if_pos rfl).symm

theorem Sound.script (h : Sound manager) {α : Type} {script : IndexScript α} (hs : SafeScript manager script)
    (post : Rows → α → Rows → Prop) (hp : ∀ rows, Tracks (metas manager.indexes) manager.indexes rows →
      script.Post (Does (kindOf (metas manager.indexes))) rows (post rows)) :
    ∃ rows a rows', (script.run callIndex manager.indexes).2 = some a ∧ Tracks (metas manager.indexes) manager.indexes rows ∧
      Tracks (metas manager.indexes) (afterScript manager script).indexes rows' ∧ post rows a rows' := by
  obtain ⟨rows,hr⟩ := h.tracked
  obtain ⟨a,rows',ha,htr,hp⟩ := hr.run hs (hp rows hr)
  exact ⟨rows,a,rows',ha,hr,htr,hp⟩

theorem Sound.afterScript (h : Sound manager) {α : Type} {script : IndexScript α} (hs : SafeScript manager script) :
    Sound (afterScript manager script) ∧ metas (afterScript manager script).indexes = metas manager.indexes := by
  obtain ⟨rows,a,rows',-,-,hr',-⟩ := h.script hs (fun _ _ _ => True) fun rows _ =>
    Script.post_of_invariant _ (fun _ _ _ _ _ _ => trivial) trivial
  refine ⟨⟨h.distinct,rows',?_⟩,hr'.metas⟩
  rw [hr'.metas]
  exact hr'

theorem Sound.run (h : Sound manager) {requests : List RowRequest} (hs : Guarded RowRequest.perform SafeRequest manager requests) :
    Sound (Foundation.run RowRequest.perform manager requests) :=
  guarded_run_invariant RowRequest.perform Sound (fun _ _ hsn hok => (hsn.afterScript hok).1) h hs

def Respects (manager manager' : ArtIndexManager CountedTree) (rowId : RowId) : Prop :=
  ∀ name entry, manager.indexes.lookup name = some entry → entry.indexType.isUnique →
    ∀ key owner, owner ≠ rowId → owner ∈ rowIds manager name key → owner ∈ rowIds manager' name key

theorem Tracks.respects_iff {manager' : ArtIndexManager CountedTree} {rows' : Rows} {rowId : RowId} (h : Tracks catalog manager.indexes rows)
    (h' : Tracks catalog manager'.indexes rows') :
    Respects manager manager' rowId ↔ ∀ name entry, manager.indexes.lookup name = some entry → entry.indexType.isUnique →
      ∀ key owner, owner ≠ rowId → owner ∈ valuesAt (rows name) key → owner ∈ valuesAt (rows' name) key := by
  refine forall_congr' fun name => forall_congr' fun entry => imp_congr_right fun he => ?_
  have hn : (catalog name).isSome = true := by
    rw [← h.metas,RowIndexes.metas,he]
    rfl
  simp only [h.rowIds,h'.rowIds,hn,if_true]

def withNewTree (entry : IndexEntry Unit) : IndexEntry CountedTree :=
  ⟨entry.table,entry.columns,entry.indexType,entry.constraintLabel,
    ⟨entry.tree.name,entry.tree.table,entry.tree.columns,entry.tree.indexType,⟨.new "" entry.indexType,none⟩⟩⟩

def withNewTrees (registry : ArtIndexManager Unit) : ArtIndexManager CountedTree :=
  ⟨registry.indexes.mapValues withNewTree,registry.pkIndexes,registry.fkIndexes,registry.fkInfo,registry.uniqueIndexes,
    registry.tableIndexes⟩

theorem sound_withNewTrees {registry : ArtIndexManager Unit} (h : Consistent registry) : Sound (withNewTrees registry) := by
  refine ⟨h.distinct,fun _ => 0,rfl,fun name entry he => ?_⟩
  change (registry.indexes.mapValues withNewTree).lookup name = some entry at he
  rw [Map.lookup_mapValues,map_eq_some_iff] at he
  obtain ⟨entry,-,rfl⟩ := he
  exact ⟨.new "" entry.indexType,rfl,fun _ _ => Nat.zero_le 1,fun _ => rfl⟩

end
end HeliosNano.Storage.RowIndexes
