import HeliosNano.Storage.ReplicatedRows

namespace HeliosNano.Storage.RowIndexes
open Foundation Foundation.Multimap Art IndexRegistry KeyEncoding List Function Option Script

section
variable {kind : Name → ArtIndexType} {indexes : Indexes} {rowId : RowId} {rows rows' rows'' : Rows} {name : Name} {names : List Name}
  {key : Bytes}

def OthersKept (rowId : RowId) (rows rows' : Rows) : Prop :=
  ∀ name key owner, owner ≠ rowId → (owner ∈ valuesAt (rows' name) key ↔ owner ∈ valuesAt (rows name) key)

theorem OthersKept.refl (rowId : RowId) (rows : Rows) : OthersKept rowId rows rows := fun _ _ _ _ => Iff.rfl

theorem OthersKept.trans (h : OthersKept rowId rows rows') (h' : OthersKept rowId rows' rows'') : OthersKept rowId rows rows'' :=
  fun name key owner ho => (h' name key owner ho).trans (h name key owner ho)

theorem mem_valuesAt_cons_other {m : Multimap Bytes RowId} {key key' : Bytes} {owner : RowId} (ho : owner ≠ rowId) :
    owner ∈ valuesAt ((key,rowId) ::ₘ m) key' ↔ owner ∈ valuesAt m key' := by
  rw [mem_valuesAt,mem_valuesAt,Multiset.mem_cons]
  exact or_iff_right fun heq => ho (congrArg Prod.snd heq)

theorem othersKept_insert (rows : Rows) (name : Name) (key : Bytes) :
    OthersKept rowId rows (Function.update rows name ((key,rowId) ::ₘ rows name)) := by
  intro name' key' owner ho
  by_cases hn : name' = name
  · rw [hn,update_self]
    exact mem_valuesAt_cons_other ho
  · rw [update_of_ne hn]

variable {schema : Schema} {tuple : Tuple} {firstError : Option MaintenanceError} {columnValues : Map Name Value}

theorem othersKept_claimed (rows : Rows) : OthersKept rowId rows (claimed indexes rowId schema tuple names rows) := by
  intro name key owner ho
  rw [claimed]
  by_cases hl : name ∈ names
  · rw [if_pos hl]
    cases rowKey indexes schema tuple name with
    | none => exact Iff.rfl
    | some key' => exact mem_valuesAt_cons_other ho
  · rw [if_neg hl]

variable {multiIndex : Bool} {cache : FragCache} {values : List Value} {entry : IndexEntry CountedTree}
  {keyOf : Name → Option Bytes}

theorem post_insertEach_stored {inserted : List Taken} :
    (insertEach indexes rowId schema tuple multiIndex .stored names cache inserted firstError).Post (Does kind) rows
      fun _ rows' => OthersKept rowId rows rows' := by
  induction names generalizing cache inserted firstError rows with
  | nil => exact .refl rowId rows
  | cons name names ih =>
    rw [insertEach]
    cases keyed indexes schema tuple name with
    | none => exact ih
    | some found =>
      dsimp only
      rw [Script.post_bind]
      refine post_insert (fun e _ => ?_) fun _ => ?_
      · dsimp only
        split
        · exact ih
        · exact ih
      · dsimp only
        rw [Script.post_bind]
        exact post_recordInserted (ih.mono fun _ _ h => (othersKept_insert rows name _).trans h)

theorem post_insertRowIndexes_kept (hn : names.Nodup) (rowState : RowState) :
    (insertRowIndexes indexes rowId names schema tuple rowState).Post (Does (kindOf (metas indexes))) rows
      fun _ rows' => OthersKept rowId rows rows' := by
  cases rowState with
  | stored => exact post_insertEach_stored
  | notStored =>
    refine (post_insertRowIndexes hn).mono fun result rows' hp => ?_
    cases result with
    | ok _ =>
      rw [show rows' = _ from hp]
      exact othersKept_claimed rows
    | error e =>
      rw [show rows' = rows from hp]
      exact .refl rowId rows

theorem post_onInsertEach :
    (onInsertEach indexes rowId columnValues names firstError).Post (Does kind) rows fun _ rows' => OthersKept rowId rows rows' := by
  induction names generalizing firstError rows with
  | nil => exact .refl rowId rows
  | cons name names ih =>
    rw [onInsertEach]
    cases keyedBy indexes columnValues name with
    | none => exact ih
    | some found =>
      dsimp only
      rw [Script.post_bind]
      refine post_insert (fun e _ => ih) fun _ => ?_
      dsimp only
      rw [Script.post_bind]
      exact post_recordInserted (ih.mono fun _ _ h => (othersKept_insert rows name _).trans h)

def withoutKey (kind : ArtIndexType) (rowId : RowId) (key : Bytes) (m : Multimap Bytes RowId) : Multimap Bytes RowId :=
  if kind.isUnique then m.filter fun entry => entry.1 ≠ key else m.erase (key,rowId)

theorem post_deleteKey (hk : kind name = entry.indexType) :
    (deleteKey rowId name entry values key firstError).Post (Does kind) rows fun _ rows' =>
      rows' = Function.update rows name (withoutKey (kind name) rowId key (rows name)) := by
  rw [deleteKey,withoutKey,hk]
  by_cases hu : entry.indexType.isUnique
  · rw [if_pos hu,if_pos hu,Script.post_bind]
    refine post_remove fun removed _ => ?_
    cases removed with
    | none => exact rfl
    | some owner =>
      dsimp only
      rw [if_pos isSome_some,Script.post_bind]
      exact post_recordDeleted rfl
  · rw [if_neg hu,if_neg hu,Script.post_bind]
    exact post_removeValue rfl

/-- The entries without those that a deletion by some keys takes. -/
def deleted (kind : Name → ArtIndexType) (rowId : RowId) (keyOf : Name → Option Bytes) (names : List Name) (rows : Rows) : Rows := fun name =>
  if name ∈ names then (keyOf name).elim (rows name) fun key => withoutKey (kind name) rowId key (rows name) else rows name

theorem deleted_cons_none (h : keyOf name = none) :
    deleted kind rowId keyOf (name::names) rows = deleted kind rowId keyOf names rows := by
  funext n
  rw [deleted,deleted]
  by_cases hn : n = name
  · rw [hn,h]
    simp
  · simp only [mem_cons,hn,false_or]

theorem deleted_cons_some (h : keyOf name = some key) (hnew : name ∉ names) : deleted kind rowId keyOf (name::names) rows =
      deleted kind rowId keyOf names (Function.update rows name (withoutKey (kind name) rowId key (rows name))) := by
  funext n
  rw [deleted,deleted]
  by_cases hn : n = name
  · rw [hn,if_pos mem_cons_self,if_neg hnew,h,update_self]
    rfl
  · rw [update_of_ne hn]
    simp only [mem_cons,hn,false_or]

/-- The key of a row in an index by the values of its columns, where it has one. -/
def valuesKey (indexes : Indexes) (columnValues : Map Name Value) (name : Name) : Option Bytes :=
  (keyedBy indexes columnValues name).map fun found => encodeKey found.2

theorem keyedBy_parts (h : keyedBy indexes columnValues name = some (entry,values)) :
    kindOf (metas indexes) name = entry.indexType ∧ valuesKey indexes columnValues name = some (encodeKey values) := by
  have hkey : valuesKey indexes columnValues name = some (encodeKey values) := by
    rw [valuesKey,h]
    rfl
  rw [keyedBy,bind_eq_bind,bind_eq_some_iff] at h
  obtain ⟨entry',he,h⟩ := h
  dsimp only at h
  split at h
  · cases h
    refine ⟨?_,hkey⟩
    rw [kindOf,metas,he]
    rfl
  · cases h

theorem post_onDeleteEach (hn : names.Nodup) :
    (onDeleteEach indexes rowId columnValues names firstError).Post (Does (kindOf (metas indexes))) rows fun _ rows' =>
      rows' = deleted (kindOf (metas indexes)) rowId (valuesKey indexes columnValues) names rows := by
  induction names generalizing firstError rows with
  | nil => exact (funext fun name => if_neg not_mem_nil).symm
  | cons name names ih =>
    obtain ⟨hnew,hn⟩ := nodup_cons.mp hn
    rw [onDeleteEach]
    cases hk : keyedBy indexes columnValues name with
    | none =>
      rw [deleted_cons_none (by rw [valuesKey,hk]; rfl)]
      exact ih hn
    | some found =>
      obtain ⟨entry,values⟩ := found
      obtain ⟨hkn,hkey⟩ := keyedBy_parts hk
      dsimp only
      rw [Script.post_bind,deleted_cons_some hkey hnew]
      refine (post_deleteKey hkn).mono fun firstError rows' hr => ?_
      rw [hr]
      exact ih hn

theorem post_onDeleteTupleEach (hn : names.Nodup) (hc : Coherent tuple cache) :
    (onDeleteTupleEach indexes rowId schema tuple multiIndex names cache firstError).Post (Does (kindOf (metas indexes))) rows fun _ rows' =>
      rows' = deleted (kindOf (metas indexes)) rowId (rowKey indexes schema tuple) names rows := by
  induction names generalizing cache firstError rows with
  | nil => exact (funext fun name => if_neg not_mem_nil).symm
  | cons name names ih =>
    obtain ⟨hnew,hn⟩ := nodup_cons.mp hn
    rw [onDeleteTupleEach]
    cases hk : keyed indexes schema tuple name with
    | none =>
      rw [deleted_cons_none (by rw [rowKey,hk]; rfl)]
      exact ih hn hc
    | some found =>
      obtain ⟨entry,resolved⟩ := found
      obtain ⟨hkn,hcl,hkey⟩ := keyed_parts hk
      dsimp only
      obtain ⟨he,hch⟩ := encoded_spec multiIndex hc hcl
      generalize (if multiIndex then encodeKeyCached cache resolved else (cache,encodeKey (resolved.map Prod.snd))) = encoded
        at he hch ⊢
      rw [he,Script.post_bind,deleted_cons_some hkey hnew]
      refine (post_deleteKey hkn).mono fun firstError rows' hr => ?_
      rw [hr]
      exact ih hn hch

end

def RowRequest.rowId : RowRequest → RowId
  | .onInsertTuple _ rowId _ _ => rowId
  | .reserveInsertTuple _ rowId _ _ => rowId
  | .onInsertTupleCollectIndexValues _ rowId _ _ _ => rowId
  | .onInsert _ rowId _ => rowId
  | .onDelete _ rowId _ => rowId
  | .onDeleteTuple _ rowId _ _ => rowId
  | .onUpdate _ rowId _ _ => rowId
  | .stageAndCommit _ rowId _ _ _ => rowId
  | .stageAndDrop _ rowId _ _ _ => rowId

def RowRequest.Replicated : RowRequest → Prop
  | .stageAndCommit _ _ _ _ _ => True
  | .stageAndDrop _ _ _ _ _ => True
  | _ => False

section
variable {manager : ArtIndexManager CountedTree} {table : Name} {rowId : RowId} {keyOf : Name → Option Bytes}

def OwnsKeys (manager : ArtIndexManager CountedTree) (table : Name) (rowId : RowId) (keyOf : Name → Option Bytes) : Prop :=
  ∀ name ∈ tableNames manager table, ∀ entry ∈ manager.indexes.lookup name, entry.indexType.isUnique →
    ∀ key ∈ keyOf name, ∀ owner ∈ rowIds manager name key, owner = rowId

instance : Decidable (OwnsKeys manager table rowId keyOf) := List.decidableBAll _ _

def RowRequest.Owns (manager : ArtIndexManager CountedTree) : RowRequest → Prop
  | .onDelete table rowId columnValues => OwnsKeys manager table rowId (valuesKey manager.indexes columnValues)
  | .onDeleteTuple table rowId schema tuple => OwnsKeys manager table rowId (rowKey manager.indexes schema tuple)
  | .onUpdate table rowId oldValues _ => OwnsKeys manager table rowId (valuesKey manager.indexes oldValues)
  | _ => True

variable {α : Type} {script : IndexScript α}

theorem Sound.respects_of_kept (h : Sound manager) (hs : SafeScript manager script)
    (hp : ∀ rows, script.Post (Does (kindOf (metas manager.indexes))) rows fun _ rows' => OthersKept rowId rows rows') :
    Respects manager (RowIndexes.afterScript manager script) rowId := by
  obtain ⟨rows,_,rows',-,hr,hr',hk⟩ := h.script hs _ fun rows _ => hp rows
  rw [hr.respects_iff hr']
  exact fun name _ _ _ key owner ho hm => (hk name key owner ho).mpr hm

theorem Sound.respects_iff_owns (h : Sound manager) (hs : SafeScript manager script)
    (hp : ∀ rows, script.Post (Does (kindOf (metas manager.indexes))) rows fun _ rows' =>
      OthersKept rowId (deleted (kindOf (metas manager.indexes)) rowId keyOf (tableNames manager table) rows) rows') :
    Respects manager (RowIndexes.afterScript manager script) rowId ↔ OwnsKeys manager table rowId keyOf := by
  obtain ⟨rows,_,rows',-,hr,hr',hk⟩ := h.script hs _ fun rows _ => hp rows
  rw [hr.respects_iff hr']
  constructor
  · intro hrs name hn entry he hu key hkey owner how
    by_contra ho
    rw [hr.rowIds,if_pos (by rw [metas,he]; rfl)] at how
    have hl := (hk name key owner ho).mp (hrs name entry he hu key owner ho how)
    -- the deletion has taken the whole key
    rw [deleted,if_pos hn,hkey,elim_some,withoutKey,kindOf_metas he,if_pos hu,mem_valuesAt] at hl
    exact (Multiset.mem_filter.mp hl).2 rfl
  · intro hon name entry he hu key owner ho hm
    rw [hk name key owner ho,deleted]
    by_cases hn : name ∈ tableNames manager table
    · rw [if_pos hn]
      cases hky : keyOf name with
      | none => exact hm
      | some key' =>
        rw [elim_some,withoutKey,kindOf_metas he,if_pos hu,mem_valuesAt]
        refine Multiset.mem_filter.mpr ⟨mem_valuesAt.mp hm,fun heq => ?_⟩
        obtain rfl : key = key' := heq
        have how : owner ∈ rowIds manager name key := by
          rw [hr.rowIds,if_pos (by rw [metas,he]; rfl)]
          exact hm
        exact ho (hon name hn entry he hu key hky owner how)
    · rw [if_neg hn]
      exact hm

theorem Sound.request_respects_iff (h : Sound manager) {request : RowRequest} (hs : SafeRequest manager request)
    (hl : ¬request.Replicated) : Respects manager (request.perform manager) request.rowId ↔ request.Owns manager := by
  cases request with
  | onInsertTuple table rowId schema tuple =>
    exact iff_of_true (h.respects_of_kept hs fun _ => post_insertRowIndexes_kept (h.distinct table) .stored) trivial
  | reserveInsertTuple table rowId schema tuple =>
    exact iff_of_true (h.respects_of_kept hs fun _ => post_insertRowIndexes_kept (h.distinct table) .notStored) trivial
  | onInsertTupleCollectIndexValues table rowId schema tuple rowState =>
    refine iff_of_true (h.respects_of_kept hs fun rows => ?_) trivial
    rw [RowRequest.script,Script.post_bind,RowIndexes.onInsertTupleCollectIndexValues,Script.post_bind]
    refine (post_insertRowIndexes_kept (h.distinct table) rowState).mono fun result rows' hk => ?_
    cases result with
    | ok _ | error e => exact hk
  | onInsert table rowId columnValues => exact iff_of_true (h.respects_of_kept hs fun _ => post_onInsertEach) trivial
  | onDelete table rowId columnValues =>
    refine h.respects_iff_owns hs fun rows => (post_onDeleteEach (h.distinct table)).mono fun _ rows' hr => ?_
    rw [hr]
    exact .refl rowId _
  | onDeleteTuple table rowId schema tuple =>
    refine h.respects_iff_owns hs fun rows =>
      (post_onDeleteTupleEach (h.distinct table) (coherent_nil tuple)).mono fun _ rows' hr => ?_
    rw [hr]
    exact .refl rowId _
  | onUpdate table rowId oldValues newValues =>
    refine h.respects_iff_owns hs fun rows => ?_
    rw [RowRequest.script,RowIndexes.onUpdate,Script.post_bind]
    refine (post_onDeleteEach (h.distinct table)).mono fun _ rows' hr => ?_
    rw [hr,Script.post_bind]
    exact post_onInsertEach
  | stageAndCommit table rowId schema old new | stageAndDrop table rowId schema old new => exact absurd trivial hl

end

/-- After any run of requests that the trees carry out, the next one leaves the enforced keys of other rows to them just where the keys
that it deletes are its own. -/
theorem maintenance_respects_owners_iff {start : ArtIndexManager CountedTree} (hstart : Sound start) {requests : List RowRequest}
    (hsafe : Guarded RowRequest.perform SafeRequest start requests) {request : RowRequest} (hlocal : ¬request.Replicated) :
    let manager := run RowRequest.perform start requests
    SafeRequest manager request → (Respects manager (request.perform manager) request.rowId ↔ request.Owns manager) := by
  intro manager hrequest
  exact (hstart.run hsafe).request_respects_iff hrequest hlocal

/-- A row that owns its keys is deleted beside another. -/
theorem maintenance_respects_owners_iff_twoRows :
    let start := withNewTrees (run (@step Unit _) .new twoUnique)
    let manager := run RowRequest.perform start
      [.onInsertTuple (ascii ['t']) 1 twoColumns [.string ['x'],.int4 1],.onInsertTuple (ascii ['t']) 2 twoColumns [.string ['y'],.int4 2]]
    let request := RowRequest.onDeleteTuple (ascii ['t']) 2 twoColumns [.string ['y'],.int4 2]
    Respects manager (request.perform manager) request.rowId ↔ request.Owns manager := by
  intro start manager request
  have hstart : Sound start :=
    sound_withNewTrees (registry_consistent twoUnique (by decide +kernel) (by decide +kernel)).consistent
  exact @maintenance_respects_owners_iff start hstart
    [.onInsertTuple (ascii ['t']) 1 twoColumns [.string ['x'],.int4 1],.onInsertTuple (ascii ['t']) 2 twoColumns [.string ['y'],.int4 2]]
    (by decide +kernel) request (fun h => h) (by decide +kernel)

/-- A row whose key was refused but that is stored all the same takes the key from its owner when it is deleted or updated. -/
theorem refused_row_strips_owner :
    let start := withNewTrees (run (@step Unit _) .new twoUnique)
    let manager := run RowRequest.perform start
      [.onInsertTuple (ascii ['t']) 1 twoColumns [.string ['x'],.int4 1],.onInsertTuple (ascii ['t']) 2 twoColumns [.string ['y'],.int4 1]]
    let name := uniqueIndexName (ascii ['t']) [ascii ['b']]
    let columns := fun (text : Char) (number : BitVec 32) =>
      ((∅ : Map Name Value).insert (ascii ['a']) (.string [text])).insert (ascii ['b']) (.int4 number)
    let delete := RowRequest.onDeleteTuple (ascii ['t']) 2 twoColumns [.string ['y'],.int4 1]
    let update := RowRequest.onUpdate (ascii ['t']) 2 (columns 'y' 1) (columns 'y' 2)
    rowIds manager name (encodeKey [.int4 1]) = {1} ∧ rowIds (delete.perform manager) name (encodeKey [.int4 1]) = 0 ∧
      rowIds (update.perform manager) name (encodeKey [.int4 1]) = 0 ∧ ¬Respects manager (delete.perform manager) 2 ∧
      ¬Respects manager (update.perform manager) 2 := by
  intro start manager name columns delete update
  have howner : rowIds manager name (encodeKey [.int4 1]) = {1} := by decide +kernel
  have hdeleted : rowIds (delete.perform manager) name (encodeKey [.int4 1]) = 0 := by decide +kernel
  have hupdated : rowIds (update.perform manager) name (encodeKey [.int4 1]) = 0 := by decide +kernel
  have hunique : ∃ entry, manager.indexes.lookup name = some entry ∧ entry.indexType.isUnique := by
    have hfound : (manager.indexes.lookup name).any (fun entry => decide entry.indexType.isUnique) = true := by decide +kernel
    obtain ⟨entry,hentry,hany⟩ := (Option.any_eq_true _ _).mp hfound
    exact ⟨entry,hentry,of_decide_eq_true hany⟩
  obtain ⟨entry,hentry,hunique⟩ := hunique
  -- the first row is the owner of the number
  have hstrips : ∀ manager', rowIds manager' name (encodeKey [.int4 1]) = 0 → ¬Respects manager manager' 2 := by
    intro manager' hnone hrespects
    have hkept := hrespects name entry hentry hunique (encodeKey [.int4 1]) 1 (by decide) (by rw [howner]; exact Multiset.mem_singleton_self 1)
    rw [hnone] at hkept
    exact Multiset.notMem_zero 1 hkept
  exact ⟨howner,hdeleted,hupdated,hstrips _ hdeleted,hstrips _ hupdated⟩

end HeliosNano.Storage.RowIndexes
