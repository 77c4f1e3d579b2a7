import HeliosNano.Storage.RowRules

namespace HeliosNano.Storage.RowIndexes
open Foundation Foundation.Multimap Art IndexRegistry KeyEncoding List Function Option

section
variable {tuple : Tuple} {cache : FragCache} {cols : List (Nat × Value)}

def Coherent (tuple : Tuple) (cache : FragCache) : Prop :=
  ∀ frag ∈ cache, ∀ v, tuple[frag.1]? = some v → frag.2.2 = encodeValue frag.2.1 v

theorem coherent_nil (tuple : Tuple) : Coherent tuple [] := fun _ hno => absurd hno not_mem_nil

variable (h : Coherent tuple cache)
include h

theorem Coherent.encodeFragment {i : Nat} {v : Value} (hv : tuple[i]? = some v) (escape : Bool) :
    (encodeFragment cache i v escape).2 = encodeValue escape v ∧ Coherent tuple (encodeFragment cache i v escape).1 := by
  rw [RowIndexes.encodeFragment]
  cases hf : cache.find? fun frag => frag.1 = i ∧ frag.2.1 = escape with
  | some frag =>
    have hfn : frag.1 = i ∧ frag.2.1 = escape := by simpa using find?_some hf
    obtain ⟨hi,he⟩ := hfn
    refine ⟨?_,h⟩
    rw [← he]
    exact h frag (mem_of_find?_eq_some hf) v (by rw [hi]; exact hv)
  | none =>
    refine ⟨rfl,fun frag hfr v' hv' => ?_⟩
    obtain hold | hnew := mem_append.mp hfr
    · exact h frag hold v' hv'
    · rw [mem_singleton.mp hnew] at hv' ⊢
      cases hv.symm.trans hv'
      rfl

theorem Coherent.encodeRestCached (hc : ∀ col ∈ cols, tuple[col.1]? = some col.2) :
    (encodeRestCached true cache cols).2 = encodeRest (cols.map Prod.snd) ∧ Coherent tuple (encodeRestCached true cache cols).1 := by
  induction cols generalizing cache with
  | nil => exact ⟨by rw [RowIndexes.encodeRestCached]; simp [encodeRest],h⟩
  | cons col cols ih =>
    obtain ⟨hcl,hrest⟩ := forall_mem_cons.mp hc
    obtain ⟨hf,hcc⟩ := h.encodeFragment hcl true
    obtain ⟨hkey,hc'⟩ := ih hcc hrest
    refine ⟨?_,hc'⟩
    rw [RowIndexes.encodeRestCached,map_cons,encodeRest]
    dsimp only
    rw [hf,hkey]
    rfl

theorem Coherent.encodeKeyCached (hcs : ∀ col ∈ cols, tuple[col.1]? = some col.2) :
    (encodeKeyCached cache cols).2 = encodeKey (cols.map Prod.snd) ∧ Coherent tuple (encodeKeyCached cache cols).1 := by
  cases cols with
  | nil => exact ⟨by rw [RowIndexes.encodeKeyCached]; simp [encodeKey],h⟩
  | cons col cols =>
    obtain ⟨hcl,hrest⟩ := forall_mem_cons.mp hcs
    cases cols with
    | nil =>
      obtain ⟨hf,hc⟩ := h.encodeFragment hcl false
      refine ⟨?_,hc⟩
      rw [map_singleton,encodeKey,← hf]
      exact append_nil _
    | cons col' cols =>
      obtain ⟨hf,hc⟩ := h.encodeFragment hcl true
      obtain ⟨hkey,hc'⟩ := hc.encodeRestCached hrest
      refine ⟨?_,hc'⟩
      rw [map_cons,map_cons,encodeKey,← hf]
      rw [map_cons,encodeRest] at hkey
      exact congrArg _ hkey

omit h

theorem resolve_columns {columns : List Name} {schema : Schema} (h : resolve columns schema tuple = some cols) :
    ∀ col ∈ cols, tuple[col.1]? = some col.2 := by
  rw [resolve] at h
  induction columns generalizing cols with
  | nil =>
    cases h
    exact fun _ hno => absurd hno not_mem_nil
  | cons column columns ih =>
    rw [mapM_cons,bind_eq_bind,bind_eq_some_iff] at h
    obtain ⟨col,hc,h⟩ := h
    rw [bind_eq_bind,bind_eq_some_iff] at h
    obtain ⟨rest,hrest,h⟩ := h
    cases h
    refine forall_mem_cons.mpr ⟨?_,ih hrest⟩
    simp only [bind_eq_bind,bind_eq_some_iff] at hc
    obtain ⟨sidx,-,v,hv,hc⟩ := hc
    cases hc
    exact hv

end

section
variable {indexes : Indexes} {rowId : RowId} {schema : Schema} {tuple : Tuple} {rows start : Rows} {name : Name} {names : List Name}

def rowKey (indexes : Indexes) (schema : Schema) (tuple : Tuple) (name : Name) : Option Bytes :=
  (keyed indexes schema tuple name).map fun found => encodeKey (found.2.map Prod.snd)

def claimed (indexes : Indexes) (rowId : RowId) (schema : Schema) (tuple : Tuple) (names : List Name) (rows : Rows) : Rows := fun name =>
  if name ∈ names then (rowKey indexes schema tuple name).elim (rows name) fun key => (key,rowId) ::ₘ rows name else rows name

variable {resolved : List (Nat × Value)} {kind : Name → ArtIndexType} {inserted : List Taken} {cache : FragCache}

theorem keyed_parts {entry : IndexEntry CountedTree} (h : keyed indexes schema tuple name = some (entry,resolved)) :
    kindOf (metas indexes) name = entry.indexType ∧ (∀ col ∈ resolved, tuple[col.1]? = some col.2) ∧
      rowKey indexes schema tuple name = some (encodeKey (resolved.map Prod.snd)) := by
  have hkey : rowKey indexes schema tuple name = some (encodeKey (resolved.map Prod.snd)) := by
    rw [rowKey,h]
    rfl
  rw [keyed] at h
  simp only [bind_eq_bind,bind_eq_some_iff] at h
  obtain ⟨entry',he,resolved',hr,h⟩ := h
  split at h
  · cases h
  cases h
  refine ⟨?_,resolve_columns hr,hkey⟩
  rw [kindOf,metas,he]
  rfl

theorem claimed_cons_none (h : keyed indexes schema tuple name = none) :
    claimed indexes rowId schema tuple (name::names) rows = claimed indexes rowId schema tuple names rows := by
  have hkey : rowKey indexes schema tuple name = none := by
    rw [rowKey,h]
    rfl
  funext n
  rw [claimed,claimed]
  by_cases hn : n = name
  · rw [hn,hkey]
    simp
  · simp only [mem_cons,hn,false_or]

theorem claimed_cons_some {key : Bytes} (h : rowKey indexes schema tuple name = some key) (hnew : name ∉ names) :
    claimed indexes rowId schema tuple (name::names) rows =
      claimed indexes rowId schema tuple names (Function.update rows name ((key,rowId) ::ₘ rows name)) := by
  funext n
  rw [claimed,claimed]
  by_cases hn : n = name
  · rw [hn,if_pos mem_cons_self,if_neg hnew,h,update_self]
    rfl
  · rw [update_of_ne hn]
    simp only [mem_cons,hn,false_or]

/-- An entry that a row has taken: it was not there in an index that enforces its keys. -/
def TakenFrom (kind : Name → ArtIndexType) (rowId : RowId) (taken : Taken) (before now : Rows) : Prop :=
  taken.indexType = kind taken.name ∧ (taken.indexType.isUnique → valuesAt (before taken.name) taken.key = 0) ∧
    now = Function.update before taken.name ((taken.key,rowId) ::ₘ before taken.name)

theorem post_undoTaken {taken : Taken} {now : Rows} (h : TakenFrom kind rowId taken rows now) :
    (undoTaken rowId taken).Post (Does kind) now fun _ rows' => rows' = rows := by
  obtain ⟨hk,hf,rfl⟩ := h
  rw [undoTaken]
  by_cases hu : taken.indexType.isUnique
  · rw [if_pos hu,Script.post_bind]
    refine post_remove fun removed hr => ?_
    have hb : Function.update (Function.update rows taken.name ((taken.key,rowId) ::ₘ rows taken.name)) taken.name
        ((Function.update rows taken.name ((taken.key,rowId) ::ₘ rows taken.name) taken.name).filter fun entry => entry.1 ≠ taken.key) =
        rows := by
      rw [update_self,update_idem,Multiset.filter_cons_of_neg _ (fun hno => hno rfl),
        filter_ne_eq_self (hf hu),update_eq_self]
    rw [hb]
    cases removed with
    | none => exact rfl
    | some owner => exact post_recordDeleted rfl
  · rw [if_neg hu,Script.post_bind]
    refine post_removeValue ?_
    rw [update_self,update_idem,Multiset.erase_cons_head,update_eq_self]
    exact rfl

theorem post_undoRowIndexEntries (h : Script.Logged (TakenFrom kind rowId) inserted start rows) :
    (undoRowIndexEntries rowId inserted).Post (Does kind) rows fun _ rows' => rows' = start := by
  induction inserted generalizing rows with
  | nil => exact h
  | cons taken older ih =>
    obtain ⟨before,hb,htk⟩ := h
    rw [undoRowIndexEntries,Script.post_bind]
    refine (post_undoTaken htk).mono fun _ rows' hr => ?_
    rw [hr]
    exact ih hb

theorem encoded_spec (multiIndex : Bool) (hc : Coherent tuple cache) (hcl : ∀ col ∈ resolved, tuple[col.1]? = some col.2) :
    (if multiIndex then encodeKeyCached cache resolved else (cache,encodeKey (resolved.map Prod.snd))).2 =
        encodeKey (resolved.map Prod.snd) ∧
      Coherent tuple (if multiIndex then encodeKeyCached cache resolved else (cache,encodeKey (resolved.map Prod.snd))).1 := by
  cases multiIndex with
  | true => exact hc.encodeKeyCached hcl
  | false => exact ⟨rfl,hc⟩

theorem post_insertEach {multiIndex : Bool} (hn : names.Nodup) (hc : Coherent tuple cache)
    (hl : Script.Logged (TakenFrom (kindOf (metas indexes)) rowId) inserted start rows ∨ names = [])
    (hm : multiIndex = true ∨ names.length ≤ 1) :
    (insertEach indexes rowId schema tuple multiIndex .notStored names cache inserted none).Post (Does (kindOf (metas indexes))) rows
      fun result rows' => match result with
        | .ok _ => rows' = claimed indexes rowId schema tuple names rows
        | .error _ => rows' = start := by
  induction names generalizing cache inserted rows with
  | nil =>
    rw [insertEach]
    change rows = claimed indexes rowId schema tuple [] rows
    funext n
    rw [claimed,if_neg not_mem_nil]
  | cons name names ih =>
    have hl := hl.resolve_right (cons_ne_nil _ _)
    obtain ⟨hnew,hn⟩ := nodup_cons.mp hn
    have hrest : multiIndex = true ∨ names = [] := hm.imp_right fun hln =>
      eq_nil_of_length_eq_zero (Nat.le_zero.mp (Nat.le_of_succ_le_succ hln))
    have hm' : multiIndex = true ∨ names.length ≤ 1 := hrest.imp_right fun hnil => by rw [hnil]; exact Nat.zero_le 1
    rw [insertEach]
    cases hky : keyed indexes schema tuple name with
    | none =>
      rw [claimed_cons_none hky]
      exact ih hn hc (.inl hl) hm'
    | some found =>
      obtain ⟨entry,resolved⟩ := found
      obtain ⟨hk,hcl,hkey⟩ := keyed_parts hky
      dsimp only
      obtain ⟨he,hch⟩ := encoded_spec multiIndex hc hcl
      generalize (if multiIndex then encodeKeyCached cache resolved else (cache,encodeKey (resolved.map Prod.snd))) = encoded
        at he hch ⊢
      rw [he,Script.post_bind]
      refine post_insert (fun e hr => ?_) fun hf => ?_
      · -- only an index that enforces its keys refuses one
        rw [hk] at hr
        have hu : entry.indexType.isUnique := hr.elim (fun hnl => .inl hnl.2) fun hd => hd.1
        dsimp only
        rw [if_pos hu,Script.post_bind]
        exact (post_undoRowIndexEntries hl).mono fun _ rows' hrw => hrw
      · dsimp only
        rw [Script.post_bind]
        refine post_recordInserted ?_
        rw [claimed_cons_some hkey hnew]
        refine ih hn hch ?_ hm'
        obtain rfl | hnil := hrest
        · rw [if_pos ⟨rfl,rfl⟩]
          refine .inl ⟨rows,hl,hk.symm,fun hu => ?_,rfl⟩
          rw [Refuses,hk] at hf
          exact not_not.mp fun hd => hf (.inr ⟨hu,hd⟩)
        · exact .inr hnil

theorem post_insertRowIndexes (hn : names.Nodup) :
    (insertRowIndexes indexes rowId names schema tuple .notStored).Post (Does (kindOf (metas indexes))) rows
      fun result rows' => match result with
        | .ok _ => rows' = claimed indexes rowId schema tuple names rows
        | .error _ => rows' = rows := by
  refine post_insertEach hn (coherent_nil tuple) (.inl rfl) ?_
  rw [decide_eq_true_iff]
  omega

end

/-- A refused claim leaves all row ids as they were. Another adds the row under its key to each index of the table in which it has
one, and nothing else. -/
def AllOrNothing {α : Type} (manager : ArtIndexManager CountedTree) (table : Name) (rowId : RowId) (schema : Schema) (tuple : Tuple)
    (script : IndexScript (Except MaintenanceError α)) : Prop :=
  match (script.run callIndex manager.indexes).2 with
  | none => False
  | some (.error _) => ∀ name key, rowIds (afterScript manager script) name key = rowIds manager name key
  | some (.ok _) => ∀ name key, rowIds (afterScript manager script) name key = rowIds manager name key +
      if name ∈ tableNames manager table ∧ rowKey manager.indexes schema tuple name = some key then {rowId} else 0

section
variable {manager : ArtIndexManager CountedTree} {table : Name} {rowId : RowId} {schema : Schema} {tuple : Tuple}

theorem rowKey_eq_none {indexes : Indexes} {name : Name} (h : ¬(metas indexes name).isSome = true) :
    rowKey indexes schema tuple name = none := by
  rw [metas,isSome_map,Bool.not_eq_true,isSome_eq_false_iff,isNone_iff_eq_none] at h
  rw [rowKey,keyed,h]
  rfl

theorem Sound.allOrNothing (h : Sound manager) {α : Type} {script : IndexScript (Except MaintenanceError α)} (hs : SafeScript manager script)
    (hp : ∀ rows, script.Post (Does (kindOf (metas manager.indexes))) rows fun result rows' => match result with
      | .ok _ => rows' = claimed manager.indexes rowId schema tuple (tableNames manager table) rows | .error _ => rows' = rows) :
    AllOrNothing manager table rowId schema tuple script := by
  obtain ⟨rows,result,rows',hrs,hr,hr',hp⟩ := h.script hs _ fun rows _ => hp rows
  rw [AllOrNothing,hrs]
  cases result with
  | error e =>
    intro name key
    rw [hr'.rowIds,hr.rowIds,hp]
  | ok a =>
    intro name key
    rw [hr'.rowIds,hr.rowIds,hp]
    by_cases hn : (metas manager.indexes name).isSome = true
    · rw [if_pos hn,if_pos hn,claimed]
      by_cases hl : name ∈ tableNames manager table
      · rw [if_pos hl]
        cases hkey : rowKey manager.indexes schema tuple name with
        | none => simp
        | some key' =>
          rw [elim_some,valuesAt_cons,add_comm]
          simp only [hl,true_and,some.injEq,eq_comm]
      · rw [if_neg hl,if_neg fun hno => hl hno.1,add_zero]
    · rw [if_neg hn,if_neg hn,if_neg,add_zero]
      rintro ⟨-,hkey⟩
      rw [rowKey_eq_none hn] at hkey
      cases hkey

end

/-- After any run of requests that the trees carry out, a claim that they carry out as well is all or nothing. -/
theorem reservation_all_or_nothing {start : ArtIndexManager CountedTree} (hstart : Sound start) {requests : List RowRequest}
    (hsafe : Guarded RowRequest.perform SafeRequest start requests) (table : Name) (rowId : RowId) (schema : Schema) (tuple : Tuple) :
    let manager := run RowRequest.perform start requests
    (SafeScript manager (reserveInsertTuple manager table rowId schema tuple) →
      AllOrNothing manager table rowId schema tuple (reserveInsertTuple manager table rowId schema tuple)) ∧
    (SafeScript manager (onInsertTupleCollectIndexValues manager table rowId schema tuple .notStored) →
      AllOrNothing manager table rowId schema tuple (onInsertTupleCollectIndexValues manager table rowId schema tuple .notStored)) := by
  intro manager
  have hsound : Sound manager := hstart.run hsafe
  constructor
  · refine fun h => hsound.allOrNothing h fun rows => (post_insertRowIndexes (hsound.distinct table)).mono fun result rows' hpost => ?_
    cases result with
    | ok _ | error e => exact hpost
  · refine fun h => hsound.allOrNothing h fun rows => ?_
    rw [onInsertTupleCollectIndexValues,Script.post_bind]
    refine (post_insertRowIndexes (hsound.distinct table)).mono fun result rows' hpost => ?_
    cases result with
    | ok _ | error e => exact hpost

/-- A table with two unique columns. -/
def twoUnique : List Step :=
  [.createUniqueIndex (ascii ['t']) [ascii ['a']] none,.createUniqueIndex (ascii ['t']) [ascii ['b']] none]

def twoColumns : Schema := [ascii ['a'],ascii ['b']]

/-- The second row has the number of the first. -/
theorem reservation_all_or_nothing_refused :
    let start := withNewTrees (run (@step Unit _) .new twoUnique)
    let first := RowRequest.reserveInsertTuple (ascii ['t']) 1 twoColumns [.string ['x'],.int4 1]
    let manager := run RowRequest.perform start [first]
    (((reserveInsertTuple manager (ascii ['t']) 2 twoColumns [.string ['y'],.int4 1]).run callIndex manager.indexes).2.any
        fun result => (match result with | .ok _ => false | .error _ => true)) = true ∧
      AllOrNothing manager (ascii ['t']) 2 twoColumns [.string ['y'],.int4 1]
        (reserveInsertTuple manager (ascii ['t']) 2 twoColumns [.string ['y'],.int4 1]) := by
  intro start first manager
  have hstart : Sound start :=
    sound_withNewTrees (registry_consistent twoUnique (by decide +kernel) (by decide +kernel)).consistent
  refine ⟨by decide +kernel,?_⟩
  exact (@reservation_all_or_nothing start hstart [first] (by decide +kernel) (ascii ['t']) 2 twoColumns
    [.string ['y'],.int4 1]).1 (by decide +kernel)

/-- Below twelve shared characters no leaf is left for the claim of the second row to be taken back from. -/
theorem refused_claim_hides_first_row :
    let start := withNewTrees (run (@step Unit _) .new twoUnique)
    let long := List.replicate 12 'a'
    let first := RowRequest.reserveInsertTuple (ascii ['t']) 1 twoColumns [.string long,.int4 1]
    let manager := run RowRequest.perform start [first]
    let script := reserveInsertTuple manager (ascii ['t']) 2 twoColumns [.string (long ++ ['b']),.int4 1]
    let name := uniqueIndexName (ascii ['t']) [ascii ['a']]
    rowIds manager name (utf8Bytes long) = {1} ∧ rowIds (afterScript manager script) name (utf8Bytes long) = 0 ∧
      ¬AllOrNothing manager (ascii ['t']) 2 twoColumns [.string (long ++ ['b']),.int4 1] script := by
  intro start long first manager script name
  have hbefore : rowIds manager name (utf8Bytes long) = {1} := by decide +kernel
  have hafter : rowIds (afterScript manager script) name (utf8Bytes long) = 0 := by decide +kernel
  refine ⟨hbefore,hafter,fun hclaim => ?_⟩
  have hrefused : ((script.run callIndex manager.indexes).2.any fun result => (match result with | .ok _ => false | .error _ => true)) = true := by
    decide +kernel
  rw [AllOrNothing] at hclaim
  cases hresult : (script.run callIndex manager.indexes).2 with
  | none =>
    rw [hresult] at hclaim
    exact hclaim
  | some result =>
    rw [hresult] at hclaim hrefused
    cases result with
    | ok _ => cases hrefused
    | error e =>
      have hsame := hclaim name (utf8Bytes long)
      rw [hbefore,hafter] at hsame
      exact absurd hsame (by decide)

end HeliosNano.Storage.RowIndexes
