import HeliosNano.Storage.RowReservation

namespace HeliosNano.Storage.RowIndexes
open Foundation Foundation.Multimap Art IndexRegistry KeyEncoding List Function Option Script Multiset

section
variable {kind : Name → ArtIndexType} {rowId : RowId} {rows start : Rows} {name : Name} {key : Bytes}

/-- A change of a membership that can be undone: it is the only one of the row under the key, and the only one of a unique key. -/
inductive Changed (kind : Name → ArtIndexType) (rowId : RowId) : ReplicatedIndexUndo → Rows → Rows → Prop
  | out {rows : Rows} {name : Name} {key : Bytes} {dense : Option (Int × Nat)} (admissible : Admissible (kind name) (rows name))
    (held : (key,rowId) ∈ rows name) (once : rowId ∉ (valuesAt (rows name) key).erase rowId) :
    Changed kind rowId ⟨name,key,rowId,decide (kind name).isUnique,dense,true⟩ rows
      (Function.update rows name ((rows name).erase (key,rowId)))
  | put {rows : Rows} {name : Name} {key : Bytes} {dense : Option (Int × Nat)} (fresh : rowId ∉ valuesAt (rows name) key)
    (free : (kind name).isUnique → valuesAt (rows name) key = 0) :
    Changed kind rowId ⟨name,key,rowId,decide (kind name).isUnique,dense,false⟩ rows
      (Function.update rows name ((key,rowId) ::ₘ rows name))

theorem valuesAt_eq_singleton {m : Multimap Bytes RowId} {kind : ArtIndexType} (h : Admissible kind m) (hu : kind.isUnique)
    (hm : rowId ∈ valuesAt m key) : valuesAt m key = {rowId} := by
  have hc := h.1 hu key
  obtain ⟨rest,hrest⟩ := exists_cons_of_mem hm
  rw [hrest,card_cons] at hc
  rw [hrest,card_eq_zero.mp (Nat.le_zero.mp (Nat.le_of_succ_le_succ hc))]
  rfl

variable {change : ReplicatedIndexUndo}

theorem post_presence_absent (hun : change.unique = true → valuesAt (rows change.name) change.key = 0)
    (ha : change.rowId ∉ valuesAt (rows change.name) change.key) {post : Option Bool → Rows → Prop} (h : post (some false) rows) :
    (presence change).Post (Does kind) rows post := by
  rw [presence]
  by_cases hu : change.unique = true
  · rw [if_pos hu,Script.post_bind]
    refine post_get fun owner hs _ => ?_
    rw [hun hu] at hs
    cases owner with
    | none => exact h
    | some owner => exact absurd rfl (hs.mp rfl)
  · rw [if_neg hu,Script.post_bind]
    refine post_getAll fun rowIds hr => ?_
    have hn : change.rowId ∉ rowIds := by
      rw [← mem_coe,hr]
      exact ha
    rw [decide_eq_false hn]
    exact h

theorem post_undoChange {now : Rows} (h : Changed kind rowId change rows now) :
    (undoChange change).Post (Does kind) now fun error rows' => error = none ∧ rows' = rows := by
  cases h with
  | @out _ name key dense ha held once =>
    have hb : Function.update (Function.update rows name ((rows name).erase (key,rowId))) name ((key,rowId) ::ₘ (rows name).erase (key,rowId)) =
        rows := by
      rw [update_idem,Multiset.cons_erase held,update_eq_self]
    have hv : valuesAt ((rows name).erase (key,rowId)) key = (valuesAt (rows name) key).erase rowId := by
      rw [valuesAt_erase,if_pos rfl]
    have hf : (kind name).isUnique → valuesAt ((rows name).erase (key,rowId)) key = 0 := by
      intro hun
      rw [hv,valuesAt_eq_singleton ha hun (mem_valuesAt.mpr held)]
      exact Multiset.erase_singleton rowId
    rw [undoChange,if_pos rfl,Script.post_bind]
    refine post_presence_absent (fun hu => ?_) ?_ ?_
    · rw [update_self]
      exact hf (of_decide_eq_true hu)
    · rw [update_self,hv]
      exact once
    · rw [Script.post_bind]
      refine post_insert (fun e hr => ?_) fun _ => ?_
      · rw [update_self] at hr
        obtain ⟨rfl,hpk⟩ | ⟨hun,hd⟩ := hr
        · have he := ha.2 hpk
          have hm := mem_valuesAt.mpr held
          rw [he] at hm
          exact absurd hm (Multiset.notMem_zero _)
        · exact absurd (hf hun) hd
      · rw [update_self,hb,Script.post_bind]
        exact post_recordInserted ⟨rfl,rfl⟩
  | @put _ name key dense fresh free =>
    rw [undoChange,if_neg Bool.false_ne_true]
    by_cases hun : (kind name).isUnique
    · have hv : valuesAt ((key,rowId) ::ₘ rows name) key = {rowId} := by
        rw [valuesAt_cons,if_pos rfl,free hun,add_zero]
      rw [if_pos (decide_eq_true hun),Script.post_bind]
      refine post_get fun owner hs hm => ?_
      rw [update_self,hv] at hs hm
      obtain ⟨owner,rfl⟩ := isSome_iff_exists.mp (hs.mpr (Multiset.singleton_ne_zero rowId))
      rw [Multiset.mem_singleton.mp (hm owner rfl),if_pos rfl,Script.post_bind]
      refine post_remove fun removed _ => ?_
      have hb : Function.update (Function.update rows name ((key,rowId) ::ₘ rows name)) name
          ((Function.update rows name ((key,rowId) ::ₘ rows name) name).filter fun entry => entry.1 ≠ key) = rows := by
        rw [update_self,update_idem,Multiset.filter_cons_of_neg _ (fun hno => hno rfl),filter_ne_eq_self (free hun),
          update_eq_self]
      rw [hb]
      cases removed with
      | none => exact ⟨rfl,rfl⟩
      | some owner =>
        dsimp only
        rw [if_pos isSome_some,Script.post_bind]
        exact post_recordDeleted ⟨rfl,rfl⟩
    · rw [if_neg (by simpa using hun),Script.post_bind]
      refine post_removeValue ?_
      rw [update_self,update_idem,Multiset.erase_cons_head,update_eq_self]
      exact ⟨rfl,rfl⟩

theorem post_rollback {undo : List ReplicatedIndexUndo} (h : Logged (Changed kind rowId) undo start rows) :
    (rollback undo none).Post (Does kind) rows fun result rows' => result = .ok () ∧ rows' = start := by
  induction undo generalizing rows with
  | nil => exact ⟨rfl,h⟩
  | cons change older ih =>
    obtain ⟨before,hb,hc⟩ := h
    rw [rollback,Script.post_bind]
    refine (post_undoChange hc).mono fun error rows' hr => ?_
    rw [hr.1,hr.2]
    exact ih hb

theorem post_refusedKey {keys : List ReplayKey} (had : Admissible (kind name) (rows name)) :
    (refusedKey rowId name (decide (kind name).isUnique) keys).Post (Does kind) rows fun refused rows' => rows' = rows ∧
      (refused = false ↔ ((kind name).isUnique → ∀ key ∈ keys, ∀ owner ∈ valuesAt (rows name) key.1, owner = rowId)) := by
  by_cases hun : (kind name).isUnique
  · rw [decide_eq_true hun]
    induction keys with
    | nil => exact ⟨rfl,iff_of_true rfl fun _ key hno => absurd hno not_mem_nil⟩
    | cons key keys ih =>
      rw [refusedKey,if_pos rfl,Script.post_bind]
      refine post_get fun owner hs hm => ?_
      have hf : (owner.any fun owner => decide (owner ≠ rowId)) = false ↔ ∀ owner ∈ valuesAt (rows name) key.1, owner = rowId := by
        cases owner with
        | none =>
          have hn : valuesAt (rows name) key.1 = 0 := by
            by_contra hne
            cases hs.mpr hne
          rw [hn]
          exact iff_of_true rfl fun owner hno => absurd hno (notMem_zero owner)
        | some owner =>
          rw [valuesAt_eq_singleton had hun (hm owner rfl)]
          simp
      cases hr : owner.any fun owner => decide (owner ≠ rowId) with
      | true =>
        rw [hr] at hf
        refine ⟨rfl,iff_of_false (by decide) fun ha => ?_⟩
        cases hf.mpr (ha hun key mem_cons_self)
      | false =>
        refine ih.mono fun refused rows' hrest => ⟨hrest.1,hrest.2.trans ?_⟩
        exact ⟨fun ha hu => forall_mem_cons.mpr ⟨hf.mp hr,ha hu⟩,fun ha hu => (forall_mem_cons.mp (ha hu)).2⟩
  · rw [decide_eq_false hun]
    induction keys with
    | nil => exact ⟨rfl,iff_of_true rfl fun hno => absurd hno hun⟩
    | cons key keys ih => exact ih.mono fun refused rows' hrest => ⟨hrest.1,iff_of_true (hrest.2.mpr fun hno => absurd hno hun) fun hno => absurd hno hun⟩

theorem logged_append {changes older : List ReplicatedIndexUndo} {middle now : Rows}
    (h : Logged (Changed kind rowId) changes middle now) (hold : Logged (Changed kind rowId) older start middle) :
    Logged (Changed kind rowId) (changes ++ older) start now := by
  induction changes generalizing now with
  | nil =>
    rw [show now = middle from h]
    exact hold
  | cons change changes ih =>
    obtain ⟨before,hb,hc⟩ := h
    exact ⟨before,ih hb,hc⟩

def withoutOld (rowId : RowId) (old new : Option ReplayKey) (m : Multimap Bytes RowId) : Multimap Bytes RowId :=
  old.elim m fun key => if some key.1 = new.map Prod.fst then m else m.erase (key.1,rowId)

variable (ha : Admissible (kind name) (rows name))
include ha

theorem post_withdraw (how : (kind name).isUnique → ∀ owner ∈ valuesAt (rows name) key, owner = rowId) :
    (withdraw rowId name (decide (kind name).isUnique) key).Post (Does kind) rows fun result rows' =>
      result = .ok (decide (rowId ∈ valuesAt (rows name) key)) ∧ rows' = Function.update rows name ((rows name).erase (key,rowId)) := by
  rw [withdraw]
  by_cases hu : (kind name).isUnique
  · rw [if_pos (decide_eq_true hu),Script.post_map]
    refine post_remove fun removed hs => ?_
    by_cases hm : rowId ∈ valuesAt (rows name) key
    · have hv := valuesAt_eq_singleton ha hu hm
      rw [hv] at hs
      obtain ⟨owner,rfl⟩ := isSome_iff_exists.mp (hs.mpr (singleton_ne_zero rowId))
      rw [filter_ne_eq_erase hv,decide_eq_true hm]
      exact ⟨rfl,rfl⟩
    · have hv : valuesAt (rows name) key = 0 := by
        rw [eq_zero_iff_forall_notMem]
        intro owner ho
        rw [how hu owner ho] at ho
        exact hm ho
      rw [hv] at hs
      have hn : removed = none := by
        rw [← not_isSome_iff_eq_none,hs]
        exact not_not.mpr rfl
      rw [filter_ne_eq_self hv,decide_eq_false hm,hn,erase_of_notMem fun hno => hm (mem_valuesAt.mpr hno)]
      exact ⟨rfl,rfl⟩
  · rw [if_neg (by simpa using hu)]
    exact post_removeValue ⟨rfl,rfl⟩

omit ha in
theorem withoutOld_le (old new : Option ReplayKey) (m : Multimap Bytes RowId) : withoutOld rowId old new m ≤ m := by
  cases old with
  | none => exact le_refl m
  | some old =>
    rw [withoutOld,elim_some]
    split
    · exact le_refl m
    · exact erase_le _ m

theorem post_takeOut {old new : Option ReplayKey}
    (how : (kind name).isUnique → ∀ key ∈ old, ∀ owner ∈ valuesAt (rows name) key.1, owner = rowId)
    (ho : ∀ key ∈ old, some key.1 ≠ new.map Prod.fst → rowId ∉ (valuesAt (rows name) key.1).erase rowId) :
    (takeOut rowId name (decide (kind name).isUnique) old new).Post (Does kind) rows fun result rows' =>
      rows' = Function.update rows name (withoutOld rowId old new (rows name)) ∧
        ∃ changes, result = .ok changes ∧ Logged (Changed kind rowId) changes rows rows' ∧
          ((∀ key ∈ old, some key.1 ≠ new.map Prod.fst → rowId ∉ valuesAt (rows name) key.1) → changes = []) := by
  cases old with
  | none => exact ⟨(update_eq_self name rows).symm,[],rfl,rfl,fun _ => rfl⟩
  | some old =>
    obtain ⟨key,dense⟩ := old
    rw [takeOut]
    by_cases hsame : some key = new.map Prod.fst
    · rw [if_pos hsame,withoutOld,elim_some,if_pos hsame,update_eq_self]
      exact ⟨rfl,[],rfl,rfl,fun _ => rfl⟩
    rw [if_neg hsame,withoutOld,elim_some,if_neg hsame]
    have ho := ho (key,dense) rfl hsame
    rw [Script.post_bind]
    refine (post_withdraw ha fun hu => how hu (key,dense) rfl).mono fun result rows' hr => ?_
    obtain ⟨rfl,rfl⟩ := hr
    by_cases hm : rowId ∈ valuesAt (rows name) key
    · rw [decide_eq_true hm]
      dsimp only
      rw [Script.post_bind]
      refine post_recordDeleted ⟨rfl,_,rfl,⟨rows,rfl,.out ha (mem_valuesAt.mp hm) ho⟩,fun hno => ?_⟩
      exact absurd hm (hno (key,dense) rfl hsame)
    · rw [decide_eq_false hm]
      refine ⟨rfl,[],rfl,?_,fun _ => rfl⟩
      rw [erase_of_notMem fun hno => hm (mem_valuesAt.mpr hno)]
      exact update_eq_self name rows

def withNew (rowId : RowId) (new : Option ReplayKey) (m : Multimap Bytes RowId) : Multimap Bytes RowId :=
  new.elim m fun key => if rowId ∈ valuesAt m key.1 then m else (key.1,rowId) ::ₘ m

theorem post_isPresent : (isPresent rowId name (decide (kind name).isUnique) key).Post (Does kind) rows fun present rows' =>
      present = decide (rowId ∈ valuesAt (rows name) key) ∧ rows' = rows := by
  rw [isPresent]
  by_cases hu : (kind name).isUnique
  · rw [if_pos (decide_eq_true hu),Script.post_map]
    refine post_get fun owner hs hm => ⟨decide_eq_decide.mpr ⟨fun ho => hm rowId ho,fun hh => ?_⟩,rfl⟩
    have hv := valuesAt_eq_singleton ha hu hh
    rw [hv] at hs hm
    obtain ⟨owner,rfl⟩ := isSome_iff_exists.mp (hs.mpr (Multiset.singleton_ne_zero rowId))
    rw [Multiset.mem_singleton.mp (hm owner rfl)]
  · rw [if_neg (by simpa using hu),Script.post_map]
    refine post_getAll fun rowIds hr => ⟨decide_eq_decide.mpr ?_,rfl⟩
    rw [← hr,Multiset.mem_coe]

theorem post_putIn {new : Option ReplayKey}
    (how : (kind name).isUnique → ∀ key ∈ new, ∀ owner ∈ valuesAt (rows name) key.1, owner = rowId) :
    (putIn rowId name (decide (kind name).isUnique) new).Post (Does kind) rows fun result rows' =>
      (∀ e, result = .error e → rows' = rows ∧ ∃ key ∈ new, rowId ∉ valuesAt (rows name) key.1) ∧
        ∀ changes, result = .ok changes → rows' = Function.update rows name (withNew rowId new (rows name)) ∧
          Logged (Changed kind rowId) changes rows rows' ∧ ((∀ key ∈ new, rowId ∈ valuesAt (rows name) key.1) → changes = []) := by
  cases new with
  | none => exact ⟨(by rintro _ ⟨⟩),fun changes hok => by cases hok; exact ⟨(update_eq_self name rows).symm,rfl,fun _ => rfl⟩⟩
  | some new =>
    obtain ⟨key,dense⟩ := new
    rw [putIn]
    rw [Script.post_bind]
    refine (post_isPresent ha).mono fun present rows' hp => ?_
    obtain ⟨rfl,rfl⟩ := hp
    rw [withNew,elim_some]
    by_cases hm : rowId ∈ valuesAt (rows' name) key
    · rw [if_pos (decide_eq_true hm),if_pos hm]
      refine ⟨(by rintro _ ⟨⟩),fun changes hok => ?_⟩
      cases hok
      exact ⟨(update_eq_self name rows').symm,rfl,fun _ => rfl⟩
    · rw [if_neg (by simpa using hm),if_neg hm,Script.post_bind]
      refine post_insert (fun e _ => ?_) fun _ => ?_
      · refine ⟨fun _ _ => ⟨rfl,(key,dense),rfl,hm⟩,(by rintro _ ⟨⟩)⟩
      · dsimp only
        rw [Script.post_bind]
        refine post_recordInserted ⟨(by rintro _ ⟨⟩),fun changes hok => ?_⟩
        cases hok
        refine ⟨rfl,⟨rows',rfl,.put hm fun hu => ?_⟩,fun hal => absurd (hal (key,dense) rfl) hm⟩
        rw [eq_zero_iff_forall_notMem]
        intro owner ho
        rw [how hu (key,dense) rfl owner ho] at ho
        exact hm ho

omit ha

/-- The row is where its keys say: under the new key, not under an old one, and no unique key of it belongs to another row. -/
structure SettledIn (rowId : RowId) (old new : Option ReplayKey) (kind : ArtIndexType) (m : Multimap Bytes RowId) : Prop where
  owned : kind.isUnique → ∀ key ∈ old.toList ++ new.toList, ∀ owner ∈ valuesAt m key.1, owner = rowId
  gone : ∀ key ∈ old, some key.1 ≠ new.map Prod.fst → rowId ∉ valuesAt m key.1
  there : ∀ key ∈ new, rowId ∈ valuesAt m key.1

theorem settledIn_withNew {old new : Option ReplayKey} {kind : ArtIndexType} {m : Multimap Bytes RowId}
    (how : kind.isUnique → ∀ key ∈ old.toList ++ new.toList, ∀ owner ∈ valuesAt m key.1, owner = rowId)
    (hon : ∀ key ∈ old, some key.1 ≠ new.map Prod.fst → rowId ∉ (valuesAt m key.1).erase rowId) :
    SettledIn rowId old new kind (withNew rowId new (withoutOld rowId old new m)) := by
  have hl : ∀ key, valuesAt (withoutOld rowId old new m) key ≤ valuesAt m key := valuesAt_le (withoutOld_le old new m)
  have ha : ∀ key owner, owner ∈ valuesAt (withNew rowId new (withoutOld rowId old new m)) key →
      owner ∈ valuesAt (withoutOld rowId old new m) key ∨ owner = rowId ∧ some key = new.map Prod.fst := by
    intro key owner ho
    cases new with
    | none => exact .inl ho
    | some new =>
      rw [withNew,elim_some] at ho
      split at ho
      · exact .inl ho
      rw [valuesAt_cons,Multiset.mem_add] at ho
      obtain hnew | hold := ho
      · split at hnew
        next hkey =>
          exact .inr ⟨Multiset.mem_singleton.mp hnew,congrArg some hkey⟩
        · exact absurd hnew (Multiset.notMem_zero _)
      · exact .inl hold
  constructor
  · intro hu key hkey owner ho
    obtain hold | ⟨hr,-⟩ := ha key.1 owner ho
    · exact how hu key hkey owner (Multiset.mem_of_le (hl key.1) hold)
    · exact hr
  · intro key hkey hne hm
    obtain hold | ⟨-,hsame⟩ := ha key.1 rowId hm
    · cases hkey
      rw [withoutOld,elim_some,if_neg hne,valuesAt_erase,if_pos rfl] at hold
      exact hon key rfl hne hold
    · exact hne hsame
  · intro key hkey
    cases hkey
    rw [withNew,elim_some]
    split
    next hm =>
      exact hm
    · rw [valuesAt_cons,if_pos rfl]
      exact Multiset.mem_add.mpr (.inl (Multiset.mem_singleton_self rowId))

section
variable {indexes : Indexes} {schema : Schema} {old new : Option Tuple} {names : List Name}

def Settles (indexes : Indexes) (rowId : RowId) (schema : Schema) (old new : Option Tuple) (name : Name) (m : Multimap Bytes RowId) : Prop :=
  ∃ entry oldKey newKey, indexes.lookup name = some entry ∧ replayKey entry schema old = .ok oldKey ∧
    replayKey entry schema new = .ok newKey ∧ SettledIn rowId oldKey newKey entry.indexType m

def goingKey (entry : IndexEntry CountedTree) (schema : Schema) (old new : Option Tuple) : Option Bytes :=
  match replayKey entry schema old, replayKey entry schema new with
  | .ok (some oldKey), .ok newKey => if some oldKey.1 = newKey.map Prod.fst then none else some oldKey.1
  | _, _ => none

variable {entry : IndexEntry CountedTree}

theorem goingKey_eq {oldKey newKey : Option ReplayKey} (hold : replayKey entry schema old = .ok oldKey)
    (hnew : replayKey entry schema new = .ok newKey) {key : ReplayKey} (hkey : key ∈ oldKey) (hne : some key.1 ≠ newKey.map Prod.fst) :
    goingKey entry schema old new = some key.1 := by
  cases hkey
  rw [goingKey,hold,hnew]
  exact if_neg hne

theorem kindOf_metas (h : indexes.lookup name = some entry) : kindOf (metas indexes) name = entry.indexType := by
  rw [kindOf,metas,h]
  rfl

variable {undo : List ReplicatedIndexUndo}

/-- What has been changed can be undone, whether the loop comes to its end or not. Where it does the row is settled in every index. -/
theorem post_stageEach (hnm : names.Nodup)
    (had : ∀ name ∈ names, ∀ entry, indexes.lookup name = some entry → Admissible entry.indexType (rows name))
    (hoc : ∀ name ∈ names, ∀ entry, indexes.lookup name = some entry → ∀ key ∈ goingKey entry schema old new,
      rowId ∉ (valuesAt (rows name) key).erase rowId)
    (hl : Logged (Changed (kindOf (metas indexes)) rowId) undo start rows) :
    (stageEach indexes rowId schema old new names undo).Post (Does (kindOf (metas indexes))) rows fun result rows' =>
      Logged (Changed (kindOf (metas indexes)) rowId) result.1 start rows' ∧ (∀ name, name ∉ names → rows' name = rows name) ∧
        (result.2 = none → ∀ name ∈ names, Settles indexes rowId schema old new name (rows' name)) := by
  induction names generalizing undo rows with
  | nil => exact ⟨hl,fun _ _ => rfl,fun _ name hno => absurd hno not_mem_nil⟩
  | cons name names ih =>
    obtain ⟨hnew,hnm⟩ := nodup_cons.mp hnm
    -- a loop that stops here leaves everything as it is
    have hs : ∀ (e : MaintenanceError), Logged (Changed (kindOf (metas indexes)) rowId) undo start rows ∧
        (∀ name', name' ∉ name::names → rows name' = rows name') ∧
        (some e = none → ∀ name' ∈ name::names, Settles indexes rowId schema old new name' (rows name')) :=
      fun e => ⟨hl,fun _ _ => rfl,nofun⟩
    rw [stageEach]
    cases hlk : indexes.lookup name with
    | none => exact hs _
    | some entry =>
      dsimp only
      cases hold : replayKey entry schema old with
      | error e => exact hs e
      | ok oldKey =>
        dsimp only
        cases hn : replayKey entry schema new with
        | error e => exact hs e
        | ok newKey =>
          have hk := kindOf_metas hlk
          have ha : Admissible (kindOf (metas indexes) name) (rows name) := by
            rw [hk]
            exact had name mem_cons_self entry hlk
          have hon : ∀ key ∈ oldKey, some key.1 ≠ newKey.map Prod.fst → rowId ∉ (valuesAt (rows name) key.1).erase rowId :=
            fun key hkey hne => hoc name mem_cons_self entry hlk key.1 (goingKey_eq hold hn hkey hne)
          dsimp only
          rw [← hk,Script.post_bind]
          refine (post_refusedKey ha).mono fun refused rows₁ hr => ?_
          obtain ⟨hr₁,ho⟩ := hr
          rw [hr₁]
          cases refused with
          | true => exact hs _
          | false =>
            have ho := ho.mp rfl
            rw [if_neg Bool.false_ne_true,Script.post_bind]
            refine (post_takeOut ha (fun hu key hkey => ho hu key ?_) hon).mono fun result rows₂ htk => ?_
            · exact mem_append_left _ (mem_toList.mpr hkey)
            obtain ⟨hr₂,out,hou,hl₂,-⟩ := htk
            rw [hou]
            dsimp only
            have ht₂ : rows₂ name = withoutOld rowId oldKey newKey (rows name) := by
              rw [hr₂,update_self]
            have he₂ : ∀ name', name' ≠ name → rows₂ name' = rows name' := by
              intro name' hne
              rw [hr₂,update_of_ne hne]
            rw [Script.post_bind]
            refine (post_putIn (ha.mono ?_) fun hu key hkey owner how => ?_).mono fun result rows₃ hp => ?_
            · rw [ht₂]
              exact withoutOld_le oldKey newKey _
            · rw [ht₂] at how
              exact ho hu key (mem_append_right _ (mem_toList.mpr hkey)) owner
                (mem_of_le (valuesAt_le (withoutOld_le oldKey newKey _) key.1) how)
            cases result with
            | error e =>
              rw [(hp.1 e rfl).1]
              refine ⟨logged_append hl₂ hl,fun name' hno => he₂ name' fun heq => hno (heq ▸ mem_cons_self),nofun⟩
            | ok put =>
              obtain ⟨hr₃,hl₃,-⟩ := hp.2 put rfl
              have he₃ : ∀ name', name' ≠ name → rows₃ name' = rows name' := by
                intro name' hne
                rw [hr₃,update_of_ne hne]
                exact he₂ name' hne
              have hrest : ∀ name' ∈ names, rows₃ name' = rows name' := fun name' hn' =>
                he₃ name' fun heq => hnew (heq ▸ hn')
              refine (ih hnm ?_ ?_ (logged_append hl₃ (logged_append hl₂ hl))).mono fun result rows' hps => ?_
              · intro name' hn' entry' he'
                rw [hrest name' hn']
                exact had name' (mem_cons_of_mem _ hn') entry' he'
              · intro name' hn' entry' he'
                rw [hrest name' hn']
                exact hoc name' (mem_cons_of_mem _ hn') entry' he'
              obtain ⟨hl',hfr,hst⟩ := hps
              refine ⟨hl',fun name' hno => ?_,fun hnn => forall_mem_cons.mpr ⟨?_,hst hnn⟩⟩
              · obtain ⟨hne,hr'⟩ := not_or.mp (mem_cons.not.mp hno)
                rw [hfr name' hr',he₃ name' hne]
              · rw [hfr name hnew,hr₃,update_self,ht₂]
                refine ⟨entry,oldKey,newKey,hlk,hold,hn,?_⟩
                rw [hk] at ho
                exact settledIn_withNew ho hon

theorem post_stageEach_settled
    (had : ∀ name ∈ names, ∀ entry, indexes.lookup name = some entry → Admissible entry.indexType (rows name))
    (hst : ∀ name ∈ names, Settles indexes rowId schema old new name (rows name)) :
    (stageEach indexes rowId schema old new names undo).Post (Does (kindOf (metas indexes))) rows fun result rows' =>
      result = (undo,none) ∧ rows' = rows := by
  induction names generalizing undo with
  | nil => exact ⟨rfl,rfl⟩
  | cons name names ih =>
    obtain ⟨⟨entry,oldKey,newKey,hlk,hold,hnw,hs⟩,hst⟩ := forall_mem_cons.mp hst
    obtain ⟨ha,had⟩ := forall_mem_cons.mp had
    have hk := kindOf_metas hlk
    have ha := ha entry hlk
    rw [← hk] at ha hs
    rw [stageEach,hlk]
    dsimp only
    rw [hold]
    dsimp only
    rw [hnw]
    dsimp only
    rw [← hk,Script.post_bind]
    refine (post_refusedKey ha).mono fun refused rows₁ hr => ?_
    rw [hr.1,hr.2.mpr hs.owned,if_neg Bool.false_ne_true,Script.post_bind]
    have hg : withoutOld rowId oldKey newKey (rows name) = rows name := by
      cases oldKey with
      | none => rfl
      | some oldKey =>
        rw [withoutOld,elim_some]
        split
        · rfl
        next hne =>
          exact erase_of_notMem fun hm => hs.gone oldKey rfl hne (mem_valuesAt.mpr hm)
    refine (post_takeOut ha (fun hu key hkey => hs.owned hu key ?_) fun key hkey hne => ?_).mono
      fun result rows₂ htk => ?_
    · exact mem_append_left _ (mem_toList.mpr hkey)
    · exact fun hm => hs.gone key hkey hne (mem_of_mem_erase hm)
    obtain ⟨hr₂,out,ho,-,hn⟩ := htk
    rw [hg,update_eq_self] at hr₂
    rw [ho,hr₂,hn hs.gone]
    dsimp only
    rw [Script.post_bind]
    refine (post_putIn ha fun hu key hkey => hs.owned hu key ?_).mono fun result rows₃ hp => ?_
    · exact mem_append_right _ (mem_toList.mpr hkey)
    cases result with
    | error e =>
      obtain ⟨-,key,hkey,hno⟩ := hp.1 e rfl
      exact absurd (hs.there key hkey) hno
    | ok put =>
      obtain ⟨hr₃,-,hn⟩ := hp.2 put rfl
      have hth : withNew rowId newKey (rows name) = rows name := by
        cases newKey with
        | none => rfl
        | some newKey => exact if_pos (hs.there newKey rfl)
      rw [hth,update_eq_self] at hr₃
      rw [hr₃,hn hs.there]
      exact ih had hst

end

theorem mem_of_logged {undo : List ReplicatedIndexUndo} {now : Rows} (h : Logged (Changed kind rowId) undo start now) {owner : RowId}
    (ho : owner ≠ rowId) (hm : owner ∈ valuesAt (start name) key) : owner ∈ valuesAt (now name) key := by
  induction undo generalizing now with
  | nil =>
    rw [show now = start from h]
    exact hm
  | cons change undo ih =>
    obtain ⟨before,hb,hc⟩ := h
    have hk := mem_valuesAt.mp (ih hb)
    rw [mem_valuesAt]
    cases hc with
    | @out _ changed key' =>
      by_cases hn : name = changed
      · subst hn
        rw [update_self]
        exact (Multiset.mem_erase_of_ne fun heq => ho (congrArg Prod.snd heq)).mpr hk
      · rw [update_of_ne hn]
        exact hk
    | @put _ changed key' =>
      by_cases hn : name = changed
      · subst hn
        rw [update_self]
        exact Multiset.mem_cons_of_mem hk
      · rw [update_of_ne hn]
        exact hk

end

section
variable {manager : ArtIndexManager CountedTree} {table : Name} {rowId : RowId} {schema : Schema} {old new : Option Tuple} {rows : Rows}

/-- The row is at most once under a key that is to go. -/
def HeldOnce (manager : ArtIndexManager CountedTree) (table : Name) (rowId : RowId) (schema : Schema) (old new : Option Tuple) : Prop :=
  ∀ name ∈ tableNames manager table, ∀ entry ∈ manager.indexes.lookup name, ∀ key ∈ goingKey entry schema old new,
    rowId ∉ (rowIds manager name key).erase rowId

instance : Decidable (HeldOnce manager table rowId schema old new) := List.decidableBAll _ _

def SettledRow (manager : ArtIndexManager CountedTree) (table : Name) (rowId : RowId) (schema : Schema) (old new : Option Tuple)
    (rows : Rows) : Prop :=
  ∀ name ∈ tableNames manager table, Settles manager.indexes rowId schema old new name (rows name)

variable (h : Tracks (metas manager.indexes) manager.indexes rows)
include h

theorem post_stageReplicatedRow (hnm : (tableNames manager table).Nodup) (ho : HeldOnce manager table rowId schema old new) :
    (stageReplicatedRow manager table rowId schema old new).Post (Does (kindOf (metas manager.indexes))) rows fun result rows' =>
      (∀ e, result = .error e → rows' = rows) ∧
        ∀ undo, result = .ok undo → Logged (Changed (kindOf (metas manager.indexes)) rowId) undo rows rows' ∧
          SettledRow manager table rowId schema old new rows' := by
  have hnt : Logged (Changed (kindOf (metas manager.indexes)) rowId) [] rows rows := rfl
  rw [stageReplicatedRow,Script.post_bind]
  refine (post_stageEach hnm (fun name _ entry he => (h.trees name entry he).admissible) ?_ hnt).mono
    fun staged rows₁ hs => ?_
  · intro name hn entry he key hkey
    have hh := ho name hn entry he key hkey
    rwa [h.rowIds,if_pos (by rw [metas,he]; rfl)] at hh
  obtain ⟨undo,error⟩ := staged
  obtain ⟨hl,-,hst⟩ := hs
  cases error with
  | none =>
    refine ⟨(by rintro _ ⟨⟩),fun undo' hok => ?_⟩
    cases hok
    exact ⟨hl,hst rfl⟩
  | some error =>
    dsimp only
    rw [Script.post_bind]
    refine (post_rollback hl).mono fun result rows' hb => ?_
    rw [hb.1,hb.2]
    exact ⟨fun _ _ => rfl,(by rintro _ ⟨⟩)⟩

theorem post_stageAndDrop (hn : (tableNames manager table).Nodup) (ho : HeldOnce manager table rowId schema old new) :
    (stageAndDrop manager table rowId schema old new).Post (Does (kindOf (metas manager.indexes))) rows fun _ rows' => rows' = rows := by
  rw [stageAndDrop,Script.post_bind]
  refine (post_stageReplicatedRow h hn ho).mono fun result rows₁ hs => ?_
  cases result with
  | error e => exact hs.1 e rfl
  | ok undo =>
    dsimp only
    rw [Script.post_bind]
    exact (post_rollback (hs.2 undo rfl).1).mono fun _ rows' hb => hb.2

theorem post_stageAndCommit (hn : (tableNames manager table).Nodup) (ho : HeldOnce manager table rowId schema old new) :
    (stageAndCommit manager table rowId schema old new).Post (Does (kindOf (metas manager.indexes))) rows fun result rows' =>
      (∀ e, result = .error e → rows' = rows) ∧ (∀ done, result = .ok done → SettledRow manager table rowId schema old new rows') ∧
        ∃ undo, Logged (Changed (kindOf (metas manager.indexes)) rowId) undo rows rows' := by
  rw [stageAndCommit,Script.post_bind]
  refine (post_stageReplicatedRow h hn ho).mono fun result rows₁ hs => ?_
  cases result with
  | error e => exact ⟨fun _ _ => hs.1 e rfl,fun done hok => (nomatch hok),[],hs.1 e rfl⟩
  | ok undo =>
    obtain ⟨hl,hst⟩ := hs.2 undo rfl
    exact ⟨fun e he => (nomatch he),fun _ _ => hst,undo,hl⟩

/-- Staging a row again after it has been settled is accepted and changes nothing. -/
theorem post_stageAndCommit_settled (hst : SettledRow manager table rowId schema old new rows) :
    (stageAndCommit manager table rowId schema old new).Post (Does (kindOf (metas manager.indexes))) rows fun result rows' =>
      result = .ok () ∧ rows' = rows := by
  rw [stageAndCommit,stageReplicatedRow,Script.post_bind,Script.post_bind]
  refine (post_stageEach_settled (fun name _ entry he => (h.trees name entry he).admissible) hst).mono fun staged rows₁ hs => ?_
  rw [hs.1,hs.2]
  exact ⟨rfl,rfl⟩

omit h

theorem replayKey_eq {entry entry' : IndexEntry CountedTree} (h : metaOf entry = metaOf entry') (tuple : Option Tuple) :
    replayKey entry schema tuple = replayKey entry' schema tuple := by
  have hc : entry.columns = entry'.columns := congrArg IndexMeta.columns h
  have hty : entry.indexType = entry'.indexType := congrArg IndexMeta.indexType h
  cases tuple with
  | none => rfl
  | some tuple => simp only [replayKey,denseInt,hc,hty]

theorem Settles.of_metas {indexes indexes' : Indexes} {name : Name} {m : Multimap Bytes RowId} (h : Settles indexes rowId schema old new name m)
    (hmt : metas indexes' = metas indexes) : Settles indexes' rowId schema old new name m := by
  obtain ⟨entry,oldKey,newKey,hlk,hold,hnew,hs⟩ := h
  have hn := congrFun hmt name
  rw [metas,metas,hlk,map_some,map_eq_some_iff] at hn
  obtain ⟨entry',hlk', hm⟩ := hn
  refine ⟨entry',oldKey,newKey,hlk',?_,?_,?_⟩
  · rw [replayKey_eq hm,hold]
  · rw [replayKey_eq hm,hnew]
  · rw [show entry'.indexType = entry.indexType from congrArg IndexMeta.indexType hm]
    exact hs

/-- What staging a replicated row promises. -/
structure ReplaysOnce (manager : ArtIndexManager CountedTree) (table : Name) (rowId : RowId) (schema : Schema) (old new : Option Tuple) :
    Prop where
  returns : ((stageAndCommit manager table rowId schema old new).run callIndex manager.indexes).2.isSome
  /-- A row that is refused leaves nothing. -/
  refused : ∀ e, ((stageAndCommit manager table rowId schema old new).run callIndex manager.indexes).2 = some (.error e) →
    ∀ name key, rowIds (afterScript manager (stageAndCommit manager table rowId schema old new)) name key = rowIds manager name key
  /-- A row whose changes are dropped leaves nothing. -/
  dropped : ∀ name key,
    rowIds (afterScript manager (stageAndDrop manager table rowId schema old new)) name key = rowIds manager name key
  /-- A row that has been committed is accepted again and changes nothing. -/
  repeated : ((stageAndCommit manager table rowId schema old new).run callIndex manager.indexes).2 = some (.ok ()) →
    let committed := afterScript manager (stageAndCommit manager table rowId schema old new)
    ((stageAndCommit committed table rowId schema old new).run callIndex committed.indexes).2 = some (.ok ()) ∧
      ∀ name key, rowIds (afterScript committed (stageAndCommit committed table rowId schema old new)) name key = rowIds committed name key
  /-- No unique key of another row is taken. -/
  respects : Respects manager (afterScript manager (stageAndCommit manager table rowId schema old new)) rowId

/-- All calls of staging a row, dropping it, committing it and committing it again are carried out. -/
def SafeReplay (manager : ArtIndexManager CountedTree) (table : Name) (rowId : RowId) (schema : Schema) (old new : Option Tuple) : Prop :=
  let committed := afterScript manager (stageAndCommit manager table rowId schema old new)
  SafeScript manager (stageAndDrop manager table rowId schema old new) ∧
    SafeScript manager (stageAndCommit manager table rowId schema old new) ∧
    SafeScript committed (stageAndCommit committed table rowId schema old new)
deriving Decidable

theorem Sound.replaysOnce (h : Sound manager) (hsf : SafeReplay manager table rowId schema old new)
    (ho : HeldOnce manager table rowId schema old new) : ReplaysOnce manager table rowId schema old new := by
  obtain ⟨hd,hcm,ha⟩ := hsf
  obtain ⟨rows,result,rows',hrs,hr,hr',hrf,hst,undo,hl⟩ :=
    h.script hcm _ fun rows hr => post_stageAndCommit hr (h.distinct table) ho
  constructor
  · rw [hrs]
    rfl
  · intro e he name key
    rw [hrs] at he
    rw [hr'.rowIds,hr.rowIds,hrf e (Option.some.inj he)]
  · obtain ⟨rows,_,rows',-,hr,hr',hsame⟩ := h.script hd _ fun rows hr => post_stageAndDrop hr (h.distinct table) ho
    intro name key
    rw [hr'.rowIds,hr.rowIds,hsame]
  · intro hok committed
    have hs := hst () (Option.some.inj (hrs.symm.trans hok))
    have hm : metas committed.indexes = metas manager.indexes := hr'.metas
    have hc : Tracks (metas committed.indexes) committed.indexes rows' := by
      rw [hm]
      exact hr'
    obtain ⟨again,rows'',hrt,hr'',ha⟩ := hc.run ha
      (post_stageAndCommit_settled hc fun name hn => (hs name hn).of_metas hm)
    refine ⟨hrt.trans (congrArg some ha.1),fun name key => ?_⟩
    rw [Tracks.rowIds hr'',hc.rowIds,ha.2]
  · rw [hr.respects_iff hr']
    exact fun name entry _ _ key owner hoh hmm => mem_of_logged hl hoh hmm

end

/-- A table with a primary key and an index that enforces nothing. -/
def replayTable : List Step :=
  [.createPkIndex (ascii ['r']) [ascii ['i','d']],.createManualIndex (ascii ['r','v']) (ascii ['r']) [ascii ['v']]]

def replaySchema : Schema := [ascii ['i','d'],ascii ['v']]

def replayOld : Tuple := [.int4 1,.int4 10]

def replayNew : Tuple := [.int4 2,.int4 20]

end HeliosNano.Storage.RowIndexes
