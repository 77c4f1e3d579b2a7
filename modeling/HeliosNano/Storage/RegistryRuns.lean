import HeliosNano.Storage.IndexRegistry

namespace HeliosNano.Storage.IndexRegistry
open Foundation Art List ArtIndexManager AList Option.some

variable {Contents : Type}

def listOf (lists : Map Name (List Name)) (table : Name) : List Name := (lists.lookup table).getD []

def Resolves (s : ArtIndexManager Contents) (table name : Name) (kind : ArtIndexType) : Prop :=
  ∃ entry, s.indexes.lookup name = some entry ∧ entry.table = table ∧ entry.indexType = kind

structure Consistent (s : ArtIndexManager Contents) : Prop where
  distinct : ∀ table, (listOf s.tableIndexes table).Nodup
  listed : ∀ table name, name ∈ listOf s.tableIndexes table ↔
    ∃ entry, s.indexes.lookup name = some entry ∧ entry.table = table
  pk : ∀ table name, s.pkIndexes.lookup table = some name → Resolves s table name .primaryKey
  unique : ∀ table, ∀ name ∈ listOf s.uniqueIndexes table, Resolves s table name .unique
  fk : ∀ table, ∀ name ∈ listOf s.fkIndexes table, Resolves s table name .foreignKey

section
variable (lists : Map Name (List Name)) (table name : Name)

theorem listOf_insert (list : List Name) (table' : Name) :
    listOf (lists.insert table list) table' = if table' = table then list else listOf lists table' := by
  rw [listOf,Map.lookup_insert_ite]
  split <;> rfl

theorem listOf_erase (table' : Name) :
    listOf (lists.erase table) table' = if table' = table then [] else listOf lists table' := by
  rw [listOf,Map.lookup_erase_ite]
  split <;> rfl

theorem listOf_pushName (table' : Name) : listOf (pushName lists table name) table' =
    if table' = table then listOf lists table ++ [name] else listOf lists table' :=
  listOf_insert lists table _ table'

theorem listOf_tableIndexRemove (table' : Name) : listOf (tableIndexRemove lists table name) table' =
    if table' = table then (listOf lists table).filter (· ≠ name) else listOf lists table' := by
  unfold tableIndexRemove
  cases hls : lists.lookup table with
  | none =>
    dsimp only
    by_cases he : table' = table
    · subst he
      simp [listOf,hls]
    · rw [if_neg he]
  | some list =>
    have hold : listOf lists table = list := by simp [listOf,hls]
    rw [hold]
    by_cases hl : list.filter (· ≠ name) = []
    · dsimp only
      rw [if_pos hl,listOf_erase,hl]
    · dsimp only
      rw [if_neg hl,listOf_insert]

theorem listOf_filtered (table' : Name) :
    listOf (lists.mapValues (List.filter (· ≠ name))) table' = (listOf lists table').filter (· ≠ name) := by
  rw [listOf,Map.lookup_mapValues,listOf]
  cases lists.lookup table' <;> rfl

theorem listOf_moveList (renames : List (Name × Name)) (newTable table' : Name) :
    (table' = newTable ∧ listOf (moveList renames table newTable lists) table' = (listOf lists table).map (renameOf renames)) ∨
      listOf (moveList renames table newTable lists) table' = [] ∨
      table' ≠ table ∧ listOf (moveList renames table newTable lists) table' = listOf lists table' := by
  unfold moveList
  cases hl : lists.lookup table with
  | none =>
    dsimp only
    by_cases ht : table' = table
    · subst ht
      refine .inr (.inl ?_)
      simp [listOf,hl]
    · exact .inr (.inr ⟨ht,rfl⟩)
  | some list =>
    have hold : listOf lists table = list := by simp [listOf,hl]
    dsimp only
    rw [listOf_insert,listOf_erase,hold]
    by_cases hnew : table' = newTable
    · exact .inl ⟨hnew,if_pos hnew⟩
    rw [if_neg hnew]
    by_cases ht : table' = table
    · exact .inr (.inl (if_pos ht))
    · exact .inr (.inr ⟨ht,if_neg ht⟩)

end

section
variable {indexes : Map Name (IndexEntry Contents)} {base : Name}

theorem candidate_injective {a b : Nat} (ha : 1 ≤ a) (hb : 1 ≤ b) (h : candidate base a = candidate base b) : a = b := by
  unfold candidate at h
  by_cases h₁ : a ≤ 1
  · by_cases h₂ : b ≤ 1
    · omega
    · rw [if_pos h₁,if_neg h₂] at h
      have hl := congrArg List.length h
      simp [underscore,ascii] at hl
  · by_cases h₂ : b ≤ 1
    · rw [if_neg h₁,if_pos h₂] at h
      have hl := congrArg List.length h
      simp [underscore,ascii] at hl
    · rw [if_neg h₁,if_neg h₂] at h
      exact decimal_injective (append_cancel_left h)

theorem taken_of_firstFree_mem {fuel n : Nat} (h : firstFree indexes base fuel n ∈ indexes) :
    ∀ i ≤ fuel, candidate base (n+i) ∈ indexes := by
  induction fuel generalizing n with
  | zero =>
    intro i hi
    rw [Nat.le_zero.mp hi]
    exact h
  | succ fuel ih =>
    rw [firstFree] at h
    split at h
    next htk =>
      intro i hi
      cases i with
      | zero => exact htk
      | succ i =>
        rw [show n+(i+1) = n+1+i by omega]
        exact ih h i (by omega)
    next hf =>
      exact absurd h hf

theorem firstFree_not_mem : firstFree indexes base indexes.entries.length 1 ∉ indexes := by
  intro h
  have htk := taken_of_firstFree_mem h
  have hnd : ((List.range (indexes.entries.length+1)).map fun i => candidate base (1+i)).Nodup := by
    refine List.Nodup.map_on ?_ nodup_range
    intro i _ j _ he
    have hij := candidate_injective (Nat.le_add_right 1 i) (Nat.le_add_right 1 j) he
    omega
  have hs : ((List.range (indexes.entries.length+1)).map fun i => candidate base (1+i)) ⊆ indexes.keys := by
    intro name hn
    obtain ⟨i,hi,rfl⟩ := mem_map.mp hn
    exact AList.mem_keys.mp (htk i (Nat.lt_succ_iff.mp (mem_range.mp hi)))
  have hle := (hnd.subperm hs).length_le
  have hk : indexes.keys.length = indexes.entries.length := by simp [AList.keys,List.keys]
  rw [length_map,length_range,hk] at hle
  omega

theorem registerIndexEntry_ok {policy : IndexNamePolicy} {make : Name → IndexEntry Contents}
    {indexes' : Map Name (IndexEntry Contents)} {name : Name}
    (h : registerIndexEntry indexes base policy make = .ok (indexes',name)) :
    name ∉ indexes ∧ indexes' = indexes.insert name (make name) ∧ (policy = .refuse → name = base) := by
  cases policy with
  | refuse =>
    rw [registerIndexEntry] at h
    split at h
    · cases h
    next hf =>
      cases h
      exact ⟨hf,rfl,fun _ => rfl⟩
  | mintFree =>
    cases h
    exact ⟨firstFree_not_mem,rfl,by simp⟩

end

section
variable {s s' : ArtIndexManager Contents}
variable {name table : Name} {entry : IndexEntry Contents}

theorem Consistent.register (h : Consistent s) (hf : name ∉ s.indexes) (htl : entry.table = table)
    (hi : s'.indexes = s.indexes.insert name entry) (htb : s'.tableIndexes = pushName s.tableIndexes table name)
    (hpk : ∀ t n, s'.pkIndexes.lookup t = some n →
      s.pkIndexes.lookup t = some n ∨ t = table ∧ n = name ∧ entry.indexType = .primaryKey)
    (hun : ∀ t n, n ∈ listOf s'.uniqueIndexes t →
      n ∈ listOf s.uniqueIndexes t ∨ t = table ∧ n = name ∧ entry.indexType = .unique) (hfk : ∀ t n, n ∈ listOf s'.fkIndexes t →
      n ∈ listOf s.fkIndexes t ∨ t = table ∧ n = name ∧ entry.indexType = .foreignKey) : Consistent s' := by
  have hnn : s.indexes.lookup name = none := lookup_eq_none.mpr hf
  have hlk : ∀ n, s'.indexes.lookup n = if n = name then some entry else s.indexes.lookup n := by
    intro n
    rw [hi,Map.lookup_insert_ite]
  have hkp : ∀ {t n kind}, Resolves s t n kind → Resolves s' t n kind := by
    rintro t n kind ⟨e,he,ht,hk⟩
    have hne : n ≠ name := by
      rintro rfl
      rw [hnn] at he
      cases he
    exact ⟨e,by rw [hlk,if_neg hne,he],ht,hk⟩
  have hnew : ∀ {kind}, entry.indexType = kind → Resolves s' table name kind :=
    fun hk => ⟨entry,by rw [hlk,if_pos rfl],htl,hk⟩
  have hu : ∀ t, name ∉ listOf s.tableIndexes t := by
    intro t hm
    obtain ⟨e,he,-⟩ := (h.listed t name).mp hm
    rw [hnn] at he
    cases he
  refine ⟨fun t => ?_,fun t n => ?_,fun t n hn => ?_,fun t n hn => ?_,fun t n hn => ?_⟩
  · rw [htb,listOf_pushName]
    split
    · rw [nodup_append]
      refine ⟨h.distinct table,nodup_singleton name,fun a ha b hb => ?_⟩
      rw [mem_singleton.mp hb]
      rintro rfl
      exact hu table ha
    · exact h.distinct t
  · rw [htb,listOf_pushName,hlk]
    by_cases ht : t = table
    · subst ht
      rw [if_pos rfl,mem_append,mem_singleton,h.listed]
      by_cases hn : n = name
      · subst hn
        simp [htl]
      · simp [hn]
    · rw [if_neg ht,h.listed]
      by_cases hn : n = name
      · subst hn
        simp only [hnn,if_true,reduceCtorEq,false_and,exists_false,injEq,false_iff]
        rintro ⟨e,rfl,he⟩
        exact ht (he.symm.trans htl)
      · rw [if_neg hn]
  · rcases hpk t n hn with hold | ⟨rfl,rfl,hk⟩
    · exact hkp (h.pk t n hold)
    · exact hnew hk
  · rcases hun t n hn with hold | ⟨rfl,rfl,hk⟩
    · exact hkp (h.unique t n hold)
    · exact hnew hk
  · rcases hfk t n hn with hold | ⟨rfl,rfl,hk⟩
    · exact hkp (h.fk t n hold)
    · exact hnew hk

theorem mem_listOf_pushName {lists : Map Name (List Name)} {t n : Name}
    (h : n ∈ listOf (pushName lists table name) t) : n ∈ listOf lists t ∨ t = table ∧ n = name := by
  rw [listOf_pushName] at h
  split at h
  next ht =>
    rcases mem_append.mp h with hold | hnew
    · exact .inl (ht ▸ hold)
    · exact .inr ⟨ht,mem_singleton.mp hnew⟩
  · exact .inl h

def Keeps (s s' : ArtIndexManager Contents) : Prop :=
  ∀ name entry, s.indexes.lookup name = some entry → s'.indexes.lookup name = some entry

theorem keeps_insert (hf : name ∉ s.indexes) (hi : s'.indexes = s.indexes.insert name entry) : Keeps s s' := by
  intro n e he
  have hne : n ≠ name := by
    rintro rfl
    rw [lookup_eq_none.mpr hf] at he
    cases he
  rw [hi,Map.lookup_insert_ite,if_neg hne,he]

theorem Consistent.registerUnique (h : Consistent s) (hf : name ∉ s.indexes) {table : Name} (htl : entry.table = table)
    (hk : entry.indexType = .unique) : Consistent { s with
        indexes := s.indexes.insert name entry
        uniqueIndexes := pushName s.uniqueIndexes table name
        tableIndexes := pushName s.tableIndexes table name } := by
  subst htl
  refine h.register hf rfl rfl rfl (fun t n hn => .inl hn) (fun t n hn => ?_) (fun t n hn => .inl hn)
  rcases mem_listOf_pushName hn with hold | ⟨ht,hnm⟩
  · exact .inl hold
  · exact .inr ⟨ht,hnm,hk⟩

section
variable [Inhabited Contents]
variable (h : Consistent s)
include h

theorem Consistent.createPkIndex (table : Name) (columns : List Name) :
    Consistent (s.createPkIndex table columns).1 ∧ Keeps s (s.createPkIndex table columns).1 := by
  rw [ArtIndexManager.createPkIndex]
  split
  · exact ⟨h,fun _ _ he => he⟩
  split
  · exact ⟨h,fun _ _ he => he⟩
  next indexes name hr =>
    obtain ⟨hf,rfl,-⟩ := registerIndexEntry_ok hr
    refine ⟨h.register hf rfl rfl rfl (fun t n hn => ?_) (fun t n hn => .inl hn) (fun t n hn => .inl hn),
      keeps_insert hf rfl⟩
    have hn' : (s.pkIndexes.insert table name).lookup t = some n := hn
    rw [Map.lookup_insert_ite] at hn'
    split at hn'
    next ht =>
      exact .inr ⟨ht,(inj hn').symm,rfl⟩
    · exact .inl hn'

theorem Consistent.createFkIndex (table : Name) (columns : List Name) (refTable : Name)
    (refColumns : List Name) (constraintName : Option Name) :
    Consistent (s.createFkIndex table columns refTable refColumns constraintName).1 ∧
      Keeps s (s.createFkIndex table columns refTable refColumns constraintName).1 := by
  rw [ArtIndexManager.createFkIndex]
  split
  · exact ⟨h,fun _ _ he => he⟩
  next indexes name hr =>
    obtain ⟨hf,rfl,-⟩ := registerIndexEntry_ok hr
    refine ⟨h.register hf rfl rfl rfl (fun t n hn => .inl hn) (fun t n hn => .inl hn) (fun t n hn => ?_),
      keeps_insert hf rfl⟩
    rcases mem_listOf_pushName hn with hold | ⟨ht,hnm⟩
    · exact .inl hold
    · exact .inr ⟨ht,hnm,rfl⟩

theorem Consistent.createUniqueIndex (table : Name) (columns : List Name) (constraintName : Option Name) :
    Consistent (s.createUniqueIndex table columns constraintName).1 ∧
      Keeps s (s.createUniqueIndex table columns constraintName).1 := by
  rw [ArtIndexManager.createUniqueIndex]
  split
  · exact ⟨h,fun _ _ he => he⟩
  · next hr =>
    obtain ⟨hf,rfl,-⟩ := registerIndexEntry_ok hr
    exact ⟨h.registerUnique hf rfl rfl,keeps_insert hf rfl⟩

theorem Consistent.createConstraintUniqueIndex (table : Name) (columns : List Name)
    (constraintLabel : Option Name) : Consistent (s.createConstraintUniqueIndex table columns constraintLabel).1 ∧
      Keeps s (s.createConstraintUniqueIndex table columns constraintLabel).1 := by
  rw [ArtIndexManager.createConstraintUniqueIndex]
  split
  · exact ⟨h,fun _ _ he => he⟩
  · next hr =>
    obtain ⟨hf,rfl,-⟩ := registerIndexEntry_ok hr
    exact ⟨h.registerUnique hf rfl rfl,keeps_insert hf rfl⟩

theorem Consistent.createManualIndex (name table : Name) (columns : List Name) :
    Consistent (s.createManualIndex name table columns).1 ∧ Keeps s (s.createManualIndex name table columns).1 := by
  rw [ArtIndexManager.createManualIndex]
  split
  · exact ⟨h,fun _ _ he => he⟩
  next indexes claimed hr =>
    obtain ⟨hf,rfl,hb⟩ := registerIndexEntry_ok hr
    obtain rfl := hb rfl
    exact ⟨h.register hf rfl rfl rfl (fun t n hn => .inl hn) (fun t n hn => .inl hn) (fun t n hn => .inl hn),
      keeps_insert hf rfl⟩

end

theorem Resolves.kind_eq {kind : ArtIndexType} (h : Resolves s table name kind)
    (hen : s.indexes.lookup name = some entry) : entry.indexType = kind := by
  obtain ⟨e,he,-,hk⟩ := h
  rw [hen] at he
  obtain rfl := inj he
  exact hk

theorem Consistent.forgetKind (h : Consistent s) (he : s.indexes.lookup name = some entry) :
    (∀ t n, (s.forgetKind name entry.indexType).pkIndexes.lookup t = some n → s.pkIndexes.lookup t = some n ∧ n ≠ name) ∧
      (∀ t n, n ∈ listOf (s.forgetKind name entry.indexType).uniqueIndexes t → n ∈ listOf s.uniqueIndexes t ∧ n ≠ name) ∧
      ∀ t n, n ∈ listOf (s.forgetKind name entry.indexType).fkIndexes t → n ∈ listOf s.fkIndexes t ∧ n ≠ name := by
  have hpk : entry.indexType ≠ .primaryKey → ∀ t n, s.pkIndexes.lookup t = some n → n ≠ name := by
    rintro hk t n hn rfl
    exact hk ((h.pk t n hn).kind_eq he)
  have hu : entry.indexType ≠ .unique → ∀ t n, n ∈ listOf s.uniqueIndexes t → n ≠ name := by
    rintro hk t n hn rfl
    exact hk ((h.unique t n hn).kind_eq he)
  have hfk : entry.indexType ≠ .foreignKey → ∀ t n, n ∈ listOf s.fkIndexes t → n ≠ name := by
    rintro hk t n hn rfl
    exact hk ((h.fk t n hn).kind_eq he)
  have hf : ∀ {lists : Map Name (List Name)} {t n : Name},
      n ∈ listOf (lists.mapValues (List.filter (· ≠ name))) t → n ∈ listOf lists t ∧ n ≠ name := by
    intro lists t n hn
    rw [listOf_filtered,mem_filter] at hn
    exact ⟨hn.1,of_decide_eq_true hn.2⟩
  cases hk : entry.indexType with
  | primaryKey =>
    refine ⟨fun t n hn => ?_,fun t n hn => ⟨hn,hu (by simp [hk]) t n hn⟩,fun t n hn => ⟨hn,hfk (by simp [hk]) t n hn⟩⟩
    have hn' : (s.pkIndexes.retain fun _ v => v ≠ name).lookup t = some n := hn
    rw [Map.lookup_retain,Option.filter_eq_some_iff] at hn'
    exact ⟨hn'.1,of_decide_eq_true hn'.2⟩
  | foreignKey =>
    exact ⟨fun t n hn => ⟨hn,hpk (by simp [hk]) t n hn⟩,fun t n hn => ⟨hn,hu (by simp [hk]) t n hn⟩,
      fun t n hn => hf hn⟩
  | unique =>
    exact ⟨fun t n hn => ⟨hn,hpk (by simp [hk]) t n hn⟩,fun t n hn => hf hn,
      fun t n hn => ⟨hn,hfk (by simp [hk]) t n hn⟩⟩
  | manual =>
    exact ⟨fun t n hn => ⟨hn,hpk (by simp [hk]) t n hn⟩,fun t n hn => ⟨hn,hu (by simp [hk]) t n hn⟩,
      fun t n hn => ⟨hn,hfk (by simp [hk]) t n hn⟩⟩

theorem Consistent.dropIndex (h : Consistent s) (name : Name) : Consistent (s.dropIndex name).1 := by
  rw [ArtIndexManager.dropIndex]
  cases hen : s.indexes.lookup name with
  | none => exact h
  | some entry =>
    have hlk : ∀ n, (s.indexes.erase name).lookup n = if n = name then none else s.indexes.lookup n :=
      Map.lookup_erase_ite s.indexes name
    obtain ⟨hpk,hu,hfk⟩ := h.forgetKind hen
    have hkp : ∀ {t n kind}, n ≠ name → Resolves s t n kind → ∃ e, (s.indexes.erase name).lookup n = some e ∧
        e.table = t ∧ e.indexType = kind := by
      rintro t n kind hne ⟨e,he,ht,hk⟩
      exact ⟨e,by rw [hlk,if_neg hne,he],ht,hk⟩
    refine ⟨fun t => ?_,fun t n => ?_,fun t n hn => ?_,fun t n hn => ?_,fun t n hn => ?_⟩
    · dsimp only
      rw [listOf_tableIndexRemove]
      split
      · exact (h.distinct entry.table).filter _
      · exact h.distinct t
    · dsimp only
      rw [listOf_tableIndexRemove,hlk]
      by_cases ht : t = entry.table
      · subst ht
        rw [if_pos rfl,mem_filter,h.listed]
        by_cases hn : n = name
        · simp [hn]
        · simp [hn]
      · rw [if_neg ht,h.listed]
        by_cases hn : n = name
        · subst hn
          rw [hen,if_pos rfl]
          simp [Ne.symm ht]
        · rw [if_neg hn]
    · obtain ⟨hold,hne⟩ := hpk t n hn
      exact hkp hne (h.pk t n hold)
    · obtain ⟨hold,hne⟩ := hu t n hn
      exact hkp hne (h.unique t n hold)
    · obtain ⟨hold,hne⟩ := hfk t n hn
      exact hkp hne (h.fk t n hold)

theorem Consistent.dropEach (h : Consistent s) (names : List Name) : Consistent (dropEach names s).1 := by
  induction names generalizing s with
  | nil => exact h
  | cons name rest ih =>
    have hd := h.dropIndex name
    rw [dropEach]
    split
    next s₁ heq =>
      rw [heq] at hd
      exact ih hd
    next s₁ e heq =>
      rw [heq] at hd
      exact hd

theorem mem_matching {rank : Name → Nat} : name ∈ s.matching table rank ↔
    ∃ entry, s.indexes.lookup name = some entry ∧ entry.table = table := by
  rw [matching,mem_insertionSort,mem_map]
  constructor
  · rintro ⟨⟨n,e⟩,hm,rfl⟩
    obtain ⟨hin,htb⟩ := mem_filter.mp hm
    exact ⟨e,mem_lookup_iff.mpr hin,of_decide_eq_true htb⟩
  · rintro ⟨e,he,htb⟩
    exact ⟨⟨name,e⟩,mem_filter.mpr ⟨mem_lookup_iff.mp he,decide_eq_true htb⟩,rfl⟩

theorem nodup_matching (table : Name) (rank : Name → Nat) : (s.matching table rank).Nodup := by
  rw [matching,(perm_insertionSort _ _).nodup_iff]
  have hk : (s.indexes.entries.map (·.1)).Nodup := s.indexes.nodupKeys
  exact hk.sublist (filter_sublist.map _)

end

section
variable {s : ArtIndexManager Contents} {oldTable newTable : Name} {preserve : Name → Bool} {rank : Name → Nat}

def newName (s : ArtIndexManager Contents) (oldTable newTable : Name) (preserve : Name → Bool) (name : Name) : Name :=
  Map.movesTo (fun name entry => renamedIndex oldTable newTable preserve name entry.indexType) s.indexes name

structure Clear (s : ArtIndexManager Contents) (oldTable newTable : Name) (preserve : Name → Bool) : Prop where
  free : ∀ name entry, s.indexes.lookup name = some entry → entry.table = oldTable →
    newName s oldTable newTable preserve name ∈ s.indexes → newName s oldTable newTable preserve name = name
  apart : ∀ name entry name' entry', s.indexes.lookup name = some entry → entry.table = oldTable →
    s.indexes.lookup name' = some entry' → entry'.table = oldTable →
    newName s oldTable newTable preserve name = newName s oldTable newTable preserve name' → name = name'

theorem renameEntry_eq : (renameEntry oldTable newTable preserve :
      Map Name (IndexEntry Contents) × List (Name × Name) → Name → Map Name (IndexEntry Contents) × List (Name × Name)) =
    Map.moveEntry (fun name entry => renamedIndex oldTable newTable preserve name entry.indexType)
      (fun entry name => entry.moved newTable name) := by
  funext acc name
  rw [renameEntry,Map.moveEntry]
  cases acc.1.lookup name <;> rfl

/-- The registry after the loop, when no new name is taken. -/
structure Renamed (s : ArtIndexManager Contents) (oldTable newTable : Name) (preserve : Name → Bool) (rank : Name → Nat)
    (indexes : Map Name (IndexEntry Contents)) (renames : List (Name × Name)) : Prop where
  renames : renames = (s.matching oldTable rank).map fun name => (name,newName s oldTable newTable preserve name)
  moved : ∀ name entry, s.indexes.lookup name = some entry → entry.table = oldTable →
    indexes.lookup (newName s oldTable newTable preserve name) =
      some (entry.moved newTable (newName s oldTable newTable preserve name))
  inverse : ∀ name entry, indexes.lookup name = some entry →
    (∃ old e, s.indexes.lookup old = some e ∧ e.table = oldTable ∧ name = newName s oldTable newTable preserve old) ∨
      s.indexes.lookup name = some entry ∧ entry.table ≠ oldTable
  kept : ∀ name entry, s.indexes.lookup name = some entry → entry.table ≠ oldTable → indexes.lookup name = some entry

theorem Clear.renamed (h : Clear s oldTable newTable preserve) (rank : Name → Nat) : Renamed s oldTable newTable preserve rank
      ((s.matching oldTable rank).foldl (renameEntry oldTable newTable preserve) (s.indexes,[])).1
      ((s.matching oldTable rank).foldl (renameEntry oldTable newTable preserve) (s.indexes,[])).2 := by
  rw [renameEntry_eq]
  obtain ⟨hl,hmv,hs⟩ := Map.foldl_moveEntry
    (fun name (entry : IndexEntry Contents) => renamedIndex oldTable newTable preserve name entry.indexType)
    (fun entry name => entry.moved newTable name) [] (nodup_matching (s := s) oldTable rank)
    (fun name hn => by
      obtain ⟨entry,he,-⟩ := mem_matching.mp hn
      exact lookup_isSome.mp (by rw [he]; rfl))
    (fun name hn => by
      obtain ⟨entry,he,ht⟩ := mem_matching.mp hn
      exact h.free name entry he ht)
    (fun name hn name' hn' => by
      obtain ⟨entry,he,ht⟩ := mem_matching.mp hn
      obtain ⟨entry',he',ht'⟩ := mem_matching.mp hn'
      exact h.apart name entry name' entry' he ht he' ht')
  revert hl hmv hs
  generalize (s.matching oldTable rank).foldl _ (s.indexes,[]) = loop
  intro hl hmv hs
  -- A name that no entry moves to keeps its entry, unless that has moved away.
  have ho : ∀ name, (∀ old e, s.indexes.lookup old = some e → e.table = oldTable →
      name ≠ newName s oldTable newTable preserve old) →
      loop.1.lookup name = if name ∈ s.matching oldTable rank then none else s.indexes.lookup name := by
    intro name hnm
    have hname' := hs name fun old hold => by
      obtain ⟨e,he,ht⟩ := mem_matching.mp hold
      exact hnm old e he ht
    by_cases hm : name ∈ s.matching oldTable rank
    · rw [hname',if_pos hm,if_pos hm]
    · rw [hname',if_neg hm,if_neg hm]
  refine ⟨hl,fun name entry he ht => hmv name (mem_matching.mpr ⟨entry,he,ht⟩) entry he,fun name entry he => ?_,
    fun name entry he ht => ?_⟩
  · by_cases hto : ∃ old e, s.indexes.lookup old = some e ∧ e.table = oldTable ∧
        name = newName s oldTable newTable preserve old
    · exact .inl hto
    refine .inr ?_
    rw [ho name fun old e hold ht hnm => hto ⟨old,e,hold,ht,hnm⟩] at he
    split at he
    · cases he
    next hnt =>
      exact ⟨he,fun ht => hnt (mem_matching.mpr ⟨entry,he,ht⟩)⟩
  · rw [ho name,if_neg,he]
    · intro hm
      obtain ⟨e,he',ht'⟩ := mem_matching.mp hm
      rw [he] at he'
      obtain rfl := inj he'
      exact ht ht'
    · rintro old e hold ho' rfl
      have hsame := h.free old e hold ho' (lookup_isSome.mp (by rw [he]; rfl))
      rw [hsame,hold] at he
      obtain rfl := inj he
      exact ht ho'

variable {renames : List (Name × Name)} {indexes : Map Name (IndexEntry Contents)}
variable {name : Name} {kind : ArtIndexType}

variable (h : Renamed s oldTable newTable preserve rank indexes renames)
include h

theorem Renamed.renameOf_eq
    (hn : name ∈ s.matching oldTable rank) : renameOf renames name = newName s oldTable newTable preserve name := by
  have hf : ∀ names : List Name, name ∈ names →
      (names.map fun n => (n,newName s oldTable newTable preserve n)).find? (·.1 = name) =
        some (name,newName s oldTable newTable preserve name) := by
    intro names hm
    induction names with
    | nil => cases hm
    | cons n rest ih =>
      rw [map_cons]
      by_cases he : n = name
      · subst he
        simp
      · rw [find?_cons_of_neg (by simpa using he)]
        exact ih ((mem_cons.mp hm).resolve_left (Ne.symm he))
  rw [renameOf,h.renames,hf _ hn]

theorem Renamed.resolves (hr : Resolves s oldTable name kind) :
    ∃ entry, indexes.lookup (renameOf renames name) = some entry ∧ entry.table = newTable ∧ entry.indexType = kind := by
  obtain ⟨entry,he,ht,hk⟩ := hr
  rw [h.renameOf_eq (mem_matching.mpr ⟨entry,he,ht⟩)]
  exact ⟨_,h.moved name entry he ht,rfl,hk⟩

theorem Renamed.moveList {lists : Map Name (List Name)}
    (hls : ∀ t, ∀ n ∈ listOf lists t, Resolves s t n kind) : ∀ t, ∀ n ∈ listOf (moveList renames oldTable newTable lists) t,
      ∃ entry, indexes.lookup n = some entry ∧ entry.table = t ∧ entry.indexType = kind := by
  intro t n hn
  rcases listOf_moveList lists oldTable renames newTable t with ⟨rfl,hl⟩ | hl | ⟨ht,hl⟩
  · rw [hl] at hn
    obtain ⟨old,hold,rfl⟩ := mem_map.mp hn
    exact h.resolves (hls oldTable old hold)
  · rw [hl] at hn
    cases hn
  · rw [hl] at hn
    obtain ⟨entry,he,htb,hk⟩ := hls t n hn
    exact ⟨entry,h.kept n entry he (htb ▸ ht),htb,hk⟩

omit h

theorem Consistent.renameTableIndexes (h : Consistent s) (hc : Clear s oldTable newTable preserve)
    (hf : ∀ name entry, s.indexes.lookup name = some entry → entry.table ≠ newTable) (rank : Name → Nat) :
    Consistent (s.renameTableIndexes oldTable newTable preserve rank) := by
  have hr := hc.renamed rank
  revert hr
  rw [ArtIndexManager.renameTableIndexes]
  generalize (s.matching oldTable rank).foldl (renameEntry oldTable newTable preserve) (s.indexes,[]) = loop
  obtain ⟨indexes,renames⟩ := loop
  intro hr
  dsimp only at hr ⊢
  have hnm : renames.map (·.2) = (s.matching oldTable rank).map (newName s oldTable newTable preserve) := by
    rw [hr.renames,map_map]
    rfl
  -- What the registry lists for a table, as far as its entries are concerned.
  have hold : listOf s.tableIndexes newTable = [] := by
    refine eq_nil_iff_forall_not_mem.mpr fun name hn => ?_
    obtain ⟨entry,he,ht⟩ := (h.listed newTable name).mp hn
    exact hf name entry he ht
  have hl : ∀ t, listOf (if oldTable ∈ s.tableIndexes then
      if renames.map (·.2) = [] then s.tableIndexes.erase oldTable
      else (s.tableIndexes.erase oldTable).insert newTable (renames.map (·.2))
      else s.tableIndexes) t =
        if t = newTable then (s.matching oldTable rank).map (newName s oldTable newTable preserve)
        else if t = oldTable then [] else listOf s.tableIndexes t := by
    intro t
    rw [← hnm]
    by_cases hin : oldTable ∈ s.tableIndexes
    · rw [if_pos hin]
      by_cases hnl : renames.map (·.2) = []
      · rw [if_pos hnl,listOf_erase,hnl]
        by_cases ht : t = newTable
        · subst ht
          rw [hold]
          simp
        · rw [if_neg ht]
      · rw [if_neg hnl,listOf_insert,listOf_erase]
    · rw [if_neg hin]
      have hnn : listOf s.tableIndexes oldTable = [] := by
        rw [listOf,lookup_eq_none.mpr hin]
        rfl
      have hnl : renames.map (·.2) = [] := by
        rw [hnm,map_eq_nil_iff]
        refine eq_nil_iff_forall_not_mem.mpr fun name hn => ?_
        have hm := (h.listed oldTable name).mpr (mem_matching.mp hn)
        rw [hnn] at hm
        cases hm
      rw [hnl]
      by_cases ht : t = newTable
      · rw [if_pos ht,ht,hold]
      rw [if_neg ht]
      by_cases ho : t = oldTable
      · rw [if_pos ho,ho,hnn]
      · rw [if_neg ho]
  refine ⟨fun t => ?_,fun t name => ?_,fun t name hn => ?_,hr.moveList h.unique,hr.moveList h.fk⟩
  · rw [hl]
    split
    · refine List.Nodup.map_on ?_ (nodup_matching oldTable rank)
      intro name hn name' hn' he
      obtain ⟨entry,hen,ht⟩ := mem_matching.mp hn
      obtain ⟨entry',hen',ht'⟩ := mem_matching.mp hn'
      exact hc.apart name entry name' entry' hen ht hen' ht' he
    · split
      · exact nodup_nil
      · exact h.distinct t
  · rw [hl]
    by_cases ht : t = newTable
    · subst ht
      rw [if_pos rfl,mem_map]
      constructor
      · rintro ⟨old,hm,rfl⟩
        obtain ⟨entry,he,htb⟩ := mem_matching.mp hm
        exact ⟨_,hr.moved old entry he htb,rfl⟩
      · rintro ⟨entry,he,htb⟩
        rcases hr.inverse name entry he with ⟨old,e,ho',htb',rfl⟩ | ⟨he',-⟩
        · exact ⟨old,mem_matching.mpr ⟨e,ho',htb'⟩,rfl⟩
        · exact absurd htb (hf name entry he')
    · rw [if_neg ht]
      have hb : ∀ entry, indexes.lookup name = some entry → entry.table = t →
          s.indexes.lookup name = some entry ∧ t ≠ oldTable := by
        rintro entry he rfl
        rcases hr.inverse name entry he with ⟨old,e,ho',htb',rfl⟩ | ⟨he',hne⟩
        · rw [hr.moved old e ho' htb'] at he
          obtain rfl := inj he
          exact absurd rfl ht
        · exact ⟨he',hne⟩
      by_cases ho : t = oldTable
      · rw [if_pos ho]
        constructor
        · intro hm
          cases hm
        · rintro ⟨entry,he,htb⟩
          exact absurd ho (hb entry he htb).2
      · rw [if_neg ho,h.listed]
        constructor
        · rintro ⟨entry,he,htb⟩
          exact ⟨entry,hr.kept name entry he (htb ▸ ho),htb⟩
        · rintro ⟨entry,he,htb⟩
          exact ⟨entry,(hb entry he htb).1,htb⟩
  · split at hn
    next hnn =>
      obtain ⟨entry,he,htb,hk⟩ := h.pk t name hn
      have ho : t ≠ oldTable := by
        rintro rfl
        rw [hnn] at hn
        cases hn
      exact ⟨entry,hr.kept name entry he (htb ▸ ho),htb,hk⟩
    next old ho' =>
      rw [Map.lookup_insert_ite,Map.lookup_erase_ite] at hn
      split at hn
      next ht =>
        obtain rfl := inj hn
        rw [ht]
        exact hr.resolves (h.pk oldTable old ho')
      · split at hn
        · cases hn
        next ho =>
          obtain ⟨entry,he,htb,hk⟩ := h.pk t name hn
          exact ⟨entry,hr.kept name entry he (htb ▸ ho),htb,hk⟩

end

section

def RenamesFresh (s : ArtIndexManager Contents) : Step → Prop
  | .renameTableIndexes _ newTable _ _ => ∀ name entry, s.indexes.lookup name = some entry → entry.table ≠ newTable
  | _ => True

/-- A rename gives no index the name of another one. -/
def RenamesClear (s : ArtIndexManager Contents) : Step → Prop
  | .renameTableIndexes oldTable newTable preserve _ => Clear s oldTable newTable preserve
  | _ => True

/-- What a registration or a rename may not remove. -/
def KeepsOthers (s s' : ArtIndexManager Contents) : Step → Prop
  | .dropIndex _ | .dropTableIndexes _ _ => True
  | .renameTableIndexes oldTable _ _ _ => ∀ name entry, s.indexes.lookup name = some entry → entry.table ≠ oldTable →
      s'.indexes.lookup name = some entry
  | _ => Keeps s s'

theorem consistent_new : Consistent (new : ArtIndexManager Contents) := by
  refine ⟨fun t => nodup_nil,fun t n => ?_,fun t n hn => ?_,fun t n hn => ?_,fun t n hn => ?_⟩
  · simp [new,listOf]
  · simp [new] at hn
  · simp [new,listOf] at hn
  · simp [new,listOf] at hn

variable [Inhabited Contents]

theorem Consistent.step {s : ArtIndexManager Contents} (h : Consistent s) {a : Step} (hf : RenamesFresh s a)
    (hc : RenamesClear s a) : Consistent (step s a) ∧ KeepsOthers s (step s a) a := by
  cases a with
  | createPkIndex table columns => exact h.createPkIndex table columns
  | createFkIndex table columns refTable refColumns constraintName =>
    exact h.createFkIndex table columns refTable refColumns constraintName
  | createUniqueIndex table columns constraintName => exact h.createUniqueIndex table columns constraintName
  | createConstraintUniqueIndex table columns constraintLabel =>
    exact h.createConstraintUniqueIndex table columns constraintLabel
  | createManualIndex name table columns => exact h.createManualIndex name table columns
  | dropIndex name => exact ⟨h.dropIndex name,trivial⟩
  | dropTableIndexes table rank => exact ⟨h.dropEach _,trivial⟩
  | renameTableIndexes oldTable newTable preserve rank =>
    exact ⟨h.renameTableIndexes hc hf rank,(hc.renamed rank).kept⟩

/-- What the registry promises of a run: the derived maps name exactly the entries, and no
registration or rename removes an entry of another table. -/
structure Registered (Contents : Type) [Inhabited Contents] (steps : List Step) : Prop where
  consistent : Consistent (run (@step Contents _) .new steps)
  kept : ∀ first a rest, steps = first ++ a::rest →
    KeepsOthers (run (@step Contents _) .new first) (run (@step Contents _) .new (first ++ [a])) a

/-- The registry keeps its promise in every run whose renames go to tables without indexes
and give no index the name of another one. -/
theorem registry_consistent (steps : List Step) (hfresh : Guarded (@step Contents _) RenamesFresh .new steps)
    (hclear : Guarded (@step Contents _) RenamesClear .new steps) : Registered Contents steps := by
  have hguard := hfresh.and (@step Contents _) hclear
  have hrun : ∀ {steps}, Guarded (@step Contents _) (fun s a => RenamesFresh s a ∧ RenamesClear s a) .new steps →
      Consistent (run (@step Contents _) .new steps) :=
    fun hg => guarded_run_invariant (@step Contents _) Consistent (fun s a h hok => (h.step hok.1 hok.2).1) consistent_new hg
  refine ⟨hrun hguard,?_⟩
  rintro first a rest rfl
  obtain ⟨hfirst,hok,-⟩ := (guarded_append (@step Contents _)).mp hguard
  rw [run_append]
  exact ((hrun hfirst).step hok.1 hok.2).2

end

section

theorem forall_lookup_iff {m : Map Name (IndexEntry Contents)} (p : Name → IndexEntry Contents → Prop) :
    (∀ entry ∈ m.entries, p entry.1 entry.2) ↔ ∀ name entry, m.lookup name = some entry → p name entry := by
  constructor
  · intro h name entry he
    exact h ⟨name,entry⟩ (mem_lookup_iff.mp he)
  · intro h entry hm
    exact h entry.1 entry.2 (mem_lookup_iff.mpr hm)

instance (s : ArtIndexManager Contents) (oldTable newTable : Name) (preserve : Name → Bool) :
    Decidable (Clear s oldTable newTable preserve) :=
  decidable_of_iff
    ((∀ entry ∈ s.indexes.entries, entry.2.table = oldTable →
        newName s oldTable newTable preserve entry.1 ∈ s.indexes → newName s oldTable newTable preserve entry.1 = entry.1) ∧
      ∀ entry ∈ s.indexes.entries, ∀ entry' ∈ s.indexes.entries, entry.2.table = oldTable → entry'.2.table = oldTable →
        newName s oldTable newTable preserve entry.1 = newName s oldTable newTable preserve entry'.1 → entry.1 = entry'.1) <| by
    constructor
    · rintro ⟨hfree,hapart⟩
      refine ⟨(forall_lookup_iff fun name entry => _).mp hfree,?_⟩
      intro name entry name' entry' he ht he' ht'
      exact hapart ⟨name,entry⟩ (mem_lookup_iff.mp he) ⟨name',entry'⟩ (mem_lookup_iff.mp he') ht ht'
    · rintro ⟨hfree,hapart⟩
      refine ⟨(forall_lookup_iff fun name entry => _).mpr hfree,?_⟩
      intro entry he entry' he' ht ht'
      exact hapart entry.1 entry.2 entry'.1 entry'.2 (mem_lookup_iff.mpr he) ht (mem_lookup_iff.mpr he') ht'

instance (s : ArtIndexManager Contents) (a : Step) : Decidable (RenamesFresh s a) :=
  match a with
  | .renameTableIndexes _ newTable _ _ => decidable_of_iff _ (forall_lookup_iff fun _ entry => entry.table ≠ newTable)
  | .createPkIndex _ _ | .createFkIndex _ _ _ _ _ | .createUniqueIndex _ _ _ | .createConstraintUniqueIndex _ _ _
  | .createManualIndex _ _ _ | .dropIndex _ | .dropTableIndexes _ _ => inferInstanceAs (Decidable True)

instance (s : ArtIndexManager Contents) (a : Step) : Decidable (RenamesClear s a) :=
  match a with
  | .renameTableIndexes oldTable newTable preserve _ => inferInstanceAs (Decidable (Clear s oldTable newTable preserve))
  | .createPkIndex _ _ | .createFkIndex _ _ _ _ _ | .createUniqueIndex _ _ _ | .createConstraintUniqueIndex _ _ _
  | .createManualIndex _ _ _ | .dropIndex _ | .dropTableIndexes _ _ => inferInstanceAs (Decidable True)

/-- A rename of a table with a primary key and a unique constraint. -/
def movedTable : List Step :=
  [.createPkIndex (ascii ['a']) [ascii ['i']],.createConstraintUniqueIndex (ascii ['a']) [ascii ['u']] none,
    .renameTableIndexes (ascii ['a']) (ascii ['b']) (fun _ => false) (fun _ => 0)]

theorem registry_consistent_movedTable : listOf (run (@step Unit _) .new movedTable).tableIndexes (ascii ['b']) =
      [uniqueIndexName (ascii ['b']) [ascii ['u']],pkIndexName (ascii ['b'])] ∧ Registered Unit movedTable :=
  ⟨by decide +kernel,registry_consistent movedTable (by decide +kernel) (by decide +kernel)⟩

/-- Another table has an index under the name that the primary key of the renamed table gets. -/
def squattedName : List Step :=
  [.createManualIndex (pkIndexName (ascii ['b'])) (ascii ['o']) [ascii ['x']],
    .createPkIndex (ascii ['a']) [ascii ['i']],
    .renameTableIndexes (ascii ['a']) (ascii ['b']) (fun _ => false) (fun _ => 0)]

/-- The rename evicts the index of the other table, which still lists it. -/
theorem rename_evicts_other_index : ¬∀ steps, Guarded (@step Unit _) RenamesFresh .new steps → Registered Unit steps := by
  intro h
  have hrename := h squattedName (by decide +kernel)
  obtain ⟨entry,he,ht⟩ :=
    (hrename.consistent.listed (ascii ['o']) (pkIndexName (ascii ['b']))).mp (by decide +kernel)
  have hevicted : ((run (@step Unit _) .new squattedName).indexes.lookup (pkIndexName (ascii ['b']))).map (·.table) =
      some (ascii ['b']) := by decide +kernel
  rw [he,Option.map_some,ht] at hevicted
  exact absurd hevicted (by decide)

end

end HeliosNano.Storage.IndexRegistry
