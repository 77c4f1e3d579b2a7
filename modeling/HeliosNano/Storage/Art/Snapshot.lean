import HeliosNano.Storage.Art.Iterator
import HeliosNano.Storage.IndexRegistry

namespace HeliosNano.Storage.Art
open Foundation Foundation.Multimap List AList

def AdaptiveRadixTree.len (t : AdaptiveRadixTree) : Nat := t.counters.size

variable (entries : List (Bytes × List RowId))

def pushEntry (item : Bytes × RowId) : List (Bytes × List RowId) :=
  match entries.getLast? with
  | some (lastKey,ids) =>
    if lastKey = item.1 then entries.dropLast ++ [(lastKey,ids ++ [item.2])] else entries ++ [(item.1,[item.2])]
  | none => entries ++ [(item.1,[item.2])]

def groupEntries (items : List (Bytes × RowId)) : List (Bytes × List RowId) := items.foldl pushEntry []

def entryItems : List (Bytes × RowId) :=
  entries.flatMap fun entry => entry.2.map fun rowId => (entry.1,rowId)

theorem entryItems_append (a b : List (Bytes × List RowId)) : entryItems (a ++ b) = entryItems a ++ entryItems b :=
  flatMap_append

theorem entryItems_pushEntry (item : Bytes × RowId) : entryItems (pushEntry entries item) = entryItems entries ++ [item] := by
  obtain ⟨key,rowId⟩ := item
  cases entries using List.reverseRecOn with
  | nil => rfl
  | append_singleton front last =>
    obtain ⟨lastKey,ids⟩ := last
    rw [pushEntry,getLast?_concat]
    dsimp only
    by_cases hkey : lastKey = key
    · subst hkey
      rw [if_pos rfl,dropLast_concat,entryItems_append,entryItems_append,append_assoc]
      simp [entryItems]
    · rw [if_neg hkey,entryItems_append]
      rfl

theorem entryItems_groupEntries (items : List (Bytes × RowId)) : entryItems (groupEntries items) = items := by
  have hf : ∀ entries, entryItems (items.foldl pushEntry entries) = entryItems entries ++ items := by
    induction items with
    | nil => exact fun entries => (append_nil _).symm
    | cons item rest ih =>
      intro entries
      rw [foldl_cons,ih,entryItems_pushEntry,append_assoc]
      rfl
  exact hf []

/-- The row ids of one entry; the loop stops at the first error. -/
def loadIds (key : Bytes) (t : AdaptiveRadixTree) (loaded : Nat) : List RowId → AdaptiveRadixTree × Except Failure Nat
  | [] => (t,.ok loaded)
  | rowId::rest =>
    match t.insert key rowId with
    | (t,.error e) => (t,.error e)
    | (t,.ok ()) => loadIds key t (loaded+1) rest

def loadEntries (t : AdaptiveRadixTree) (loaded : Nat) :
    List (Bytes × List RowId) → AdaptiveRadixTree × Except Failure Nat
  | [] => (t,.ok loaded)
  | (key,ids)::rest =>
    match loadIds key t loaded ids with
    | (t,.error e) => (t,.error e)
    | (t,.ok loaded) => loadEntries t loaded rest

/-- A tree into which the items have been inserted in order. -/
structure Loaded (t : AdaptiveRadixTree) (items : List (Bytes × RowId)) : Prop where
  refines : t.Refines (items : Multimap Bytes RowId)
  lookups : ∀ key, t.getAll key = listAt items key
  leafy : ∀ root ∈ t.root, Leafy root

structure Loadable (indexType : ArtIndexType) (items : List (Bytes × RowId)) : Prop where
  short : ∀ item ∈ items, item.1.length ≤ u32Max
  named : indexType = .primaryKey → ∀ item ∈ items, item.1 ≠ []
  once : indexType.isUnique → (items.map (·.1)).Nodup

section
variable {t : AdaptiveRadixTree} {items rest : List (Bytes × RowId)} {key : Bytes} {value : RowId}

theorem Rep.mem_inners_of_visit {node : ArtNode} {path : Bytes} {total : Holdings} (h : Rep node path total)
    {m : Inner ArtNode} {depth : Nat} (hvisit : (ArtNode.inner m,depth) ∈ visits key node path.length) : m ∈ node.inners := by
  induction h using Rep.inductOn with
  | leaf leaf path reached =>
    rw [visits.eq_def] at hvisit
    cases mem_singleton.mp hvisit
  | inner n path hidden below total h ih =>
    rw [visits.eq_def,mem_cons] at hvisit
    obtain heq | hvisit := hvisit
    · cases heq
      exact h.wf.mem_inners.mpr (.inl rfl)
    dsimp only at hvisit
    split at hvisit
    · exact absurd hvisit not_mem_nil
    split at hvisit
    · split at hvisit
      next child hg =>
        refine h.wf.mem_inners.mpr (.inr ⟨_,child,hg,ih _ child hg ?_⟩)
        rw [length_append,length_append,← h.prefixLen]
        exact hvisit
      · exact absurd hvisit not_mem_nil
    · exact absurd hvisit not_mem_nil

theorem Rep.admits_of_leafy {root : ArtNode} {total : Holdings} (h : Rep root [] total) (hl : Leafy root)
    (hsh : key.length ≤ u32Max) : ∀ visit ∈ visits key root 0, Admits key visit := by
  rintro ⟨node,depth⟩ hv
  cases node with
  | inner n => exact .inr (hl n (h.mem_inners_of_visit hv))
  | leaf leaf =>
    refine .inr ?_
    have hle := commonLen_le_left (key.drop depth) (leaf.key.drop depth)
    rw [length_drop] at hle
    omega

theorem listAt_eq_nil_of_nodup (hnd : ((items ++ (key,value)::rest).map (·.1)).Nodup) : listAt items key = [] := by
  rw [map_append,map_cons,nodup_append] at hnd
  rw [listAt,map_eq_nil_iff,filter_eq_nil_iff]
  intro item hi heq
  exact hnd.2.2 _ (mem_map_of_mem hi) _ mem_cons_self (by simpa using heq)

theorem Loaded.insert (h : Loaded t items) (hl : Loadable t.indexType (items ++ (key,value)::rest)) :
    ∃ t', t.insert key value = (t',.ok ()) ∧ Loaded t' (items ++ [(key,value)]) ∧ t'.indexType = t.indexType := by
  have hm : (key,value) ∈ items ++ (key,value)::rest := mem_append_right _ mem_cons_self
  have hn : ¬(key = [] ∧ t.indexType = .primaryKey) := fun hno => hl.named hno.2 _ hm hno.1
  have hnew : ¬(t.indexType.isUnique ∧ valuesAt (items : Multimap Bytes RowId) key ≠ 0) := by
    rintro ⟨hu,hh⟩
    rw [← coe_listAt,listAt_eq_nil_of_nodup (hl.once hu)] at hh
    exact hh rfl
  have hopen : ∀ root ∈ t.root, ∀ visit ∈ visits key root 0, Admits key visit := by
    intro root hr
    have hrp := h.refines.rep
    rw [hr] at hrp
    exact Rep.admits_of_leafy hrp (h.leafy root hr) (hl.short _ hm)
  obtain ⟨t',heq,hrf,hty,hlk,hlf⟩ := h.refines.insert_new hn hnew hopen
  refine ⟨t',heq,⟨?_,fun k => ?_,hlf h.leafy⟩,hty⟩
  · have ha : ((key,value) ::ₘ (items : Multiset (Bytes × RowId))) = ↑(items ++ [(key,value)]) :=
      Multiset.coe_eq_coe.mpr (perm_append_singleton _ _).symm
    rw [ha] at hrf
    exact hrf
  · rw [hlk,h.lookups,listAt_append]
    refine congrArg (_ ++ ·) ?_
    exact (listAt_map_mk [value] k key).symm

theorem Loaded.loadIds {ids : List RowId} (h : Loaded t items)
    (hl : Loadable t.indexType (items ++ (ids.map fun rowId => (key,rowId)) ++ rest)) :
    ∃ t', loadIds key t items.length ids = (t',.ok (items ++ ids.map fun rowId => (key,rowId)).length) ∧
      Loaded t' (items ++ ids.map fun rowId => (key,rowId)) ∧ t'.indexType = t.indexType := by
  induction ids generalizing t items with
  | nil =>
    rw [map_nil,append_nil]
    exact ⟨t,rfl,h,rfl⟩
  | cons rowId ids ih =>
    rw [map_cons,append_assoc,cons_append] at hl
    obtain ⟨t₁,heq,h₁,hty⟩ := h.insert hl
    have hits : items ++ (rowId::ids).map (fun rowId => (key,rowId)) =
        items ++ [(key,rowId)] ++ ids.map fun rowId => (key,rowId) := by simp
    rw [Art.loadIds,heq,hits]
    have hl₁ : Loadable t₁.indexType (items ++ [(key,rowId)] ++ (ids.map fun rowId => (key,rowId)) ++ rest) := by
      rw [hty]
      simpa using hl
    obtain ⟨t',hok,h',ht'⟩ := ih h₁ hl₁
    rw [length_append] at hok
    exact ⟨t',hok,h',ht'.trans hty⟩

theorem Loaded.loadEntries {entries : List (Bytes × List RowId)} (h : Loaded t items)
    (hl : Loadable t.indexType (items ++ entryItems entries)) :
    ∃ t', loadEntries t items.length entries = (t',.ok (items ++ entryItems entries).length) ∧
      Loaded t' (items ++ entryItems entries) := by
  induction entries generalizing t items with
  | nil => exact ⟨t,by simp [Art.loadEntries,entryItems],by simpa [entryItems] using h⟩
  | cons entry rest ih =>
    obtain ⟨key,ids⟩ := entry
    have hits : items ++ entryItems ((key,ids)::rest) =
        items ++ (ids.map fun rowId => (key,rowId)) ++ entryItems rest := by simp [entryItems]
    rw [hits] at hl ⊢
    obtain ⟨t₁,hok,h₁,hty⟩ := h.loadIds hl
    rw [← hty] at hl
    rw [Art.loadEntries,hok]
    exact ih h₁ hl

end

/-- What the checks of `insert` keep out of the multimap. -/
def Admissible (indexType : ArtIndexType) (m : Multimap Bytes RowId) : Prop :=
  (indexType.isUnique → ∀ key, (valuesAt m key).card ≤ 1) ∧ (indexType = .primaryKey → valuesAt m [] = 0)

section
variable {indexType : ArtIndexType} {m m' : Multimap Bytes RowId} {t : AdaptiveRadixTree}

theorem Admissible.mono (h : Admissible indexType m) (hle : m' ≤ m) : Admissible indexType m' := by
  refine ⟨fun hu key => ?_,fun hpk => ?_⟩
  · exact Nat.le_trans (Multiset.card_le_card (valuesAt_le hle key)) (h.1 hu key)
  · have he := valuesAt_le hle []
    rw [h.2 hpk] at he
    exact Multiset.le_zero.mp he

theorem Admissible.apply (h : Admissible indexType m) (op : Op) : Admissible indexType (op.apply indexType m) := by
  cases op with
  | insert key value =>
    rw [Op.apply]
    split
    · exact h
    next hno =>
      rw [not_or,not_and,not_and,not_not] at hno
      refine ⟨fun hu k => ?_,fun hpk => ?_⟩
      · rw [valuesAt_cons]
        by_cases hk : k = key
        · rw [if_pos hk,hk,hno.2 hu]
          exact Nat.le_refl 1
        · rw [if_neg hk,zero_add]
          exact h.1 hu k
      · rw [valuesAt_cons,if_neg fun hk => hno.1 hk.symm hpk,zero_add]
        exact h.2 hpk
  | remove key => exact h.mono (Multiset.filter_le _ _)
  | removeValue key rowId => exact h.mono (Multiset.erase_le _ _)

theorem AdaptiveRadixTree.Refines.listAt_iter (h : t.Refines m) (hp : ∀ root ∈ t.root, Plain root) (key : Bytes) :
    listAt t.iter.collect key = t.getAll key := by
  have hrp := h.rep
  rw [t.collect_iter,AdaptiveRadixTree.getAll]
  cases hr : t.root with
  | none => rfl
  | some root =>
    rw [hr] at hrp
    exact (Rep.listAt_traverse hrp (.inl ⟨rfl,hp root hr⟩) key).trans (if_pos nil_prefix)

theorem AdaptiveRadixTree.Refines.coe_collect_iter (h : t.Refines m) (hp : ∀ root ∈ t.root, Plain root) :
    (t.iter.collect : Multimap Bytes RowId) = m := ext_valuesAt fun key => by
  rw [← coe_listAt,h.listAt_iter hp,h.getAll]

theorem AdaptiveRadixTree.Refines.round_trip (h : t.Refines m) (hm : Admissible t.indexType m)
    (hp : ∀ root ∈ t.root, Plain root) (hsh : ∀ key, t.getAll key ≠ [] → key.length ≤ u32Max) (name : String) :
    ∃ t', loadEntries (.new name t.indexType) 0 (groupEntries t.iter.collect) = (t',.ok t.len) ∧
      (∀ key, t'.getAll key = t.getAll key) ∧ t'.len = t.len := by
  have hl := h.listAt_iter hp
  have hits := h.coe_collect_iter hp
  have hln : t.iter.collect.length = t.len := by
    rw [← Multiset.coe_card,hits]
    exact h.size.symm
  have hlo : Loadable t.indexType t.iter.collect := by
    refine ⟨fun item hi => hsh _ ?_,fun hpk item hi hn => ?_,fun hu => nodup_keys_of_listAt fun key => ?_⟩
    · rw [← hl]
      exact mem_of_listAt hi
    · refine mem_of_listAt hi ?_
      rw [hl,hn,← Multiset.coe_eq_zero,h.getAll]
      exact hm.2 hpk
    · rw [hl,← Multiset.coe_card,h.getAll]
      exact hm.1 hu key
  have he : Loaded (.new name t.indexType) [] := ⟨.new name t.indexType,fun _ => rfl,nofun⟩
  have hg := entryItems_groupEntries t.iter.collect
  obtain ⟨t',hok,hld⟩ := @Loaded.loadEntries _ _ (groupEntries t.iter.collect) he (by
    rw [hg]
    exact hlo)
  rw [hg,nil_append] at hok hld
  rw [hln] at hok
  refine ⟨t',hok,fun key => (hld.lookups key).trans (hl key),?_⟩
  rw [← hln,← Multiset.coe_card]
  exact hld.refines.size

end

def indexTypeTag : ArtIndexType → Nat
  | .primaryKey => 0
  | .foreignKey => 1
  | .unique => 2
  | .manual => 3

open IndexRegistry (Name IndexEntry ArtIndexManager)

structure ArtIndexSnapshot where
  name : Name
  table : Name
  columns : List Name
  indexType : Nat
  entries : List (Bytes × List RowId)

abbrev Manager := ArtIndexManager AdaptiveRadixTree

def snapshotOf (name : Name) (entry : IndexEntry AdaptiveRadixTree) : ArtIndexSnapshot where
  name := name
  table := entry.table
  columns := entry.columns
  indexType := indexTypeTag entry.indexType
  entries := groupEntries entry.tree.contents.iter.collect

def exportTableSnapshot (s : Manager) (table : Name) : List ArtIndexSnapshot :=
  ((s.indexes.entries.filter fun entry => entry.2.table = table).map fun entry => snapshotOf entry.1 entry.2).insertionSort
    fun a b => a.name ≤ b.name

inductive LoadError
  | indexNotFound (name : Name)
  | internal (message : Name)
  | insert (e : Failure)
deriving DecidableEq

/-- The entries of a snapshot into an index that is registered and empty. The statistics of
dense integer keys are left out. -/
def loadIndexEntries (s : Manager) (name : Name) (entries : List (Bytes × List RowId)) : Manager × Except LoadError Nat :=
  match s.indexes.lookup name with
  | none => (s,.error (.indexNotFound name))
  | some entry =>
    if entry.tree.contents.len ≠ 0 then
      (s,.error (.internal (textBytes "Refusing to load snapshot into non-empty index '" ++ name ++ textBytes "' (" ++
        decimal entry.tree.contents.len ++ textBytes " entries)")))
    else
      let (t,answer) := loadEntries entry.tree.contents 0 entries
      ({ s with indexes := s.indexes.insert name { entry with tree := { entry.tree with contents := t } } },
        answer.mapError .insert)

/-- An index reached by safe calls on it, none of whose keys ends below a prefix that is only
stored in part or is longer than a prefix can be. -/
structure Exportable (entry : IndexEntry AdaptiveRadixTree) : Prop where
  reached : ∃ name ops, Guarded AdaptiveRadixTree.step Safe (.new name entry.indexType) ops ∧
    entry.tree.contents = run AdaptiveRadixTree.step (.new name entry.indexType) ops
  plain : ∀ root ∈ entry.tree.contents.root, Plain root
  short : ∀ key, entry.tree.contents.getAll key ≠ [] → key.length ≤ u32Max

variable {entry : IndexEntry AdaptiveRadixTree}

theorem exists_snapshot {s : Manager} {table name : Name}
    (he : s.indexes.lookup name = some entry) (htb : entry.table = table) {snapshot : ArtIndexSnapshot} :
    snapshot ∈ exportTableSnapshot s table ∧ snapshot.name = name ↔ snapshot = snapshotOf name entry := by
  rw [exportTableSnapshot,(perm_insertionSort _ _).mem_iff,mem_map]
  constructor
  · rintro ⟨⟨⟨name',entry'⟩,hm,rfl⟩,hn⟩
    obtain rfl : name' = name := hn
    have hlk := mem_lookup_iff.mpr (mem_of_mem_filter hm)
    rw [he] at hlk
    cases hlk
    rfl
  · rintro rfl
    refine ⟨⟨⟨name,entry⟩,mem_filter.mpr ⟨mem_lookup_iff.mp he,by simpa using htb⟩,rfl⟩,rfl⟩

/-- Every index of a table is exported once, and its entries, loaded into an empty index of
its type, give back its lookups and its size. -/
theorem snapshot_round_trip {s : Manager} {table name : Name}
    (hentry : s.indexes.lookup name = some entry) (htable : entry.table = table) (hexportable : Exportable entry) :
    ∃! snapshot, (snapshot ∈ exportTableSnapshot s table ∧ snapshot.name = name) ∧
      ∀ (fresh : Manager) (slot : IndexEntry AdaptiveRadixTree) (label : String),
        fresh.indexes.lookup name = some slot → slot.tree.contents = .new label entry.indexType →
        ∃ loaded, (loadIndexEntries fresh name snapshot.entries).2 = .ok entry.tree.contents.len ∧
          (loadIndexEntries fresh name snapshot.entries).1.indexes.lookup name = some loaded ∧
          (∀ key, loaded.tree.contents.getAll key = entry.tree.contents.getAll key) ∧
          loaded.tree.contents.len = entry.tree.contents.len := by
  refine ⟨snapshotOf name entry,⟨(exists_snapshot hentry htable).mpr rfl,?_⟩,?_⟩
  · intro fresh slot label hslot hnew
    obtain ⟨treeName,ops,hsafe,hrun⟩ := hexportable.reached
    obtain ⟨hrefines,htype⟩ := (AdaptiveRadixTree.Refines.new treeName entry.indexType).run hsafe
    have hm := run_invariant (Op.apply entry.indexType) (Admissible entry.indexType) (fun m op h => h.apply op)
      (⟨fun _ _ => Nat.zero_le _,fun _ => rfl⟩ : Admissible entry.indexType 0) ops
    rw [← hrun] at hrefines htype
    change entry.tree.contents.indexType = entry.indexType at htype
    have hm' : Admissible entry.tree.contents.indexType (run (Op.apply entry.indexType) 0 ops) := by
      rw [htype]
      exact hm
    rw [← htype] at hnew
    obtain ⟨t',hok,hlookups,hlen⟩ := AdaptiveRadixTree.Refines.round_trip hrefines hm' hexportable.plain
      hexportable.short label
    have hempty : ¬slot.tree.contents.len ≠ 0 := by
      rw [hnew]
      exact fun hno => hno rfl
    rw [← hnew] at hok
    have hload : loadIndexEntries fresh name (snapshotOf name entry).entries =
        ({ fresh with
            indexes := fresh.indexes.insert name { slot with tree := { slot.tree with contents := t' } } },
          .ok entry.tree.contents.len) := by
      rw [loadIndexEntries,hslot]
      dsimp only
      rw [if_neg hempty,snapshotOf,hok]
      rfl
    rw [hload]
    exact ⟨_,rfl,lookup_insert _,hlookups,hlen⟩
  · rintro snapshot ⟨hsnapshot,-⟩
    exact (exists_snapshot hentry htable).mp hsnapshot

/-- A manual index `i` on the column `c` of the table `t`. -/
def indexOn (contents : AdaptiveRadixTree) : IndexEntry AdaptiveRadixTree :=
  .new ⟨ascii ['i'],ascii ['t'],[ascii ['c']],.manual,contents⟩

def managerOf (contents : AdaptiveRadixTree) : Manager :=
  { (ArtIndexManager.new : Manager) with indexes := AList.insert (ascii ['i']) (indexOn contents) ∅ }

def manualIndex (ops : List Op) : AdaptiveRadixTree := run AdaptiveRadixTree.step (.new "i" .manual) ops

theorem snapshot_round_trip_prefixes :
    let t := manualIndex [.insert [1,2] 5,.insert [1,2,3] 6,.insert longKey 7,.insert [1,2] 8]
    Exportable (indexOn t) ∧ ∃ snapshot ∈ exportTableSnapshot (managerOf t) (ascii ['t']),
      (loadIndexEntries (managerOf (.new "i" .manual)) (ascii ['i']) snapshot.entries).2 = .ok 4 := by
  intro t
  have hsafe : Guarded AdaptiveRadixTree.step Safe (.new "i" .manual)
      [.insert [1,2] 5,.insert [1,2,3] 6,.insert longKey 7,.insert [1,2] 8] := by decide +kernel
  have hplain : ∀ root ∈ t.root, Plain root := by decide +kernel
  have hitems : ∀ item ∈ t.iter.collect, item.1.length ≤ u32Max := by decide +kernel
  obtain ⟨hrefines,-⟩ := (AdaptiveRadixTree.Refines.new "i" .manual).run hsafe
  have hexportable : Exportable (indexOn t) := by
    refine ⟨⟨"i",_,hsafe,rfl⟩,hplain,fun key hkey => ?_⟩
    have hlist : listAt t.iter.collect key = t.getAll key := AdaptiveRadixTree.Refines.listAt_iter hrefines hplain key
    change t.getAll key ≠ [] at hkey
    rw [← hlist] at hkey
    obtain ⟨value,hvalue⟩ := exists_mem_of_ne_nil _ hkey
    obtain ⟨item,hitem,-⟩ := mem_map.mp hvalue
    obtain ⟨hmem,heq⟩ := mem_filter.mp hitem
    rw [← of_decide_eq_true heq]
    exact hitems item hmem
  obtain ⟨snapshot,⟨⟨hmem,-⟩,hload⟩,-⟩ := snapshot_round_trip (s := managerOf t)
    (lookup_insert _) rfl hexportable
  obtain ⟨loaded,hok,-⟩ := hload (managerOf (.new "i" .manual)) _ "i" (lookup_insert _) rfl
  have hlen : (indexOn t).tree.contents.len = 4 := by decide +kernel
  rw [hlen] at hok
  exact ⟨hexportable,snapshot,hmem,hok⟩

/-- A key of eleven bytes that ends at an inner node is exported under its first ten. -/
theorem long_prefix_changes_key :
    let t := manualIndex [.insert longKey 1,.insert (longKey ++ [1]) 2]
    let snapshots := exportTableSnapshot (managerOf t) (ascii ['t'])
    let fresh := managerOf (.new "i" .manual)
    snapshots.map (·.entries) = [[(longKey.take 10,[1]),(longKey ++ [1],[2])]] ∧ t.getAll longKey = [1] ∧
      ∀ snapshot ∈ snapshots, ∀ loaded ∈ (loadIndexEntries fresh snapshot.name snapshot.entries).1.indexes.lookup (ascii ['i']),
        loaded.tree.contents.getAll longKey = [] := by
  decide +kernel

end HeliosNano.Storage.Art
