import HeliosNano.Storage.FilterIndex

namespace HeliosNano.Storage.FilterIndex
open Foundation Sql List Function World

variable {deltas : List (String × BloomFilterDelta)} {column : String} {d : BloomFilterDelta}

theorem mem_insertDelta_of_ne
    {e : String × BloomFilterDelta} (hm : e ∈ deltas) (hne : e.1 ≠ column) : e ∈ insertDelta deltas column d :=
  mem_append_left _ (mem_filter.mpr ⟨hm,decide_eq_true hne⟩)

theorem mem_insertDelta_self : (column,d) ∈ insertDelta deltas column d := mem_append_right _ mem_cons_self

section
variable (o : Outside) (config : FilterIndexConfig)
variable {v : Value}

theorem mem_bloomDeltasOf {written : List (String × Value)} (hnd : (written.map Prod.fst).Nodup) {column : String}
    (hmem : (column,v) ∈ written) (hv : v ≠ .null) :
    (column,computeBloomDelta o config v) ∈ bloomDeltasOf o config written := by
  rw [bloomDeltasOf]
  generalize ([] : List (String × BloomFilterDelta)) = deltas
  -- a delta that is there stays unless its column is written again
  have hk : ∀ (rest : List (String × Value)) (deltas : List (String × BloomFilterDelta)) (e : String × BloomFilterDelta),
      e ∈ deltas → e.1 ∉ rest.map Prod.fst →
        e ∈ rest.foldl (fun deltas cell =>
          if cell.2 = .null then deltas else insertDelta deltas cell.1 (computeBloomDelta o config cell.2)) deltas := by
    intro rest
    induction rest with
    | nil => exact fun deltas e he _ => he
    | cons cell rest ih =>
      intro deltas e he hn
      rw [map_cons,mem_cons,not_or] at hn
      refine ih _ e ?_ hn.2
      dsimp only
      split
      · exact he
      · exact mem_insertDelta_of_ne he hn.1
  induction written generalizing deltas with
  | nil => exact absurd hmem not_mem_nil
  | cons cell rest ih =>
    rw [map_cons,nodup_cons] at hnd
    obtain rfl | hmem := mem_cons.mp hmem
    · rw [foldl_cons,if_neg hv]
      exact hk rest _ _ mem_insertDelta_self hnd.1
    · exact ih hnd.2 hmem _

def Carries (deltas : String → Option BloomFilterDelta) (column : String) (i : Nat) : Prop :=
  ∃ d, deltas column = some d ∧ (i/wordBits,bitMask i) ∈ d.bitsToSet

variable {deltas : String → Option BloomFilterDelta} {column : String} {i : Nat}

theorem Carries.mergeBloom (h : Carries deltas column i) (e : String × BloomFilterDelta) :
    Carries (mergeBloom deltas e) column i := by
  obtain ⟨d,hd,hm⟩ := h
  by_cases hc : column = e.1
  · subst hc
    refine ⟨_,update_self ..,?_⟩
    rw [hd]
    exact mem_append_left _ hm
  · exact ⟨d,(update_of_ne hc ..).trans hd,hm⟩

theorem Carries.foldl (h : Carries deltas column i) (merged : List (String × BloomFilterDelta)) :
    Carries (merged.foldl FilterIndex.mergeBloom deltas) column i := by
  induction merged generalizing deltas with
  | nil => exact h
  | cons e merged ih => exact ih (h.mergeBloom e)

theorem carries_foldl_of_mem {merged : List (String × BloomFilterDelta)} {d : BloomFilterDelta} (hmem : (column,d) ∈ merged)
    (hb : (i/wordBits,bitMask i) ∈ d.bitsToSet) : Carries (merged.foldl mergeBloom deltas) column i := by
  induction merged generalizing deltas with
  | nil => exact absurd hmem not_mem_nil
  | cons e merged ih =>
    obtain rfl | hmem := mem_cons.mp hmem
    · exact Carries.foldl ⟨_,update_self ..,mem_append_right _ hb⟩ merged
    · exact ih hmem

theorem mem_computeBloomDelta (h : i ∈ deltaPositions o config v) :
    (i/wordBits,bitMask i) ∈ (computeBloomDelta o config v).bitsToSet := mem_map.mpr ⟨i,h,rfl⟩

def pendingValues (deltas : Nat → Option ZoneMapDelta) (blockId : Nat) (column : String) : List Value :=
  ((deltas blockId).map (·.valuesOf column)).getD []

theorem ZoneMapDelta.valuesOf_append (updates updates' : List ZoneColumnUpdate) (rows rows' rows'' : Nat) (column : String) :
    (⟨updates ++ updates',rows⟩ : ZoneMapDelta).valuesOf column =
      (⟨updates,rows'⟩ : ZoneMapDelta).valuesOf column ++ (⟨updates',rows''⟩ : ZoneMapDelta).valuesOf column := by
  simp only [valuesOf,filter_append,map_append]

theorem pendingValues_mergeZone (deltas : Nat → Option ZoneMapDelta) (zoneDelta : Option (Nat × ZoneMapDelta)) (blockId : Nat)
    (column : String) : pendingValues (mergeZone deltas zoneDelta) blockId column =
      pendingValues deltas blockId column ++ valuesOf zoneDelta blockId column := by
  cases zoneDelta with
  | none => exact (append_nil _).symm
  | some entry =>
    obtain ⟨b,d⟩ := entry
    rw [mergeZone,valuesOf]
    by_cases hb : b = blockId
    · subst hb
      rw [pendingValues,update_self,Option.map_some,Option.getD_some,if_pos rfl,pendingValues]
      cases deltas b with
      | none => rfl
      | some existing => exact ZoneMapDelta.valuesOf_append ..
    · rw [pendingValues,update_of_ne (Ne.symm hb),if_neg hb,append_nil]
      rfl

variable {columns : List String} {rowId : RowId} {tuple : Tuple}

theorem valuesOf_zoneDeltaOf (he : config.enableZoneMap = true) :
    v ∈ valuesOf (zoneDeltaOf config columns rowId tuple) (rowId/blockSize) column ↔
      (column,v) ∈ cells columns tuple ∧ v ≠ .null := by
  simp only [zoneDeltaOf,he,if_true,valuesOf,ZoneMapDelta.valuesOf,mem_map,mem_filter,
    ZoneColumnUpdate.new]
  constructor
  · rintro ⟨u,⟨⟨cell,hc,rfl⟩,hk⟩,rfl⟩
    simp only [Bool.and_eq_true,Bool.not_eq_true',decide_eq_false_iff_not,beq_iff_eq] at hk
    obtain ⟨hn,rfl⟩ := hk
    exact ⟨hc,hn⟩
  · rintro ⟨hc,hn⟩
    exact ⟨_,⟨⟨_,hc,rfl⟩,by simp [hn]⟩,rfl⟩

theorem valuesOf_zoneDeltaOf_of_ne {blockId : Nat}
    (hne : blockId ≠ rowId/blockSize) : valuesOf (zoneDeltaOf config columns rowId tuple) blockId column = [] := by
  rw [zoneDeltaOf]
  split
  · exact if_neg (Ne.symm hne)
  · rfl

end

section
variable (o : Outside)

structure Records (range : Option ValueRange) (done : List Value) : Prop where
  min : (range.getD .empty).min = done.foldl (lower (compareValues o)) none
  max : (range.getD .empty).max = done.foldl (upper (compareValues o)) none
  nonempty : range = none ∨ done ≠ []

variable {o}
variable {done : List Value} {v : Value} {f : BloomFilter}
variable {column : String} {i : Nat}

theorem Records.applyUpdate {columns : String → Option ValueRange} (h : Records o (columns column) done) (u : ZoneColumnUpdate) :
    Records o (BlockZoneMap.applyUpdate o columns u column) (done ++ (⟨[u],0⟩ : ZoneMapDelta).valuesOf column) := by
  rw [BlockZoneMap.applyUpdate]
  have hvl : (⟨[u],0⟩ : ZoneMapDelta).valuesOf column =
      if !u.isNull && u.columnName == column then [u.value] else [] := by
    simp only [ZoneMapDelta.valuesOf,filter_cons,filter_nil]
    split
    · rfl
    · rfl
  rw [hvl]
  cases hn : u.isNull with
  | true =>
    rw [if_pos rfl,Bool.not_true,Bool.false_and,if_neg Bool.false_ne_true,append_nil]
    exact h
  | false =>
    rw [if_neg Bool.false_ne_true,Bool.not_false,Bool.true_and]
    have hv : u.value ≠ .null := of_decide_eq_false (u.isNull_eq.symm.trans hn)
    by_cases hc : u.columnName = column
    · rw [hc,update_self,beq_self_eq_true,if_pos rfl]
      refine ⟨?_,?_,.inr (append_ne_nil_of_right_ne_nil _ (cons_ne_nil _ _))⟩
      · rw [Option.getD_some,ValueRange.update,if_neg hv,foldl_append,← h.min]
        rfl
      · rw [Option.getD_some,ValueRange.update,if_neg hv,foldl_append,← h.max]
        rfl
    · rw [update_of_ne (Ne.symm hc),if_neg (fun hb => hc (eq_of_beq hb)),append_nil]
      exact h

theorem Records.apply {block : BlockZoneMap} (h : Records o (block.columns column) done)
    (d : ZoneMapDelta) : Records o ((block.apply o d).columns column) (done ++ d.valuesOf column) := by
  obtain ⟨updates,rows⟩ := d
  rw [BlockZoneMap.apply]
  generalize block.columns = columns at h
  induction updates generalizing columns done with
  | nil =>
    rw [ZoneMapDelta.valuesOf,filter_nil,map_nil,append_nil]
    exact h
  | cons u updates ih =>
    rw [← singleton_append,ZoneMapDelta.valuesOf_append [u] updates rows 0 rows column,← append_assoc]
    exact ih _ (h.applyUpdate u)

theorem Records.mightContain {range : ValueRange} (h : Records o (some range) done)
    (hc : Chain (compareValues o) done) (hmm : v ∈ done) (hv : v ≠ .null) : range.mightContain o v = true := by
  obtain ⟨⟨least,hls,order,hl,hne⟩,⟨greatest,hg,order',hh,hne'⟩⟩ := hc.between hmm
  have hmn : range.min = some least := h.min.trans hls
  have hm : range.max = some greatest := h.max.trans hg
  rw [ValueRange.mightContain,if_neg hv,hmn,hm]
  simp only [hl,hh,Option.map_some,Option.getD_some,Bool.and_eq_true,bne_iff_ne]
  exact ⟨hne,hne'⟩

structure BloomFilter.Sized (f : BloomFilter) : Prop where
  numBits : f.numBits = defaultNumBits
  numHashes : f.numHashes = defaultNumHashes
  words : f.bits.length = (defaultNumBits+63)/64

theorem sized_forDefaultElements : BloomFilter.forDefaultElements.Sized := ⟨rfl,rfl,length_replicate⟩

theorem BloomFilter.Sized.applyTo (h : f.Sized) (d : BloomFilterDelta) : (d.applyTo f).Sized :=
  ⟨h.numBits,h.numHashes,(length_orWords _).trans h.words⟩

variable (o) in
def filterPositions (v : Value) : List Nat :=
  (List.range defaultNumHashes).map (BloomFilter.forDefaultElements.getBitIndex (hashPair o v))

theorem lt_of_mem_filterPositions (h : i ∈ filterPositions o v) : i < defaultNumBits := by
  obtain ⟨k,-,rfl⟩ := mem_map.mp h
  exact Nat.mod_lt _ (by decide)

theorem BloomFilter.Sized.checkValue (h : f.Sized)
    (hs : ∀ i ∈ filterPositions o v, getBit f.bits i = true) : f.checkValue o v = true := by
  rw [BloomFilter.checkValue,all_eq_true]
  intro k hk
  have hi : f.getBitIndex (hashPair o v) k = BloomFilter.forDefaultElements.getBitIndex (hashPair o v) k := by
    rw [BloomFilter.getBitIndex,BloomFilter.getBitIndex,h.numBits]
    rfl
  rw [hi]
  rw [h.numHashes] at hk
  exact hs _ (mem_map.mpr ⟨k,hk,rfl⟩)

theorem BloomFilter.Sized.word_lt (h : f.Sized) (hi : i < defaultNumBits) : i/wordBits < f.bits.length := by
  rw [h.words]
  simp only [defaultNumBits,wordBits] at *
  omega

end

section
variable (o : Outside) (config : FilterIndexConfig) (schema : String → List String)

namespace World

/-- The bit is set in the filter of the column, or it will be when the pending deltas are merged. -/
def Reached (w : World) (table column : String) (i : Nat) : Prop :=
  (∃ f, w.bloomFilters table column = some f ∧ getBit f.bits i = true) ∨
    ∃ deltas, w.tableDeltas table = some deltas ∧ Carries deltas.bloomDeltas column i

def pending (w : World) (table : String) (blockId : Nat) (column : String) : List Value :=
  ((w.tableDeltas table).map fun deltas => pendingValues deltas.zoneDeltas blockId column).getD []

structure CellSafe (w : World) (table : String) (rowId : RowId) (column : String) (v : Value) : Prop where
  reached : config.enableBloom = true → ∀ i ∈ filterPositions o v, w.Reached table column i
  tracked : config.enableZoneMap = true → v ∈ w.tracked table (rowId/blockSize) column

/-- The tracker and the worker fit together; nothing is said of the rows. -/
structure Consistent (w : World) : Prop where
  sized : ∀ table column f, w.bloomFilters table column = some f → f.Sized
  withoutBloom : config.enableBloom = false → ∀ table column,
    w.bloomFilters table column = none ∧ ∀ deltas, w.tableDeltas table = some deltas → deltas.bloomDeltas column = none
  withoutZones : config.enableZoneMap = false → ∀ table blockId column, w.tracked table blockId column = []
  comparable : ∀ table blockId column, Chain (compareValues o) (w.tracked table blockId column)
  ranges : ∀ table blockId column, ∃ done,
    w.tracked table blockId column = done ++ w.pending table blockId column ∧
      Records o ((w.zoneMaps table blockId).columns column) done

structure Safe (w : World) : Prop where
  consistent : w.Consistent o config
  live : ∀ table rowId tuple, w.rows table rowId = some tuple → ∀ column v,
    (column,v) ∈ cells (schema table) tuple → v ≠ .null → w.CellSafe o config table rowId column v

def NoneExcluded (w : World) : Prop :=
  ∀ table, w.tableDeltas table = none → ∀ rowId tuple, w.rows table rowId = some tuple → ∀ column v,
    (column,v) ∈ cells (schema table) tuple → v ≠ .null →
      (∀ f, w.bloomFilters table column = some f → f.checkValue o v = true) ∧
        ∀ range, (w.zoneMaps table (rowId/blockSize)).columns column = some range → range.mightContain o v = true

theorem Safe.noneExcluded {w : World} (h : w.Safe o config schema) : w.NoneExcluded o schema := by
  intro table hn rowId tuple hrw column v hc hv
  have hsf := h.live table rowId tuple hrw column v hc hv
  constructor
  · intro f hf
    have hb : config.enableBloom = true := by
      by_contra ho
      have hno := (h.consistent.withoutBloom (Bool.eq_false_iff.mpr ho) table column).1
      rw [hf] at hno
      cases hno
    refine (h.consistent.sized table column f hf).checkValue fun i hi => ?_
    obtain ⟨f',hf',hbt⟩ | ⟨deltas,hd,-⟩ := hsf.reached hb i hi
    · rw [hf] at hf'
      cases hf'
      exact hbt
    · rw [hn] at hd
      cases hd
  · intro range hrn
    obtain ⟨done,hs,hr⟩ := h.consistent.ranges table (rowId/blockSize) column
    have hp : w.pending table (rowId/blockSize) column = [] := by rw [pending,hn,Option.map_none,Option.getD_none]
    rw [hp,append_nil] at hs
    have hz : config.enableZoneMap = true := by
      by_contra ho
      rw [h.consistent.withoutZones (Bool.eq_false_iff.mpr ho)] at hs
      obtain hno | hno := hr.nonempty
      · rw [hrn] at hno
        cases hno
      · exact hno hs.symm
    rw [hrn] at hr
    exact hr.mightContain (hs ▸ h.consistent.comparable table (rowId/blockSize) column)
      (hs ▸ hsf.tracked hz) hv

/-- Later in a run: no bit and no tracked value is lost. -/
structure Later (w w' : World) : Prop where
  reached : ∀ table column i, i < defaultNumBits → w.Reached table column i → w'.Reached table column i
  tracked : ∀ table blockId column, ∀ v ∈ w.tracked table blockId column, v ∈ w'.tracked table blockId column

variable {o config schema} {w w' : World}
variable {table table' : String}
variable {column : String} {rowId : RowId} {delta : FilterDelta}

theorem CellSafe.later (hl : w.Later w') {v : Value}
    (h : w.CellSafe o config table rowId column v) : w'.CellSafe o config table rowId column v :=
  ⟨fun hon i hi => hl.reached table column i (lt_of_mem_filterPositions hi) (h.reached hon i hi),
    fun hon => hl.tracked _ _ _ _ (h.tracked hon)⟩

theorem Safe.later (h : w.Safe o config schema) (hcn : w'.Consistent o config) (hl : w.Later w')
    (hr : w'.rows = w.rows) : w'.Safe o config schema :=
  ⟨hcn,fun table rowId tuple hrw column v hc hv =>
    (h.live table rowId tuple (hr ▸ hrw) column v hc hv).later hl⟩

theorem reached_consolidateTable (h : w.Consistent o config) (table : String) {i : Nat}
    (hi : i < defaultNumBits) (hr : w.Reached table' column i) : (w.consolidateTable o table).Reached table' column i := by
  rw [consolidateTable]
  cases hdl : w.tableDeltas table with
  | none => exact hr
  | some deltas =>
    by_cases htb : table' = table
    · subst htb
      refine .inl ?_
      dsimp only
      rw [update_self,mergeFilters]
      obtain ⟨f,hf,hb⟩ | ⟨deltas',hd',d,hd,hm⟩ := hr
      · cases hd : deltas.bloomDeltas column with
        | none => exact ⟨f,hf,hb⟩
        | some d =>
          rw [hf]
          exact ⟨_,rfl,getBit_orWords_of_getBit _ hb⟩
      · rw [hdl] at hd'
        cases hd'
        rw [hd]
        have hs : ((w.bloomFilters table' column).getD .forDefaultElements).Sized := by
          cases hf : w.bloomFilters table' column with
          | none => exact sized_forDefaultElements
          | some f => exact h.sized table' column f hf
        exact ⟨_,rfl,getBit_orWords_of_mem (hs.word_lt hi) hm⟩
    · simp only [Reached,update_of_ne htb]
      exact hr

theorem consistent_consolidateTable (h : w.Consistent o config) (table : String) :
    (w.consolidateTable o table).Consistent o config := by
  rw [consolidateTable]
  cases hdl : w.tableDeltas table with
  | none => exact h
  | some deltas =>
    refine ⟨?_,?_,h.withoutZones,h.comparable,?_⟩
    · intro table' column f hf
      by_cases htb : table' = table
      · subst htb
        dsimp only at hf
        rw [update_self,mergeFilters] at hf
        cases hd : deltas.bloomDeltas column with
        | none =>
          rw [hd] at hf
          exact h.sized table' column f hf
        | some d =>
          rw [hd] at hf
          cases hf
          refine BloomFilter.Sized.applyTo ?_ d
          cases hf : w.bloomFilters table' column with
          | none => exact sized_forDefaultElements
          | some f => exact h.sized table' column f hf
      · dsimp only at hf
        rw [update_of_ne htb] at hf
        exact h.sized table' column f hf
    · intro ho table' column
      obtain ⟨hfl,hp⟩ := h.withoutBloom ho table' column
      by_cases htb : table' = table
      · subst htb
        dsimp only
        rw [update_self,update_self,mergeFilters,hp deltas hdl]
        exact ⟨hfl,nofun⟩
      · dsimp only
        rw [update_of_ne htb,update_of_ne htb]
        exact ⟨hfl,hp⟩
    · intro table' blockId column
      obtain ⟨done,hs,hr⟩ := h.ranges table' blockId column
      by_cases htb : table' = table
      · subst htb
        refine ⟨done ++ w.pending table' blockId column,?_,?_⟩
        · refine hs.trans ?_
          simp only [pending,update_self,Option.map_none,Option.getD_none,append_nil]
        · dsimp only
          rw [update_self,mergeBlocks,pending,hdl,Option.map_some,Option.getD_some,pendingValues]
          cases hz : deltas.zoneDeltas blockId with
          | none =>
            rw [Option.map_none,Option.getD_none,append_nil]
            exact hr
          | some d => exact hr.apply d
      · refine ⟨done,?_,?_⟩
        · refine hs.trans ?_
          simp only [pending,update_of_ne htb]
        · dsimp only
          rw [update_of_ne htb]
          exact hr

theorem Safe.consolidateTable (h : w.Safe o config schema) (table : String) :
    (w.consolidateTable o table).Safe o config schema := by
  have hsame : (w.consolidateTable o table).tracked = w.tracked ∧ (w.consolidateTable o table).rows = w.rows := by
    rw [World.consolidateTable]
    cases w.tableDeltas table with
    | none | some deltas => exact ⟨rfl,rfl⟩
  refine h.later (consistent_consolidateTable h.consistent table) ⟨fun _ _ _ hi => ?_,fun _ _ _ v hv => ?_⟩ hsame.2
  · exact reached_consolidateTable h.consistent table hi
  · rw [hsame.1]
    exact hv

theorem rows_call (w : World) (table : String) (delta : FilterDelta) : (w.call table delta).rows = w.rows := by
  rw [call]
  split
  · rfl
  rw [recordSuspendedRow]
  split
  · rfl
  · rfl

theorem Later.refl (w : World) : w.Later w := ⟨fun _ _ _ _ h => h,fun _ _ _ _ h => h⟩

theorem untracked_call (h : w.Consistent o config) (ho : ¬w.shouldTrack table = true) (delta : FilterDelta) :
    (w.call table delta).Consistent o config ∧ w.Later (w.call table delta) := by
  rw [call,if_neg ho,recordSuspendedRow]
  split
  · exact ⟨h,Later.refl w⟩
  · exact ⟨⟨h.sized,h.withoutBloom,h.withoutZones,h.comparable,h.ranges⟩,fun _ _ _ _ h => h,fun _ _ _ _ h => h⟩

theorem bufferDelta_tableDeltas_self (w : World) (table : String) (delta : FilterDelta) :
    (w.bufferDelta table delta).tableDeltas table = some (((w.tableDeltas table).getD .new).buffer delta) :=
  update_self ..

theorem bufferDelta_tableDeltas_of_ne (w : World) (h : table' ≠ table) (delta : FilterDelta) :
    (w.bufferDelta table delta).tableDeltas table' = w.tableDeltas table' := update_of_ne h ..

theorem pending_bufferDelta (w : World) (table : String) (delta : FilterDelta) (blockId : Nat) (column : String) :
    (w.bufferDelta table delta).pending table blockId column =
      w.pending table blockId column ++ valuesOf delta.zoneDelta blockId column := by
  rw [pending,bufferDelta_tableDeltas_self,Option.map_some,Option.getD_some,TableFilterDeltas.buffer,pendingValues_mergeZone,
    pending]
  cases w.tableDeltas table with
  | none | some deltas => rfl

theorem noteTracked_self (w : World) (table : String) (zoneDelta : Option (Nat × ZoneMapDelta)) (blockId : Nat) (column : String) :
    (w.noteTracked table zoneDelta).tracked table blockId column =
      w.tracked table blockId column ++ valuesOf zoneDelta blockId column := by
  simp only [noteTracked,update_self]

theorem noteTracked_of_ne (w : World) (h : table' ≠ table) (zoneDelta : Option (Nat × ZoneMapDelta)) :
    (w.noteTracked table zoneDelta).tracked table' = w.tracked table' := update_of_ne h ..

theorem tracked_call (h : w.Consistent o config) (hon : w.shouldTrack table = true)
    (hb : config.enableBloom = false → delta.bloomDeltas = []) (hz : config.enableZoneMap = false → delta.zoneDelta = none)
    (hcm : ∀ blockId column,
      Chain (compareValues o) (w.tracked table blockId column ++ valuesOf delta.zoneDelta blockId column)) :
    (w.call table delta).Consistent o config ∧ w.Later (w.call table delta) := by
  rw [call,if_pos hon]
  refine ⟨⟨h.sized,?_,?_,?_,?_⟩,?_,?_⟩
  · intro ho table' column
    obtain ⟨hf,hp⟩ := h.withoutBloom ho table' column
    refine ⟨hf,fun deltas hd => ?_⟩
    by_cases htb : table' = table
    · subst htb
      obtain rfl := Option.some.inj ((bufferDelta_tableDeltas_self w table' delta).symm.trans hd)
      rw [TableFilterDeltas.buffer,hb ho,foldl_nil]
      cases hd : w.tableDeltas table' with
      | none => rfl
      | some deltas => exact hp deltas hd
    · exact hp deltas ((bufferDelta_tableDeltas_of_ne w htb delta).symm.trans hd)
  · intro ho table' blockId column
    by_cases htb : table' = table
    · subst htb
      rw [noteTracked_self,hz ho]
      exact (append_nil _).trans (h.withoutZones ho table' blockId column)
    · rw [noteTracked_of_ne _ htb]
      exact h.withoutZones ho table' blockId column
  · intro table' blockId column
    by_cases htb : table' = table
    · subst htb
      rw [noteTracked_self]
      exact hcm blockId column
    · rw [noteTracked_of_ne _ htb]
      exact h.comparable table' blockId column
  · intro table' blockId column
    obtain ⟨done,hs,hr⟩ := h.ranges table' blockId column
    refine ⟨done,?_,hr⟩
    by_cases htb : table' = table
    · subst htb
      have hp : ((w.bufferDelta table' delta).noteTracked table' delta.zoneDelta).pending table' blockId column =
        w.pending table' blockId column ++ valuesOf delta.zoneDelta blockId column := pending_bufferDelta ..
      rw [noteTracked_self,hp,← append_assoc,← hs]
      rfl
    · rw [noteTracked_of_ne _ htb]
      refine hs.trans ?_
      simp only [pending,noteTracked,bufferDelta_tableDeltas_of_ne _ htb]
  · rintro table' column i - (hst | ⟨deltas,hd,hc⟩)
    · exact .inl hst
    · by_cases htb : table' = table
      · subst htb
        refine .inr ⟨_,bufferDelta_tableDeltas_self ..,?_⟩
        rw [hd]
        exact hc.foldl delta.bloomDeltas
      · exact .inr ⟨deltas,(bufferDelta_tableDeltas_of_ne w htb delta).trans hd,hc⟩
  · intro table' blockId column v hv
    by_cases htb : table' = table
    · subst htb
      rw [noteTracked_self]
      exact mem_append_left _ hv
    · rw [noteTracked_of_ne _ htb]
      exact hv

theorem Safe.write (h : w.Safe o config schema) {tuple : Option Tuple}
    (hcall : ((w.setRow table rowId tuple).call table delta).Consistent o config ∧
      w.Later ((w.setRow table rowId tuple).call table delta))
    (hnew : ∀ new, tuple = some new → ∀ column v, (column,v) ∈ cells (schema table) new → v ≠ .null →
      ((w.setRow table rowId tuple).call table delta).CellSafe o config table rowId column v) :
    ((w.setRow table rowId tuple).call table delta).Safe o config schema := by
  refine ⟨hcall.1,fun table' rowId' new hr column v hc hv => ?_⟩
  rw [rows_call,setRow] at hr
  dsimp only at hr
  by_cases htb : table' = table
  · subst htb
    rw [update_self] at hr
    by_cases hid : rowId' = rowId
    · subst hid
      rw [update_self] at hr
      exact hnew new hr column v hc hv
    · rw [update_of_ne hid] at hr
      exact (h.live table' rowId' new hr column v hc hv).later hcall.2
  · rw [update_of_ne htb] at hr
    exact (h.live table' rowId' new hr column v hc hv).later hcall.2

end World

/-- What the tracker sets for the value is what a filter looks at. -/
def Aligned (v : Value) : Prop := ∀ i ∈ filterPositions o v, i ∈ deltaPositions o config v

/-- The new tuple of a row leaves no gap: a value that is not NULL is one that the filter does not tell from the old value of the
column, or it is tracked and its positions agree; it is in the range already, or it is tracked; and what is tracked can be compared. -/
structure Covered (w : World) (table : String) (rowId : RowId) (old new : Tuple) : Prop where
  filters : config.enableBloom = true → ∀ (i : Nat) column v, (cells (schema table) new)[i]? = some (column,v) → v ≠ .null →
    (∃ u, u ≠ Value.null ∧ old[i]? = some u ∧ filterInput o u = filterInput o v) ∨
      (w.shouldTrack table = true ∧ (schema table).Nodup ∧ (∀ u, old[i]? = some u → valueEq o u v = false) ∧ Aligned o config v)
  ranges : config.enableZoneMap = true → ∀ column v, (column,v) ∈ cells (schema table) new → v ≠ .null →
    v ∈ w.tracked table (rowId/blockSize) column ∨ w.shouldTrack table = true
  comparable : w.shouldTrack table = true → ∀ blockId column,
    Chain (compareValues o)
      (w.tracked table blockId column ++ valuesOf (zoneDeltaOf config (schema table) rowId new) blockId column)

/-- A step that loses no row: a write leaves no gap, and a guard that has counted rows is dropped when no delta is pending. -/
def Ok (w : World) : Action → Prop
  | .insert table rowId tuple => Covered o config schema w table rowId [] tuple
  | .update table rowId tuple => ∀ old, w.rows table rowId = some old → Covered o config schema w table rowId old tuple
  | .dropGuard suspension =>
    ∀ table, w.guards suspension = some table → 0 < w.rowsAffected suspension → w.tableDeltas table = none
  | _ => True

variable {o config schema} {w w' : World}

theorem insertDeltaOf_eq (columns : List String) (rowId : RowId) (tuple : Tuple) :
    insertDeltaOf o config columns rowId tuple = updateDeltaOf o config columns rowId [] tuple := by
  rw [insertDeltaOf,updateDeltaOf,changedCells]
  simp only [getElem?_nil,Option.any_none,Bool.not_false,filter_true,zipIdx_map_fst]

variable {columns : List String}

theorem mem_changedCells {old new : Tuple} {i : Nat} {column : String} {v : Value}
    (hcl : (cells columns new)[i]? = some (column,v)) (hc : ∀ u, old[i]? = some u → valueEq o u v = false) :
    (column,v) ∈ changedCells o columns old new := by
  refine mem_map.mpr ⟨((column,v),i),mem_filter.mpr ⟨mem_zipIdx_iff_getElem?.mpr hcl,?_⟩,rfl⟩
  dsimp only
  cases hold : old[i]? with
  | none => rfl
  | some u => rw [Option.any_some,hc u hold,Bool.not_false]

theorem map_fst_cells_sublist (columns : List String) (tuple : Tuple) : ((cells columns tuple).map Prod.fst).Sublist columns := by
  induction columns generalizing tuple with
  | nil => exact List.Sublist.refl _
  | cons column columns ih =>
    cases tuple with
    | nil => exact nil_sublist _
    | cons v tuple => exact (ih tuple).cons_cons column

theorem nodup_changedCells (hnd : columns.Nodup) (old new : Tuple) : ((changedCells o columns old new).map Prod.fst).Nodup := by
  have hs : ((changedCells o columns old new).map Prod.fst).Sublist ((cells columns new).map Prod.fst) := by
    refine List.Sublist.map Prod.fst ?_
    rw [changedCells]
    exact (filter_sublist.map _).trans (zipIdx_map_fst 0 _ ▸ List.Sublist.refl _)
  exact hnd.sublist (hs.trans (map_fst_cells_sublist columns new))

namespace World

variable {rowId : RowId} {table : String}
variable {new old : Tuple}

variable (h : w.Safe o config schema)
include h

theorem Covered.cellSafe (hold : old = [] ∨ w.rows table rowId = some old) (hcv : Covered o config schema w table rowId old new)
    (hl : w.Later ((w.setRow table rowId (some new)).call table (updateDeltaOf o config (schema table) rowId old new)))
    {column : String} {v : Value} (hc : (column,v) ∈ cells (schema table) new) (hv : v ≠ .null) :
    ((w.setRow table rowId (some new)).call table (updateDeltaOf o config (schema table) rowId old new)).CellSafe o config table
      rowId column v := by
  constructor
  · intro hb i hi
    obtain ⟨k,hk⟩ := mem_iff_getElem?.mp hc
    obtain ⟨u,hu,hul,hin⟩ | ⟨hon,hnd,hch,ha⟩ := hcv.filters hb k column v hk hv
    · -- the old value of the row has set the bits
      have hr : w.rows table rowId = some old := by
        obtain rfl | hr := hold
        · cases hul
        · exact hr
      have hcl : (schema table)[k]? = some column := by
        rw [cells,getElem?_zip_eq_some] at hk
        exact hk.1
      have huc : (column,u) ∈ cells (schema table) old :=
        mem_iff_getElem?.mpr ⟨k,getElem?_zip_eq_some.mpr ⟨hcl,hul⟩⟩
      have hp : filterPositions o u = filterPositions o v := by
        rw [filterPositions,filterPositions,hashPair,hashPair,hin]
      exact hl.reached table column i (lt_of_mem_filterPositions hi)
        ((h.live table rowId old hr column u huc hu).reached hb i (hp ▸ hi))
    · have hm := mem_bloomDeltasOf o config (nodup_changedCells hnd old new) (mem_changedCells hk hch) hv
      rw [call,if_pos (show (w.setRow table rowId (some new)).shouldTrack table = true from hon)]
      refine .inr ⟨_,bufferDelta_tableDeltas_self ..,?_⟩
      rw [TableFilterDeltas.buffer,updateDeltaOf,if_pos hb]
      exact carries_foldl_of_mem hm (mem_computeBloomDelta o config (ha i hi))
  · intro hz
    obtain hm | hon := hcv.ranges hz column v hc hv
    · exact hl.tracked table _ column v hm
    · rw [call,if_pos (show (w.setRow table rowId (some new)).shouldTrack table = true from hon),noteTracked_self]
      exact mem_append_right _ ((valuesOf_zoneDeltaOf config hz).mpr ⟨hc,hv⟩)

omit h in
theorem consistent_setRow (h : w.Consistent o config) (table : String) (rowId : RowId) (tuple : Option Tuple) :
    (w.setRow table rowId tuple).Consistent o config := ⟨h.sized,h.withoutBloom,h.withoutZones,h.comparable,h.ranges⟩

omit h in
theorem consistent_call (h : w.Consistent o config) {tuple : Option Tuple} {delta : FilterDelta}
    (hb : config.enableBloom = false → delta.bloomDeltas = []) (hz : config.enableZoneMap = false → delta.zoneDelta = none)
    (hc : w.shouldTrack table = true → ∀ blockId column,
      Chain (compareValues o) (w.tracked table blockId column ++ valuesOf delta.zoneDelta blockId column)) :
    ((w.setRow table rowId tuple).call table delta).Consistent o config ∧
      w.Later ((w.setRow table rowId tuple).call table delta) := by
  have hs := consistent_setRow h table rowId tuple
  have hsame : w.Later (w.setRow table rowId tuple) := ⟨fun _ _ _ _ h => h,fun _ _ _ _ h => h⟩
  by_cases hon : w.shouldTrack table = true
  · obtain ⟨hcn,hl⟩ := tracked_call hs hon hb hz (hc hon)
    exact ⟨hcn,fun t c i hi hr => hl.reached t c i hi (hsame.reached t c i hi hr),hl.tracked⟩
  · obtain ⟨hcn,hl⟩ := untracked_call hs hon delta
    exact ⟨hcn,fun t c i hi hr => hl.reached t c i hi (hsame.reached t c i hi hr),hl.tracked⟩

omit h in
theorem zoneDeltaOf_of_disabled (ho : config.enableZoneMap = false) (columns : List String) (rowId : RowId) (tuple : Tuple) :
    zoneDeltaOf config columns rowId tuple = none := by
  rw [zoneDeltaOf,ho]
  rfl

theorem Safe.update (hold : old = [] ∨ w.rows table rowId = some old) (hc : Covered o config schema w table rowId old new) :
    ((w.setRow table rowId (some new)).call table (updateDeltaOf o config (schema table) rowId old new)).Safe o config schema := by
  have hcall : ((w.setRow table rowId (some new)).call table (updateDeltaOf o config (schema table) rowId old new)).Consistent o
      config ∧ w.Later ((w.setRow table rowId (some new)).call table (updateDeltaOf o config (schema table) rowId old new)) := by
    refine consistent_call h.consistent (fun ho => ?_) (fun ho => zoneDeltaOf_of_disabled ho ..) hc.comparable
    rw [updateDeltaOf,ho]
    rfl
  refine h.write hcall ?_
  rintro _ ⟨⟩ column v hcl hv
  exact Covered.cellSafe h hold hc hcall.2 hcl hv

theorem Safe.delete {table : String} {rowId : RowId} {old : Tuple} (hr : w.rows table rowId = some old) :
    ((w.setRow table rowId none).call table (deleteDeltaOf config (schema table) rowId old)).Safe o config schema := by
  refine h.write (consistent_call h.consistent (fun _ => rfl) (fun ho => zoneDeltaOf_of_disabled ho ..) ?_)
    nofun
  intro _ blockId column
  refine (h.consistent.comparable table blockId column).mono _ fun v hv => ?_
  obtain hv | hv := mem_append.mp hv
  · exact hv
  cases hz : config.enableZoneMap with
  | false =>
    rw [deleteDeltaOf,zoneDeltaOf_of_disabled hz] at hv
    cases hv
  | true =>
    by_cases hb : blockId = rowId/blockSize
    · subst hb
      obtain ⟨hc,hn⟩ := (valuesOf_zoneDeltaOf config hz).mp hv
      exact (h.live table rowId old hr column v hc hn).tracked hz
    · rw [deleteDeltaOf,valuesOf_zoneDeltaOf_of_ne config hb] at hv
      cases hv

theorem Safe.suspendTable (table : String) : (w.suspendTable table).Safe o config schema :=
  ⟨⟨h.consistent.sized,h.consistent.withoutBloom,h.consistent.withoutZones,h.consistent.comparable,h.consistent.ranges⟩,
    fun table' rowId tuple hr column v hc hv =>
      let hsafe := h.live table' rowId tuple hr column v hc hv
      ⟨hsafe.reached,hsafe.tracked⟩⟩

theorem Safe.dropGuard {suspension : Nat}
    (hok : Ok o config schema w (.dropGuard suspension)) : (w.dropGuard suspension).Safe o config schema := by
  rw [World.dropGuard]
  cases hgd : w.guards suspension with
  | none => exact h
  | some table =>
    have hr : ({ w with
        guards := Function.update w.guards suspension none
        suspendedTables := Function.update w.suspendedTables table none } : World).Safe o config schema :=
      ⟨⟨h.consistent.sized,h.consistent.withoutBloom,h.consistent.withoutZones,h.consistent.comparable,h.consistent.ranges⟩,
        fun table' rowId tuple hrw column v hc hv =>
          let hsafe := h.live table' rowId tuple hrw column v hc hv
          ⟨hsafe.reached,hsafe.tracked⟩⟩
    dsimp only
    split
    next hcn =>
      -- nothing is pending that could be removed
      have hn := hok table hgd hcn
      rw [markForRebuild]
      dsimp only
      rw [← hn,update_eq_self]
      exact hr
    · exact hr

omit h

theorem safe_init : init.Safe o config schema where
  consistent := {
    sized := nofun
    withoutBloom := fun _ _ _ => ⟨rfl,nofun⟩
    withoutZones := fun _ _ _ _ => rfl
    comparable := fun _ _ _ => ⟨fun _ hno => (nomatch hno),nofun⟩
    ranges := fun _ _ _ => ⟨[],rfl,rfl,rfl,.inl rfl⟩ }
  live _ _ _ hno := nomatch hno

theorem safe_step (w : World) (a : Action) (h : w.Safe o config schema) (hok : Ok o config schema w a) :
    (step o config schema w a).Safe o config schema := by
  cases a with
  | insert table rowId tuple =>
    rw [step,insertDeltaOf_eq]
    exact h.update (.inl rfl) hok
  | update table rowId tuple =>
    rw [step]
    cases hr : w.rows table rowId with
    | none => exact h
    | some old => exact h.update (.inr hr) (hok old hr)
  | delete table rowId =>
    rw [step]
    cases hr : w.rows table rowId with
    | none => exact h
    | some old => exact h.delete hr
  | suspend table => exact h.suspendTable table
  | dropGuard suspension => exact h.dropGuard hok
  | setEnabled enabled =>
    exact h.later ⟨h.consistent.sized,h.consistent.withoutBloom,h.consistent.withoutZones,h.consistent.comparable,
      h.consistent.ranges⟩ ⟨fun _ _ _ _ h => h,fun _ _ _ _ h => h⟩ rfl
  | consolidate table => exact h.consolidateTable table

end World

end

/-- Where every write leaves no gap and no guard throws pending deltas away, a table that has no pending delta excludes no live row. -/
theorem no_live_row_excluded (o : Outside) (config : FilterIndexConfig) (schema : String → List String) (actions : List Action)
    (h : Guarded (World.step o config schema) (Ok o config schema) World.init actions) :
    (run (World.step o config schema) World.init actions).NoneExcluded o schema :=
  (guarded_run_invariant (World.step o config schema) (World.Safe o config schema) World.safe_step World.safe_init h).noneExcluded

/-- Formats that keep everything, beside a given hash. -/
def plainOutside (finish : Bytes → UInt64) : Outside where
  finish
  uuidBytes n := leBytes 16 n
  uuidText n := text (toString n)
  timestampBytes nanos := leBytes 12 nanos
  dateBytes days := leBytes 4 days
  dateText days := text (toString days)
  trackerBytes code := leBytes 8 code
  filterBytes code := leBytes 8 code
  sameOther a b := a == b
  compareOther a b := some (cmp a b)
  cmpFiniteNumeric a b := some (cmp a b)

/-- With a hash that is constant all positions agree. -/
theorem one_tracked_row_not_excluded : (run (World.step (plainOutside fun _ => 0) .default fun _ => ["id"]) World.init
      [.insert "t" 1 [.int4 5],.consolidate "t"]).NoneExcluded (plainOutside fun _ => 0) fun _ => ["id"] := by
  refine no_live_row_excluded _ _ _ _ ⟨⟨?_,?_,?_⟩,trivial,trivial⟩
  · intro _ i column v hcell _
    have hv : v = .int4 5 := by
      have hmem := mem_iff_getElem?.mpr ⟨i,hcell⟩
      rw [cells,zip_cons_cons,zip_nil_right,mem_singleton] at hmem
      exact (Prod.mk.inj hmem).2
    refine .inr ⟨rfl,nodup_singleton _,fun u hno => (nomatch hno),?_⟩
    rw [hv,Aligned]
    decide +kernel
  · exact fun _ _ _ _ _ => .inr rfl
  · intro _ blockId column
    have hsub : ∀ v ∈ World.init.tracked "t" blockId column ++
        World.valuesOf (zoneDeltaOf .default ["id"] 1 [.int4 5]) blockId column, v ∈ [Value.int4 5] := by
      intro v hv
      rw [World.init,nil_append] at hv
      by_cases hblock : blockId = 1/blockSize
      · subst hblock
        have hcell := ((valuesOf_zoneDeltaOf _ rfl).mp hv).1
        rw [cells,zip_cons_cons,zip_nil_right,mem_singleton] at hcell
        exact mem_singleton.mpr (Prod.mk.inj hcell).2
      · rw [valuesOf_zoneDeltaOf_of_ne _ hblock] at hv
        cases hv
    refine Chain.mono _ ⟨?_,?_⟩ hsub
    · intro a ha b hb
      obtain rfl := mem_singleton.mp ha
      obtain rfl := mem_singleton.mp hb
      exact ⟨.eq,by decide +kernel,by decide +kernel⟩
    · intro a ha b hb c hc _ _
      obtain rfl := mem_singleton.mp ha
      obtain rfl := mem_singleton.mp hc
      decide +kernel

/-- A tracked value whose positions differ, a row that is written under a suspension, and a tracked date. -/
theorem live_rows_excluded :
    ¬(∀ actions, (run (World.step (plainOutside fun bytes => UInt64.ofNat bytes.length) .default fun _ => ["id"]) World.init
        actions).NoneExcluded (plainOutside fun bytes => UInt64.ofNat bytes.length) fun _ => ["id"]) ∧
      (¬(run (World.step (plainOutside fun _ => 0) .default fun _ => ["id"]) World.init
        [.insert "t" 1 [.int4 1],.consolidate "t",.suspend "t",.insert "t" 2 [.int4 5],.dropGuard 0]).NoneExcluded
          (plainOutside fun _ => 0) fun _ => ["id"]) ∧
      ¬(run (World.step (plainOutside fun _ => 0) .default fun _ => ["id"]) World.init
        [.insert "t" 1 [.date 5],.consolidate "t"]).NoneExcluded (plainOutside fun _ => 0) fun _ => ["id"] := by
  refine ⟨fun h => ?_,fun h => ?_,fun h => ?_⟩
  · have hcheck := (h [.insert "t" 1 [.int4 5],.consolidate "t"] "t" rfl 1 [.int4 5] rfl "id" (.int4 5) mem_cons_self
      (by decide)).1 _ rfl
    revert hcheck
    decide +kernel
  · have hcontains := (h "t" rfl 2 [.int4 5] rfl "id" (.int4 5) mem_cons_self (by decide)).2 _ rfl
    revert hcontains
    decide +kernel
  · have hcontains := (h "t" rfl 1 [.date 5] rfl "id" (.date 5) mem_cons_self (by decide)).2 _ rfl
    revert hcontains
    decide +kernel

end HeliosNano.Storage.FilterIndex
