import HeliosNano.Foundation.OrderedStore
import HeliosNano.Foundation.Runs
import HeliosNano.Sync.VectorClock

namespace HeliosNano.Sync.ChangeLog
open Foundation List Function

inductive ChangeType (Schema : Type)
  | insert (table : String) (row_id : Nat) (data : List (Fin 256))
  | update (table : String) (row_id : Nat) (old_data new_data : List (Fin 256))
  | delete (table : String) (row_id : Nat) (data : List (Fin 256))
  | createTable (table : String) (schema : Schema)
  | dropTable (table : String)
deriving DecidableEq

variable {Schema : Type}

def ChangeType.tableName : ChangeType Schema → String
  | .insert table _ _ => table
  | .update table _ _ _ => table
  | .delete table _ _ => table
  | .createTable table _ => table
  | .dropTable table => table

structure ChangeEntry (Schema : Type) where
  lsn : Nat
  timestamp : Nat
  transaction_id : Nat
  change_type : ChangeType Schema
  vector_clock : VectorClock
deriving DecidableEq

def ChangeEntry.tableName (entry : ChangeEntry Schema) : String := entry.change_type.tableName

/-- The keys of the log in the store. The number of an entry is written with twenty digits, so that the order of the keys
is that of the numbers. -/
structure Store (Schema : Type) where
  entries : Map Nat (ChangeEntry Schema)
  index : Map (String × Nat) Nat
  current_lsn : Option Nat
  compaction_watermark : Option Nat

structure QueryOptions where
  start_lsn : Option Nat
  end_lsn : Option Nat
  table : Option String
  start_timestamp : Option Nat
  end_timestamp : Option Nat
  limit : Option Nat

namespace QueryOptions

def new : QueryOptions := ⟨none,none,none,none,none,none⟩

/-- Whether an entry meets every filter that is set. -/
def accepts (options : QueryOptions) (entry : ChangeEntry Schema) : Bool :=
  options.start_lsn.all (fun start => start ≤ entry.lsn) && options.end_lsn.all (fun last => entry.lsn ≤ last) &&
    options.table.all (fun table => entry.tableName == table) &&
    options.start_timestamp.all (fun start => start ≤ entry.timestamp) &&
    options.end_timestamp.all (fun last => entry.timestamp ≤ last)

/-- Whether so many entries are as many as asked for. -/
def reached (options : QueryOptions) (count : Nat) : Bool := options.limit.any fun limit => limit ≤ count

end QueryOptions

namespace Store

def empty : Store Schema := ⟨∅,∅,none,none⟩

def scan (store : Store Schema) : List (ChangeEntry Schema) := (store.entries.iterFrom 0).map Prod.snd

def put (store : Store Schema) (entry : ChangeEntry Schema) : Store Schema :=
  { store with
    entries := store.entries.insert entry.lsn entry
    index := store.index.insert (entry.tableName,entry.timestamp) entry.lsn
    current_lsn := some (entry.lsn+1) }

def delete (store : Store Schema) (batch : List (ChangeEntry Schema)) : Store Schema :=
  { store with
    entries := batch.foldl (fun entries entry => entries.erase entry.lsn) store.entries
    index := batch.foldl (fun index entry => index.erase (entry.tableName,entry.timestamp)) store.index }

end Store

/-- The entries a query collects, the count of those it already has given. -/
def collect (options : QueryOptions) : Nat → List (ChangeEntry Schema) → List (ChangeEntry Schema)
  | _, [] => []
  | count, entry::rest =>
    if options.accepts entry then
      entry::(if options.reached (count+1) then [] else collect options (count+1) rest)
    else collect options count rest

def query (store : Store Schema) (options : QueryOptions) : List (ChangeEntry Schema) := collect options 0 store.scan

def querySinceLsn (store : Store Schema) (start_lsn : Nat) (limit : Option Nat) : List (ChangeEntry Schema) :=
  query store { QueryOptions.new with start_lsn := some start_lsn, limit := limit }

def compactionChunk : Nat := 1000

/-- Where a thread is: in an append that has its number, or in a compaction with the entries that it has still to
delete. -/
inductive Phase (Schema : Type)
  | idle
  | appending (entry : ChangeEntry Schema)
  | compacting (watermark_lsn : Nat) (doomed : List (ChangeEntry Schema))

structure Consumer (Schema : Type) where
  next : Nat
  received : List (ChangeEntry Schema)

/-- The store and the instance that is open on it. The appends that succeeded and the entries that were compacted are
kept apart. -/
structure World (Schema : Type) where
  store : Store Schema
  current_lsn : Nat
  compaction_watermark : Nat
  phases : Nat → Phase Schema
  consumers : Nat → Consumer Schema
  appended : List (ChangeEntry Schema)
  compacted : List Nat

inductive Step (Schema : Type)
  | append (id : Nat) (timestamp transaction_id : Nat) (change_type : ChangeType Schema) (vector_clock : VectorClock)
  | write (id : Nat)
  | fail (id : Nat)
  | compact (id : Nat) (watermark_lsn : Nat)
  | compactBatch (id : Nat)
  | poll (consumer : Nat) (limit : Option Nat)
  | reopen

namespace World

def setPhase (w : World Schema) (id : Nat) (phase : Phase Schema) : World Schema :=
  { w with phases := Function.update w.phases id phase }

def step (w : World Schema) : Step Schema → World Schema
  | .append id timestamp transaction_id change_type vector_clock =>
    match w.phases id with
    | .idle =>
      { w.setPhase id (.appending ⟨w.current_lsn,timestamp,transaction_id,change_type,vector_clock⟩) with
        current_lsn := w.current_lsn+1 }
    | _ => w
  | .write id =>
    match w.phases id with
    | .appending entry => { w.setPhase id .idle with store := w.store.put entry, appended := w.appended ++ [entry] }
    | _ => w
  | .fail id =>
    match w.phases id with
    | .appending _ => w.setPhase id .idle
    | _ => w
  | .compact id watermark_lsn =>
    match w.phases id with
    | .idle => w.setPhase id (.compacting watermark_lsn (w.store.scan.filter fun entry => entry.lsn < watermark_lsn))
    | _ => w
  | .compactBatch id =>
    match w.phases id with
    | .compacting watermark_lsn [] =>
      { w.setPhase id .idle with
        store := { w.store with compaction_watermark := some watermark_lsn }, compaction_watermark := watermark_lsn }
    | .compacting watermark_lsn doomed =>
      { w.setPhase id (.compacting watermark_lsn (doomed.drop compactionChunk)) with
        store := w.store.delete (doomed.take compactionChunk)
        compacted := w.compacted ++ (doomed.take compactionChunk).map ChangeEntry.lsn }
    | _ => w
  | .poll consumer limit =>
    let entries := querySinceLsn w.store (w.consumers consumer).next limit
    { w with
      consumers := Function.update w.consumers consumer
        ⟨entries.getLast?.elim (w.consumers consumer).next fun entry => entry.lsn+1,
          (w.consumers consumer).received ++ entries⟩ }
  | .reopen =>
    { w with
      current_lsn := w.store.current_lsn.getD 0
      compaction_watermark := w.store.compaction_watermark.getD 0
      phases := fun _ => .idle }

def new : World Schema := ⟨.empty,0,0,fun _ => .idle,fun _ => ⟨0,[]⟩,[],[]⟩

/-- The numbers that appends hold and have not written. -/
def InFlight (w : World Schema) (lsn : Nat) : Prop := ∃ id entry, w.phases id = .appending entry ∧ entry.lsn = lsn

/-- The log is reopened only while its stored counter is above every append that succeeded, and a poll receives no entry
while an append with a smaller number that it has not passed is in flight. -/
def Ordered (w : World Schema) : Step Schema → Prop
  | .reopen => ∀ entry ∈ w.appended, entry.lsn < w.store.current_lsn.getD 0
  | .poll consumer limit => ∀ entry ∈ querySinceLsn w.store (w.consumers consumer).next limit,
      ∀ lsn, w.InFlight lsn → (w.consumers consumer).next ≤ lsn → entry.lsn < lsn
  | _ => True

end World
variable {options : QueryOptions} {entries : List (ChangeEntry Schema)} {store : Store Schema}

theorem collect_prefix (options : QueryOptions) (count : Nat) (entries : List (ChangeEntry Schema)) :
    collect options count entries <+: entries.filter fun entry => options.accepts entry := by
  induction entries generalizing count with
  | nil => exact prefix_rfl
  | cons entry rest ih =>
    rw [collect,filter_cons]
    split
    · rw [cons_prefix_cons]
      refine ⟨rfl,?_⟩
      split
      · exact nil_prefix
      · exact ih (count+1)
    · exact ih count

theorem collect_ne_nil {count : Nat} (h : (entries.filter fun entry => options.accepts entry) ≠ []) :
    collect options count entries ≠ [] := by
  induction entries with
  | nil => exact h
  | cons entry rest ih =>
    rw [collect]
    rw [filter_cons] at h
    split
    · exact cons_ne_nil _ _
    · next hr =>
      rw [if_neg hr] at h
      exact ih h

variable {entry : ChangeEntry Schema} {limit : Option Nat} {next : Nat}

theorem mem_scan : entry ∈ store.scan ↔ ∃ lsn, store.entries.lookup lsn = some entry := by
  rw [Store.scan,mem_map]
  constructor
  · rintro ⟨⟨lsn,entry⟩,hm,rfl⟩
    exact ⟨lsn,((Map.mem_iterFrom _ _ _).mp hm).1⟩
  · rintro ⟨lsn,hlk⟩
    exact ⟨(lsn,entry),(Map.mem_iterFrom _ _ _).mpr ⟨hlk,Nat.zero_le _⟩,rfl⟩

def Store.Numbered (store : Store Schema) : Prop :=
  ∀ lsn entry, store.entries.lookup lsn = some entry → entry.lsn = lsn

theorem Store.Numbered.pairwise_scan (h : store.Numbered) : store.scan.Pairwise fun a b => a.lsn < b.lsn := by
  rw [Store.scan,pairwise_map]
  refine (Map.pairwise_iterFrom store.entries 0).imp_of_mem fun ha hb hlt => ?_
  rwa [h _ _ ((Map.mem_iterFrom _ _ _).mp ha).1,h _ _ ((Map.mem_iterFrom _ _ _).mp hb).1]

/-- What a consumer has still to receive. -/
def Store.ahead (store : Store Schema) (next : Nat) : List (ChangeEntry Schema) :=
  store.scan.filter fun entry => next ≤ entry.lsn

theorem accepts_since : ({ QueryOptions.new with start_lsn := some next, limit := limit } : QueryOptions).accepts entry =
      decide (next ≤ entry.lsn) := by
  simp [QueryOptions.accepts,QueryOptions.new]

theorem querySinceLsn_isPrefix (next : Nat) (limit : Option Nat) : querySinceLsn store next limit <+: store.ahead next := by
  have h := collect_prefix { QueryOptions.new with start_lsn := some next, limit := limit } 0 store.scan
  simp only [accepts_since] at h
  exact h

theorem querySinceLsn_ne_nil (limit : Option Nat) (h : store.ahead next ≠ []) : querySinceLsn store next limit ≠ [] := by
  apply collect_ne_nil
  simp only [accepts_since]
  exact h

theorem mem_querySinceLsn
    (h : entry ∈ querySinceLsn store next limit) : (∃ lsn, store.entries.lookup lsn = some entry) ∧ next ≤ entry.lsn := by
  have hm := (querySinceLsn_isPrefix next limit).subset h
  simp only [Store.ahead,mem_filter,decide_eq_true_eq] at hm
  exact ⟨mem_scan.mp hm.1,hm.2⟩

theorem mem_querySinceLsn_of_le {last : ChangeEntry Schema} (hst : store.Numbered) (hl : last ∈ querySinceLsn store next limit)
    (he : store.entries.lookup entry.lsn = some entry) (hn : next ≤ entry.lsn) (hle : entry.lsn ≤ last.lsn) :
    entry ∈ querySinceLsn store next limit := by
  obtain ⟨rest,hrest⟩ := @querySinceLsn_isPrefix _ store next limit
  have hm : entry ∈ store.ahead next := by
    simp only [Store.ahead,mem_filter,decide_eq_true_eq]
    exact ⟨mem_scan.mpr ⟨_,he⟩,hn⟩
  have hs : (store.ahead next).Pairwise fun a b => a.lsn < b.lsn := hst.pairwise_scan.filter _
  rw [← hrest] at hm hs
  rcases mem_append.mp hm with h | h
  · exact h
  · have := (pairwise_append.mp hs).2.2 last hl entry h
    omega

theorem lookup_delete {batch : List (ChangeEntry Schema)} {lsn : Nat} : (store.delete batch).entries.lookup lsn =
    if lsn ∈ batch.map ChangeEntry.lsn then none else store.entries.lookup lsn := by
  simp only [Store.delete]
  generalize store.entries = entries
  induction batch generalizing entries with
  | nil => simp
  | cons entry rest ih =>
    rw [foldl_cons,ih,Map.lookup_erase_ite]
    by_cases hrest : lsn ∈ rest.map ChangeEntry.lsn
    · simp [hrest]
    · by_cases hl : lsn = entry.lsn
      · simp [hl]
      · simp [hrest,hl]

namespace World
variable {w : World Schema} {id : Nat}

/-- The invariant: numbers are handed out once, what succeeded stays, and no consumer is past a number in flight. -/
structure Sound (w : World Schema) : Prop where
  numbered : ∀ e ∈ w.appended, e.lsn < w.current_lsn
  distinct : (w.appended.map ChangeEntry.lsn).Nodup
  stored : ∀ lsn e, w.store.entries.lookup lsn = some e → e ∈ w.appended ∧ e.lsn = lsn
  kept : ∀ e ∈ w.appended, w.store.entries.lookup e.lsn = some e ∨ e.lsn ∈ w.compacted
  flying : ∀ id e, w.phases id = .appending e →
    e.lsn < w.current_lsn ∧ e.lsn ∉ w.appended.map ChangeEntry.lsn ∧ ∀ c, (w.consumers c).next ≤ e.lsn
  apart : ∀ id id' e e', w.phases id = .appending e → w.phases id' = .appending e' → e.lsn = e'.lsn → id = id'
  next : ∀ c, (w.consumers c).next = 0 ∨ ∃ e ∈ (w.consumers c).received, (w.consumers c).next = e.lsn+1
  received : ∀ c, ∀ e ∈ (w.consumers c).received, e ∈ w.appended ∧ e.lsn < (w.consumers c).next
  sorted : ∀ c, (w.consumers c).received.Pairwise fun a b => a.lsn < b.lsn
  complete : ∀ c, ∀ e ∈ w.appended, e.lsn < (w.consumers c).next →
    e ∈ (w.consumers c).received ∨ e.lsn ∈ w.compacted

theorem sound_new : (new : World Schema).Sound where
  numbered e h := by simp [new] at h
  distinct := nodup_nil
  stored lsn e h := by simp [new,Store.empty] at h
  kept e h := by simp [new] at h
  flying id e h := by simp [new] at h
  apart id id' e e' h := by simp [new] at h
  next _ := .inl rfl
  received c e h := by simp [new] at h
  sorted _ := List.Pairwise.nil
  complete c e h := by simp [new] at h

theorem Sound.next_le (hw : w.Sound) (c : Nat) : (w.consumers c).next ≤ w.current_lsn := by
  rcases hw.next c with hz | ⟨e,he,hn⟩
  · omega
  · have := hw.numbered e (hw.received c e he).1
    omega

theorem Sound.store_numbered (hw : w.Sound) : w.store.Numbered := fun lsn e h => (hw.stored lsn e h).2

theorem phases_update {phase : Phase Schema} (hph : ∀ e, phase ≠ .appending e) {other : Nat} {e : ChangeEntry Schema}
    (h : Function.update w.phases id phase other = .appending e) : other ≠ id ∧ w.phases other = .appending e := by
  by_cases hne : other = id
  · subst hne
    rw [update_self] at h
    exact absurd h (hph e)
  · rw [update_of_ne hne] at h
    exact ⟨hne,h⟩

variable (hw : w.Sound)
include hw

theorem Sound.setPhase {phase : Phase Schema} (hph : ∀ e, phase ≠ .appending e) : (w.setPhase id phase).Sound :=
  { hw with
    flying := fun other e h => hw.flying other e (phases_update hph h).2
    apart := fun first second e e' h h' heq =>
      hw.apart first second e e' (phases_update hph h).2 (phases_update hph h').2 heq }

theorem Sound.append (hph : w.phases id = .idle) (timestamp transaction_id : Nat)
    (change_type : ChangeType Schema) (vector_clock : VectorClock) :
    (w.step (.append id timestamp transaction_id change_type vector_clock)).Sound := by
  simp only [step,hph]
  -- The new number is larger than every number before it.
  refine { hw with numbered := ?_, flying := ?_, apart := ?_ }
  · intro e he
    have := hw.numbered e he
    simp only
    omega
  · intro other e h
    by_cases hne : other = id
    · subst hne
      simp only [World.setPhase,update_self,Phase.appending.injEq] at h
      subst h
      refine ⟨Nat.lt_succ_self _,fun hm => ?_,hw.next_le⟩
      obtain ⟨e,he,heq⟩ := mem_map.mp hm
      have := hw.numbered e he
      simp only at heq
      omega
    · obtain ⟨hlt,hfr⟩ := hw.flying other e (by simpa [World.setPhase,hne] using h)
      exact ⟨Nat.lt_succ_of_lt hlt,hfr⟩
  · intro first second e e' h h' heq
    by_cases hf : first = id
    · by_cases hs : second = id
      · rw [hf,hs]
      have hlt := (hw.flying second e' (by simpa [World.setPhase,hs] using h')).1
      subst hf
      simp only [World.setPhase,update_self,Phase.appending.injEq] at h
      subst h
      simp only at heq
      omega
    · have hlt := (hw.flying first e (by simpa [World.setPhase,hf] using h)).1
      by_cases hs : second = id
      · subst hs
        simp only [World.setPhase,update_self,Phase.appending.injEq] at h'
        subst h'
        simp only at heq
        omega
      · exact hw.apart first second e e' (by simpa [World.setPhase,hf] using h)
          (by simpa [World.setPhase,hs] using h') heq

theorem Sound.write {entry : ChangeEntry Schema} (hph : w.phases id = .appending entry) : (w.step (.write id)).Sound := by
  obtain ⟨hlt,hf,hn⟩ := hw.flying id entry hph
  have hi := @Sound.setPhase _ w id hw .idle (by simp)
  have hlk : ∀ lsn, (w.store.put entry).entries.lookup lsn =
      if lsn = entry.lsn then some entry else w.store.entries.lookup lsn := fun lsn => Map.lookup_insert_ite _ _ _ _
  have hne : ∀ e ∈ w.appended, e.lsn ≠ entry.lsn := fun e he heq => hf (mem_map.mpr ⟨e,he,heq⟩)
  simp only [step,hph]
  refine ⟨?_,?_,?_,?_,?_,hi.apart,hw.next,?_,hw.sorted,?_⟩
  · intro e he
    rcases mem_append.mp he with he | he
    · exact hw.numbered e he
    · rwa [mem_singleton.mp he]
  · rw [map_append,nodup_append]
    refine ⟨hw.distinct,by simp,?_⟩
    intro lsn hl lsn' hl' heq
    rw [map_singleton,mem_singleton] at hl'
    exact hf (hl' ▸ heq ▸ hl)
  · intro lsn e h
    rw [hlk] at h
    split at h
    · next hl =>
      cases h
      exact ⟨mem_append_right _ (mem_singleton_self _),hl.symm⟩
    · exact ⟨mem_append_left _ (hw.stored lsn e h).1,(hw.stored lsn e h).2⟩
  · intro e he
    rw [hlk]
    rcases mem_append.mp he with he | he
    · rw [if_neg (hne e he)]
      exact hw.kept e he
    · rw [mem_singleton.mp he,if_pos rfl]
      exact .inl rfl
  · intro other e h
    obtain ⟨ho,hold⟩ := phases_update (by simp) h
    obtain ⟨hlt',hf',hn'⟩ := hw.flying other e hold
    refine ⟨hlt',?_,hn'⟩
    rw [map_append,map_singleton,mem_append,mem_singleton,not_or]
    exact ⟨hf',fun heq => ho (hw.apart other id e entry hold hph heq)⟩
  · intro c e he
    exact ⟨mem_append_left _ (hw.received c e he).1,(hw.received c e he).2⟩
  · intro c e he hlt'
    rcases mem_append.mp he with he | he
    · exact hw.complete c e he hlt'
    · rw [mem_singleton.mp he] at hlt'
      exact absurd (hn c) (Nat.not_le_of_lt hlt')

theorem Sound.compactBatch {watermark_lsn : Nat} {batch rest : List (ChangeEntry Schema)} :
    World.Sound { w.setPhase id (.compacting watermark_lsn rest) with
      store := w.store.delete batch, compacted := w.compacted ++ batch.map ChangeEntry.lsn } := by
  have hp := @Sound.setPhase _ w id hw (.compacting watermark_lsn rest) (by simp)
  refine { hp with stored := ?_, kept := ?_, complete := ?_ }
  · intro lsn e h
    rw [lookup_delete] at h
    split at h
    · cases h
    · exact hw.stored lsn e h
  · intro e he
    rw [lookup_delete,mem_append]
    split
    · next hm => exact .inr (.inr hm)
    · exact (hw.kept e he).imp_right .inl
  · intro c e he hlt
    rw [mem_append]
    exact (hw.complete c e he hlt).imp_right .inl

theorem Sound.query_facts (c : Nat) (limit : Option Nat) : let entries := querySinceLsn w.store (w.consumers c).next limit
    (∀ e ∈ entries, e ∈ w.appended ∧ (w.consumers c).next ≤ e.lsn) ∧ entries.Pairwise (fun a b => a.lsn < b.lsn) := by
  refine ⟨fun e he => ?_,?_⟩
  · obtain ⟨⟨lsn,hlk⟩,hn⟩ := mem_querySinceLsn he
    exact ⟨(hw.stored lsn e hlk).1,hn⟩
  · exact (hw.store_numbered.pairwise_scan.filter _).sublist (querySinceLsn_isPrefix _ _).sublist

theorem Sound.poll (c : Nat) (limit : Option Nat) (ho : w.Ordered (.poll c limit)) : (w.step (.poll c limit)).Sound := by
  obtain ⟨hm,hs⟩ := hw.query_facts c limit
  rcases eq_nil_or_concat (querySinceLsn w.store (w.consumers c).next limit) with hnl | ⟨before,last,hl⟩
  · -- Nothing was ahead, and nothing changes.
    have hsame : w.step (.poll c limit) = w := by
      simp only [step,hnl,getLast?_nil,Option.elim_none,append_nil]
      rw [update_eq_self]
    rw [hsame]
    exact hw
  · have hl' : last ∈ querySinceLsn w.store (w.consumers c).next limit := by simp [hl]
    have hle : ∀ e ∈ querySinceLsn w.store (w.consumers c).next limit, e.lsn ≤ last.lsn := by
      intro e he
      rw [hl,concat_eq_append] at he hs
      rcases mem_append.mp he with he | he
      · exact ((pairwise_append.mp hs).2.2 e he last (mem_singleton_self _)).le
      · rw [mem_singleton.mp he]
    have hc : (w.step (.poll c limit)).consumers = Function.update w.consumers c
        ⟨last.lsn+1,(w.consumers c).received ++ querySinceLsn w.store (w.consumers c).next limit⟩ := by
      simp [step,hl]
    refine { hw with flying := ?_, next := ?_, received := ?_, sorted := ?_, complete := ?_ }
    · intro id e h
      obtain ⟨hlt,hf,hn⟩ := hw.flying id e h
      refine ⟨hlt,hf,?_⟩
      rw [hc,forall_update_iff w.consumers fun _ consumer => consumer.next ≤ e.lsn]
      exact ⟨ho last hl' e.lsn ⟨id,e,h,rfl⟩ (hn c),fun other _ => hn other⟩
    · rw [hc,forall_update_iff w.consumers fun _ consumer =>
        consumer.next = 0 ∨ ∃ e ∈ consumer.received, consumer.next = e.lsn+1]
      exact ⟨.inr ⟨last,mem_append_right _ hl',rfl⟩,fun other _ => hw.next other⟩
    · rw [hc]
      refine (forall_update_iff w.consumers fun _ consumer =>
        ∀ e ∈ consumer.received, e ∈ w.appended ∧ e.lsn < consumer.next).mpr
          ⟨fun e he => ?_,fun other _ => hw.received other⟩
      rcases mem_append.mp he with he | he
      · have hn := (hm last hl').2
        have hlt := (hw.received c e he).2
        exact ⟨(hw.received c e he).1,by simp only; omega⟩
      · exact ⟨(hm e he).1,Nat.lt_succ_of_le (hle e he)⟩
    · rw [hc,forall_update_iff w.consumers fun _ consumer =>
        consumer.received.Pairwise fun a b => a.lsn < b.lsn]
      refine ⟨pairwise_append.mpr ⟨hw.sorted c,hs,fun a ha b hb => ?_⟩,fun other _ => hw.sorted other⟩
      have hlt := (hw.received c a ha).2
      have hn := (hm b hb).2
      omega
    · rw [hc]
      refine (forall_update_iff w.consumers fun _ consumer =>
        ∀ e ∈ w.appended, e.lsn < consumer.next → e ∈ consumer.received ∨ e.lsn ∈ w.compacted).mpr
          ⟨fun e he hlt => ?_,fun other _ => hw.complete other⟩
      by_cases hn : e.lsn < (w.consumers c).next
      · exact (hw.complete c e he hn).imp_left (mem_append_left _)
      rcases hw.kept e he with hst | hcm
      · exact .inl (mem_append_right _ (mem_querySinceLsn_of_le hw.store_numbered hl' hst (by omega)
          (Nat.le_of_lt_succ hlt)))
      · exact .inr hcm

theorem Sound.reopen (ho : w.Ordered .reopen) : (w.step .reopen).Sound := by
  refine { hw with numbered := ho, flying := ?_, apart := ?_ }
  · intro id e h
    cases h
  · intro id id' e e' h
    cases h

theorem Sound.step (s : Step Schema) (ho : w.Ordered s) : (w.step s).Sound := by
  cases s with
  | append id timestamp transaction_id change_type vector_clock =>
    cases hph : w.phases id with
    | idle => exact hw.append hph timestamp transaction_id change_type vector_clock
    | _ => simpa only [World.step,hph] using hw
  | write id =>
    cases hph : w.phases id with
    | appending entry => exact hw.write hph
    | _ => simpa only [World.step,hph] using hw
  | fail id =>
    cases hph : w.phases id with
    | appending entry =>
      simp only [World.step,hph]
      exact hw.setPhase (by simp)
    | _ => simpa only [World.step,hph] using hw
  | compact id watermark_lsn =>
    cases hph : w.phases id with
    | idle =>
      simp only [World.step,hph]
      exact hw.setPhase (by simp)
    | _ => simpa only [World.step,hph] using hw
  | compactBatch id =>
    cases hph : w.phases id with
    | compacting watermark_lsn doomed =>
      cases doomed with
      | nil =>
        simp only [World.step,hph]
        exact { @Sound.setPhase _ w id hw .idle (by simp) with }
      | cons entry rest =>
        simp only [World.step,hph]
        exact hw.compactBatch
    | _ => simpa only [World.step,hph] using hw
  | poll c limit => exact hw.poll c limit ho
  | reopen => exact hw.reopen ho

omit hw

/-- What the log promises: successful appends have numbers of their own and stay stored until they are compacted, and a
consumer receives each of them once and in order, what it has not received being ahead of it; a poll gives a first part
of what is ahead, and something when there is something. -/
structure Correct (w : World Schema) : Prop where
  unique : (w.appended.map ChangeEntry.lsn).Nodup
  kept : ∀ e ∈ w.appended, w.store.entries.lookup e.lsn = some e ∨ e.lsn ∈ w.compacted
  sent : ∀ c, ∀ e ∈ (w.consumers c).received, e ∈ w.appended
  sorted : ∀ c, (w.consumers c).received.Pairwise fun a b => a.lsn < b.lsn
  complete : ∀ c, ∀ e ∈ w.appended, e.lsn ∈ w.compacted ∨ e ∈ (w.consumers c).received ∨
    e ∈ w.store.ahead (w.consumers c).next
  polls : ∀ c limit, querySinceLsn w.store (w.consumers c).next limit <+: w.store.ahead (w.consumers c).next ∧
    (w.store.ahead (w.consumers c).next ≠ [] → querySinceLsn w.store (w.consumers c).next limit ≠ [])

theorem Sound.correct (hw : w.Sound) : w.Correct where
  unique := hw.distinct
  kept := hw.kept
  sent c e he := (hw.received c e he).1
  sorted := hw.sorted
  complete c e he := by
    by_cases hn : e.lsn < (w.consumers c).next
    · rcases hw.complete c e he hn with hr | hc
      · exact .inr (.inl hr)
      · exact .inl hc
    · rcases hw.kept e he with hs | hc
      · refine .inr (.inr ?_)
        simp only [Store.ahead,mem_filter,decide_eq_true_eq]
        exact ⟨mem_scan.mpr ⟨_,hs⟩,by omega⟩
      · exact .inl hc
  polls c limit := ⟨querySinceLsn_isPrefix _ _,querySinceLsn_ne_nil limit⟩

theorem change_log_correct {steps : List (Step Schema)} (hordered : Guarded World.step Ordered new steps) :
    (run World.step new steps).Correct :=
  (guarded_run_invariant World.step World.Sound (fun _ s hw hs => hw.step s hs) sound_new hordered).correct

/-- Two appends overlap but write in order, with a poll and a restart after them. -/
def orderedAppends : List (Step Unit) :=
  [.append 0 1 1 (.dropTable "t") .new,.append 1 1 2 (.dropTable "u") .new,.write 0,.write 1,.poll 0 (some 1),.reopen,
    .append 2 3 3 (.dropTable "v") .new,.write 2,.poll 0 none]

theorem change_log_correct_ordered : Guarded World.step Ordered new orderedAppends ∧ (run World.step new orderedAppends).Correct ∧
    ((run World.step new orderedAppends).consumers 0).received.map ChangeEntry.lsn = [0,1,2] := by
  have hordered : Guarded World.step Ordered new orderedAppends := by
    refine ⟨trivial,trivial,trivial,trivial,?_,?_,trivial,trivial,?_,trivial⟩
    · rintro entry - lsn ⟨id,held,hheld,-⟩
      by_cases hzero : id = 0
      · subst hzero
        cases hheld
      by_cases hone : id = 1
      · subst hone
        cases hheld
      · simp [World.step,World.setPhase,new,hzero,hone] at hheld
    · intro entry hentry
      have hlsn : entry.lsn ∈ [0,1] := mem_map_of_mem hentry
      change entry.lsn < 2
      simp only [mem_cons,not_mem_nil,or_false] at hlsn
      omega
    · rintro entry - lsn ⟨id,held,hheld,-⟩
      simp [World.step,World.setPhase] at hheld
  exact ⟨hordered,change_log_correct hordered,by decide⟩

/-- Two appends overlap and write out of order, and the log is opened again. -/
def reusedNumber : List (Step Unit) :=
  [.append 0 1 1 (.dropTable "t") .new,.append 1 1 2 (.dropTable "u") .new,.write 1,.write 0,.reopen,
    .append 2 2 3 (.dropTable "v") .new,.write 2]

/-- A consumer polls between the writes of two appends that come out of order. -/
def hiddenChange : List (Step Unit) :=
  [.append 0 1 1 (.dropTable "t") .new,.append 1 1 2 (.dropTable "u") .new,.write 1,.poll 0 none,.write 0,.poll 0 none]

theorem appends_out_of_order : ¬(run World.step new reusedNumber).Correct ∧ ¬(run World.step new hiddenChange).Correct := by
  constructor
  · intro hcorrect
    have hunique := hcorrect.unique
    revert hunique
    decide
  · intro hcorrect
    -- The first change is stored, and neither received nor ahead.
    have hzero : 0 ∈ (run World.step new hiddenChange).appended.map ChangeEntry.lsn := by decide
    have hreceived : ((run World.step new hiddenChange).consumers 0).received.map ChangeEntry.lsn = [1] := by decide
    have hahead : ((run World.step new hiddenChange).store.ahead 2).map ChangeEntry.lsn = [] := by decide
    obtain ⟨e,he,hlsn⟩ := mem_map.mp hzero
    rcases hcorrect.complete 0 e he with hcompacted | hsent | hstill
    · cases hcompacted
    · have := mem_map_of_mem (f := ChangeEntry.lsn) hsent
      rw [hlsn,hreceived] at this
      simp at this
    · have := mem_map_of_mem (f := ChangeEntry.lsn) hstill
      rw [hlsn] at this
      exact absurd (hahead ▸ this) (by simp)

end World
end HeliosNano.Sync.ChangeLog
