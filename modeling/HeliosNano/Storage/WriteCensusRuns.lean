import HeliosNano.Storage.WriteCensus
import Mathlib.Algebra.Order.Sub.Basic
import Mathlib.Tactic.Abel

namespace HeliosNano.Storage.WriteCensus
open Foundation List Function Option

namespace UncommittedWriteCensus
variable {c : UncommittedWriteCensus} {table table' : Bytes}

theorem table_insert (counts : TableWriteCensus) :
    UncommittedWriteCensus.table { c with tables := c.tables.insert table counts } table' = if table' = table then counts else c.table table' := by
  rw [UncommittedWriteCensus.table,Map.lookup_insert_ite]
  split
  · rfl
  · rfl

theorem table_of_lookup {counts : TableWriteCensus} (h : c.tables.lookup table = some counts) : c.table table = counts := by
  rw [UncommittedWriteCensus.table,h]
  rfl

theorem count_new (s : Slot) : new.count s = 0 := by
  cases s <;> rfl

theorem count_enter (slot s : Slot) : (c.enter slot).count s = c.count s + if s = slot then 1 else 0 := by
  cases slot with
  | anywhere | unattributed => cases s <;> simp [enter,count,UncommittedWriteCensus.table]
  | written table =>
    cases s with
    | anywhere | unattributed => rfl
    | written table' | removed table' =>
      rw [enter,enterTableWrite,count,count,table_insert]
      by_cases h : table' = table <;> simp [h]
  | removed table =>
    cases s with
    | anywhere | unattributed => rfl
    | written table' | removed table' =>
      rw [enter,enterTableRemoval,count,count,table_insert]
      by_cases h : table' = table <;> simp [h]

theorem table_of_none (h : c.tables.lookup table = none) : c.table table = ⟨0,0⟩ := by
  rw [UncommittedWriteCensus.table,h]
  rfl

theorem count_leave (slot s : Slot) : (c.leave slot).count s = c.count s - if s = slot then 1 else 0 := by
  cases slot with
  | anywhere | unattributed => cases s <;> simp [leave,count,UncommittedWriteCensus.table]
  | written table | removed table =>
    simp only [leave,leaveTableWrite,leaveTableRemoval]
    cases hlk : c.tables.lookup table with
    | none =>
      dsimp only
      split
      next hs => simp [hs,count,table_of_none hlk]
      next => simp
    | some counts =>
      cases s with
      | anywhere | unattributed => rfl
      | written table' | removed table' =>
        rw [count,count,table_insert]
        by_cases h : table' = table <;> simp [h,table_of_lookup hlk]

theorem tableHasStagedWrites_eq : c.tableHasStagedWrites table = decide (0 < c.count .unattributed ∨ 0 < c.count (.written table)) := by
  rw [tableHasStagedWrites,count,count,UncommittedWriteCensus.table]
  by_cases h : 0 < c.unattributed
  · rw [if_pos h,decide_eq_true (.inl h)]
  · rw [if_neg h]
    cases c.tables.lookup table <;> simp [h]

theorem tableHasStagedIndexRemovals_eq :
    c.tableHasStagedIndexRemovals table = decide (0 < c.count .unattributed ∨ 0 < c.count (.removed table)) := by
  rw [tableHasStagedIndexRemovals,count,count,UncommittedWriteCensus.table]
  by_cases h : 0 < c.unattributed
  · rw [if_pos h,decide_eq_true (.inl h)]
  · rw [if_neg h]
    cases c.tables.lookup table <;> simp [h]

end UncommittedWriteCensus

namespace WriteCensusGate
variable {g : WriteCensusGate} {table : Bytes}

def held (g : WriteCensusGate) : Multiset Slot := g.membership

theorem coe_flag (flag : Bool) (slot : Slot) : ((if flag then [slot] else [] : List Slot) : Multiset Slot) = if flag then {slot} else 0 := by
  cases flag <;> rfl

theorem held_eq (g : WriteCensusGate) : g.held = (if g.counted then {.anywhere} else 0)+(if g.unattributed then {.unattributed} else 0) +
    (g.tablesWritten.map .written : List Slot)+(g.tablesRemoved.map .removed : List Slot) := by
  rw [held,membership,← Multiset.coe_add,← Multiset.coe_add,← Multiset.coe_add,coe_flag,coe_flag]

theorem coe_released (g : WriteCensusGate) : (g.released : Multiset Slot) = g.held := by
  rw [held_eq,released,← Multiset.coe_add,← Multiset.coe_add,← Multiset.coe_add,coe_flag,coe_flag]
  abel

theorem mem_held_written : Slot.written table ∈ g.held ↔ table ∈ g.tablesWritten := by
  rw [held,membership]
  simp

theorem mem_held_removed : Slot.removed table ∈ g.held ↔ table ∈ g.tablesRemoved := by
  rw [held,membership]
  simp

theorem mem_held_anywhere : Slot.anywhere ∈ g.held ↔ g.counted = true := by
  rw [held,membership]
  simp

theorem coe_map_append {f : Bytes → Slot} (tables : List Bytes) (table : Bytes) :
    ((tables ++ [table]).map f : Multiset Slot) = (tables.map f : List Slot) + {f table} := by
  rw [map_append,← Multiset.coe_add]
  rfl

theorem held_noteWrite : g.noteWrite.1.held = g.held+g.noteWrite.2 ∧ .anywhere ∈ g.noteWrite.1.held := by
  rw [noteWrite]
  by_cases h : g.counted = true
  · rw [if_pos h]
    exact ⟨(add_zero _).symm,mem_held_anywhere.mpr h⟩
  rw [if_neg h]
  refine ⟨?_,mem_held_anywhere.mpr rfl⟩
  rw [held_eq,held_eq,if_neg h,if_pos rfl,Multiset.coe_singleton]
  abel

theorem held_noteUnattributed : g.noteUnattributed.1.held = g.held+g.noteUnattributed.2 := by
  rw [noteUnattributed]
  by_cases h : g.unattributed = true
  · rw [if_pos h]
    exact (add_zero _).symm
  rw [if_neg h,held_eq,held_eq g]
  dsimp only
  rw [if_neg h,if_pos rfl,Multiset.coe_singleton]
  abel

theorem held_noteTableWrite (g : WriteCensusGate) (table : Bytes) :
    (g.noteTableWrite table).1.held = g.held+(g.noteTableWrite table).2 ∧ .written table ∈ (g.noteTableWrite table).1.held := by
  rw [noteTableWrite]
  by_cases h : table ∈ g.tablesWritten
  · rw [if_pos h]
    exact ⟨(add_zero _).symm,mem_held_written.mpr h⟩
  rw [if_neg h]
  refine ⟨?_,mem_held_written.mpr (mem_append_right _ (mem_singleton_self table))⟩
  rw [held_eq,held_eq g]
  dsimp only
  rw [coe_map_append,Multiset.coe_singleton]
  abel

theorem held_noteTableRemoval (g : WriteCensusGate) (table : Bytes) :
    (g.noteTableRemoval table).1.held = g.held+(g.noteTableRemoval table).2 ∧ .removed table ∈ (g.noteTableRemoval table).1.held := by
  rw [noteTableRemoval]
  by_cases h : table ∈ g.tablesRemoved
  · rw [if_pos h]
    exact ⟨(add_zero _).symm,mem_held_removed.mpr h⟩
  rw [if_neg h]
  have hw := (g.held_noteTableWrite table).1
  generalize g.noteTableWrite table = noted at hw ⊢
  obtain ⟨gate,slots⟩ := noted
  dsimp only at hw ⊢
  refine ⟨?_,mem_held_removed.mpr (mem_append_right _ (mem_singleton_self table))⟩
  calc WriteCensusGate.held { gate with tablesRemoved := gate.tablesRemoved ++ [table] } = gate.held + {.removed table} := by
        rw [held_eq,held_eq gate]
        dsimp only
        rw [coe_map_append]
        abel
    _ = g.held+(slots ++ [.removed table] : List Slot) := by
        rw [hw,← Multiset.coe_add,Multiset.coe_singleton,add_assoc]

end WriteCensusGate

def Covers (held : Multiset Slot) (entry : Key × StagedKey) : Prop :=
  .anywhere ∈ held ∧ ∀ table ∈ notedTable entry.1, .written table ∈ held ∧ (entry.2 = .tombstone → .removed table ∈ held)

theorem Covers.mono {held held' : Multiset Slot} {entry : Key × StagedKey} (h : Covers held entry) (hle : held ≤ held') : Covers held' entry :=
  ⟨Multiset.mem_of_le hle h.1,fun table htb =>
    ⟨Multiset.mem_of_le hle (h.2 table htb).1,fun hk => Multiset.mem_of_le hle ((h.2 table htb).2 hk)⟩⟩

namespace Enrolled

def Sound (t : Enrolled) : Prop := ∀ table ∈ t.writtenTables, Slot.written table ∈ t.gate.held

/-- A transaction whose gate has some more slots. -/
structure Extends (t : Enrolled) (slots : List Slot) (t' : Enrolled) : Prop where
  held : t'.gate.held = t.gate.held+slots
  sound : t.Sound → t'.Sound
  staged : t'.staged = t.staged

variable {t t' t'' : Enrolled} {slots slots' : List Slot}

theorem Extends.trans (h : t.Extends slots t') (h' : t'.Extends slots' t'') : t.Extends (slots ++ slots') t'' where
  held := by rw [h'.held,h.held,← Multiset.coe_add,add_assoc]
  sound hsound := h'.sound (h.sound hsound)
  staged := h'.staged.trans h.staged

theorem Extends.mem (h : t.Extends slots t') {slot : Slot} (hs : slot ∈ t.gate.held) : slot ∈ t'.gate.held := by
  rw [h.held]
  exact Multiset.mem_add.mpr (.inl hs)

theorem extends_gate {noted : WriteCensusGate.Noted} (h : noted.1.held = t.gate.held+noted.2) (unattributed : Bool) :
    t.Extends noted.2 { t with gate := noted.1, hasUnattributedWrites := unattributed } where
  held := h
  sound hs table htable := by
    rw [h]
    exact Multiset.mem_add.mpr (.inl (hs table htable))
  staged := rfl

theorem extends_noteWrite (t : Enrolled) : t.Extends t.noteWrite.2 t.noteWrite.1 ∧ .anywhere ∈ t.noteWrite.1.gate.held :=
  ⟨extends_gate t.gate.held_noteWrite.1 t.hasUnattributedWrites,t.gate.held_noteWrite.2⟩

theorem extends_noteRemoval (t : Enrolled) (table : Bytes) :
    t.Extends (t.noteRemoval table).2 (t.noteRemoval table).1 ∧ .removed table ∈ (t.noteRemoval table).1.gate.held :=
  ⟨extends_gate (t.gate.held_noteTableRemoval table).1 t.hasUnattributedWrites,(t.gate.held_noteTableRemoval table).2⟩

theorem extends_noteTable (t : Enrolled) (table : Bytes) :
    t.Extends (t.noteTable table).2 (t.noteTable table).1 ∧ (t.Sound → .written table ∈ (t.noteTable table).1.gate.held) := by
  rw [noteTable]
  by_cases h : table ∈ t.writtenTables
  · rw [if_pos h]
    exact ⟨⟨(add_zero _).symm,id,rfl⟩,fun hs => hs table h⟩
  rw [if_neg h]
  obtain ⟨hh,hw⟩ := t.gate.held_noteTableWrite table
  refine ⟨⟨hh,fun hs table' ht' => ?_,rfl⟩,fun _ => hw⟩
  obtain hold | hnew := mem_append.mp ht'
  · change Slot.written table' ∈ (t.gate.noteTableWrite table).1.held
    rw [hh]
    exact Multiset.mem_add.mpr (.inl (hs table' hold))
  · rw [mem_singleton.mp hnew]
    exact hw

theorem extends_noteWrittenKey (hsn : t.Sound) (key : Key) (staged : StagedKey) :
    t.Extends (t.noteWrittenKey key staged).2 (t.noteWrittenKey key staged).1 ∧
      Covers (t.noteWrittenKey key staged).1.gate.held (key,staged) := by
  obtain ⟨hf,ha⟩ := t.extends_noteWrite
  rw [noteWrittenKey]
  generalize t.noteWrite = noted at hf ha ⊢
  obtain ⟨t₁,first⟩ := noted
  dsimp only at hf ha ⊢
  cases htb : notedTable key with
  | none =>
    have hg : ∀ noted : WriteCensusGate.Noted, noted.1.held = t₁.gate.held+noted.2 →
        t.Extends (first ++ noted.2) { t₁ with gate := noted.1, hasUnattributedWrites := true } ∧ Covers noted.1.held (key,staged) := by
      intro noted hh
      have hs := extends_gate hh true
      refine ⟨hf.trans hs,hs.mem ha,fun table hno => ?_⟩
      rw [htb] at hno
      cases hno
    dsimp only
    split
    · exact hg (t₁.gate,[]) (add_zero _).symm
    · exact hg t₁.gate.noteUnattributed t₁.gate.held_noteUnattributed
  | some table =>
    have hn : ∀ {held : Multiset Slot}, .anywhere ∈ held → .written table ∈ held → (staged = .tombstone → .removed table ∈ held) →
        Covers held (key,staged) := by
      intro held han hw hr
      refine ⟨han,fun table' ht' => ?_⟩
      rw [htb] at ht'
      cases ht'
      exact ⟨hw,hr⟩
    obtain ⟨hs,hw⟩ := t₁.extends_noteTable table
    dsimp only
    generalize t₁.noteTable table = noted at hs hw ⊢
    obtain ⟨t₂,second⟩ := noted
    have hw := hw (hf.sound hsn)
    dsimp only at hs hw ⊢
    by_cases hk : staged = .tombstone
    · obtain ⟨hth,hr⟩ := t₂.extends_noteRemoval table
      rw [if_pos hk]
      exact ⟨(hf.trans hs).trans hth,hn (hth.mem (hs.mem ha)) (hth.mem hw) fun _ => hr⟩
    · rw [if_neg hk]
      exact ⟨hf.trans hs,hn (hs.mem ha) hw fun hno => absurd hno hk⟩

theorem extends_start (hs : t.Sound) (call : StagingCall) :
    t.Extends (t.start call).2.1 (t.start call).1 ∧ ∀ entry ∈ (t.start call).2.2, Covers (t.start call).1.gate.held entry := by
  have hkey : ∀ key staged, t.Extends (t.noteWrittenKey key staged).2 (t.noteWrittenKey key staged).1 ∧
      ∀ entry ∈ some (key,staged), Covers (t.noteWrittenKey key staged).1.gate.held entry := by
    intro key staged
    obtain ⟨hextends,hc⟩ := extends_noteWrittenKey hs key staged
    refine ⟨hextends,fun entry he => ?_⟩
    cases he
    exact hc
  cases call with
  | put key | putInsertFast key => exact hkey key .value
  | delete key => exact hkey key .tombstone
  | stageRowCounter table => exact ⟨t.extends_noteWrite.1.trans (extends_noteTable _ table).1,nofun⟩
  | noteIndexKeyRemoval table => exact ⟨(t.extends_noteRemoval table).1,nofun⟩

end Enrolled

namespace Party

/-- The slots that a party has taken and not given back. -/
def owned : Party → Multiset Slot
  | .transaction t entering _ => t.gate.held-entering
  | .hold membership _ entering => membership.held-entering
  | .leaving slots => slots

/-- What a party is still to take is in its gate, and it owns what its staged keys need. -/
def Sound : Party → Prop
  | .transaction t entering staging => t.Sound ∧ (entering : Multiset Slot) ≤ t.gate.held ∧
      (∀ entry ∈ t.staged, Covers (t.gate.held-entering) entry) ∧ ∀ entry ∈ staging, Covers t.gate.held entry
  | .hold membership staged entering => (entering : Multiset Slot) ≤ membership.held ∧ ∀ entry ∈ staged, Covers membership.held entry
  | .leaving _ => True

theorem owned_settle (t : Enrolled) (entering : List Slot) (staging : Option (Key × StagedKey)) :
    (settle t entering staging).owned = t.gate.held-entering := by
  rw [settle]
  split
  next hn =>
    rw [hn]
    rfl
  · rfl

theorem sound_settle {t : Enrolled} {entering : List Slot} {staging : Option (Key × StagedKey)} (h : Sound (.transaction t entering staging)) :
    (settle t entering staging).Sound := by
  rw [settle]
  split
  next hn =>
    subst hn
    obtain ⟨hsn,hle,hst,hs⟩ := h
    refine ⟨hsn,hle,fun entry he => ?_,nofun⟩
    obtain hold | hnew := mem_append.mp he
    · exact hst entry hold
    · exact (hs entry (mem_toList.mp hnew)).mono (tsub_zero _).ge
  · exact h

theorem Sound.covers {party : Party} (h : party.Sound) {entry : Key × StagedKey} (he : entry ∈ party.staged) : Covers party.owned entry := by
  cases party with
  | transaction t entering staging => exact h.2.2.1 entry he
  | hold membership staged entering =>
    cases entering with
    | nil => exact (h.2 entry he).mono (tsub_zero _).ge
    | cons slot entering => cases he
  | leaving slots => cases he

end Party

theorem cons_sub_cons {slot : Slot} {entering : List Slot} {held : Multiset Slot} (h : ((slot::entering : List Slot) : Multiset Slot) ≤ held) :
    slot ::ₘ (held-(slot::entering : List Slot)) = held-(entering : List Slot) := by
  refine Multiset.ext.mpr fun s => ?_
  have hc := Multiset.count_le_of_le s h
  rw [← Multiset.cons_coe,Multiset.count_cons] at hc
  rw [← Multiset.cons_coe,Multiset.count_cons,Multiset.count_sub,Multiset.count_sub,Multiset.count_cons]
  omega

namespace World
variable {w : World}

def holdings (w : World) (id : Nat) : Multiset Slot := (w.parties id).owned

/-- The counters mirror what the parties own, and each party is sound. -/
structure Sound (w : World) : Prop where
  counted : Mirrors w.census.count w.holdings w.next
  unborn : ∀ id, w.next ≤ id → w.parties id = .leaving []
  parties : ∀ id, (w.parties id).Sound

theorem holdings_set (id : Nat) (party : Party) : (w.set id party).holdings = Function.update w.holdings id party.owned := by
  funext id'
  change (Function.update w.parties id party id').owned = _
  by_cases h : id' = id
  · rw [h,update_self,update_self]
  · rw [update_of_ne h,update_of_ne h]
    rfl

theorem Sound.lt (h : w.Sound) {id : Nat} (hb : w.parties id ≠ .leaving []) : id < w.next := by
  by_contra hle
  exact hb (h.unborn id (Nat.le_of_not_lt hle))

variable {party : Party}

theorem Sound.change (h : w.Sound) {id : Nat} (hb : w.parties id ≠ .leaving []) (hp : party.Sound)
    {census : UncommittedWriteCensus} (hc : Mirrors census.count (Function.update w.holdings id party.owned) w.next) :
    Sound { w.set id party with census := census } where
  counted := by
    change Mirrors census.count (w.set id party).holdings w.next
    rw [holdings_set]
    exact hc
  unborn id' hle := by
    have hne : id' ≠ id := fun heq => absurd (h.lt hb) (Nat.not_lt.mpr (heq ▸ hle))
    exact (update_of_ne hne party w.parties).trans (h.unborn id' hle)
  parties id' := by
    change (Function.update w.parties id party id').Sound
    by_cases hid : id' = id
    · rw [hid,update_self]
      exact hp
    · rw [update_of_ne hid]
      exact h.parties id'

theorem Sound.keep (h : w.Sound) {id : Nat} (hb : w.parties id ≠ .leaving []) (hp : party.Sound)
    (ho : party.owned = (w.parties id).owned) : (w.set id party).Sound := by
  refine h.change hb hp ?_
  rw [ho]
  change Mirrors w.census.count (Function.update w.holdings id (w.holdings id)) w.next
  rw [update_eq_self]
  exact h.counted

theorem Sound.add (h : w.Sound) (hp : party.Sound) (ho : party.owned = 0) : (w.add party).Sound where
  counted := by
    have hnew : w.holdings w.next = 0 := by
      rw [holdings,h.unborn w.next le_rfl]
      rfl
    change Mirrors w.census.count (w.set w.next party).holdings (w.next+1)
    rw [holdings_set,ho,← hnew,update_eq_self]
    exact h.counted.enrol hnew
  unborn id hle := by
    have hne : id ≠ w.next := fun heq => absurd hle (by rw [heq]; exact Nat.not_succ_le_self _)
    exact (update_of_ne hne party w.parties).trans (h.unborn id (Nat.le_of_succ_le hle))
  parties id := by
    change (Function.update w.parties w.next party id).Sound
    by_cases hid : id = w.next
    · rw [hid,update_self]
      exact hp
    · rw [update_of_ne hid]
      exact h.parties id

theorem sound_new : World.new.Sound where
  counted slot := by
    cases slot <;> rfl
  unborn _ _ := rfl
  parties _ := trivial

theorem Sound.advance (h : w.Sound) (id : Nat) : (w.advance id).Sound := by
  have hp := h.parties id
  rw [World.advance]
  cases hc : w.parties id with
  | transaction t entering staging =>
    cases entering with
    | nil => exact h
    | cons slot entering =>
      rw [hc] at hp
      obtain ⟨hsn,hle,hst,hs⟩ := hp
      have htk := cons_sub_cons hle
      refine h.change (by rw [hc]; exact nofun) (Party.sound_settle ⟨hsn,?_,fun entry hen => ?_,hs⟩) ?_
      · exact (Multiset.le_cons_self _ slot).trans hle
      · refine (hst entry hen).mono ?_
        rw [← htk]
        exact Multiset.le_cons_self _ slot
      · have he := h.counted.enter (h.lt (by rw [hc]; exact nofun)) (w.census.count_enter slot)
        rw [holdings,hc] at he
        rwa [Party.owned_settle,← htk]
  | hold membership staged entering =>
    cases entering with
    | nil => exact h
    | cons slot entering =>
      rw [hc] at hp
      obtain ⟨hle,hst⟩ := hp
      have htk := cons_sub_cons hle
      have hrest : Party.Sound (.hold membership staged entering) := ⟨(Multiset.le_cons_self _ slot).trans hle,hst⟩
      refine h.change (by rw [hc]; exact nofun) hrest ?_
      have he := h.counted.enter (h.lt (by rw [hc]; exact nofun)) (w.census.count_enter slot)
      rw [holdings,hc] at he
      rwa [Party.owned,← htk]
  | leaving slots =>
    cases slots with
    | nil => exact h
    | cons slot slots =>
      have hb : w.parties id ≠ .leaving [] := by
        rw [hc]
        exact nofun
      have hrest : Party.Sound (.leaving slots) := trivial
      refine h.change hb hrest ?_
      have hh : slot ∈ w.holdings id := by
        rw [holdings,hc]
        exact mem_cons_self
      have hl := h.counted.leave (h.lt hb) hh (w.census.count_leave slot)
      rw [holdings,hc,Party.owned,← Multiset.cons_coe,Multiset.erase_cons_head] at hl
      exact hl

theorem Sound.step (h : w.Sound) (action : Action) : (w.step action).Sound := by
  cases action with
  | enroll => exact h.add ⟨fun _ hno => absurd hno not_mem_nil,Multiset.zero_le _,fun _ hno => absurd hno not_mem_nil,nofun⟩ rfl
  | call id call =>
    have hp := h.parties id
    rw [World.step]
    split
    next t staging hc =>
      rw [hc] at hp
      obtain ⟨hsn,-,hs,-⟩ := hp
      obtain ⟨hextends,hcv⟩ := Enrolled.extends_start hsn call
      have hsb : (t.start call).1.gate.held - ((t.start call).2.1 : Multiset Slot) = t.gate.held := by
        rw [hextends.held,add_tsub_cancel_right]
      refine h.keep (by rw [hc]; exact nofun) (Party.sound_settle ⟨hextends.sound hsn,?_,fun entry he => ?_,hcv⟩) ?_
      · rw [hextends.held]
        exact Multiset.le_add_left _ _
      · rw [hsb]
        rw [hextends.staged] at he
        exact (hs entry he).mono (tsub_zero _).le
      · rw [Party.owned_settle,hsb,hc]
        exact (tsub_zero _).symm
    · exact h
  | advance id => exact h.advance id
  | writeCensusHold id =>
    have hp := h.parties id
    rw [World.step]
    split
    next t staging hc =>
      rw [hc] at hp
      obtain ⟨-,-,hs,-⟩ := hp
      split
      · refine h.add ⟨le_rfl,fun entry he => (hs entry he).mono (tsub_zero _).le⟩ ?_
        exact tsub_self _
      · exact h
    · exact h
  | drop id =>
    rw [World.step]
    split
    next t staging hc =>
      refine h.keep (by rw [hc]; exact nofun) trivial ?_
      rw [hc]
      exact t.gate.coe_released.trans (tsub_zero _).symm
    next membership staged hc =>
      refine h.keep (by rw [hc]; exact nofun) trivial ?_
      rw [hc]
      exact membership.coe_released.trans (tsub_zero _).symm
    · exact h

end World

theorem notedTable_dataKey (table : TableName) (row : RowId) :
    notedTable (dataKey table.bytes row) = (splitFirst colon (rowText table.bytes row)).map Prod.fst := by
  have hu : (fromUtf8 (rowText table.bytes row)).isSome = true := (isSome_fromUtf8 _).mpr (isUtf8_rowText table row)
  rw [notedTable,dataKey,stripPrefix_append]
  simp only [bind_eq_bind,bind_some,hu,if_true]
  cases splitFirst colon (rowText table.bytes row) <;> rfl

theorem notedTable_of_notMem {table : TableName} (h : colon ∉ table.bytes) (row : RowId) :
    notedTable (dataKey table.bytes row) = some table.bytes := by
  rw [notedTable_dataKey,rowText,splitFirst_append h]
  rfl

theorem notedTable_of_mem {table : TableName} (h : colon ∈ table.bytes) (row : RowId) :
    ∃ other, other ≠ table.bytes ∧ notedTable (dataKey table.bytes row) = some other := by
  obtain ⟨before,after,hs,-⟩ := splitFirst_of_mem h (decimal row)
  refine ⟨before,fun heq => ?_,?_⟩
  · rw [← heq] at h
    exact (splitFirst_eq_some hs).2 h
  · rw [notedTable_dataKey,rowText,hs]
    rfl

namespace World

/-- All transactions have ended and all holds are gone. -/
def Drained (w : World) : Prop := ∀ id, w.parties id = .leaving []

/-- What is staged for a table, by an open transaction or under a hold, is known to the census, and a census that is left counts nothing. -/
structure Tells (w : World) (table : TableName) : Prop where
  staged : ∀ id row kind, (dataKey table.bytes row,kind) ∈ (w.parties id).staged →
    w.census.anyUncommittedWrites = true ∧ w.census.tableHasStagedWrites table.bytes = true ∧
      (kind = .tombstone → w.census.tableHasStagedIndexRemovals table.bytes = true)
  drained : w.Drained → ∀ slot, w.census.count slot = 0

theorem Sound.drained {w : World} (h : w.Sound) (hd : w.Drained) (slot : Slot) : w.census.count slot = 0 := by
  refine h.counted.eq_zero (fun id => ?_) slot
  rw [holdings,hd id]
  rfl

theorem Sound.tells {w : World} (h : w.Sound) {table : TableName} (hc : colon ∉ table.bytes) : w.Tells table := by
  refine ⟨fun id row kind he => ?_,h.drained⟩
  have hb : w.parties id ≠ .leaving [] := by
    intro hl
    rw [hl] at he
    cases he
  obtain ⟨ha,htb⟩ := (h.parties id).covers he
  obtain ⟨hw,hr⟩ := htb table.bytes (notedTable_of_notMem hc row)
  refine ⟨decide_eq_true (h.counted.pos (h.lt hb) ha),?_,fun hk => ?_⟩
  · rw [UncommittedWriteCensus.tableHasStagedWrites_eq]
    exact decide_eq_true (.inr (h.counted.pos (h.lt hb) hw))
  · rw [UncommittedWriteCensus.tableHasStagedIndexRemovals_eq]
    exact decide_eq_true (.inr (h.counted.pos (h.lt hb) (hr hk)))

def oneWrite (key : Key) : List Action := [.enroll,.call 0 (.put key),.advance 0,.advance 0]

theorem run_oneWrite {key : Key} {other : Bytes} (h : notedTable key = some other) :
    (run step new (oneWrite key)).census = (UncommittedWriteCensus.new.enter .anywhere).enter (.written other) ∧
      (key,.value) ∈ ((run step new (oneWrite key)).parties 0).staged := by
  have hn : Enrolled.new.noteWrittenKey key .value =
      (⟨⟨true,false,[other],[]⟩,[other],false,[]⟩,[.anywhere,.written other]) := by
    rw [Enrolled.noteWrittenKey,h]
    rfl
  have hs : Enrolled.new.start (.put key) =
      (⟨⟨true,false,[other],[]⟩,[other],false,[]⟩,[.anywhere,.written other],some (key,.value)) := by
    rw [Enrolled.start,hn]
  have hcall : (new.step .enroll).step (.call 0 (.put key)) = (new.step .enroll).set 0
      (.transaction ⟨⟨true,false,[other],[]⟩,[other],false,[]⟩ [.anywhere,.written other] (some (key,.value))) := by
    change (new.step .enroll).set 0 (.settle (Enrolled.new.start (.put key)).1 (Enrolled.new.start (.put key)).2.1
      (Enrolled.new.start (.put key)).2.2) = _
    rw [hs]
    rfl
  rw [oneWrite,run_cons,run_cons,hcall]
  exact ⟨rfl,mem_singleton_self _⟩

end World

/-- Over every interleaving, the census tells what is staged for a table and is left empty in the end just for tables whose name has no
separator. -/
theorem census_tells_iff (table : TableName) :
    (∀ actions, (run World.step World.new actions).Tells table) ↔ colon ∉ table.bytes := by
  constructor
  · intro htells hcolon
    obtain ⟨other,hother,hnoted⟩ := notedTable_of_mem hcolon 1
    obtain ⟨hcensus,hstaged⟩ := World.run_oneWrite hnoted
    have hwrites := ((htells (World.oneWrite (dataKey table.bytes 1))).staged 0 1 .value hstaged).2.1
    rw [hcensus,UncommittedWriteCensus.tableHasStagedWrites_eq,decide_eq_true_iff] at hwrites
    have hcounts : Slot.unattributed ≠ .anywhere ∧ Slot.unattributed ≠ .written other ∧ Slot.written table.bytes ≠ .anywhere ∧
        Slot.written table.bytes ≠ .written other := by
      simpa using hother.symm
    obtain ⟨h₁,h₂,h₃,h₄⟩ := hcounts
    rw [UncommittedWriteCensus.count_enter,UncommittedWriteCensus.count_enter,UncommittedWriteCensus.count_enter,
      UncommittedWriteCensus.count_enter,if_neg h₁,if_neg h₂,if_neg h₃,if_neg h₄,UncommittedWriteCensus.count_new,
      UncommittedWriteCensus.count_new] at hwrites
    omega
  · intro hcolon actions
    exact World.Sound.tells (run_invariant World.step World.Sound (fun _ action h => h.step action) World.sound_new actions) hcolon

/-- The deletion of a row of the table `a:b` is counted for the table `a`. -/
theorem census_misses_separated_name :
    let key := dataKey (ascii ['a',':','b']) 1
    let w := run World.step World.new [.enroll,.call 0 (.delete key),.advance 0,.advance 0,.advance 0]
    (key,.tombstone) ∈ (w.parties 0).staged ∧ w.census.tableHasStagedWrites (ascii ['a',':','b']) = false ∧
      w.census.tableHasStagedIndexRemovals (ascii ['a',':','b']) = false ∧ w.census.tableHasStagedWrites (ascii ['a']) = true := by
  decide +kernel

end HeliosNano.Storage.WriteCensus
