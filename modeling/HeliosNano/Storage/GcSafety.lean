import HeliosNano.Storage.GcProtocol
import HeliosNano.Storage.GcReads

namespace HeliosNano.Storage.GcState
open Foundation List Option AList GcState

/-- The store holds nothing but what was there at first, and the watermark. -/
def Within (origin store : Store) : Prop :=
  ∀ key value, key ≠ lowWatermarkKey → store.lookup key = some value → origin.lookup key = some value

theorem Within.trimmed {origin base store : Store} {P : Key → Prop} (h : Within origin base) (htr : Trimmed P base store) :
    Within origin store := fun key value hne hlk => h key value hne (htr.of_some hlk)

/-- What holds of the readers that have checked, by the phase of the cycle. From the second look at the pins on, each is still
to be seen, or is seen, or has checked against the watermark that this cycle published. -/
def PhaseInv (origin : Store) (s : GcState) : CyclePhase → Prop
  | .ready true candidate => candidate ≤ s.gcLowWatermark
  | .clamping true candidate scan => candidate ≤ s.gcLowWatermark ∧
      ∀ pinId ts, s.Checked pinId ts → scan.Sees pinId ts ∨ candidate ≤ ts
  | .collecting horizon items c => horizon ≤ s.gcLowWatermark ∧ (∀ pinId ts, s.Checked pinId ts → horizon ≤ ts) ∧
      ∃ base, Within origin base ∧ (∀ key value, .ok (key,value) ∈ items → base.lookup key = some value) ∧
        GcCycle.Keeps (Protected base horizon) base { c with db := s.db }
  | _ => True

structure Inv (origin : Store) (s : GcState) : Prop where
  fresh : ∀ pinId ∈ s.gcPins, pinId < s.nextGcPin
  pinned : ∀ pinId ∈ s.checked, pinId ∈ s.gcPins
  within : Within origin s.db.store
  phase : s.PhaseInv origin s.phase

theorem inv_start (db : Db) (gc : VersionGc) (gcLowWatermark : Timestamp) : (start db gc gcLowWatermark).Inv db.store :=
  ⟨fun pinId hp => absurd hp (notMem_empty pinId),fun _ hc => absurd hc (Finset.notMem_empty _),
    fun _ _ _ hlk => hlk,trivial⟩

theorem PhaseInv.mono {origin : Store} {s s' : GcState} {phase : CyclePhase} (h : s.PhaseInv origin phase) (hdb : s'.db.store = s.db.store)
    (hw : s'.gcLowWatermark = s.gcLowWatermark) (hch : ∀ pinId ts, s'.Checked pinId ts → s.Checked pinId ts ∨
      s.gcLowWatermark ≤ ts) : s'.PhaseInv origin phase := by
  cases phase with
  | ready second candidate =>
    cases second with
    | false => trivial
    | true => exact le_of_le_of_eq h hw.symm
  | clamping second candidate scan =>
    cases second with
    | false => trivial
    | true =>
      refine ⟨le_of_le_of_eq h.1 hw.symm,fun pinId ts hc => ?_⟩
      rcases hch pinId ts hc with hold | hnew
      · exact h.2 pinId ts hold
      · exact .inr (h.1.trans hnew)
  | collecting horizon items c =>
    obtain ⟨hle,hr,base,hwn,hits,hk⟩ := h
    refine ⟨le_of_le_of_eq hle hw.symm,fun pinId ts hc => ?_,base,hwn,hits,?_⟩
    · rcases hch pinId ts hc with hold | hnew
      · exact hr pinId ts hold
      · exact hle.trans hnew
    · refine ⟨?_,hk.spared,hk.group⟩
      have htr := hk.trimmed
      dsimp only at htr ⊢
      rw [hdb]
      exact htr
  | idle | clamped horizon | persisted horizon => trivial

theorem clampedTo_le (candidate : Timestamp) (scan : Scan Nat Timestamp) (others : List Timestamp) :
    clampedTo candidate scan others ≤ candidate ∧ ∀ least, scan.lowest = some least → clampedTo candidate scan others ≤ least := by
  have hf : ∀ (others : List Timestamp) (bound : Timestamp), others.foldl min bound ≤ bound := by
    intro others
    induction others with
    | nil => exact fun bound => Nat.le_refl bound
    | cons other rest ih => exact fun bound => (ih (min bound other)).trans (Nat.min_le_left bound other)
  unfold clampedTo
  cases scan.lowest with
  | none => exact ⟨hf others candidate,fun least hl => (by cases hl)⟩
  | some found =>
    refine ⟨(hf others _).trans (Nat.min_le_left candidate found),fun least hl => ?_⟩
    cases hl
    exact (hf others _).trans (Nat.min_le_right candidate found)

section
variable {s : GcState} {base : Store} {horizon : Timestamp}
variable {c : GcCycle}

theorem finish_trimmed (hk : c.Keeps (Protected base horizon) base) (next : Option Key) :
    Trimmed (Protected base horizon) base (s.finish horizon c next).db.store ∧ (s.finish horizon c next).phase = .idle ∧
      (s.finish horizon c next).gcPins = s.gcPins ∧ (s.finish horizon c next).checked = s.checked ∧
      (s.finish horizon c next).nextGcPin = s.nextGcPin := by
  have hf := keeps_finish (careful_protected base horizon) hk next
  unfold finish
  cases hr : VersionGc.finish horizon c next with
  | error failure =>
    rw [hr] at hf
    exact ⟨hf,rfl,rfl,rfl,rfl⟩
  | ok c' =>
    rw [hr] at hf
    exact ⟨hf.trimmed,rfl,rfl,rfl,rfl⟩

theorem collect_trimmed {items : List (Except String (Key × Bytes))}
    (hits : ∀ key value, .ok (key,value) ∈ items → base.lookup key = some value) (hk : c.Keeps (Protected base horizon) base) :
    Trimmed (Protected base horizon) base (s.collect horizon c items).db.store ∧
      (s.collect horizon c items).gcPins = s.gcPins ∧ (s.collect horizon c items).checked = s.checked ∧
      (s.collect horizon c items).nextGcPin = s.nextGcPin ∧ ((s.collect horizon c items).phase = .idle ∨
        ∃ rest c', (s.collect horizon c items).phase = .collecting horizon rest c' ∧
          (s.collect horizon c items).gcLowWatermark = s.gcLowWatermark ∧
          (∀ key value, .ok (key,value) ∈ rest → base.lookup key = some value) ∧
          GcCycle.Keeps (Protected base horizon) base { c' with db := (s.collect horizon c items).db }) := by
  cases items with
  | nil =>
    obtain ⟨htr,hi,hp,hch,hn⟩ := finish_trimmed (s := s) hk none
    exact ⟨htr,hp,hch,hn,.inl hi⟩
  | cons item rest =>
    have hf : ∀ key value, item = .ok (key,value) → base.lookup key = some value :=
      fun key value heq => hits key value (heq ▸ mem_cons_self)
    have hr := keeps_scanItem (careful_protected base horizon) s.maxDeletes s.scanBudget hf hk
    cases hrs : VersionGc.scanItem horizon s.maxDeletes s.scanBudget c item with
    | error failure =>
      rw [hrs] at hr
      have hc : s.collect horizon c (item::rest) = { s with db := failure.1, phase := .idle } := by
        simp only [collect,hrs]
      rw [hc]
      exact ⟨hr,rfl,rfl,rfl,.inl rfl⟩
    | ok result =>
      obtain ⟨c',stop⟩ := result
      rw [hrs] at hr
      cases stop with
      | none =>
        have hc : s.collect horizon c (item::rest) = { s with db := c'.db, phase := .collecting horizon rest c' } := by
          simp only [collect,hrs]
        rw [hc]
        exact ⟨hr.trimmed,rfl,rfl,rfl,.inr ⟨rest,c',rfl,rfl,
          fun key value hm => hits key value (mem_cons_of_mem _ hm),hr⟩⟩
      | some next =>
        have hc : s.collect horizon c (item::rest) = s.finish horizon c' next := by
          simp only [collect,hrs]
        rw [hc]
        obtain ⟨htr,hi,hp,hch,hn⟩ := finish_trimmed (s := s) hr next
        exact ⟨htr,hp,hch,hn,.inl hi⟩

end

section
variable {origin : Store} {s s' : GcState} {pinId : Nat} {ts : Timestamp}
variable (h : s.Inv origin)
include h

theorem Inv.moved (hdb : Within origin s'.db.store) (hp : s'.gcPins = s.gcPins) (hn : s'.nextGcPin = s.nextGcPin) (hc : s'.checked = s.checked)
    (hph : s'.PhaseInv origin s'.phase) : s'.Inv origin := by
  refine ⟨?_,?_,hdb,hph⟩
  · rw [hp,hn]
    exact h.fresh
  · rw [hp,hc]
    exact h.pinned

theorem inv_of_eq {a : GcAction} (hs : s.step a = s) : (s.step a).Inv origin := by
  rw [hs]
  exact h

theorem inv_pinSnapshot (snapshotTs : Timestamp) : (s.step (.pinSnapshot snapshotTs)).Inv origin := by
  have ho : ∀ pinId ∈ s.checked, pinId ≠ s.nextGcPin := fun pinId hin => Nat.ne_of_lt (h.fresh pinId (h.pinned pinId hin))
  refine ⟨fun pinId hp => ?_,fun pinId hin => (mem_insert _).mpr (.inr (h.pinned pinId hin)),h.within,?_⟩
  · rcases (mem_insert _).mp hp with heq | hold
    · rw [heq]
      exact Nat.lt_succ_self _
    · exact Nat.lt_succ_of_lt (h.fresh pinId hold)
  · refine h.phase.mono rfl rfl fun pinId ts hc => .inl ⟨hc.1,?_⟩
    exact (lookup_insert_ne (ho pinId hc.1)).symm.trans hc.2

theorem inv_checkGcHorizon (pinId : Nat) : (s.step (.checkGcHorizon pinId)).Inv origin := by
  cases hp : s.gcPins.lookup pinId with
  | none =>
    have hs : s.step (.checkGcHorizon pinId) = s := by simp only [step,hp]
    rw [hs]
    exact h
  | some ts =>
    by_cases hlt : ts < s.gcLowWatermark
    · have hs : s.step (.checkGcHorizon pinId) = s := by simp only [step,hp,if_pos hlt]
      rw [hs]
      exact h
    · have hs : s.step (.checkGcHorizon pinId) = { s with checked := insert pinId s.checked } := by
        simp only [step,hp,if_neg hlt]
      rw [hs]
      refine ⟨h.fresh,?_,h.within,h.phase.mono rfl rfl fun other ts' hc => ?_⟩
      · intro other ho
        rcases Finset.mem_insert.mp ho with rfl | hin
        · exact lookup_isSome.mp (by rw [hp]; rfl)
        · exact h.pinned other hin
      · rcases Finset.mem_insert.mp hc.1 with rfl | hin
        · have hsame : ts' = ts := Option.some.inj (hc.2.symm.trans hp)
          rw [hsame]
          exact .inr (Nat.not_lt.mp hlt)
        · exact .inl ⟨hin,hc.2⟩

theorem inv_unpinSnapshot (pinId : Nat) : (s.step (.unpinSnapshot pinId)).Inv origin := by
  have hold : ∀ other ts, other ∈ s.checked.erase pinId → (s.gcPins.erase pinId).lookup other = some ts →
      other ≠ pinId ∧ s.Checked other ts := by
    intro other ts ho hlk
    obtain ⟨hne,hin⟩ := Finset.mem_erase.mp ho
    exact ⟨hne,hin,(lookup_erase_ne hne).symm.trans hlk⟩
  have hf : ∀ other ∈ s.gcPins.erase pinId, other < s.nextGcPin := fun other hin => h.fresh other (mem_erase.mp hin).2
  have hp : ∀ other ∈ s.checked.erase pinId, other ∈ s.gcPins.erase pinId := by
    intro other ho
    obtain ⟨hne,hin⟩ := Finset.mem_erase.mp ho
    exact mem_erase.mpr ⟨hne,h.pinned other hin⟩
  have hsame : ∀ {phase : CyclePhase}, s.phase = phase → PhaseInv origin { s with
      gcPins := s.gcPins.erase pinId, checked := s.checked.erase pinId } phase := by
    rintro phase rfl
    exact h.phase.mono rfl rfl fun other ts hc => .inl (hold other ts hc.1 hc.2).2
  cases hph : s.phase with
  | clamping second candidate scan =>
    have hs : s.step (.unpinSnapshot pinId) = { s with
        gcPins := s.gcPins.erase pinId, checked := s.checked.erase pinId, phase := .clamping second candidate (scan.drop pinId) } := by
      simp only [step,hph]
    rw [hs]
    refine ⟨hf,hp,h.within,?_⟩
    have hb := h.phase
    rw [hph] at hb
    cases second with
    | false => trivial
    | true =>
      refine ⟨hb.1,fun other ts hc => ?_⟩
      obtain ⟨hne,hc'⟩ := hold other ts hc.1 hc.2
      exact (hb.2 other ts hc').imp_left fun hss => hss.drop hne
  | _ =>
    have hs : s.step (.unpinSnapshot pinId) = { s with gcPins := s.gcPins.erase pinId, checked := s.checked.erase pinId } := by
      simp only [step,hph]
    rw [hs]
    exact ⟨hf,hp,h.within,hsame rfl⟩

theorem inv_lookAtPins : (s.step .lookAtPins).Inv origin := by
  cases hph : s.phase with
  | ready second candidate =>
    have hs : s.step .lookAtPins = { s with phase := .clamping second candidate (Scan.start s.gcPins) } := by
      simp only [step,hph]
    rw [hs]
    refine h.moved h.within rfl rfl rfl ?_
    have hb := h.phase
    rw [hph] at hb
    cases second with
    | false => trivial
    | true => exact ⟨hb,fun pinId ts hc => .inl (Scan.sees_start hc.2)⟩
  | _ =>
    exact inv_of_eq h (by simp only [step,hph])

theorem inv_visitPin (pinId : Nat) : (s.step (.visitPin pinId)).Inv origin := by
  cases hph : s.phase with
  | clamping second candidate scan =>
    have hs : s.step (.visitPin pinId) = { s with phase := .clamping second candidate (Scan.visit s.gcPins scan pinId) } := by
      simp only [step,hph]
    rw [hs]
    refine h.moved h.within rfl rfl rfl ?_
    have hb := h.phase
    rw [hph] at hb
    cases second with
    | false => trivial
    | true => exact ⟨hb.1,fun other ts hc => (hb.2 other ts hc).imp_left fun hss => hss.visit hc.2 pinId⟩
  | _ =>
    exact inv_of_eq h (by simp only [step,hph])

omit h

variable {key : Key} {store' : Store} {row : RowId} {table : TableName} {horizon : Timestamp} {base : Store}

theorem lookup_of_mem_iter {db : Db} {start : Key} {value : Bytes} (h : .ok (key,value) ∈ db.iter start) :
    db.store.lookup key = some value := by
  obtain ⟨entry,he,heq⟩ := mem_map.mp h
  split at heq
  · cases heq
  · cases heq
    exact ((Map.mem_iterFrom _ _ _).mp he).1

variable (h : s.Inv origin)
include h

theorem inv_clamp (others : List Timestamp) : (s.step (.clamp others)).Inv origin := by
  cases hph : s.phase with
  | clamping second candidate scan =>
    by_cases hp : scan.pending = []
    · have hb := h.phase
      rw [hph] at hb
      obtain ⟨hcn,hls⟩ := clampedTo_le candidate scan others
      cases second with
      | false =>
        have hs : s.step (.clamp others) = { s with phase := .clamped (clampedTo candidate scan others) } := by
          simp only [step,hph,ne_eq,hp,not_true_eq_false,if_false,Bool.false_eq_true]
        rw [hs]
        exact h.moved h.within rfl rfl rfl trivial
      | true =>
        have hs : s.step (.clamp others) = { s with
            phase := .collecting (clampedTo candidate scan others) (s.db.iter (s.gc.cursor.getD versionLead))
              ⟨s.db,[],0,[],[],⟨0,0,0,true⟩⟩ } := by
          simp only [step,hph,ne_eq,hp,not_true_eq_false,if_false,if_true]
        rw [hs]
        refine h.moved h.within rfl rfl rfl ⟨hcn.trans hb.1,fun pinId ts hc => ?_,s.db.store,h.within,?_,?_⟩
        · rcases hb.2 pinId ts hc with hss | hle
          · obtain ⟨least,hl,hle⟩ := hss.done hp
            exact (hls least hl).trans hle
          · exact hcn.trans hle
        · exact fun key value hm => lookup_of_mem_iter hm
        · exact ⟨Trimmed.refl _ _,fun op hop => absurd hop not_mem_nil,fun ts hts => absurd hts not_mem_nil⟩
    · have hs : s.step (.clamp others) = s := by simp only [step,hph,ne_eq,hp,not_false_eq_true,if_true]
      rw [hs]
      exact h
  | _ =>
    exact inv_of_eq h (by simp only [step,hph])

theorem inv_begin (retentionTs : Timestamp) (vacuum : Bool) : (s.step (.begin retentionTs vacuum)).Inv origin := by
  cases hph : s.phase with
  | idle =>
    have hs : s.step (.begin retentionTs vacuum) = { s with
        gc := if vacuum then { s.gc with cursor := none } else s.gc, phase := .ready false retentionTs } := by
      simp only [step,hph]
    rw [hs]
    exact h.moved h.within rfl rfl rfl trivial
  | _ =>
    exact inv_of_eq h (by simp only [step,hph])

theorem inv_persistWatermark : (s.step .persistWatermark).Inv origin := by
  cases hph : s.phase with
  | clamped horizon =>
    by_cases hlt : s.gcLowWatermark < horizon
    · cases hwr : s.db.write [.put lowWatermarkKey (beBytes 8 horizon)] with
      | ok db =>
        have hs : s.step .persistWatermark = { s with db := db, phase := .persisted horizon } := by
          simp only [step,hph,if_pos hlt,hwr]
        rw [hs]
        refine h.moved (fun key value hne hlk => h.within key value hne ?_) rfl rfl rfl trivial
        rw [Db.store_of_write hwr,Map.write_cons,Map.write_nil,Map.lookup_apply_put,if_neg hne] at hlk
        exact hlk
      | error message =>
        have hs : s.step .persistWatermark = { s with phase := .idle } := by
          simp only [step,hph,if_pos hlt,hwr]
        rw [hs]
        exact h.moved h.within rfl rfl rfl trivial
    · have hs : s.step .persistWatermark = { s with phase := .ready true horizon } := by
        simp only [step,hph,if_neg hlt]
      rw [hs]
      exact h.moved h.within rfl rfl rfl (Nat.not_lt.mp hlt)
  | _ =>
    exact inv_of_eq h (by simp only [step,hph])

theorem inv_setGcLowWatermark : (s.step .setGcLowWatermark).Inv origin := by
  cases hph : s.phase with
  | persisted horizon =>
    have hs : s.step .setGcLowWatermark = { s with
        gcLowWatermark := max s.gcLowWatermark horizon, phase := .ready true horizon } := by
      simp only [step,hph]
    rw [hs]
    exact h.moved h.within rfl rfl rfl (Nat.le_max_right s.gcLowWatermark horizon)
  | _ =>
    exact inv_of_eq h (by simp only [step,hph])

theorem inv_collect : (s.step .collect).Inv origin := by
  cases hph : s.phase with
  | collecting horizon items c =>
    have hs : s.step .collect = s.collect horizon { c with db := s.db } items := by simp only [step,hph]
    rw [hs]
    have hb := h.phase
    rw [hph] at hb
    obtain ⟨hle,hr,base,hw,hits,hk⟩ := hb
    obtain ⟨htr,hp,hch,hn,he⟩ := collect_trimmed (s := s) hits hk
    refine h.moved (hw.trimmed htr) hp hn hch ?_
    rcases he with hi | ⟨rest,c',hg,hwm,hrest,hk'⟩
    · rw [hi]
      trivial
    rw [hg]
    refine ⟨hle.trans_eq hwm.symm,fun pinId ts hc => hr pinId ts ⟨?_,?_⟩,base,hw,hrest,hk'⟩
    · exact hch ▸ hc.1
    · exact hp ▸ hc.2
  | _ =>
    exact inv_of_eq h (by simp only [step,hph])

theorem inv_fail : (s.step .fail).Inv origin := by
  cases hph : s.phase with
  | clamping second candidate scan =>
    have hs : s.step .fail = { s with phase := .idle } := by simp only [step,hph]
    rw [hs]
    exact h.moved h.within rfl rfl rfl trivial
  | _ =>
    exact inv_of_eq h (by simp only [step,hph])

theorem inv_step (a : GcAction) : (s.step a).Inv origin := by
  cases a with
  | pinSnapshot snapshotTs => exact inv_pinSnapshot h snapshotTs
  | checkGcHorizon pinId => exact inv_checkGcHorizon h pinId
  | unpinSnapshot pinId => exact inv_unpinSnapshot h pinId
  | begin retentionTs vacuum => exact inv_begin h retentionTs vacuum
  | lookAtPins => exact inv_lookAtPins h
  | visitPin pinId => exact inv_visitPin h pinId
  | clamp others => exact inv_clamp h others
  | persistWatermark => exact inv_persistWatermark h
  | setGcLowWatermark => exact inv_setGcLowWatermark h
  | collect => exact inv_collect h
  | fail => exact inv_fail h
  | fault getError nextError writeError =>
    exact ⟨h.fresh,h.pinned,h.within,h.phase.mono rfl rfl fun _ _ hc => .inl hc⟩

variable {a : GcAction} {store : Store}

theorem step_readers (hpn : ∀ ts, a ≠ .pinSnapshot ts) (hc : ∀ pinId, a ≠ .checkGcHorizon pinId)
    (hu : ∀ pinId, a ≠ .unpinSnapshot pinId) : (s.step a).gcPins = s.gcPins ∧ (s.step a).checked = s.checked := by
  cases a with
  | pinSnapshot ts => exact absurd rfl (hpn ts)
  | checkGcHorizon pinId => exact absurd rfl (hc pinId)
  | unpinSnapshot pinId => exact absurd rfl (hu pinId)
  | collect =>
    cases hph : s.phase with
    | collecting horizon items c =>
      have hs : s.step .collect = s.collect horizon { c with db := s.db } items := by simp only [step,hph]
      have hb := h.phase
      rw [hph] at hb
      obtain ⟨-,-,base,-,hits,hk⟩ := hb
      obtain ⟨-,hp,hch,-⟩ := collect_trimmed (s := s) hits hk
      rw [hs]
      exact ⟨hp,hch⟩
    | _ => simp only [step,hph,and_self]
  | clamp others =>
    simp only [step]
    split
    · split
      · exact ⟨rfl,rfl⟩
      · split <;> exact ⟨rfl,rfl⟩
    · exact ⟨rfl,rfl⟩
  | persistWatermark =>
    simp only [step]
    split
    · split
      · split <;> exact ⟨rfl,rfl⟩
      · exact ⟨rfl,rfl⟩
    · exact ⟨rfl,rfl⟩
  | fault getError nextError writeError => exact ⟨rfl,rfl⟩
  | _ =>
    simp only [step]
    split <;> exact ⟨rfl,rfl⟩

theorem checked_step (hc : s.Checked pinId ts) (ha : a ≠ .unpinSnapshot pinId) : (s.step a).Checked pinId ts := by
  by_cases hr : (∃ ts, a = .pinSnapshot ts) ∨ (∃ other, a = .checkGcHorizon other) ∨ ∃ other, a = .unpinSnapshot other
  · rcases hr with ⟨snapshotTs,rfl⟩ | ⟨other,rfl⟩ | ⟨other,rfl⟩
    · have hne : pinId ≠ s.nextGcPin := Nat.ne_of_lt (h.fresh pinId (h.pinned pinId hc.1))
      exact ⟨hc.1,(lookup_insert_ne hne).trans hc.2⟩
    · simp only [step]
      split
      · split
        · exact hc
        · exact ⟨Finset.mem_insert_of_mem hc.1,hc.2⟩
      · exact hc
    · have hne : pinId ≠ other := fun heq => ha (by rw [heq])
      have hk : (s.gcPins.erase other).lookup pinId = some ts := (lookup_erase_ne hne).trans hc.2
      simp only [step]
      split <;> exact ⟨Finset.mem_erase.mpr ⟨hne,hc.1⟩,hk⟩
  · simp only [not_or,not_exists] at hr
    obtain ⟨hp,hch⟩ := step_readers h hr.1 hr.2.1 hr.2.2
    exact ⟨hch ▸ hc.1,hp ▸ hc.2⟩

omit h

/-- What is readable at the timestamp stays, and so do the answers of reads of rows with a clean index. -/
structure Kept (origin : Store) (ts : Timestamp) (store store' : Store) : Prop where
  readable : ∀ (table : TableName) (row : RowId) (e : Timestamp), Readable store table row ts e →
    Readable store' table row ts e ∧ ∀ key, VersionKeys table row e key → store'.lookup key = store.lookup key
  reads : ∀ (table : TableName) (row : RowId), CleanIndex origin table row → ∀ m : SnapshotManager,
    m.readAtSnapshotUncached (.healthy store') table.bytes row ts = m.readAtSnapshotUncached (.healthy store) table.bytes row ts

theorem Kept.refl (origin : Store) (ts : Timestamp) (store : Store) : Kept origin ts store store :=
  ⟨fun _ _ _ hr => ⟨hr,fun _ _ => rfl⟩,fun _ _ _ _ => rfl⟩

theorem Kept.trans {store'' : Store} (h : Kept origin ts store store') (h' : Kept origin ts store' store'') :
    Kept origin ts store store'' := by
  refine ⟨fun table row e hr => ?_,fun table row hc m => (h'.reads table row hc m).trans (h.reads table row hc m)⟩
  obtain ⟨hr',hk⟩ := h.readable table row e hr
  obtain ⟨hr'',hk'⟩ := h'.readable table row e hr'
  exact ⟨hr'',fun key hkey => (hk' key hkey).trans (hk key hkey)⟩

theorem lowWatermarkKey_ne {space : Keyspace} (hs : space = .data ∨ space = .version ∨ space = .index) (rest : Bytes) :
    space.lead ++ rest ≠ lowWatermarkKey := by
  intro heq
  have hh : space.lead.take 2 = lowWatermarkKey.take 2 := by
    rw [← heq]
    rcases hs with rfl | rfl | rfl <;> rfl
  rcases hs with rfl | rfl | rfl <;> exact absurd hh (by decide)

theorem Within.cleanIndex (h : Within origin store) (hc : CleanIndex origin table row) : CleanIndex store table row := by
  intro rest value hlk
  refine hc rest value (h _ value ?_ hlk)
  rw [indexPrefix,append_assoc]
  exact lowWatermarkKey_ne (.inr (.inr rfl)) _

theorem kept_insert (store : Store) (value : Bytes) (hw : Within origin store) :
    Kept origin ts store (store.insert lowWatermarkKey value) := by
  have ho : ∀ (space : Keyspace) (rest : Bytes), space = .data ∨ space = .version ∨ space = .index →
      (store.insert lowWatermarkKey value).lookup (space.lead ++ rest) = store.lookup (space.lead ++ rest) :=
    fun space rest hs => lookup_insert_ne (lowWatermarkKey_ne hs rest)
  have hi : ∀ (table : TableName) (row : RowId) (e : Timestamp),
      (store.insert lowWatermarkKey value).lookup (indexKey table.bytes row e) = store.lookup (indexKey table.bytes row e) := by
    intro table row e
    rw [indexKey_eq]
    exact ho .index _ (.inr (.inr rfl))
  have hv : ∀ (table : TableName) (row : RowId) (text : Bytes), (store.insert lowWatermarkKey value).lookup
      (versionPrefix table.bytes row ++ text) = store.lookup (versionPrefix table.bytes row ++ text) := by
    intro table row text
    rw [versionPrefix,append_assoc]
    exact ho .version _ (.inr (.inl rfl))
  refine ⟨fun table row e hr => ⟨?_,?_⟩,fun table row hc m => ?_⟩
  · have hst : StoredVersion (store.insert lowWatermarkKey value) table row = StoredVersion store table row := by
      funext e
      simp only [StoredVersion,hv]
    have hid : IndexedVersion (store.insert lowWatermarkKey value) table row = IndexedVersion store table row := by
      funext e
      simp only [IndexedVersion,← lookup_isSome,hi]
    rw [Readable,hst,hid]
    exact hr
  · rintro key (⟨text,-,rfl⟩ | rfl)
    · exact hv table row text
    · exact hi table row e
  · have hclean' := hw.cleanIndex hc
    refine GcReads.readAtSnapshotUncached_agrees m hclean' ?_ ?_ ?_
    · intro rest found hlk
      have hsame := ho .index (rowText table.bytes row ++ [colon] ++ rest) (.inr (.inr rfl))
      refine hclean' rest found ?_
      rw [indexPrefix,append_assoc] at hlk ⊢
      exact hsame.symm.trans hlk
    · intro e elided hev
      rw [HasEvent,hi] at hev
      exact hev
    · rintro key (rfl | ⟨e,-,rfl | rfl⟩)
      · exact ho .data _ (.inl rfl)
      · exact hi table row e
      · rw [versionKey_eq]
        exact hv table row (decimal e)

theorem ReadKey.protected
    (hc : CleanIndex base table row) (hle : horizon ≤ ts) (h : ReadKey base table row ts key) : Protected base horizon key := by
  rcases h with rfl | ⟨e,⟨⟨elided,hev⟩,hm⟩,hkey⟩
  · exact .inr (.inr ⟨table,row,rfl⟩)
  have hi : ∀ e elided, HasEvent base table row e elided → IndexedVersion base table row e := by
    rintro e elided ⟨he,value,hlk,-⟩
    exact ⟨he,lookup_isSome.mp (by rw [hlk]; rfl)⟩
  have hen : ∀ e, IndexedVersion base table row e → ∃ elided, HasEvent base table row e elided := by
    rintro e ⟨he,hmm⟩
    obtain ⟨value,hlk⟩ := isSome_iff_exists.mp (lookup_isSome.mpr hmm)
    obtain ⟨e',elided,he',htx,hd⟩ := hc (reverseText e) value hlk
    obtain rfl := reverseText_inj he he' htx
    exact ⟨elided,he,value,hlk,hd⟩
  have hv : VersionKeys table row e key := by
    rcases hkey with rfl | rfl
    · exact .inr rfl
    · exact .inl ⟨decimal e,parseUnsigned_decimal hev.1,versionKey_eq table.bytes row e⟩
  rcases Nat.lt_or_ge ts e with hlt | hge
  · -- The row appears after the reader, and so after the horizon.
    have hs : LastUpTo (IndexedVersion base table row) e e := ⟨hi e elided hev,Nat.le_refl e,fun _ _ hl => hl⟩
    exact Readable.protected (.inr hs) (hle.trans (Nat.le_of_lt hlt)) hv
  · refine Readable.protected (.inr ⟨hi e elided hev,hge,fun later hl hlt => ?_⟩) hle hv
    obtain ⟨elided',hev'⟩ := hen later hl
    by_contra hno
    exact absurd (hm later elided' hev' (Nat.not_lt.mp hno)) (Nat.not_le.mpr hlt)

theorem kept_of_trimmed (hle : horizon ≤ ts) (hw : Within origin base)
    (htr : Trimmed (Protected base horizon) base store) (ht' : Trimmed (Protected base horizon) base store') :
    Kept origin ts store store' := by
  refine ⟨fun table row e hr => ?_,fun table row hcl m => ?_⟩
  · have hb := hr.of_trimmed htr hle
    refine ⟨hb.trimmed ht' hle,fun key hkey => ?_⟩
    have hp := hb.protected hle hkey
    exact (ht'.lookup hp).trans (htr.lookup hp).symm
  · have hc := hw.cleanIndex hcl
    have hsame : ∀ {store : Store}, Trimmed (Protected base horizon) base store → m.readAtSnapshotUncached (.healthy store)
        table.bytes row ts = m.readAtSnapshotUncached (.healthy base) table.bytes row ts := by
      intro store htr
      refine GcReads.readAtSnapshotUncached_trimmed m hc fun key => ?_
      rcases htr key with hk | ⟨hn,hf⟩
      · exact .inl hk
      · exact .inr ⟨hn,fun hkey => hf (ReadKey.protected hc hle hkey)⟩
    exact (hsame ht').trans (hsame htr).symm

theorem step_store (s : GcState) (hc : a ≠ .collect) (hp : a ≠ .persistWatermark) : (s.step a).db.store = s.db.store := by
  cases a with
  | collect => exact absurd rfl hc
  | persistWatermark => exact absurd rfl hp
  | pinSnapshot ts | fault getError nextError writeError => rfl
  | checkGcHorizon pinId =>
    simp only [step]
    split
    · split <;> rfl
    · rfl
  | clamp others =>
    simp only [step]
    split
    · split
      · rfl
      · split <;> rfl
    · rfl
  | _ =>
    simp only [step]
    split <;> rfl

theorem kept_step (h : s.Inv origin) (hc : s.Checked pinId ts) (a : GcAction) : Kept origin ts s.db.store (s.step a).db.store := by
  by_cases hcl : a = .collect
  · subst hcl
    cases hph : s.phase with
    | collecting horizon items c =>
      have hs : s.step .collect = s.collect horizon { c with db := s.db } items := by simp only [step,hph]
      have hb := h.phase
      rw [hph] at hb
      obtain ⟨-,hr,base,hw,hits,hk⟩ := hb
      rw [hs]
      exact kept_of_trimmed (hr pinId ts hc) hw hk.trimmed (collect_trimmed (s := s) hits hk).1
    | _ =>
      have hs : s.step .collect = s := by simp only [step,hph]
      rw [hs]
      exact Kept.refl origin ts s.db.store
  · by_cases hp : a = .persistWatermark
    · subst hp
      simp only [step]
      split
      · split
        · split
          next db hwr =>
            dsimp only
            rw [Db.store_of_write hwr]
            exact kept_insert s.db.store _ h.within
          next => exact Kept.refl origin ts s.db.store
        · exact Kept.refl origin ts s.db.store
      · exact Kept.refl origin ts s.db.store
    · rw [step_store s hcl hp]
      exact Kept.refl origin ts s.db.store

theorem kept_run (h : s.Inv origin) (hc : s.Checked pinId ts) {actions : List GcAction} (hh : .unpinSnapshot pinId ∉ actions) :
    Kept origin ts s.db.store (run step s actions).db.store := by
  induction actions generalizing s with
  | nil => exact Kept.refl origin ts s.db.store
  | cons a rest ih =>
    obtain ⟨hne,hrest⟩ := not_or.mp fun hm => hh (mem_cons.mpr hm)
    exact (kept_step h hc a).trans (ih (inv_step h a) (checked_step h hc (Ne.symm hne)) hrest)

end

/-- A reader that has pinned its timestamp, has then passed the check and still holds the pin: whatever the cycles and the
other readers have done since, no version that is readable at the timestamp has gone, and reads at the timestamp of the rows
whose index range holds only their own events return what they returned. -/
theorem checked_reader_keeps_its_versions (db : Db) (gc : VersionGc) (gcLowWatermark : Timestamp) (before after : List GcAction)
    (pinId : Nat) (ts : Timestamp) (hchecked : (run step (start db gc gcLowWatermark) before).Checked pinId ts)
    (hheld : .unpinSnapshot pinId ∉ after) : (∀ (table : TableName) (row : RowId) (e : Timestamp),
      Readable (run step (start db gc gcLowWatermark) before).db.store table row ts e → ∀ key, VersionKeys table row e key →
        (run step (start db gc gcLowWatermark) (before ++ after)).db.store.lookup key =
          (run step (start db gc gcLowWatermark) before).db.store.lookup key) ∧
      ∀ (table : TableName) (row : RowId), CleanIndex db.store table row → ∀ m : SnapshotManager,
        (m.readAtSnapshot (.healthy (run step (start db gc gcLowWatermark) (before ++ after)).db.store) table.bytes row ts).2 =
          (m.readAtSnapshot (.healthy (run step (start db gc gcLowWatermark) before).db.store) table.bytes row ts).2 := by
  have hinv : (run step (start db gc gcLowWatermark) before).Inv db.store :=
    run_invariant step (Inv db.store) (fun s a hs => inv_step hs a) (inv_start db gc gcLowWatermark) before
  have hkept := kept_run hinv hchecked hheld
  rw [run_append]
  refine ⟨fun table row e hread => (hkept.readable table row e hread).2,fun table row hclean m => ?_⟩
  unfold SnapshotManager.readAtSnapshot
  rw [hkept.reads table row hclean m]

/-! A reader at 10, and a cycle with the retention horizon 12 that begins after it has checked. -/

def readerAtTen : List GcAction := [.pinSnapshot 10,.checkGcHorizon 0]

def cycleAtTwelve : List GcAction :=
  [.begin 12 false,.lookAtPins,.visitPin 0,.clamp [],.persistWatermark,.setGcLowWatermark,.lookAtPins,.visitPin 0,.clamp []] ++
    List.replicate 8 .collect

theorem chainStore_readable : Readable GcReads.chainStore SnapshotReads.tableT 1 10 3 := by
  refine .inr ⟨⟨by decide,by decide +kernel⟩,by decide,fun later hl hlt => ?_⟩
  obtain ⟨hle,hm⟩ := hl
  have hb : SnapshotReads.tableT.bytes = [116] := rfl
  obtain ⟨value,hlk⟩ := isSome_iff_exists.mp (lookup_isSome.mpr hm)
  rw [indexKey] at hlk
  simp only [GcReads.chainStore,Map.write_cons,Map.write_nil,Map.lookup_apply_put,hb,index_range_eq_indexKey,
    index_range_ne_versionKey,if_false,lookup_empty] at hlk
  split at hlk
  next heq =>
    rw [reverseText_inj hle (by decide) heq] at hlt
    exact absurd hlt (Nat.lt_irrefl 3)
  next =>
    split at hlk
    next heq =>
      rw [reverseText_inj hle (by decide) heq] at hlt
      exact absurd hlt (by decide)
    next => cases hlk

/-- The cycle deletes version 2. Version 3 stays for the reader, though version 9 is newer and has no index entry. -/
theorem checked_reader_keeps_its_versions_of_chain :
    (run step (start (.healthy GcReads.chainStore) ⟨100,none⟩ 0) (readerAtTen ++ cycleAtTwelve)).db.store.lookup
        (versionKey [116] 1 2) = none ∧
      (run step (start (.healthy GcReads.chainStore) ⟨100,none⟩ 0) (readerAtTen ++ cycleAtTwelve)).db.store.lookup
        (indexKey [116] 1 3) = some (encodeVersionIndexValue 3 false) ∧
      ((SnapshotManager.new none).readAtSnapshot (.healthy (run step (start (.healthy GcReads.chainStore) ⟨100,none⟩ 0)
        (readerAtTen ++ cycleAtTwelve)).db.store) [116] 1 10).2 = .ok (some [30]) := by
  obtain ⟨hversions,hreads⟩ := checked_reader_keeps_its_versions (.healthy GcReads.chainStore) ⟨100,none⟩ 0 readerAtTen
    cycleAtTwelve 0 10 (by decide +kernel) (by simp [cycleAtTwelve])
  have hbefore : ((SnapshotManager.new none).readAtSnapshot (.healthy GcReads.chainStore) [116] 1 10).2 = .ok (some [30]) := by
    decide +kernel
  have hstored : GcReads.chainStore.lookup (indexKey [116] 1 3) = some (encodeVersionIndexValue 3 false) := by decide +kernel
  refine ⟨by decide +kernel,?_,?_⟩
  · exact (hversions SnapshotReads.tableT 1 3 chainStore_readable _ (.inr rfl)).trans hstored
  · exact (hreads SnapshotReads.tableT 1 GcReads.chainStore_clean (.new none)).trans hbefore

/-- On a row with two versions outside the index and a foreign event in its range, the read of the reader takes version 3,
which the cycle deletes. -/
theorem checked_reader_loses_version_read_through_foreign_event :
    (run step (start (.healthy GcReads.aliasedStore) ⟨100,none⟩ 0) readerAtTen).Checked 0 10 ∧ .unpinSnapshot 0 ∉ cycleAtTwelve ∧
      ((SnapshotManager.new none).readAtSnapshot (.healthy (run step (start (.healthy GcReads.aliasedStore) ⟨100,none⟩ 0)
        readerAtTen).db.store) [116] 1 10).2 = .ok (some [30]) ∧
      (run step (start (.healthy GcReads.aliasedStore) ⟨100,none⟩ 0) readerAtTen).db.store.lookup (versionKey [116] 1 3) =
        some [30] ∧
      (run step (start (.healthy GcReads.aliasedStore) ⟨100,none⟩ 0) (readerAtTen ++ cycleAtTwelve)).db.store.lookup
        (versionKey [116] 1 3) = none ∧
      ((SnapshotManager.new none).readAtSnapshot (.healthy (run step (start (.healthy GcReads.aliasedStore) ⟨100,none⟩ 0)
        (readerAtTen ++ cycleAtTwelve)).db.store) [116] 1 10).2 = .ok none := by
  refine ⟨by decide +kernel,by simp [cycleAtTwelve],by decide +kernel,by decide +kernel,by decide +kernel,by decide +kernel⟩

end HeliosNano.Storage.GcState
