import HeliosNano.Foundation.Scans
import HeliosNano.Storage.VersionGc

/-! Version collection beside readers that pin a timestamp and then check the low watermark. A cycle publishes the watermark
between two looks at the pins, and deletes below the second one. -/
namespace HeliosNano.Storage
open Foundation List Option AList

def lowWatermarkKey : Key := ascii ['v','g','c',':','l','o','w','_','w','a','t','e','r','m','a','r','k']

/-- Where a cycle stands. The two looks at the pins are the clamps of the horizon; the first one comes before the watermark,
the second one after it. -/
inductive CyclePhase
  | idle
  | ready (second : Bool) (candidate : Timestamp)
  | clamping (second : Bool) (candidate : Timestamp) (scan : Scan Nat Timestamp)
  | clamped (horizon : Timestamp)
  | persisted (horizon : Timestamp)
  | collecting (horizon : Timestamp) (items : List (Except String (Key × Bytes))) (cycle : GcCycle)

/-- The database with the collector, the low watermark in memory, the pins of the registry with the next pin id, the pins
whose holders have checked their timestamp, and the cycle. -/
structure GcState where
  db : Db
  gc : VersionGc
  gcLowWatermark : Timestamp
  gcPins : Map Nat Timestamp
  nextGcPin : Nat
  checked : Finset Nat
  phase : CyclePhase

/-- One atomic action of a reader or of the collector. `begin` comes with the retention horizon, `clamp` with the other
bounds of the horizon: validating transactions and the anchors of branches. -/
inductive GcAction
  | pinSnapshot (snapshotTs : Timestamp)
  | checkGcHorizon (pinId : Nat)
  | unpinSnapshot (pinId : Nat)
  | begin (retentionTs : Timestamp) (vacuum : Bool)
  | lookAtPins
  | visitPin (pinId : Nat)
  | clamp (others : List Timestamp)
  | persistWatermark
  | setGcLowWatermark
  | collect
  | fail
  | fault (getError nextError : Key → Option String) (writeError : Option String)

namespace GcState

/-- The database before any reader. -/
def start (db : Db) (gc : VersionGc) (gcLowWatermark : Timestamp) : GcState := ⟨db,gc,gcLowWatermark,∅,0,∅,.idle⟩

def maxDeletes (s : GcState) : Nat := max s.gc.maxVersionsPerCycle 1

def scanBudget (s : GcState) : Nat := max (min (s.maxDeletes*scanBoundFactor) u64Max) 65536

def finish (s : GcState) (horizon : Timestamp) (c : GcCycle) (next : Option Key) : GcState :=
  match VersionGc.finish horizon c next with
  | .error (db,_) => { s with db := db, phase := .idle }
  | .ok c => { s with db := c.db, gc := { s.gc with cursor := next }, phase := .idle }

def collect (s : GcState) (horizon : Timestamp) (c : GcCycle) : List (Except String (Key × Bytes)) → GcState
  | [] => s.finish horizon c none
  | item::rest =>
    match VersionGc.scanItem horizon s.maxDeletes s.scanBudget c item with
    | .error (db,_) => { s with db := db, phase := .idle }
    | .ok (c,none) => { s with db := c.db, phase := .collecting horizon rest c }
    | .ok (c,some next) => s.finish horizon c next

def clampedTo (candidate : Timestamp) (scan : Scan Nat Timestamp) (others : List Timestamp) : Timestamp :=
  others.foldl min (scan.lowest.elim candidate (min candidate))

/-- An action that is not the next one of its party changes nothing. -/
def step (s : GcState) : GcAction → GcState
  | .pinSnapshot snapshotTs => { s with gcPins := s.gcPins.insert s.nextGcPin snapshotTs, nextGcPin := s.nextGcPin+1 }
  | .checkGcHorizon pinId =>
    match s.gcPins.lookup pinId with
    | some ts => if ts < s.gcLowWatermark then s else { s with checked := insert pinId s.checked }
    | none => s
  | .unpinSnapshot pinId =>
    let s := { s with gcPins := s.gcPins.erase pinId, checked := s.checked.erase pinId }
    match s.phase with
    | .clamping second candidate scan => { s with phase := .clamping second candidate (scan.drop pinId) }
    | _ => s
  | .begin retentionTs vacuum =>
    match s.phase with
    | .idle => { s with gc := if vacuum then { s.gc with cursor := none } else s.gc, phase := .ready false retentionTs }
    | _ => s
  | .lookAtPins =>
    match s.phase with
    | .ready second candidate => { s with phase := .clamping second candidate (Scan.start s.gcPins) }
    | _ => s
  | .visitPin pinId =>
    match s.phase with
    | .clamping second candidate scan => { s with phase := .clamping second candidate (Scan.visit s.gcPins scan pinId) }
    | _ => s
  | .clamp others =>
    match s.phase with
    | .clamping second candidate scan =>
      if scan.pending ≠ [] then s
      else
        let horizon := clampedTo candidate scan others
        if second then
          let items := s.db.iter (s.gc.cursor.getD versionLead)
          { s with phase := .collecting horizon items ⟨s.db,[],0,[],[],⟨0,0,0,true⟩⟩ }
        else { s with phase := .clamped horizon }
    | _ => s
  | .persistWatermark =>
    match s.phase with
    | .clamped horizon =>
      if s.gcLowWatermark < horizon then
        match s.db.write [.put lowWatermarkKey (beBytes 8 horizon)] with
        | .ok db => { s with db := db, phase := .persisted horizon }
        | .error _ => { s with phase := .idle }
      else { s with phase := .ready true horizon }
    | _ => s
  | .setGcLowWatermark =>
    match s.phase with
    | .persisted horizon => { s with gcLowWatermark := max s.gcLowWatermark horizon, phase := .ready true horizon }
    | _ => s
  | .collect =>
    match s.phase with
    | .collecting horizon items c => s.collect horizon { c with db := s.db } items
    | _ => s
  | .fail =>
    match s.phase with
    | .clamping _ _ _ => { s with phase := .idle }
    | _ => s
  | .fault getError nextError writeError => { s with db := ⟨s.db.store,getError,nextError,writeError⟩ }

/-- The holder of the pin has checked its timestamp and still holds the pin. -/
def Checked (s : GcState) (pinId : Nat) (ts : Timestamp) : Prop := pinId ∈ s.checked ∧ s.gcPins.lookup pinId = some ts
deriving Decidable

def Leaves (s : GcState) (gc : VersionGc) : GcResult (GcCycle × Option Key) → Prop
  | .error (db,_) => s.db = db ∧ s.gc = gc
  | .ok (c,next) => s.db = c.db ∧ s.gc = { gc with cursor := next }

theorem finish_leaves (s : GcState) (horizon : Timestamp) (c : GcCycle) (next : Option Key) :
    (s.finish horizon c next).phase = .idle ∧
      (s.finish horizon c next).Leaves s.gc (VersionGc.finish horizon c next >>= fun c => .ok (c,next)) := by
  unfold finish
  cases VersionGc.finish horizon c next with
  | error failure | ok c' => exact ⟨rfl,rfl,rfl⟩

variable {s : GcState} {horizon : Timestamp}

theorem collect_leaves {items : List (Except String (Key × Bytes))} {c : GcCycle}
    (hph : s.phase = .collecting horizon items c) (hdb : c.db = s.db) :
    ∃ n, (run step s (List.replicate n .collect)).phase = .idle ∧ (run step s (List.replicate n .collect)).Leaves s.gc
      (VersionGc.scan horizon s.maxDeletes s.scanBudget items c >>= fun result =>
        VersionGc.finish horizon result.1 result.2 >>= fun c => .ok (c,result.2)) := by
  have hsame : ({ c with db := s.db } : GcCycle) = c := by rw [← hdb]
  induction items generalizing s c with
  | nil =>
    have hs : s.step .collect = s.finish horizon c none := by simp only [step,hph,hsame,collect]
    refine ⟨1,?_⟩
    rw [replicate_one,run_cons,run_nil,hs]
    exact finish_leaves s horizon c none
  | cons item rest ih =>
    have hs : s.step .collect = s.collect horizon c (item::rest) := by simp only [step,hph,hsame]
    rw [VersionGc.scan_cons]
    cases hr : VersionGc.scanItem horizon s.maxDeletes s.scanBudget c item with
    | error failure =>
      refine ⟨1,?_⟩
      rw [replicate_one,run_cons,run_nil,hs]
      simp only [collect,hr,true_and]
      exact ⟨rfl,rfl⟩
    | ok result =>
      obtain ⟨c',stop⟩ := result
      cases stop with
      | none =>
        have hrn : s.step .collect = { s with db := c'.db, phase := .collecting horizon rest c' } := by
          rw [hs]
          simp only [collect,hr]
        have hn : ({ s with db := c'.db, phase := .collecting horizon rest c' } : GcState).phase = .collecting horizon rest c' := rfl
        obtain ⟨n,hi,hl⟩ := ih hn rfl rfl
        refine ⟨n+1,?_⟩
        rw [replicate_succ,run_cons,hrn]
        exact ⟨hi,hl⟩
      | some next =>
        refine ⟨1,?_⟩
        rw [replicate_one,run_cons,run_nil,hs]
        simp only [collect,hr]
        exact finish_leaves s horizon c' next

/-- The rounds of the loop, taken one at a time, leave what one whole cycle leaves. -/
theorem collect_collectBelow (hph : s.phase = .collecting horizon
    (s.db.iter (s.gc.cursor.getD versionLead)) ⟨s.db,[],0,[],[],⟨0,0,0,true⟩⟩) :
    ∃ n, (run step s (List.replicate n .collect)).phase = .idle ∧
      (run step s (List.replicate n .collect)).db = (s.gc.collectBelow s.db horizon).2.1 ∧
      (run step s (List.replicate n .collect)).gc = (s.gc.collectBelow s.db horizon).1 := by
  obtain ⟨n,hi,hl⟩ := collect_leaves hph rfl
  have hc : s.gc.cycle s.db horizon = VersionGc.scan horizon s.maxDeletes s.scanBudget
      (s.db.iter (s.gc.cursor.getD versionLead)) ⟨s.db,[],0,[],[],⟨0,0,0,true⟩⟩ >>= fun result =>
        VersionGc.finish horizon result.1 result.2 >>= fun c => .ok (c,result.2) := by
    unfold VersionGc.cycle VersionGc.finish
    refine bind_congr fun result => ?_
    obtain ⟨c,next⟩ := result
    cases next with
    | none => exact (bind_assoc (VersionGc.processGroup horizon c) VersionGc.flush fun c => .ok (c,none)).symm
    | some key => rfl
  rw [← hc] at hl
  refine ⟨n,hi,?_⟩
  unfold VersionGc.collectBelow
  cases hr : s.gc.cycle s.db horizon with
  | error failure | ok result =>
    rw [hr] at hl
    exact hl

/-- Of two versions of a row, the older one goes. -/
theorem collect_two_versions :
    let db : Db := .healthy ((∅ : Store).write [.put (versionKey [116] 1 2) [20],.put (versionKey [116] 1 3) [30]])
    let s : GcState := { start db ⟨100,none⟩ 0 with phase := .collecting 5 (db.iter versionLead) ⟨db,[],0,[],[],⟨0,0,0,true⟩⟩ }
    (s.gc.collectBelow s.db 5).2.1.store.lookup (versionKey [116] 1 2) = none ∧
      ∃ n, (run step s (List.replicate n .collect)).phase = .idle ∧
        (run step s (List.replicate n .collect)).db = (s.gc.collectBelow s.db 5).2.1 ∧
        (run step s (List.replicate n .collect)).gc = (s.gc.collectBelow s.db 5).1 := by
  intro db s
  exact ⟨by decide +kernel,collect_collectBelow rfl⟩

end GcState

/-- The row has a version at a timestamp. -/
def StoredVersion (store : Store) (table : TableName) (row : RowId) (e : Timestamp) : Prop :=
  ∃ text value, store.lookup (versionPrefix table.bytes row ++ text) = some value ∧ parseUnsigned u64Max text = some e

def IndexedVersion (store : Store) (table : TableName) (row : RowId) (e : Timestamp) : Prop :=
  e ≤ u64Max ∧ indexKey table.bytes row e ∈ store

def LastUpTo (Q : Timestamp → Prop) (bound e : Timestamp) : Prop := Q e ∧ e ≤ bound ∧ ∀ later, Q later → e < later → bound < later

/-- A read of the row at the timestamp resolves to the newest version up to it, or to the newest one with an index entry. -/
def Readable (store : Store) (table : TableName) (row : RowId) (ts e : Timestamp) : Prop :=
  LastUpTo (StoredVersion store table row) ts e ∨ LastUpTo (IndexedVersion store table row) ts e

def VersionKeys (table : TableName) (row : RowId) (e : Timestamp) (key : Key) : Prop :=
  (∃ text, parseUnsigned u64Max text = some e ∧ key = versionPrefix table.bytes row ++ text) ∨ key = indexKey table.bytes row e

/-- What a cycle with a horizon keeps: the versions that are readable from the horizon on, and keys that it does not write
in this way, the rows themselves among them. -/
def Protected (base : Store) (horizon : Timestamp) (key : Key) : Prop :=
  (∃ (table : TableName) (row : RowId) (ts e : Timestamp), horizon ≤ ts ∧ Readable base table row ts e ∧ VersionKeys table row e key) ∨
    (∃ (table : TableName) (row : RowId) (text : Bytes) (e : Timestamp), parseUnsigned u64Max text = some e ∧ text ≠ decimal e ∧
      key = versionPrefix table.bytes row ++ text) ∨
    ∃ (table : TableName) (row : RowId), key = dataKey table.bytes row

variable {e bound : Timestamp} {Q : Timestamp → Prop} {text : Bytes}

theorem exists_lastUpTo (hQ : Q e) (hle : e ≤ bound) : ∃ last, LastUpTo Q bound last ∧ e ≤ last := by
  classical
  refine ⟨Nat.findGreatest Q bound,⟨Nat.findGreatest_spec hle hQ,Nat.findGreatest_le bound,fun later hl hlt => ?_⟩,
    Nat.le_findGreatest hle hQ⟩
  by_contra hno
  exact absurd (Nat.le_findGreatest (Nat.not_lt.mp hno) hl) (Nat.not_le.mpr hlt)

theorem LastUpTo.congr {Q' : Timestamp → Prop} (h : LastUpTo Q bound e) (hQ : ∀ e, Q' e → Q e) (he : Q' e) :
    LastUpTo Q' bound e := ⟨he,h.2.1,fun later hl => h.2.2 later (hQ later hl)⟩

theorem colon_not_mem_of_parse {max : Nat} {e : Nat} (h : parseUnsigned max text = some e) : colon ∉ text := by
  unfold parseUnsigned at h
  simp only [ite_none_right_eq_some] at h
  obtain ⟨⟨-,hd,-⟩,-⟩ := h
  have ha := colon_not_mem_digits (all_eq_true.mp hd)
  cases text with
  | nil => exact not_mem_nil
  | cons b rest =>
    intro hm
    simp only at ha
    split at ha
    next hp =>
      rcases mem_cons.mp hm with hb | hrest
      · rw [← hb] at hp
        exact absurd hp (by decide)
      · exact ha hrest
    next => exact ha hm

theorem group_eq_of_text {group : Bytes} (hg : ∃ before, group = before ++ [colon]) {table : TableName} {row : RowId}
    {ts : Timestamp} (htx : parseUnsigned u64Max text = some e)
    (h : group ++ decimal ts = versionPrefix table.bytes row ++ text) : group = versionPrefix table.bytes row ∧ text = decimal ts := by
  obtain ⟨before,rfl⟩ := hg
  have hs : before ++ colon :: decimal ts = (versionLead ++ rowText table.bytes row) ++ colon::text := by
    simpa [versionPrefix] using h
  obtain ⟨hb,htl⟩ := append_sep_inj (colon_not_mem_decimal ts) (colon_not_mem_of_parse htx) hs
  exact ⟨by rw [hb]; simp [versionPrefix],htl.symm⟩

section
variable {base store : Store} {horizon ts e : Timestamp} {table : TableName} {row : RowId}

theorem Readable.protected (h : Readable base table row ts e) (hle : horizon ≤ ts) {key : Key} (hkey : VersionKeys table row e key) :
    Protected base horizon key := .inl ⟨table,row,ts,e,hle,h,hkey⟩

theorem careful_protected (base : Store) (horizon : Timestamp) : Careful (Protected base horizon) base horizon := by
  intro db group versions old htr hgr hd ts hts
  obtain ⟨hin,-,⟨keep,hkp,hlt,hk⟩,hnr⟩ := doomed_spec hd hts
  obtain ⟨htl,hld,hc,-⟩ := hgr ts hin
  have hs : ∀ (table : TableName) (row : RowId) (bound : Timestamp), horizon ≤ bound → group = versionPrefix table.bytes row →
      ¬Readable base table row bound ts := by
    rintro table row bound hle rfl hr
    have hread' := hr
    rcases hread' with hl | hl
    · obtain ⟨-,-,-,text,value,hps,hlk⟩ := hgr keep hkp
      exact absurd (hk.trans hle) (Nat.not_le.mpr (hl.2.2 keep ⟨text,value,hlk,hps⟩ hlt))
    have hpr : (db.store.lookup (indexKeyFor (versionPrefix table.bytes row) ts)).isSome = true := by
      rw [indexKeyFor_versionPrefix,htr.lookup (hr.protected hle (.inr rfl))]
      exact lookup_isSome.mpr hl.1.2
    obtain ⟨newer,hn,hln,hnw,hi⟩ := hnr hpr
    rw [indexKeyFor_versionPrefix] at hi
    obtain ⟨value,hv⟩ := isSome_iff_exists.mp hi
    have hb : indexKey table.bytes row newer ∈ base := lookup_isSome.mp (by rw [htr.of_some hv]; rfl)
    exact absurd (hnw.trans hle) (Nat.not_le.mpr (hl.2.2 newer ⟨(hgr newer hn).1,hb⟩ hln))
  have hp : parseUnsigned u64Max (decimal ts) = some ts := parseUnsigned_decimal htl
  refine ⟨?_,?_⟩
  · rintro (⟨table,row,bound,e,hle,hr,⟨text,htx,heq⟩ | heq⟩ | ⟨table,row,text,e,htx,hne,heq⟩ | ⟨table,row,heq⟩)
    · obtain ⟨hg,rfl⟩ := group_eq_of_text hc htx heq
      obtain rfl := Option.some.inj (hp.symm.trans htx)
      exact hs table row bound hle hg hr
    · exact versionKeyFor_ne_indexKey hld ts e heq
    · obtain ⟨-,rfl⟩ := group_eq_of_text hc htx heq
      obtain rfl := Option.some.inj (hp.symm.trans htx)
      exact hne rfl
    · exact (not_lead_data hld ts).1 heq
  · have hsp : ∀ (table : TableName) (row : RowId) (text : Bytes), indexKeyFor group ts ≠ versionPrefix table.bytes row ++ text := by
      intro table row text
      rw [versionPrefix,append_assoc]
      exact keyspace_disjoint (show Keyspace.index ≠ Keyspace.version by decide) _ _
    rintro (⟨table,row,bound,e,hle,hr,⟨text,-,heq⟩ | heq⟩ | ⟨table,row,text,e,-,-,heq⟩ | ⟨table,row,heq⟩)
    · exact hsp table row text heq
    · have he : e ≤ u64Max := by
        rcases hr with hl | hl
        · obtain ⟨text,value,-,hps⟩ := hl.1
          exact parseUnsigned_le hps
        · exact hl.1.1
      obtain ⟨hg,rfl⟩ := group_eq_of_indexKey hld htl he heq
      exact hs table row bound hle hg hr
    · exact hsp table row text heq
    · exact (not_lead_data hld ts).2 heq

theorem Readable.of_trimmed (h : Readable store table row ts e) (htr : Trimmed (Protected base horizon) base store)
    (hle : horizon ≤ ts) : Readable base table row ts e := by
  have hst : ∀ e, StoredVersion store table row e → StoredVersion base table row e := by
    rintro e ⟨text,value,hlk,hp⟩
    exact ⟨text,value,htr.of_some hlk,hp⟩
  have hi : ∀ e, IndexedVersion store table row e → IndexedVersion base table row e := by
    rintro e ⟨he,hm⟩
    obtain ⟨value,hv⟩ := isSome_iff_exists.mp (lookup_isSome.mpr hm)
    exact ⟨he,lookup_isSome.mp (by rw [htr.of_some hv]; rfl)⟩
  rcases h with ⟨hs,hbd,hl⟩ | ⟨hs,hbd,hl⟩
  · refine .inl ⟨hst e hs,hbd,fun later hlr hlt => ?_⟩
    by_contra hno
    obtain ⟨newest,hn,hge⟩ := exists_lastUpTo hlr (Nat.not_lt.mp hno)
    obtain ⟨text,value,hlk,hp⟩ := hn.1
    have hk := htr.lookup (Readable.protected (.inl hn) hle (.inl ⟨text,hp,rfl⟩))
    have hgt := hl newest ⟨text,value,hk.trans hlk,hp⟩ (Nat.lt_of_lt_of_le hlt hge)
    exact absurd hn.2.1 (Nat.not_le.mpr hgt)
  · refine .inr ⟨hi e hs,hbd,fun later hlr hlt => ?_⟩
    by_contra hno
    obtain ⟨newest,hn,hge⟩ := exists_lastUpTo hlr (Nat.not_lt.mp hno)
    have hk := htr.lookup (Readable.protected (.inr hn) hle (.inr rfl))
    have hm : indexKey table.bytes row newest ∈ store := by
      rw [← lookup_isSome,hk]
      exact lookup_isSome.mpr hn.1.2
    have hgt := hl newest ⟨hn.1.1,hm⟩ (Nat.lt_of_lt_of_le hlt hge)
    exact absurd hn.2.1 (Nat.not_le.mpr hgt)

theorem Readable.trimmed (h : Readable base table row ts e) (htr : Trimmed (Protected base horizon) base store)
    (hle : horizon ≤ ts) : Readable store table row ts e := by
  have hk : ∀ key, VersionKeys table row e key → store.lookup key = base.lookup key :=
    fun key hkey => htr.lookup (h.protected hle hkey)
  rcases h with hl | hl
  · obtain ⟨text,value,hlk,hp⟩ := hl.1
    refine .inl (hl.congr ?_ ⟨text,value,(hk _ (.inl ⟨text,hp,rfl⟩)).trans hlk,hp⟩)
    rintro later ⟨text',value',hlk',hp'⟩
    exact ⟨text',value',htr.of_some hlk',hp'⟩
  · have hm : indexKey table.bytes row e ∈ store := by
      rw [← lookup_isSome,hk _ (.inr rfl)]
      exact lookup_isSome.mpr hl.1.2
    refine .inr (hl.congr ?_ ⟨hl.1.1,hm⟩)
    rintro later ⟨hlt,hm'⟩
    obtain ⟨value,hv⟩ := isSome_iff_exists.mp (lookup_isSome.mpr hm')
    exact ⟨hlt,lookup_isSome.mp (by rw [htr.of_some hv]; rfl)⟩

end
end HeliosNano.Storage
