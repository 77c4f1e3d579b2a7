import HeliosNano.Storage.CommitEffect

namespace HeliosNano.Storage
open Foundation List Option

/-- `v:{table}:{row_id}:` -/
def versionPrefix (table : Bytes) (row : RowId) : Bytes := versionLead ++ (rowText table row ++ [colon])

structure VersionGcCycleStats where
  versionsDeleted : Nat
  indexEntriesDeleted : Nat
  keysScanned : Nat
  finishedPass : Bool

structure VersionGc where
  maxVersionsPerCycle : Nat
  cursor : Option Key

def deleteBatchKeys : Nat := 1024
def scanBoundFactor : Nat := 8

/-- A cycle under way: the versions of the row whose keys are being read, and the deletes
that wait for the next write. -/
structure GcCycle where
  db : Db
  batch : WriteBatch
  batchKeys : Nat
  groupPrefix : Bytes
  groupVersions : List Timestamp
  stats : VersionGcCycleStats

/-- A cycle that fails leaves what it has written. -/
abbrev GcResult (α : Type) := Except (Db × Error) α

def indexKeyFor (group : Bytes) (ts : Timestamp) : Key := indexLead ++ (group.drop 2 ++ reverseText ts)

/-- A version key is split at its last separator; a key that does not parse is no version. -/
def parseVersionKey (key : Key) : Option (Bytes × Timestamp) := do
  let (before,text) ← splitLast colon key
  if (fromUtf8 text).isSome then
    let ts ← parseUnsigned u64Max text
    some (before ++ [colon],ts)
  else none

namespace VersionGc

def probe (db : Db) (key : Key) : GcResult Bool :=
  match db.get key with
  | .ok value => .ok value.isSome
  | .error message => .error (db,.storage ("version-gc index probe: " ++ message))

/-- The first of the versions that has an index entry. -/
def newestIndexed (db : Db) (group : Bytes) : List Timestamp → GcResult (Option Timestamp)
  | [] => .ok none
  | ts::rest => do
    if ← probe db (indexKeyFor group ts) then .ok (some ts) else newestIndexed db group rest

/-- The versions to delete: those up to the horizon, but for the newest of them. When it
has no index entry, the newest one that has one is kept too. -/
def doomed (db : Db) (horizon : Timestamp) (group : Bytes) (versions : List Timestamp) : GcResult (List Timestamp) :=
  if versions.length ≤ 1 then .ok []
  else
    match (versions.filter fun ts => decide (ts ≤ horizon)).max? with
    | none => .ok []
    | some keep => do
      let keepHasIndex ← probe db (indexKeyFor group keep)
      let candidates := (versions.filter fun ts => decide (ts ≤ horizon ∧ ts ≠ keep)).insertionSort (· ≥ ·)
      let keepIndexed ← if keepHasIndex then .ok none else newestIndexed db group candidates
      .ok (versions.filter fun ts => decide (ts ≤ horizon ∧ ts ≠ keep ∧ some ts ≠ keepIndexed))

def flush (c : GcCycle) : GcResult GcCycle :=
  if 0 < c.batchKeys then
    match c.db.write c.batch with
    | .ok db => .ok { c with db := db, batch := [], batchKeys := 0 }
    | .error message => .error (c.db,.storage ("version-gc delete batch: " ++ message))
  else .ok c

def deletes (group : Bytes) (versions : List Timestamp) : WriteBatch :=
  versions.flatMap fun ts => [.delete (group ++ decimal ts),.delete (indexKeyFor group ts)]

/-- The row is done: its old versions join the batch, which is written when it is large. -/
def processGroup (horizon : Timestamp) (c : GcCycle) : GcResult GcCycle := do
  let old ← doomed c.db horizon c.groupPrefix c.groupVersions
  let c := { c with
    batch := c.batch ++ deletes c.groupPrefix old
    batchKeys := c.batchKeys+2*old.length
    groupVersions := []
    stats := { c.stats with
      versionsDeleted := c.stats.versionsDeleted+old.length
      indexEntriesDeleted := c.stats.indexEntriesDeleted+old.length } }
  if deleteBatchKeys ≤ c.batchKeys then flush c else .ok c

/-- The loop over the keys. It stops at the end of the version keys, or between two rows
when a bound is reached; then the key it stopped at is the next cursor. -/
def scan (horizon : Timestamp) (maxDeletes scanBudget : Nat) :
    List (Except String (Key × Bytes)) → GcCycle → GcResult (GcCycle × Option Key)
  | [], c => .ok (c,none)
  | .error message :: _, c => .error (c.db,.storage ("version-gc scan: " ++ message))
  | .ok (key,_) :: rest, c =>
    if versionLead <+: key then
      match parseVersionKey key with
      | none => scan horizon maxDeletes scanBudget rest c
      | some (group,ts) =>
        if group ≠ c.groupPrefix then do
          let c ← processGroup horizon c
          if maxDeletes ≤ c.stats.versionsDeleted ∨ scanBudget ≤ c.stats.keysScanned then .ok (c,some key)
          else scan horizon maxDeletes scanBudget rest { c with
            groupPrefix := group
            groupVersions := c.groupVersions ++ [ts]
            stats := { c.stats with keysScanned := c.stats.keysScanned+1 } }
        else scan horizon maxDeletes scanBudget rest { c with
          groupVersions := c.groupVersions ++ [ts]
          stats := { c.stats with keysScanned := c.stats.keysScanned+1 } }
    else .ok (c,none)

/-- One round of the loop: the cycle after it, and the next cursor when the loop ends with it. -/
def scanItem (horizon : Timestamp) (maxDeletes scanBudget : Nat) (c : GcCycle) :
    Except String (Key × Bytes) → GcResult (GcCycle × Option (Option Key))
  | .error message => .error (c.db,.storage ("version-gc scan: " ++ message))
  | .ok (key,_) =>
    if versionLead <+: key then
      match parseVersionKey key with
      | none => .ok (c,none)
      | some (group,ts) =>
        if group ≠ c.groupPrefix then do
          let c ← processGroup horizon c
          if maxDeletes ≤ c.stats.versionsDeleted ∨ scanBudget ≤ c.stats.keysScanned then .ok (c,some (some key))
          else .ok ({ c with
            groupPrefix := group
            groupVersions := c.groupVersions ++ [ts]
            stats := { c.stats with keysScanned := c.stats.keysScanned+1 } },none)
        else .ok ({ c with
          groupVersions := c.groupVersions ++ [ts]
          stats := { c.stats with keysScanned := c.stats.keysScanned+1 } },none)
    else .ok (c,some none)

theorem scan_cons (horizon : Timestamp) (maxDeletes scanBudget : Nat) (item : Except String (Key × Bytes))
    (rest : List (Except String (Key × Bytes))) (c : GcCycle) :
    scan horizon maxDeletes scanBudget (item::rest) c = scanItem horizon maxDeletes scanBudget c item >>= fun result =>
      match result.2 with
      | none => scan horizon maxDeletes scanBudget rest result.1
      | some next => .ok (result.1,next) := by
  cases item with
  | error message => rfl
  | ok entry =>
    obtain ⟨key,value⟩ := entry
    rw [scan,scanItem]
    split
    · cases parseVersionKey key with
      | none => rfl
      | some parsed =>
        obtain ⟨group,ts⟩ := parsed
        simp only
        split
        · cases processGroup horizon c with
          | error failure => rfl
          | ok c' =>
            simp only [bind,Except.bind]
            split <;> rfl
        · rfl
    · rfl

/-- What follows the loop: the last row, unless a bound was reached, and the last write. -/
def finish (horizon : Timestamp) (c : GcCycle) (next : Option Key) : GcResult GcCycle := do
  let c ← if next.isNone then processGroup horizon c else .ok c
  flush c

/-- The scan, the last row and the last write. -/
def cycle (gc : VersionGc) (db : Db) (horizon : Timestamp) : GcResult (GcCycle × Option Key) := do
  let maxDeletes := max gc.maxVersionsPerCycle 1
  let scanBudget := max (min (maxDeletes*scanBoundFactor) u64Max) 65536
  let start := gc.cursor.getD versionLead
  let (c,nextCursor) ← scan horizon maxDeletes scanBudget (db.iter start) ⟨db,[],0,[],[],⟨0,0,0,true⟩⟩
  let c ← if nextCursor.isNone then processGroup horizon c else .ok c
  let c ← flush c
  .ok (c,nextCursor)

/-- One cycle. The cursor moves only when the cycle succeeds. -/
def collectBelow (gc : VersionGc) (db : Db) (horizon : Timestamp) :
    VersionGc × Db × Except Error VersionGcCycleStats :=
  match gc.cycle db horizon with
  | .error (db,error) => (gc,db,.error error)
  | .ok (c,nextCursor) =>
    ({ gc with cursor := nextCursor },c.db,.ok { c.stats with finishedPass := nextCursor.isNone })

def collect (gc : VersionGc) (db : Db) : List Timestamp → VersionGc × Db
  | [] => (gc,db)
  | horizon::rest =>
    let (gc,db,_) := gc.collectBelow db horizon
    gc.collect db rest

end VersionGc
open VersionGc

/-- Only keys without protection have been deleted. -/
def Trimmed (P : Key → Prop) (base store : Store) : Prop :=
  ∀ key, store.lookup key = base.lookup key ∨ store.lookup key = none ∧ ¬P key

def GroupFrom (base : Store) (group : Bytes) (versions : List Timestamp) : Prop :=
  ∀ ts ∈ versions, ts ≤ u64Max ∧ versionLead <+: group ∧ (∃ before, group = before ++ [colon]) ∧
    ∃ text value, parseUnsigned u64Max text = some ts ∧ base.lookup (group ++ text) = some value

/-- The rule of deletion at a horizon spares what is protected. -/
def Careful (P : Key → Prop) (base : Store) (horizon : Timestamp) : Prop :=
  ∀ db group versions old, Trimmed P base db.store → GroupFrom base group versions →
    doomed db horizon group versions = .ok old →
    ∀ ts ∈ old, ¬P (group ++ decimal ts) ∧ ¬P (indexKeyFor group ts)

section
variable {P : Key → Prop} {base store : Store}

theorem Trimmed.refl (P : Key → Prop) (base : Store) : Trimmed P base base := fun _ => .inl rfl

variable {key : Key}
variable (h : Trimmed P base store)
include h

theorem Trimmed.lookup (hp : P key) : store.lookup key = base.lookup key :=
  (h key).resolve_right fun hn => hn.2 hp

theorem Trimmed.of_some {value : Bytes} (hs : store.lookup key = some value) : base.lookup key = some value := by
  rcases h key with heq | ⟨hn,-⟩
  · rw [← heq,hs]
  · rw [hs] at hn
    cases hn

theorem Trimmed.write {batch : WriteBatch}
    (hb : ∀ op ∈ batch, ∃ key, op = .delete key ∧ ¬P key) : Trimmed P base (store.write batch) := by
  induction batch generalizing store with
  | nil => exact h
  | cons op rest ih =>
    obtain ⟨hop,hrest⟩ := forall_mem_cons.mp hb
    obtain ⟨key,rfl,hp⟩ := hop
    refine ih (fun k => ?_) hrest
    rw [Map.lookup_apply_delete]
    split
    next heq =>
      exact .inr ⟨rfl,heq ▸ hp⟩
    · exact h k

end

section
variable {db : Db} {horizon : Timestamp} {group : Bytes} {versions old : List Timestamp}

theorem probe_ok {key : Key} {found : Bool} (h : probe db key = .ok found) : found = (db.store.lookup key).isSome := by
  unfold probe Db.get at h
  cases he : db.getError key with
  | some message => simp [he] at h
  | none =>
    simp only [he,Except.ok.injEq] at h
    exact h.symm

variable {ts : Timestamp}

theorem newestIndexed_spec {xs : List Timestamp} (hs : xs.Pairwise (· ≥ ·)) {found : Option Timestamp}
    (h : newestIndexed db group xs = .ok found) (hts : ts ∈ xs)
    (hi : (db.store.lookup (indexKeyFor group ts)).isSome = true) : ∃ newest ∈ xs, found = some newest ∧ ts ≤ newest ∧
      (db.store.lookup (indexKeyFor group newest)).isSome = true := by
  induction xs with
  | nil => simp at hts
  | cons x rest ih =>
    obtain ⟨hx,hrest⟩ := pairwise_cons.mp hs
    obtain ⟨hit,hp,h⟩ := bind_eq_ok.mp h
    have hh := probe_ok hp
    cases hit with
    | true =>
      cases h
      refine ⟨x,mem_cons_self,rfl,?_,hh.symm⟩
      rcases mem_cons.mp hts with rfl | hts
      · exact Nat.le_refl _
      · exact hx ts hts
    | false =>
      rcases mem_cons.mp hts with rfl | hts
      · rw [hi] at hh
        cases hh
      · obtain ⟨newest,hm,hf,hle,hn⟩ := ih hrest h hts
        exact ⟨newest,mem_cons_of_mem _ hm,hf,hle,hn⟩

theorem doomed_spec (h : doomed db horizon group versions = .ok old) (hts : ts ∈ old) :
    ts ∈ versions ∧ ts ≤ horizon ∧ (∃ keep ∈ versions, ts < keep ∧ keep ≤ horizon) ∧
      ((db.store.lookup (indexKeyFor group ts)).isSome = true → ∃ newer ∈ versions, ts < newer ∧ newer ≤ horizon ∧
        (db.store.lookup (indexKeyFor group newer)).isSome = true) := by
  unfold doomed at h
  split at h
  · cases h
    simp at hts
  split at h
  · cases h
    simp at hts
  next keep hke =>
    obtain ⟨hkm,hm⟩ := max?_eq_some_iff.mp hke
    obtain ⟨hkp,hk⟩ := mem_filter.mp hkm
    have hk := of_decide_eq_true hk
    have hlt : ts ∈ versions → ts ≤ horizon → ts ≠ keep → ts < keep := by
      intro hin hle hne
      exact Nat.lt_of_le_of_ne (hm ts (mem_filter.mpr ⟨hin,decide_eq_true hle⟩)) hne
    obtain ⟨hit,hp,h⟩ := bind_eq_ok.mp h
    have hh := probe_ok hp
    cases hit with
    | true =>
      cases h
      obtain ⟨hin,hrest⟩ := mem_filter.mp hts
      obtain ⟨hle,hne,-⟩ := of_decide_eq_true hrest
      exact ⟨hin,hle,⟨keep,hkp,hlt hin hle hne,hk⟩,fun _ =>
        ⟨keep,hkp,hlt hin hle hne,hk,hh.symm⟩⟩
    | false =>
      obtain ⟨keepIndexed,hi,h⟩ := bind_eq_ok.mp h
      cases h
      obtain ⟨hin,hrest⟩ := mem_filter.mp hts
      obtain ⟨hle,hne,hnn⟩ := of_decide_eq_true hrest
      refine ⟨hin,hle,⟨keep,hkp,hlt hin hle hne,hk⟩,fun hts' => ?_⟩
      obtain ⟨newest,hmm,rfl,hnt,hn⟩ := newestIndexed_spec (pairwise_insertionSort _ _) hi
        ((mem_insertionSort _).mpr (mem_filter.mpr ⟨hin,decide_eq_true ⟨hle,hne⟩⟩)) hts'
      obtain ⟨hnw,hns⟩ := mem_filter.mp ((mem_insertionSort _).mp hmm)
      refine ⟨newest,hnw,Nat.lt_of_le_of_ne hnt fun heq => ?_,(of_decide_eq_true hns).1,hn⟩
      exact hnn (congrArg some heq)

end

section
variable {group : Bytes} {table : TableName} {row : RowId}

theorem length_reverseText (ts : Timestamp) : (reverseText ts).length = 20 := by
  rw [reverseText]
  exact length_padded 20 _

theorem versionKey_eq (table : Bytes) (row : RowId) (ts : Timestamp) :
    versionKey table row ts = versionPrefix table row ++ decimal ts := by
  simp [versionKey,versionPrefix]

variable {e ts : Timestamp}

theorem group_eq_of_versionKey (hg : ∃ before, group = before ++ [colon])
    (h : group ++ decimal ts = versionKey table.bytes row e) : group = versionPrefix table.bytes row ∧ ts = e := by
  obtain ⟨before,rfl⟩ := hg
  have hs : before ++ colon :: decimal ts = (versionLead ++ rowText table.bytes row) ++ colon :: decimal e := by
    simpa [versionKey] using h
  obtain ⟨hb,htx⟩ := append_sep_inj (colon_not_mem_decimal ts) (colon_not_mem_decimal e) hs
  refine ⟨?_,decimal_injective htx⟩
  rw [hb]
  simp [versionPrefix]

theorem group_eq_of_indexKey (hg : versionLead <+: group) (hts : ts ≤ u64Max) (he : e ≤ u64Max)
    (h : indexKeyFor group ts = indexKey table.bytes row e) : group = versionPrefix table.bytes row ∧ ts = e := by
  obtain ⟨rest,rfl⟩ := hg
  have hd : (versionLead ++ rest).drop 2 = rest := rfl
  rw [indexKeyFor,hd,indexKey,indexPrefix,append_assoc,append_cancel_left_eq] at h
  obtain ⟨hrest,htx⟩ := append_inj' h (by rw [length_reverseText,length_reverseText])
  exact ⟨by rw [hrest]; rfl,reverseText_inj hts he htx⟩

theorem indexKeyFor_versionPrefix (table : Bytes) (row : RowId) (ts : Timestamp) :
    indexKeyFor (versionPrefix table row) ts = indexKey table row ts := by
  have hd : (versionPrefix table row).drop 2 = rowText table row ++ [colon] := rfl
  rw [indexKeyFor,hd,indexKey,indexPrefix,append_assoc indexLead]

end

/-- Nothing protected is deleted or waits to be. -/
structure GcCycle.Keeps (P : Key → Prop) (base : Store) (c : GcCycle) : Prop where
  trimmed : Trimmed P base c.db.store
  spared : ∀ op ∈ c.batch, ∃ key, op = .delete key ∧ ¬P key
  group : GroupFrom base c.groupPrefix c.groupVersions

/-- The property of a cycle, or of the database that a failed one leaves. -/
def GcResult.Keeps {α : Type} (P : Key → Prop) (base : Store) (Q : α → Prop) : GcResult α → Prop
  | .ok a => Q a
  | .error (db,_) => Trimmed P base db.store

section
variable {P : Key → Prop} {base : Store} {horizon : Timestamp} {c : GcCycle}

theorem GcResult.Keeps.bind {α β : Type} {Q : α → Prop} {R : β → Prop} {x : GcResult α} {f : α → GcResult β}
    (hx : x.Keeps P base Q) (hf : ∀ a, Q a → GcResult.Keeps P base R (f a)) : GcResult.Keeps P base R (x >>= f) := by
  cases x with
  | error failure => exact hx
  | ok a => exact hf a hx

theorem GcResult.Keeps.mono {α : Type} {Q R : α → Prop} {x : GcResult α} (hx : x.Keeps P base Q) (h : ∀ a, Q a → R a) :
    x.Keeps P base R := by
  cases x with
  | error failure => exact hx
  | ok a => exact h a hx

variable {db : Db}

theorem keeps_probe (h : Trimmed P base db.store) (key : Key) : (probe db key).Keeps P base fun _ => True := by
  unfold probe
  split
  · trivial
  · exact h

theorem keeps_newestIndexed (h : Trimmed P base db.store) (group : Bytes) (xs : List Timestamp) :
    (newestIndexed db group xs).Keeps P base fun _ => True := by
  induction xs with
  | nil => trivial
  | cons x rest ih =>
    refine (keeps_probe h _).bind fun hit _ => ?_
    cases hit
    · exact ih
    · trivial

theorem keeps_doomed (horizon : Timestamp) (h : Trimmed P base db.store) (group : Bytes) (versions : List Timestamp) :
    (doomed db horizon group versions).Keeps P base fun _ => True := by
  unfold doomed
  split
  · trivial
  split
  · trivial
  refine (keeps_probe h _).bind fun hit _ => ?_
  cases hit
  · exact (keeps_newestIndexed h _ _).bind fun _ _ => trivial
  · trivial

theorem keeps_flush (h : c.Keeps P base) :
    (flush c).Keeps P base fun c' => c'.Keeps P base ∧ c'.groupVersions = c.groupVersions := by
  unfold flush
  split
  · unfold Db.write
    cases c.db.writeError with
    | some message => exact h.trimmed
    | none => exact ⟨⟨h.trimmed.write h.spared,by simp,h.group⟩,rfl⟩
  · exact ⟨h,rfl⟩

variable (hc : Careful P base horizon)
include hc

theorem keeps_processGroup (h : c.Keeps P base) :
    (processGroup horizon c).Keeps P base fun c' => c'.Keeps P base ∧ c'.groupVersions = [] := by
  unfold processGroup
  have hdm := keeps_doomed horizon h.trimmed c.groupPrefix c.groupVersions
  cases hold : doomed c.db horizon c.groupPrefix c.groupVersions with
  | error failure =>
    rw [hold] at hdm
    exact hdm
  | ok old =>
    have hs := hc c.db c.groupPrefix c.groupVersions old h.trimmed h.group hold
    have hd : ∀ op ∈ c.batch ++ deletes c.groupPrefix old, ∃ key, op = .delete key ∧ ¬P key := by
      intro op hop
      rcases mem_append.mp hop with hop | hop
      · exact h.spared op hop
      obtain ⟨ts,hts,hop⟩ := mem_flatMap.mp hop
      rcases mem_cons.mp hop with rfl | hop
      · exact ⟨_,rfl,(hs ts hts).1⟩
      · exact ⟨_,mem_singleton.mp hop,(hs ts hts).2⟩
    simp only [bind,Except.bind]
    split
    · exact keeps_flush ⟨h.trimmed,hd,fun ts hts => by simp at hts⟩
    · exact ⟨⟨h.trimmed,hd,fun ts hts => by simp at hts⟩,rfl⟩

omit hc in
theorem parseVersionKey_spec {key : Key} {group : Bytes} {ts : Timestamp} (hp : versionLead <+: key)
    (h : parseVersionKey key = some (group,ts)) : ts ≤ u64Max ∧ versionLead <+: group ∧
      (∃ before, group = before ++ [colon]) ∧ ∃ text, parseUnsigned u64Max text = some ts ∧ key = group ++ text := by
  unfold parseVersionKey at h
  cases hs : splitLast colon key with
  | none => simp [hs] at h
  | some parts =>
    obtain ⟨before,text⟩ := parts
    have hkey := (splitLast_eq_some hs).1
    simp only [hs,bind_eq_bind,bind_some] at h
    split at h
    · cases hts : parseUnsigned u64Max text with
      | none => simp [hts] at h
      | some n =>
        simp only [hts,bind_some,some.injEq,Prod.mk.injEq] at h
        obtain ⟨rfl,rfl⟩ := h
        have hk' : key = (before ++ [colon]) ++ text := by simp [hkey]
        refine ⟨parseUnsigned_le hts,?_,⟨before,rfl⟩,text,hts,hk'⟩
        cases before with
        | nil =>
          -- The key starts with a letter.
          obtain ⟨rest,hrest⟩ := hp
          rw [hk'] at hrest
          exact absurd (head_eq_of_cons_eq hrest) (by decide +kernel)
        | cons b rest =>
          refine prefix_of_prefix_length_le (hk' ▸ hp) (prefix_append _ _) ?_
          have : versionLead.length = 2 := rfl
          simp only [this,length_append,length_cons,length_nil]
          omega
    · cases h

theorem keeps_scanItem (maxDeletes scanBudget : Nat) {item : Except String (Key × Bytes)}
    (hi : ∀ key value, item = .ok (key,value) → base.lookup key = some value) (h : c.Keeps P base) :
    (scanItem horizon maxDeletes scanBudget c item).Keeps P base fun result => result.1.Keeps P base := by
  cases item with
  | error message => exact h.trimmed
  | ok entry =>
    obtain ⟨key,value⟩ := entry
    rw [scanItem]
    split
    next hp =>
      split
      · exact h
      next group ts hpr =>
        obtain ⟨hle,hl,hcl,text,htx,hkey⟩ := parseVersionKey_spec hp hpr
        have ho : GroupFrom base group [ts] := by
          intro t ht
          rw [mem_singleton.mp ht]
          exact ⟨hle,hl,hcl,text,value,htx,hkey ▸ hi key value rfl⟩
        split
        · refine (keeps_processGroup hc h).bind fun c' hc' => ?_
          split
          · exact hc'.1
          · refine ⟨hc'.1.trimmed,hc'.1.spared,?_⟩
            rw [hc'.2]
            exact ho
        next hsame =>
          have hg : group = c.groupPrefix := not_not.mp hsame
          refine ⟨h.trimmed,h.spared,fun t ht => ?_⟩
          rcases mem_append.mp ht with ht | ht
          · exact h.group t ht
          · exact hg ▸ ho t ht
    · exact h

theorem keeps_scan (maxDeletes scanBudget : Nat)
    {items : List (Except String (Key × Bytes))} (hits : ∀ key value, .ok (key,value) ∈ items →
      base.lookup key = some value) (h : c.Keeps P base) :
    (scan horizon maxDeletes scanBudget items c).Keeps P base fun result => result.1.Keeps P base := by
  induction items generalizing c with
  | nil => exact h
  | cons item rest ih =>
    have hf : ∀ key value, item = .ok (key,value) → base.lookup key = some value :=
      fun key value heq => hits key value (heq ▸ mem_cons_self)
    rw [scan_cons]
    refine (keeps_scanItem hc maxDeletes scanBudget hf h).bind fun result hr => ?_
    obtain ⟨c',next⟩ := result
    cases next with
    | none => exact ih (fun key value hm => hits key value (mem_cons_of_mem _ hm)) hr
    | some next => exact hr

theorem keeps_finish (h : c.Keeps P base) (next : Option Key) :
    (finish horizon c next).Keeps P base fun c' => c'.Keeps P base := by
  have hf : ∀ c : GcCycle, c.Keeps P base → (flush c).Keeps P base fun c' => c'.Keeps P base :=
    fun c hc' => (keeps_flush hc').mono fun c' hc' => hc'.1
  unfold finish
  split
  · exact (keeps_processGroup hc h).bind fun c' hc' => hf c' hc'.1
  · exact hf c h

theorem Trimmed.collectBelow (h : Trimmed P base db.store) (gc : VersionGc) :
    Trimmed P base (gc.collectBelow db horizon).2.1.store := by
  have hits : ∀ key value, .ok (key,value) ∈ db.iter (gc.cursor.getD versionLead) → base.lookup key = some value := by
    intro key value hm
    obtain ⟨entry,he,heq⟩ := mem_map.mp hm
    split at heq
    · cases heq
    · cases heq
      exact h.of_some ((Map.mem_iterFrom _ _ _).mp he).1
  have hs : GcCycle.Keeps P base ⟨db,[],0,[],[],⟨0,0,0,true⟩⟩ :=
    ⟨h,by simp,fun ts hts => by simp at hts⟩
  have hcy : (gc.cycle db horizon).Keeps P base fun result => result.1.Keeps P base := by
    refine (keeps_scan hc _ _ hits hs).bind fun result hrs => ?_
    obtain ⟨c,next⟩ := result
    have hl : ∀ c : GcCycle, c.Keeps P base → (do
        let c ← VersionGc.flush c
        .ok (c,next) : GcResult (GcCycle × Option Key)).Keeps P base fun result => result.1.Keeps P base :=
      fun c hc' => (keeps_flush hc').bind fun c' hc' => hc'.1
    cases next with
    | none => exact (keeps_processGroup hc hrs).bind fun c' hc' => hl c' hc'.1
    | some key => exact hl c hrs
  unfold VersionGc.collectBelow
  cases hr : gc.cycle db horizon with
  | error failure =>
    rw [hr] at hcy
    exact hcy
  | ok result =>
    rw [hr] at hcy
    exact hcy.trimmed

omit hc

theorem Trimmed.collect {horizons : List Timestamp} (hc : ∀ horizon ∈ horizons, Careful P base horizon)
    (h : Trimmed P base db.store) (gc : VersionGc) : Trimmed P base (gc.collect db horizons).2.store := by
  induction horizons generalizing db gc with
  | nil => exact h
  | cons horizon rest ih =>
    obtain ⟨hh,hrest⟩ := forall_mem_cons.mp hc
    exact ih hrest (h.collectBelow hh gc) _

end

def NewestVersion (store : Store) (table : TableName) (row : RowId) (ts : Timestamp) : Prop :=
  (∃ value, store.lookup (versionKey table.bytes row ts) = some value) ∧
    ∀ text value other, store.lookup (versionPrefix table.bytes row ++ text) = some value →
      parseUnsigned u64Max text = some other → other ≤ ts

def Serves (store : Store) (table : TableName) (row : RowId) (bound e : Timestamp) : Prop :=
  (∃ elided, HasEvent store table row e elided) ∧
    ∀ other elided, HasEvent store table row other elided → other ≤ bound → other ≤ e

/-- The keys that a read at the bound or later looks at. -/
def ReadKey (store : Store) (table : TableName) (row : RowId) (bound : Timestamp) (key : Key) : Prop :=
  key = dataKey table.bytes row ∨ ∃ e, Serves store table row bound e ∧
    (key = indexKey table.bytes row e ∨ key = versionKey table.bytes row e)

section
variable {base : Store} {table : TableName} {row : RowId} {bound horizon : Timestamp}
variable {group : Bytes}

theorem not_lead_data (hg : versionLead <+: group) (ts : Timestamp) :
    group ++ decimal ts ≠ dataKey table.bytes row ∧ indexKeyFor group ts ≠ dataKey table.bytes row := by
  obtain ⟨rest,rfl⟩ := hg
  refine ⟨?_,keyspace_disjoint (show Keyspace.index ≠ Keyspace.data by decide) _ _⟩
  rw [append_assoc]
  exact keyspace_disjoint (show Keyspace.version ≠ Keyspace.data by decide) _ _

theorem indexKeyFor_ne_versionKey (group : Bytes) (ts e : Timestamp) : indexKeyFor group ts ≠ versionKey table.bytes row e :=
  keyspace_disjoint (show Keyspace.index ≠ Keyspace.version by decide) _ _

theorem versionKeyFor_ne_indexKey (hg : versionLead <+: group) (ts e : Timestamp) :
    group ++ decimal ts ≠ indexKey table.bytes row e := by
  obtain ⟨rest,rfl⟩ := hg
  rw [append_assoc,indexKey_eq]
  exact keyspace_disjoint (show Keyspace.version ≠ Keyspace.index by decide) _ _

theorem careful_newest (base : Store) (table : TableName) (row : RowId) (horizon : Timestamp) :
    Careful (fun key => ∃ ts, NewestVersion base table row ts ∧ key = versionKey table.bytes row ts) base horizon := by
  intro db group versions old htr hgr hd ts hts
  obtain ⟨hin,-,⟨keep,hk,hlt,-⟩,-⟩ := doomed_spec hd hts
  refine ⟨?_,fun hp => ?_⟩
  · rintro ⟨newest,⟨-,hm⟩,heq⟩
    obtain ⟨hg,rfl⟩ := group_eq_of_versionKey (hgr ts hin).2.2.1 heq
    obtain ⟨-,-,-,text,value,hpr,hl⟩ := hgr keep hk
    exact absurd (hm text value keep (hg ▸ hl) hpr) (Nat.not_le.mpr hlt)
  · obtain ⟨newest,-,heq⟩ := hp
    exact indexKeyFor_ne_versionKey group ts newest heq

theorem careful_reads (hc : CleanIndex base table row) (hle : horizon ≤ bound) :
    Careful (ReadKey base table row bound) base horizon := by
  intro db group versions old htr hgr hd ts hts
  obtain ⟨hin,hts',-,hnr⟩ := doomed_spec hd hts
  obtain ⟨htl,hld,hcl,-⟩ := hgr ts hin
  -- The argument for both keys of a version.
  have hsp : ∀ e, Serves base table row bound e → group = versionPrefix table.bytes row → ts ≠ e := by
    rintro e hs rfl rfl
    obtain ⟨⟨elided,hev⟩,hm⟩ := hs
    have hp : (db.store.lookup (indexKeyFor (versionPrefix table.bytes row) ts)).isSome = true := by
      rw [indexKeyFor_versionPrefix,htr.lookup (.inr ⟨ts,⟨⟨elided,hev⟩,hm⟩,.inl rfl⟩)]
      obtain ⟨-,value,hl,-⟩ := hev
      rw [hl]
      rfl
    obtain ⟨newer,hn,hlt,hnw,hi⟩ := hnr hp
    rw [indexKeyFor_versionPrefix] at hi
    obtain ⟨value,hl⟩ := isSome_iff_exists.mp hi
    have hb := htr.of_some hl
    obtain ⟨e',elided',hle',htx,hdc⟩ := hc _ value hb
    obtain rfl := reverseText_inj (hgr newer hn).1 hle' htx
    exact absurd (hm newer elided' ⟨hle',value,hb,hdc⟩ (hnw.trans hle)) (Nat.not_le.mpr hlt)
  refine ⟨?_,?_⟩
  · rintro (heq | ⟨e,hs,heq | heq⟩)
    · exact (not_lead_data hld ts).1 heq
    · exact versionKeyFor_ne_indexKey hld ts e heq
    · obtain ⟨hg,he⟩ := group_eq_of_versionKey hcl heq
      exact hsp e hs hg he
  · rintro (heq | ⟨e,hs,heq | heq⟩)
    · exact (not_lead_data hld ts).2 heq
    · obtain ⟨elided,hev⟩ := hs.1
      obtain ⟨hg,he⟩ := group_eq_of_indexKey hld htl hev.1 heq
      exact hsp e hs hg he
    · exact indexKeyFor_ne_versionKey group ts e heq

end
end HeliosNano.Storage
