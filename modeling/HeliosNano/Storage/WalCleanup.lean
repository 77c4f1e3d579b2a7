import HeliosNano.Foundation.Bincode
import HeliosNano.Storage.Db

/-! Retention of the write-ahead log. The cleanup decides about an entry when its scan comes to it, from the count of
the entries before; so what it keeps at least is the beginning of the log. -/
namespace HeliosNano.Storage.WalCleanup
open Foundation Bincode List

structure WalEntry (Op : Type) where
  lsn : Nat
  timestamp : Nat
  operation : Op
deriving DecidableEq

structure CleanupStats where
  entriesDeleted : Nat
  bytesFreed : Nat
  oldestLsn : Nat
  newestLsn : Nat
deriving DecidableEq

/-- The first pass: the statistics, the entries it has seen, and those it will delete with their sizes. -/
structure CleanupScan where
  stats : CleanupStats
  totalEntries : Nat
  entriesToDelete : List (Key × Nat)
deriving DecidableEq

/-- The cutoff in microseconds; a clock before the epoch counts as 0. -/
def cutoffTimeMicros (now : Option Nat) (retentionSeconds : Nat) : Nat := (now.getD 0 - retentionSeconds)*1000000%2^64

def logOf (store : Store) : List (Key × Bytes) :=
  (store.iterFrom walEntriesPrefix).filter fun e => decide (walEntriesPrefix <+: e.1)

section
variable {Op : Type} (operation : Reader Op) (keyManager : Option KeyManager)

def walEntry : Reader (WalEntry Op) := do
  let lsn ← u64
  let timestamp ← u64
  let op ← operation
  return ⟨lsn.toNat,timestamp.toNat,op⟩

def decodeEntry (raw : Bytes) : Option (WalEntry Op) := decode (walEntry operation) (openOwned keyManager raw)

/-- One entry of the first pass. -/
def CleanupScan.visit (cutoff minEntriesToKeep : Nat) (s : CleanupScan) (e : Key × Bytes) : CleanupScan :=
  let totalEntries := s.totalEntries+1
  match decodeEntry operation keyManager e.2 with
  | none => { s with totalEntries := totalEntries }
  | some entry =>
    let stats := { s.stats with
      oldestLsn := if s.stats.oldestLsn = 0 then entry.lsn else s.stats.oldestLsn
      newestLsn := entry.lsn }
    let remaining := totalEntries-s.entriesToDelete.length
    if entry.timestamp < cutoff ∧ minEntriesToKeep < remaining then
      ⟨stats,totalEntries,s.entriesToDelete ++ [(e.1,e.2.length)]⟩
    else ⟨stats,totalEntries,s.entriesToDelete⟩

/-- The first pass ends at the first key outside the log; an error of the iterator is passed over. -/
def CleanupScan.scan (cutoff minEntriesToKeep : Nat) : CleanupScan → List (Except String (Key × Bytes)) → CleanupScan
  | s, [] => s
  | s, .error _ :: rest => scan cutoff minEntriesToKeep s rest
  | s, .ok e :: rest =>
    if walEntriesPrefix <+: e.1 then scan cutoff minEntriesToKeep (s.visit operation keyManager cutoff minEntriesToKeep e) rest
    else s

def cleanupOldLogs (db : Db) (now : Option Nat) (retentionSeconds minEntriesToKeep : Nat) : Except Error CleanupStats × Db :=
  let scanned := CleanupScan.scan operation keyManager (cutoffTimeMicros now retentionSeconds) minEntriesToKeep
    ⟨⟨0,0,0,0⟩,0,[]⟩ (db.iter walEntriesPrefix)
  if scanned.entriesToDelete.isEmpty then (.ok scanned.stats,db)
  else
    match db.write (scanned.entriesToDelete.map fun e => .delete e.1) with
    | .error message => (.error (.storage ("Failed to cleanup WAL: " ++ message)),db)
    | .ok db =>
      let freed := (scanned.entriesToDelete.map Prod.snd).sum
      (.ok { scanned.stats with bytesFreed := freed, entriesDeleted := scanned.entriesToDelete.length },db)

def decoded (log : List (Key × Bytes)) : List (WalEntry Op) := log.filterMap fun e => decodeEntry operation keyManager e.2

def newer (log : List (Key × Bytes)) (entry : WalEntry Op) : List (WalEntry Op) :=
  (decoded operation keyManager log).filter fun other => decide (entry.lsn < other.lsn)

/-- What a cleanup leaves of a log when it keeps the given number of newest entries and deletes from the old end. -/
structure KeepsRecent (cutoff minEntriesToKeep : Nat) (before after : List (Key × Bytes)) : Prop where
  newest : ∀ entry ∈ decoded operation keyManager before, (newer operation keyManager before entry).length < minEntriesToKeep →
    entry ∈ decoded operation keyManager after
  old : ∀ e ∈ before, e ∉ after → ∃ entry, decodeEntry operation keyManager e.2 = some entry ∧ entry.timestamp < cutoff
  suffix : (decoded operation keyManager before).Pairwise (·.timestamp ≤ ·.timestamp) →
    decoded operation keyManager after <:+ decoded operation keyManager before

def readable (db : Db) : List (Key × Bytes) := (logOf db.store).filter fun e => (db.nextError e.1).isNone

/-- The entry stands past the first of the scan, in that many places, and is older than the cutoff. -/
structure Exposed (db : Db) (cutoff minEntriesToKeep : Nat) (e : Key × Bytes) (entry : WalEntry Op) : Prop where
  late : e ∈ (readable db).drop minEntriesToKeep
  decodes : decodeEntry operation keyManager e.2 = some entry
  old : entry.timestamp < cutoff

/-- Every such entry has enough newer ones, and while the clock never went back the entries before it also stand past
the first of the scan. -/
structure Spares (db : Db) (cutoff minEntriesToKeep : Nat) : Prop where
  newer : ∀ e entry, Exposed operation keyManager db cutoff minEntriesToKeep e entry →
    minEntriesToKeep ≤ (newer operation keyManager (logOf db.store) entry).length
  older : (decoded operation keyManager (logOf db.store)).Pairwise (·.timestamp ≤ ·.timestamp) →
    ∀ e entry, Exposed operation keyManager db cutoff minEntriesToKeep e entry →
      ∀ e' ∈ logOf db.store, ∀ entry', decodeEntry operation keyManager e'.2 = some entry' → entry'.lsn < entry.lsn →
        e' ∈ (readable db).drop minEntriesToKeep

def isOld (cutoff : Nat) (e : Key × Bytes) : Bool :=
  (decodeEntry operation keyManager e.2).any fun entry => decide (entry.timestamp < cutoff)

variable {operation keyManager} {db : Db} {cutoff minEntriesToKeep : Nat}
variable {e : Key × Bytes} {entry : WalEntry Op} {e' : Key × Bytes} {y x : WalEntry Op} {l : List (WalEntry Op)}

theorem isOld_iff : isOld operation keyManager cutoff e = true ↔
    ∃ entry, decodeEntry operation keyManager e.2 = some entry ∧ entry.timestamp < cutoff := by
  rw [isOld,Option.any_eq_true]
  simp only [decide_eq_true_eq]

theorem mem_decoded {log : List (Key × Bytes)} : entry ∈ decoded operation keyManager log ↔
    ∃ e ∈ log, decodeEntry operation keyManager e.2 = some entry := mem_filterMap

theorem scan_iter (s : CleanupScan) : CleanupScan.scan operation keyManager cutoff minEntriesToKeep s (db.iter walEntriesPrefix) =
    (readable db).foldl (CleanupScan.visit operation keyManager cutoff minEntriesToKeep) s := by
  rw [Db.iter,readable,logOf]
  have hf := Map.prefix_first db.store walEntriesPrefix
  generalize db.store.iterFrom walEntriesPrefix = items at hf ⊢
  induction items generalizing s with
  | nil => rfl
  | cons e rest ih =>
    obtain ⟨hbf,hrest⟩ := pairwise_cons.mp hf
    rw [map_cons]
    by_cases hl : walEntriesPrefix <+: e.1
    · rw [filter_cons,if_pos (decide_eq_true hl)]
      cases he : db.nextError e.1 with
      | some message =>
        rw [filter_cons,if_neg (by rw [he]; exact Bool.false_ne_true)]
        exact ih s hrest
      | none =>
        rw [filter_cons,if_pos (by rw [he]; rfl),foldl_cons]
        dsimp only
        rw [CleanupScan.scan,if_pos hl]
        exact ih _ hrest
    · -- nothing after a foreign key is in the log
      have hn : rest.filter (fun e => decide (walEntriesPrefix <+: e.1)) = [] :=
        filter_eq_nil_iff.mpr fun b hb hd => hl (hbf b hb (of_decide_eq_true hd))
      rw [filter_cons,if_neg (by rw [decide_eq_true_eq]; exact hl),hn]
      cases he : db.nextError e.1 with
      | some message =>
        have hen := ih s hrest
        rw [hn] at hen
        exact hen
      | none =>
        dsimp only
        rw [CleanupScan.scan,if_neg hl]
        rfl

theorem visit_spec (s : CleanupScan) (e : Key × Bytes) :
    (s.visit operation keyManager cutoff minEntriesToKeep e).totalEntries = s.totalEntries+1 ∧
    (s.visit operation keyManager cutoff minEntriesToKeep e).entriesToDelete =
      if isOld operation keyManager cutoff e = true ∧ minEntriesToKeep < s.totalEntries+1-s.entriesToDelete.length
      then s.entriesToDelete ++ [(e.1,e.2.length)] else s.entriesToDelete := by
  rw [CleanupScan.visit,isOld]
  cases decodeEntry operation keyManager e.2 with
  | none => exact ⟨rfl,(if_neg fun h => Bool.false_ne_true h.1).symm⟩
  | some entry =>
    simp only [Option.any_some,decide_eq_true_eq]
    split
    · exact ⟨rfl,rfl⟩
    · exact ⟨rfl,rfl⟩

theorem foldl_visit (records : List (Key × Bytes)) (stats : CleanupStats) :
    (records.foldl (CleanupScan.visit operation keyManager cutoff minEntriesToKeep) ⟨stats,0,[]⟩).totalEntries = records.length ∧
    (records.foldl (CleanupScan.visit operation keyManager cutoff minEntriesToKeep) ⟨stats,0,[]⟩).entriesToDelete =
      ((records.drop minEntriesToKeep).filter (isOld operation keyManager cutoff)).map fun e => (e.1,e.2.length) := by
  induction records using List.reverseRecOn with
  | nil => exact ⟨rfl,by rw [drop_nil]; rfl⟩
  | append_singleton records e ih =>
    obtain ⟨htt,hd⟩ := ih
    rw [foldl_append,foldl_cons,foldl_nil]
    obtain ⟨ht',hd'⟩ := @visit_spec _ operation keyManager cutoff minEntriesToKeep
      (records.foldl (CleanupScan.visit operation keyManager cutoff minEntriesToKeep) ⟨stats,0,[]⟩) e
    rw [ht',hd',htt,hd,length_map,length_append,length_singleton]
    refine ⟨rfl,?_⟩
    have hsh := length_filter_le (isOld operation keyManager cutoff) (records.drop minEntriesToKeep)
    rw [length_drop] at hsh
    by_cases hs : minEntriesToKeep ≤ records.length
    · rw [drop_append_of_le_length hs,filter_append,map_append]
      by_cases hold : isOld operation keyManager cutoff e = true
      · rw [if_pos ⟨hold,by omega⟩,filter_cons_of_pos hold]
        rfl
      · rw [if_neg fun h => hold h.1,filter_cons_of_neg hold,filter_nil,map_nil,append_nil]
    · have hn : (records ++ [e]).drop minEntriesToKeep = [] := by
        rw [drop_eq_nil_iff,length_append,length_singleton]
        omega
      have hn' : records.drop minEntriesToKeep = [] := by
        rw [drop_eq_nil_iff]
        omega
      rw [if_neg (by omega),hn,hn']

theorem logOf_write_delete (store : Store) (keys : List Key) :
    logOf (store.write (keys.map .delete)) = (logOf store).filter fun e => decide (e.1 ∉ keys) := by
  rw [logOf,Map.iterFrom_write_delete,logOf,filter_filter,filter_filter]
  refine filter_congr fun e _ => ?_
  rw [Bool.and_comm]
  exact congrArg₂ _ (decide_eq_decide.mpr Iff.rfl) rfl

theorem eq_of_mem_logOf {store : Store} (he : e ∈ logOf store) (he' : e' ∈ logOf store) (hkey : e.1 = e'.1) : e = e' := by
  have hlk := ((Map.mem_iterFrom store _ e).mp (mem_filter.mp he).1).1
  have hlookup' := ((Map.mem_iterFrom store _ e').mp (mem_filter.mp he').1).1
  rw [hkey,hlookup'] at hlk
  exact Prod.ext hkey (Option.some.inj hlk).symm

theorem mem_logOf_of_late (h : e ∈ (readable db).drop minEntriesToKeep) : e ∈ logOf db.store :=
  (mem_filter.mp (mem_of_mem_drop h)).1

theorem logOf_cleanup (hwr : db.writeError = none) (now : Option Nat) (retentionSeconds : Nat) :
    logOf (cleanupOldLogs operation keyManager db now retentionSeconds minEntriesToKeep).2.store =
      (logOf db.store).filter fun e => decide (e ∉ ((readable db).drop minEntriesToKeep).filter
        (isOld operation keyManager (cutoffTimeMicros now retentionSeconds))) := by
  have hd := (@foldl_visit _ operation keyManager (cutoffTimeMicros now retentionSeconds) minEntriesToKeep (readable db) ⟨0,0,0,0⟩).2
  have hs : (cleanupOldLogs operation keyManager db now retentionSeconds minEntriesToKeep).2.store =
      db.store.write ((((readable db).drop minEntriesToKeep).filter
        (isOld operation keyManager (cutoffTimeMicros now retentionSeconds))).map Prod.fst |>.map .delete) := by
    rw [cleanupOldLogs,scan_iter]
    dsimp only
    rw [hd,Db.write,hwr]
    split
    next hem =>
      rw [List.isEmpty_iff,map_eq_nil_iff] at hem
      rw [hem]
      rfl
    · dsimp only
      rw [map_map,map_map]
      rfl
  rw [hs,logOf_write_delete]
  refine filter_congr fun e he => ?_
  rw [decide_eq_decide,mem_map]
  refine not_congr ⟨?_,fun hm => ⟨e,hm,rfl⟩⟩
  rintro ⟨e',hm,hkey⟩
  rwa [← eq_of_mem_logOf (mem_logOf_of_late (mem_filter.mp hm).1) he hkey]

theorem eq_of_decodes (ho : (decoded operation keyManager (logOf db.store)).Pairwise (·.lsn < ·.lsn))
    (he : e ∈ logOf db.store) (he' : e' ∈ logOf db.store)
    (hd : decodeEntry operation keyManager e.2 = some entry) (hd' : decodeEntry operation keyManager e'.2 = some entry) : e = e' := by
  by_contra hne
  let both := fun a b : Key × Bytes =>
    ¬(decodeEntry operation keyManager a.2 = some entry ∧ decodeEntry operation keyManager b.2 = some entry)
  have hs : Std.Symm both := ⟨fun a b hab hba => hab ⟨hba.2,hba.1⟩⟩
  have hds : (logOf db.store).Pairwise both :=
    (pairwise_filterMap.mp ho).imp fun {a b} hlt hab => by
      obtain ⟨ha,hb⟩ : _ ∧ _ := hab
      exact Nat.lt_irrefl entry.lsn (hlt entry ha entry hb)
  exact hds.forall he he' hne ⟨hd,hd'⟩

theorem filter_isSuffix {α : Type} {p : α → Bool} {l : List α} (h : l.Pairwise fun a b => p a = true → p b = true) :
    l.filter p <:+ l := by
  induction l with
  | nil => exact suffix_rfl
  | cons a rest ih =>
    obtain ⟨hf,hrest⟩ := pairwise_cons.mp h
    by_cases ha : p a = true
    · have hal : (a::rest).filter p = a::rest :=
        filter_eq_self.mpr (forall_mem_cons.mpr ⟨ha,fun b hb => hf b hb ha⟩)
      rw [hal]
    · rw [filter_cons_of_neg ha]
      exact (ih hrest).trans (suffix_cons a rest)

theorem mem_of_isSuffix {l' : List (WalEntry Op)} (h : l' <:+ l) (ho : l.Pairwise (·.lsn < ·.lsn))
    (hx : x ∈ l') (hy : y ∈ l) (hlt : x.lsn < y.lsn) : y ∈ l' := by
  obtain ⟨before,rfl⟩ := h
  rcases mem_append.mp hy with hb | ha
  · exact absurd hlt (Nat.lt_asymm ((pairwise_append.mp ho).2.2 y hb x hx))
  · exact ha

theorem timestamp_le (ho : l.Pairwise (·.lsn < ·.lsn)) (hc : l.Pairwise (·.timestamp ≤ ·.timestamp))
    (hx : x ∈ l) (hy : y ∈ l) (hlt : x.lsn < y.lsn) : x.timestamp ≤ y.timestamp := by
  let agrees := fun a b : WalEntry Op => a.lsn < b.lsn → a.timestamp ≤ b.timestamp
  have ha : l.Pairwise agrees := hc.imp (S := agrees) fun hle _ => hle
  have hf : l.Pairwise (flip agrees) := ho.imp (S := flip agrees) fun hab hba => absurd hab (Nat.lt_asymm hba)
  exact ha.forall_of_forall_of_flip (fun _ _ _ => le_rfl) hf hx hy hlt

theorem isSuffix_kept (ho : (decoded operation keyManager (logOf db.store)).Pairwise (·.lsn < ·.lsn))
    {doomed : List (Key × Bytes)} (h : ∀ e ∈ doomed, ∀ entry, decodeEntry operation keyManager e.2 = some entry →
      ∀ e' ∈ logOf db.store, ∀ entry', decodeEntry operation keyManager e'.2 = some entry' → entry'.lsn < entry.lsn →
        e' ∈ doomed) : decoded operation keyManager ((logOf db.store).filter fun e => decide (e ∉ doomed)) <:+
      decoded operation keyManager (logOf db.store) := by
  have hd : ∀ log : List (Key × Bytes), decoded operation keyManager log =
      decoded operation keyManager (log.filter fun e => (decodeEntry operation keyManager e.2).isSome) := by
    intro log
    rw [decoded,decoded,filterMap_filter]
    refine filterMap_congr fun e _ => ?_
    cases decodeEntry operation keyManager e.2 <;> rfl
  rw [hd,hd (logOf db.store),filter_comm]
  refine List.IsSuffix.filterMap _ (filter_isSuffix ?_)
  have hs := (pairwise_filterMap.mp ho).sublist
    (filter_sublist (p := fun e : Key × Bytes => (decodeEntry operation keyManager e.2).isSome))
  refine hs.imp_of_mem fun {a b} ha hb hlt hk => decide_eq_true fun hg => of_decide_eq_true hk ?_
  obtain ⟨hal,ham⟩ := mem_filter.mp ha
  obtain ⟨x,hx⟩ := Option.isSome_iff_exists.mp ham
  obtain ⟨y,hy⟩ := Option.isSome_iff_exists.mp (mem_filter.mp hb).2
  exact h b hg y hy a hal x hx (hlt x hx y hy)

/-- A cleanup keeps the newest entries and the end of the log exactly when its batch is refused or every entry that it
deletes has enough newer ones and no entry before it is kept. -/
theorem cleanup_keeps_recent_iff (operation : Reader Op) (keyManager : Option KeyManager) (db : Db) (now : Option Nat)
    (retentionSeconds minEntriesToKeep : Nat)
    (hordered : (decoded operation keyManager (logOf db.store)).Pairwise (·.lsn < ·.lsn)) :
    KeepsRecent operation keyManager (cutoffTimeMicros now retentionSeconds) minEntriesToKeep (logOf db.store)
        (logOf (cleanupOldLogs operation keyManager db now retentionSeconds minEntriesToKeep).2.store) ↔
      db.writeError ≠ none ∨ Spares operation keyManager db (cutoffTimeMicros now retentionSeconds) minEntriesToKeep := by
  cases hwrite : db.writeError with
  | some message =>
    have hsame : (cleanupOldLogs operation keyManager db now retentionSeconds minEntriesToKeep).2 = db := by
      rw [cleanupOldLogs]
      dsimp only
      rw [Db.write,hwrite]
      split <;> rfl
    rw [hsame]
    exact iff_of_true ⟨fun _ h _ => h,fun e he hno => absurd he hno,fun _ => suffix_rfl⟩ (.inl (Option.some_ne_none _))
  | none =>
    rw [logOf_cleanup hwrite]
    generalize cutoffTimeMicros now retentionSeconds = cutoff
    have hlost : ∀ e, e ∈ ((readable db).drop minEntriesToKeep).filter (isOld operation keyManager cutoff) ↔
        ∃ entry, Exposed operation keyManager db cutoff minEntriesToKeep e entry := by
      intro e
      rw [mem_filter,isOld_iff]
      constructor
      · rintro ⟨hlate,entry,hdec,hold⟩
        exact ⟨entry,hlate,hdec,hold⟩
      · rintro ⟨entry,hlate,hdec,hold⟩
        exact ⟨hlate,entry,hdec,hold⟩
    generalize ((readable db).drop minEntriesToKeep).filter (isOld operation keyManager cutoff) = doomed at hlost ⊢
    have hgone : ∀ e entry, Exposed operation keyManager db cutoff minEntriesToKeep e entry →
        entry ∉ decoded operation keyManager ((logOf db.store).filter fun e => decide (e ∉ doomed)) := by
      intro e entry hexp hmem
      obtain ⟨e',he',hdec'⟩ := mem_decoded.mp hmem
      obtain ⟨hlog,hkept⟩ := mem_filter.mp he'
      obtain rfl := eq_of_decodes hordered (mem_logOf_of_late hexp.late) hlog hexp.decodes hdec'
      exact of_decide_eq_true hkept ((hlost e).mpr ⟨entry,hexp⟩)
    constructor
    · intro h
      refine .inr ⟨fun e entry hexp => ?_,fun hclock e entry hexp e' he' entry' hdec' hlt => ?_⟩
      · by_contra hfew
        have hin : entry ∈ decoded operation keyManager (logOf db.store) :=
          mem_decoded.mpr ⟨e,mem_logOf_of_late hexp.late,hexp.decodes⟩
        exact hgone e entry hexp (h.newest entry hin (not_le.mp hfew))
      · by_contra hearly
        have hkept : e' ∉ doomed := fun hmem => by
          obtain ⟨_,hexp'⟩ := (hlost e').mp hmem
          exact hearly hexp'.late
        have hleft : entry' ∈ decoded operation keyManager ((logOf db.store).filter fun e => decide (e ∉ doomed)) :=
          mem_decoded.mpr ⟨e',mem_filter.mpr ⟨he',decide_eq_true hkept⟩,hdec'⟩
        have hin : entry ∈ decoded operation keyManager (logOf db.store) :=
          mem_decoded.mpr ⟨e,mem_logOf_of_late hexp.late,hexp.decodes⟩
        exact hgone e entry hexp (mem_of_isSuffix (h.suffix hclock) hordered hleft hin hlt)
    · rintro (hno | h)
      · exact absurd rfl hno
      refine ⟨fun entry hentry hfew => ?_,fun e he hno => ?_,fun hclock => ?_⟩
      · obtain ⟨e,he,hdec⟩ := mem_decoded.mp hentry
        refine mem_decoded.mpr ⟨e,mem_filter.mpr ⟨he,decide_eq_true fun hmem => ?_⟩,hdec⟩
        obtain ⟨other,hexp⟩ := (hlost e).mp hmem
        obtain rfl := Option.some.inj (hexp.decodes.symm.trans hdec)
        exact absurd (h.newer e other hexp) (not_le.mpr hfew)
      · have hmem : e ∈ doomed := by
          by_contra hkept
          exact hno (mem_filter.mpr ⟨he,decide_eq_true hkept⟩)
        obtain ⟨entry,hexp⟩ := (hlost e).mp hmem
        exact ⟨entry,hexp.decodes,hexp.old⟩
      · refine isSuffix_kept hordered fun e he entry hdec e' he' entry' hdec' hlt => ?_
        obtain ⟨other,hexp⟩ := (hlost e).mp he
        obtain rfl := Option.some.inj (hexp.decodes.symm.trans hdec)
        refine (hlost e').mpr ⟨entry',h.older hclock e other hexp e' he' entry' hdec' hlt,hdec',?_⟩
        exact lt_of_le_of_lt (timestamp_le hordered hclock (mem_decoded.mpr ⟨e',he',hdec'⟩)
          (mem_decoded.mpr ⟨e,mem_logOf_of_late hexp.late,hdec⟩) hlt) hexp.old

end

/-- An operation that truncates a table: its variant, and the name of the table. -/
def truncate : Reader Bytes := do
  let variant ← take 4
  if variant = [3,0,0,0] then string else failure

def sampleEntry (lsn seconds : UInt64) : Bytes :=
  encodeU64 lsn ++ (encodeU64 (seconds*1000000) ++ ([3,0,0,0] ++ encodeString [116]))

/-- Three entries, the last of them five seconds old. -/
def sampleLog : Store := [(1,10),(2,20),(3,95)].foldl
  (fun store e => store.insert (walEntriesPrefix ++ padded 20 e.1.toNat) (sampleEntry e.1 e.2)) ∅

theorem sampleLog_ordered : (decoded truncate none (logOf sampleLog)).Pairwise (·.lsn < ·.lsn) := by decide +kernel

/-- When no number of entries is to be kept, what is old goes and the end of the log is left. -/
theorem cleanup_keeps_recent_sample : KeepsRecent truncate none (cutoffTimeMicros (some 100) 10) 0 (logOf sampleLog)
        (logOf (cleanupOldLogs truncate none (.healthy sampleLog) (some 100) 10 0).2.store) ∧
      (decoded truncate none (logOf (cleanupOldLogs truncate none (.healthy sampleLog) (some 100) 10 0).2.store)).map (·.lsn) = [3] := by
  refine ⟨?_,by decide +kernel⟩
  refine (cleanup_keeps_recent_iff truncate none (.healthy sampleLog) (some 100) 10 0 sampleLog_ordered).mpr
    (.inr ⟨fun _ _ _ => Nat.zero_le _,fun _ _ _ _ e' he' _ _ _ => ?_⟩)
  rw [drop_zero]
  exact mem_filter.mpr ⟨he',rfl⟩

/-- One entry is to be kept, and it is the oldest that is. -/
theorem cleanup_deletes_newest : (decoded truncate none (logOf sampleLog)).Pairwise (·.lsn < ·.lsn) ∧
      (decoded truncate none (logOf (cleanupOldLogs truncate none (.healthy sampleLog) (some 100) 0 1).2.store)).map (·.lsn) = [1] ∧
      ¬KeepsRecent truncate none (cutoffTimeMicros (some 100) 0) 1 (logOf sampleLog)
        (logOf (cleanupOldLogs truncate none (.healthy sampleLog) (some 100) 0 1).2.store) := by
  refine ⟨sampleLog_ordered,by decide +kernel,fun h => ?_⟩
  exact absurd (h.newest ⟨3,95000000,[116]⟩ (by decide +kernel) (by decide +kernel)) (by decide +kernel)

end HeliosNano.Storage.WalCleanup
