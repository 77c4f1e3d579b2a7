import HeliosNano.Storage.SnapshotReads

/-! Markers and elision against a history in which every version has its own records:
readers cannot tell them apart, as long as no index key of another table lies in the
range of the row. -/
namespace HeliosNano.Storage.Elision
open Foundation SnapshotReads List

/-- COPY writes markers, and sessions elide as they are configured. -/
def compact : Mode := ⟨true,true⟩

/-- Every version has its records. -/
def explicit : Mode := ⟨false,false⟩

/-- In every history in which no COPY goes into a table that aliases the row, reads with
markers and elision return what they return without. -/
theorem compact_reads_eq_explicit_reads (km : Option KeyManager) (ops : List Operation)
    (hops : ProperHistory km ops) (table : TableName) (row : RowId) (hrow : row ≤ u64Max)
    (halias : NotAliased table row ops) (snapshotTs : Timestamp) :
    (run (Session.step km compact) (.start km) ops).read table row snapshotTs =
      (run (Session.step km explicit) (.start km) ops).read table row snapshotTs := by
  have hcompact : (run (Session.step km compact) (.start km) ops).Holds km table row (historyOf table row ops) :=
    Session.holds_run compact hrow hops halias
  have hexplicit : (run (Session.step km explicit) (.start km) ops).Holds km table row (historyOf table row ops) :=
    Session.holds_run explicit hrow hops halias
  rw [hcompact.read,hexplicit.read]

/-! A row that is copied, overwritten with elision on, and deleted with elision off. -/

def copyContext : CopyContext where
  fastDmlRequiresLogicalWal := false
  schema := [.default]
  copyVrangeEnabled := true
  keyManager := none
  serializeCounter := fun row => .ok (beBytes 8 row).reverse
  claim := .ok ()

theorem copyContext_sound : copyContext.Sound none := ⟨nofun,rfl⟩

def copiedThenChanged : List Operation :=
  [.copy copyContext tableT [(1,[7]),(2,[8])] 1,.reopen true,
    .commit CommitEnds.sampleContext none (.new 1000) CommitEnds.sampleTransaction 2,.reopen false,
    .commit CommitEnds.sampleContext none (.new 1000) deletingTransaction 3]

theorem copiedThenChanged_proper : ProperHistory none copiedThenChanged where
  sound := by
    refine forall_mem_cons.mpr ⟨?_,forall_mem_cons.mpr ⟨trivial,forall_mem_cons.mpr ⟨?_,
      forall_mem_cons.mpr ⟨trivial,forall_mem_cons.mpr ⟨?_,by simp⟩⟩⟩⟩⟩
    · exact ⟨copyContext_sound,⟨1,rfl⟩,by decide,by decide⟩
    · exact ⟨sampleContext_sound,rowsOnly_single _ (some [1]) tableT 1 (by decide) rfl rfl,by decide⟩
    · exact ⟨sampleContext_sound,rowsOnly_single _ none tableT 1 (by decide) rfl rfl,by decide⟩
  increasing := by decide
  fresh := by
    have hno : ∀ (txn : Transaction) (ts : Timestamp), txn.insertLog = [] → ∀ earlier : Operation, ∀ table row,
        (Operation.commit CommitEnds.sampleContext none (.new 1000) txn ts).Inserts table row →
          ¬earlier.Touches table row := by
      rintro txn ts hlg earlier table row ⟨value,hv⟩
      simp [hlg] at hv
    refine pairwise_cons.mpr ⟨?_,pairwise_cons.mpr ⟨?_,pairwise_cons.mpr ⟨?_,
      pairwise_pair.mpr ?_⟩⟩⟩
    · intro later hl table row hi htc
      simp only [mem_cons,not_mem_nil,or_false] at hl
      rcases hl with rfl | rfl | rfl | rfl
      · exact hi
      · exact hno _ 2 rfl _ table row hi htc
      · exact hi
      · exact hno _ 3 rfl _ table row hi htc
    · exact fun later _ table row _ htc => htc
    · intro later hl table row hi htc
      simp only [mem_cons,not_mem_nil,or_false] at hl
      rcases hl with rfl | rfl
      · exact hi
      · exact hno _ 3 rfl _ table row hi htc
    · exact fun table row _ htc => htc

/-- At snapshot 1 the copied row is read, also after it was overwritten and deleted. -/
theorem compact_reads_eq_explicit_reads_of_copied_row :
    (run (Session.step none compact) (.start none) copiedThenChanged).read tableT 1 1 = .ok (some [7]) ∧
      (run (Session.step none compact) (.start none) copiedThenChanged).read tableT 1 1 =
        (run (Session.step none explicit) (.start none) copiedThenChanged).read tableT 1 1 := by
  refine ⟨by decide +kernel,compact_reads_eq_explicit_reads none copiedThenChanged copiedThenChanged_proper tableT 1
    (by decide) (fun ctx other prepared ts hmem halias => ?_) 1⟩
  have hother : other = tableT := by
    simp only [copiedThenChanged,mem_cons,Operation.copy.injEq,not_mem_nil,or_false,reduceCtorEq] at hmem
    exact hmem.2.1
  rw [hother] at halias
  exact absurd (colon_mem_of_aliases halias) (by decide)

/-! Row 1 of table `a:b`, and a COPY into the table `a:b:1`. -/

def tableAB : TableName := ⟨[97,58,98],isUtf8_of_ascii (by decide +kernel)⟩

def tableAB1 : TableName := ⟨[97,58,98,58,49],isUtf8_of_ascii (by decide +kernel)⟩

def aliasedTransaction : Transaction :=
  { Transaction.newWithSession 1 1 .readCommitted with
    writeSet := (∅ : Map Key (Option Bytes)).insert (dataKey tableAB.bytes 1) (some [7]) }

def aliasedHistory : List Operation :=
  [.commit CommitEnds.sampleContext none (.new 1000) aliasedTransaction 1,.copy copyContext tableAB1 [(5,[9])] 2]

theorem aliasedHistory_proper : ProperHistory none aliasedHistory where
  sound := by
    refine forall_mem_cons.mpr ⟨?_,forall_mem_cons.mpr ⟨?_,by simp⟩⟩
    · exact ⟨sampleContext_sound,rowsOnly_single _ (some [7]) tableAB 1 (by decide) rfl rfl,by decide⟩
    · exact ⟨copyContext_sound,⟨5,rfl⟩,by decide,by decide⟩
  increasing := by decide
  fresh := by
    refine pairwise_pair.mpr ?_
    rintro table row ⟨rfl,hm⟩ (hw | ⟨value,hv⟩)
    · obtain rfl : row = 5 := by simpa using hm
      exact absurd hw (by decide +kernel)
    · cases hv

/-- The records of the copied row lie in the range of the other row, and hide it; a
marker does not. -/
theorem copied_records_hide_aliased_row :
    ¬∀ (km : Option KeyManager) (ops : List Operation), ProperHistory km ops → ∀ (table : TableName) (row : RowId),
      row ≤ u64Max → ∀ snapshotTs : Timestamp, (run (Session.step km compact) (.start km) ops).read table row snapshotTs =
          (run (Session.step km explicit) (.start km) ops).read table row snapshotTs := by
  intro h
  have hread := h none aliasedHistory aliasedHistory_proper tableAB 1 (by decide) 3
  have hcompact : (run (Session.step none compact) (.start none) aliasedHistory).read tableAB 1 3 = .ok (some [7]) := by
    decide +kernel
  have hexplicit : (run (Session.step none explicit) (.start none) aliasedHistory).read tableAB 1 3 = .ok none := by
    decide +kernel
  rw [hcompact,hexplicit] at hread
  cases hread

end HeliosNano.Storage.Elision
