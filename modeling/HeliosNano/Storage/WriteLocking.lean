import HeliosNano.Storage.Transaction

namespace HeliosNano.Storage.WriteLocking
open Foundation List AList Transaction LockManager

/-- The calls of one session. A commit takes the transaction by value: whatever its
exit, the transaction is no longer active and its guards are dropped. -/
inductive Action
  | get (key : Key) (timedOut : Bool)
  | put (key : Key) (value : Bytes) (timedOut : Bool)
  | delete (key : Key)
  | savepoint (name : String) (artUndoLen : Nat)
  | releaseSavepoint (name : String)
  | rollbackToSavepoint (name : String)
  | commit (final : TransactionState) (hfinal : final ≠ .active)
  | rollback

inductive Op
  | begin (snapshotId : Timestamp) (isolationLevel : IsolationLevel)
  | call (txn : TxnId) (action : Action)

structure Sessions where
  locks : LockManager
  transactions : Map TxnId Transaction
  txnCounter : TxnId

def Sessions.new (timeoutMs : Nat) : Sessions := ⟨LockManager.new timeoutMs,∅,1⟩

variable (readAtVersion : Key → Timestamp → Except Error (Option Bytes))

def act (t : Transaction) (locks : LockManager) : Action → Transaction × LockManager
  | .get key timedOut =>
    let (t,locks,_) := t.get readAtVersion locks key timedOut
    (t,locks)
  | .put key value timedOut =>
    let (t,locks,_) := t.put locks key value timedOut
    (t,locks)
  | .delete key => ((t.delete key).1,locks)
  | .savepoint name artUndoLen => (t.pushSavepoint name t.savepointSnapshot artUndoLen,locks)
  | .releaseSavepoint name => ((t.releaseSavepoint name).1,locks)
  | .rollbackToSavepoint name =>
    match t.resolveSavepointTarget name with
    | (t,some (snapshot,_)) => (t.rollbackToSavepoint snapshot,locks)
    | (t,none) => (t,locks)
  | .commit final _ => if t.state ≠ .active then (t,locks) else t.close locks final
  | .rollback =>
    let (t,locks,_) := t.rollback locks
    (t,locks)

def step (s : Sessions) : Op → Sessions
  | .begin snapshotId isolationLevel =>
    { s with
      transactions := s.transactions.insert s.txnCounter
        (.newWithSession s.txnCounter snapshotId isolationLevel)
      txnCounter := s.txnCounter+1 }
  | .call txn action =>
    match s.transactions.lookup txn with
    | some t =>
      let (t,locks) := act readAtVersion t s.locks action
      { s with locks := locks, transactions := s.transactions.insert txn t }
    | none => s

/-- The staged keys of an active transaction are held by it in Write mode. -/
def HoldsStaged (locks : LockManager) (t : Transaction) : Prop :=
  t.state = .active → ∀ key ∈ t.writeSet, locks.locks.HeldForWrite (fromUtf8Lossy key) t.transactionId

def StagedKeysLocked (s : Sessions) : Prop :=
  ∀ txn t, s.transactions.lookup txn = some t → HoldsStaged s.locks t

/-- A delete meets a key that its transaction holds already, and a lock is refused
only to a transaction that has staged nothing. -/
def LockedFirst (locks : LockManager) (t : Transaction) : Action → Prop
  | .delete key =>
    t.state = .active → locks.locks.HeldForWrite (fromUtf8Lossy key) t.transactionId
  | .put key _ timedOut =>
    t.state = .active → locks.Refuses (fromUtf8Lossy key) t.transactionId .write timedOut →
      ∀ staged, staged ∉ t.writeSet
  | .get key timedOut =>
    t.state = .active → t.isolationLevel ≠ .readCommitted →
      locks.Refuses (fromUtf8Lossy key) t.transactionId .read timedOut → ∀ staged, staged ∉ t.writeSet
  | _ => True

def StepLockedFirst (s : Sessions) : Op → Prop
  | .begin _ _ => True
  | .call txn action => ∀ t, s.transactions.lookup txn = some t → LockedFirst s.locks t action

structure SessionInv (locks : LockManager) (t : Transaction) : Prop where
  nested : t.state = .active → t.Nested
  owned : ∀ guard ∈ t.acquiredLocks, guard.transactionId = t.transactionId
  holds : HoldsStaged locks t

section
variable {Value : Type} (t : Transaction) (locks : LockManager) (key : Key) (lockType : LockType)
  (timedOut : Bool) (body : Transaction → Transaction × CallResult Value)

theorem withLock_cases : (t.withLock locks key lockType timedOut body).2.1 =
        (locks.acquireRound (fromUtf8Lossy key) t.transactionId lockType timedOut).1 ∧
      ((t.withLock locks key lockType timedOut body).1 = t ∨
        ∃ guard, (locks.acquireRound (fromUtf8Lossy key) t.transactionId lockType timedOut).2 = .granted guard ∧
          (t.withLock locks key lockType timedOut body).1 = (body { t with acquiredLocks := t.acquiredLocks ++ [guard] }).1) := by
  cases he : locks.acquireRound (fromUtf8Lossy key) t.transactionId lockType timedOut with
  | mk locks' round =>
    simp only [withLock,he]
    cases round with
    | granted guard => exact ⟨rfl,.inr ⟨guard,rfl,rfl⟩⟩
    | failed error | waiting | panicked => exact ⟨rfl,.inl rfl⟩

theorem withLock_of_refuses (h : locks.Refuses (fromUtf8Lossy key) t.transactionId lockType timedOut) :
    (t.withLock locks key lockType timedOut body).1 = t ∧
      ∀ resource, ¬(t.withLock locks key lockType timedOut body).2.1.locks.HeldForWrite resource t.transactionId := by
  obtain ⟨hm,error,hr⟩ := acquireRound_of_refuses h
  obtain ⟨hl,ht | ⟨guard,hg,-⟩⟩ := withLock_cases t locks key lockType timedOut body
  · refine ⟨ht,fun resource => ?_⟩
    rw [hl,hm]
    exact cleanupTransaction_not_held _ resource _
  · rw [hr] at hg
    cases hg

variable {locks : LockManager} {t : Transaction}

theorem holdsStaged_acquireRound (h : HoldsStaged locks t) (resource : String) (lockType : LockType) (timedOut : Bool)
    (he : locks.Refuses resource t.transactionId lockType timedOut → ∀ staged, staged ∉ t.writeSet) :
    HoldsStaged (locks.acquireRound resource t.transactionId lockType timedOut).1 t := by
  intro ha key hkey
  apply acquireRound_heldForWrite (h ha key hkey)
  intro hr
  exact absurd hkey (he hr key)

theorem withLock_session (h : SessionInv locks t) (he : locks.Refuses (fromUtf8Lossy key) t.transactionId lockType timedOut →
      ∀ staged, staged ∉ t.writeSet)
    (hb : ∀ guard, (locks.acquireRound (fromUtf8Lossy key) t.transactionId lockType timedOut).2 = .granted guard →
      SessionInv (locks.acquireRound (fromUtf8Lossy key) t.transactionId lockType timedOut).1
        { t with acquiredLocks := t.acquiredLocks ++ [guard] } →
      SessionInv (locks.acquireRound (fromUtf8Lossy key) t.transactionId lockType timedOut).1
        (body { t with acquiredLocks := t.acquiredLocks ++ [guard] }).1) :
    SessionInv (t.withLock locks key lockType timedOut body).2.1 (t.withLock locks key lockType timedOut body).1 := by
  have hh := holdsStaged_acquireRound h.holds (fromUtf8Lossy key) lockType timedOut he
  obtain ⟨hl,ht | ⟨guard,hg,ht⟩⟩ := withLock_cases t locks key lockType timedOut body
  · rw [hl,ht]
    exact ⟨h.nested,h.owned,hh⟩
  rw [hl,ht]
  apply hb guard hg
  refine ⟨fun ha => ⟨(h.nested ha).ordered,(h.nested ha).staged⟩,?_,hh⟩
  intro held hm
  rcases mem_append.mp hm with ho | hn
  · exact h.owned held ho
  · have hgd := LockTable.acquireSection_guard (acquireRound_granted hg)
    rw [mem_singleton.mp hn,hgd]

end

section
variable {t : Transaction} {locks : LockManager}
variable {timedOut : Bool} {key : Key} {locks : LockManager} {txn : TxnId} {held : String}

theorem get_session (h : SessionInv locks t) (hg : LockedFirst locks t (.get key timedOut)) :
    SessionInv (t.get readAtVersion locks key timedOut).2.1 (t.get readAtVersion locks key timedOut).1 := by
  unfold Transaction.get
  split
  · exact h
  next ha =>
    rw [not_not] at ha
    have hl (hi : t.isolationLevel ≠ .readCommitted) :=
      withLock_session key .read timedOut (fun t => (t,t.lookup readAtVersion key)) h (hg ha hi)
        fun _ _ hb => hb
    cases hi : t.isolationLevel with
    | readCommitted => exact h
    | repeatableRead | serializable => exact hl (by simp [hi])

theorem put_session (hw : locks.locks.Wf) (h : SessionInv locks t) {value : Bytes}
    (hg : LockedFirst locks t (.put key value timedOut)) :
    SessionInv (t.put locks key value timedOut).2.1 (t.put locks key value timedOut).1 := by
  unfold put
  split
  · exact h
  next hac =>
    rw [not_not] at hac
    apply withLock_session key .write timedOut _ h (hg hac)
    intro guard hgr hb
    refine ⟨fun ha => (hb.nested ha).put key (some value),hb.owned,?_⟩
    intro _ staged hst
    rcases (mem_insert _).mp hst with rfl | hold
    · -- The granted round is one section that makes the session the exclusive holder.
      have hs := acquireRound_granted hgr
      have hnr : ¬locks.Refuses (fromUtf8Lossy staged) t.transactionId .write timedOut := by
        intro hr
        obtain ⟨-,error,he⟩ := acquireRound_of_refuses hr
        rw [he] at hgr
        cases hgr
      rw [(acquireRound_of_not_refuses hnr).1]
      exact LockTable.acquireSection_granted hw hs
    · exact hb.holds hac staged hold

theorem delete_session (h : SessionInv locks t) (hg : LockedFirst locks t (.delete key)) : SessionInv locks (t.delete key).1 := by
  unfold delete
  split
  · exact h
  next hac =>
    rw [not_not] at hac
    refine ⟨fun ha => (h.nested ha).put key none,h.owned,?_⟩
    intro _ staged hs
    rcases (mem_insert _).mp hs with rfl | hold
    · exact hg hac
    · exact h.holds hac staged hold

theorem rollbackTo_session (h : SessionInv locks t) (name : String) :
    SessionInv (act readAtVersion t locks (.rollbackToSavepoint name)).2
      (act readAtVersion t locks (.rollbackToSavepoint name)).1 := by
  cases hr : t.resolveSavepointTarget name with
  | mk target found =>
    cases found with
    | none =>
      have ht : target = t := by
        unfold resolveSavepointTarget at hr
        split at hr <;> simp_all
      simp only [act,hr,ht]
      exact h
    | some restore =>
      obtain ⟨snapshot,artUndoLen⟩ := restore
      have heq := t.resolveSavepointTarget_eq name
      rw [hr] at heq
      have hs : target.state = t.state := (congrArg state heq :)
      have hid : target.transactionId = t.transactionId := (congrArg transactionId heq :)
      have hg : target.acquiredLocks = t.acquiredLocks := (congrArg acquiredLocks heq :)
      simp only [act,hr]
      refine ⟨fun ha => ?_,?_,fun ha key hkey => ?_⟩
      · exact ((h.nested (hs ▸ ha)).rollbackTo hr).1
      · simpa [rollbackToSavepoint,hid,hg] using h.owned
      · have hst := ((h.nested (hs ▸ ha)).rollbackTo hr).2 key hkey
        simpa [rollbackToSavepoint,hid] using h.holds (hs ▸ ha) key hst

theorem close_session (t : Transaction) (locks : LockManager) {final : TransactionState}
    (hf : final ≠ .active) : SessionInv (t.close locks final).2 (t.close locks final).1 where
  nested ha := absurd ha hf
  owned := by simp [close]
  holds ha := absurd ha hf

theorem act_session (hw : locks.locks.Wf) (h : SessionInv locks t) (action : Action) (hg : LockedFirst locks t action) :
    SessionInv (act readAtVersion t locks action).2 (act readAtVersion t locks action).1 := by
  cases action with
  | get key timedOut => exact get_session readAtVersion h hg
  | put key value timedOut => exact put_session hw h hg
  | delete key => exact delete_session h hg
  | savepoint name artUndoLen =>
    exact ⟨fun ha => (h.nested ha).pushSavepoint name artUndoLen,h.owned,h.holds⟩
  | releaseSavepoint name =>
    have heq := t.releaseSavepoint_eq name
    refine ⟨fun ha => ?_,?_,?_⟩
    · exact (h.nested (by rw [act,heq] at ha; exact ha)).releaseSavepoint name
    · rw [act,heq]
      exact h.owned
    · rw [act,heq]
      exact h.holds
  | rollbackToSavepoint name => exact rollbackTo_session readAtVersion h name
  | commit final hf =>
    simp only [act]
    split
    · exact h
    · exact close_session t locks hf
  | rollback =>
    simp only [act,rollback]
    split
    · exact h
    · exact close_session t locks (by decide)

theorem act_breaks {action : Action} (hg : ¬LockedFirst locks t action) :
    ¬HoldsStaged (act readAtVersion t locks action).2 (act readAtVersion t locks action).1 := by
  intro hh
  cases action with
  | delete key =>
    simp only [LockedFirst,Classical.not_imp] at hg
    obtain ⟨ha,hn⟩ := hg
    have hst : ((t.delete key).1).state = .active := by simp [Transaction.delete,ha]
    have hm : key ∈ ((t.delete key).1).writeSet := by simp [Transaction.delete,ha]
    have hid : ((t.delete key).1).transactionId = t.transactionId := by simp [Transaction.delete,ha]
    have hhl := hh hst key hm
    rw [act,hid] at hhl
    exact hn hhl
  | put key value timedOut =>
    simp only [LockedFirst,Classical.not_imp,not_forall,not_not] at hg
    obtain ⟨ha,hr,staged,hs⟩ := hg
    simp only [act,Transaction.put,ha,ne_eq,not_true_eq_false,if_false] at hh
    obtain ⟨ht,hl⟩ := withLock_of_refuses t locks key .write timedOut _ hr
    rw [ht] at hh
    exact hl _ (hh ha staged hs)
  | get key timedOut =>
    simp only [LockedFirst,Classical.not_imp,not_forall,not_not] at hg
    obtain ⟨ha,hi,hr,staged,hs⟩ := hg
    have hgt : t.get readAtVersion locks key timedOut =
        t.withLock locks key .read timedOut fun t => (t,t.lookup readAtVersion key) := by
      simp only [Transaction.get,ha,ne_eq,not_true_eq_false,if_false]
      cases hlv : t.isolationLevel with
      | readCommitted => exact absurd hlv hi
      | repeatableRead | serializable => rfl
    simp only [act,hgt] at hh
    obtain ⟨ht,hl⟩ := withLock_of_refuses t locks key .read timedOut _ hr
    rw [ht] at hh
    exact hl _ (hh ha staged hs)
  | savepoint name artUndoLen | releaseSavepoint name | rollbackToSavepoint name | commit final hf | rollback => exact hg trivial

theorem act_locks (t : Transaction) (locks : LockManager) (action : Action) : (act readAtVersion t locks action).2 = locks ∨
      (∃ resource lockType timedOut, (act readAtVersion t locks action).2 =
        (locks.acquireRound resource t.transactionId lockType timedOut).1) ∨
      (act readAtVersion t locks action).2 = Transaction.dropLocks t.acquiredLocks locks := by
  cases action with
  | get key timedOut =>
    have hr := (withLock_cases t locks key .read timedOut fun t => (t,t.lookup readAtVersion key)).1
    simp only [act,Transaction.get]
    split
    · exact .inl rfl
    · cases t.isolationLevel with
      | readCommitted => exact .inl rfl
      | repeatableRead | serializable => exact .inr (.inl ⟨_,_,_,hr⟩)
  | put key value timedOut =>
    simp only [act,Transaction.put]
    split
    · exact .inl rfl
    · exact .inr (.inl ⟨_,_,_,(withLock_cases t locks key .write timedOut _).1⟩)
  | delete key | savepoint name artUndoLen | releaseSavepoint name => exact .inl rfl
  | rollbackToSavepoint name =>
    simp only [act]
    split <;> exact .inl rfl
  | commit final hf =>
    simp only [act]
    split
    · exact .inl rfl
    · exact .inr (.inr rfl)
  | rollback =>
    simp only [act,Transaction.rollback]
    split
    · exact .inl rfl
    · exact .inr (.inr rfl)

theorem dropLocks_wf (guards : List LockGuard) (hw : locks.locks.Wf) : (dropLocks guards locks).locks.Wf := by
  induction guards generalizing locks with
  | nil => exact hw
  | cons guard rest ih => exact ih ((hw.releaseSection _ _).thenReap _)

theorem dropLocks_heldForWrite {guards : List LockGuard} (hw : locks.locks.Wf) (h : locks.locks.HeldForWrite held txn)
    (hne : ∀ guard ∈ guards, guard.transactionId ≠ txn) : (dropLocks guards locks).locks.HeldForWrite held txn := by
  induction guards generalizing locks with
  | nil => exact h
  | cons guard rest ih =>
    obtain ⟨hgd,hrest⟩ := forall_mem_cons.mp hne
    apply ih ((hw.releaseSection _ _).thenReap _) _ hrest
    exact releaseLockInternal_heldForWrite hw h hgd

theorem act_wf (hw : locks.locks.Wf) (action : Action) : (act readAtVersion t locks action).2.locks.Wf := by
  rcases act_locks readAtVersion t locks action with he | ⟨resource,lockType,timedOut,he⟩ | he
  · rw [he]
    exact hw
  · rw [he]
    exact acquireRound_wf hw resource t.transactionId lockType timedOut
  · rw [he]
    exact dropLocks_wf _ hw

theorem act_frame (hw : locks.locks.Wf) (h : SessionInv locks t) (action : Action)
    (hh : locks.locks.HeldForWrite held txn) (hne : t.transactionId ≠ txn) :
    (act readAtVersion t locks action).2.locks.HeldForWrite held txn := by
  rcases act_locks readAtVersion t locks action with he | ⟨resource,lockType,timedOut,he⟩ | he
  · rw [he]
    exact hh
  · rw [he]
    exact acquireRound_heldForWrite hh fun _ => hne
  rw [he]
  apply dropLocks_heldForWrite hw hh
  intro guard hgd
  rw [h.owned guard hgd]
  exact hne

theorem act_transactionId (t : Transaction) (locks : LockManager) (action : Action) :
    (act readAtVersion t locks action).1.transactionId = t.transactionId := by
  have hl {Value : Type} (key : Key) (lockType : LockType) (timedOut : Bool)
      (body : Transaction → Transaction × CallResult Value)
      (hb : ∀ t, (body t).1.transactionId = t.transactionId) :
      (t.withLock locks key lockType timedOut body).1.transactionId = t.transactionId := by
    obtain ⟨-,ht | ⟨guard,-,ht⟩⟩ := withLock_cases t locks key lockType timedOut body
    · rw [ht]
    · rw [ht,hb]
  cases action with
  | get key timedOut =>
    simp only [act,Transaction.get]
    split
    · rfl
    · cases t.isolationLevel with
      | readCommitted => rfl
      | repeatableRead | serializable => exact hl key .read timedOut _ fun _ => rfl
  | put key value timedOut =>
    simp only [act,Transaction.put]
    split
    · rfl
    · exact hl key .write timedOut _ fun _ => rfl
  | delete key =>
    simp only [act,Transaction.delete]
    split <;> rfl
  | savepoint name artUndoLen => rfl
  | releaseSavepoint name => exact (congrArg Transaction.transactionId (t.releaseSavepoint_eq name) :)
  | rollbackToSavepoint name =>
    have heq := congrArg Transaction.transactionId (t.resolveSavepointTarget_eq name)
    simp only [act]
    split
    next he =>
      rw [he] at heq
      exact heq
    next he =>
      rw [he] at heq
      exact heq
  | commit final hf =>
    simp only [act]
    split <;> rfl
  | rollback =>
    simp only [act,Transaction.rollback]
    split <;> rfl

end

structure Inv (s : Sessions) : Prop where
  wf : s.locks.locks.Wf
  named : ∀ txn t, s.transactions.lookup txn = some t → t.transactionId = txn
  sessions : ∀ txn t, s.transactions.lookup txn = some t → SessionInv s.locks t

theorem inv_new (timeoutMs : Nat) : Inv (Sessions.new timeoutMs) where
  wf := LockTable.wf_empty
  named := by simp [Sessions.new]
  sessions := by simp [Sessions.new]

theorem step_inv (s : Sessions) (op : Op) (h : Inv s) (hg : StepLockedFirst s op) : Inv (step readAtVersion s op) := by
  cases op with
  | begin snapshotId isolationLevel =>
    refine ⟨h.wf,?_,?_⟩
    · intro txn t hl
      simp only [step,Map.lookup_insert_ite] at hl
      split at hl
      next he =>
        cases hl
        exact he.symm
      · exact h.named txn t hl
    · intro txn t hl
      simp only [step,Map.lookup_insert_ite] at hl
      split at hl
      · cases hl
        exact ⟨fun _ => ⟨List.Pairwise.nil,by simp [newWithSession]⟩,
          by simp [newWithSession],by simp [HoldsStaged,newWithSession]⟩
      · exact h.sessions txn t hl
  | call txn action =>
    cases ht : s.transactions.lookup txn with
    | none =>
      simp only [step,ht]
      exact h
    | some t =>
      have hs := h.sessions txn t ht
      simp only [step,ht]
      refine ⟨act_wf readAtVersion h.wf action,?_,?_⟩
      · intro other t' hl
        rw [Map.lookup_insert_ite] at hl
        split at hl
        next he =>
          cases hl
          rw [act_transactionId,h.named txn t ht,he]
        · exact h.named other t' hl
      · intro other t' hl
        rw [Map.lookup_insert_ite] at hl
        split at hl
        · cases hl
          exact act_session readAtVersion h.wf hs action (hg t ht)
        -- Another session: its locks are left alone.
        rename_i hne
        have ho := h.sessions other t' hl
        refine ⟨ho.nested,ho.owned,fun ha key hkey => ?_⟩
        apply act_frame readAtVersion h.wf hs action (ho.holds ha key hkey)
        rw [h.named txn t ht,h.named other t' hl]
        exact Ne.symm hne

theorem step_breaks (s : Sessions) (op : Op) (hg : ¬StepLockedFirst s op) : ¬StagedKeysLocked (step readAtVersion s op) := by
  cases op with
  | begin snapshotId isolationLevel => exact absurd trivial hg
  | call txn action =>
    simp only [StepLockedFirst,not_forall] at hg
    obtain ⟨t,ht,hn⟩ := hg
    intro hl
    simp only [step,ht] at hl
    exact act_breaks readAtVersion hn (hl txn _ (lookup_insert _))

/-- All states of a run have every staged key locked by its active transaction exactly
when every delete of the run meets a key its transaction holds, and every acquisition
that ends in a deadlock or timeout error is of a transaction that has staged nothing. -/
theorem staged_keys_locked_iff (timeoutMs : Nat) (ops : List Op) :
    (∀ n, StagedKeysLocked (run (step readAtVersion) (Sessions.new timeoutMs) (ops.take n))) ↔
      Guarded (step readAtVersion) StepLockedFirst (Sessions.new timeoutMs) ops :=
  (guarded_iff_forall_take (step readAtVersion) Inv
    (fun _ h txn t ht => (h.sessions txn t ht).holds) (step_inv readAtVersion)
    (fun s op _ => step_breaks readAtVersion s op) (inv_new timeoutMs)).symm

/-- The key `data:t:1`. -/
def sampleKey : Key := [100,97,116,97,58,116,58,49]

/-- A delete alone stages a key that nobody holds. -/
theorem delete_stages_unlocked : ¬∀ (timeoutMs : Nat) (ops : List Op),
      StagedKeysLocked (run (step fun _ _ => .ok none) (Sessions.new timeoutMs) ops) := by
  intro h
  have hl := h 1000 [.begin 5 .readCommitted,.call 1 (.delete sampleKey)]
  obtain ⟨state,hs,-⟩ := hl 1 _ rfl rfl sampleKey (by decide)
  cases hs

end HeliosNano.Storage.WriteLocking
