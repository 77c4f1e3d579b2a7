import HeliosNano.Advisory.Statements

namespace HeliosNano.Advisory
open Foundation List Function AdvisoryLockManager ThreadLocals AdvisoryWorld

def heldBy (owner : SessionId) : Option Holder → Nat
  | some h => if h.owner = owner then h.xactCount else 0
  | none => 0

def AdvisoryLockManager.xactHeld (m : AdvisoryLockManager) (owner : SessionId) (key : AdvisoryKey) : Nat :=
  heldBy owner (m.locks.lookup key)

theorem heldBy_settle (owner : SessionId) (h : Holder) : heldBy owner h.settle = heldBy owner (some h) := by
  unfold Holder.settle
  split
  next he =>
    have hz : h.sessionCount = 0 ∧ h.xactCount = 0 := by simpa [Holder.isEmpty] using he
    rw [heldBy,heldBy,hz.2,ite_self]
  next => rfl

def AdvisoryCall.xactAfter (owner : SessionId) (key : AdvisoryKey) (held : Nat) : AdvisoryCall → Bool → Nat
  | .tryAcquire k o scope _, true | .acquireTurn k o scope _ _, true =>
    if o = owner ∧ k = key ∧ scope = .transaction then held+1 else held
  | .releaseTransaction o, _ | .releaseSession o, _ | .transactionEnds o, _ | .connectionEnds o, _ =>
    if o = owner then 0 else held
  | .releaseTransactionKeys o keys, _ => if o = owner then held - keys.count key else held
  | _, _ => held

section
variable {m : AdvisoryLockManager} (owner : SessionId) (key : AdvisoryKey)
variable {k : AdvisoryKey}

theorem xactHeld_insert {h : Holder} (scope : AdvisoryScope)
    (hh : m.locks.lookup k = some h ∨ m.locks.lookup k = none ∧ h = .new h.owner) :
    (refreshCounters (m.locks.insert k (h.bump scope))).xactHeld owner key =
      if h.owner = owner ∧ k = key ∧ scope = .transaction then m.xactHeld owner key + 1 else m.xactHeld owner key := by
  change heldBy owner ((m.locks.insert k (h.bump scope)).lookup key) = _
  unfold xactHeld
  rw [Map.lookup_insert_ite]
  by_cases hk : key = k
  · subst hk
    have hb : heldBy owner (m.locks.lookup key) = if h.owner = owner then h.xactCount else 0 := by
      rcases hh with heq | ⟨heq,hnew⟩
      · rw [heq,heldBy]
      · rw [heq,hnew]
        exact (ite_self 0).symm
    rw [if_pos rfl,hb]
    by_cases ho : h.owner = owner
    · cases scope <;> simp [heldBy,Holder.bump,ho]
    · cases scope <;> simp [heldBy,Holder.bump,ho]
  · rw [if_neg hk,if_neg fun ha => hk ha.2.1.symm]

theorem xactHeld_releaseMatching (o : SessionId) {zero : Holder → Holder × Nat} (keeps : Bool)
    (how : ∀ h, (zero h).1.owner = h.owner) (hz : ∀ h, (zero h).1.xactCount = if keeps then h.xactCount else 0) :
    (m.releaseMatching o zero).1.xactHeld owner key = if o = owner ∧ keeps = false then 0 else m.xactHeld owner key := by
  unfold xactHeld
  rw [lookup_releaseMatching m o zero how]
  cases m.locks.lookup key with
  | none => exact (ite_self 0).symm
  | some h =>
    rw [Option.bind_some]
    by_cases heq : h.owner = o
    · rw [if_pos heq,heldBy_settle,heldBy,heldBy,how h,hz h,heq]
      cases keeps <;> by_cases ho : o = owner <;> simp [ho]
    rw [if_neg heq,heldBy]
    by_cases ho : h.owner = owner
    · rw [if_pos ho,if_neg fun ha => heq (ho.trans ha.1.symm)]
    · rw [if_neg ho,ite_self]

theorem heldBy_releaseKey (locks : Locks) (freed : Nat) (o : SessionId) (k : AdvisoryKey) :
    heldBy owner ((releaseKey o (locks,freed) k).1.lookup key) =
      heldBy owner (locks.lookup key) - if o = owner ∧ k = key then 1 else 0 := by
  unfold releaseKey
  cases hlk : locks.lookup k with
  | none =>
    by_cases hk : k = key
    · subst hk
      simp [hlk,heldBy]
    · simp [hk]
  | some h =>
    simp only
    by_cases hs : h.owner ≠ o ∨ h.xactCount = 0
    · rw [if_pos hs]
      by_cases hk : k = key
      · subst hk
        rw [hlk,heldBy]
        rcases hs with hne | hz
        · by_cases ho : o = owner
          · rw [if_neg fun heq => hne (heq.trans ho.symm),Nat.zero_sub]
          · simp [ho]
        · rw [hz,ite_self,Nat.zero_sub]
      · simp [hk]
    · rw [not_or,not_not] at hs
      rw [if_neg (by rw [not_or,not_not]; exact hs),lookup_store]
      by_cases hk : key = k
      · subst hk
        rw [if_pos rfl,heldBy_settle,hlk,heldBy,heldBy,hs.1]
        by_cases ho : o = owner <;> simp [ho]
      · rw [if_neg hk,if_neg fun ha => hk ha.2.symm,Nat.sub_zero]

theorem xactHeld_releaseTransactionKeys (o : SessionId) (keys : List AdvisoryKey) :
    (m.releaseTransactionKeys o keys).1.xactHeld owner key =
      if o = owner then m.xactHeld owner key - keys.count key else m.xactHeld owner key := by
  have hf : ∀ (keys : List AdvisoryKey) (acc : Locks × Nat),
      heldBy owner ((keys.foldl (releaseKey o) acc).1.lookup key) =
        if o = owner then heldBy owner (acc.1.lookup key) - keys.count key else heldBy owner (acc.1.lookup key) := by
    intro keys
    induction keys with
    | nil => simp
    | cons k rest ih =>
      intro acc
      rw [foldl_cons,ih,heldBy_releaseKey owner key acc.1 acc.2 o k,count_cons]
      by_cases ho : o = owner
      · by_cases hk : k = key
        · simp [ho,hk]
          omega
        · simp [ho,hk]
      · simp [ho]
  unfold releaseTransactionKeys
  cases keys with
  | nil => simp
  | cons k rest => exact hf (k::rest) (m.locks,0)

theorem xactHeld_take {o : SessionId} {scope : AdvisoryScope} {maxPerSession : Nat} {m' : AdvisoryLockManager}
    (h : m.take k o scope maxPerSession = some (m',.ok ())) : m'.xactHeld owner key =
      if o = owner ∧ k = key ∧ scope = .transaction then m.xactHeld owner key + 1 else m.xactHeld owner key := by
  rcases take_cases m k o scope maxPerSession with ⟨-,-,-,heq⟩ | ⟨message,-,heq⟩ | ⟨holder,ho,hh,heq⟩
  · rw [heq] at h
    cases h
  · rw [heq] at h
    cases h
  rw [heq] at h
  cases h
  rw [← ho]
  refine xactHeld_insert owner key scope ?_
  rw [ho]
  exact hh

theorem Balanced.xactHeld_perform {l : Ledger} (hb : Balanced m l) (call : AdvisoryCall) :
    (call.perform m).1.xactHeld owner key = call.xactAfter owner key (m.xactHeld owner key) (call.perform m).2 := by
  cases call with
  | tryAcquire k o scope maxPerSession =>
    rcases hb.take k o scope maxPerSession with ⟨h,-,-,heq⟩ | ⟨message,heq⟩ | ⟨m',heq,-,-⟩
    · simp only [AdvisoryCall.perform,AdvisoryLockManager.tryAcquire,heq]
      rfl
    · simp only [AdvisoryCall.perform,AdvisoryLockManager.tryAcquire,heq]
      rfl
    · simp only [AdvisoryCall.perform,AdvisoryLockManager.tryAcquire,heq]
      exact xactHeld_take owner key heq
  | acquireTurn k o scope expired maxPerSession =>
    rcases hb.take k o scope maxPerSession with ⟨h,-,-,heq⟩ | ⟨message,heq⟩ | ⟨m',heq,-,-⟩
    · simp only [AdvisoryCall.perform,AdvisoryLockManager.acquireTurn,heq]
      cases expired <;> rfl
    · simp only [AdvisoryCall.perform,AdvisoryLockManager.acquireTurn,heq]
      rfl
    · simp only [AdvisoryCall.perform,AdvisoryLockManager.acquireTurn,heq]
      exact xactHeld_take owner key heq
  | unlock k o =>
    change (m.unlock k o).1.xactHeld owner key = m.xactHeld owner key
    unfold AdvisoryLockManager.unlock
    cases hlk : m.locks.lookup k with
    | none => rfl
    | some h =>
      simp only
      split
      next =>
        change heldBy owner ((AdvisoryLockManager.store m.locks k _).lookup key) = heldBy owner (m.locks.lookup key)
        rw [lookup_store]
        split
        next hk => rw [heldBy_settle,hk,hlk,heldBy,heldBy]
        next => rfl
      next => rfl
  | unlockAll o =>
    change (m.unlockAll o).1.xactHeld owner key = m.xactHeld owner key
    rw [AdvisoryLockManager.unlockAll,xactHeld_releaseMatching owner key o true (fun _ => rfl) (fun _ => rfl),
      if_neg fun ha => by cases ha.2]
  | releaseTransaction o =>
    change (m.releaseTransaction o).1.xactHeld owner key = if o = owner then 0 else m.xactHeld owner key
    rw [AdvisoryLockManager.releaseTransaction,xactHeld_releaseMatching owner key o false (fun _ => rfl) (fun _ => rfl)]
    simp only [and_true]
  | releaseTransactionKeys o keys => exact xactHeld_releaseTransactionKeys owner key o keys
  | releaseSession o =>
    change (m.releaseSession o).1.xactHeld owner key = if o = owner then 0 else m.xactHeld owner key
    rw [AdvisoryLockManager.releaseSession,xactHeld_releaseMatching owner key o false (fun _ => rfl) (fun _ => rfl)]
    simp only [and_true]
  | transactionEnds o =>
    change (if m.hasTransactionLocks = true then (m.releaseTransaction o).1 else m).xactHeld owner key =
      if o = owner then 0 else m.xactHeld owner key
    split
    next =>
      rw [AdvisoryLockManager.releaseTransaction,xactHeld_releaseMatching owner key o false (fun _ => rfl) (fun _ => rfl)]
      simp only [and_true]
    next hn =>
      have hz : m.xactHeld owner key = 0 := by
        unfold AdvisoryLockManager.xactHeld
        cases hlk : m.locks.lookup key with
        | none => rfl
        | some h => rw [heldBy,hb.xactCount_eq_zero hn hlk,ite_self]
      rw [hz,ite_self]
  | connectionEnds o =>
    change (if m.hasLocks = true then (m.releaseSession o).1 else m).xactHeld owner key =
      if o = owner then 0 else m.xactHeld owner key
    split
    next =>
      rw [AdvisoryLockManager.releaseSession,xactHeld_releaseMatching owner key o false (fun _ => rfl) (fun _ => rfl)]
      simp only [and_true]
    next hn => rw [AdvisoryLockManager.xactHeld,hb.lookup_eq_none hn key,heldBy,ite_self]

end

theorem AdvisoryCall.xactAfter_of_ne {call : AdvisoryCall} {owner : SessionId} (h : call.owner ≠ owner) (key : AdvisoryKey)
    (held : Nat) (done : Bool) : call.xactAfter owner key held done = held := by
  cases call <;> cases done <;> simp only [AdvisoryCall.xactAfter,AdvisoryCall.owner] at h ⊢ <;> simp [h]

/-- The keys are those of the statement that runs, and a guard that installed the context is the
outermost one. -/
structure ThreadLocals.Tidy (t : ThreadLocals) : Prop where
  idle : t.context = none → t.xactKeys = [] ∧ t.guards = [] ∧ t.waiting = none
  installed : ∀ live, t.context = some live → ∃ nested installed, t.guards = List.replicate nested none ++ [some installed] ∧
    installed.owner = live.owner ∧ installed.ownership = live.ownership ∧
    installed.inExplicitTransaction = live.inExplicitTransaction
  untouched : ∀ live, t.context = some live → live.tookTransactionLock = false → t.xactKeys = []
  ownerless : ∀ live, t.context = some live → live.owner = none → live.tookTransactionLock = false

namespace ThreadLocals

theorem tidy_new : new.Tidy where
  idle _ := ⟨rfl,rfl,rfl⟩
  installed _ h := by cases h
  untouched _ h := by cases h
  ownerless _ h := by cases h

variable {t : ThreadLocals} (h : t.Tidy)
include h

theorem Tidy.install {context : AdvisoryContext} (hc : context.tookTransactionLock = false) : (t.install context).Tidy := by
  cases hl : t.context with
  | none =>
    obtain ⟨hk,hg,hw⟩ := h.idle hl
    have heq : t.install context = { t with context := some context, guards := [some context] } := by
      simp only [ThreadLocals.install,hl,hg]
    rw [heq]
    refine ⟨fun hno => (by cases hno),fun live hs => ?_,fun live hs _ => hk,fun live hs _ => ?_⟩
    · cases hs
      exact ⟨0,context,rfl,rfl,rfl,rfl⟩
    · cases hs
      exact hc
  | some live =>
    have heq : t.install context = { t with guards := none::t.guards } := by
      simp only [ThreadLocals.install,hl]
    rw [heq]
    refine ⟨fun hno => ?_,fun live' hs => ?_,h.untouched,h.ownerless⟩
    · change t.context = none at hno
      rw [hl] at hno
      cases hno
    · obtain ⟨nested,installed,hg,hsame⟩ := h.installed live' hs
      refine ⟨nested+1,installed,?_,hsame⟩
      change none :: t.guards = _
      rw [hg]
      rfl

variable {live : AdvisoryContext}

theorem Tidy.waiting (hl : t.context = some live) (waiting : Option (AdvisoryKey × AdvisoryScope)) :
    ({ t with waiting := waiting } : ThreadLocals).Tidy := by
  refine ⟨fun hno => ?_,h.installed,h.untouched,h.ownerless⟩
  change t.context = none at hno
  rw [hl] at hno
  cases hno

theorem Tidy.mark (hl : t.context = some live) (ho : live.owner ≠ none) (key : AdvisoryKey)
    (scope : AdvisoryScope) : (t.mark key scope).Tidy := by
  obtain ⟨nested,installed,hg,hsame⟩ := h.installed live hl
  cases scope with
  | session | transaction =>
    refine ⟨fun hno => ?_,fun live' heq => ?_,fun live' heq hn => ?_,fun live' heq hn => ?_⟩
    · change t.context.map _ = none at hno
      rw [hl] at hno
      cases hno
    all_goals
      change t.context.map _ = some live' at heq
      rw [hl] at heq
      cases heq
    · exact ⟨nested,installed,hg,hsame⟩
    · -- A mark of the transaction touches the context.
      first
      | exact h.untouched live hl hn
      | cases hn
    · exact absurd hn ho

theorem Tidy.guards_cases : t.guards = [] ∨ (∃ rest, t.guards = none::rest ∧ rest ≠ []) ∨
    ∃ live installed, t.context = some live ∧ t.guards = [some installed] ∧ installed.owner = live.owner ∧
      installed.ownership = live.ownership ∧ installed.inExplicitTransaction = live.inExplicitTransaction := by
  cases hl : t.context with
  | none => exact .inl (h.idle hl).2.1
  | some live =>
    obtain ⟨nested,installed,hg,hsame⟩ := h.installed live hl
    cases nested with
    | zero => exact .inr (.inr ⟨live,installed,rfl,hg,hsame⟩)
    | succ nested =>
      refine .inr (.inl ⟨_,hg,?_⟩)
      simp

theorem Tidy.popNested {rest : List (Option AdvisoryContext)} (hg : t.guards = none::rest) :
    ({ t with guards := rest } : ThreadLocals).Tidy := by
  refine ⟨fun hno => ?_,fun live hl => ?_,h.untouched,h.ownerless⟩
  · rw [(h.idle hno).2.1] at hg
    cases hg
  · obtain ⟨nested,installed,heq,hsame⟩ := h.installed live hl
    rw [hg] at heq
    cases nested with
    | zero => cases (List.cons.inj heq).1
    | succ nested => exact ⟨nested,installed,(List.cons.inj heq).2,hsame⟩

end ThreadLocals

namespace AdvisoryWorld

theorem threads_setThread (w : AdvisoryWorld) (thread other : Nat) (t : ThreadLocals) :
    (w.setThread thread t).threads other = if other = thread then t else w.threads other := by
  by_cases heq : other = thread
  · rw [heq,if_pos rfl]
    exact update_self thread t w.threads
  · rw [if_neg heq]
    exact update_of_ne heq t w.threads

structure Sound (w : AdvisoryWorld) : Prop where
  balanced : Balanced w.manager w.ledger
  tidy : ∀ thread, (w.threads thread).Tidy
  fresh : ∀ owner key, w.nextSession ≤ owner → w.manager.xactHeld owner key = 0
  contexts : ∀ thread live owner, (w.threads thread).context = some live → live.owner = some owner → owner < w.nextSession

theorem sound_start : start.Sound where
  balanced := ⟨fun _ => trivial,rfl,rfl⟩
  tidy _ := tidy_new
  fresh _ _ _ := rfl
  contexts _ _ _ h := by cases h

section
variable {w : AdvisoryWorld} (h : w.Sound)
include h

theorem Sound.perform {call : AdvisoryCall} (hcall : call.owner < w.nextSession) : (w.perform call).1.Sound where
  balanced := (h.balanced.perform call).1
  tidy := h.tidy
  fresh owner key hle := by
    have hh := h.balanced.xactHeld_perform owner key call
    rw [AdvisoryCall.xactAfter_of_ne (Nat.ne_of_lt (Nat.lt_of_lt_of_le hcall hle)),h.fresh owner key hle] at hh
    exact hh
  contexts := h.contexts

theorem Sound.setThread {thread : Nat} {t : ThreadLocals} (ht : t.Tidy)
    (hc : ∀ live owner, t.context = some live → live.owner = some owner → owner < w.nextSession) :
    (w.setThread thread t).Sound := by
  refine ⟨h.balanced,fun other => ?_,h.fresh,fun other live owner hl ho => ?_⟩
  · rw [threads_setThread]
    split
    next => exact ht
    next => exact h.tidy other
  · rw [threads_setThread] at hl
    split at hl
    next => exact hc live owner hl ho
    next => exact h.contexts other live owner hl ho

end

/-- An acquisition on a thread: a grant is marked, and the call may go on to wait or stop. -/
def Attempt (w w' : AdvisoryWorld) (thread : Nat) (key : AdvisoryKey) (scope : AdvisoryScope) (call : AdvisoryCall) : Prop :=
  ((w.perform call).2 = true ∧
    w' = (w.perform call).1.setThread thread { (w.threads thread).mark key scope with waiting := none }) ∨
  ((w.perform call).2 = false ∧
    (w' = (w.perform call).1 ∨ ∃ waiting, w' = (w.perform call).1.setThread thread { w.threads thread with waiting := waiting }))

inductive Acquires (key : AdvisoryKey) (owner : SessionId) (scope : AdvisoryScope) : AdvisoryCall → Prop
  | tries (maxPerSession : Nat) : Acquires key owner scope (.tryAcquire key owner scope maxPerSession)
  | waits (expired : Bool) (maxPerSession : Nat) : Acquires key owner scope (.acquireTurn key owner scope expired maxPerSession)

/-- What a thread does in the name of the owner of its context. -/
inductive Acts (w w' : AdvisoryWorld) (thread : Nat) (owner : SessionId) : Prop
  | unlocks (key : AdvisoryKey) (h : w' = (w.perform (.unlock key owner)).1)
  | unlocksAll (h : w' = (w.perform (.unlockAll owner)).1)
  | acquires {key : AdvisoryKey} {scope : AdvisoryScope} {call : AdvisoryCall} (hcall : Acquires key owner scope call)
      (h : w.Attempt w' thread key scope call)

theorem lockWith_attempt (w : AdvisoryWorld) (thread : Nat) (context : AdvisoryContext) (owner : SessionId) (key : AdvisoryKey)
    (scope : AdvisoryScope) (blocking : Bool) (hw : (w.threads thread).waiting = none) :
    w.Attempt (w.lockWith thread context owner key scope blocking).1 thread key scope
      (.tryAcquire key owner scope context.maxLocksPerSession) := by
  have hm : { (w.threads thread).mark key scope with waiting := none } = (w.threads thread).mark key scope := by
    cases scope <;> simp [mark,markSessionLockTaken,markTransactionLockTaken,hw]
  unfold Attempt lockWith
  have hd : (w.perform (.tryAcquire key owner scope context.maxLocksPerSession)).2 =
      decide ((w.manager.tryAcquire key owner scope context.maxLocksPerSession).2 = .ok true) := rfl
  rw [hd]
  rcases hr : (w.manager.tryAcquire key owner scope context.maxLocksPerSession).2 with message | granted
  · exact .inr ⟨rfl,.inl rfl⟩
  cases granted with
  | true => exact .inl ⟨rfl,by rw [hm]⟩
  | false =>
    cases blocking with
    | true => exact .inr ⟨rfl,.inr ⟨some (key,scope),rfl⟩⟩
    | false => exact .inr ⟨rfl,.inl rfl⟩

theorem evaluate_cases (w : AdvisoryWorld) (thread : Nat) (function : AdvisoryFunction) (args : List Sql.Value)
    (hw : (w.threads thread).waiting = none) :
    (w.evaluate thread function args).1 = w ∨ ∃ live owner, (w.threads thread).context = some live ∧ live.owner = some owner ∧
      w.Acts (w.evaluate thread function args).1 thread owner := by
  unfold evaluate
  cases hl : (w.threads thread).context with
  | none => exact .inl rfl
  | some live =>
    cases ho : live.owner with
    | none =>
      simp only [ho]
      exact .inl trivial
    | some owner =>
      simp only [ho]
      split
      next => exact .inl rfl
      next =>
        cases function with
        | advisoryUnlockAll =>
          simp only
          split
          next => exact .inr ⟨live,owner,rfl,ho,.unlocksAll rfl⟩
          next => exact .inl rfl
        | advisoryUnlock =>
          simp only
          split
          next => exact .inl rfl
          next key hkey => exact .inr ⟨live,owner,rfl,ho,.unlocks key rfl⟩
        | tryAdvisoryLock | tryAdvisoryXactLock | advisoryLock | advisoryXactLock =>
          simp only
          split
          next => exact .inl rfl
          next key hkey =>
            exact .inr ⟨live,owner,rfl,ho,.acquires (.tries _) (lockWith_attempt w thread live owner key _ _ hw)⟩

theorem turn_cases (w : AdvisoryWorld) (thread : Nat) (expired : Bool) :
    w.turn thread expired = w ∨ ∃ live owner, (w.threads thread).context = some live ∧ live.owner = some owner ∧
      w.Acts (w.turn thread expired) thread owner := by
  unfold turn
  simp only
  split
  next key scope live hw hl =>
    split
    next => exact .inl rfl
    next owner ho =>
      refine .inr ⟨live,owner,hl,ho,@Acts.acquires _ _ _ _ key scope
        (.acquireTurn key owner scope (expired && live.statementTimeout.isSome) live.maxLocksPerSession) (.waits _ _) ?_⟩
      unfold Attempt
      have hd : (w.perform (.acquireTurn key owner scope (expired && live.statementTimeout.isSome) live.maxLocksPerSession)).2 =
          decide ((w.manager.acquireTurn key owner scope (expired && live.statementTimeout.isSome)
            live.maxLocksPerSession).2 = .granted) := rfl
      rw [hd]
      split
      next heq =>
        rw [heq]
        exact .inl ⟨rfl,rfl⟩
      next heq =>
        rw [heq]
        exact .inr ⟨rfl,.inr ⟨none,rfl⟩⟩
      next heq =>
        rw [heq]
        exact .inr ⟨rfl,.inr ⟨none,rfl⟩⟩
      next heq =>
        rw [heq]
        exact .inr ⟨rfl,.inl rfl⟩
  next => exact .inl rfl

section
variable {w : AdvisoryWorld} (h : w.Sound)
include h

variable {thread : Nat}
variable {live : AdvisoryContext}

theorem Sound.acts {w' : AdvisoryWorld} {owner : SessionId}
    (hl : (w.threads thread).context = some live) (ho : live.owner = some owner) (hac : w.Acts w' thread owner) : w'.Sound := by
  have hlt := h.contexts thread live owner hl ho
  cases hac with
  | unlocks key heq | unlocksAll heq =>
    rw [heq]
    exact h.perform hlt
  | @acquires key scope call hcall ha =>
    have hc : call.owner = owner := by cases hcall <;> rfl
    have hp := h.perform (hc.symm ▸ hlt)
    rcases ha with ⟨-,heq⟩ | ⟨-,heq | ⟨waiting,heq⟩⟩
    · rw [heq]
      refine hp.setThread ?_ fun live' owner' hl' ho' => ?_
      · have hm := (h.tidy thread).mark hl (by rw [ho]; simp) key scope
        cases scope
        · exact hm.waiting (by
            change (w.threads thread).context.map _ = _
            rw [hl]
            rfl) none
        · exact hm.waiting (by
            change (w.threads thread).context.map _ = _
            rw [hl]
            rfl) none
      · have hsame : live'.owner = live.owner := by
          cases scope
          all_goals
            change (w.threads thread).context.map _ = some live' at hl'
            rw [hl] at hl'
            cases hl'
            rfl
        rw [hsame,ho] at ho'
        cases ho'
        exact hlt
    · rw [heq]
      exact hp
    · rw [heq]
      exact hp.setThread ((h.tidy thread).waiting hl waiting) fun live' owner' hl' ho' =>
        h.contexts thread live' owner' hl' ho'

theorem Sound.dropGuard_outermost {installed : AdvisoryContext} {cleared : AdvisoryWorld}
    (hc : cleared = w.setThread thread { w.threads thread with guards := [], context := none, xactKeys := [] })
    (hl : (w.threads thread).context = some live) (hg : (w.threads thread).guards = [some installed])
    (how : installed.owner = live.owner) (ho : installed.ownership = live.ownership)
    (hexpl : installed.inExplicitTransaction = live.inExplicitTransaction) :
    (w.dropGuard thread = cleared ∧ (live.inExplicitTransaction = false → (w.threads thread).xactKeys = [])) ∨
    ∃ owner, live.owner = some owner ∧
      ((live.ownership = .statement ∧ w.dropGuard thread = (cleared.perform (.releaseSession owner)).1) ∨
        (live.ownership = .connection ∧
          w.dropGuard thread = (cleared.perform (.releaseTransactionKeys owner (w.threads thread).xactKeys)).1)) := by
  have htd := h.tidy thread
  -- a statement that took no key leaves no list
  have he : live.tookTransactionLock = false →
      w.setThread thread { w.threads thread with guards := [], context := none } = cleared := by
    intro hn
    rw [hc]
    simp only [htd.untouched live hl hn]
  unfold dropGuard
  simp only [hg,hl,how,ho,hexpl]
  split
  next hn =>
    rw [Bool.and_eq_true,Bool.not_eq_true',Bool.not_eq_true'] at hn
    exact .inl ⟨he hn.1,fun _ => htd.untouched live hl hn.1⟩
  next =>
    cases hs : live.owner with
    | none =>
      have hn := htd.ownerless live hl hs
      exact .inl ⟨he hn,fun _ => htd.untouched live hl hn⟩
    | some owner =>
      simp only [← hc]
      cases live.ownership with
      | statement => exact .inr ⟨owner,rfl,.inl ⟨rfl,rfl⟩⟩
      | connection =>
        simp only
        split
        next => exact .inr ⟨owner,rfl,.inr ⟨trivial,rfl⟩⟩
        next hk =>
          refine .inl ⟨rfl,fun ha => htd.untouched live hl ?_⟩
          rw [ha,Bool.not_false,Bool.and_true] at hk
          exact Bool.eq_false_iff.mpr hk

theorem Sound.clear (hw : (w.threads thread).waiting = none) :
    (w.setThread thread { w.threads thread with guards := [], context := none, xactKeys := [] }).Sound :=
  h.setThread ⟨fun _ => ⟨rfl,rfl,hw⟩,fun _ hno => (by cases hno),fun _ hno => (by cases hno),fun _ hno => (by cases hno)⟩
    fun _ _ hno => (by cases hno)

theorem Sound.dropGuard (hw : (w.threads thread).waiting = none) : (w.dropGuard thread).Sound := by
  rcases (h.tidy thread).guards_cases with hn | ⟨rest,hg,-⟩ | ⟨live,installed,hl,hg,how,ho,hexpl⟩
  · unfold AdvisoryWorld.dropGuard
    simp only [hn]
    exact h
  · unfold AdvisoryWorld.dropGuard
    simp only [hg]
    exact h.setThread ((h.tidy thread).popNested hg) (h.contexts thread)
  · have hc := h.clear hw
    rcases h.dropGuard_outermost rfl hl hg how ho hexpl with ⟨heq,-⟩ | ⟨owner,hs,⟨-,heq⟩ | ⟨-,heq⟩⟩
    · rw [heq]
      exact hc
    · rw [heq]
      exact hc.perform (h.contexts thread live owner hl hs)
    · rw [heq]
      exact hc.perform (h.contexts thread live owner hl hs)

theorem Sound.install {context : AdvisoryContext} (hn : context.tookTransactionLock = false)
    (ho : ∀ owner, context.owner = some owner → owner < w.nextSession) :
    (w.setThread thread ((w.threads thread).install context)).Sound := by
  refine h.setThread ((h.tidy thread).install hn) fun live owner hl hs => ?_
  unfold ThreadLocals.install at hl
  cases hc : (w.threads thread).context with
  | none =>
    simp only [hc] at hl
    cases hl
    exact ho owner hs
  | some old =>
    simp only [hc] at hl
    cases hl
    exact h.contexts thread live owner hc hs

theorem Sound.handOut : ({ w with nextSession := w.nextSession+1 } : AdvisoryWorld).Sound where
  balanced := h.balanced
  tidy := h.tidy
  fresh owner key hle := h.fresh owner key (Nat.le_of_succ_le hle)
  contexts thread live owner hl howner := Nat.lt_succ_of_lt (h.contexts thread live owner hl howner)

theorem Sound.step (a : AdvisoryAction) : (w.step a).Sound := by
  cases a with
  | newSession => exact h.handOut
  | call call =>
    simp only [AdvisoryWorld.step]
    split
    next hlt => exact h.perform hlt
    next => exact h
  | installSession thread owner statementTimeout maxLocksPerSession database inExplicitTransaction =>
    simp only [AdvisoryWorld.step]
    split
    next hv =>
      refine h.install rfl fun other ho => ?_
      cases ho
      exact hv.1
    next => exact h
  | installStatement thread reachesAdvisory statementTimeout maxLocksPerSession database =>
    simp only [AdvisoryWorld.step]
    split
    next =>
      split
      next hm =>
        refine h.handOut.install rfl fun other ho => ?_
        cases ho
        exact Nat.lt_succ_self _
      next => exact h.install rfl fun other ho => (by cases ho)
    next => exact h
  | evaluate thread function args =>
    simp only [AdvisoryWorld.step]
    split
    next hw =>
      rcases w.evaluate_cases thread function args hw with heq | ⟨live,owner,hl,how,ha⟩
      · rw [heq]
        exact h
      · exact h.acts hl how ha
    next => exact h
  | turn thread expired =>
    rcases w.turn_cases thread expired with heq | ⟨live,owner,hl,how,ha⟩
    · rw [AdvisoryWorld.step,heq]
      exact h
    · exact h.acts hl how ha
  | dropGuard thread =>
    simp only [AdvisoryWorld.step]
    split
    next hw => exact h.dropGuard hw
    next => exact h

end
/-- The owner acts on this thread only, and the guard of the statement stays. -/
def Alone (owner : SessionId) (thread : Nat) (w : AdvisoryWorld) : AdvisoryAction → Prop
  | .newSession | .installStatement _ _ _ _ _ => True
  | .call call => call.owner ≠ owner
  | .installSession t o _ _ _ _ => t = thread ∨ o ≠ owner
  | .evaluate t _ _ | .turn t _ => t = thread ∨ ∀ live, (w.threads t).context = some live → live.owner ≠ some owner
  | .dropGuard t =>
    if t = thread then 1 < (w.threads thread).guards.length
    else ∀ live, (w.threads t).context = some live → live.owner ≠ some owner

/-- The owner holds what it held before, and the keys of the list once more each. -/
structure Runs (base : AdvisoryKey → Nat) (owner : SessionId) (ownership : AdvisoryOwnership) (thread : Nat)
    (w : AdvisoryWorld) : Prop where
  live : ∃ live, (w.threads thread).context = some live ∧ live.owner = some owner ∧ live.ownership = ownership ∧
    live.inExplicitTransaction = false
  held : ∀ key, w.manager.xactHeld owner key = base key + (w.threads thread).xactKeys.count key

section
variable {w w' : AdvisoryWorld} {base : AdvisoryKey → Nat} {owner : SessionId} {ownership : AdvisoryOwnership} {thread : Nat}

theorem Runs.of_same (hr : Runs base owner ownership thread w) (hc : (w'.threads thread).context = (w.threads thread).context)
    (hk : (w'.threads thread).xactKeys = (w.threads thread).xactKeys)
    (hh : ∀ key, w'.manager.xactHeld owner key = w.manager.xactHeld owner key) : Runs base owner ownership thread w' := by
  refine ⟨?_,fun key => ?_⟩
  · rw [hc]
    exact hr.live
  · rw [hh,hk]
    exact hr.held key

theorem Sound.xactHeld_of_ne (h : w.Sound) {call : AdvisoryCall} (hne : call.owner ≠ owner) (key : AdvisoryKey) :
    (w.perform call).1.manager.xactHeld owner key = w.manager.xactHeld owner key := by
  have hh := h.balanced.xactHeld_perform owner key call
  rw [AdvisoryCall.xactAfter_of_ne hne] at hh
  exact hh

variable {t : Nat}
variable {other : SessionId}

theorem Acts.elsewhere (h : w.Sound) (hac : w.Acts w' t other) (ho : other ≠ owner)
    (ht : thread ≠ t) : w'.threads thread = w.threads thread ∧
      ∀ key, w'.manager.xactHeld owner key = w.manager.xactHeld owner key := by
  cases hac with
  | unlocks key heq | unlocksAll heq =>
    rw [heq]
    exact ⟨rfl,h.xactHeld_of_ne ho⟩
  | @acquires key scope call hcall ha =>
    have hne : call.owner ≠ owner := by cases hcall <;> exact ho
    rcases ha with ⟨-,heq⟩ | ⟨-,heq | ⟨waiting,heq⟩⟩
    · rw [heq]
      exact ⟨(threads_setThread _ _ _ _).trans (if_neg ht),h.xactHeld_of_ne hne⟩
    · rw [heq]
      exact ⟨rfl,h.xactHeld_of_ne hne⟩
    · rw [heq]
      exact ⟨(threads_setThread _ _ _ _).trans (if_neg ht),h.xactHeld_of_ne hne⟩

theorem Runs.acts (h : w.Sound) (hr : Runs base owner ownership thread w) (hac : w.Acts w' thread owner) :
    Runs base owner ownership thread w' := by
  cases hac with
  | unlocks key heq =>
    rw [heq]
    exact hr.of_same rfl rfl fun k => h.balanced.xactHeld_perform owner k (.unlock key owner)
  | unlocksAll heq =>
    rw [heq]
    exact hr.of_same rfl rfl fun k => h.balanced.xactHeld_perform owner k (.unlockAll owner)
  | @acquires key scope call hcall hat =>
    have hh : ∀ k, (w.perform call).1.manager.xactHeld owner k =
        call.xactAfter owner k (w.manager.xactHeld owner k) (w.perform call).2 := fun k => h.balanced.xactHeld_perform owner k call
    have hrf : (w.perform call).2 = false → ∀ k, (w.perform call).1.manager.xactHeld owner k = w.manager.xactHeld owner k := by
      intro hno k
      rw [hh,hno]
      cases hcall <;> rfl
    rcases hat with ⟨hy,heq⟩ | ⟨hno,heq | ⟨waiting,heq⟩⟩
    · have hg : ∀ k, (w.perform call).1.manager.xactHeld owner k =
          if key = k ∧ scope = .transaction then w.manager.xactHeld owner k + 1 else w.manager.xactHeld owner k := by
        intro k
        rw [hh,hy]
        cases hcall <;> simp [AdvisoryCall.xactAfter]
      obtain ⟨live,hl,hsame⟩ := hr.live
      have hth : w'.threads thread = { (w.threads thread).mark key scope with waiting := none } := by
        rw [heq,threads_setThread,if_pos rfl]
      have hm : w'.manager = (w.perform call).1.manager := by rw [heq]; rfl
      cases scope with
      | session =>
        refine ⟨⟨{ live with tookSessionLock := true },?_,hsame⟩,fun k => ?_⟩
        · rw [hth]
          change (w.threads thread).context.map _ = _
          rw [hl]
          rfl
        · rw [hm,hg,if_neg fun ha => (by cases ha.2),hth]
          exact hr.held k
      | transaction =>
        refine ⟨⟨{ live with tookTransactionLock := true },?_,hsame⟩,fun k => ?_⟩
        · rw [hth]
          change (w.threads thread).context.map _ = _
          rw [hl]
          rfl
        · rw [hm,hg,hth]
          change _ = base k + ((w.threads thread).xactKeys ++ [key]).count k
          rw [count_append,count_singleton,hr.held k]
          by_cases hk : key = k
          · rw [if_pos ⟨hk,rfl⟩,if_pos (beq_iff_eq.mpr hk)]
            omega
          · rw [if_neg fun ha => hk ha.1,if_neg fun ha => hk (eq_of_beq ha)]
            omega
    · rw [heq]
      exact hr.of_same rfl rfl (hrf hno)
    · have hth : w'.threads thread = { w.threads thread with waiting := waiting } := by
        rw [heq,threads_setThread,if_pos rfl]
      have hm : w'.manager = (w.perform call).1.manager := by rw [heq]; rfl
      refine hr.of_same (by rw [hth]) (by rw [hth]) fun k => ?_
      rw [hm]
      exact hrf hno k

theorem Runs.acts_of_alone (h : w.Sound) (hr : Runs base owner ownership thread w) {live : AdvisoryContext}
    (hal : t = thread ∨ ∀ live, (w.threads t).context = some live → live.owner ≠ some owner)
    (hl : (w.threads t).context = some live) (ho : live.owner = some other) (ha : w.Acts w' t other) :
    Runs base owner ownership thread w' := by
  by_cases ht : thread = t
  · subst ht
    obtain ⟨live',hl',how,-⟩ := hr.live
    cases hl.symm.trans hl'
    cases ho.symm.trans how
    exact hr.acts h ha
  · have hne : other ≠ owner := by
      rintro rfl
      rcases hal with heq | hn
      · exact ht heq.symm
      · exact hn live hl ho
    obtain ⟨hth,hh⟩ := ha.elsewhere h hne ht
    exact hr.of_same (by rw [hth]) (by rw [hth]) hh

theorem Runs.install (hr : Runs base owner ownership thread w) (t : Nat) (context : AdvisoryContext) :
    Runs base owner ownership thread (w.setThread t ((w.threads t).install context)) := by
  obtain ⟨live,hl,-⟩ := hr.live
  refine hr.of_same ?_ ?_ fun key => rfl
  all_goals
    rw [threads_setThread]
    split
    next heq =>
      rw [← heq]
      unfold ThreadLocals.install
      simp only [hl]
    next => rfl

theorem Runs.dropGuard (h : w.Sound) (hr : Runs base owner ownership thread w)
    (ha : Alone owner thread w (.dropGuard t)) : Runs base owner ownership thread (w.dropGuard t) := by
  change if t = thread then 1 < (w.threads thread).guards.length
    else ∀ live, (w.threads t).context = some live → live.owner ≠ some owner at ha
  rcases (h.tidy t).guards_cases with hn | ⟨rest,hg,-⟩ | ⟨live,installed,hl,hg,hon,how,hexpl⟩
  · unfold AdvisoryWorld.dropGuard
    simp only [hn]
    exact hr
  · unfold AdvisoryWorld.dropGuard
    simp only [hg]
    refine hr.of_same ?_ ?_ fun key => rfl
    all_goals
      rw [threads_setThread]
      split
      next heq => rw [heq]
      next => rfl
  · have ht : thread ≠ t := by
      rintro rfl
      rw [if_pos rfl,hg] at ha
      exact absurd ha (Nat.lt_irrefl 1)
    rw [if_neg (Ne.symm ht)] at ha
    set cleared := w.setThread t { w.threads t with guards := [], context := none, xactKeys := [] } with hc
    have hth : cleared.threads thread = w.threads thread := (threads_setThread _ _ _ _).trans (if_neg ht)
    have hb : Balanced cleared.manager cleared.ledger := h.balanced
    have ho : ∀ {other}, live.owner = some other → other ≠ owner := by
      rintro other hs rfl
      exact ha live hl hs
    have hsame : Runs base owner ownership thread cleared := hr.of_same (by rw [hth]) (by rw [hth]) fun key => rfl
    rcases h.dropGuard_outermost hc hl hg hon how hexpl with ⟨heq,-⟩ | ⟨other,hs,⟨-,heq⟩ | ⟨-,heq⟩⟩
    · rw [heq]
      exact hsame
    · rw [heq]
      refine hsame.of_same rfl rfl fun key => ?_
      have hne : (AdvisoryCall.releaseSession other).owner ≠ owner := ho hs
      have hh := hb.xactHeld_perform owner key (.releaseSession other)
      rw [AdvisoryCall.xactAfter_of_ne hne] at hh
      exact hh
    · rw [heq]
      refine hsame.of_same rfl rfl fun key => ?_
      have hne : (AdvisoryCall.releaseTransactionKeys other (w.threads t).xactKeys).owner ≠ owner := ho hs
      have hh := hb.xactHeld_perform owner key (.releaseTransactionKeys other (w.threads t).xactKeys)
      rw [AdvisoryCall.xactAfter_of_ne hne] at hh
      exact hh

theorem Runs.ends (h : w.Sound) (hr : Runs base owner ownership thread w) (hg : (w.threads thread).guards.length = 1)
    (hbs : ownership = .statement → ∀ key, base key = 0) (key : AdvisoryKey) :
    (w.dropGuard thread).manager.xactHeld owner key = base key := by
  obtain ⟨live,hl,ho,how,ha⟩ := hr.live
  have hh := hr.held key
  rcases (h.tidy thread).guards_cases with hn | ⟨rest,heq,hrest⟩ | ⟨live',installed,hl',heq,hsame⟩
  · rw [hn] at hg
    cases hg
  · rw [heq,length_cons,Nat.succ.injEq,length_eq_zero_iff] at hg
    exact absurd hg hrest
  cases hl.symm.trans hl'
  set cleared := w.setThread thread { w.threads thread with guards := [], context := none, xactKeys := [] } with hc
  have hb : Balanced cleared.manager cleared.ledger := h.balanced
  rcases h.dropGuard_outermost hc hl heq hsame.1 hsame.2.1 hsame.2.2 with
    ⟨hd,hk⟩ | ⟨other,hsm,⟨hs,hd⟩ | ⟨-,hd⟩⟩
  · rw [hk ha,count_nil] at hh
    rw [hd]
    exact hh
  · cases ho.symm.trans hsm
    rw [hd,hbs (how.symm.trans hs)]
    refine (hb.xactHeld_perform owner key (.releaseSession owner)).trans ?_
    exact if_pos rfl
  · cases ho.symm.trans hsm
    rw [hd]
    refine (hb.xactHeld_perform owner key (.releaseTransactionKeys owner (w.threads thread).xactKeys)).trans ?_
    change (if owner = owner then w.manager.xactHeld owner key - (w.threads thread).xactKeys.count key
      else w.manager.xactHeld owner key) = base key
    rw [if_pos rfl,hh,Nat.add_sub_cancel]

theorem Runs.step (h : w.Sound) (hr : Runs base owner ownership thread w) (a : AdvisoryAction)
    (ha : Alone owner thread w a) : Runs base owner ownership thread (w.step a) := by
  obtain ⟨live,hl,ho,hsame⟩ := hr.live
  cases a with
  | newSession => exact hr.of_same rfl rfl fun key => rfl
  | call call =>
    simp only [AdvisoryWorld.step]
    split
    next => exact hr.of_same rfl rfl (h.xactHeld_of_ne ha)
    next => exact hr
  | installSession t o statementTimeout maxLocksPerSession database inExplicitTransaction =>
    simp only [AdvisoryWorld.step]
    split
    next => exact hr.install t _
    next => exact hr
  | installStatement t reachesAdvisory statementTimeout maxLocksPerSession database =>
    simp only [AdvisoryWorld.step]
    split
    next => exact (hr.install t _).of_same rfl rfl fun key => rfl
    next => exact hr
  | evaluate t function args =>
    simp only [AdvisoryWorld.step]
    split
    next hw =>
      rcases w.evaluate_cases t function args hw with heq | ⟨live',owner',hl',ho',hac⟩
      · rw [heq]
        exact hr
      · exact hr.acts_of_alone h ha hl' ho' hac
    next => exact hr
  | turn t expired =>
    rcases w.turn_cases t expired with heq | ⟨live',owner',hl',ho',hac⟩
    · rw [AdvisoryWorld.step,heq]
      exact hr
    · exact hr.acts_of_alone h ha hl' ho' hac
  | dropGuard t =>
    simp only [AdvisoryWorld.step]
    split
    next => exact hr.dropGuard h ha
    next => exact hr

/-- A guard of an autocommit statement is installed: one of a session, or one with an owner of its
own. -/
def Installs (w : AdvisoryWorld) (thread : Nat) (owner : SessionId) : AdvisoryAction → Prop
  | .installSession t o _ _ _ inExplicitTransaction =>
    t = thread ∧ o = owner ∧ o < w.nextSession ∧ inExplicitTransaction = false
  | .installStatement t reachesAdvisory _ _ _ => t = thread ∧ reachesAdvisory = true ∧ owner = w.nextSession
  | _ => False

theorem Installs.runs (h : w.Sound) (hi : (w.threads thread).context = none) {a : AdvisoryAction}
    (ha : w.Installs thread owner a) : ∃ ownership, Runs (w.manager.xactHeld owner) owner ownership thread (w.step a) ∧
      (ownership = .statement → ∀ key, w.manager.xactHeld owner key = 0) := by
  obtain ⟨hk,hg,hw⟩ := (h.tidy thread).idle hi
  cases a with
  | installSession t o statementTimeout maxLocksPerSession database inExplicitTransaction =>
    obtain ⟨rfl,rfl,hlt,rfl⟩ := ha
    refine ⟨.connection,?_,nofun⟩
    have hs : (w.step (.installSession t o statementTimeout maxLocksPerSession database false)).threads t =
        { w.threads t with
          context := some ⟨some o,.connection,statementTimeout,maxLocksPerSession,database,false,false,false⟩
          guards := some ⟨some o,.connection,statementTimeout,maxLocksPerSession,database,false,false,false⟩ :: (w.threads t).guards } := by
      simp only [step,if_pos (And.intro hlt hw),threads_setThread,if_pos,install,hi]
    have hm : (w.step (.installSession t o statementTimeout maxLocksPerSession database false)).manager = w.manager := by
      simp only [step,if_pos (And.intro hlt hw)]
      rfl
    refine ⟨⟨_,by rw [hs],rfl,rfl,rfl⟩,fun key => ?_⟩
    rw [hm,hs,hk,count_nil,Nat.add_zero]
  | installStatement t reachesAdvisory statementTimeout maxLocksPerSession database =>
    obtain ⟨rfl,rfl,rfl⟩ := ha
    refine ⟨.statement,?_,fun _ key => h.fresh _ key (Nat.le_refl _)⟩
    have hs : (w.step (.installStatement t true statementTimeout maxLocksPerSession database)).threads t =
        { w.threads t with
          context := some ⟨some w.nextSession,.statement,statementTimeout,maxLocksPerSession,database,false,false,false⟩
          guards := some ⟨some w.nextSession,.statement,statementTimeout,maxLocksPerSession,database,false,false,false⟩ ::
            (w.threads t).guards } := by
      simp only [step,if_pos hw,threads_setThread,if_pos,install,hi]
      rfl
    have hm : (w.step (.installStatement t true statementTimeout maxLocksPerSession database)).manager = w.manager := by
      simp only [step,if_pos hw]
      rfl
    refine ⟨⟨_,by rw [hs],rfl,rfl,rfl⟩,fun key => ?_⟩
    rw [hm,hs,hk,count_nil,Nat.add_zero]
  | newSession | call call | evaluate t function args | turn t expired | dropGuard t => exact ha.elim

end
end AdvisoryWorld

/-- In every state of every run the table holds what was granted and not released, a key is granted
only when no other session holds it, and a statement in autocommit leaves its owner the transaction
holds it had. -/
theorem advisory_accounting (actions : List AdvisoryAction) {w : AdvisoryWorld} (hw : w = run AdvisoryWorld.step .start actions) :
    Balanced w.manager w.ledger ∧
    (∀ (call : AdvisoryCall) key owner, call.grants = some (key,owner) → (w.perform call).2 = true →
      ∀ t, w.ledger key = some t → t.owner = owner) ∧
    ∀ thread owner installs middle, (w.threads thread).context = none → w.Installs thread owner installs →
      Guarded AdvisoryWorld.step (AdvisoryWorld.Alone owner thread) (w.step installs) middle →
      ∀ w', w' = run AdvisoryWorld.step (w.step installs) middle →
        (w'.threads thread).guards.length = 1 → (w'.threads thread).waiting = none →
        ∀ key, (w'.step (.dropGuard thread)).manager.xactHeld owner key = w.manager.xactHeld owner key := by
  have hsound : w.Sound := by
    rw [hw]
    exact run_invariant AdvisoryWorld.step AdvisoryWorld.Sound (fun w a h => h.step a) AdvisoryWorld.sound_start actions
  refine ⟨hsound.balanced,fun call => (hsound.balanced.perform call).2,?_⟩
  rintro thread owner installs middle hidle hinstalls hmiddle w' rfl hguards hwaiting key
  obtain ⟨ownership,hruns,hbase⟩ := hinstalls.runs hsound hidle
  obtain ⟨hsound',hruns'⟩ := guarded_run_invariant AdvisoryWorld.step
    (fun v => v.Sound ∧ AdvisoryWorld.Runs (w.manager.xactHeld owner) owner ownership thread v)
    (fun v a hv ha => ⟨hv.1.step a,hv.2.step hv.1 a ha⟩) ⟨hsound.step installs,hruns⟩ hmiddle
  have hdrop : (run AdvisoryWorld.step (w.step installs) middle).step (.dropGuard thread) =
      (run AdvisoryWorld.step (w.step installs) middle).dropGuard thread := if_pos hwaiting
  rw [hdrop]
  exact hruns'.ends hsound' hguards hbase key

/-- Session 1 holds a key; its autocommit statement takes the key twice and gives it back twice. -/
theorem advisory_accounting_statement : ∃ w w' : AdvisoryWorld, ∃ key : AdvisoryKey,
    w = run AdvisoryWorld.step .start [.newSession,.call (.tryAcquire key 1 .transaction 0)] ∧
    w' = run AdvisoryWorld.step w [.installSession 7 1 none 0 0 false,.evaluate 7 .advisoryXactLock [.int8 5],
      .evaluate 7 .tryAdvisoryXactLock [.int8 5]] ∧
    w'.manager.xactHeld 1 key = 3 ∧ (w'.step (.dropGuard 7)).manager.xactHeld 1 key = 1 := by
  refine ⟨_,_,⟨0,.bigInt 5⟩,rfl,rfl,by decide,?_⟩
  exact (advisory_accounting [.newSession,.call (.tryAcquire ⟨0,.bigInt 5⟩ 1 .transaction 0)] rfl).2.2 7 1
    (.installSession 7 1 none 0 0 false) [.evaluate 7 .advisoryXactLock [.int8 5],.evaluate 7 .tryAdvisoryXactLock [.int8 5]]
    rfl ⟨rfl,rfl,by decide,rfl⟩ ⟨.inl rfl,.inl rfl,trivial⟩ _ rfl rfl rfl ⟨0,.bigInt 5⟩

end HeliosNano.Advisory
