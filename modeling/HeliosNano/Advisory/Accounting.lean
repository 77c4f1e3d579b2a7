import HeliosNano.Advisory.Manager

namespace HeliosNano.Advisory
open Foundation List Function

/-- What a session was granted and has released since it became the owner of a key. -/
structure Tally where
  owner : SessionId
  granted : AdvisoryScope → Nat
  released : AdvisoryScope → Nat

namespace Tally

def new (owner : SessionId) : Tally := ⟨owner,fun _ => 0,fun _ => 0⟩

def grant (t : Tally) (scope : AdvisoryScope) : Tally :=
  { t with granted := Function.update t.granted scope (t.granted scope + 1) }

def release (t : Tally) (scope : AdvisoryScope) : Tally :=
  { t with released := Function.update t.released scope (t.released scope + 1) }

def releaseAll (t : Tally) (scopes : AdvisoryScope → Bool) : Tally :=
  { t with released := fun scope => if scopes scope then t.granted scope else t.released scope }

/-- An owner that has given everything back is none. -/
def settle (t : Tally) : Option Tally :=
  if t.granted .session = t.released .session ∧ t.granted .transaction = t.released .transaction then none else some t

end Tally

abbrev Ledger := AdvisoryKey → Option Tally

namespace Ledger

def grant (l : Ledger) (key : AdvisoryKey) (owner : SessionId) (scope : AdvisoryScope) : Ledger :=
  Function.update l key <| some <|
    match l key with
    | some t => if t.owner = owner then t.grant scope else (Tally.new owner).grant scope
    | none => (Tally.new owner).grant scope

def release (l : Ledger) (key : AdvisoryKey) (owner : SessionId) (scope : AdvisoryScope) : Ledger :=
  Function.update l key <| (l key).bind fun t => if t.owner = owner then (t.release scope).settle else some t

def releaseAll (l : Ledger) (owner : SessionId) (scopes : AdvisoryScope → Bool) : Ledger :=
  fun key => (l key).bind fun t => if t.owner = owner then (t.releaseAll scopes).settle else some t

/-- A listed acquisition that is still out is given back. -/
def releaseListed (owner : SessionId) (l : Ledger) (key : AdvisoryKey) : Ledger :=
  match l key with
  | some t => if t.owner = owner ∧ t.released .transaction < t.granted .transaction then l.release key owner .transaction else l
  | none => l

def record (l : Ledger) : AdvisoryCall → Bool → Ledger
  | .tryAcquire key owner scope _, true => l.grant key owner scope
  | .acquireTurn key owner scope _ _, true => l.grant key owner scope
  | .unlock key owner, true => l.release key owner .session
  | .unlockAll owner, _ => l.releaseAll owner (· == .session)
  | .releaseTransaction owner, _ | .transactionEnds owner, _ => l.releaseAll owner (· == .transaction)
  | .releaseTransactionKeys owner keys, _ => keys.foldl (releaseListed owner) l
  | .releaseSession owner, _ | .connectionEnds owner, _ => l.releaseAll owner fun _ => true
  | _, false => l

end Ledger

section
variable (m : AdvisoryLockManager)
open AdvisoryLockManager

def Holder.settle (h : Holder) : Option Holder := if h.isEmpty then none else some h

theorem lookup_store (locks : Locks) (key k : AdvisoryKey) (holder : Holder) :
    (store locks key holder).lookup k = if k = key then holder.settle else locks.lookup k := by
  unfold store Holder.settle
  split
  next => rw [Map.lookup_erase_ite]
  next => rw [Map.lookup_insert_ite]

theorem lookup_releaseMatching (owner : SessionId) (zero : Holder → Holder × Nat)
    (hz : ∀ h, (zero h).1.owner = h.owner) (k : AdvisoryKey) : (m.releaseMatching owner zero).1.locks.lookup k =
      (m.locks.lookup k).bind fun h => if h.owner = owner then (zero h).1.settle else some h := by
  unfold releaseMatching refreshCounters
  simp only [Map.lookup_retain,Map.lookup_mapValues]
  cases m.locks.lookup k with
  | none => rfl
  | some h =>
    rw [Option.map_some,Option.bind_some,Option.filter_some]
    by_cases ho : h.owner = owner
    · have hk : decide ((zero h).1.owner = owner) = true := decide_eq_true ((hz h).trans ho)
      rw [if_pos ho,if_pos ho]
      simp only [hk,Bool.true_and,Holder.settle]
      cases (zero h).1.isEmpty <;> rfl
    · have hk : decide (h.owner = owner) = false := decide_eq_false ho
      rw [if_neg ho,if_neg ho]
      simp only [hk,Bool.false_and,Bool.not_false,if_true]

theorem take_cases (key : AdvisoryKey) (owner : SessionId) (scope : AdvisoryScope) (maxPerSession : Nat) :
    (∃ h, m.locks.lookup key = some h ∧ h.owner ≠ owner ∧ m.take key owner scope maxPerSession = none) ∨
    (∃ message, m.locks.lookup key = none ∧ m.take key owner scope maxPerSession = some (m,.error message)) ∨
    ∃ h : Holder, h.owner = owner ∧ (m.locks.lookup key = some h ∨ m.locks.lookup key = none ∧ h = .new owner) ∧
      m.take key owner scope maxPerSession = some (refreshCounters (m.locks.insert key (h.bump scope)),.ok ()) := by
  unfold AdvisoryLockManager.take
  cases hlk : m.locks.lookup key with
  | none =>
    cases hq : checkQuota m.locks owner maxPerSession with
    | none => exact .inr (.inr ⟨.new owner,rfl,.inr ⟨rfl,rfl⟩,rfl⟩)
    | some message => exact .inr (.inl ⟨message,rfl,rfl⟩)
  | some h =>
    by_cases ho : h.owner = owner
    · exact .inr (.inr ⟨h,ho,.inl rfl,by simp only [if_pos ho]⟩)
    · exact .inl ⟨h,rfl,ho,by simp only [if_neg ho]⟩

end

/-- The entry of a key and the books on it. Nothing is subtracted: a counter that had gone below
zero would break the sum. -/
def Matches : Option Tally → Option Holder → Prop
  | none, none => True
  | some t, some h => h.owner = t.owner ∧ (∀ scope, h.count scope + t.released scope = t.granted scope) ∧ h.isEmpty = false
  | _, _ => False

structure Balanced (m : AdvisoryLockManager) (l : Ledger) : Prop where
  holders : ∀ key, Matches (l key) (m.locks.lookup key)
  entries : m.entries = m.locks.entries.length
  xactEntries : m.xactEntries = (m.locks.entries.filter fun entry => decide (0 < entry.2.xactCount)).length

variable {h : Holder} {l : Ledger} {m : AdvisoryLockManager}
variable {t : Tally} {locks : Locks} {key : AdvisoryKey} {scopes : AdvisoryScope → Bool}

theorem Matches.settle (ho : h.owner = t.owner)
    (hc : ∀ scope, h.count scope + t.released scope = t.granted scope) : Matches t.settle h.settle := by
  have hs : h.sessionCount + t.released .session = t.granted .session := hc .session
  have hx : h.xactCount + t.released .transaction = t.granted .transaction := hc .transaction
  unfold Tally.settle Holder.settle
  by_cases he : h.isEmpty = true
  · have hz : h.sessionCount = 0 ∧ h.xactCount = 0 := by simpa [Holder.isEmpty] using he
    rw [hz.1] at hs
    rw [hz.2] at hx
    rw [if_pos he,if_pos ⟨by omega,by omega⟩]
    trivial
  · have hne : h.isEmpty = false := Bool.eq_false_iff.mpr he
    rw [if_neg he,if_neg]
    · exact ⟨ho,hc,hne⟩
    · rintro ⟨hs',hx'⟩
      refine he ?_
      simp only [Holder.isEmpty,Bool.and_eq_true,beq_iff_eq]
      omega

theorem Matches.bind_settle {t : Option Tally} {h : Option Holder} (hm : Matches t h) (owner : SessionId)
    {f : Tally → Tally} {g : Holder → Holder} (hf : ∀ t, (f t).owner = t.owner) (hg : ∀ h, (g h).owner = h.owner)
    (hc : ∀ t h, (∀ scope, h.count scope + t.released scope = t.granted scope) →
      ∀ scope, (g h).count scope + (f t).released scope = (f t).granted scope) :
    Matches (t.bind fun t => if t.owner = owner then (f t).settle else some t)
      (h.bind fun h => if h.owner = owner then (g h).settle else some h) := by
  rcases t with _ | t <;> rcases h with _ | h
  · trivial
  · exact hm.elim
  · exact hm.elim
  obtain ⟨ho,hs,he⟩ := hm
  simp only [Option.bind_some,ho]
  split
  next => exact Matches.settle ((hg h).trans (ho.trans (hf t).symm)) (hc t h hs)
  next => exact ⟨ho,hs,he⟩

theorem Matches.release {lowered : Holder} {scope : AdvisoryScope} (ho : h.owner = t.owner)
    (hsm : ∀ scope, h.count scope + t.released scope = t.granted scope) (hsame : lowered.owner = h.owner)
    (hlw : ∀ s, lowered.count s + (if s = scope then 1 else 0) = h.count s) :
    Matches (t.release scope).settle lowered.settle := by
  refine Matches.settle (hsame.trans ho) fun s => ?_
  have hs := hsm s
  have hl := hlw s
  change lowered.count s + Function.update t.released scope (t.released scope + 1) s = t.granted s
  by_cases heq : s = scope
  · subst heq
    rw [update_self]
    rw [if_pos rfl] at hl
    omega
  · rw [update_of_ne heq]
    rw [if_neg heq] at hl
    omega

theorem balanced_refresh (h : ∀ key, Matches (l key) (locks.lookup key)) : Balanced (.refreshCounters locks) l := ⟨h,rfl,rfl⟩

theorem Balanced.grant (hb : Balanced m l) {owner : SessionId} (scope : AdvisoryScope) (ho : h.owner = owner)
    (hh : m.locks.lookup key = some h ∨ m.locks.lookup key = none ∧ h = .new owner) :
    Balanced (.refreshCounters (m.locks.insert key (h.bump scope))) (l.grant key owner scope) := by
  refine balanced_refresh fun k => ?_
  rw [Map.lookup_insert_ite]
  by_cases hk : k = key
  · subst hk
    rw [if_pos rfl,Ledger.grant,update_self]
    have hm := hb.holders k
    -- the tally the grant is entered in
    obtain ⟨t,ht,htl,hsm⟩ : ∃ t : Tally, (match l k with
        | some t => if t.owner = owner then t.grant scope else (Tally.new owner).grant scope
        | none => (Tally.new owner).grant scope) = t.grant scope ∧ t.owner = owner ∧
        ∀ scope, h.count scope + t.released scope = t.granted scope := by
      rcases hh with hlk | ⟨hlk,rfl⟩
      · rw [hlk] at hm
        cases hl : l k with
        | none =>
          rw [hl] at hm
          exact hm.elim
        | some t =>
          rw [hl] at hm
          obtain ⟨hsame,hsm,-⟩ := hm
          exact ⟨t,if_pos (hsame.symm.trans ho),hsame.symm.trans ho,hsm⟩
      · rw [hlk] at hm
        cases hl : l k with
        | none => exact ⟨.new owner,rfl,rfl,fun scope => by cases scope <;> rfl⟩
        | some t =>
          rw [hl] at hm
          exact hm.elim
    rw [ht]
    refine ⟨?_,fun s => ?_,?_⟩
    · rw [show (h.bump scope).owner = h.owner by cases scope <;> rfl,ho]
      exact htl.symm
    · have hs := hsm s
      cases scope <;> cases s <;> simp_all [Holder.bump,Holder.count,Tally.grant] <;> omega
    · cases scope <;> simp [Holder.bump,Holder.isEmpty]
  · rw [if_neg hk,Ledger.grant,update_of_ne hk]
    exact hb.holders k

theorem Balanced.unlock (hb : Balanced m l) (key : AdvisoryKey) (owner : SessionId) :
    Balanced (m.unlock key owner).1 (l.record (.unlock key owner) (m.unlock key owner).2) := by
  unfold AdvisoryLockManager.unlock
  cases hlk : m.locks.lookup key with
  | none => exact hb
  | some h =>
    simp only
    split
    next hh =>
      obtain ⟨ho,hp⟩ := hh
      refine balanced_refresh fun k => ?_
      rw [lookup_store]
      have hm := hb.holders key
      rw [hlk] at hm
      change Matches (l.release key owner .session k) _
      unfold Ledger.release
      by_cases hk : k = key
      · subst hk
        rw [if_pos rfl,update_self]
        cases hl : l k with
        | none =>
          rw [hl] at hm
          exact hm.elim
        | some t =>
          rw [hl] at hm
          obtain ⟨hsame,hs,-⟩ := hm
          rw [Option.bind_some,if_pos (hsame.symm.trans ho)]
          refine Matches.release hsame hs rfl fun s => ?_
          cases s
          · exact Nat.sub_add_cancel hp
          · rfl
      · rw [if_neg hk,update_of_ne hk]
        exact hb.holders k
    next => exact hb

theorem Balanced.releaseMatching (hb : Balanced m l) (owner : SessionId)
    {zero : Holder → Holder × Nat} (ho : ∀ h, (zero h).1.owner = h.owner)
    (hz : ∀ h s, (zero h).1.count s = if scopes s then 0 else h.count s) :
    Balanced (m.releaseMatching owner zero).1 (l.releaseAll owner scopes) := by
  refine ⟨fun key => ?_,rfl,rfl⟩
  rw [lookup_releaseMatching m owner zero ho]
  refine Matches.bind_settle (hb.holders key) owner (fun _ => rfl) ho fun t h hsm s => ?_
  have hs := hsm s
  rw [hz]
  change _ + (if scopes s then t.granted s else t.released s) = t.granted s
  split
  next => omega
  next => exact hs

theorem Balanced.releaseKey (hb : ∀ key, Matches (l key) (locks.lookup key)) (owner : SessionId)
    (freed : Nat) (key : AdvisoryKey) (k : AdvisoryKey) :
    Matches (l.releaseListed owner key k) ((AdvisoryLockManager.releaseKey owner (locks,freed) key).1.lookup k) := by
  have hm := hb key
  unfold Ledger.releaseListed AdvisoryLockManager.releaseKey
  cases hlk : locks.lookup key with
  | none =>
    rw [hlk] at hm
    cases hl : l key with
    | none => exact hb k
    | some t =>
      rw [hl] at hm
      exact hm.elim
  | some h =>
    rw [hlk] at hm
    cases hl : l key with
    | none =>
      rw [hl] at hm
      exact hm.elim
    | some t =>
      rw [hl] at hm
      obtain ⟨hsame,hs,-⟩ := hm
      have hx : h.xactCount + t.released .transaction = t.granted .transaction := hs .transaction
      by_cases hh : h.owner = owner ∧ 0 < h.xactCount
      · obtain ⟨ho,hp⟩ := hh
        have hkp : ¬(h.owner ≠ owner ∨ h.xactCount = 0) := by
          rintro (hne | hz)
          · exact hne ho
          · omega
        simp only [if_neg hkp]
        rw [if_pos ⟨hsame.symm.trans ho,by omega⟩,lookup_store,Ledger.release]
        by_cases hk : k = key
        · subst hk
          rw [if_pos rfl,update_self,hl,Option.bind_some,if_pos (hsame.symm.trans ho)]
          refine Matches.release hsame hs rfl fun s => ?_
          cases s
          · rfl
          · exact Nat.sub_add_cancel hp
        · rw [if_neg hk,update_of_ne hk]
          exact hb k
      · have hkp : h.owner ≠ owner ∨ h.xactCount = 0 := by
          by_contra hno
          rw [not_or,not_not] at hno
          exact hh ⟨hno.1,Nat.pos_of_ne_zero hno.2⟩
        simp only [if_pos hkp]
        rw [if_neg]
        · exact hb k
        · rintro ⟨ho,hlt⟩
          exact hh ⟨hsame.trans ho,by omega⟩

variable (hb : Balanced m l)
include hb

theorem Balanced.releaseTransactionKeys (owner : SessionId) (keys : List AdvisoryKey) :
    Balanced (m.releaseTransactionKeys owner keys).1 (keys.foldl (Ledger.releaseListed owner) l) := by
  have hf : ∀ (keys : List AdvisoryKey) (locks : Locks) (l : Ledger) (freed : Nat),
      (∀ key, Matches (l key) (locks.lookup key)) → ∀ k, Matches (keys.foldl (Ledger.releaseListed owner) l k)
        ((keys.foldl (AdvisoryLockManager.releaseKey owner) (locks,freed)).1.lookup k) := by
    intro keys
    induction keys with
    | nil => exact fun locks l freed h => h
    | cons key rest ih =>
      intro locks l freed h
      exact ih _ _ _ (Balanced.releaseKey h owner freed key)
  unfold AdvisoryLockManager.releaseTransactionKeys
  cases keys with
  | nil => exact hb
  | cons key rest => exact balanced_refresh (hf (key::rest) m.locks l 0 hb.holders)

theorem Balanced.releaseAll_idle (owner : SessionId)
    (hi : ∀ key h, m.locks.lookup key = some h → ∀ s, scopes s = true → h.count s = 0) : l.releaseAll owner scopes = l := by
  funext key
  have hm := hb.holders key
  unfold Ledger.releaseAll
  cases hl : l key with
  | none => rfl
  | some t =>
    rw [hl] at hm
    cases hlk : m.locks.lookup key with
    | none =>
      rw [hlk] at hm
      exact hm.elim
    | some h =>
      rw [hlk] at hm
      obtain ⟨-,hsm,he⟩ := hm
      have hsame : t.releaseAll scopes = t := by
        unfold Tally.releaseAll
        congr 1
        funext s
        split
        next hs =>
          have hz := hi key h hlk s hs
          have hc := hsm s
          omega
        next => rfl
      have hk : t.settle = some t := by
        unfold Tally.settle
        rw [if_neg]
        rintro ⟨hs,hx⟩
        have hsc : h.sessionCount + t.released .session = t.granted .session := hsm .session
        have hxc : h.xactCount + t.released .transaction = t.granted .transaction := hsm .transaction
        rw [Holder.isEmpty,Bool.and_eq_false_iff,beq_eq_false_iff_ne,beq_eq_false_iff_ne] at he
        omega
      rw [Option.bind_some,hsame,hk,ite_self]

theorem Balanced.take (key : AdvisoryKey) (owner : SessionId) (scope : AdvisoryScope) (maxPerSession : Nat) :
    (∃ h, m.locks.lookup key = some h ∧ h.owner ≠ owner ∧ m.take key owner scope maxPerSession = none) ∨
    (∃ message, m.take key owner scope maxPerSession = some (m,.error message)) ∨
    ∃ m', m.take key owner scope maxPerSession = some (m',.ok ()) ∧ Balanced m' (l.grant key owner scope) ∧
      ∀ t, l key = some t → t.owner = owner := by
  rcases take_cases m key owner scope maxPerSession with hoh | ⟨message,-,heq⟩ | ⟨h,ho,hh,heq⟩
  · exact .inl hoh
  · exact .inr (.inl ⟨message,heq⟩)
  refine .inr (.inr ⟨_,heq,hb.grant scope ho hh,fun t ht => ?_⟩)
  have hm := hb.holders key
  rw [ht] at hm
  rcases hh with hlk | ⟨hlk,-⟩
  · rw [hlk] at hm
    exact hm.1.symm.trans ho
  · rw [hlk] at hm
    exact hm.elim

theorem Balanced.xactCount_eq_zero
    (hn : ¬m.hasTransactionLocks = true) (hlk : m.locks.lookup key = some h) : h.xactCount = 0 := by
  rw [AdvisoryLockManager.hasTransactionLocks,decide_eq_true_eq,Nat.pos_iff_ne_zero,not_not,hb.xactEntries,
    length_eq_zero_iff,filter_eq_nil_iff] at hn
  have hz := hn ⟨key,h⟩ (AList.mem_lookup_iff.mp hlk)
  rw [decide_eq_true_eq] at hz
  exact Nat.eq_zero_of_not_pos hz

theorem Balanced.lookup_eq_none (hn : ¬m.hasLocks = true) (key : AdvisoryKey) : m.locks.lookup key = none := by
  rw [AdvisoryLockManager.hasLocks,decide_eq_true_eq,Nat.pos_iff_ne_zero,not_not,hb.entries,
    length_eq_zero_iff] at hn
  cases hlk : m.locks.lookup key with
  | none => rfl
  | some h =>
    have hm := AList.mem_lookup_iff.mp hlk
    rw [hn] at hm
    cases hm

omit hb

def AdvisoryCall.grants : AdvisoryCall → Option (AdvisoryKey × SessionId)
  | .tryAcquire key owner _ _ | .acquireTurn key owner _ _ _ => some (key,owner)
  | _ => none

theorem Balanced.perform (hb : Balanced m l) (call : AdvisoryCall) :
    Balanced (call.perform m).1 (l.record call (call.perform m).2) ∧
      ∀ key owner, call.grants = some (key,owner) → (call.perform m).2 = true → ∀ t, l key = some t → t.owner = owner := by
  cases call with
  | tryAcquire key owner scope maxPerSession =>
    rcases hb.take key owner scope maxPerSession with ⟨h,-,-,heq⟩ | ⟨message,heq⟩ | ⟨m',heq,hgr,hf⟩
    · have hp : (AdvisoryCall.tryAcquire key owner scope maxPerSession).perform m = (m,false) := by
        simp only [AdvisoryCall.perform,AdvisoryLockManager.tryAcquire,heq]
        rfl
      rw [hp]
      exact ⟨hb,nofun⟩
    · have hp : (AdvisoryCall.tryAcquire key owner scope maxPerSession).perform m = (m,false) := by
        simp only [AdvisoryCall.perform,AdvisoryLockManager.tryAcquire,heq]
        rfl
      rw [hp]
      exact ⟨hb,nofun⟩
    · have hp : (AdvisoryCall.tryAcquire key owner scope maxPerSession).perform m = (m',true) := by
        simp only [AdvisoryCall.perform,AdvisoryLockManager.tryAcquire,heq]
        rfl
      rw [hp]
      refine ⟨hgr,fun key' owner' hg _ => ?_⟩
      cases hg
      exact hf
  | acquireTurn key owner scope expired maxPerSession =>
    rcases hb.take key owner scope maxPerSession with ⟨h,-,-,heq⟩ | ⟨message,heq⟩ | ⟨m',heq,hgr,hf⟩
    · have hp : (AdvisoryCall.acquireTurn key owner scope expired maxPerSession).perform m = (m,false) := by
        simp only [AdvisoryCall.perform,AdvisoryLockManager.acquireTurn,heq]
        cases expired <;> rfl
      rw [hp]
      exact ⟨hb,nofun⟩
    · have hp : (AdvisoryCall.acquireTurn key owner scope expired maxPerSession).perform m = (m,false) := by
        simp only [AdvisoryCall.perform,AdvisoryLockManager.acquireTurn,heq]
        rfl
      rw [hp]
      exact ⟨hb,nofun⟩
    · have hp : (AdvisoryCall.acquireTurn key owner scope expired maxPerSession).perform m = (m',true) := by
        simp only [AdvisoryCall.perform,AdvisoryLockManager.acquireTurn,heq]
        rfl
      rw [hp]
      refine ⟨hgr,fun key' owner' hg _ => ?_⟩
      cases hg
      exact hf
  | unlock key owner => exact ⟨hb.unlock key owner,nofun⟩
  | unlockAll owner | releaseTransaction owner | releaseSession owner =>
    exact ⟨hb.releaseMatching owner (fun _ => rfl) (fun h s => by cases s <;> rfl),nofun⟩
  | releaseTransactionKeys owner keys =>
    exact ⟨hb.releaseTransactionKeys owner keys,nofun⟩
  | transactionEnds owner =>
    refine ⟨?_,nofun⟩
    change Balanced (if m.hasTransactionLocks = true then (m.releaseTransaction owner).1 else m)
      (l.releaseAll owner (· == .transaction))
    split
    next => exact hb.releaseMatching owner (fun _ => rfl) (fun h s => by cases s <;> rfl)
    next hn =>
      rw [hb.releaseAll_idle owner fun key h hlk s hs => ?_]
      · exact hb
      · rw [eq_of_beq hs]
        exact hb.xactCount_eq_zero hn hlk
  | connectionEnds owner =>
    refine ⟨?_,nofun⟩
    change Balanced (if m.hasLocks = true then (m.releaseSession owner).1 else m) (l.releaseAll owner fun _ => true)
    split
    next => exact hb.releaseMatching owner (fun _ => rfl) (fun h s => by cases s <;> rfl)
    next hn =>
      rw [hb.releaseAll_idle owner fun key h hlk s hs => ?_]
      · exact hb
      · rw [hb.lookup_eq_none hn key] at hlk
        cases hlk

end HeliosNano.Advisory
