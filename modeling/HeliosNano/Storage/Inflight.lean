import HeliosNano.Storage.Basics
import Mathlib.Order.Interval.Finset.Nat

namespace HeliosNano.Storage
open List Finset

def inflightRingSize : Nat := 4096

/-- A slot is empty, pending (odd) or applied. Timestamps start at one and stay below
`2^63`, so the shift loses nothing. -/
def slotEmpty : Nat := 0
def slotPending (ts : Timestamp) : Nat := 2*ts+1
def slotApplied (ts : Timestamp) : Nat := 2*ts
def slotIsPending (v : Nat) : Bool := v%2 == 1
def slotTs (v : Nat) : Timestamp := v/2

/-- The in-flight part of the registry. The hint is the last announcement of the
calling thread in this registry, with its sequence number. -/
structure InflightLedger where
  ring : Nat → Nat
  head : Nat
  tail : Nat
  pendingCount : Nat
  appliedWatermark : Timestamp
  lastBeginHint : Option (Timestamp × Nat)

namespace InflightLedger

def new : InflightLedger := ⟨fun _ => slotEmpty,0,0,0,0,none⟩

def slot (l : InflightLedger) (seq : Nat) : Nat := l.ring (seq%inflightRingSize)

def store (l : InflightLedger) (seq v : Nat) : InflightLedger :=
  { l with ring := fun i => if i = seq%inflightRingSize then v else l.ring i }

/-- The applied slot at the tail is given back and the watermark raised to it. -/
def reclaimOne (l : InflightLedger) : InflightLedger :=
  { l.store l.tail slotEmpty with
    tail := l.tail+1
    appliedWatermark := max l.appliedWatermark (slotTs (l.slot l.tail)) }

/-- The contiguous applied prefix is reclaimed, at most so many slots of it. -/
def reclaim : Nat → InflightLedger → InflightLedger
  | 0, l => l
  | n+1, l =>
    if l.tail = l.head then l
    else if l.slot l.tail = slotEmpty ∨ slotIsPending (l.slot l.tail) = true then l
    else reclaim n l.reclaimOne

def tryReclaim (l : InflightLedger) : InflightLedger := l.reclaim (l.head-l.tail)

/-- `none` while the ring has no room. -/
def beginCommit (l : InflightLedger) (commitTs : Timestamp) : Option InflightLedger :=
  let l := if inflightRingSize ≤ l.head-l.tail then l.tryReclaim else l
  if inflightRingSize ≤ l.head-l.tail then none
  else some { l.store l.head (slotPending commitTs) with
    pendingCount := l.pendingCount+1
    head := l.head+1
    lastBeginHint := some (commitTs,l.head) }

def hintedSlot (l : InflightLedger) (commitTs : Timestamp) : Option Nat :=
  match l.lastBeginHint with
  | some (ts,seq) => if ts = commitTs ∧ l.slot seq = slotPending commitTs then some seq else none
  | none => none

/-- The slot of a pending commit: at the hint, or by a scan of the window. -/
def findPending (l : InflightLedger) (commitTs : Timestamp) : Option Nat :=
  match l.hintedSlot commitTs with
  | some seq => some seq
  | none => (List.range' l.tail (l.head-l.tail)).find? fun seq => l.slot seq == slotPending commitTs

/-- An unknown or ended commit is no error. -/
def endCommit (l : InflightLedger) (commitTs : Timestamp) : InflightLedger :=
  match l.findPending commitTs with
  | some seq => { l.store seq (slotApplied commitTs) with pendingCount := l.pendingCount-1 }.tryReclaim
  | none => l

/-- The first pending slot of the window decides: later ones carry later timestamps. -/
def hasPendingAtOrBelow (l : InflightLedger) (snapshotTs : Timestamp) : Bool :=
  match (List.range' l.tail (l.head-l.tail)).find? fun seq => slotIsPending (l.slot seq) with
  | some seq => decide (slotTs (l.slot seq) ≤ snapshotTs)
  | none => false

/-- Whether the barrier lets the snapshot through without waiting. -/
def snapshotBarrier (l : InflightLedger) (snapshotTs : Timestamp) : Bool :=
  l.pendingCount == 0 || decide (snapshotTs ≤ l.appliedWatermark) || !l.hasPendingAtOrBelow snapshotTs

/-- The commit is announced and has not ended. -/
def Pending (l : InflightLedger) (ts : Timestamp) : Prop :=
  ∃ seq, l.tail ≤ seq ∧ seq < l.head ∧ l.slot seq = slotPending ts

/-- The window lies in the ring and has all its entries, in timestamp order above
the watermark. -/
structure Wf (l : InflightLedger) : Prop where
  ordered : l.tail ≤ l.head
  room : l.head ≤ l.tail+inflightRingSize
  nonempty : ∀ seq, l.tail ≤ seq → seq < l.head → l.slot seq ≠ slotEmpty
  increasing : ∀ a b, l.tail ≤ a → a < b → b < l.head → slotTs (l.slot a) < slotTs (l.slot b)
  above : ∀ seq, l.tail ≤ seq → seq < l.head → l.appliedWatermark < slotTs (l.slot seq)
  counted : l.pendingCount = ((Finset.Ico l.tail l.head).filter fun seq => slotIsPending (l.slot seq)).card
  cleared : ∀ i, l.ring i ≠ slotEmpty → ∃ seq, l.tail ≤ seq ∧ seq < l.head ∧ seq%inflightRingSize = i

theorem wf_new : new.Wf where
  ordered := le_rfl
  room := Nat.zero_le _
  nonempty seq _ h := absurd h (Nat.not_lt_zero seq)
  increasing _ b _ _ h := absurd h (Nat.not_lt_zero b)
  above seq _ h := absurd h (Nat.not_lt_zero seq)
  counted := rfl
  cleared _ h := absurd rfl h

variable {l : InflightLedger}

theorem slot_store (seq seq' v : Nat) :
    (l.store seq v).slot seq' = if seq'%inflightRingSize = seq%inflightRingSize then v else l.slot seq' := rfl

variable {a seq seq' : Nat} {ts : Timestamp}

theorem seq_unique {tail head b : Nat} (hr : head ≤ tail+inflightRingSize) (ha : tail ≤ a) (ha' : a < head)
    (hb : tail ≤ b) (hb' : b < head) (h : a%inflightRingSize = b%inflightRingSize) : a = b := by
  simp only [inflightRingSize] at hr h
  omega

theorem slot_store_window (h : l.Wf) (v : Nat) (hs : l.tail ≤ seq) (hs' : seq < l.head)
    (ht : l.tail ≤ seq') (ht' : seq' < l.head) : (l.store seq v).slot seq' = if seq' = seq then v else l.slot seq' := by
  rw [slot_store]
  by_cases he : seq' = seq
  · simp [he]
  · rw [if_neg he,if_neg fun hm => he (seq_unique h.room ht ht' hs hs' hm)]

theorem findPending_some (h : l.Wf) (hf : l.findPending ts = some seq) :
    ∃ seq', l.tail ≤ seq' ∧ seq' < l.head ∧ seq'%inflightRingSize = seq%inflightRingSize ∧ l.slot seq' = slotPending ts := by
  have hsl : l.slot seq = slotPending ts := by
    unfold findPending at hf
    split at hf
    next hint =>
      cases hf
      unfold hintedSlot at hint
      split at hint
      · split at hint
        next hc =>
          cases hint
          exact hc.2
        · cases hint
      · cases hint
    · simpa using find?_some hf
  obtain ⟨seq',hs,hs',hm⟩ := h.cleared (seq%inflightRingSize) (by
    change l.slot seq ≠ slotEmpty
    rw [hsl]
    simp [slotPending,slotEmpty])
  refine ⟨seq',hs,hs',hm,?_⟩
  rw [← hsl,slot,slot,hm]

theorem findPending_none (hf : l.findPending ts = none) : ¬l.Pending ts := by
  rintro ⟨seq,hs,hs',hsl⟩
  unfold findPending at hf
  split at hf
  · cases hf
  rw [find?_eq_none] at hf
  refine hf seq ?_ (by simp [hsl])
  rw [mem_range'_1]
  omega

theorem slotIsPending_iff (v : Nat) : slotIsPending v = true ↔ ∃ ts, v = slotPending ts := by
  simp only [slotIsPending,slotPending,beq_iff_eq]
  constructor
  · intro h
    exact ⟨v/2,by omega⟩
  · rintro ⟨ts,rfl⟩
    omega

theorem slotTs_slotPending (ts : Nat) : slotTs (slotPending ts) = ts := by
  change (2*ts+1) / 2 = ts
  omega

theorem slotTs_slotApplied (ts : Nat) : slotTs (slotApplied ts) = ts := by
  change 2 * ts/2 = ts
  omega

variable (h : l.Wf)
include h

theorem Wf.slot_unique {b : Nat} (ha : l.tail ≤ a) (ha' : a < l.head) (hb : l.tail ≤ b)
    (hb' : b < l.head) (he : slotTs (l.slot a) = slotTs (l.slot b)) : a = b := by
  rcases Nat.lt_trichotomy a b with hlt | heq | hlt
  · exact absurd he (Nat.ne_of_lt (h.increasing a b ha hlt hb'))
  · exact heq
  · exact absurd he.symm (Nat.ne_of_lt (h.increasing b a hb hlt ha'))

theorem Wf.slotTs_mark (hs : l.tail ≤ seq') (hs' : seq' < l.head)
    (hm : seq'%inflightRingSize = seq%inflightRingSize) (hsl : l.slot seq' = slotPending ts)
    (ha : l.tail ≤ a) (ha' : a < l.head) : slotTs ((l.store seq (slotApplied ts)).slot a) = slotTs (l.slot a) := by
  have hst : l.store seq (slotApplied ts) = l.store seq' (slotApplied ts) := by
    simp only [store,hm]
  rw [hst,slot_store_window h _ hs hs' ha ha']
  split
  next he =>
    rw [he,hsl,slotTs_slotApplied,slotTs_slotPending]
  · rfl

theorem Wf.mark (hs : l.tail ≤ seq') (hs' : seq' < l.head)
    (hm : seq'%inflightRingSize = seq%inflightRingSize) (hsl : l.slot seq' = slotPending ts) (hps : 0 < ts) :
    Wf { l.store seq (slotApplied ts) with pendingCount := l.pendingCount-1 } ∧
      ∀ t, Pending { l.store seq (slotApplied ts) with pendingCount := l.pendingCount-1 } t ↔ l.Pending t ∧ t ≠ ts := by
  have hst : l.store seq (slotApplied ts) = l.store seq' (slotApplied ts) := by
    simp only [store,hm]
  rw [hst]
  have hr : ∀ a, l.tail ≤ a → a < l.head →
      (l.store seq' (slotApplied ts)).slot a = if a = seq' then slotApplied ts else l.slot a :=
    fun a ha ha' => slot_store_window h _ hs hs' ha ha'
  have hts : ∀ a, l.tail ≤ a → a < l.head →
      slotTs ((l.store seq' (slotApplied ts)).slot a) = slotTs (l.slot a) :=
    fun a ha ha' => h.slotTs_mark hs hs' rfl hsl ha ha'
  constructor
  · refine ⟨h.ordered,h.room,?_,?_,?_,?_,?_⟩
    · intro a ha ha'
      change (l.store seq' (slotApplied ts)).slot a ≠ slotEmpty
      rw [hr a ha ha']
      split
      · simp only [slotApplied,slotEmpty]
        exact Nat.mul_ne_zero (by decide) (Nat.pos_iff_ne_zero.mp hps)
      · exact h.nonempty a ha ha'
    · intro a b ha hab hb
      change slotTs ((l.store seq' (slotApplied ts)).slot a) < slotTs ((l.store seq' (slotApplied ts)).slot b)
      rw [hts a ha (hab.trans hb),hts b (ha.trans hab.le) hb]
      exact h.increasing a b ha hab hb
    · intro a ha ha'
      change l.appliedWatermark < slotTs ((l.store seq' (slotApplied ts)).slot a)
      rw [hts a ha ha']
      exact h.above a ha ha'
    · change l.pendingCount - 1 = ((Finset.Ico l.tail l.head).filter fun a =>
        slotIsPending ((l.store seq' (slotApplied ts)).slot a)).card
      have hf : ((Finset.Ico l.tail l.head).filter fun a =>
          slotIsPending ((l.store seq' (slotApplied ts)).slot a) = true) =
          ((Finset.Ico l.tail l.head).filter fun a => slotIsPending (l.slot a) = true).erase seq' := by
        ext a
        simp only [Finset.mem_filter,Finset.mem_Ico,Finset.mem_erase]
        constructor
        · rintro ⟨⟨ha,ha'⟩,hp⟩
          rw [hr a ha ha'] at hp
          split at hp
          · simp [slotIsPending,slotApplied] at hp
          next hne =>
            exact ⟨hne,⟨ha,ha'⟩,hp⟩
        · rintro ⟨hne,⟨ha,ha'⟩,hp⟩
          rw [hr a ha ha',if_neg hne]
          exact ⟨⟨ha,ha'⟩,hp⟩
      rw [hf,Finset.card_erase_of_mem,← h.counted]
      rw [Finset.mem_filter,Finset.mem_Ico]
      exact ⟨⟨hs,hs'⟩,(slotIsPending_iff _).mpr ⟨ts,hsl⟩⟩
    · intro i hi
      change (if i = seq'%inflightRingSize then slotApplied ts else l.ring i) ≠ slotEmpty at hi
      split at hi
      next he =>
        exact ⟨seq',hs,hs',he.symm⟩
      · exact h.cleared i hi
  · intro t
    constructor
    · rintro ⟨a,ha,ha',hp⟩
      change (l.store seq' (slotApplied ts)).slot a = slotPending t at hp
      rw [hr a ha ha'] at hp
      split at hp
      · simp only [slotApplied,slotPending] at hp
        exact absurd hp (by omega)
      next hne =>
        refine ⟨⟨a,ha,ha',hp⟩,fun he => hne (h.slot_unique ha ha' hs hs' ?_)⟩
        rw [hp,hsl,he]
    · rintro ⟨⟨a,ha,ha',hp⟩,hne⟩
      refine ⟨a,ha,ha',?_⟩
      change (l.store seq' (slotApplied ts)).slot a = slotPending t
      rw [hr a ha ha',if_neg]
      · exact hp
      · rintro rfl
        apply hne
        rw [← slotTs_slotPending t,← hp,hsl,slotTs_slotPending]

theorem Wf.reclaimOne (hlt : l.tail ≠ l.head) (hv : ¬slotIsPending (l.slot l.tail) = true) :
    l.reclaimOne.Wf ∧ ∀ t, l.reclaimOne.Pending t ↔ l.Pending t := by
  have hlt : l.tail < l.head := Nat.lt_of_le_of_ne h.ordered hlt
  have hr : ∀ a, l.tail+1 ≤ a → a < l.head → l.reclaimOne.slot a = l.slot a := by
    intro a ha ha'
    change (l.store l.tail slotEmpty).slot a = l.slot a
    rw [slot_store_window h _ le_rfl hlt (by omega) ha',if_neg (by omega)]
  constructor
  · refine ⟨hlt,?_,?_,?_,?_,?_,?_⟩
    · have := h.room
      change l.head ≤ l.tail+1+inflightRingSize
      omega
    · intro a ha ha'
      rw [hr a ha ha']
      exact h.nonempty a (Nat.le_of_succ_le ha) ha'
    · intro a b ha hab hb
      rw [hr a ha (hab.trans hb),hr b (ha.trans hab.le) hb]
      exact h.increasing a b (Nat.le_of_succ_le ha) hab hb
    · intro a ha ha'
      rw [hr a ha ha']
      exact max_lt (h.above a (Nat.le_of_succ_le ha) ha') (h.increasing l.tail a le_rfl ha ha')
    · change l.pendingCount = _
      rw [h.counted]
      congr 1
      ext a
      simp only [Finset.mem_filter,Finset.mem_Ico]
      constructor
      · rintro ⟨⟨ha,ha'⟩,hp⟩
        have hne : a ≠ l.tail := by
          rintro rfl
          exact hv hp
        have ha1 : l.tail+1 ≤ a := by omega
        rw [hr a ha1 ha']
        exact ⟨⟨ha1,ha'⟩,hp⟩
      · rintro ⟨⟨ha,ha'⟩,hp⟩
        rw [hr a ha ha'] at hp
        exact ⟨⟨Nat.le_of_succ_le ha,ha'⟩,hp⟩
    · intro i hi
      change (if i = l.tail%inflightRingSize then slotEmpty else l.ring i) ≠ slotEmpty at hi
      split at hi
      · exact absurd rfl hi
      next hne =>
        obtain ⟨seq,hs,hs',hm⟩ := h.cleared i hi
        refine ⟨seq,Nat.lt_of_le_of_ne hs ?_,hs',hm⟩
        rintro rfl
        exact hne hm.symm
  · intro t
    constructor
    · rintro ⟨a,ha,ha',hp⟩
      rw [hr a ha ha'] at hp
      exact ⟨a,Nat.le_of_succ_le ha,ha',hp⟩
    · rintro ⟨a,ha,ha',hp⟩
      have hne : a ≠ l.tail := by
        rintro rfl
        exact hv ((slotIsPending_iff _).mpr ⟨t,hp⟩)
      have ha1 : l.tail+1 ≤ a := by omega
      exact ⟨a,ha1,ha',by rw [hr a ha1 ha',hp]⟩

theorem Wf.reclaim (n : Nat) : (l.reclaim n).Wf ∧ ∀ t, (l.reclaim n).Pending t ↔ l.Pending t := by
  induction n generalizing l with
  | zero => exact ⟨h,fun t => Iff.rfl⟩
  | succ n ih =>
    rw [InflightLedger.reclaim]
    split
    · exact ⟨h,fun t => Iff.rfl⟩
    next hne =>
      split
      · exact ⟨h,fun t => Iff.rfl⟩
      next hv =>
        obtain ⟨hwf,hp⟩ := h.reclaimOne hne fun hv' => hv (.inr hv')
        obtain ⟨hwf',hp'⟩ := ih hwf
        exact ⟨hwf',fun t => (hp' t).trans (hp t)⟩

theorem Wf.pos_of_pending (hp : l.Pending ts) : 0 < ts := by
  obtain ⟨seq,hs,hs',hsl⟩ := hp
  have := h.above seq hs hs'
  rw [hsl,slotTs_slotPending] at this
  exact Nat.zero_lt_of_lt this

omit h

/-- Every announced timestamp so far is below this one. -/
def Below (l : InflightLedger) (ts : Timestamp) : Prop :=
  l.appliedWatermark < ts ∧ ∀ seq, l.tail ≤ seq → seq < l.head → slotTs (l.slot seq) < ts

variable (h : l.Wf)
include h

theorem Below.reclaim (hb : l.Below ts) (n : Nat) : (l.reclaim n).Below ts := by
  induction n generalizing l with
  | zero => exact hb
  | succ n ih =>
    rw [InflightLedger.reclaim]
    split
    · exact hb
    next hne =>
      split
      · exact hb
      next hv =>
        obtain ⟨hwf,-⟩ := h.reclaimOne hne fun hv' => hv (.inr hv')
        have hlt : l.tail < l.head := Nat.lt_of_le_of_ne h.ordered hne
        refine ih hwf ⟨max_lt hb.1 (hb.2 l.tail le_rfl hlt),fun a ha ha' => ?_⟩
        change slotTs ((l.store l.tail slotEmpty).slot a) < ts
        have ha1 : l.tail+1 ≤ a := ha
        rw [slot_store_window h _ le_rfl hlt (by omega) ha',if_neg (by omega)]
        exact hb.2 a (by omega) ha'

theorem Wf.announce (hb : l.Below ts) (hr : l.head-l.tail < inflightRingSize) : Wf { l.store l.head (slotPending ts) with
        pendingCount := l.pendingCount+1, head := l.head+1, lastBeginHint := some (ts,l.head) } ∧
      ∀ t, Pending { l.store l.head (slotPending ts) with
        pendingCount := l.pendingCount+1, head := l.head+1, lastBeginHint := some (ts,l.head) } t ↔
          l.Pending t ∨ t = ts := by
  have ho := h.ordered
  have hw : l.head+1 ≤ l.tail+inflightRingSize := by omega
  have hnew : (l.store l.head (slotPending ts)).slot l.head = slotPending ts := by simp [slot_store]
  have hold : ∀ a, l.tail ≤ a → a < l.head → (l.store l.head (slotPending ts)).slot a = l.slot a := by
    intro a ha ha'
    rw [slot_store,if_neg fun hm => ?_]
    exact absurd (seq_unique hw ha (by omega) ho (by omega) hm) (by omega)
  constructor
  · refine ⟨by change l.tail ≤ l.head+1; omega,hw,?_,?_,?_,?_,?_⟩
    · intro a ha ha'
      change (l.store l.head (slotPending ts)).slot a ≠ slotEmpty
      rcases Nat.lt_succ_iff_lt_or_eq.mp ha' with hlt | rfl
      · rw [hold a ha hlt]
        exact h.nonempty a ha hlt
      · rw [hnew]
        simp [slotPending,slotEmpty]
    · intro a b ha hab hb'
      change slotTs ((l.store l.head (slotPending ts)).slot a) < slotTs ((l.store l.head (slotPending ts)).slot b)
      rcases Nat.lt_succ_iff_lt_or_eq.mp hb' with hlt | rfl
      · rw [hold a ha (hab.trans hlt),hold b (ha.trans hab.le) hlt]
        exact h.increasing a b ha hab hlt
      · rw [hold a ha hab,hnew,slotTs_slotPending]
        exact hb.2 a ha hab
    · intro a ha ha'
      change l.appliedWatermark < slotTs ((l.store l.head (slotPending ts)).slot a)
      rcases Nat.lt_succ_iff_lt_or_eq.mp ha' with hlt | rfl
      · rw [hold a ha hlt]
        exact h.above a ha hlt
      · rw [hnew,slotTs_slotPending]
        exact hb.1
    · change l.pendingCount + 1 = ((Finset.Ico l.tail (l.head+1)).filter fun a =>
        slotIsPending ((l.store l.head (slotPending ts)).slot a)).card
      have hf : ((Finset.Ico l.tail (l.head+1)).filter fun a =>
          slotIsPending ((l.store l.head (slotPending ts)).slot a) = true) =
          insert l.head ((Finset.Ico l.tail l.head).filter fun a => slotIsPending (l.slot a) = true) := by
        ext a
        simp only [Finset.mem_filter,Finset.mem_Ico,Finset.mem_insert]
        constructor
        · rintro ⟨⟨ha,ha'⟩,hp⟩
          rcases Nat.lt_succ_iff_lt_or_eq.mp ha' with hlt | rfl
          · rw [hold a ha hlt] at hp
            exact .inr ⟨⟨ha,hlt⟩,hp⟩
          · exact .inl rfl
        · rintro (rfl | ⟨⟨ha,ha'⟩,hp⟩)
          · exact ⟨⟨ho,Nat.lt_succ_self _⟩,by rw [hnew]; exact (slotIsPending_iff _).mpr ⟨ts,rfl⟩⟩
          · rw [hold a ha ha']
            exact ⟨⟨ha,Nat.lt_succ_of_lt ha'⟩,hp⟩
      rw [hf,Finset.card_insert_of_notMem (by simp),h.counted]
    · intro i hi
      change (if i = l.head%inflightRingSize then slotPending ts else l.ring i) ≠ slotEmpty at hi
      split at hi
      next he =>
        exact ⟨l.head,ho,Nat.lt_succ_self _,he.symm⟩
      · obtain ⟨seq,hs,hs',hm⟩ := h.cleared i hi
        exact ⟨seq,hs,Nat.lt_succ_of_lt hs',hm⟩
  · intro t
    constructor
    · rintro ⟨a,ha,ha',hp⟩
      change (l.store l.head (slotPending ts)).slot a = slotPending t at hp
      rcases Nat.lt_succ_iff_lt_or_eq.mp ha' with hlt | rfl
      · rw [hold a ha hlt] at hp
        exact .inl ⟨a,ha,hlt,hp⟩
      · rw [hnew] at hp
        exact .inr (by rw [← slotTs_slotPending t,← hp,slotTs_slotPending])
    · rintro (⟨a,ha,ha',hp⟩ | rfl)
      · exact ⟨a,ha,Nat.lt_succ_of_lt ha',by change (l.store l.head _).slot a = _; rw [hold a ha ha',hp]⟩
      · exact ⟨l.head,ho,Nat.lt_succ_self _,hnew⟩

theorem Wf.beginCommit (hb : l.Below ts) {l' : InflightLedger}
    (hl : l.beginCommit ts = some l') : l'.Wf ∧ ∀ t, l'.Pending t ↔ l.Pending t ∨ t = ts := by
  simp only [InflightLedger.beginCommit] at hl
  by_cases hf : inflightRingSize ≤ l.head-l.tail
  · simp only [if_pos hf] at hl
    split at hl
    · cases hl
    next hr =>
      cases hl
      obtain ⟨hwf,hp⟩ := h.reclaim (l.head-l.tail)
      obtain ⟨hwf',hp'⟩ := hwf.announce (hb.reclaim h (l.head-l.tail)) (Nat.not_le.mp hr)
      exact ⟨hwf',fun t => (hp' t).trans (or_congr_left (hp t))⟩
  · simp only [if_neg hf] at hl
    cases hl
    exact h.announce hb (Nat.not_le.mp hf)

theorem Wf.endCommit (ts : Timestamp) : (l.endCommit ts).Wf ∧ ∀ t, (l.endCommit ts).Pending t ↔ l.Pending t ∧ t ≠ ts := by
  unfold InflightLedger.endCommit
  split
  next seq hf =>
    obtain ⟨seq',hs,hs',hm,hsl⟩ := findPending_some h hf
    obtain ⟨hwf,hp⟩ := h.mark hs hs' hm hsl (h.pos_of_pending ⟨seq',hs,hs',hsl⟩)
    obtain ⟨hwf',hp'⟩ := hwf.reclaim
      ({ l.store seq (slotApplied ts) with pendingCount := l.pendingCount-1 }.head -
        { l.store seq (slotApplied ts) with pendingCount := l.pendingCount-1 }.tail)
    exact ⟨hwf',fun t => (hp' t).trans (hp t)⟩
  next hf =>
    refine ⟨h,fun t => ⟨fun hp => ⟨hp,?_⟩,And.left⟩⟩
    rintro rfl
    exact findPending_none hf hp

theorem Wf.hasPendingAtOrBelow_iff (s : Timestamp) : l.hasPendingAtOrBelow s = true ↔ ∃ ts ≤ s, l.Pending ts := by
  unfold hasPendingAtOrBelow
  cases hf : (List.range' l.tail (l.head-l.tail)).find? fun seq => slotIsPending (l.slot seq) with
  | none =>
    simp only [Bool.false_eq_true,false_iff]
    rintro ⟨ts,-,seq,hs,hs',hsl⟩
    rw [find?_eq_none] at hf
    refine hf seq ?_ ((slotIsPending_iff _).mpr ⟨ts,hsl⟩)
    rw [mem_range'_1]
    omega
  | some first =>
    obtain ⟨hp,before,after,hsp,hbf⟩ := find?_eq_some_iff_append.mp hf
    have hm : first ∈ List.range' l.tail (l.head-l.tail) := by simp [hsp]
    rw [mem_range'_1] at hm
    obtain ⟨ts,hts⟩ := (slotIsPending_iff _).mp hp
    rw [decide_eq_true_eq,hts,slotTs_slotPending]
    constructor
    · intro hle
      exact ⟨ts,hle,first,hm.1,by omega,hts⟩
    · rintro ⟨t,hle,seq,hs,hs',hsl⟩
      -- The first pending slot has the least timestamp.
      have hge : first ≤ seq := by
        by_contra hlt
        have hin : seq ∈ List.range' l.tail (l.head-l.tail) := by
          rw [mem_range'_1]
          omega
        have hsr : (List.range' l.tail (l.head-l.tail)).Pairwise (· < ·) := pairwise_lt_range'
        rw [hsp] at hin hsr
        rcases mem_append.mp hin with hb | ha
        · exact absurd ((slotIsPending_iff _).mpr ⟨t,hsl⟩) (by simpa using hbf seq hb)
        rcases mem_cons.mp ha with rfl | ha
        · omega
        · have := (pairwise_cons.mp (pairwise_append.mp hsr).2.1).1 seq ha
          omega
      rcases Nat.lt_or_eq_of_le hge with hlt | rfl
      · have := h.increasing first seq hm.1 hlt hs'
        rw [hts,hsl,slotTs_slotPending,slotTs_slotPending] at this
        exact this.le.trans hle
      · obtain rfl : ts = t := by
          rw [← slotTs_slotPending ts,← hts,hsl,slotTs_slotPending]
        exact hle

theorem Wf.snapshotBarrier_iff (s : Timestamp) : l.snapshotBarrier s = false ↔ ∃ ts ≤ s, l.Pending ts := by
  have hn : l.pendingCount = 0 ↔ ∀ ts, ¬l.Pending ts := by
    rw [h.counted,card_eq_zero,filter_eq_empty_iff]
    constructor
    · rintro hno ts ⟨seq,hs,hs',hsl⟩
      exact hno (mem_Ico.mpr ⟨hs,hs'⟩) ((slotIsPending_iff _).mpr ⟨ts,hsl⟩)
    · intro hno seq hsq hp
      obtain ⟨ts,hts⟩ := (slotIsPending_iff _).mp hp
      obtain ⟨hs,hs'⟩ := mem_Ico.mp hsq
      exact hno ts ⟨seq,hs,hs',hts⟩
  have ha : ∀ ts, l.Pending ts → l.appliedWatermark < ts := by
    rintro ts ⟨seq,hs,hs',hsl⟩
    have := h.above seq hs hs'
    rwa [hsl,slotTs_slotPending] at this
  simp only [snapshotBarrier,Bool.or_eq_false_iff,beq_eq_false_iff_ne,decide_eq_false_iff_not,
    Bool.not_eq_false',h.hasPendingAtOrBelow_iff s]
  constructor
  · exact fun hb => hb.2
  · rintro ⟨ts,hle,hp⟩
    refine ⟨⟨fun h0 => hn.mp h0 ts hp,fun hw => ?_⟩,ts,hle,hp⟩
    exact absurd (hle.trans hw) (Nat.not_le.mpr (ha ts hp))

end InflightLedger
end HeliosNano.Storage
