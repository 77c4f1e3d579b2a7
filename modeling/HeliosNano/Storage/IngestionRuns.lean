import HeliosNano.Storage.Ingestion
import Mathlib.Algebra.Order.BigOperators.Group.Finset

namespace HeliosNano.Storage.Ingestion
open Foundation List Function World

def Phase.txn? : Phase → Option TxnId
  | .idle | .beginning | .allocating => none
  | .publishing t | .writing t _ | .admitting t _ | .buffering t _ | .committing t | .removing t | .counting t _ | .sending t _
  | .waiting t | .aborting t | .discarding t | .uncounting t _ => some t

def Phase.borrows : Phase → Bool
  | .writing _ _ | .admitting _ _ | .buffering _ _ => true
  | _ => false

/-- Which calls are parts of a `bulk_insert`: of those that own their transaction the writes are, an abort is not. -/
def Phase.Fits (bulk : Option (List WriteOp)) : Phase → Prop
  | .writing _ _ | .admitting _ _ | .buffering _ _ => bulk.isSome = true
  | .aborting _ | .discarding _ | .uncounting _ _ => bulk = none
  | _ => True

/-- The operations that a call has taken out of the map and not yet taken off the counter. -/
def Phase.uncounted : Phase → Nat
  | .counting _ buffer => buffer.length
  | .uncounting _ count => count
  | _ => 0

/-- The requests with the worker, each with the operations that it still has to apply, or none when it is refused. -/
def Worker.entries : Worker → List (CommitRequest × Option (List WriteOp))
  | .collecting batch => batch.map fun r => (r,some r.buffer)
  | .logging done todo =>
    (done.map fun e => (e.1.1,if e.2 then some e.1.1.buffer else none)) ++ todo.map fun r => (r.1,some r.1.buffer)
  | .syncing done => done.map fun e => (e.1.1,if e.2 then some e.1.1.buffer else none)
  | .rejecting _ todo => todo.map fun r => (r.1,none)
  | .applying todo => todo.map fun r => (r.1,some r.1.buffer)
  | .invoking r left todo => (r.1,some left) :: todo.map fun r => (r.1,some r.1.buffer)
  | _ => []

namespace World

def entries (w : World) : List (CommitRequest × Option (List WriteOp)) :=
  (w.queue.map fun r => (r,some r.buffer)) ++ w.worker.entries

def ids (w : World) : List TxnId := w.entries.map (·.1.txnId)

/-- Nothing has been sent for the transaction. -/
def Unsent (w : World) (t : TxnId) : Prop := (w.txns t).response = .empty ∧ w.appliedOf t = [] ∧ t ∉ w.ids

def Answered (w : World) (t : TxnId) : Prop :=
  match (w.txns t).response with
  | .empty => True
  | .success _ => w.appliedOf t = (w.txns t).ops.map WriteOp.arguments
  | .error _ | .disconnected => w.appliedOf t = []

/-- The buffer of a transaction while a call has its handle. -/
def PhaseSound (w : World) (t : TxnId) : Phase → Prop
  | .idle | .beginning | .allocating => False
  | .publishing _ => w.Unsent t ∧ (w.txns t).buffer = none ∧ (w.txns t).ops = []
  | .writing _ _ | .admitting _ _ | .buffering _ _ | .committing _ | .removing _ | .aborting _ | .discarding _ =>
    w.Unsent t ∧ (w.txns t).buffer = some (w.txns t).ops
  | .counting _ buffer | .sending _ buffer => w.Unsent t ∧ (w.txns t).buffer = none ∧ buffer = (w.txns t).ops
  | .waiting _ => (w.txns t).buffer = none ∧ w.Answered t
  | .uncounting _ _ => w.Unsent t ∧ (w.txns t).buffer = none

def Placed (w : World) (t : TxnId) : Handle → Prop
  | .unborn => w.txns t = .unborn ∧ w.Unsent t
  | .shared _ => t < w.nextTxnId ∧ w.Unsent t ∧ (w.txns t).buffer = some (w.txns t).ops
  | .moved c => t < w.nextTxnId ∧ (w.calls c).phase.txn? = some t ∧
      (w.calls c).phase.Fits (w.calls c).bulk ∧ w.PhaseSound t (w.calls c).phase
  | .dropped => t < w.nextTxnId ∧ w.Truthful t

/-- A transaction that is not over has no outcome; what a failed `bulk_insert` leaves behind is over and not in the map. -/
structure TxnSound (w : World) (t : TxnId) : Prop where
  placed : w.Placed t (w.txns t).handle
  ongoing : (w.txns t).handle ≠ .dropped → (w.txns t).outcome = none
  failed : t ∈ w.failedBulks → (w.txns t).handle = .dropped ∧ (w.txns t).buffer = none

def CallSound (w : World) (c : Nat) : Prop :=
  ∀ t, (w.calls c).phase.txn? = some t → (w.txns t).handle = .moved c ∨
    (w.calls c).phase.borrows = true ∧ (w.calls c).bulk = none ∧ ∃ borrowers, (w.txns t).handle = .shared borrowers ∧ c ∈ borrowers

def Waits (w : World) (t : TxnId) : Prop := ∃ c, (w.txns t).handle = .moved c ∧ (w.calls c).phase = .waiting t

/-- A request that is still to be applied has a caller that waits and an empty response; a refused one has not been applied. -/
def EntrySound (w : World) : CommitRequest × Option (List WriteOp) → Prop
  | (r,some left) => r.buffer = (w.txns r.txnId).ops ∧ w.Waits r.txnId ∧ (w.txns r.txnId).response = .empty ∧
      w.appliedOf r.txnId ++ left.map WriteOp.arguments = (w.txns r.txnId).ops.map WriteOp.arguments
  | (r,none) => (w.Waits r.txnId ∨ (w.txns r.txnId).handle = .dropped) ∧
      (∀ timestamp, (w.txns r.txnId).response ≠ .success timestamp) ∧ w.appliedOf r.txnId = []

/-- The buffered operations of a transaction and those that are about to be taken off the counter. -/
def load (w : World) (t : TxnId) : Nat :=
  (w.txns t).buffer.elim 0 List.length + match (w.txns t).handle with
    | .moved c => (w.calls c).phase.uncounted
    | _ => 0

structure Sound (w : World) : Prop where
  txns : ∀ t, w.TxnSound t
  calls : ∀ c, w.CallSound c
  entries : ∀ e ∈ w.entries, w.EntrySound e
  distinct : w.ids.Nodup
  counted : w.pendingWrites = ∑ t ∈ Finset.range w.nextTxnId, w.load t

theorem appliedOf_congr {w w' : World} (h : w'.applied = w.applied) (t : TxnId) : w'.appliedOf t = w.appliedOf t := by
  rw [appliedOf,appliedOf,h]

/-- What a step of one call leaves to the other transactions and calls. -/
structure Frames (w w' : World) (c : Nat) (t : TxnId) : Prop where
  txns : ∀ t', t' ≠ t → w'.txns t' = w.txns t'
  calls : ∀ c', c' ≠ c → w'.calls c' = w.calls c'
  applied : w'.applied = w.applied
  ids : ∀ t', t' ≠ t → (t' ∈ w'.ids ↔ t' ∈ w.ids)
  next : ∀ t', t' ≠ t → (t' < w'.nextTxnId ↔ t' < w.nextTxnId)
  failed : ∀ t', t' ≠ t → (t' ∈ w'.failedBulks ↔ t' ∈ w.failedBulks)

section
variable {w w' : World} {c : Nat} {t : TxnId}
variable {t' : TxnId} {borrowers : List Nat}

theorem Sound.placed (h : w.Sound) {handle : Handle} (hh : (w.txns t).handle = handle) : w.Placed t handle :=
  hh ▸ (h.txns t).placed

theorem Sound.not_moved (h : w.Sound) (hcall : ∀ t', (w.calls c).phase.txn? = some t' → t' = t) (hne : t' ≠ t) :
    (w.txns t').handle ≠ .moved c := by
  intro hm
  exact hne (hcall t' (h.placed hm).2.1)

variable (f : Frames w w' c t)
include f

theorem Frames.unsent (hne : t' ≠ t) (h : w.Unsent t') : w'.Unsent t' := by
  refine ⟨?_,?_,?_⟩
  · rw [f.txns t' hne]
    exact h.1
  · rw [appliedOf_congr f.applied]
    exact h.2.1
  · rw [f.ids t' hne]
    exact h.2.2

theorem Frames.phaseSound (hne : t' ≠ t) {phase : Phase} (h : w.PhaseSound t' phase) : w'.PhaseSound t' phase := by
  have hun := fun hu : w.Unsent t' => f.unsent hne hu
  have ha := appliedOf_congr f.applied t'
  cases phase <;> simp only [PhaseSound,Answered,f.txns t' hne,ha] at h ⊢
  all_goals first
    | exact h
    | exact ⟨hun h.1,h.2⟩

theorem Frames.txnSound (h : w.Sound) (hcall : ∀ t', (w.calls c).phase.txn? = some t' → t' = t)
    (hne : t' ≠ t) : w'.TxnSound t' := by
  obtain ⟨hp,ho,hf⟩ := h.txns t'
  refine ⟨?_,by rw [f.txns t' hne]; exact ho,fun hm => ?_⟩
  · rw [f.txns t' hne]
    cases hh : (w.txns t').handle with
    | unborn =>
      rw [hh] at hp
      exact ⟨by rw [f.txns t' hne]; exact hp.1,f.unsent hne hp.2⟩
    | shared borrowers =>
      rw [hh] at hp
      exact ⟨(f.next t' hne).mpr hp.1,f.unsent hne hp.2.1,by rw [f.txns t' hne]; exact hp.2.2⟩
    | moved c' =>
      have hoh : c' ≠ c := fun heq => h.not_moved hcall hne (heq ▸ hh)
      rw [hh] at hp
      rw [Placed,f.calls c' hoh]
      exact ⟨(f.next t' hne).mpr hp.1,hp.2.1,hp.2.2.1,f.phaseSound hne hp.2.2.2⟩
    | dropped =>
      rw [hh] at hp
      refine ⟨(f.next t' hne).mpr hp.1,?_⟩
      rw [Truthful,f.txns t' hne,appliedOf_congr f.applied]
      exact hp.2
  · rw [f.txns t' hne]
    exact hf ((f.failed t' hne).mp hm)

/-- The other calls still have what they had of the transaction. -/
def KeepsOthers (w w' : World) (c : Nat) (t : TxnId) : Prop :=
  ∀ c', c' ≠ c → ((w.txns t).handle = .moved c' → (w'.txns t).handle = .moved c') ∧
    ∀ borrowers, (w.txns t).handle = .shared borrowers → c' ∈ borrowers →
      ∃ borrowers', (w'.txns t).handle = .shared borrowers' ∧ c' ∈ borrowers'

omit f in
theorem keepsOthers_of_moved (h : (w.txns t).handle = .moved c) : KeepsOthers w w' c t := by
  refine fun c' hne => ⟨fun hm => ?_,fun borrowers hs => ?_⟩
  · rw [h,Handle.moved.injEq] at hm
    exact absurd hm.symm hne
  · rw [h] at hs
    cases hs

theorem Frames.callSound (h : w.Sound) (ho : KeepsOthers w w' c t) {c' : Nat} (hne : c' ≠ c) : w'.CallSound c' := by
  intro t' hph
  rw [f.calls c' hne] at hph ⊢
  by_cases ht : t' = t
  · subst ht
    refine (h.calls c' t' hph).imp (ho c' hne).1 ?_
    rintro ⟨hbr,hb,borrowers,hs,hm⟩
    exact ⟨hbr,hb,(ho c' hne).2 borrowers hs hm⟩
  · rw [f.txns t' ht]
    exact h.calls c' t' hph

theorem Frames.entrySound (h : w.Sound) (hcall : ∀ t', (w.calls c).phase.txn? = some t' → t' = t)
    {e : CommitRequest × Option (List WriteOp)} (hne : e.1.txnId ≠ t) (he : w.EntrySound e) : w'.EntrySound e := by
  obtain ⟨r,left⟩ := e
  have hw : w.Waits r.txnId → w'.Waits r.txnId := by
    rintro ⟨c',hm,hph⟩
    have ho : c' ≠ c := fun heq => h.not_moved hcall hne (heq ▸ hm)
    exact ⟨c',by rw [f.txns _ hne]; exact hm,by rw [f.calls c' ho]; exact hph⟩
  cases left with
  | none =>
    obtain ⟨hs,hr,ha⟩ := he
    refine ⟨?_,by rw [f.txns _ hne]; exact hr,by rw [appliedOf_congr f.applied]; exact ha⟩
    rw [f.txns _ hne]
    exact hs.imp_left hw
  | some left =>
    obtain ⟨hb,hwt,hr,ha⟩ := he
    exact ⟨by rw [f.txns _ hne]; exact hb,hw hwt,by rw [f.txns _ hne]; exact hr,
      by rw [f.txns _ hne,appliedOf_congr f.applied]; exact ha⟩

theorem Frames.load (h : w.Sound) (hcall : ∀ t', (w.calls c).phase.txn? = some t' → t' = t)
    (hne : t' ≠ t) : w'.load t' = w.load t' := by
  rw [World.load,World.load,f.txns t' hne]
  refine congrArg (_ + ·) ?_
  cases hh : (w.txns t').handle with
  | moved c' =>
    have ho : c' ≠ c := fun heq => h.not_moved hcall hne (heq ▸ hh)
    dsimp only
    rw [f.calls c' ho]
  | unborn | shared borrowers | dropped => rfl

omit f

theorem sum_range_change {f g : Nat → Nat} {n i : Nat} (hi : i < n) (h : ∀ j, j ≠ i → g j = f j) :
    ∑ j ∈ Finset.range n, g j + f i = ∑ j ∈ Finset.range n, f j + g i := by
  have hm : i ∈ Finset.range n := Finset.mem_range.mpr hi
  have hrest : ∑ j ∈ (Finset.range n).erase i, g j = ∑ j ∈ (Finset.range n).erase i, f j :=
    Finset.sum_congr rfl fun j hj => h j (Finset.ne_of_mem_erase hj)
  rw [← Finset.add_sum_erase _ g hm,← Finset.add_sum_erase _ f hm,hrest]
  omega

/-- A step of a call on its transaction. -/
structure Own (w w' : World) (c : Nat) (t : TxnId) : Prop extends Frames w w' c t where
  old : t < w.nextTxnId
  next_eq : w'.nextTxnId = w.nextTxnId
  others : KeepsOthers w w' c t
  txn : w'.TxnSound t
  call : w'.CallSound c
  counted : w'.pendingWrites + w.load t = w.pendingWrites + w'.load t

theorem Own.sound (o : Own w w' c t) (h : w.Sound) (hcall : ∀ t', (w.calls c).phase.txn? = some t' → t' = t)
    (hen : w'.entries = w.entries) (ho : ∀ e ∈ w.entries, e.1.txnId = t → w'.EntrySound e) : w'.Sound := by
  refine ⟨fun t' => ?_,fun c' => ?_,fun e he => ?_,?_,?_⟩
  · by_cases ht : t' = t
    · exact ht ▸ o.txn
    · exact o.txnSound h hcall ht
  · by_cases hc : c' = c
    · exact hc ▸ o.call
    · exact o.callSound h o.others hc
  · rw [hen] at he
    by_cases ht : e.1.txnId = t
    · exact ho e he ht
    · exact o.entrySound h hcall ht (h.entries e he)
  · rw [ids,hen]
    exact h.distinct
  · have hs := sum_range_change o.old fun t' ht => o.load h hcall ht
    have hcn := o.counted
    have hb := h.counted
    rw [o.next_eq]
    omega

/-- A step of one call on one transaction: what it makes of both. -/
structure Changes (w w' : World) (c : Nat) (t : TxnId) (txn : Txn) (call : Call) : Prop where
  txns : w'.txns = Function.update w.txns t txn
  calls : w'.calls = Function.update w.calls c call
  applied : w'.applied = w.applied
  queue : w'.queue = w.queue
  worker : w'.worker = w.worker
  next : w'.nextTxnId = w.nextTxnId
  failed : w'.failedBulks = w.failedBulks ∨ w'.failedBulks = w.failedBulks ++ [t]

variable {txn : Txn} {call : Call}

variable (d : Changes w w' c t txn call)
include d

theorem Changes.txn_eq : w'.txns t = txn := by rw [d.txns,update_self]

theorem Changes.call_eq : w'.calls c = call := by rw [d.calls,update_self]

theorem Changes.entries_eq : w'.entries = w.entries := by
  rw [entries,entries,d.queue,d.worker]

theorem Changes.frames : Frames w w' c t where
  txns t' hne := by rw [d.txns,update_of_ne hne]
  calls c' hne := by rw [d.calls,update_of_ne hne]
  applied := d.applied
  ids t' _ := by rw [ids,ids,d.entries_eq]
  next t' _ := by rw [d.next]
  failed t' hne := by
    obtain heq | heq := d.failed
    · rw [heq]
    · rw [heq,mem_append,mem_singleton]
      exact ⟨fun hor => hor.resolve_right hne,.inl⟩

theorem Changes.unsent (h : w.Unsent t) (hr : txn.response = .empty) : w'.Unsent t := by
  refine ⟨?_,?_,?_⟩
  · rw [d.txn_eq]
    exact hr
  · rw [appliedOf_congr d.applied]
    exact h.2.1
  · rw [ids,d.entries_eq]
    exact h.2.2

omit d in
theorem Unsent.no_entry (h : w.Unsent t) : ∀ e ∈ w.entries, e.1.txnId ≠ t := fun _ he heq =>
  h.2.2 (heq ▸ mem_map_of_mem he)

/-- What a step of a call needs of its transaction before it. -/
structure Ready (w : World) (c : Nat) (t : TxnId) : Prop where
  old : t < w.nextTxnId
  refers : ∀ t', (w.calls c).phase.txn? = some t' → t' = t
  unsent : w.Unsent t
  ongoing : (w.txns t).outcome = none ∧ t ∉ w.failedBulks

theorem Changes.moves (h : w.Sound) (hr : Ready w c t) (ho : KeepsOthers w w' c t)
    (hk : txn.handle = .moved c ∧ txn.response = .empty ∧ txn.outcome = none) (hf : w'.failedBulks = w.failedBulks)
    (hph : call.phase.txn? = some t) (hft : call.phase.Fits call.bulk) (hs : w'.Unsent t → w'.PhaseSound t call.phase)
    (hc : w'.pendingWrites + w.load t = w.pendingWrites+(txn.buffer.elim 0 List.length + call.phase.uncounted)) : w'.Sound := by
  obtain ⟨hh,hrs,hou⟩ := hk
  have hu := d.unsent hr.unsent hrs
  refine Own.sound ⟨d.frames,hr.old,d.next,ho,⟨?_,fun _ => ?_,fun hm => ?_⟩,?_,?_⟩ h hr.refers d.entries_eq ?_
  · rw [d.txn_eq,hh,Placed,d.next,d.call_eq]
    exact ⟨hr.old,hph,hft,hs hu⟩
  · rw [d.txn_eq]
    exact hou
  · rw [hf] at hm
    exact absurd hm hr.ongoing.2
  · intro t' ht'
    rw [d.call_eq,hph,Option.some.injEq] at ht'
    rw [← ht',d.txn_eq]
    exact .inl hh
  · rw [hc,load,d.txn_eq,hh]
    dsimp only
    rw [d.call_eq]
  · exact fun e he heq => absurd heq (hr.unsent.no_entry e he)

theorem Changes.lends (h : w.Sound) (hr : Ready w c t) (ho : KeepsOthers w w' c t)
    (hk : txn.handle = .shared borrowers ∧ txn.response = .empty ∧ txn.outcome = none)
    (hf : w'.failedBulks = w.failedBulks) (hb : txn.buffer = some txn.ops)
    (hcall : ∀ t', call.phase.txn? = some t' → t' = t ∧ call.phase.borrows = true ∧ call.bulk = none ∧ c ∈ borrowers)
    (hc : w'.pendingWrites + w.load t = w.pendingWrites+txn.ops.length) : w'.Sound := by
  obtain ⟨hh,hrs,hou⟩ := hk
  have hu := d.unsent hr.unsent hrs
  refine Own.sound ⟨d.frames,hr.old,d.next,ho,⟨?_,fun _ => ?_,fun hm => ?_⟩,?_,?_⟩ h hr.refers d.entries_eq ?_
  · rw [d.txn_eq,hh,Placed,d.next,d.txn_eq]
    exact ⟨hr.old,hu,hb⟩
  · rw [d.txn_eq]
    exact hou
  · rw [hf] at hm
    exact absurd hm hr.ongoing.2
  · intro t' ht'
    rw [d.call_eq] at ht' ⊢
    obtain ⟨rfl,hbr,hbl,hm⟩ := hcall t' ht'
    rw [d.txn_eq]
    exact .inr ⟨hbr,hbl,borrowers,hh,hm⟩
  · rw [hc,load,d.txn_eq,hh,hb]
    rfl
  · exact fun e he heq => absurd heq (hr.unsent.no_entry e he)

omit d

theorem Changes.over (d : Changes w w' c t txn .none) (h : w.Sound) (hold : t < w.nextTxnId)
    (hrr : ∀ t', (w.calls c).phase.txn? = some t' → t' = t) (hmv : (w.txns t).handle = .moved c)
    (hh : txn.handle = .dropped) (hr : txn.response = (w.txns t).response) (htr : w'.Truthful t)
    (hf : t ∈ w'.failedBulks → txn.buffer = none) (hrf : ∀ e ∈ w.entries, e.1.txnId = t → e.2 = none)
    (hc : w'.pendingWrites + w.load t = w.pendingWrites + txn.buffer.elim 0 List.length) : w'.Sound := by
  refine Own.sound ⟨d.frames,hold,d.next,keepsOthers_of_moved hmv,⟨?_,fun hno => ?_,fun hm => ?_⟩,?_,?_⟩ h hrr
    d.entries_eq ?_
  · rw [d.txn_eq,hh,Placed,d.next]
    exact ⟨hold,htr⟩
  · rw [d.txn_eq] at hno
    exact absurd hh hno
  · rw [d.txn_eq]
    exact ⟨hh,hf hm⟩
  · intro t' ht'
    rw [d.call_eq] at ht'
    cases ht'
  · rw [hc,load,d.txn_eq,hh]
    rfl
  · rintro ⟨r,left⟩ he heq
    cases hrf _ he heq
    obtain ⟨-,hno,ha⟩ := h.entries _ he
    dsimp only at heq
    subst heq
    refine ⟨.inr (by rw [d.txn_eq]; exact hh),?_,by rw [appliedOf_congr d.applied]; exact ha⟩
    rw [d.txn_eq,hr]
    exact hno

structure Moved (w : World) (c : Nat) (t : TxnId) : Prop where
  old : t < w.nextTxnId
  handle : (w.txns t).handle = .moved c
  phase : (w.calls c).phase.txn? = some t
  fits : (w.calls c).phase.Fits (w.calls c).bulk
  sound : w.PhaseSound t (w.calls c).phase
  ongoing : (w.txns t).outcome = none ∧ t ∉ w.failedBulks

theorem Sound.ongoing (h : w.Sound) (hh : (w.txns t).handle ≠ .dropped) : (w.txns t).outcome = none ∧ t ∉ w.failedBulks :=
  ⟨(h.txns t).ongoing hh,fun hm => hh ((h.txns t).failed hm).1⟩

theorem Sound.moved (h : w.Sound) (hm : (w.txns t).handle = .moved c) : Moved w c t := by
  obtain ⟨hold,hph,hf,hs⟩ := h.placed hm
  exact ⟨hold,hm,hph,hf,hs,h.ongoing (by rw [hm]; exact Handle.noConfusion)⟩

theorem Sound.moved_at {phase : Phase} (h : w.Sound) (hph : (w.calls c).phase = phase) (ht : phase.txn? = some t)
    (hbr : phase.borrows = false) : Moved w c t ∧ phase.Fits (w.calls c).bulk ∧ w.PhaseSound t phase := by
  subst hph
  obtain hm | ⟨hb,-⟩ := h.calls c t ht
  · exact ⟨h.moved hm,(h.moved hm).fits,(h.moved hm).sound⟩
  · rw [hbr] at hb
    cases hb

variable (m : Moved w c t)
include m

theorem Moved.refers : ∀ t', (w.calls c).phase.txn? = some t' → t' = t := by
  intro t' ht'
  rw [m.phase,Option.some.injEq] at ht'
  exact ht'.symm

theorem Moved.ready (hu : w.Unsent t) : Ready w c t := ⟨m.old,m.refers,hu,m.ongoing⟩

theorem Moved.load : w.load t = (w.txns t).buffer.elim 0 List.length + (w.calls c).phase.uncounted := by
  rw [World.load,m.handle]

theorem Moved.steps (h : w.Sound) (hu : w.Unsent t) (d : Changes w w' c t txn call)
    (hk : txn.handle = .moved c ∧ txn.response = (w.txns t).response ∧ txn.outcome = (w.txns t).outcome)
    (hf : w'.failedBulks = w.failedBulks) (hph : call.phase.txn? = some t)
    (hft : call.phase.Fits call.bulk) (hs : w'.Unsent t → w'.PhaseSound t call.phase)
    (hc : w'.pendingWrites + (w.txns t).buffer.elim 0 List.length + (w.calls c).phase.uncounted =
      w.pendingWrites + txn.buffer.elim 0 List.length + call.phase.uncounted) : w'.Sound := by
  refine d.moves h (m.ready hu) (keepsOthers_of_moved m.handle) ⟨hk.1,hk.2.1.trans hu.1,?_⟩ hf hph hft
    hs ?_
  · exact hk.2.2.trans m.ongoing.1
  · rw [m.load]
    omega

omit m

theorem changes_setPhase (w : World) (c : Nat) (t : TxnId) (phase : Phase) :
    Changes w (w.setPhase c phase) c t (w.txns t) ⟨phase,(w.calls c).bulk⟩ :=
  ⟨(update_eq_self t w.txns).symm,rfl,rfl,rfl,rfl,rfl,.inl rfl⟩

theorem changes_setCall (w : World) (c : Nat) (t : TxnId) (call : Call) : Changes w (w.setCall c call) c t (w.txns t) call :=
  ⟨(update_eq_self t w.txns).symm,rfl,rfl,rfl,rfl,rfl,.inl rfl⟩

theorem Sound.setCall (h : w.Sound) (hb : (w.calls c).phase.txn? = none) (ha : call.phase.txn? = none) :
    (w.setCall c call).Sound := by
  have hr : ∀ t t', (w.calls c).phase.txn? = some t' → t' = t := fun t t' ht' => by
    rw [hb] at ht'
    cases ht'
  have hf := fun t => (changes_setCall w c t call).frames
  have ho : ∀ t : TxnId, t ≠ t+1 := fun t => (Nat.succ_ne_self t).symm
  refine ⟨fun t => ?_,fun c' => ?_,fun e he => ?_,h.distinct,?_⟩
  · exact (hf (t+1)).txnSound h (hr _) (ho t)
  · by_cases hc : c' = c
    · intro t ht
      rw [hc,(changes_setCall w c t call).call_eq,ha] at ht
      cases ht
    · refine (hf 0).callSound h (fun c'' _ => ⟨id,fun borrowers hs hm => ⟨borrowers,hs,hm⟩⟩) hc
  · exact (hf (e.1.txnId+1)).entrySound h (hr _) (ho _) (h.entries e he)
  · refine h.counted.trans (Finset.sum_congr rfl fun t _ => ?_)
    exact ((hf (t+1)).load h (hr _) (ho t)).symm

theorem Sound.allocate (h : w.Sound) (hph : (w.calls c).phase = .allocating) (config : Config) :
    (w.advance config c).Sound := by
  obtain ⟨hp,hon,hfl⟩ := h.txns w.nextTxnId
  have hu : w.txns w.nextTxnId = .unborn ∧ w.Unsent w.nextTxnId := by
    cases hh : (w.txns w.nextTxnId).handle with
    | unborn =>
      rw [hh] at hp
      exact hp
    | shared borrowers | moved c' | dropped =>
      rw [hh] at hp
      exact absurd hp.1 (Nat.lt_irrefl _)
  obtain ⟨htn,hrs,hap,hi⟩ := hu
  have hr : ∀ t, (w.calls c).phase.txn? = some t → t = w.nextTxnId := fun t ht => by
    rw [hph] at ht
    cases ht
  obtain ⟨w',hw'⟩ : ∃ w', w' = w.advance config c := ⟨_,rfl⟩
  rw [← hw']
  rw [advance,hph] at hw'
  dsimp only at hw'
  have hts : w'.txns = Function.update w.txns w.nextTxnId { w.txns w.nextTxnId with handle := .moved c } := by rw [hw']; rfl
  have hcs : w'.calls = Function.update w.calls c ⟨.publishing w.nextTxnId,(w.calls c).bulk⟩ := by rw [hw']; rfl
  have hen : w'.entries = w.entries := by rw [hw']; rfl
  have hn : w'.nextTxnId = w.nextTxnId+1 := by rw [hw']
  have hf : w'.failedBulks = w.failedBulks := by rw [hw']; rfl
  have ha : w'.applied = w.applied := by rw [hw']; rfl
  have hpn : w'.pendingWrites = w.pendingWrites := by rw [hw']; rfl
  have htx : w'.txns w.nextTxnId = { w.txns w.nextTxnId with handle := .moved c } := by rw [hts,update_self]
  have hcl : w'.calls c = ⟨.publishing w.nextTxnId,(w.calls c).bulk⟩ := by rw [hcs,update_self]
  have hun : w'.Unsent w.nextTxnId := by
    refine ⟨by rw [htx]; exact hrs,by rw [appliedOf_congr ha]; exact hap,?_⟩
    rw [ids,hen]
    exact hi
  have f : Frames w w' c w.nextTxnId := by
    refine ⟨fun t hne => by rw [hts,update_of_ne hne],fun c' hne => by rw [hcs,update_of_ne hne],
      ha,fun t _ => by rw [ids,ids,hen],fun t hne => ?_,fun t _ => by rw [hf]⟩
    rw [hn]
    exact ⟨fun hlt => lt_of_le_of_ne (Nat.le_of_lt_succ hlt) hne,Nat.lt_succ_of_lt⟩
  have ho : KeepsOthers w w' c w.nextTxnId := by
    intro c' _
    rw [htn]
    exact ⟨fun hno => (nomatch hno),nofun⟩
  refine ⟨fun t => ?_,fun c' => ?_,fun e he => ?_,by rw [ids,hen]; exact h.distinct,?_⟩
  · by_cases ht : t = w.nextTxnId
    · subst ht
      refine ⟨?_,fun _ => by rw [htx,htn]; rfl,fun hm => ?_⟩
      · rw [htx,Placed,hn,hcl]
        refine ⟨Nat.lt_succ_self _,rfl,trivial,hun,?_⟩
        rw [htx,htn]
        exact ⟨rfl,rfl⟩
      · rw [hf] at hm
        have hd := (hfl hm).1
        rw [htn] at hd
        cases hd
    · exact f.txnSound h hr ht
  · by_cases hc : c' = c
    · subst hc
      intro t ht
      rw [hcl] at ht
      cases ht
      exact .inl (by rw [htx])
    · exact f.callSound h ho hc
  · rw [hen] at he
    have hne : e.1.txnId ≠ w.nextTxnId := fun heq => hi (heq ▸ mem_map_of_mem he)
    exact f.entrySound h hr hne (h.entries e he)
  · have hl : w'.load w.nextTxnId = 0 := by
      rw [load,htx]
      dsimp only
      rw [hcl,htn]
      rfl
    rw [hn,Finset.sum_range_succ,hl,hpn,h.counted,Nat.add_zero]
    exact Finset.sum_congr rfl fun t ht => (f.load h hr (Finset.mem_range.mp ht).ne).symm

/-- A call that is about to return, after it has changed its transaction and the counter. -/
structure Adjusts (w w₁ : World) (t : TxnId) (txn : Txn) : Prop where
  txns : w₁.txns = Function.update w.txns t txn
  calls : w₁.calls = w.calls
  applied : w₁.applied = w.applied
  queue : w₁.queue = w.queue
  worker : w₁.worker = w.worker
  next : w₁.nextTxnId = w.nextTxnId
  failed : w₁.failedBulks = w.failedBulks

theorem adjusts_pending (w : World) (t : TxnId) (pendingWrites : Nat) :
    Adjusts w { w with pendingWrites := pendingWrites } t (w.txns t) :=
  ⟨(update_eq_self t w.txns).symm,rfl,rfl,rfl,rfl,rfl,rfl⟩

theorem adjusts_self (w : World) (t : TxnId) : Adjusts w w t (w.txns t) := adjusts_pending w t w.pendingWrites

variable {w₁ : World}

theorem Moved.ends (m : Moved w c t) (h : w.Sound) (a : Adjusts w w₁ t txn)
    (hsame : txn.response = (w.txns t).response ∧ txn.ops = (w.txns t).ops) (outcome : Outcome)
    (hc : outcome.isCommitted = true → w.appliedOf t = (w.txns t).ops.map WriteOp.arguments)
    (hf : outcome.isCommitted = false → w.appliedOf t = [])
    (hbf : (w.calls c).bulk.isSome = true → outcome.isCommitted = false → txn.buffer = none)
    (hr : ∀ e ∈ w.entries, e.1.txnId = t → e.2 = none)
    (hcn : w₁.pendingWrites + (w.txns t).buffer.elim 0 List.length + (w.calls c).phase.uncounted =
      w.pendingWrites + txn.buffer.elim 0 List.length) : (w₁.finish c t outcome).Sound := by
  have htx : w₁.txns t = txn := by rw [a.txns,update_self]
  have hbl : (w₁.finish c t outcome).failedBulks =
      if (w.calls c).bulk.isSome && !outcome.isCommitted then w.failedBulks ++ [t] else w.failedBulks := by
    rw [finish,a.calls,a.failed]
  have d : Changes w (w₁.finish c t outcome) c t { txn with handle := .dropped, outcome := some outcome } .none := by
    refine ⟨?_,?_,a.applied,a.queue,a.worker,a.next,?_⟩
    · change Function.update w₁.txns t _ = _
      rw [htx,a.txns,update_idem]
    · change Function.update w₁.calls c _ = _
      rw [a.calls]
    · rw [hbl]
      split
      · exact .inr rfl
      · exact .inl rfl
  refine d.over h m.old m.refers m.handle rfl hsame.1 ?_ (fun hm => ?_) hr ?_
  · rw [Truthful,d.txn_eq,appliedOf_congr d.applied]
    cases outcome with
    | committed timestamp =>
      dsimp only
      rw [hsame.2]
      exact hc rfl
    | failed e | aborted => exact hf rfl
  · rw [hbl] at hm
    split at hm
    next hb =>
      rw [Bool.and_eq_true,Bool.not_eq_true'] at hb
      exact hbf hb.1 hb.2
    · exact absurd hm m.ongoing.2
  · rw [m.load]
    change w₁.pendingWrites + _ = w.pendingWrites + txn.buffer.elim 0 List.length
    omega

theorem Moved.ends_unsent (m : Moved w c t) (h : w.Sound) (hu : w.Unsent t) (a : Adjusts w w₁ t txn)
    (hsame : txn.response = (w.txns t).response ∧ txn.ops = (w.txns t).ops) {outcome : Outcome}
    (ho : outcome.isCommitted = false) (hbf : (w.calls c).bulk.isSome = true → txn.buffer = none)
    (hc : w₁.pendingWrites + (w.txns t).buffer.elim 0 List.length + (w.calls c).phase.uncounted =
      w.pendingWrites + txn.buffer.elim 0 List.length) : (w₁.finish c t outcome).Sound :=
  m.ends h a hsame outcome (fun hy => by rw [ho] at hy; cases hy) (fun _ => hu.2.1) (fun hb _ => hbf hb)
    (fun e he heq => absurd heq (hu.no_entry e he)) hc

theorem Moved.nextRow (m : Moved w c t) (h : w.Sound) (hun : w.Unsent t) (a : Adjusts w w₁ t txn)
    (hk : txn.handle = .moved c ∧ txn.response = (w.txns t).response ∧ txn.outcome = (w.txns t).outcome)
    (hbf : txn.buffer = some txn.ops) (rows : List WriteOp)
    (hcn : w₁.pendingWrites + (w.txns t).buffer.elim 0 List.length + (w.calls c).phase.uncounted =
      w.pendingWrites+txn.ops.length) : (w₁.nextRow c t rows).Sound := by
  have hc : ∀ call, Changes w (w₁.setCall c call) c t txn call := fun call =>
    ⟨a.txns,by change Function.update w₁.calls c _ = _; rw [a.calls],a.applied,a.queue,a.worker,a.next,.inl a.failed⟩
  have hb : ∀ call, (w₁.setCall c call).Unsent t →
      (w₁.setCall c call).Unsent t ∧ ((w₁.setCall c call).txns t).buffer = some ((w₁.setCall c call).txns t).ops := fun call hu =>
    ⟨hu,by rw [(hc call).txn_eq]; exact hbf⟩
  cases rows with
  | nil =>
    refine m.steps h hun (hc _) hk a.failed rfl trivial (hb _) ?_
    rw [hbf]
    exact hcn
  | cons op rest =>
    refine m.steps h hun (hc _) hk a.failed rfl rfl (hb _) ?_
    rw [hbf]
    exact hcn

/-- A write of a client, by a handle that it borrows, or one of `bulk_insert`. -/
structure Writing (w : World) (c : Nat) (t : TxnId) : Prop where
  old : t < w.nextTxnId
  refers : ∀ t', (w.calls c).phase.txn? = some t' → t' = t
  unsent : w.Unsent t
  buffer : (w.txns t).buffer = some (w.txns t).ops
  ongoing : (w.txns t).outcome = none ∧ t ∉ w.failedBulks
  owner : ((w.calls c).bulk.isSome = true ∧ Moved w c t) ∨
    (w.calls c).bulk = none ∧ ∃ borrowers, (w.txns t).handle = .shared borrowers ∧ c ∈ borrowers
  uncounted : (w.calls c).phase.uncounted = 0

theorem Sound.writing (h : w.Sound) (hph : (w.calls c).phase.txn? = some t) (hb : (w.calls c).phase.borrows = true) :
    Writing w c t := by
  have hr : ∀ t', (w.calls c).phase.txn? = some t' → t' = t := fun t' ht' => by
    rw [hph,Option.some.injEq] at ht'
    exact ht'.symm
  have hu : (w.calls c).phase.uncounted = 0 := by
    cases hp : (w.calls c).phase <;> rw [hp] at hb <;> first | rfl | cases hb
  obtain hmv | ⟨-,hbl,borrowers,hs,hm⟩ := h.calls c t hph
  · have m := h.moved hmv
    have hsn := m.sound
    have hf := m.fits
    have hbt : (w.Unsent t ∧ (w.txns t).buffer = some (w.txns t).ops) ∧ (w.calls c).bulk.isSome = true := by
      cases hp : (w.calls c).phase <;> rw [hp] at hb hsn hf <;> first | exact ⟨hsn,hf⟩ | cases hb
    exact ⟨m.old,hr,hbt.1.1,hbt.1.2,m.ongoing,.inl ⟨hbt.2,m⟩,hu⟩
  · have hpl := h.placed hs
    exact ⟨hpl.1,hr,hpl.2.1,hpl.2.2,h.ongoing (by rw [hs]; exact Handle.noConfusion),
      .inr ⟨hbl,borrowers,hs,hm⟩,hu⟩

theorem Writing.ready (m : Writing w c t) : Ready w c t := ⟨m.old,m.refers,m.unsent,m.ongoing⟩

theorem keepsOthers_of_shared {borrowers' : List Nat} (hb : (w.txns t).handle = .shared borrowers)
    (ha : (w'.txns t).handle = .shared borrowers') (hk : ∀ c', c' ≠ c → c' ∈ borrowers → c' ∈ borrowers') :
    KeepsOthers w w' c t := by
  refine fun c' hne => ⟨fun hm => ?_,fun others hs hmm => ⟨borrowers',ha,?_⟩⟩
  · rw [hb] at hm
    cases hm
  · rw [hb,Handle.shared.injEq] at hs
    exact hk c' hne (hs ▸ hmm)

theorem load_of_shared (hs : (w.txns t).handle = .shared borrowers) : w.load t = (w.txns t).buffer.elim 0 List.length := by
  rw [load,hs]
  rfl

theorem Writing.setPhase (m : Writing w c t) (h : w.Sound) {phase : Phase} (hph : phase.txn? = some t)
    (hbr : phase.borrows = true)
    (hf : ∀ bulk : Option (List WriteOp), bulk.isSome = true → phase.Fits bulk) (hun : phase.uncounted = 0)
    (hsn : ∀ w' : World, w'.Unsent t ∧ (w'.txns t).buffer = some (w'.txns t).ops → w'.PhaseSound t phase) :
    (w.setPhase c phase).Sound := by
  have d := changes_setPhase w c t phase
  obtain ⟨hb,moved⟩ | ⟨hb,borrowers,hs,hmm⟩ := m.owner
  · refine moved.steps h m.unsent d ⟨moved.handle,rfl,rfl⟩ rfl hph (hf _ hb) (fun hu => hsn _ ⟨hu,?_⟩) ?_
    · rw [d.txn_eq]
      exact m.buffer
    · rw [m.uncounted,hun]
      rfl
  · refine d.lends h m.ready (keepsOthers_of_shared hs (by rw [d.txn_eq]; exact hs) fun _ _ hm => hm)
      ⟨hs,m.unsent.1,m.ongoing.1⟩ rfl m.buffer (fun t' ht' => ?_) ?_
    · rw [hph,Option.some.injEq] at ht'
      exact ⟨ht'.symm,hbr,hb,hmm⟩
    · rw [load_of_shared hs,m.buffer]
      rfl

theorem Writing.endWrite (m : Writing w c t) (h : w.Sound) (a : Adjusts w w₁ t txn)
    (hk : txn.handle = (w.txns t).handle ∧ txn.response = (w.txns t).response ∧ txn.outcome = (w.txns t).outcome)
    (hbf : txn.buffer = some txn.ops) {result : Except IngestionError Unit}
    (hrs : (w.calls c).bulk.isSome = true → result = .ok ())
    (hc : w₁.pendingWrites + (w.txns t).ops.length = w.pendingWrites+txn.ops.length) : (w₁.endWrite c t result).Sound := by
  obtain ⟨hb,moved⟩ | ⟨hb,borrowers,hs,hmm⟩ := m.owner
  · obtain ⟨rows,hrw⟩ := Option.isSome_iff_exists.mp hb
    rw [hrs hb,endWrite.eq_def,a.calls,hrw]
    refine moved.nextRow h m.unsent a ⟨hk.1.trans moved.handle,hk.2⟩ hbf rows ?_
    rw [m.buffer,m.uncounted]
    exact hc
  · have htx : w₁.txns t = txn := by rw [a.txns,update_self]
    have hrl : w₁.endWrite c t result = w₁.release c t := by
      rw [endWrite.eq_def,a.calls,hb]
    have hr : w₁.release c t =
        (w₁.setTxn t { txn with handle := .shared (borrowers.erase c) }).idle c := by
      rw [release,htx,hk.1,hs]
    rw [hrl,hr]
    have d : Changes w ((w₁.setTxn t { txn with handle := .shared (borrowers.erase c) }).idle c) c t
        { txn with handle := .shared (borrowers.erase c) } .none := by
      refine ⟨?_,?_,a.applied,a.queue,a.worker,a.next,.inl a.failed⟩
      · change Function.update w₁.txns t _ = _
        rw [a.txns,update_idem]
      · change Function.update w₁.calls c _ = _
        rw [a.calls]
    refine d.lends h m.ready (keepsOthers_of_shared hs (by rw [d.txn_eq]) fun c' hne hm => ?_)
      ⟨rfl,hk.2.1.trans m.unsent.1,hk.2.2.trans m.ongoing.1⟩ a.failed hbf nofun ?_
    · exact (mem_erase_of_ne hne).mpr hm
    · rw [load_of_shared hs,m.buffer]
      exact hc

variable (h : w.Sound)
include h

theorem Sound.send (m : Moved w c t) {buffer : List WriteOp} (hph : (w.calls c).phase = .sending t buffer) :
    ({ w with queue := w.queue ++ [CommitRequest.mk t buffer] }.setPhase c (.waiting t)).Sound := by
  obtain ⟨w',hw'⟩ : ∃ w', w' = { w with queue := w.queue ++ [CommitRequest.mk t buffer] }.setPhase c (.waiting t) := ⟨_,rfl⟩
  rw [← hw']
  have hs := m.sound
  rw [hph] at hs
  obtain ⟨⟨hr,hap,hid⟩,hb,ho⟩ := hs
  have htx : w'.txns = w.txns := by rw [hw']; rfl
  have hcall : w'.calls c = ⟨.waiting t,(w.calls c).bulk⟩ := by rw [hw']; exact update_self _ _ _
  have ha : w'.applied = w.applied := by rw [hw']; rfl
  have hen : w'.entries.Perm ((⟨t,buffer⟩,some buffer)::w.entries) := by
    rw [hw']
    change ((w.queue ++ [CommitRequest.mk t buffer]).map _ ++ w.worker.entries).Perm _
    rw [map_append,append_assoc]
    exact perm_middle
  have hi : w'.ids.Perm (t::w.ids) := hen.map _
  have f : Frames w w' c t := by
    refine ⟨fun t' _ => by rw [htx],fun c' hne => ?_,ha,fun t' hne => ?_,fun t' _ => by rw [hw']; rfl,
      fun t' _ => by rw [hw']; rfl⟩
    · rw [hw']
      exact update_of_ne hne _ _
    · rw [hi.mem_iff,mem_cons]
      exact ⟨fun hor => hor.resolve_left hne,.inr⟩
  have hw : w'.Waits t := ⟨c,by rw [htx]; exact m.handle,by rw [hcall]⟩
  refine ⟨fun t' => ?_,fun c' => ?_,fun e he => ?_,?_,?_⟩
  · by_cases ht : t' = t
    · subst ht
      refine ⟨?_,fun _ => by rw [htx]; exact m.ongoing.1,fun hm => absurd ?_ m.ongoing.2⟩
      · rw [htx,m.handle,Placed,hcall]
        refine ⟨by rw [hw']; exact m.old,rfl,trivial,by rw [htx]; exact hb,?_⟩
        rw [Answered,htx,hr]
        trivial
      · rw [hw'] at hm
        exact hm
    · exact f.txnSound h m.refers ht
  · by_cases hc : c' = c
    · subst hc
      intro t' ht'
      rw [hcall] at ht'
      cases ht'
      exact .inl (by rw [htx]; exact m.handle)
    · exact f.callSound h (keepsOthers_of_moved m.handle) hc
  · obtain rfl | he := mem_cons.mp (hen.mem_iff.mp he)
    · refine ⟨by rw [htx]; exact ho,hw,by rw [htx]; exact hr,?_⟩
      rw [appliedOf_congr ha,hap,htx,ho]
      rfl
    · exact f.entrySound h m.refers (fun heq => hid (heq ▸ mem_map_of_mem he)) (h.entries e he)
  · exact hi.nodup_iff.mpr (nodup_cons.mpr ⟨hid,h.distinct⟩)
  · have hl : w'.load t = w.load t := by
      rw [m.load,hph,load,htx,m.handle]
      dsimp only
      rw [hcall]
      rfl
    have hp : w'.pendingWrites = w.pendingWrites := by rw [hw']; rfl
    have hn : w'.nextTxnId = w.nextTxnId := by rw [hw']; rfl
    rw [hp,hn,h.counted]
    refine Finset.sum_congr rfl fun t' _ => ?_
    by_cases ht : t' = t
    · rw [ht,hl]
    · exact (f.load h m.refers ht).symm

theorem Sound.load_le (hold : t < w.nextTxnId) : w.load t ≤ w.pendingWrites := by
  rw [h.counted]
  exact Finset.single_le_sum (fun _ _ => Nat.zero_le _) (Finset.mem_range.mpr hold)

theorem Sound.advance (config : Config) (hcr : Careful config w (.advance c)) : (w.advance config c).Sound := by
  rw [Careful] at hcr
  cases hph : (w.calls c).phase with
  | idle =>
    rw [World.advance,hph]
    exact h
  | beginning =>
    have hbe : (w.calls c).phase.txn? = none := by rw [hph]; rfl
    rw [World.advance,hph]
    dsimp only
    split
    · exact h.setCall hbe rfl
    · exact h.setCall hbe rfl
  | allocating => exact h.allocate hph config
  | publishing t =>
    obtain ⟨m,-,hun,hbf,ho⟩ := h.moved_at hph rfl rfl
    rw [World.advance,hph]
    dsimp only
    cases hbl : (w.calls c).bulk with
    | none =>
      have d : Changes w ((w.setTxn t { w.txns t with buffer := some [], handle := .shared [] }).idle c) c t
          { w.txns t with buffer := some [], handle := .shared [] } .none := ⟨rfl,rfl,rfl,rfl,rfl,rfl,.inl rfl⟩
      refine d.lends h (m.ready hun) (keepsOthers_of_moved m.handle) ⟨rfl,hun.1,m.ongoing.1⟩ rfl ?_
        nofun ?_
      · dsimp only
        rw [ho]
      · rw [m.load,hbf,hph,ho]
        rfl
    | some rows =>
      have a : Adjusts w (w.setTxn t { w.txns t with buffer := some [] }) t { w.txns t with buffer := some [] } :=
        ⟨rfl,rfl,rfl,rfl,rfl,rfl,rfl⟩
      refine m.nextRow h hun a ⟨m.handle,rfl,rfl⟩ ?_ rows ?_
      · dsimp only
        rw [ho]
      · dsimp only
        rw [hbf,hph,ho]
        rfl
  | writing t op | admitting t op =>
    have m := h.writing (t := t) (by rw [hph]; rfl) (by rw [hph]; rfl)
    rw [hph] at hcr
    rw [World.advance,hph]
    dsimp only at hcr ⊢
    split
    next e he =>
      refine m.endWrite h (adjusts_self w t) ⟨rfl,rfl,rfl⟩ m.buffer (fun hbl => ?_) rfl
      rw [hcr hbl] at he
      cases he
    · exact m.setPhase h rfl rfl (fun _ hb => hb) rfl fun _ hs => hs
  | buffering t op =>
    have m := h.writing (t := t) (by rw [hph]; rfl) (by rw [hph]; rfl)
    rw [World.advance,hph]
    dsimp only
    rw [m.buffer]
    have a : Adjusts w { w.setTxn t { w.txns t with
        buffer := some ((w.txns t).ops ++ [op]), ops := (w.txns t).ops ++ [op] } with pendingWrites := w.pendingWrites+1 } t
        { w.txns t with buffer := some ((w.txns t).ops ++ [op]), ops := (w.txns t).ops ++ [op] } :=
      ⟨rfl,rfl,rfl,rfl,rfl,rfl,rfl⟩
    refine m.endWrite h a ⟨rfl,rfl,rfl⟩ rfl (fun _ => rfl) ?_
    change w.pendingWrites + 1+_ = w.pendingWrites + ((w.txns t).ops ++ [op]).length
    rw [length_append,length_singleton]
    omega
  | committing t =>
    obtain ⟨m,-,hun,hbf⟩ := h.moved_at hph rfl rfl
    rw [hph] at hcr
    rw [World.advance,hph]
    dsimp only at hcr ⊢
    split
    next e he =>
      refine m.ends_unsent h hun (adjusts_self w t) ⟨rfl,rfl⟩ rfl (fun hbl => ?_) (by rw [hph]; rfl)
      rw [hcr hbl] at he
      cases he
    · refine m.steps h hun (changes_setPhase w c t _) ⟨m.handle,rfl,rfl⟩ rfl rfl trivial
        (fun hu => ⟨hu,hbf⟩) (by rw [hph]; rfl)
  | removing t =>
    obtain ⟨m,-,hun,hbf⟩ := h.moved_at hph rfl rfl
    rw [World.advance,hph]
    dsimp only
    rw [hbf]
    have d : Changes w ((w.setTxn t { w.txns t with buffer := none, closed := true }).setPhase c (.counting t (w.txns t).ops)) c t
        { w.txns t with buffer := none, closed := true } ⟨.counting t (w.txns t).ops,(w.calls c).bulk⟩ :=
      ⟨rfl,rfl,rfl,rfl,rfl,rfl,.inl rfl⟩
    refine m.steps h hun d ⟨m.handle,rfl,rfl⟩ rfl rfl trivial (fun hu => ⟨hu,?_,?_⟩) ?_
    · rw [d.txn_eq]
    · rw [d.txn_eq]
    · rw [hbf,hph]
      rfl
  | counting t buffer =>
    obtain ⟨m,-,hun,hbf,ho⟩ := h.moved_at hph rfl rfl
    have hle := h.load_le m.old
    rw [m.load,hph] at hle
    have hc : w.pendingWrites-buffer.length + (w.txns t).buffer.elim 0 List.length + (w.calls c).phase.uncounted =
        w.pendingWrites+0 := by
      rw [hbf,hph]
      change w.pendingWrites - buffer.length + 0+buffer.length = w.pendingWrites+0
      change _ + buffer.length ≤ _ at hle
      omega
    rw [World.advance,hph]
    dsimp only
    split
    next hem =>
      refine m.ends h (adjusts_pending w t _) ⟨rfl,rfl⟩ (.committed 1) (fun _ => ?_) nofun
        nofun (fun e he heq => absurd heq (hun.no_entry e he)) ?_
      · rw [hun.2.1,← ho,eq_nil_of_length_eq_zero hem]
        rfl
      · rw [hbf] at hc ⊢
        exact hc
    · have d : Changes w ({ w with pendingWrites := w.pendingWrites-buffer.length }.setPhase c (.sending t buffer)) c t
          (w.txns t) ⟨.sending t buffer,(w.calls c).bulk⟩ :=
        ⟨(update_eq_self t w.txns).symm,rfl,rfl,rfl,rfl,rfl,.inl rfl⟩
      refine m.steps h hun d ⟨m.handle,rfl,rfl⟩ rfl rfl trivial (fun hu => ⟨hu,hbf,ho⟩) ?_
      rw [hbf] at hc ⊢
      exact hc
  | sending t buffer =>
    obtain ⟨m,-,hun,hbf,ho⟩ := h.moved_at hph rfl rfl
    rw [World.advance,hph]
    dsimp only
    split
    · exact m.ends_unsent h hun (adjusts_self w t) ⟨rfl,rfl⟩ rfl (fun _ => hbf) (by rw [hph]; rfl)
    · split
      · exact h.send m hph
      · exact h
  | waiting t =>
    obtain ⟨m,-,hbf,ha⟩ := h.moved_at hph rfl rfl
    have hr : (w.txns t).response ≠ .empty → ∀ e ∈ w.entries, e.1.txnId = t → e.2 = none := by
      rintro hno ⟨r,left⟩ he rfl
      cases left with
      | none => rfl
      | some left => exact absurd (h.entries _ he).2.2.1 hno
    have hc : w.pendingWrites + (w.txns t).buffer.elim 0 List.length + (w.calls c).phase.uncounted =
        w.pendingWrites + (w.txns t).buffer.elim 0 List.length := by rw [hph]; rfl
    rw [World.advance,hph]
    dsimp only
    rw [Answered] at ha
    cases hrs : (w.txns t).response with
    | empty => exact h
    | success timestamp =>
      rw [hrs] at ha hr
      exact m.ends h (adjusts_self w t) ⟨rfl,rfl⟩ _ (fun _ => ha) nofun nofun
        (hr Response.noConfusion) hc
    | error e | disconnected =>
      rw [hrs] at ha hr
      exact m.ends h (adjusts_self w t) ⟨rfl,rfl⟩ _ nofun (fun _ => ha) (fun _ _ => hbf)
        (hr Response.noConfusion) hc
  | aborting t =>
    obtain ⟨m,hf,hun,hbf⟩ := h.moved_at hph rfl rfl
    rw [World.advance,hph]
    dsimp only
    split
    · refine m.ends_unsent h hun (adjusts_self w t) ⟨rfl,rfl⟩ rfl (fun hbl => ?_) (by rw [hph]; rfl)
      rw [hf] at hbl
      cases hbl
    · exact m.steps h hun (changes_setPhase w c t _) ⟨m.handle,rfl,rfl⟩ rfl rfl hf (fun hu => ⟨hu,hbf⟩)
        (by rw [hph]; rfl)
  | discarding t =>
    obtain ⟨m,hf,hun,hbf⟩ := h.moved_at hph rfl rfl
    rw [World.advance,hph]
    dsimp only
    have d : Changes w ((w.setTxn t { w.txns t with buffer := none }).setPhase c
        (.uncounting t ((w.txns t).buffer.elim 0 List.length))) c t { w.txns t with buffer := none }
        ⟨.uncounting t ((w.txns t).buffer.elim 0 List.length),(w.calls c).bulk⟩ := ⟨rfl,rfl,rfl,rfl,rfl,rfl,.inl rfl⟩
    refine m.steps h hun d ⟨m.handle,rfl,rfl⟩ rfl rfl hf (fun hu => ⟨hu,by rw [d.txn_eq]⟩) ?_
    rw [hph]
    rfl
  | uncounting t count =>
    obtain ⟨m,-,hun,hbf⟩ := h.moved_at hph rfl rfl
    have hle := h.load_le m.old
    rw [m.load,hph] at hle
    have a : Adjusts w { w.setTxn t { w.txns t with closed := true } with pendingWrites := w.pendingWrites-count } t
        { w.txns t with closed := true } := ⟨rfl,rfl,rfl,rfl,rfl,rfl,rfl⟩
    rw [World.advance,hph]
    refine m.ends_unsent h hun a ⟨rfl,rfl⟩ rfl (fun _ => hbf) ?_
    rw [hph,hbf] at *
    change w.pendingWrites - count + 0+count = w.pendingWrites+0
    change 0 + count ≤ w.pendingWrites at hle
    omega

theorem Sound.lent (hs : (w.txns t).handle = .shared borrowers) :
    t < w.nextTxnId ∧ w.Unsent t ∧ (w.txns t).buffer = some (w.txns t).ops ∧ (w.txns t).outcome = none ∧ t ∉ w.failedBulks := by
  have hp := h.placed hs
  exact ⟨hp.1,hp.2.1,hp.2.2,h.ongoing (by rw [hs]; exact Handle.noConfusion)⟩

theorem Sound.move (hs : (w.txns t).handle = .shared []) (hi : (w.calls c).phase = .idle) {phase : Phase}
    (hph : phase.txn? = some t) (hf : phase.Fits none) (hun : phase.uncounted = 0)
    (hsn : ∀ w' : World, w'.Unsent t ∧ (w'.txns t).buffer = some (w'.txns t).ops → w'.PhaseSound t phase) :
    ((w.setTxn t { w.txns t with handle := .moved c }).setCall c ⟨phase,none⟩).Sound := by
  obtain ⟨hold,hus,hbf,ho⟩ := h.lent hs
  have d : Changes w ((w.setTxn t { w.txns t with handle := .moved c }).setCall c ⟨phase,none⟩) c t
      { w.txns t with handle := .moved c } ⟨phase,none⟩ := ⟨rfl,rfl,rfl,rfl,rfl,rfl,.inl rfl⟩
  have hr : ∀ t', (w.calls c).phase.txn? = some t' → t' = t := fun t' ht' => by
    rw [hi] at ht'
    cases ht'
  have hoh : KeepsOthers w ((w.setTxn t { w.txns t with handle := .moved c }).setCall c ⟨phase,none⟩) c t := by
    intro c' _
    rw [hs]
    refine ⟨fun hno => (nomatch hno),fun borrowers hb hm => ?_⟩
    rw [Handle.shared.injEq] at hb
    rw [← hb] at hm
    exact absurd hm not_mem_nil
  refine d.moves h ⟨hold,hr,hus,ho⟩ hoh ⟨rfl,hus.1,ho.1⟩ rfl hph hf
    (fun hu => hsn _ ⟨hu,?_⟩) ?_
  · rw [d.txn_eq]
    exact hbf
  · rw [load_of_shared hs,hun]
    rfl

theorem Sound.start (c : Nat) (request : Request) : (w.start c request).Sound := by
  unfold World.start
  split
  · exact h
  next hi =>
    rw [not_not] at hi
    have hb : (w.calls c).phase.txn? = none := by rw [hi]; rfl
    cases request with
    | beginTransaction | bulkInsert table rows => exact h.setCall hb rfl
    | write t op =>
      dsimp only
      split
      next borrowers hsh =>
        obtain ⟨hold,hu,hbf,ho⟩ := h.lent hsh
        have d : Changes w ((w.setTxn t { w.txns t with handle := .shared (borrowers ++ [c]) }).setCall c ⟨.writing t op,none⟩) c t
            { w.txns t with handle := .shared (borrowers ++ [c]) } ⟨.writing t op,none⟩ := ⟨rfl,rfl,rfl,rfl,rfl,rfl,.inl rfl⟩
        refine d.lends h ⟨hold,fun t' ht' => ?_,hu,ho⟩ (keepsOthers_of_shared hsh (by rw [d.txn_eq]) ?_)
          ⟨rfl,hu.1,ho.1⟩ rfl hbf (fun t' ht' => ?_) ?_
        · rw [hb] at ht'
          cases ht'
        · exact fun _ _ hm => mem_append_left _ hm
        · cases ht'
          exact ⟨rfl,rfl,rfl,mem_append_right _ (mem_singleton_self c)⟩
        · rw [load_of_shared hsh,hbf]
          rfl
      · exact h
    | commit t =>
      dsimp only
      split
      next hsh =>
        exact h.move hsh hi rfl trivial rfl fun _ hs => hs
      · exact h
    | abort t =>
      dsimp only
      split
      next hsh =>
        exact h.move hsh hi rfl rfl rfl fun _ hs => hs
      · exact h

omit h

/-- A step of the worker leaves the calls and the transactions alone, except for responses and what has been applied. -/
structure Works (w w' : World) : Prop where
  calls : w'.calls = w.calls
  next : w'.nextTxnId = w.nextTxnId
  pending : w'.pendingWrites = w.pendingWrites
  failed : w'.failedBulks = w.failedBulks
  handle : ∀ t, (w'.txns t).handle = (w.txns t).handle
  buffer : ∀ t, (w'.txns t).buffer = (w.txns t).buffer
  ids : ∀ t, t ∈ w'.ids → t ∈ w.ids

variable (ws : Works w w')
include ws

theorem Works.unsent (htx : w'.txns t = w.txns t) (ha : w'.appliedOf t = w.appliedOf t) (h : w.Unsent t) : w'.Unsent t :=
  ⟨by rw [htx]; exact h.1,by rw [ha]; exact h.2.1,fun hm => h.2.2 (ws.ids t hm)⟩

theorem Works.txnSound (h : w.Sound) (htx : w'.txns t = w.txns t) (ha : w'.appliedOf t = w.appliedOf t) : w'.TxnSound t := by
  have hun := fun hu : w.Unsent t => ws.unsent htx ha hu
  obtain ⟨hpl,ho,hf⟩ := h.txns t
  refine ⟨?_,by rw [htx]; exact ho,by rw [htx,ws.failed]; exact hf⟩
  rw [htx]
  cases hh : (w.txns t).handle with
  | unborn =>
    rw [hh] at hpl
    exact ⟨by rw [htx]; exact hpl.1,hun hpl.2⟩
  | shared borrowers =>
    rw [hh] at hpl
    exact ⟨by rw [ws.next]; exact hpl.1,hun hpl.2.1,by rw [htx]; exact hpl.2.2⟩
  | moved c =>
    rw [hh] at hpl
    rw [Placed,ws.next,ws.calls]
    refine ⟨hpl.1,hpl.2.1,hpl.2.2.1,?_⟩
    have hs := hpl.2.2.2
    cases hp : (w.calls c).phase <;> rw [hp] at hs <;> simp only [PhaseSound,Answered,htx,ha] at hs ⊢
    all_goals first
      | exact hs
      | exact ⟨hun hs.1,hs.2⟩
  | dropped =>
    rw [hh] at hpl
    refine ⟨by rw [ws.next]; exact hpl.1,?_⟩
    rw [Truthful,htx,ha]
    exact hpl.2

theorem Works.sentSound (h : w.Sound) (hsn : w.Waits t ∨ (w.txns t).handle = .dropped)
    (hou : (w'.txns t).outcome = (w.txns t).outcome) (htr : w.Truthful t → w'.Truthful t) (ha : w'.Answered t) :
    w'.TxnSound t := by
  obtain ⟨hp,ho,hf⟩ := h.txns t
  refine ⟨?_,by rw [ws.handle,hou]; exact ho,by rw [ws.handle,ws.buffer,ws.failed]; exact hf⟩
  rw [ws.handle]
  obtain ⟨c,hm,hph⟩ | hdropped := hsn
  · rw [hm] at hp ⊢
    rw [Placed,ws.next,ws.calls]
    refine ⟨hp.1,hp.2.1,hp.2.2.1,?_⟩
    have hs := hp.2.2.2
    rw [hph] at hs ⊢
    exact ⟨by rw [ws.buffer]; exact hs.1,ha⟩
  · rw [hdropped] at hp ⊢
    exact ⟨by rw [ws.next]; exact hp.1,htr hp.2⟩

theorem Works.waits : w'.Waits t ↔ w.Waits t := by
  rw [Waits,Waits,ws.handle,ws.calls]

variable {e : CommitRequest × Option (List WriteOp)}

theorem Works.entrySound (htx : w'.txns e.1.txnId = w.txns e.1.txnId)
    (ha : w'.appliedOf e.1.txnId = w.appliedOf e.1.txnId) (he : w.EntrySound e) : w'.EntrySound e := by
  obtain ⟨r,left⟩ := e
  dsimp only at htx ha
  cases left with
  | none | some left =>
    rw [EntrySound,ws.waits,htx,ha]
    exact he

theorem Works.sound (h : w.Sound) (htx : ∀ t, w'.TxnSound t) (he : ∀ e ∈ w'.entries, w'.EntrySound e)
    (hd : w'.ids.Nodup) : w'.Sound := by
  refine ⟨htx,fun c t ht => ?_,he,hd,?_⟩
  · rw [ws.calls] at ht ⊢
    rw [ws.handle]
    exact h.calls c t ht
  · rw [ws.pending,ws.next,h.counted]
    exact Finset.sum_congr rfl fun t _ => by rw [load,load,ws.handle,ws.buffer,ws.calls]

omit ws
variable (h : w.Sound)
include h

theorem Sound.shuffle (ws : Works w w') (htn : w'.txns = w.txns) (ha : w'.applied = w.applied) (hd : w'.ids.Nodup)
    (hen : ∀ e ∈ w'.entries, e ∈ w.entries ∨ e.2 = none ∧ (e.1,some e.1.buffer) ∈ w.entries) : w'.Sound := by
  have htx : ∀ t, w'.txns t = w.txns t := fun t => by rw [htn]
  refine ws.sound h (fun t => ws.txnSound h (htx t) (appliedOf_congr ha t)) (fun e he => ?_) hd
  obtain he | ⟨hn,hs⟩ := hen e he
  · exact ws.entrySound (htx _) (appliedOf_congr ha _) (h.entries e he)
  obtain ⟨r,left⟩ := e
  dsimp only at hn hs
  subst hn
  -- A request that is refused has not been begun.
  obtain ⟨hb,hw,hr,hl⟩ := h.entries _ hs
  refine @Works.entrySound w w' ws (r,none) (htx _) (appliedOf_congr ha _) ⟨.inl hw,fun timestamp hno => ?_,?_⟩
  · rw [hr] at hno
    cases hno
  · rw [hb] at hl
    exact append_left_eq_self.mp hl

theorem Sound.respond {response : Response} (hsn : w.Waits t ∨ (w.txns t).handle = .dropped)
    (hr : ∀ e ∈ w.entries, e.1.txnId = t → e.2 = none) (hs : ∀ timestamp, response = .success timestamp →
      w.appliedOf t = (w.txns t).ops.map WriteOp.arguments ∧ t ∉ w.ids)
    (hfr : (∀ timestamp, response ≠ .success timestamp) → w.appliedOf t = []) : (w.respond t response).Sound := by
  unfold World.respond
  split
  · obtain ⟨w',hw'⟩ : ∃ w', w' = w.setTxn t { w.txns t with response := response } := ⟨_,rfl⟩
    rw [← hw']
    have htx : w'.txns t = { w.txns t with response := response } := by rw [hw']; exact update_self _ _ _
    have ho : ∀ t', t' ≠ t → w'.txns t' = w.txns t' := fun t' hne => by rw [hw']; exact update_of_ne hne _ _
    have hfl : ∀ {β : Type} (f : Txn → β), f { w.txns t with response := response } = f (w.txns t) →
        ∀ t', f (w'.txns t') = f (w.txns t') := fun f hf t' => by
      by_cases ht : t' = t
      · rw [ht,htx,hf]
      · rw [ho t' ht]
    have hen : w'.entries = w.entries := by rw [hw']; rfl
    have ha : w'.applied = w.applied := by rw [hw']; rfl
    have ws : Works w w' := ⟨by rw [hw']; rfl,by rw [hw']; rfl,by rw [hw']; rfl,by rw [hw']; rfl,hfl Txn.handle rfl,
      hfl Txn.buffer rfl,fun t' hm => by rw [ids,hen] at hm; exact hm⟩
    refine ws.sound h (fun t' => ?_) (fun e he => ?_) (by rw [ids,hen]; exact h.distinct)
    · by_cases ht : t' = t
      · subst ht
        refine ws.sentSound h hsn (by rw [htx]) (fun htr => ?_) ?_
        · rw [Truthful,htx,appliedOf_congr ha]
          exact htr
        · rw [Answered,htx,appliedOf_congr ha]
          cases response with
          | empty => trivial
          | success timestamp => exact (hs timestamp rfl).1
          | error e | disconnected => exact hfr nofun
      · exact ws.txnSound h (ho t' ht) (appliedOf_congr ha t')
    · rw [hen] at he
      by_cases ht : e.1.txnId = t
      · obtain ⟨r,left⟩ := e
        cases hr _ he ht
        dsimp only at ht
        subst ht
        obtain ⟨hsn,-,hn⟩ := h.entries _ he
        refine ⟨?_,fun timestamp hno => ?_,by rw [appliedOf_congr ha]; exact hn⟩
        · rw [ws.waits,ws.handle]
          exact hsn
        · rw [htx] at hno
          exact (hs timestamp hno).2 (mem_map_of_mem he)
      · exact ws.entrySound (ho _ ht) (appliedOf_congr ha _) (h.entries e he)
  · exact h

theorem Sound.invoke {r : Stamped} {op : WriteOp} {left : List WriteOp} {todo : List Stamped}
    (hwk : w.worker = .invoking r (op::left) todo) :
    { w with worker := .invoking r left todo, applied := w.applied ++ [(r.1.txnId,op.arguments)] }.Sound := by
  obtain ⟨w',hw'⟩ : ∃ w' : World,
      w' = { w with worker := .invoking r left todo, applied := w.applied ++ [(r.1.txnId,op.arguments)] } := ⟨_,rfl⟩
  rw [← hw']
  obtain ⟨others,hb,haf⟩ : ∃ others, w.entries.Perm ((r.1,some (op::left))::others) ∧
      w'.entries.Perm ((r.1,some left)::others) := by
    refine ⟨(w.queue.map fun r => (r,some r.buffer)) ++ todo.map fun r => (r.1,some r.1.buffer),?_,?_⟩
    · rw [World.entries,hwk]
      exact perm_middle
    · rw [hw']
      exact perm_middle
  have hi : w.ids.Perm (r.1.txnId :: others.map (·.1.txnId)) := hb.map _
  have hid : w'.ids.Perm (r.1.txnId :: others.map (·.1.txnId)) := haf.map _
  have hd := hi.nodup_iff.mp h.distinct
  have htx : ∀ t, w'.txns t = w.txns t := fun t => by rw [hw']
  have hap : ∀ t, w'.appliedOf t = w.appliedOf t ++ if r.1.txnId = t then [op.arguments] else [] := by
    intro t
    rw [hw',appliedOf,appliedOf,filter_append,map_append]
    by_cases ht : r.1.txnId = t
    · simp [ht]
    · simp [ht]
  have ha : ∀ t, t ≠ r.1.txnId → w'.appliedOf t = w.appliedOf t := fun t hne => by
    rw [hap,if_neg (Ne.symm hne),append_nil]
  have ws : Works w w' := by
    refine ⟨by rw [hw'],by rw [hw'],by rw [hw'],by rw [hw'],fun t => by rw [htx],fun t => by rw [htx],fun t hm => ?_⟩
    exact hi.mem_iff.mpr (hid.mem_iff.mp hm)
  obtain ⟨hbf,hw,hr,hl⟩ := h.entries _ (hb.mem_iff.mpr mem_cons_self)
  refine ws.sound h (fun t => ?_) (fun e he => ?_) (hid.nodup_iff.mpr hd)
  · by_cases ht : t = r.1.txnId
    · subst ht
      have ho : (w.txns r.1.txnId).outcome = none := by
        obtain ⟨c,hmv,-⟩ := hw
        exact (h.moved hmv).ongoing.1
      refine ws.sentSound h (.inl hw) (by rw [htx]) (fun _ => ?_) ?_
      · rw [Truthful,htx,ho]
        trivial
      · rw [Answered,htx,hr]
        trivial
    · exact ws.txnSound h (htx t) (ha t ht)
  · obtain rfl | he := mem_cons.mp (haf.mem_iff.mp he)
    · refine ⟨by rw [htx]; exact hbf,ws.waits.mpr hw,by rw [htx]; exact hr,?_⟩
      rw [hap,if_pos rfl,htx,← hl,append_assoc]
      rfl
    · have hne : e.1.txnId ≠ r.1.txnId := fun heq =>
        (nodup_cons.mp hd).1 (heq ▸ mem_map_of_mem he)
      exact ws.entrySound (htx _) (ha _ hne) (h.entries e (hb.mem_iff.mpr (mem_cons_of_mem _ he)))

theorem Sound.handOver (queue : List CommitRequest) (worker : Worker) (nextCommitTs : Nat)
    (hp : ((queue.map fun r => (r,some r.buffer)) ++ worker.entries).Perm w.entries) :
    { w with queue := queue, worker := worker, nextCommitTs := nextCommitTs }.Sound := by
  have hi := hp.map (·.1.txnId)
  refine h.shuffle ⟨rfl,rfl,rfl,rfl,fun _ => rfl,fun _ => rfl,fun t hm => hi.mem_iff.mp hm⟩ rfl rfl
    (hi.nodup_iff.mpr h.distinct) fun e he => .inl (hp.mem_iff.mp he)

variable {worker : Worker}

theorem Sound.moveOn (he : worker.entries = w.worker.entries) : { w with worker := worker }.Sound :=
  h.handOver w.queue worker w.nextCommitTs (by rw [World.entries,he])

theorem Sound.refuse (hi : { w with worker := worker }.ids = w.ids)
    (hen : ∀ e ∈ worker.entries, e ∈ w.worker.entries ∨ e.2 = none ∧ (e.1,some e.1.buffer) ∈ w.worker.entries) :
    { w with worker := worker }.Sound := by
  refine h.shuffle ⟨rfl,rfl,rfl,rfl,fun _ => rfl,fun _ => rfl,fun t hm => hi ▸ hm⟩ rfl rfl (hi ▸ h.distinct)
    fun e he => ?_
  obtain he | he := mem_append.mp he
  · exact .inl (mem_append_left _ he)
  · exact (hen e he).imp (mem_append_right _) fun hn => ⟨hn.1,mem_append_right _ hn.2⟩

theorem Sound.takeOff {queue : List CommitRequest}
    (hp : w.entries.Perm (e::((queue.map fun r => (r,some r.buffer)) ++ worker.entries))) :
    { w with queue := queue, worker := worker }.Sound ∧ e.1.txnId ∉ { w with queue := queue, worker := worker }.ids := by
  have hi := hp.map (·.1.txnId)
  have hnd := nodup_cons.mp (hi.nodup_iff.mp h.distinct)
  refine ⟨h.shuffle ⟨rfl,rfl,rfl,rfl,fun _ => rfl,fun _ => rfl,fun t hm => hi.mem_iff.mpr (mem_cons_of_mem _ hm)⟩
    rfl rfl hnd.2 fun e he => .inl (hp.mem_iff.mpr (mem_cons_of_mem _ he)),hnd.1⟩

omit h

theorem EntrySound.untouched {r : CommitRequest} {left : Option (List WriteOp)} (he : w.EntrySound (r,left))
    (hl : ∀ ops, left = some ops → ops = r.buffer) : w.appliedOf r.txnId = [] := by
  cases left with
  | none => exact he.2.2
  | some ops =>
    obtain ⟨hb,-,-,ha⟩ := he
    rw [hl ops rfl,hb] at ha
    exact append_left_eq_self.mp ha

theorem works_respond (w : World) (t : TxnId) (response : Response) :
    Works w (w.respond t response) ∧ (w.respond t response).entries = w.entries ∧ (w.respond t response).applied = w.applied := by
  unfold respond
  split
  · have hfl : ∀ {β : Type} (f : Txn → β), f { w.txns t with response := response } = f (w.txns t) →
        ∀ t', f (Function.update w.txns t { w.txns t with response := response } t') = f (w.txns t') := fun f hf t' => by
      by_cases ht : t' = t
      · rw [ht,update_self,hf]
      · rw [update_of_ne ht]
    exact ⟨⟨rfl,rfl,rfl,rfl,hfl Txn.handle rfl,hfl Txn.buffer rfl,fun _ hm => hm⟩,rfl,rfl⟩
  · exact ⟨⟨rfl,rfl,rfl,rfl,fun _ => rfl,fun _ => rfl,fun _ hm => hm⟩,rfl,rfl⟩

theorem Sound.disconnect (h : w.Sound) {requests : List CommitRequest}
    (hs : ∀ r ∈ requests, (w.Waits r.txnId ∨ (w.txns r.txnId).handle = .dropped) ∧ r.txnId ∉ w.ids ∧ w.appliedOf r.txnId = []) :
    (w.disconnect requests).Sound := by
  induction requests generalizing w with
  | nil => exact h
  | cons r rest ih =>
    obtain ⟨⟨hs,hno,hap⟩,hrest⟩ := forall_mem_cons.mp hs
    have hr := @Sound.respond w r.txnId h .disconnected hs
      (fun e he heq => absurd (heq ▸ mem_map_of_mem he) hno) nofun fun _ => hap
    obtain ⟨ws,hen,ha⟩ := works_respond w r.txnId .disconnected
    refine ih hr fun r' hr' => ?_
    obtain ⟨hs',hno',ha'⟩ := hrest r' hr'
    refine ⟨?_,fun hm => hno' (ws.ids _ hm),by rw [appliedOf_congr ha]; exact ha'⟩
    rw [ws.waits,ws.handle]
    exact hs'

theorem processCommitBatch_entries (config : Config) (w : World) (batch : List CommitRequest) :
    (w.processCommitBatch config batch).worker.entries = batch.map fun r => (r,some r.buffer) := by
  have hs : ((batch.zipIdx.map fun entry => (entry.1,w.nextCommitTs+entry.2)).map fun r : Stamped =>
      (r.1,some r.1.buffer)) = batch.map fun r => (r,some r.buffer) := by
    rw [map_map]
    conv_rhs => rw [← zipIdx_map_fst 0 batch,map_map]
    rfl
  unfold processCommitBatch
  dsimp only
  split
  · exact hs
  · exact hs

theorem Sound.processCommitBatch (h : w.Sound) {batch : List CommitRequest} (hw : w.worker = .collecting batch)
    (config : Config) : (w.processCommitBatch config batch).Sound := by
  refine h.handOver w.queue _ _ ?_
  have he := processCommitBatch_entries config w batch
  rw [World.entries,hw]
  exact List.Perm.of_eq (congrArg (_ ++ ·) he)

theorem entries_of_logged {done : List (Stamped × Bool)} (hd : ∀ e ∈ done, e.2 = true) :
    (done.map fun e => (e.1.1,if e.2 then some e.1.1.buffer else none)) =
      (done.map (·.1)).map fun r => (r.1,some r.1.buffer) := by
  rw [map_map]
  refine map_congr_left fun e he => ?_
  rw [hd e he]
  rfl

theorem Sound.work (h : w.Sound) (config : Config) (io : Option String) (hc : Careful config w (.worker io)) :
    (w.work config io).Sound := by
  rw [Careful] at hc
  unfold World.work
  cases hw : w.worker with
  | receiving =>
    dsimp only
    split
    next hq =>
      exact h.moveOn (by rw [hw]; rfl)
    next r queue hq =>
      refine h.handOver queue (.collecting [r]) w.nextCommitTs ?_
      rw [World.entries,hw,hq]
      change List.Perm (_ ++ [(r,some r.buffer)]) ((r,some r.buffer)::_ ++ [])
      rw [append_nil]
      exact perm_append_comm
  | timedOut =>
    dsimp only
    split
    · split
      next hq =>
        exact h.moveOn (by rw [hw]; rfl)
      next r queue hq =>
        have hp : w.entries.Perm ((r,some r.buffer) ::
            ((queue.map fun r => (r,some r.buffer)) ++ Worker.receiving.entries)) := by
          rw [World.entries,hw,hq]
          exact List.Perm.refl _
        have he := h.entries _ (hp.mem_iff.mpr mem_cons_self)
        obtain ⟨hk,hno⟩ := h.takeOff hp
        refine hk.respond (.inl he.2.1) (fun e hm heq => absurd (heq ▸ mem_map_of_mem hm) hno) nofun
          fun _ => ?_
        exact he.untouched fun _ ho => (Option.some.inj ho).symm
    · exact h.moveOn (by rw [hw]; rfl)
  | collecting batch =>
    dsimp only
    split
    · split
      · exact h.processCommitBatch hw config
      next r queue hq =>
        refine h.handOver queue (.collecting (batch ++ [r])) w.nextCommitTs ?_
        rw [World.entries,hw,hq]
        change List.Perm (_ ++ (batch ++ [r]).map _) ((r,some r.buffer)::_ ++ batch.map _)
        rw [map_append,← append_assoc]
        exact perm_append_comm
    · exact h.processCommitBatch hw config
  | logging done todo =>
    rw [hw] at hc
    cases todo with
    | nil =>
      dsimp only at hc ⊢
      split
      · exact h.moveOn (by rw [hw]; exact (append_nil _).symm)
      next hsy =>
        have hl := entries_of_logged (hc (by simpa using hsy))
        exact h.moveOn (by rw [hw]; exact hl.symm.trans (append_nil _).symm)
    | cons r todo =>
      dsimp only
      have hl : ∀ accepted, (Worker.logging (done ++ [(r,accepted)]) todo).entries =
          (done.map fun e => (e.1.1,if e.2 then some e.1.1.buffer else none)) ++
            (r.1,if accepted then some r.1.buffer else none) :: todo.map fun r => (r.1,some r.1.buffer) := fun accepted => by
        rw [Worker.entries,map_append,append_assoc]
        rfl
      cases io with
      | none => exact h.moveOn (by rw [hw]; exact hl true)
      | some message =>
        -- The request stays in the batch, refused.
        have hi : { w with worker := .logging (done ++ [(r,false)]) todo }.ids = w.ids := by
          rw [ids,ids,World.entries,World.entries,hl,hw]
          simp only [Worker.entries,map_append,map_cons]
        have hs : { w with worker := .logging (done ++ [(r,false)]) todo }.Sound := by
          refine h.refuse hi fun e he => ?_
          rw [hl] at he
          rw [hw,Worker.entries]
          simp only [mem_append,map_cons,mem_cons] at he ⊢
          obtain he | rfl | he := he
          · exact .inl (.inl he)
          · exact .inr ⟨rfl,.inr (.inl rfl)⟩
          · exact .inl (.inr (.inr he))
        have hrf : (r.1,none) ∈ { w with worker := .logging (done ++ [(r,false)]) todo }.entries := by
          rw [World.entries,hl]
          exact mem_append_right _ (mem_append_right _ mem_cons_self)
        refine hs.respond (hs.entries _ hrf).1 (fun e he heq => ?_) nofun
          fun _ => (hs.entries _ hrf).2.2
        have hsame := inj_on_of_nodup_map hs.distinct he hrf heq
        rw [hsame]
  | syncing done =>
    rw [hw] at hc
    cases io with
    | none =>
      exact h.moveOn (by rw [hw]; exact (entries_of_logged (hc rfl)).symm)
    | some message =>
      have hrj : (Worker.rejecting message (done.map (·.1))).entries = done.map fun e => (e.1.1,none) := by
        rw [Worker.entries,map_map]
        rfl
      refine h.refuse ?_ fun e he => ?_
      · rw [ids,ids,World.entries,World.entries,hrj,hw,Worker.entries]
        simp only [map_append,map_map,comp_def]
      · rw [hrj] at he
        rw [hw,Worker.entries]
        obtain ⟨entry,hen,rfl⟩ := mem_map.mp he
        have hm : (entry.1.1,if entry.2 then some entry.1.1.buffer else none) ∈
            done.map fun e => (e.1.1,if e.2 then some e.1.1.buffer else none) := mem_map_of_mem hen
        cases hok : entry.2 with
        | true =>
          rw [if_pos hok] at hm
          exact .inr ⟨rfl,hm⟩
        | false =>
          rw [if_neg (by rw [hok]; exact Bool.false_ne_true)] at hm
          exact .inl hm
  | rejecting message todo =>
    cases todo with
    | nil =>
      exact h.moveOn (by rw [hw]; rfl)
    | cons r todo =>
      have hp : w.entries.Perm ((r.1,none) ::
          ((w.queue.map fun r => (r,some r.buffer)) ++ (Worker.rejecting message todo).entries)) := by
        rw [World.entries,hw]
        exact perm_middle
      have he := h.entries _ (hp.mem_iff.mpr mem_cons_self)
      obtain ⟨hk,hno⟩ := h.takeOff hp
      exact hk.respond he.1 (fun e hm heq => absurd (heq ▸ mem_map_of_mem hm) hno) nofun
        fun _ => he.2.2
  | applying todo =>
    cases todo with
    | nil | cons r todo =>
      exact h.moveOn (by rw [hw]; rfl)
  | invoking r left todo =>
    cases left with
    | nil =>
      have hp : w.entries.Perm ((r.1,some []) ::
          ((w.queue.map fun r => (r,some r.buffer)) ++ (Worker.applying todo).entries)) := by
        rw [World.entries,hw]
        exact perm_middle
      obtain ⟨-,hwt,-,ha⟩ := h.entries _ (hp.mem_iff.mpr mem_cons_self)
      obtain ⟨hk,hno⟩ := h.takeOff hp
      refine hk.respond (.inl hwt) (fun e hm heq => absurd (heq ▸ mem_map_of_mem hm) hno) (fun _ _ => ⟨?_,hno⟩)
        fun hno => absurd rfl (hno r.2)
      exact (append_nil _).symm.trans ha
    | cons op left => exact h.invoke hw
  | leaving =>
    have hb : w.entries = w.queue.map fun r => (r,some r.buffer) := by
      rw [World.entries,hw]
      exact append_nil _
    have hk : { w with queue := [], worker := .exited }.Sound := by
      refine h.shuffle ⟨rfl,rfl,rfl,rfl,fun _ => rfl,fun _ => rfl,fun t hm => absurd hm not_mem_nil⟩ rfl rfl
        nodup_nil fun e he => absurd he not_mem_nil
    refine hk.disconnect fun r hr => ?_
    have he : w.EntrySound (r,some r.buffer) := h.entries _ (by rw [hb]; exact mem_map_of_mem hr)
    exact ⟨.inl he.2.1,not_mem_nil,he.untouched fun _ ho => (Option.some.inj ho).symm⟩
  | exited => exact h

theorem Sound.step (h : w.Sound) (config : Config) (a : Step) (hc : Careful config w a) : (w.step config a).Sound := by
  cases a with
  | start c request => exact h.start c request
  | advance c => exact h.advance config hc
  | worker io => exact h.work config io hc
  | shutdown =>
    have ws : Works w { w with shutdown := true } := ⟨rfl,rfl,rfl,rfl,fun _ => rfl,fun _ => rfl,fun _ hm => hm⟩
    exact h.shuffle ws rfl rfl h.distinct fun e he => .inl he

theorem sound_new : new.Sound := by
  have hu : ∀ t, new.Unsent t := fun t => ⟨rfl,rfl,not_mem_nil⟩
  exact ⟨fun t => ⟨⟨rfl,hu t⟩,fun _ => rfl,fun hm => absurd hm not_mem_nil⟩,fun c t ht => (nomatch ht),
    fun e he => absurd he not_mem_nil,nodup_nil,rfl⟩

theorem Sound.truthful (h : w.Sound) (t : TxnId) : w.Truthful t := by
  obtain ⟨hp,hon,-⟩ := h.txns t
  by_cases ho : (w.txns t).handle = .dropped
  · rw [ho] at hp
    exact hp.2
  · rw [Truthful,hon ho]
    trivial

theorem Sound.pending_eq (h : w.Sound) (hqt : ∀ c, (w.calls c).phase = .idle) :
    w.pendingWrites = ∑ t ∈ Finset.range w.nextTxnId, (w.txns t).buffer.elim 0 List.length := by
  rw [h.counted]
  refine Finset.sum_congr rfl fun t _ => ?_
  rw [load]
  cases (w.txns t).handle with
  | moved c =>
    dsimp only
    rw [hqt c]
    rfl
  | unborn | shared borrowers | dropped => rfl

end
end World

/-- In every state of every run whose steps are careful, the callback has been invoked on exactly the operations of each transaction
that was committed and on none of the others that are over, the counter of pending writes is right when no call is running, and a
`bulk_insert` that has failed has left no active transaction behind. -/
theorem ingestion_truthful (config : Config) {steps : List Step}
    (hcareful : Guarded (World.step config) (World.Careful config) World.new steps) :
    let w := run (World.step config) World.new steps
    (∀ t, w.Truthful t) ∧
      ((∀ c, (w.calls c).phase = .idle) →
        w.pendingWrites = ∑ t ∈ Finset.range w.nextTxnId, (w.txns t).buffer.elim 0 List.length) ∧
      ∀ t ∈ w.failedBulks, (w.txns t).buffer = none := by
  intro w
  have h : w.Sound := guarded_run_invariant (World.step config) World.Sound
    (fun w a hw ha => World.Sound.step hw config a ha) World.sound_new hcareful
  exact ⟨h.truthful,h.pending_eq,fun t hmem => ((h.txns t).failed hmem).2⟩

/-- A client inserts a row and commits; the worker logs, syncs and applies it. -/
def oneCommit : List Step :=
  [.start 0 .beginTransaction,.advance 0,.advance 0,.advance 0,
    .start 0 (.insert 1 "items" 7 [65]),.advance 0,.advance 0,.advance 0,
    .start 0 (.commit 1),.advance 0,.advance 0,.advance 0,.advance 0,
    .worker none,.worker none,.worker none,.worker none,.worker none,.worker none,.worker none,.worker none,.advance 0]

theorem ingestion_truthful_one_commit :
    let w := run (World.step ⟨.full,10⟩) World.new oneCommit
    (w.txns 1).outcome = some (.committed 1) ∧ w.applied = [(1, "items",7,some [65])] ∧ w.Truthful 1 := by
  refine ⟨by decide,by decide,(ingestion_truthful ⟨.full,10⟩ ?_).1 1⟩
  exact ⟨trivial,nofun,nofun,nofun,trivial,nofun,
    nofun,nofun,trivial,nofun,nofun,nofun,
    nofun,trivial,trivial,trivial,nofun,fun _ _ he => by rw [mem_singleton.mp he],trivial,trivial,
    trivial,nofun,trivial⟩

/-- The write of the only request of a batch fails; it is applied all the same. -/
def failedWrite : List Step :=
  [.start 0 .beginTransaction,.advance 0,.advance 0,.advance 0,
    .start 0 (.insert 1 "items" 7 [65]),.advance 0,.advance 0,.advance 0,
    .start 0 (.commit 1),.advance 0,.advance 0,.advance 0,.advance 0,
    .worker none,.worker none,.worker (some "disk full"),.worker none,.worker none,.worker none,.worker none,.advance 0]

def refusedBulk : List Step :=
  [.start 0 (.bulkInsert "items" [(7,[65]),(8,[66])]),.advance 0,.advance 0,.advance 0,
    .advance 0,.advance 0,.advance 0,.advance 0,.advance 0]

/-- A commit whose write failed returns the error and is applied; a failed bulk insert leaves its transaction and its writes behind. -/
theorem failed_commit_applied :
    (let w := run (World.step ⟨.async,10⟩) World.new failedWrite;
      (w.txns 1).outcome = some (.failed (.walError "disk full")) ∧ w.appliedOf 1 = [("items",7,some [65])] ∧ ¬w.Truthful 1) ∧
    let w := run (World.step ⟨.full,1⟩) World.new refusedBulk;
    (w.txns 1).outcome = some (.failed .backpressureExceeded) ∧ 1 ∈ w.failedBulks ∧
      (w.txns 1).buffer = some [.insert "items" 7 [65]] ∧ w.pendingWrites = 1 := by
  have houtcome : ((run (World.step ⟨.async,10⟩) World.new failedWrite).txns 1).outcome = some (.failed (.walError "disk full")) := by
    decide
  have happlied : (run (World.step ⟨.async,10⟩) World.new failedWrite).appliedOf 1 = [("items",7,some [65])] := by decide
  refine ⟨⟨houtcome,happlied,fun htrue => ?_⟩,by decide,by decide,by decide,by decide⟩
  rw [World.Truthful,houtcome,happlied] at htrue
  cases htrue

end HeliosNano.Storage.Ingestion
