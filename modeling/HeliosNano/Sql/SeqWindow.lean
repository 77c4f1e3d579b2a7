import Mathlib.Algebra.Order.Ring.Int
import Mathlib.Data.List.Nodup
import HeliosNano.Sql.SeqRuntime

namespace HeliosNano.Sql
open SeqRuntime List Function Option Option.some Progress

def position (incr v : Int) : Int := if 0 < incr then v else -v

/-- The end of the `i64` range that the sequence moves to. -/
def limit (incr : Int) : Int := if 0 < incr then i64Max else i64Min

namespace SeqRuntime

def pos (rt : SeqRuntime) (v : Int) : Int := position rt.increment v

def lowest (rt : SeqRuntime) : Int := if 0 < rt.increment then rt.minValue else -rt.maxValue
def highest (rt : SeqRuntime) : Int := if 0 < rt.increment then rt.maxValue else -rt.minValue

/-- The definition behind the runtime is one that `CREATE SEQUENCE` accepts, without CYCLE. -/
structure Proper (rt : SeqRuntime) : Prop where
  moves : rt.increment ≠ 0
  noCycle : rt.cycle = false
  low : IsI64 rt.minValue
  high : IsI64 rt.maxValue

/-- Two states of one runtime: nothing but the atomics and the mutex may differ. -/
structure SameDefinition (rt rt' : SeqRuntime) : Prop where
  name : rt'.name = rt.name
  increment : rt'.increment = rt.increment
  minValue : rt'.minValue = rt.minValue
  maxValue : rt'.maxValue = rt.maxValue
  cache : rt'.cache = rt.cache
  cycle : rt'.cycle = rt.cycle
  notCalledTarget : rt'.notCalledTarget = rt.notCalledTarget
  volatile : rt'.volatile = rt.volatile

variable {rt rt' : SeqRuntime}

theorem SameDefinition.refl (rt : SeqRuntime) : rt.SameDefinition rt := ⟨rfl,rfl,rfl,rfl,rfl,rfl,rfl,rfl⟩

theorem sameDefinition_store (next blockEnd lastServed : Int) (isCalled : Bool) (refill : Option ThreadId) :
    rt.SameDefinition { rt with
      next := next, blockEnd := blockEnd, isCalled := isCalled, lastServed := lastServed, refill := refill } :=
  ⟨rfl,rfl,rfl,rfl,rfl,rfl,rfl,rfl⟩

theorem SameDefinition.proper (h : rt.SameDefinition rt') (hp : rt.Proper) : rt'.Proper := by
  obtain ⟨-,hi,hmn,hm,-,hc,-,-⟩ := h
  exact ⟨hi ▸ hp.moves,hc ▸ hp.noCycle,hmn ▸ hp.low,hm ▸ hp.high⟩

variable {v stop first last : Int}

theorem within_iff : (rt.lowest ≤ rt.pos v ∧ rt.pos v ≤ rt.highest) ↔ rt.minValue ≤ v ∧ v ≤ rt.maxValue := by
  unfold lowest highest pos position
  split <;> omega

variable {cur : Int} {pc : Pc}

theorem inBlock_iff : rt.inBlock cur stop = true ↔ rt.pos cur ≤ rt.pos stop := by
  unfold inBlock pos position
  split <;> simp

/-- The pointer would be parked beyond the `i64` range and stays on the end of the block. -/
def Saturates (rt : SeqRuntime) (cur stop : Int) : Prop :=
  checkedAdd cur rt.increment = none ∧ stop = limit rt.increment
deriving Decidable

theorem pos_lt_stepped (hp : rt.Proper) (hb : rt.pos cur ≤ rt.pos stop)
    (hl : rt.lowest ≤ rt.pos cur) (hh : rt.pos stop ≤ rt.highest) (hs : ¬rt.Saturates cur stop) :
    rt.pos cur < rt.pos (rt.stepped cur stop) := by
  obtain ⟨hm,-,⟨hmn,-⟩,⟨-,hmx⟩⟩ := hp
  cases hn : checkedAdd cur rt.increment with
  | some n =>
    have ha : cur+rt.increment = n := by
      simp only [checkedAdd,ite_none_right_eq_some,some.injEq] at hn
      exact hn.2
    simp only [stepped,hn,pos,position]
    split <;> omega
  | none =>
    have hst : stop ≠ limit rt.increment := fun h => hs ⟨hn,h⟩
    simp only [stepped,hn]
    unfold pos position lowest highest limit saturate i64Min i64Max at *
    split_ifs at * <;> omega

theorem pos_le_lastOfBlock (hl : rt.lowest ≤ rt.pos first) (hh : rt.pos first ≤ rt.highest) :
    rt.pos first ≤ rt.pos (rt.lastOfBlock first) ∧ rt.pos (rt.lastOfBlock first) ≤ rt.highest := by
  have hs : 0 ≤ max rt.cache 1 - 1 := by omega
  unfold lastOfBlock clampBlockEnd
  unfold pos position lowest highest at *
  dsimp only
  split_ifs at * with hi
  · have hsp : 0 ≤ rt.increment*(max rt.cache 1 - 1) := mul_nonneg hi.le hs
    omega
  · have hsp : rt.increment*(max rt.cache 1 - 1) ≤ 0 :=
      mul_nonpos_of_nonpos_of_nonneg (not_lt.mp hi) hs
    omega

theorem checkedStep_ok {n : Int} (hp : rt.Proper)
    (h : checkedStep rt.name cur rt.increment rt.minValue rt.maxValue rt.cycle = .ok n) :
    n = cur+rt.increment ∧ rt.pos n ≤ rt.highest := by
  have hm := hp.moves
  cases hn : checkedAdd cur rt.increment with
  | none =>
    simp only [checkedStep,hn,hp.noCycle,Bool.false_eq_true,if_false] at h
    split at h <;> cases h
  | some m =>
    have ha : cur+rt.increment = m := by
      simp only [checkedAdd,ite_none_right_eq_some,some.injEq] at hn
      exact hn.2
    simp only [checkedStep,hn,hp.noCycle,Bool.false_eq_true,if_false] at h
    unfold pos position highest
    split_ifs at h ⊢ <;> simp_all
    omega

def Pc.critical : Pc → Bool
  | .recheckNext | .recheckEnd _ | .unlockAndRetry | .loadHigh | .loadCalled _ | .readState _ _
  | .flush _ _ _ | .publishNext _ _ | .publishCalled _ _ | .publishServed _ _ | .publishEnd _ _
  | .unlockAndReturn _ | .unlockAndFail _ => true
  | _ => false

def Pc.taken : Pc → Option Int
  | .storeCalled cur | .storeServed cur => some cur
  | .publishNext first _ | .publishCalled first _ | .publishServed first _ | .publishEnd first _
  | .unlockAndReturn first => some first
  | _ => none

/-- A value taken from the open window: the pointer is past it and the block covers it. -/
structure Settled (rt : SeqRuntime) (v : Int) : Prop where
  low : rt.lowest ≤ rt.pos v
  passed : rt.pos v < rt.pos rt.next
  covered : rt.pos v ≤ rt.pos rt.blockEnd

def Exhausted (rt : SeqRuntime) : Prop := rt.pos rt.blockEnd < rt.pos rt.next

structure Opens (rt : SeqRuntime) (first last : Int) : Prop where
  low : rt.lowest ≤ rt.pos first
  past : rt.pos rt.blockEnd < rt.pos first
  ordered : rt.pos first ≤ rt.pos last
  high : rt.pos last ≤ rt.highest

/-- What the local variables of a call say about its runtime. -/
def Fits (rt : SeqRuntime) : Pc → Prop
  | .exchange cur stop => rt.pos cur ≤ rt.pos stop ∧ rt.pos stop ≤ rt.pos rt.blockEnd
  | .storeCalled cur | .storeServed cur | .unlockAndReturn cur => rt.Settled cur
  | .recheckEnd cur => rt.pos cur ≤ rt.pos rt.next
  | .loadHigh => rt.Exhausted
  | .loadCalled inMemHigh => rt.Exhausted ∧ inMemHigh = rt.blockEnd
  | .readState inMemHigh inMemCalled =>
    rt.Exhausted ∧ inMemHigh = rt.blockEnd ∧ (inMemCalled = true → rt.isCalled = true)
  | .flush _ first last | .publishNext first last => rt.Exhausted ∧ rt.Opens first last
  | .publishCalled first last | .publishServed first last | .publishEnd first last =>
    rt.Exhausted ∧ rt.Opens first last ∧ rt.pos first < rt.pos rt.next
  | _ => True

/-- The invariant of a runtime, the calls that work on it and the values it has served. -/
structure Window (rt : SeqRuntime) (calls : ThreadId → Option Pc) (served : List Int) : Prop where
  proper : rt.Proper
  ahead : rt.lowest ≤ rt.pos rt.next
  capped : rt.pos rt.blockEnd ≤ rt.highest
  held : ∀ t pc, calls t = some pc → pc.critical = true → rt.refill = some t
  fits : ∀ t pc, calls t = some pc → rt.Fits pc
  settled : ∀ v ∈ served, rt.Settled v
  unique : served.Nodup
  apart : ∀ t pc v, calls t = some pc → pc.taken = some v → v ∉ served
  distinct : ∀ t t' pc pc' v, calls t = some pc → calls t' = some pc' → pc.taken = some v →
    pc'.taken = some v → t = t'

theorem SameDefinition.pos_eq (h : rt.SameDefinition rt') (v : Int) : rt'.pos v = rt.pos v := by
  rw [pos,pos,h.increment]

theorem SameDefinition.lowest_eq (h : rt.SameDefinition rt') : rt'.lowest = rt.lowest := by
  rw [lowest,lowest,h.increment,h.minValue,h.maxValue]

theorem SameDefinition.highest_eq (h : rt.SameDefinition rt') : rt'.highest = rt.highest := by
  rw [highest,highest,h.increment,h.minValue,h.maxValue]

/-- The block stays and the pointer does not move back. -/
structure Extends (rt rt' : SeqRuntime) : Prop where
  same : rt.SameDefinition rt'
  block : rt'.blockEnd = rt.blockEnd
  forward : rt.pos rt.next ≤ rt.pos rt'.next
  called : rt.isCalled = true → rt'.isCalled = true

theorem Extends.settled (h : rt.Extends rt') {v : Int} (hv : rt.Settled v) : rt'.Settled v := by
  obtain ⟨hl,hp,hc⟩ := hv
  refine ⟨?_,?_,?_⟩
  · rwa [h.same.lowest_eq,h.same.pos_eq]
  · rw [h.same.pos_eq,h.same.pos_eq]
    exact hp.trans_le h.forward
  · rwa [h.same.pos_eq,h.same.pos_eq,h.block]

theorem Extends.exhausted (h : rt.Extends rt') (he : rt.Exhausted) : rt'.Exhausted := by
  rw [Exhausted,h.same.pos_eq,h.same.pos_eq,h.block]
  exact lt_of_lt_of_le he h.forward

theorem Extends.opens (h : rt.Extends rt') (ho : rt.Opens first last) : rt'.Opens first last := by
  obtain ⟨hl,hp,hor,hh⟩ := ho
  refine ⟨?_,?_,?_,?_⟩
  · rwa [h.same.lowest_eq,h.same.pos_eq]
  · rwa [h.same.pos_eq,h.same.pos_eq,h.block]
  · rwa [h.same.pos_eq,h.same.pos_eq]
  · rwa [h.same.pos_eq,h.same.highest_eq]

theorem Extends.fits (h : rt.Extends rt') (hf : rt.Fits pc) : rt'.Fits pc := by
  cases pc with
  | exchange cur stop =>
    simp only [Fits,h.same.pos_eq,h.block] at hf ⊢
    exact hf
  | storeCalled cur | storeServed cur | unlockAndReturn first => exact h.settled hf
  | recheckEnd cur =>
    simp only [Fits,h.same.pos_eq] at hf ⊢
    exact hf.trans h.forward
  | loadHigh => exact h.exhausted hf
  | loadCalled inMemHigh => exact ⟨h.exhausted hf.1,h.block ▸ hf.2⟩
  | readState inMemHigh inMemCalled => exact ⟨h.exhausted hf.1,h.block ▸ hf.2.1,fun hc => h.called (hf.2.2 hc)⟩
  | flush durable first last | publishNext first last => exact ⟨h.exhausted hf.1,h.opens hf.2⟩
  | publishCalled first last | publishServed first last | publishEnd first last =>
    refine ⟨h.exhausted hf.1,h.opens hf.2.1,?_⟩
    rw [h.same.pos_eq,h.same.pos_eq]
    exact hf.2.2.trans_le h.forward
  | loadNext | loadEnd cur | lock | recheckNext | unlockAndRetry | unlockAndFail error => trivial

theorem taken_cases (hf : rt.Fits pc) (hv : pc.taken = some v) :
    rt.Settled v ∨ pc.critical = true ∧ rt.Exhausted ∧ rt.pos rt.blockEnd < rt.pos v := by
  cases pc with
  | storeCalled cur | storeServed cur | unlockAndReturn cur =>
    obtain rfl := inj hv
    exact .inl hf
  | publishNext first last =>
    obtain rfl := inj hv
    exact .inr ⟨rfl,hf.1,hf.2.past⟩
  | publishCalled first last | publishServed first last | publishEnd first last =>
    obtain rfl := inj hv
    exact .inr ⟨rfl,hf.1,hf.2.1.past⟩
  | _ => cases hv

def MayTake (calls : ThreadId → Option Pc) (served : List Int) (t : ThreadId) (pc : Pc) (v : Int) : Prop :=
  pc.taken = some v ∨ v ∉ served ∧ ∀ t' pc', t' ≠ t → calls t' = some pc' → pc'.taken ≠ some v

section
variable {calls : ThreadId → Option Pc} {served : List Int} {t : ThreadId} {pc : Pc}
variable {pc' : Option Pc}

variable (h : rt.Window calls served)
include h

variable (hpc : calls t = some pc)
include hpc

theorem Window.transfer (hsame : rt.SameDefinition rt')
    (ha : rt.lowest ≤ rt.pos rt'.next) (hcp : rt.pos rt'.blockEnd ≤ rt.highest)
    (hl : ∀ t', t' ≠ t → rt.refill = some t' → rt'.refill = some t')
    (ho : ∀ t' other, t' ≠ t → calls t' = some other → rt'.Fits other) (hs : ∀ v ∈ served, rt'.Settled v)
    (hnew : ∀ new ∈ pc', rt'.Fits new ∧ (new.critical = true → rt'.refill = some t) ∧
      ∀ v, new.taken = some v → MayTake calls served t pc v) : rt'.Window (Function.update calls t pc') served where
  proper := hsame.proper h.proper
  ahead := by rwa [hsame.lowest_eq,hsame.pos_eq]
  capped := by rwa [hsame.highest_eq,hsame.pos_eq]
  held t' other hc hcrit := by
    by_cases ht : t' = t
    · subst ht
      rw [update_self] at hc
      exact (hnew other hc).2.1 hcrit
    · rw [update_of_ne ht] at hc
      exact hl t' ht (h.held t' other hc hcrit)
  fits t' other hc := by
    by_cases ht : t' = t
    · subst ht
      rw [update_self] at hc
      exact (hnew other hc).1
    · rw [update_of_ne ht] at hc
      exact ho t' other ht hc
  settled := hs
  unique := h.unique
  apart t' other v hc hv := by
    by_cases ht : t' = t
    · subst ht
      rw [update_self] at hc
      rcases (hnew other hc).2.2 v hv with hold | ⟨hf,-⟩
      · exact h.apart t' pc v hpc hold
      · exact hf
    · rw [update_of_ne ht] at hc
      exact h.apart t' other v hc hv
  distinct t₁ t₂ pc₁ pc₂ v h₁ h₂ hv₁ hv₂ := by
    have hcr : ∀ t' other, t' ≠ t → calls t' = some other → other.taken = some v →
        ∀ new ∈ pc', new.taken ≠ some v := by
      intro t' other ht hc hv new hn hnv
      rcases (hnew new hn).2.2 v hnv with hold | ⟨-,hf⟩
      · exact ht (h.distinct t' t other pc v hc hpc hv hold)
      · exact hf t' other ht hc hv
    by_cases ht₁ : t₁ = t
    · by_cases ht₂ : t₂ = t
      · rw [ht₁,ht₂]
      · rw [ht₁,update_self] at h₁
        rw [update_of_ne ht₂] at h₂
        exact absurd hv₁ (hcr t₂ pc₂ ht₂ h₂ hv₂ pc₁ h₁)
    · rw [update_of_ne ht₁] at h₁
      by_cases ht₂ : t₂ = t
      · rw [ht₂,update_self] at h₂
        exact absurd hv₂ (hcr t₁ pc₁ ht₁ h₁ hv₁ pc₂ h₂)
      · rw [update_of_ne ht₂] at h₂
        exact h.distinct t₁ t₂ pc₁ pc₂ v h₁ h₂ hv₁ hv₂

theorem Window.extend (hext : rt.Extends rt') (hl : ∀ t', t' ≠ t → rt.refill = some t' → rt'.refill = some t')
    (hnew : ∀ new ∈ pc', rt'.Fits new ∧ (new.critical = true → rt'.refill = some t) ∧
      ∀ v, new.taken = some v → MayTake calls served t pc v) : rt'.Window (Function.update calls t pc') served := by
  refine h.transfer hpc hext.same (h.ahead.trans hext.forward) ?_ hl ?_ ?_ hnew
  · rw [hext.block]
    exact h.capped
  · exact fun t' other _ hc => hext.fits (h.fits t' other hc)
  · exact fun v hv => hext.settled (h.settled v hv)

theorem Window.serve (hext : rt.Extends rt')
    (hl : ∀ t', t' ≠ t → rt.refill = some t' → rt'.refill = some t') {v : Int} (hv : pc.taken = some v)
    (hs : rt.Settled v) : rt'.Window (Function.update calls t none) (served ++ [v]) := by
  have ho : rt'.Window (Function.update calls t none) served := h.extend hpc hext hl (by simp)
  refine ⟨ho.proper,ho.ahead,ho.capped,ho.held,ho.fits,?_,?_,?_,ho.distinct⟩
  · intro w hw
    rcases mem_append.mp hw with hw | hw
    · exact ho.settled w hw
    · rw [mem_singleton.mp hw]
      exact hext.settled hs
  · rw [nodup_append]
    refine ⟨h.unique,nodup_singleton v,fun a ha b hb => ?_⟩
    rw [mem_singleton.mp hb]
    rintro rfl
    exact h.apart t pc _ hpc hv ha
  · intro t' other w hc hw hm
    rcases mem_append.mp hm with hm | hm
    · exact ho.apart t' other w hc hw hm
    obtain rfl := mem_singleton.mp hm
    by_cases ht : t' = t
    · subst ht
      simp at hc
    · rw [update_of_ne ht] at hc
      exact ht (h.distinct t' t other pc w hc hpc hw hv)

/-- The step parks the pointer beyond the `i64` range. -/
def Saturating (rt : SeqRuntime) : Pc → Prop
  | .exchange cur stop => rt.next = cur ∧ rt.Saturates cur stop
  | .publishNext first last => rt.Saturates first last
  | _ => False

instance (rt : SeqRuntime) (pc : Pc) : Decidable (rt.Saturating pc) :=
  match pc with
  | .exchange _ _ => inferInstanceAs (Decidable (_ ∧ _))
  | .publishNext _ _ => inferInstanceAs (Decidable (rt.Saturates _ _))
  | .loadNext | .loadEnd _ | .storeCalled _ | .storeServed _ | .lock | .recheckNext | .recheckEnd _
  | .unlockAndRetry | .loadHigh | .loadCalled _ | .readState _ _ | .flush _ _ _ | .publishCalled _ _
  | .publishServed _ _ | .publishEnd _ _ | .unlockAndReturn _ | .unlockAndFail _ => inferInstanceAs (Decidable False)

/-- The block that a refill reads out of its runtime and the record starts past the old one. -/
def OpensPast (rt : SeqRuntime) (disk : SeqDisk) (answer : Answer) : Pc → Prop
  | .readState inMemHigh inMemCalled => ∀ durable first, rt.readDurable disk answer = .ok durable →
      rt.firstOfBlock inMemHigh inMemCalled durable = .ok first →
      rt.lowest ≤ rt.pos first ∧ rt.pos first ≤ rt.highest ∧ rt.pos rt.blockEnd < rt.pos first
  | _ => True

def Progress.stays : Progress → Option Pc
  | .goto pc => some pc
  | _ => none

def Progress.handed : Progress → List Int
  | .returned value => [value]
  | _ => []

variable {new : Pc}

theorem Window.goto (hf : rt.Fits new)
    (hcr : new.critical = true → pc.critical = true) (htk : ∀ v, new.taken = some v → MayTake calls served t pc v) :
    rt.Window (Function.update calls t (some new)) served := by
  refine h.extend hpc ⟨.refl rt,rfl,le_rfl,id⟩ (fun _ _ hr => hr) ?_
  rintro _ ⟨rfl⟩
  exact ⟨hf,fun hc => h.held t pc hpc (hcr hc),htk⟩

theorem Window.only_holder (hc : pc.critical = true)
    (free : Option ThreadId) (t' : ThreadId) (ht : t' ≠ t) (hr : rt.refill = some t') : free = some t' := by
  rw [h.held t pc hpc hc] at hr
  exact absurd (inj hr).symm ht

theorem Window.leave (hc : pc.critical = true) :
    ({ rt with refill := none } : SeqRuntime).Window (Function.update calls t none) served := by
  have hext : rt.Extends { rt with refill := none } := ⟨sameDefinition_store ..,rfl,le_rfl,id⟩
  exact h.extend hpc hext (h.only_holder hpc hc none) (by simp)

theorem Window.not_critical (hcr : pc.critical = true)
    {t' : ThreadId} {other : Pc} (ht : t' ≠ t) (hc : calls t' = some other) : other.critical = false := by
  by_contra ho
  rw [Bool.not_eq_false] at ho
  have hl := h.held t' other hc ho
  rw [h.held t pc hpc hcr] at hl
  exact ht (inj hl).symm

omit hpc in
theorem Window.exchange {cur stop : Int} (hpc : calls t = some (.exchange cur stop))
    (hn : rt.next = cur) (hsa : ¬rt.Saturates cur stop) : ({ rt with next := rt.stepped cur stop } : SeqRuntime).Window
      (Function.update calls t (some (.storeCalled cur))) served := by
  obtain ⟨hb,hst⟩ := h.fits t _ hpc
  have hl := h.ahead
  rw [hn] at hl
  have hs := pos_lt_stepped h.proper hb hl (hst.trans h.capped) hsa
  have hext : rt.Extends { rt with next := rt.stepped cur stop } :=
    ⟨sameDefinition_store ..,rfl,by rw [hn]; exact hs.le,id⟩
  refine h.extend hpc hext (fun _ _ hr => hr) ?_
  rintro _ ⟨rfl⟩
  refine ⟨⟨hl,hs,hb.trans hst⟩,by simp [Pc.critical],?_⟩
  rintro _ ⟨rfl⟩
  -- Everything taken before lies before the pointer, or in a block that is not open yet.
  refine .inr ⟨fun hm => ?_,fun t' other ht hc hv => ?_⟩
  · have hp := (h.settled _ hm).passed
    rw [hn] at hp
    exact lt_irrefl _ hp
  · rcases taken_cases (h.fits t' other hc) hv with hse | ⟨-,he,-⟩
    · have hp := hse.passed
      rw [hn] at hp
      exact lt_irrefl _ hp
    · rw [Exhausted,hn] at he
      omega

omit hpc in
theorem Window.reserve {durable : Option PersistedSeqState} {first last : Int}
    (hpc : calls t = some (.flush durable first last)) :
    rt.Window (Function.update calls t (some (.publishNext first last))) served := by
  obtain ⟨he,ho⟩ := h.fits t _ hpc
  refine h.goto hpc ⟨he,ho⟩ (fun _ => rfl) ?_
  rintro _ ⟨rfl⟩
  have hp := ho.past
  refine .inr ⟨fun hm => ?_,fun t' other ht hc hv => ?_⟩
  · have hcv := (h.settled _ hm).covered
    omega
  · rcases taken_cases (h.fits t' other hc) hv with hs | ⟨hcr,-⟩
    · have hcv := hs.covered
      omega
    · rw [h.not_critical hpc rfl ht hc] at hcr
      cases hcr

theorem Window.publish (hcr : pc.critical = true) (hsame : rt.SameDefinition rt') (hp : rt.pos rt.blockEnd < rt.pos rt'.next)
    (hg : rt.pos rt.blockEnd ≤ rt.pos rt'.blockEnd) (hcp : rt.pos rt'.blockEnd ≤ rt.highest)
    (ha : rt.lowest ≤ rt.pos rt'.next) (hl : rt'.refill = rt.refill) (hf : rt'.Fits new)
    (htk : ∀ v, new.taken = some v → pc.taken = some v) : rt'.Window (Function.update calls t (some new)) served := by
  have hs : ∀ v, rt.Settled v → rt'.Settled v := by
    intro v hv
    refine ⟨by rw [hsame.lowest_eq,hsame.pos_eq]; exact hv.low,?_,?_⟩
    · rw [hsame.pos_eq,hsame.pos_eq]
      exact hv.covered.trans_lt hp
    · rw [hsame.pos_eq,hsame.pos_eq]
      exact hv.covered.trans hg
  refine h.transfer hpc hsame ha hcp (fun _ _ hr => hl ▸ hr) ?_ (fun v hv => hs v (h.settled v hv)) ?_
  · intro t' other ht hc
    have ho := h.fits t' other hc
    have hos := h.not_critical hpc hcr ht hc
    cases other with
    | exchange cur stop =>
      simp only [Fits,hsame.pos_eq] at ho ⊢
      exact ⟨ho.1,ho.2.trans hg⟩
    | storeCalled cur | storeServed cur => exact hs cur ho
    | loadNext | loadEnd cur | lock => trivial
    | _ => cases hos
  · rintro _ ⟨rfl⟩
    exact ⟨hf,fun _ => by rw [hl]; exact h.held t pc hpc hcr,fun v hv => .inl (htk v hv)⟩

theorem Window.store {called : Bool} {lastServed : Int}
    (hcl : rt.isCalled = true → called = true) (hf : rt.Fits pc → rt.Fits new)
    (hcr : new.critical = pc.critical) (htk : new.taken = pc.taken) :
    ({ rt with isCalled := called, lastServed := lastServed } : SeqRuntime).Window
      (Function.update calls t (some new)) served := by
  have hext : rt.Extends { rt with isCalled := called, lastServed := lastServed } :=
    ⟨sameDefinition_store ..,rfl,le_rfl,hcl⟩
  refine h.extend hpc hext (fun _ _ hr => hr) ?_
  rintro _ ⟨rfl⟩
  refine ⟨hext.fits (hf (h.fits t pc hpc)),fun hc => h.held t pc hpc (hcr ▸ hc),fun v hv => .inl (htk ▸ hv)⟩

def After (calls : ThreadId → Option Pc) (served : List Int) (t : ThreadId)
    (out : SeqRuntime × SeqDisk × Progress) : Prop :=
  out.1.Window (Function.update calls t out.2.2.stays) (served ++ out.2.2.handed)

omit hpc in
omit h in
theorem after_goto {disk : SeqDisk} (h : rt'.Window (Function.update calls t (some new)) served) :
    After calls served t (rt',disk,.goto new) := by
  simpa [After,stays,handed] using h

theorem Window.advance (disk : SeqDisk) (answer : Answer)
    (hsa : ¬rt.Saturating pc) (hopen : rt.OpensPast disk answer pc) : After calls served t (rt.advance disk t answer pc) := by
  have hft := h.fits t pc hpc
  cases pc with
  | loadNext => exact after_goto (h.goto hpc trivial (fun hc => hc) (by simp [Pc.taken]))
  | loadEnd cur =>
    apply after_goto
    by_cases hb : rt.inBlock cur rt.blockEnd = true
    · rw [if_pos hb]
      exact h.goto hpc ⟨inBlock_iff.mp hb,le_rfl⟩ (fun hc => hc) (by simp [Pc.taken])
    · rw [if_neg hb]
      exact h.goto hpc trivial (fun hc => hc) (by simp [Pc.taken])
  | exchange cur stop =>
    rw [SeqRuntime.advance]
    by_cases hn : rt.next = cur
    · rw [if_pos hn]
      exact after_goto (h.exchange hpc hn fun hs => hsa ⟨hn,hs⟩)
    · rw [if_neg hn]
      exact after_goto (h.goto hpc trivial (fun hc => hc) (by simp [Pc.taken]))
  | storeCalled cur | publishCalled first last => exact after_goto (h.store hpc (fun _ => rfl) (fun hf => hf) rfl rfl)
  | storeServed cur =>
    have hext : rt.Extends { rt with lastServed := cur } := ⟨sameDefinition_store ..,rfl,le_rfl,id⟩
    exact h.serve hpc hext (fun _ _ hr => hr) rfl hft
  | lock =>
    rw [SeqRuntime.advance]
    by_cases hfr : rt.refill = none
    · rw [if_pos hfr]
      apply after_goto
      have hext : rt.Extends { rt with refill := some t } :=
        ⟨sameDefinition_store ..,rfl,le_rfl,id⟩
      refine h.extend hpc hext (fun t' _ hr => ?_) ?_
      · rw [hfr] at hr
        cases hr
      · rintro _ ⟨rfl⟩
        exact ⟨trivial,fun _ => rfl,by simp [Pc.taken]⟩
    · rw [if_neg hfr]
      exact after_goto (h.goto hpc trivial (fun hc => hc) (by simp [Pc.taken]))
  | recheckNext => exact after_goto (h.goto hpc le_rfl (fun _ => rfl) (by simp [Pc.taken]))
  | recheckEnd cur =>
    apply after_goto
    by_cases hb : rt.inBlock cur rt.blockEnd = true
    · rw [if_pos hb]
      exact h.goto hpc trivial (fun _ => rfl) (by simp [Pc.taken])
    · rw [if_neg hb]
      have hou : rt.pos rt.blockEnd < rt.pos cur := not_le.mp fun hle => hb (inBlock_iff.mpr hle)
      exact h.goto hpc (hou.trans_le hft) (fun _ => rfl) (by simp [Pc.taken])
  | unlockAndRetry
  | unlockAndFail error => simpa [After,SeqRuntime.advance,stays,handed] using h.leave hpc rfl
  | loadHigh => exact after_goto (h.goto hpc ⟨hft,rfl⟩ (fun _ => rfl) (by simp [Pc.taken]))
  | loadCalled inMemHigh =>
    exact after_goto (h.goto hpc ⟨hft.1,hft.2,id⟩ (fun _ => rfl) (by simp [Pc.taken]))
  | readState inMemHigh inMemCalled =>
    have hfl : ∀ error, After calls served t (rt,disk,.goto (.unlockAndFail error)) := fun error =>
      after_goto (h.goto hpc trivial (fun _ => rfl) (by simp [Pc.taken]))
    rw [SeqRuntime.advance]
    split
    · exact hfl _
    next durable hd =>
      split
      next first hf =>
        obtain ⟨hl,hh,hp⟩ := hopen durable first hd hf
        obtain ⟨hor,hls⟩ := pos_le_lastOfBlock hl hh
        exact after_goto (h.goto hpc ⟨hft.1,hl,hp,hor,hls⟩ (fun _ => rfl) (by simp [Pc.taken]))
      · exact hfl _
  | flush durable first last =>
    rw [SeqRuntime.advance]
    split
    · exact after_goto (h.reserve hpc)
    · exact after_goto (h.goto hpc trivial (fun _ => rfl) (by simp [Pc.taken]))
  | publishNext first last =>
    obtain ⟨he,ho⟩ := hft
    have hst := pos_lt_stepped h.proper ho.ordered ho.low ho.high hsa
    have hsame : rt.SameDefinition { rt with next := rt.stepped first last } := sameDefinition_store ..
    have hp := ho.past.trans hst
    apply after_goto
    refine h.publish hpc rfl hsame hp le_rfl h.capped (ho.low.trans hst.le) rfl ?_ (fun v hv => hv)
    exact ⟨hp,⟨ho.low,ho.past,ho.ordered,ho.high⟩,hst⟩
  | publishServed first last => exact after_goto (h.store hpc (fun hc => hc) (fun hf => hf) rfl rfl)
  | publishEnd first last =>
    obtain ⟨he,ho,hnx⟩ := hft
    have hsame : rt.SameDefinition { rt with blockEnd := last } := sameDefinition_store ..
    have hg := ho.past.le.trans ho.ordered
    apply after_goto
    refine h.publish hpc rfl hsame he hg ho.high h.ahead rfl ?_ (fun v hv => hv)
    exact ⟨ho.low,hnx,ho.ordered⟩
  | unlockAndReturn first =>
    have hext : rt.Extends { rt with refill := none } := ⟨sameDefinition_store ..,rfl,le_rfl,id⟩
    exact h.serve hpc hext (h.only_holder hpc rfl none) rfl hft

omit hpc

theorem Window.weaken {calls' : ThreadId → Option Pc}
    (hs : ∀ t pc, calls' t = some pc → calls t = some pc) : rt.Window calls' [] where
  proper := h.proper
  ahead := h.ahead
  capped := h.capped
  held t pc hc hcrit := h.held t pc (hs t pc hc) hcrit
  fits t pc hc := h.fits t pc (hs t pc hc)
  settled := by simp
  unique := nodup_nil
  apart := by simp
  distinct t t' pc pc' v hc hc' := h.distinct t t' pc pc' v (hs t pc hc) (hs t' pc' hc')

theorem Window.relock (refill : Option ThreadId) (ho : ∀ t pc, calls t = some pc → pc.critical = false) :
    ({ rt with refill := refill } : SeqRuntime).Window calls served := by
  have hext : rt.Extends { rt with refill := refill } := ⟨sameDefinition_store ..,rfl,le_rfl,id⟩
  refine ⟨hext.same.proper h.proper,h.ahead,h.capped,fun t pc hc hcr => ?_,fun t pc hc => hext.fits (h.fits t pc hc),
    fun v hv => hext.settled (h.settled v hv),h.unique,h.apart,h.distinct⟩
  rw [ho t pc hc] at hcr
  cases hcr

theorem Window.begin (t : ThreadId) : rt.Window (Function.update calls t (some .loadNext)) served where
  proper := h.proper
  ahead := h.ahead
  capped := h.capped
  held t' other ho hcrit := by
    by_cases ht : t' = t
    · subst ht
      rw [update_self] at ho
      cases ho
      cases hcrit
    · rw [update_of_ne ht] at ho
      exact h.held t' other ho hcrit
  fits t' other ho := by
    by_cases ht : t' = t
    · subst ht
      rw [update_self] at ho
      cases ho
      trivial
    · rw [update_of_ne ht] at ho
      exact h.fits t' other ho
  settled := h.settled
  unique := h.unique
  apart t' other v ho hv := by
    by_cases ht : t' = t
    · subst ht
      rw [update_self] at ho
      cases ho
      cases hv
    · rw [update_of_ne ht] at ho
      exact h.apart t' other v ho hv
  distinct t₁ t₂ pc₁ pc₂ v h₁ h₂ hv₁ hv₂ := by
    have hne : ∀ t' other, Function.update calls t (some Pc.loadNext) t' = some other → other.taken = some v →
        t' ≠ t := by
      rintro t' other ho hv rfl
      rw [update_self] at ho
      cases ho
      cases hv
    have ht₁ := hne t₁ pc₁ h₁ hv₁
    have ht₂ := hne t₂ pc₂ h₂ hv₂
    rw [update_of_ne ht₁] at h₁
    rw [update_of_ne ht₂] at h₂
    exact h.distinct t₁ t₂ pc₁ pc₂ v h₁ h₂ hv₁ hv₂

end

/-- The end of the block that the call has flushed and is about to open. -/
def Pc.publishes : Pc → Option Int
  | .publishNext _ last | .publishCalled _ last | .publishServed _ last | .publishEnd _ last => some last
  | _ => none

theorem publishes_opens (hf : rt.Fits pc) (hp : pc.publishes = some last) :
    pc.critical = true ∧ ∃ first, rt.Opens first last := by
  cases pc with
  | publishNext first _ =>
    obtain rfl := inj hp
    exact ⟨rfl,first,hf.2⟩
  | publishCalled first _ | publishServed first _ | publishEnd first _ =>
    obtain rfl := inj hp
    exact ⟨rfl,first,hf.2.1⟩
  | _ => cases hp

section
variable {disk : SeqDisk} {t : ThreadId} {answer : Answer} {pc : Pc}

theorem advance_same : rt.SameDefinition (rt.advance disk t answer pc).1 := by
  cases pc with
  | exchange cur stop | lock | flush durable first last =>
    rw [advance]
    split <;> exact sameDefinition_store ..
  | readState inMemHigh inMemCalled =>
    rw [advance]
    split
    · exact .refl rt
    · split <;> exact .refl rt
  | _ => exact sameDefinition_store ..

theorem advance_plain (htk : pc.taken = none) (hexch : ∀ cur stop, pc = .exchange cur stop → rt.next ≠ cur)
    (hf : ∀ durable first last, pc ≠ .flush durable first last) :
    (∃ refill, (rt.advance disk t answer pc).1 = { rt with refill := refill }) ∧
      (rt.advance disk t answer pc).2.1 = disk ∧ (rt.advance disk t answer pc).2.2.handed = [] ∧
      ∀ new, (rt.advance disk t answer pc).2.2 = .goto new → new.taken = none ∧ new.publishes = none := by
  cases pc with
  | storeCalled | storeServed | publishNext | publishCalled | publishServed | publishEnd | unlockAndReturn =>
    cases htk
  | flush durable first last => exact absurd rfl (hf durable first last)
  | exchange cur stop =>
    rw [advance,if_neg (hexch cur stop rfl)]
    refine ⟨⟨rt.refill,rfl⟩,rfl,rfl,?_⟩
    rintro _ ⟨rfl⟩
    exact ⟨rfl,rfl⟩
  | loadEnd cur | recheckEnd cur =>
    refine ⟨⟨rt.refill,rfl⟩,rfl,rfl,?_⟩
    rintro _ ⟨rfl⟩
    split <;> exact ⟨rfl,rfl⟩
  | lock =>
    rw [advance]
    split
    · refine ⟨⟨some t,rfl⟩,rfl,rfl,?_⟩
      rintro _ ⟨rfl⟩
      exact ⟨rfl,rfl⟩
    · refine ⟨⟨rt.refill,rfl⟩,rfl,rfl,?_⟩
      rintro _ ⟨rfl⟩
      exact ⟨rfl,rfl⟩
  | readState inMemHigh inMemCalled =>
    rw [advance]
    split
    · refine ⟨⟨rt.refill,rfl⟩,rfl,rfl,?_⟩
      rintro _ ⟨rfl⟩
      exact ⟨rfl,rfl⟩
    · split
      all_goals
        refine ⟨⟨rt.refill,rfl⟩,rfl,rfl,?_⟩
        rintro _ ⟨rfl⟩
        exact ⟨rfl,rfl⟩
  | loadNext | recheckNext | loadHigh | loadCalled inMemHigh =>
    refine ⟨⟨rt.refill,rfl⟩,rfl,rfl,?_⟩
    rintro _ ⟨rfl⟩
    exact ⟨rfl,rfl⟩
  | unlockAndRetry | unlockAndFail error => exact ⟨⟨none,rfl⟩,rfl,rfl,by simp [advance]⟩

theorem advance_taken {v : Int} (htk : pc.taken = some v) : (rt.advance disk t answer pc).2.1 = disk ∧
      ((rt.advance disk t answer pc).1.blockEnd = rt.blockEnd ∨ pc.publishes = some (rt.advance disk t answer pc).1.blockEnd) ∧
      ((rt.advance disk t answer pc).2.2 = .returned v ∧ (rt.Fits pc → rt.Settled v) ∨
        ∃ new, (rt.advance disk t answer pc).2.2 = .goto new ∧ new.taken = some v ∧
          (new.publishes = pc.publishes ∨ new.publishes = none)) := by
  cases pc with
  | storeServed cur | unlockAndReturn cur =>
    obtain rfl := inj htk
    exact ⟨rfl,.inl rfl,.inl ⟨rfl,fun hf => hf⟩⟩
  | storeCalled cur | publishNext cur last | publishCalled cur last | publishServed cur last =>
    obtain rfl := inj htk
    exact ⟨rfl,.inl rfl,.inr ⟨_,rfl,rfl,.inl rfl⟩⟩
  | publishEnd cur last =>
    obtain rfl := inj htk
    exact ⟨rfl,.inr rfl,.inr ⟨_,rfl,rfl,.inr rfl⟩⟩
  | _ => cases htk

theorem persistHighWater_cases (hd : rt.volatile = false) (last : Int) :
    rt.persistHighWater disk last answer = (⟨some ⟨last,true⟩,some ⟨last,true⟩⟩,none) ∨
      ∃ disk' error, rt.persistHighWater disk last answer = (disk',some error) ∧ disk'.synced = disk.synced ∧
        (disk'.visible = disk.visible ∨ disk'.visible = some ⟨last,true⟩) := by
  unfold persistHighWater
  rw [hd]
  cases answer with
  | done | readFailed error => exact .inl rfl
  | notSaved error => exact .inr ⟨disk,error,rfl,rfl,.inl rfl⟩
  | notSynced reason => exact .inr ⟨_,_,rfl,rfl,.inr rfl⟩

theorem advance_disk (hd : rt.volatile = false) :
    (rt.advance disk t answer pc).2.1 = disk ∨ ∃ durable first last, pc = .flush durable first last ∧
      (rt.advance disk t answer pc).2.1.visible = some ⟨last,true⟩ ∧ ((rt.advance disk t answer pc).2.1.synced = disk.synced ∨
        (rt.advance disk t answer pc).2.1.synced = some ⟨last,true⟩) := by
  cases pc with
  | flush durable first last =>
    rw [advance]
    rcases @persistHighWater_cases rt disk answer hd last with hw | ⟨disk',error,hw,hs,hv⟩
    · rw [hw]
      exact .inr ⟨durable,first,last,rfl,rfl,.inr rfl⟩
    rw [hw]
    rcases hv with hv | hv
    · exact .inl (SeqDisk.ext hv hs)
    · exact .inr ⟨durable,first,last,rfl,hv,.inl hs⟩
  | exchange cur stop | lock =>
    rw [advance]
    split <;> exact .inl rfl
  | readState inMemHigh inMemCalled =>
    rw [advance]
    split
    · exact .inl rfl
    · split <;> exact .inl rfl
  | _ => exact .inl rfl

theorem advance_blockEnd : (rt.advance disk t answer pc).1.blockEnd = rt.blockEnd ∨
    pc.publishes = some (rt.advance disk t answer pc).1.blockEnd := by
  cases pc with
  | publishEnd first last => exact .inr rfl
  | exchange cur stop | lock | flush durable first last =>
    rw [advance]
    split <;> exact .inl rfl
  | readState inMemHigh inMemCalled =>
    rw [advance]
    split
    · exact .inl rfl
    · split <;> exact .inl rfl
  | _ => exact .inl rfl

theorem advance_refill : (rt.advance disk t answer pc).1.refill = rt.refill ∨ rt.refill = none ∨ pc.critical = true := by
  cases pc with
  | lock =>
    rw [advance]
    split
    next hf =>
      exact .inr (.inl hf)
    · exact .inl rfl
  | exchange cur stop =>
    rw [advance]
    split <;> exact .inl rfl
  | loadNext | loadEnd cur | storeCalled cur | storeServed cur => exact .inl rfl
  | _ => exact .inr (.inr rfl)

variable {first last : Int}

theorem advance_goto {new : Pc} (h : (rt.advance disk t answer pc).2.2 = .goto new) : match new with
    | .flush durable first _ => ∃ inMemHigh inMemCalled, pc = .readState inMemHigh inMemCalled ∧
        rt.readDurable disk answer = .ok durable ∧ rt.firstOfBlock inMemHigh inMemCalled durable = .ok first
    | .storeCalled cur => (∃ stop, pc = .exchange cur stop) ∧ rt.next = cur
    | .publishNext first last => ∃ durable, pc = .flush durable first last
    | _ => True := by
  cases pc with
  | readState inMemHigh inMemCalled =>
    rw [advance] at h
    split at h
    · cases h
      trivial
    next durable' hd =>
      split at h
      next first' hf =>
        cases h
        exact ⟨inMemHigh,inMemCalled,rfl,hd,hf⟩
      · cases h
        trivial
  | exchange cur stop =>
    rw [advance] at h
    split at h
    next hn =>
      cases h
      exact ⟨⟨stop,rfl⟩,hn⟩
    · cases h
      trivial
  | flush durable first last =>
    rw [advance] at h
    split at h
    · cases h
      exact ⟨durable,rfl⟩
    · cases h
      trivial
  | lock | loadEnd cur | recheckEnd cur =>
    rw [advance] at h
    split at h <;> cases h <;> trivial
  | _ => cases h <;> trivial

theorem advance_takes (htk : pc.taken = none) : (rt.advance disk t answer pc).2.2.handed = [] ∧
    ∀ new, (rt.advance disk t answer pc).2.2 = .goto new →
      new.taken = none ∨ (∃ cur, new = .storeCalled cur) ∨ ∃ first last, new = .publishNext first last := by
  by_cases hexch : ∃ cur stop, pc = .exchange cur stop ∧ rt.next = cur
  · obtain ⟨cur,stop,rfl,hn⟩ := hexch
    rw [advance,if_pos hn]
    refine ⟨rfl,?_⟩
    rintro _ ⟨rfl⟩
    exact .inr (.inl ⟨cur,rfl⟩)
  · by_cases hf : ∃ durable first last, pc = .flush durable first last
    · obtain ⟨durable,first,last,rfl⟩ := hf
      rw [advance]
      split
      · refine ⟨rfl,?_⟩
        rintro _ ⟨rfl⟩
        exact .inr (.inr ⟨first,last,rfl⟩)
      · refine ⟨rfl,?_⟩
        rintro _ ⟨rfl⟩
        exact .inl rfl
    · obtain ⟨-,-,hh,hnew⟩ := @advance_plain rt disk t answer pc htk
        (fun cur stop hp hn => hexch ⟨cur,stop,hp,hn⟩)
        (fun durable first last hp => hf ⟨durable,first,last,hp⟩)
      exact ⟨hh,fun new hp => .inl (hnew new hp).1⟩

end

end SeqRuntime
end HeliosNano.Sql
