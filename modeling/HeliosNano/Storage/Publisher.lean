import HeliosNano.Foundation.Maps
import HeliosNano.Foundation.Runs
import Mathlib.Data.List.Range

namespace HeliosNano.Storage.Wal
open Foundation List

inductive Slot (Op : Type)
  | reserved
  | ready (operation : Op)
  | skipped

/-- The state behind the lock and the watermark beside it. -/
structure Publisher (Op : Type) where
  next : Nat
  slots : Map Nat (Slot Op)
  published : Nat

namespace Publisher
variable {Op : Type}

def new (lastLsn : Nat) : Publisher Op := ⟨lastLsn+1,∅,lastLsn⟩

/-- The LSNs after the current one are registered as unresolved. -/
def reserve (p : Publisher Op) (current count : Nat) : Publisher Op :=
  { p with slots :=
      ((List.range' (current+1) count).map fun lsn => (lsn,Slot.reserved)).foldl (fun m entry => m.insert entry.1 entry.2) p.slots }

def slotOf : Option Op → Slot Op
  | some operation => .ready operation
  | none => .skipped

/-- The loop of `resolve`: it stops at the first LSN that is not resolved. The operations are those
handed to the broadcast. -/
def publishReady (p : Publisher Op) : Publisher Op × List (Nat × Op) :=
  match _h : p.slots.lookup p.next with
  | none | some .reserved => (p,[])
  | some (.ready operation) =>
    let rest := publishReady { p with next := p.next+1, slots := p.slots.erase p.next }
    (rest.1,(p.next,operation)::rest.2)
  | some .skipped => publishReady { p with next := p.next+1, slots := p.slots.erase p.next }
termination_by p.slots.entries.length
decreasing_by
  all_goals exact Map.length_erase_lt _ (AList.lookup_isSome.mp (by rw [_h]; rfl))

def resolve (p : Publisher Op) (items : List (Nat × Option Op)) : Publisher Op × List (Nat × Op) :=
  let slots := (items.map fun item => (item.1,slotOf item.2)).foldl (fun m entry => m.insert entry.1 entry.2) p.slots
  let drained := publishReady { p with slots := slots }
  ({ drained.1 with published := drained.1.next-1 },drained.2)

def Slot.operation : Option (Slot Op) → Option Op
  | some (.ready operation) => some operation
  | _ => none

def Slot.Resolved : Option (Slot Op) → Prop
  | some (.ready _) | some .skipped => True
  | _ => False

def shown (p : Publisher Op) (lsn : Nat) : Option (Nat × Op) :=
  (Slot.operation (p.slots.lookup lsn)).map fun operation => (lsn,operation)

/-- The loop takes the resolved LSNs from the watermark on, up to the first that is not. -/
structure Drained (p q : Publisher Op) (sent : List (Nat × Op)) : Prop where
  le : p.next ≤ q.next
  stop : ¬Slot.Resolved (p.slots.lookup q.next)
  taken : ∀ lsn, p.next ≤ lsn → lsn < q.next → Slot.Resolved (p.slots.lookup lsn)
  slots : ∀ lsn, q.slots.lookup lsn = if p.next ≤ lsn ∧ lsn < q.next then none else p.slots.lookup lsn
  sent : sent = (List.range' p.next (q.next-p.next)).filterMap p.shown

theorem Drained.of_unresolved {p : Publisher Op} (h : ¬Slot.Resolved (p.slots.lookup p.next)) : Drained p p [] where
  le := le_rfl
  stop := h
  taken _ h1 h2 := absurd h2 (Nat.not_lt.mpr h1)
  slots lsn := by rw [if_neg (fun h => absurd h.2 (Nat.not_lt.mpr h.1))]
  sent := by rw [Nat.sub_self]; rfl

theorem Drained.take {p q : Publisher Op} {sent : List (Nat × Op)} (h : Slot.Resolved (p.slots.lookup p.next))
    (hrest : Drained { p with next := p.next+1, slots := p.slots.erase p.next } q sent) :
    Drained p q ((p.shown p.next).toList ++ sent) := by
  have hle : p.next+1 ≤ q.next := hrest.le
  have hlk : ∀ lsn, lsn ≠ p.next → (p.slots.erase p.next).lookup lsn = p.slots.lookup lsn :=
    fun lsn hne => AList.lookup_erase_ne hne
  refine ⟨by omega,?_,fun lsn h1 h2 => ?_,fun lsn => ?_,?_⟩
  · rw [← hlk q.next (by omega)]
    exact hrest.stop
  · rcases Nat.eq_or_lt_of_le h1 with rfl | hlt
    · exact h
    · rw [← hlk lsn (by omega)]
      exact hrest.taken lsn hlt h2
  · rw [hrest.slots lsn]
    by_cases hf : lsn = p.next
    · rw [hf,if_neg (fun h => absurd h.1 (Nat.not_succ_le_self _)),if_pos ⟨le_rfl,hle⟩]
      exact AList.lookup_erase _ _
    by_cases hin : p.next+1 ≤ lsn ∧ lsn < q.next
    · rw [if_pos hin,if_pos ⟨by omega,hin.2⟩]
    · rw [if_neg hin,if_neg (fun h => hin ⟨by omega,h.2⟩)]
      exact hlk lsn hf
  · have hs : ∀ lsn ∈ List.range' (p.next+1) (q.next-(p.next+1)),
        shown { p with next := p.next+1, slots := p.slots.erase p.next } lsn = p.shown lsn := by
      intro lsn hl
      have hl := (mem_range'_1.mp hl).1
      rw [shown,hlk lsn (by omega),shown]
    have hr : List.range' p.next (q.next-p.next) = p.next :: List.range' (p.next+1) (q.next-(p.next+1)) := by
      rw [show q.next-p.next = q.next-(p.next+1) + 1 by omega,range'_succ]
    rw [hrest.sent,hr,filterMap_congr hs,filterMap_cons]
    cases p.shown p.next <;> rfl

theorem drained_publishReady (p : Publisher Op) : Drained p p.publishReady.1 p.publishReady.2 := by
  fun_induction publishReady p with
  | case1 p h | case2 p h => exact Drained.of_unresolved (by simp [h,Slot.Resolved])
  | case3 p operation h rest ih =>
    have hs : p.shown p.next = some (p.next,operation) := by rw [shown,h]; rfl
    have htk := Drained.take (by simp [h,Slot.Resolved]) ih
    rw [hs] at htk
    exact htk
  | case4 p h ih =>
    have hs : p.shown p.next = none := by rw [shown,h]; rfl
    have htk := Drained.take (by simp [h,Slot.Resolved]) ih
    rw [hs] at htk
    exact htk

end Publisher
open Publisher

/-- The counter, the publisher, what was handed to the broadcast, and how the LSNs were resolved. -/
structure Publication (Op : Type) where
  current : Nat
  publisher : Publisher Op
  broadcast : List (Nat × Op)
  outcome : Nat → Option (Option Op)

/-- One call that holds the lock. `increment_lsn` is a reservation of one LSN and later its
resolution as a hole. -/
inductive PublisherCall (Op : Type)
  | reserve (count : Nat)
  | resolve (items : List (Nat × Option Op))

namespace Publication
variable {Op : Type}

def start (lastLsn : Nat) : Publication Op := ⟨lastLsn,.new lastLsn,[],fun _ => none⟩

def outcomeIn (items : List (Nat × Option Op)) (lsn : Nat) : Option (Option Op) :=
  (items.find? fun item => item.1 == lsn).map (·.2)

def step (s : Publication Op) : PublisherCall Op → Publication Op
  | .reserve count => { s with current := s.current+count, publisher := s.publisher.reserve s.current count }
  | .resolve items =>
    { s with
      publisher := (s.publisher.resolve items).1
      broadcast := s.broadcast ++ (s.publisher.resolve items).2
      outcome := fun lsn => (outcomeIn items lsn).or (s.outcome lsn) }

/-- A call resolves LSNs that are reserved and not resolved yet, each once. -/
def ResolvesOnce (lastLsn : Nat) (s : Publication Op) : PublisherCall Op → Prop
  | .reserve _ => True
  | .resolve items =>
    (items.map (·.1)).Nodup ∧ ∀ item ∈ items, lastLsn < item.1 ∧ item.1 ≤ s.current ∧ s.outcome item.1 = none

variable {items : List (Nat × Option Op)} {lastLsn : Nat} {s : Publication Op}

theorem outcomeIn_of_mem (hnd : (items.map (·.1)).Nodup) {item : Nat × Option Op}
    (h : item ∈ items) : outcomeIn items item.1 = some item.2 := by
  induction items with
  | nil => cases h
  | cons first rest ih =>
    obtain ⟨hf,hrest⟩ := nodup_cons.mp hnd
    rcases mem_cons.mp h with rfl | hm
    · simp [outcomeIn]
    have hne : (first.1 == item.1) = false := by
      rw [beq_eq_false_iff_ne]
      intro heq
      exact hf (mem_map.mpr ⟨item,hm,heq.symm⟩)
    rw [outcomeIn,find?_cons,hne]
    exact ih hrest hm

theorem outcomeIn_of_notMem {lsn : Nat} (h : lsn ∉ items.map (·.1)) : outcomeIn items lsn = none := by
  have hn : items.find? (fun item => item.1 == lsn) = none := by
    refine find?_eq_none.mpr fun item hi heq => ?_
    exact h (mem_map.mpr ⟨item,hi,beq_iff_eq.mp heq⟩)
  rw [outcomeIn,hn]
  rfl

/-- The slot of an LSN that is reserved and not shown yet. -/
def slotAt : Option (Option Op) → Slot Op
  | none => .reserved
  | some outcome => slotOf outcome

def shownAt (outcome : Nat → Option (Option Op)) (lsn : Nat) : Option (Nat × Op) :=
  match outcome lsn with
  | some (some operation) => some (lsn,operation)
  | _ => none

/-- The slots are the unresolved and the waiting LSNs; everything below the first unresolved one is
shown or a hole. -/
structure Tracked (lastLsn : Nat) (s : Publication Op) : Prop where
  above : lastLsn < s.publisher.next
  within : s.publisher.next ≤ s.current+1
  watermark : s.publisher.published+1 = s.publisher.next
  slots : ∀ lsn, s.publisher.slots.lookup lsn =
    if s.publisher.next ≤ lsn ∧ lsn ≤ s.current then some (slotAt (s.outcome lsn)) else none
  lowest : s.outcome s.publisher.next = none
  below : ∀ lsn, lastLsn < lsn → lsn < s.publisher.next → (s.outcome lsn).isSome
  known : ∀ lsn, (s.outcome lsn).isSome → lastLsn < lsn ∧ lsn ≤ s.current
  broadcast : s.broadcast = (List.range' (lastLsn+1) (s.publisher.next-(lastLsn+1))).filterMap (shownAt s.outcome)

theorem tracked_start (lastLsn : Nat) : Tracked lastLsn (start lastLsn : Publication Op) where
  above := Nat.lt_succ_self _
  within := le_rfl
  watermark := rfl
  slots lsn := by
    rw [if_neg (fun h => absurd h.1 (by simpa [start,new] using Nat.lt_succ_of_le h.2))]
    rfl
  lowest := rfl
  below lsn h1 h2 := absurd h2 (Nat.not_lt.mpr h1)
  known _ h := by cases h
  broadcast := by
    rw [show (start lastLsn : Publication Op).publisher.next - (lastLsn+1) = 0 from Nat.sub_self _]
    rfl

theorem lookup_reserve (p : Publisher Op) (current count lsn : Nat) : (p.reserve current count).slots.lookup lsn =
      if current < lsn ∧ lsn ≤ current+count then some .reserved else p.slots.lookup lsn := by
  have hk : ((List.range' (current+1) count).map fun lsn => (lsn,(Slot.reserved : Slot Op))).map (·.1) =
      List.range' (current+1) count := by
    rw [map_map]
    exact map_id _
  rw [reserve]
  split
  next h =>
    refine @Map.lookup_foldl_insert_of_mem _ _ _ _ _ ?_ (lsn,Slot.reserved) ?_
    · rw [hk]
      exact nodup_range'
    · exact mem_map.mpr ⟨lsn,mem_range'_1.mpr ⟨by omega,by omega⟩,rfl⟩
  next h =>
    refine Map.lookup_foldl_insert_of_notMem _ ?_
    rw [hk,mem_range'_1]
    omega

theorem Tracked.reserve (h : Tracked lastLsn s) (count : Nat) : Tracked lastLsn (s.step (.reserve count)) where
  above := h.above
  within := Nat.le_trans h.within (by simp only [step]; omega)
  watermark := h.watermark
  slots lsn := by
    have hw := h.within
    change (s.publisher.reserve s.current count).slots.lookup lsn =
      if s.publisher.next ≤ lsn ∧ lsn ≤ s.current+count then some (slotAt (s.outcome lsn)) else none
    rw [lookup_reserve,h.slots lsn]
    by_cases hnew : s.current < lsn ∧ lsn ≤ s.current+count
    · have hn : s.outcome lsn = none := by
        by_contra hsome
        have := (h.known lsn (Option.isSome_iff_ne_none.mpr hsome)).2
        omega
      rw [if_pos hnew,if_pos ⟨by omega,hnew.2⟩,hn]
      rfl
    · rw [if_neg hnew]
      by_cases hold : s.publisher.next ≤ lsn ∧ lsn ≤ s.current
      · rw [if_pos hold,if_pos ⟨hold.1,by omega⟩]
      · rw [if_neg hold,if_neg (by omega)]
  lowest := h.lowest
  below := h.below
  known lsn hsome := ⟨(h.known lsn hsome).1,Nat.le_trans (h.known lsn hsome).2 (Nat.le_add_right _ _)⟩
  broadcast := h.broadcast

theorem lookup_noted (h : Tracked lastLsn s) (hitems : ResolvesOnce lastLsn s (.resolve items)) (lsn : Nat) :
    ((items.map fun item => (item.1,slotOf item.2)).foldl (fun m entry => m.insert entry.1 entry.2)
        s.publisher.slots).lookup lsn =
      if s.publisher.next ≤ lsn ∧ lsn ≤ s.current then some (slotAt ((outcomeIn items lsn).or (s.outcome lsn))) else none := by
  obtain ⟨hnd,hv⟩ := hitems
  have hk : (items.map fun item => (item.1,slotOf item.2)).map (·.1) = items.map (·.1) := by
    rw [map_map]
    rfl
  by_cases hm : lsn ∈ items.map (·.1)
  · obtain ⟨item,hi,rfl⟩ := mem_map.mp hm
    obtain ⟨hl,hc,hnn⟩ := hv item hi
    have hn : s.publisher.next ≤ item.1 := by
      by_contra hlt
      have := h.below item.1 hl (by omega)
      rw [hnn] at this
      cases this
    rw [if_pos ⟨hn,hc⟩,outcomeIn_of_mem hnd hi]
    refine @Map.lookup_foldl_insert_of_mem _ _ _ _ _ ?_ (item.1,slotOf item.2) (mem_map_of_mem hi)
    rw [hk]
    exact hnd
  · rw [outcomeIn_of_notMem hm,Map.lookup_foldl_insert_of_notMem _ (by rw [hk]; exact hm),h.slots lsn]
    rfl

theorem slotAt_resolved (outcome : Option (Option Op)) : Slot.Resolved (some (slotAt outcome)) ↔ outcome.isSome := by
  rcases outcome with _ | _ | _ <;> simp [slotAt,slotOf,Slot.Resolved]

section
variable {lastLsn : Nat} {s : Publication Op} (h : Tracked lastLsn s) {items : List (Nat × Option Op)}
  (hitems : ResolvesOnce lastLsn s (.resolve items))
include h hitems

theorem Tracked.known_after {lsn : Nat} (hs : ((outcomeIn items lsn).or (s.outcome lsn)).isSome) :
    lastLsn < lsn ∧ lsn ≤ s.current := by
  by_cases hm : lsn ∈ items.map (·.1)
  · obtain ⟨item,hi,rfl⟩ := mem_map.mp hm
    exact ⟨(hitems.2 item hi).1,(hitems.2 item hi).2.1⟩
  · rw [outcomeIn_of_notMem hm,Option.none_or] at hs
    exact h.known lsn hs

theorem Tracked.outcome_below {lsn : Nat} (hl : lastLsn < lsn) (hn : lsn < s.publisher.next) :
    (outcomeIn items lsn).or (s.outcome lsn) = s.outcome lsn := by
  have hnt : lsn ∉ items.map (·.1) := by
    intro hm
    obtain ⟨item,hi,rfl⟩ := mem_map.mp hm
    have hs := h.below item.1 hl hn
    rw [(hitems.2 item hi).2.2] at hs
    cases hs
  rw [outcomeIn_of_notMem hnt,Option.none_or]

end

theorem Tracked.resolve (h : Tracked lastLsn s) (hitems : ResolvesOnce lastLsn s (.resolve items)) :
    Tracked lastLsn (s.step (.resolve items)) ∧ s.publisher.published ≤ (s.step (.resolve items)).publisher.published := by
  set outcome := fun lsn => (outcomeIn items lsn).or (s.outcome lsn) with hoc
  set noted : Publisher Op := { s.publisher with slots :=
    (items.map fun item => (item.1,slotOf item.2)).foldl (fun m entry => m.insert entry.1 entry.2) s.publisher.slots }
    with hn
  have hd := drained_publishReady noted
  have hlk : ∀ lsn, noted.slots.lookup lsn =
      if s.publisher.next ≤ lsn ∧ lsn ≤ s.current then some (slotAt (outcome lsn)) else none := lookup_noted h hitems
  have hle : s.publisher.next ≤ noted.publishReady.1.next := hd.le
  have hw := h.within
  have ha := h.above
  have hwm := h.watermark
  have hr : ∀ lsn, Slot.Resolved (noted.slots.lookup lsn) ↔
      (s.publisher.next ≤ lsn ∧ lsn ≤ s.current) ∧ (outcome lsn).isSome := by
    intro lsn
    rw [hlk]
    split
    next hin => rw [slotAt_resolved,and_iff_right hin]
    next ho => exact ⟨fun hno => absurd hno id,fun hno => absurd hno.1 ho⟩
  have hkn : ∀ lsn, (outcome lsn).isSome → lastLsn < lsn ∧ lsn ≤ s.current := fun lsn => h.known_after hitems
  have hold : ∀ lsn, lastLsn < lsn → lsn < s.publisher.next → outcome lsn = s.outcome lsn := fun lsn => h.outcome_below hitems
  have he : noted.publishReady.1.next ≤ s.current+1 := by
    by_contra hlt
    have := (hr (s.current+1)).mp (hd.taken (s.current+1) hw (by omega))
    omega
  refine ⟨⟨?_,he,?_,?_,?_,?_,hkn,?_⟩,?_⟩
  · exact Nat.lt_of_lt_of_le ha hle
  · change noted.publishReady.1.next - 1 + 1 = noted.publishReady.1.next
    omega
  · intro lsn
    change noted.publishReady.1.slots.lookup lsn =
      if noted.publishReady.1.next ≤ lsn ∧ lsn ≤ s.current then some (slotAt (outcome lsn)) else none
    rw [hd.slots,hlk]
    by_cases htk : noted.next ≤ lsn ∧ lsn < noted.publishReady.1.next
    · rw [if_pos htk,if_neg (by omega)]
    rw [if_neg htk]
    change ¬(s.publisher.next ≤ lsn ∧ lsn < noted.publishReady.1.next) at htk
    by_cases hin : s.publisher.next ≤ lsn ∧ lsn ≤ s.current
    · rw [if_pos hin,if_pos ⟨by omega,hin.2⟩]
    · rw [if_neg hin,if_neg (by omega)]
  · change outcome noted.publishReady.1.next = none
    by_contra hsm
    have hi := Option.isSome_iff_ne_none.mpr hsm
    exact hd.stop ((hr _).mpr ⟨⟨hle,(hkn _ hi).2⟩,hi⟩)
  · intro lsn h1 h2
    change (outcome lsn).isSome
    by_cases hb : lsn < s.publisher.next
    · rw [hold lsn h1 hb]
      exact h.below lsn h1 hb
    · exact ((hr lsn).mp (hd.taken lsn (Nat.le_of_not_lt hb) h2)).2
  · change s.broadcast ++ noted.publishReady.2 = _
    have hs : (List.range' s.publisher.next (noted.publishReady.1.next-s.publisher.next)).filterMap noted.shown =
        (List.range' s.publisher.next (noted.publishReady.1.next-s.publisher.next)).filterMap (shownAt outcome) := by
      refine filterMap_congr fun lsn hl => ?_
      obtain ⟨h1,h2⟩ := mem_range'_1.mp hl
      have hin := ((hr lsn).mp (hd.taken lsn h1 (by omega))).1
      rw [shown,hlk,if_pos hin,shownAt]
      rcases outcome lsn with _ | _ | _ <;> rfl
    have hbf : (List.range' (lastLsn+1) (s.publisher.next-(lastLsn+1))).filterMap (shownAt s.outcome) =
        (List.range' (lastLsn+1) (s.publisher.next-(lastLsn+1))).filterMap (shownAt outcome) := by
      refine filterMap_congr fun lsn hl => ?_
      obtain ⟨h1,h2⟩ := mem_range'_1.mp hl
      rw [shownAt,shownAt,hold lsn (by omega) (by omega)]
    have hrn : List.range' (lastLsn+1) (noted.publishReady.1.next-(lastLsn+1)) =
        List.range' (lastLsn+1) (s.publisher.next-(lastLsn+1)) ++
          List.range' s.publisher.next (noted.publishReady.1.next-s.publisher.next) := by
      rw [show s.publisher.next = lastLsn+1+(s.publisher.next-(lastLsn+1)) by omega,Nat.add_sub_cancel_left,
        range'_append_1]
      congr 1
      omega
    rw [h.broadcast,hd.sent]
    change _ ++ (List.range' s.publisher.next (noted.publishReady.1.next-s.publisher.next)).filterMap noted.shown =
      (List.range' (lastLsn+1) (noted.publishReady.1.next-(lastLsn+1))).filterMap (shownAt outcome)
    rw [hs,hbf,hrn,filterMap_append]
  · change s.publisher.published ≤ noted.publishReady.1.next-1
    omega

/-- Publication is in order and complete up to the first unresolved LSN. -/
structure Ordered (lastLsn : Nat) (s : Publication Op) : Prop where
  lowest : lastLsn < s.publisher.next ∧ s.outcome s.publisher.next = none ∧
    ∀ lsn, lastLsn < lsn → lsn < s.publisher.next → (s.outcome lsn).isSome
  watermark : s.publisher.published = s.publisher.next-1
  increasing : (s.broadcast.map (·.1)).Pairwise (· < ·)
  shown : ∀ lsn operation, (lsn,operation) ∈ s.broadcast ↔
    lastLsn < lsn ∧ lsn < s.publisher.next ∧ s.outcome lsn = some (some operation)

theorem shownAt_eq_some {outcome : Nat → Option (Option Op)} {lsn : Nat} {entry : Nat × Op} :
    shownAt outcome lsn = some entry ↔ entry.1 = lsn ∧ outcome lsn = some (some entry.2) := by
  obtain ⟨lsn',operation⟩ := entry
  rw [shownAt]
  rcases outcome lsn with _ | _ | operation'
  · simp
  · simp
  · simp [eq_comm]

theorem Tracked.ordered (h : Tracked lastLsn s) : Ordered lastLsn s where
  lowest := ⟨h.above,h.lowest,h.below⟩
  watermark := by
    have := h.watermark
    omega
  increasing := by
    rw [h.broadcast,map_filterMap,pairwise_filterMap]
    refine List.Pairwise.imp ?_ pairwise_lt_range'
    intro a b hab x hx y hy
    obtain ⟨e,he,rfl⟩ := Option.map_eq_some_iff.mp hx
    obtain ⟨e',he',rfl⟩ := Option.map_eq_some_iff.mp hy
    rw [(shownAt_eq_some.mp he).1,(shownAt_eq_some.mp he').1]
    exact hab
  shown lsn operation := by
    rw [h.broadcast,mem_filterMap]
    constructor
    · rintro ⟨n,hn,heq⟩
      obtain ⟨rfl,hop⟩ := shownAt_eq_some.mp heq
      obtain ⟨h1,h2⟩ := mem_range'_1.mp hn
      have := h.above
      exact ⟨by simp only at h1; omega,by simp only at h2; omega,hop⟩
    · rintro ⟨h1,h2,hop⟩
      exact ⟨lsn,mem_range'_1.mpr ⟨by omega,by omega⟩,shownAt_eq_some.mpr ⟨rfl,hop⟩⟩

theorem Tracked.step {lastLsn : Nat} {s : Publication Op} (h : Tracked lastLsn s) {call : PublisherCall Op}
    (hcall : ResolvesOnce lastLsn s call) :
    Tracked lastLsn (s.step call) ∧ s.publisher.published ≤ (s.step call).publisher.published := by
  cases call with
  | reserve count => exact ⟨h.reserve count,le_rfl⟩
  | resolve items => exact h.resolve hcall

end Publication

/-- In every interleaving of reservations and resolutions, the standbys have been shown the ready
LSNs below the first unresolved one, in order, and the watermark is just below it. -/
theorem publication_ordered {Op : Type} (lastLsn : Nat) (calls : List (PublisherCall Op))
    (h : Guarded Publication.step (Publication.ResolvesOnce lastLsn) (.start lastLsn) calls) :
    (∀ n, Publication.Ordered lastLsn (run Publication.step (.start lastLsn) (calls.take n))) ∧
      ∀ m n, m ≤ n → (run Publication.step (.start lastLsn) (calls.take m)).publisher.published ≤
        (run Publication.step (.start lastLsn) (calls.take n)).publisher.published := by
  have hstart : ∀ n, Guarded Publication.step (Publication.ResolvesOnce lastLsn) (.start lastLsn) (calls.take n) := by
    intro n
    rw [← take_append_drop n calls,guarded_append] at h
    exact h.1
  have htracked : ∀ n, Publication.Tracked lastLsn (run Publication.step (.start lastLsn) (calls.take n)) := fun n =>
    guarded_run_invariant _ _ (fun s call hs hcall => (hs.step hcall).1) (Publication.tracked_start lastLsn) (hstart n)
  refine ⟨fun n => (htracked n).ordered,fun m n hmn => ?_⟩
  obtain ⟨rest,hrest⟩ : ∃ rest, calls.take n = calls.take m ++ rest := by
    refine ⟨(calls.take n).drop m,?_⟩
    have hsplit := take_append_drop m (calls.take n)
    rw [take_take,min_eq_left hmn] at hsplit
    exact hsplit.symm
  have hguarded := hstart n
  rw [hrest,guarded_append] at hguarded
  have hgrows : ∀ {s : Publication Op} {calls : List (PublisherCall Op)}, Publication.Tracked lastLsn s →
      Guarded Publication.step (Publication.ResolvesOnce lastLsn) s calls →
      s.publisher.published ≤ (run Publication.step s calls).publisher.published := by
    intro s calls
    induction calls generalizing s with
    | nil => exact fun _ _ => le_rfl
    | cons call rest ih =>
      intro hs hg
      exact Nat.le_trans (hs.step hg.1).2 (ih (hs.step hg.1).1 hg.2)
  rw [hrest,run_append]
  exact hgrows (htracked m) hguarded.2

/-- Two committers finish out of order, and the later one waits until the earlier one gives up. -/
theorem publication_ordered_after_hole : Publication.Ordered 0 (run Publication.step (.start 0)
        ([.reserve 2,.resolve [(2,some "insert")],.resolve [(1,none)]].take 3)) ∧ (run Publication.step (.start 0)
        ([PublisherCall.reserve 2,.resolve [(2,some "insert")],.resolve [(1,none)]].take 2)).publisher.published ≤
      (run Publication.step (.start 0)
        ([PublisherCall.reserve 2,.resolve [(2,some "insert")],.resolve [(1,none)]].take 3)).publisher.published := by
  have hguarded : Guarded Publication.step (Publication.ResolvesOnce 0) (.start 0)
      [.reserve 2,.resolve [(2,some "insert")],.resolve [(1,none)]] := by
    refine ⟨trivial,⟨by simp,?_⟩,⟨by simp,?_⟩,trivial⟩
    · rintro item hitem
      cases mem_singleton.mp hitem
      exact ⟨by decide,by decide,rfl⟩
    · rintro item hitem
      cases mem_singleton.mp hitem
      exact ⟨by decide,by decide,rfl⟩
  exact ⟨(publication_ordered 0 _ hguarded).1 3,(publication_ordered 0 _ hguarded).2 2 3 (by decide)⟩

end HeliosNano.Storage.Wal
