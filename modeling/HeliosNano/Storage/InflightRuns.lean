import HeliosNano.Foundation.Runs
import HeliosNano.Storage.Inflight

namespace HeliosNano.Storage.InflightRuns
open Foundation InflightLedger List

/-- One call of a thread. The last kind announces a commit in another registry, which takes the hint of the thread. -/
inductive Call
  | beginCommit (thread : Nat) (commitTs : Timestamp)
  | endCommit (thread : Nat) (commitTs : Timestamp)
  | beginElsewhere (thread : Nat)
deriving DecidableEq

/-- A ledger, and of each thread the timestamp and the sequence number of its last announcement, if that was here. -/
structure Registry where
  ledger : InflightLedger
  lastBeginHint : Nat → Option (Timestamp × Nat)

/-- What a slot keeps of a timestamp: the shift drops its highest bit. -/
def packed (ts : Timestamp) : Timestamp := ts%2^63

namespace Registry

def new : Registry := ⟨.new,fun _ => none⟩

/-- The hint helps only the thread that began the same commit. -/
def hintFor (r : Registry) (thread : Nat) (commitTs : Timestamp) : Option (Timestamp × Nat) :=
  ((r.lastBeginHint thread).filter fun hint => hint.1 == commitTs).map fun hint => (packed hint.1,hint.2)

/-- No state after a call that does not return. -/
def step (r : Registry) : Call → Option Registry
  | .beginCommit thread commitTs =>
    (r.ledger.beginCommit (packed commitTs)).map fun ledger =>
      ⟨ledger,Function.update r.lastBeginHint thread (some (commitTs,r.ledger.head))⟩
  | .endCommit thread commitTs =>
    some { r with ledger := { r.ledger with lastBeginHint := r.hintFor thread commitTs }.endCommit (packed commitTs) }
  | .beginElsewhere thread => some { r with lastBeginHint := Function.update r.lastBeginHint thread none }

def after (calls : List Call) : Option Registry := calls.foldlM step new

theorem after_append (calls : List Call) (call : Call) : after (calls ++ [call]) = (after calls).bind (·.step call) := by
  rw [after,foldlM_append]
  cases h : after calls <;> simp_all [after]

end Registry

/-- The announced commits in their order, and those of them that have not ended. -/
structure Book where
  begun : List Timestamp
  pending : List Timestamp

namespace Book

def step (b : Book) : Call → Book
  | .beginCommit _ commitTs => ⟨b.begun ++ [commitTs],b.pending ++ [commitTs]⟩
  | .endCommit _ commitTs => { b with pending := b.pending.filter (· ≠ commitTs) }
  | .beginElsewhere _ => b

def window (b : Book) : List Timestamp := b.begun.dropWhile (· ∉ b.pending)

end Book

def book (calls : List Call) : Book := run Book.step ⟨[],[]⟩ calls

namespace Call

def begun : Call → Option Timestamp
  | beginCommit _ commitTs => some commitTs
  | _ => none

/-- The timestamps of the engine: counted from 1 and below 2^63. -/
def InRange : Call → Prop
  | beginCommit _ commitTs => 1 ≤ commitTs ∧ commitTs < 2^63
  | endCommit _ commitTs => commitTs < 2^63
  | beginElsewhere _ => True

end Call

def Increasing (calls : List Call) : Prop := (calls.filterMap Call.begun).Pairwise (· < ·)

theorem begun_book (calls : List Call) : (book calls).begun = calls.filterMap Call.begun := by
  induction calls using List.reverseRecOn with
  | nil => rfl
  | append_singleton calls call ih =>
    rw [book,run_append,run_cons,run_nil,filterMap_append,← ih]
    cases call with
    | beginCommit thread ts => rfl
    | endCommit thread ts | beginElsewhere thread => exact (append_nil _).symm

structure Exact (calls : List Call) (l : InflightLedger) : Prop where
  scan : ∀ s, l.hasPendingAtOrBelow s = true ↔ ∃ ts ∈ (book calls).pending, ts ≤ s
  count : l.pendingCount = (book calls).pending.length
  applied : ∀ ts ∈ (book calls).begun, ts ≤ l.appliedWatermark → ts ∉ (book calls).pending

section
variable {l : InflightLedger}

/-- The tail of the window is pending: everything that could be reclaimed has been. -/
def Settled (l : InflightLedger) : Prop := l.tail < l.head → slotIsPending (l.slot l.tail) = true

theorem Settled.reclaim (h : Settled l) (ho : l.tail ≤ l.head) (n : Nat) : l.reclaim n = l := by
  cases n with
  | zero => rfl
  | succ n =>
    rw [InflightLedger.reclaim]
    split
    · rfl
    next hne =>
      rw [if_pos (.inr (h (Nat.lt_of_le_of_ne ho hne)))]

/-- A part of the window is given back, and the watermark is the timestamp of the last slot of it. -/
structure Reclaims (l l' : InflightLedger) : Prop where
  head : l'.head = l.head
  tail : l.tail ≤ l'.tail
  slots : ∀ seq, l'.tail ≤ seq → seq < l.head → l'.slot seq = l.slot seq
  rises : l.appliedWatermark ≤ l'.appliedWatermark
  watermark : l'.appliedWatermark = l.appliedWatermark ∨
    ∃ seq, l.tail ≤ seq ∧ seq < l.head ∧ l'.appliedWatermark = slotTs (l.slot seq)

theorem Reclaims.refl (l : InflightLedger) : Reclaims l l := ⟨rfl,le_rfl,fun _ _ _ => rfl,le_rfl,.inl rfl⟩

theorem reclaims_reclaimOne (h : l.Wf) (hne : l.tail ≠ l.head) : Reclaims l l.reclaimOne := by
  have hlt : l.tail < l.head := Nat.lt_of_le_of_ne h.ordered hne
  refine ⟨rfl,Nat.le_succ _,fun seq hs hs' => ?_,le_max_left _ _,.inr ⟨l.tail,le_rfl,hlt,?_⟩⟩
  · have hs : l.tail+1 ≤ seq := hs
    change (l.store l.tail slotEmpty).slot seq = l.slot seq
    rw [slot_store_window h _ le_rfl hlt (by omega) hs',if_neg (by omega)]
  · exact max_eq_right (h.above l.tail le_rfl hlt).le

theorem Reclaims.trans {l' l'' : InflightLedger} (h : Reclaims l l') (h' : Reclaims l' l'') : Reclaims l l'' where
  head := h'.head.trans h.head
  tail := h.tail.trans h'.tail
  slots seq hs hs' := (h'.slots seq hs (h.head ▸ hs')).trans (h.slots seq (h'.tail.trans hs) hs')
  rises := h.rises.trans h'.rises
  watermark := by
    rcases h'.watermark with heq | ⟨seq,hs,hs',heq⟩
    · rw [heq]
      exact h.watermark
    · rw [h.head] at hs'
      rw [heq,h.slots seq hs hs']
      exact .inr ⟨seq,h.tail.trans hs,hs',rfl⟩

theorem reclaims_reclaim (h : l.Wf) (n : Nat) : Reclaims l (l.reclaim n) ∧ (l.head-l.tail ≤ n → Settled (l.reclaim n)) := by
  induction n generalizing l with
  | zero => exact ⟨.refl l,fun hle hlt => absurd (show l.tail < l.head from hlt) (by omega)⟩
  | succ n ih =>
    rw [InflightLedger.reclaim]
    split
    next heq =>
      exact ⟨.refl l,fun _ hlt => absurd heq (Nat.ne_of_lt hlt)⟩
    next hne =>
      split
      next hs =>
        refine ⟨.refl l,fun _ hlt => hs.resolve_left fun he => ?_⟩
        exact h.nonempty l.tail le_rfl hlt he
      next hgo =>
        have ho := reclaims_reclaimOne h hne
        obtain ⟨hrest,hst⟩ := ih (h.reclaimOne hne fun hp => hgo (.inr hp)).1
        refine ⟨ho.trans hrest,fun hle => hst ?_⟩
        change l.head - (l.tail+1) ≤ n
        omega

end

structure Agrees (l : InflightLedger) (b : Book) : Prop where
  wf : l.Wf
  increasing : b.begun.Pairwise (· < ·)
  head : l.head = b.begun.length
  window : ∀ seq, l.tail ≤ seq → seq < l.head → b.begun[seq]? = some (slotTs (l.slot seq))
  pending : ∀ ts, l.Pending ts ↔ ts ∈ b.pending
  nodup : b.pending.Nodup
  watermark : l.appliedWatermark = 0 ∨ l.appliedWatermark ∈ b.begun
  settled : Settled l

section
variable {l l' : InflightLedger} {b : Book}

theorem agrees_new : Agrees .new ⟨[],[]⟩ where
  wf := wf_new
  increasing := .nil
  head := rfl
  window seq _ h := absurd h (Nat.not_lt_zero seq)
  pending ts := by
    refine ⟨?_,fun h => absurd h not_mem_nil⟩
    rintro ⟨seq,-,h,-⟩
    exact absurd h (Nat.not_lt_zero seq)
  nodup := .nil
  watermark := .inl rfl
  settled h := absurd h (Nat.not_lt_zero 0)

variable (h : Agrees l b)
include h

theorem Agrees.slot_mem {seq : Nat} (hs : l.tail ≤ seq) (hs' : seq < l.head) :
    slotTs (l.slot seq) ∈ b.begun := mem_of_getElem? (h.window seq hs hs')

variable {ts : Timestamp}

theorem Agrees.mem_begun (hts : ts ∈ b.pending) : ts ∈ b.begun := by
  obtain ⟨seq,hs,hs',hsl⟩ := (h.pending ts).mpr hts
  have hm := h.slot_mem hs hs'
  rwa [hsl,slotTs_slotPending] at hm

theorem Agrees.count : l.pendingCount = b.pending.length := by
  have hi : b.pending.toFinset =
      ((Finset.Ico l.tail l.head).filter fun seq => slotIsPending (l.slot seq) = true).image fun seq => slotTs (l.slot seq) := by
    ext ts
    rw [mem_toFinset,← h.pending ts,Finset.mem_image]
    constructor
    · rintro ⟨seq,hs,hs',hsl⟩
      exact ⟨seq,Finset.mem_filter.mpr ⟨Finset.mem_Ico.mpr ⟨hs,hs'⟩,(slotIsPending_iff _).mpr ⟨ts,hsl⟩⟩,
        by rw [hsl,slotTs_slotPending]⟩
    · rintro ⟨seq,hsq,rfl⟩
      obtain ⟨hin,hp⟩ := Finset.mem_filter.mp hsq
      obtain ⟨hs,hs'⟩ := Finset.mem_Ico.mp hin
      obtain ⟨ts,hts⟩ := (slotIsPending_iff _).mp hp
      exact ⟨seq,hs,hs',by rw [hts,slotTs_slotPending]⟩
  rw [h.wf.counted,← toFinset_card_of_nodup h.nodup,hi,Finset.card_image_of_injOn]
  intro x hx y hy heq
  have hx := Finset.mem_Ico.mp (Finset.mem_filter.mp hx).1
  have hy := Finset.mem_Ico.mp (Finset.mem_filter.mp hy).1
  exact h.wf.slot_unique hx.1 hx.2 hy.1 hy.2 heq

theorem Agrees.below (hp : 1 ≤ ts) (hnew : ∀ old ∈ b.begun, old < ts) : l.Below ts := by
  refine ⟨?_,fun seq hs hs' => hnew _ (h.slot_mem hs hs')⟩
  rcases h.watermark with hz | hm
  · rw [hz]
    exact hp
  · exact hnew _ hm

theorem Agrees.beginCommit_eq (ts : Timestamp) : l.beginCommit ts = if inflightRingSize ≤ l.head-l.tail then none
    else some { l.store l.head (slotPending ts) with
      pendingCount := l.pendingCount+1, head := l.head+1, lastBeginHint := some (ts,l.head) } := by
  have hr : l.tryReclaim = l := h.settled.reclaim h.wf.ordered _
  rw [InflightLedger.beginCommit,hr,ite_self]

theorem Agrees.beginCommit (hps : 1 ≤ ts) (hnew : ∀ old ∈ b.begun, old < ts) (hl : l.beginCommit ts = some l') :
    Agrees l' ⟨b.begun ++ [ts],b.pending ++ [ts]⟩ ∧ l.appliedWatermark ≤ l'.appliedWatermark := by
  obtain ⟨hwf,hp⟩ := h.wf.beginCommit (h.below hps hnew) hl
  rw [h.beginCommit_eq] at hl
  split at hl
  · cases hl
  rename_i hr
  cases hl
  have ho := h.wf.ordered
  have hold : ∀ seq, l.tail ≤ seq → seq < l.head → (l.store l.head (slotPending ts)).slot seq = l.slot seq := by
    intro seq hs hs'
    rw [slot_store,if_neg fun hm => ?_]
    have hw : l.head+1 ≤ l.tail+inflightRingSize := by omega
    exact absurd (seq_unique hw hs (by omega) ho (by omega) hm) (by omega)
  have hls : (l.store l.head (slotPending ts)).slot l.head = slotPending ts := by simp [slot_store]
  refine ⟨⟨hwf,?_,?_,fun seq hs hs' => ?_,fun t => ?_,?_,?_,fun hlt => ?_⟩,le_rfl⟩
  · exact pairwise_append.mpr ⟨h.increasing,pairwise_singleton _ _,
      fun old hmm new heq => mem_singleton.mp heq ▸ hnew old hmm⟩
  · rw [length_append,← h.head]
    rfl
  · change _ = some (slotTs ((l.store l.head (slotPending ts)).slot seq))
    rcases Nat.lt_succ_iff_lt_or_eq.mp hs' with hlt | rfl
    · rw [hold seq hs hlt,getElem?_append_left (h.head ▸ hlt)]
      exact h.window seq hs hlt
    · rw [hls,slotTs_slotPending,h.head,getElem?_concat_length]
  · rw [hp t,h.pending t,mem_append,mem_singleton]
  · refine nodup_append.mpr ⟨h.nodup,nodup_singleton _,fun old hmm new heq => ?_⟩
    rw [mem_singleton.mp heq]
    exact Nat.ne_of_lt (hnew old (h.mem_begun hmm))
  · exact h.watermark.imp_right (mem_append_left _)
  · change slotIsPending ((l.store l.head (slotPending ts)).slot l.tail) = true
    rcases Nat.lt_succ_iff_lt_or_eq.mp (show l.tail < l.head+1 from hlt) with hlt | heq
    · rw [hold l.tail le_rfl hlt]
      exact h.settled hlt
    · rw [heq,hls]
      exact (slotIsPending_iff _).mpr ⟨ts,rfl⟩

theorem Agrees.hint (hint : Option (Timestamp × Nat)) : Agrees { l with lastBeginHint := hint } b :=
  ⟨⟨h.wf.ordered,h.wf.room,h.wf.nonempty,h.wf.increasing,h.wf.above,h.wf.counted,h.wf.cleared⟩,
    h.increasing,h.head,h.window,h.pending,h.nodup,h.watermark,h.settled⟩

theorem Agrees.endCommit (ts : Timestamp) : Agrees (l.endCommit ts) { b with pending := b.pending.filter (· ≠ ts) } ∧
      l.appliedWatermark ≤ (l.endCommit ts).appliedWatermark := by
  obtain ⟨hwf,hp⟩ := h.wf.endCommit ts
  have hc : ∀ t, (l.endCommit ts).Pending t ↔ t ∈ b.pending.filter (· ≠ ts) := by
    intro t
    rw [hp t,h.pending t,mem_filter,decide_eq_true_eq]
  have hnd : (b.pending.filter (· ≠ ts)).Nodup := h.nodup.filter _
  cases hf : l.findPending ts with
  | none =>
    have heq : l.endCommit ts = l := by rw [InflightLedger.endCommit,hf]
    rw [heq] at hwf hc ⊢
    exact ⟨⟨hwf,h.increasing,h.head,h.window,hc,hnd,h.watermark,h.settled⟩,le_rfl⟩
  | some seq =>
    obtain ⟨seq',hs,hs',hm,hsl⟩ := findPending_some h.wf hf
    have hmr := (h.wf.mark hs hs' hm hsl (h.wf.pos_of_pending ⟨seq',hs,hs',hsl⟩)).1
    obtain ⟨hr,hst⟩ := reclaims_reclaim hmr (l.head-l.tail)
    have heq : l.endCommit ts = { l.store seq (slotApplied ts) with pendingCount := l.pendingCount-1 }.reclaim
        (l.head-l.tail) := by
      rw [InflightLedger.endCommit,hf]
      rfl
    rw [heq] at hwf hc ⊢
    -- marking the slot leaves its timestamp, and reclaiming leaves the slots that stay in the window
    have hts : ∀ {a}, l.tail ≤ a → a < l.head → slotTs ((l.store seq (slotApplied ts)).slot a) = slotTs (l.slot a) :=
      fun ha ha' => h.wf.slotTs_mark hs hs' hm hsl ha ha'
    refine ⟨⟨hwf,h.increasing,hr.head.trans h.head,fun a ha ha' => ?_,hc,hnd,?_,
      hst le_rfl⟩,hr.rises⟩
    · have hlt : a < l.head := hr.head ▸ ha'
      have hle : l.tail ≤ a := hr.tail.trans ha
      rw [hr.slots a ha hlt,h.window a hle hlt]
      exact congrArg some (hts hle hlt).symm
    · rcases hr.watermark with hsame | ⟨a,ha,ha',hrs⟩
      · rw [hsame]
        exact h.watermark
      · refine .inr ?_
        rw [hrs]
        exact hts ha ha' ▸ h.slot_mem ha ha'

theorem Agrees.window_eq : b.window = b.begun.drop l.tail := by
  have hb : ∀ ts ∈ b.begun.take l.tail, ts ∉ b.pending := by
    intro ts hm hts
    obtain ⟨seq,hs,hs',hsl⟩ := (h.pending ts).mpr hts
    obtain ⟨i,hi,rfl⟩ := mem_take_iff_getElem.mp hm
    have hsq := h.window seq hs hs'
    rw [hsl,slotTs_slotPending] at hsq
    obtain ⟨hl,heq⟩ := List.getElem?_eq_some_iff.mp hsq
    have hlt : b.begun[i] < b.begun[seq] := pairwise_iff_getElem.mp h.increasing i seq _ hl (by omega)
    exact absurd heq (Nat.ne_of_gt hlt)
  have hsp : b.window = (b.begun.take l.tail ++ b.begun.drop l.tail).dropWhile (· ∉ b.pending) := by
    rw [take_append_drop]
    rfl
  rw [hsp,dropWhile_append_of_pos fun ts hts => decide_eq_true (hb ts hts)]
  cases hd : b.begun.drop l.tail with
  | nil => rfl
  | cons ts rest =>
    have hlt : l.tail < l.head := by
      have hl := congrArg List.length hd
      rw [length_drop,← h.head,length_cons] at hl
      omega
    obtain ⟨t,ht⟩ := (slotIsPending_iff _).mp (h.settled hlt)
    have hf := h.window l.tail le_rfl hlt
    rw [ht,slotTs_slotPending,← head?_drop,hd] at hf
    obtain rfl : ts = t := Option.some.inj hf
    have hm : ts ∈ b.pending := (h.pending ts).mp ⟨l.tail,le_rfl,hlt,ht⟩
    exact dropWhile_cons_of_neg (by simpa using hm)

end

theorem packed_of_lt {ts : Timestamp} (h : ts < 2^63) : packed ts = ts := Nat.mod_eq_of_lt h

variable {r r' : Registry}

theorem agrees_step {b : Book} {call : Call} (h : Agrees r.ledger b) (hr : call.InRange)
    (hnew : ∀ ts, call.begun = some ts → ∀ old ∈ b.begun, old < ts) (hs : r.step call = some r') :
    Agrees r'.ledger (b.step call) ∧ r.ledger.appliedWatermark ≤ r'.ledger.appliedWatermark := by
  cases call with
  | beginCommit thread ts =>
    obtain ⟨hp,hlt⟩ := hr
    rw [Registry.step,packed_of_lt hlt] at hs
    obtain ⟨ledger,hl,rfl⟩ := Option.map_eq_some_iff.mp hs
    exact h.beginCommit hp (hnew ts rfl) hl
  | endCommit thread ts =>
    rw [Registry.step,packed_of_lt hr] at hs
    cases hs
    exact (h.hint _).endCommit ts
  | beginElsewhere thread =>
    cases hs
    exact ⟨h,le_rfl⟩

theorem agrees_after {calls : List Call} (hi : Increasing calls) (hr : ∀ call ∈ calls, call.InRange)
    (h : Registry.after calls = some r) : Agrees r.ledger (book calls) := by
  induction calls using List.reverseRecOn generalizing r with
  | nil =>
    cases h
    exact agrees_new
  | append_singleton calls call ih =>
    rw [Registry.after_append] at h
    obtain ⟨r',hr',hs⟩ := Option.bind_eq_some_iff.mp h
    rw [Increasing,filterMap_append,pairwise_append] at hi
    have ha := ih hi.1 (fun c hc => hr c (mem_append_left _ hc)) hr'
    rw [book,run_append]
    refine (agrees_step ha (hr call (by simp)) (fun ts hts old hold => ?_) hs).1
    rw [begun_book] at hold
    exact hi.2.2 old hold ts (mem_filterMap.mpr ⟨call,mem_singleton_self _,hts⟩)

theorem watermark_mono {earlier later : List Call} (hi : Increasing (earlier ++ later))
    (hr : ∀ call ∈ earlier ++ later, call.InRange) (h' : Registry.after earlier = some r')
    (h : Registry.after (earlier ++ later) = some r) : r'.ledger.appliedWatermark ≤ r.ledger.appliedWatermark := by
  induction later using List.reverseRecOn generalizing r with
  | nil =>
    rw [append_nil,h'] at h
    cases h
    exact le_rfl
  | append_singleton later call ih =>
    rw [← append_assoc] at hi hr h
    rw [Registry.after_append] at h
    obtain ⟨middle,hm,hs⟩ := Option.bind_eq_some_iff.mp h
    rw [Increasing,filterMap_append,pairwise_append] at hi
    have hr' : ∀ c ∈ earlier ++ later, c.InRange := fun c hc => hr c (mem_append_left _ hc)
    have ha := agrees_after hi.1 hr' hm
    refine (ih hi.1 hr' hm).trans
      (agrees_step ha (hr call (by simp)) (fun ts hts old hold => ?_) hs).2
    rw [begun_book] at hold
    exact hi.2.2 old hold ts (mem_filterMap.mpr ⟨call,mem_singleton_self _,hts⟩)

/-- In every run of calls with timestamps of the engine, the scan, the counter and the watermark are exact and the
watermark never falls; and a `begin_commit` comes back exactly when the commits from the oldest pending one on leave
room in the ring. -/
theorem ledger_exact (calls : List Call) (hincreasing : Increasing calls) (hrange : ∀ call ∈ calls, call.InRange)
    {r : Registry} (h : Registry.after calls = some r) : Exact calls r.ledger ∧
    (∀ n r', Registry.after (calls.take n) = some r' → r'.ledger.appliedWatermark ≤ r.ledger.appliedWatermark) ∧
    ∀ thread ts, (r.step (.beginCommit thread ts)).isSome = true ↔ (book calls).window.length < inflightRingSize := by
  have hagrees := agrees_after hincreasing hrange h
  refine ⟨⟨fun s => ?_,hagrees.count,fun ts _ hle hts => ?_⟩,fun n r' hr' => ?_,fun thread ts => ?_⟩
  · rw [hagrees.wf.hasPendingAtOrBelow_iff]
    constructor
    · rintro ⟨ts,hle,hts⟩
      exact ⟨ts,(hagrees.pending ts).mp hts,hle⟩
    · rintro ⟨ts,hts,hle⟩
      exact ⟨ts,hle,(hagrees.pending ts).mpr hts⟩
  · obtain ⟨seq,hs,hs',hslot⟩ := (hagrees.pending ts).mpr hts
    have habove := hagrees.wf.above seq hs hs'
    rw [hslot,slotTs_slotPending] at habove
    exact absurd hle (Nat.not_le.mpr habove)
  · rw [← take_append_drop n calls] at hincreasing hrange h
    exact watermark_mono hincreasing hrange hr' h
  · rw [hagrees.window_eq,length_drop,← hagrees.head,Registry.step,hagrees.beginCommit_eq]
    split <;> simp <;> omega

/-- Two threads announce commits, which end out of order; one end is repeated and one unknown. -/
def sampleCalls : List Call :=
  [.beginCommit 1 10,.beginCommit 2 20,.endCommit 2 20,.endCommit 1 20,.endCommit 1 15,.beginElsewhere 1,.beginCommit 2 30]

theorem ledger_exact_sample : ∃ r, Registry.after sampleCalls = some r ∧ Exact sampleCalls r.ledger ∧
    (book sampleCalls).pending = [10,30] ∧ r.ledger.appliedWatermark = 0 ∧ (r.step (.beginCommit 1 40)).isSome = true := by
  have hrange : ∀ call ∈ sampleCalls, call.InRange := by
    simp [sampleCalls,Call.InRange]
  have hexact := ledger_exact sampleCalls (by unfold Increasing; decide) hrange (r := (Registry.after sampleCalls).get (by decide +kernel))
    (Option.some_get _).symm
  exact ⟨_,(Option.some_get _).symm,hexact.1,by decide,by decide +kernel,(hexact.2.2 1 40).mpr (by decide +kernel)⟩

/-- Outside that range the ledger errs: timestamp 0 is at the watermark while it is pending; the highest bit is not
kept, so the scan finds a commit below its timestamp; and the end of an unknown commit with that bit ends another. -/
theorem ledger_out_of_range : (∃ r, Registry.after [.beginCommit 1 0] = some r ∧ ¬Exact [.beginCommit 1 0] r.ledger) ∧
    (∃ r, Registry.after [.beginCommit 1 (2^63)] = some r ∧ ¬Exact [.beginCommit 1 (2^63)] r.ledger) ∧
    ∃ r, Registry.after [.beginCommit 1 10,.endCommit 1 (2^63+10)] = some r ∧
      ¬Exact [.beginCommit 1 10,.endCommit 1 (2^63+10)] r.ledger := by
  refine ⟨⟨_,rfl,fun h => ?_⟩,⟨_,rfl,fun h => ?_⟩,_,rfl,fun h => ?_⟩
  · exact h.applied 0 (by decide) (by decide +kernel) (by decide)
  · obtain ⟨ts,hts,hle⟩ := (h.scan 5).mp (by decide +kernel)
    rw [show (book [.beginCommit 1 (2^63)]).pending = [2^63] from rfl,mem_singleton] at hts
    rw [hts] at hle
    exact absurd hle (by decide)
  · have hpending : (book [.beginCommit 1 10,.endCommit 1 (2^63+10)]).pending = [10] := by decide
    have hcount := h.count
    rw [hpending] at hcount
    exact absurd hcount (by decide +kernel)

end HeliosNano.Storage.InflightRuns
