import HeliosNano.Replication.WalStore

namespace HeliosNano.Replication.WalStore
open Foundation List

structure BatchRequest where
  from_lsn : Lsn
  to_lsn : Option Lsn
  max_entries : Nat
  max_bytes : Nat

structure BatchResult where
  entries : List WalEntry
  start_lsn : Lsn
  end_lsn : Lsn
  has_more : Bool
  total_bytes : Nat
deriving DecidableEq

namespace Store
variable (store : Store)

/-- The entries above one LSN and up to another one, in their order. -/
def range (a b : Lsn) : List (Lsn × WalEntry) :=
  (List.range' (a+1) (b-a)).filterMap fun lsn => (store.entries lsn).map fun entry => (lsn,entry)

def endLsn (request : BatchRequest) : Lsn := request.to_lsn.getD store.current_lsn

def requested (request : BatchRequest) : List (Lsn × WalEntry) := store.range request.from_lsn (store.endLsn request)

end Store

def WalEntry.size (entry : WalEntry) : Nat := entry.data.length+32

def BatchResult.empty : BatchResult := ⟨[],0,0,false,0⟩

def BatchResult.push (batch : BatchResult) (lsn : Lsn) (entry : WalEntry) : BatchResult where
  entries := batch.entries ++ [entry]
  start_lsn := if batch.entries = [] then lsn else batch.start_lsn
  end_lsn := lsn
  has_more := batch.has_more
  total_bytes := batch.total_bytes+entry.size

/-- The loop of `get_batch`. An entry that is too large is taken when it is the first. -/
def batchLoop (request : BatchRequest) : BatchResult → List (Lsn × WalEntry) → BatchResult
  | batch, [] => batch
  | batch, (lsn,entry)::rest =>
    if request.max_entries ≤ batch.entries.length then { batch with has_more := true }
    else if request.max_bytes < batch.total_bytes+entry.size ∧ batch.entries ≠ [] then { batch with has_more := true }
    else batchLoop request (batch.push lsn entry) rest

/-- `none` is the panic of a range whose start is beyond its end. -/
def getBatch (store : Store) (request : BatchRequest) : Option BatchResult :=
  let end_lsn := store.endLsn request
  if end_lsn < request.from_lsn then none
  else
    let batch := batchLoop request .empty (store.range request.from_lsn end_lsn)
    if batch.has_more = false ∧ batch.end_lsn < end_lsn then
      some { batch with has_more := !(store.range batch.end_lsn end_lsn).isEmpty }
    else some batch

structure BatchStreamState where
  request : BatchRequest
  last_sent_lsn : Lsn
  batch_num : Nat
  bytes_sent : Nat
  entries_sent : Nat
  complete : Bool

def BatchStreamState.new (request : BatchRequest) : BatchStreamState := ⟨request,request.from_lsn,0,0,0,false⟩

def nextBatch (store : Store) (state : BatchStreamState) : Option (BatchStreamState × Option BatchResult) :=
  if state.complete then some (state,none)
  else do
    let batch ← getBatch store { state.request with from_lsn := state.last_sent_lsn }
    if batch.entries = [] then return ({ state with complete := true },none)
    else
      return ({ state with
        last_sent_lsn := batch.end_lsn
        batch_num := (state.batch_num+1)%2^32
        bytes_sent := state.bytes_sent+batch.total_bytes
        entries_sent := state.entries_sent+batch.entries.length
        complete := !batch.has_more },some batch)

def stream (store : Store) : Nat → BatchStreamState → Option (List BatchResult × BatchStreamState)
  | 0, state => some ([],state)
  | n+1, state => do
    let (state,batch) ← nextBatch store state
    let (batches,state) ← stream store n state
    return (batch.toList ++ batches,state)

structure CatchesUp (store : Store) (request : BatchRequest) : Prop where
  has_more : ∃ batch, getBatch store request = some batch ∧
    (batch.has_more = true ↔ batch.entries.length < (store.requested request).length)
  stream : ∃ n batches state, stream store n (.new request) = some (batches,state) ∧ state.complete = true ∧
    batches.flatMap (·.entries) = (store.requested request).map (·.2)

section
variable {store : Store} {a b c : Nat}

theorem range_append (hac : a ≤ c) (hcb : c ≤ b) : store.range a b = store.range a c ++ store.range c b := by
  rw [Store.range,Store.range,Store.range,← filterMap_append]
  have hr := @range'_append_1 (a+1) (c-a) (b-c)
  rw [show a+1+(c-a) = c+1 by omega,show c-a + (b-c) = b-a by omega] at hr
  rw [hr]

@[simp] theorem range_self (a : Nat) : store.range a a = [] := by
  rw [Store.range,Nat.sub_self]
  rfl

theorem range_eq_nil_iff : store.range a b = [] ↔ ∀ lsn : Nat, a < lsn → lsn ≤ b → store.entries lsn = none := by
  rw [Store.range,filterMap_eq_nil_iff]
  simp only [mem_range'_1,Option.map_eq_none_iff]
  constructor
  · intro h lsn ha hb
    exact h lsn ⟨ha,by omega⟩
  · intro h lsn hl
    exact h lsn hl.1 (by omega)

theorem range_eq_cons {lsn : Nat} {entry : WalEntry} {rest : List (Lsn × WalEntry)} (h : store.range a b = (lsn,entry)::rest) :
    a < lsn ∧ lsn ≤ b ∧ store.range a lsn = [(lsn,entry)] ∧ rest = store.range lsn b := by
  obtain ⟨n,hn⟩ : ∃ n, b-a = n := ⟨_,rfl⟩
  induction n generalizing a with
  | zero =>
    rw [Store.range,hn] at h
    cases h
  | succ n ih =>
    have hs : store.range a b = store.range a (a+1) ++ store.range (a+1) b := range_append (Nat.le_succ a) (by omega)
    have hone : store.range a (a+1) = ((store.entries (a+1)).map fun e => (a+1,e)).toList := by
      rw [Store.range,Nat.add_sub_cancel_left]
      cases he : store.entries (a+1) <;> simp [he]
    cases he : store.entries (a+1) with
    | none =>
      rw [he] at hone
      rw [hs,hone] at h
      obtain ⟨hl,hb,hsingle,hr⟩ := ih h (by omega)
      refine ⟨by omega,hb,?_,hr⟩
      rw [range_append (Nat.le_succ a) hl.le,hone,hsingle]
      rfl
    | some e =>
      rw [he] at hone
      rw [hs,hone] at h
      obtain ⟨hpair,hr⟩ := cons.inj h
      obtain ⟨rfl,rfl⟩ := Prod.mk.inj hpair
      exact ⟨Nat.lt_succ_self a,by omega,hone,hr.symm⟩

end

section
variable {store : Store} {request : BatchRequest}

theorem batchLoop_takes {b : Nat} {batch : BatchResult} (hb : batch.end_lsn ≤ b) (hm : batch.has_more = false)
    (l : List (Lsn × WalEntry)) (hl : l = store.range batch.end_lsn b) :
    batch.end_lsn ≤ (batchLoop request batch l).end_lsn ∧ (batchLoop request batch l).end_lsn ≤ b ∧
      (batchLoop request batch l).entries =
        batch.entries ++ (store.range batch.end_lsn (batchLoop request batch l).end_lsn).map (·.2) ∧
      ((batchLoop request batch l).has_more = true ↔ store.range (batchLoop request batch l).end_lsn b ≠ []) := by
  induction l generalizing batch with
  | nil =>
    rw [batchLoop,range_self,hm]
    exact ⟨le_rfl,hb,(append_nil _).symm,by simp [← hl]⟩
  | cons pair rest ih =>
    obtain ⟨lsn,entry⟩ := pair
    have hstop : store.range batch.end_lsn b ≠ [] := by rw [← hl]; exact cons_ne_nil _ _
    obtain ⟨hlt,hle,hone,hr⟩ := range_eq_cons hl.symm
    have hhere : batch.entries = batch.entries ++ (store.range batch.end_lsn batch.end_lsn).map (·.2) := by
      rw [range_self]
      exact (append_nil _).symm
    rw [batchLoop]
    split
    · exact ⟨le_rfl,hb,hhere,iff_of_true rfl hstop⟩
    split
    · exact ⟨le_rfl,hb,hhere,iff_of_true rfl hstop⟩
    obtain ⟨hge,hend,hes,hmore⟩ := @ih (batch.push lsn entry) hle hm hr
    refine ⟨hlt.le.trans hge,hend,?_,hmore⟩
    rw [hes,range_append hlt.le hge,hone,map_append]
    exact append_assoc _ _ _

theorem getBatch_spec (hmax : 1 ≤ request.max_entries) (hne : store.requested request ≠ []) :
    ∃ batch, getBatch store request = some batch ∧ batch.entries ≠ [] ∧ request.from_lsn < batch.end_lsn ∧
      batch.end_lsn ≤ store.endLsn request ∧ batch.entries = (store.range request.from_lsn batch.end_lsn).map (·.2) ∧
      (batch.has_more = true ↔ store.range batch.end_lsn (store.endLsn request) ≠ []) := by
  obtain ⟨⟨lsn,entry⟩,rest,hl⟩ := exists_cons_of_ne_nil hne
  obtain ⟨hlt,hle,hone,hr⟩ := range_eq_cons hl
  have hf : batchLoop request .empty ((lsn,entry)::rest) =
      batchLoop request (BatchResult.empty.push lsn entry) rest := by
    have hroom : ¬request.max_entries ≤ BatchResult.empty.entries.length := Nat.not_le.mpr hmax
    rw [batchLoop,if_neg hroom,if_neg fun hno => hno.2 rfl]
  obtain ⟨hge,hend,hes,hmore⟩ :=
    @batchLoop_takes store request _ (BatchResult.empty.push lsn entry) hle rfl rest hr
  rw [← hf] at hge hend hes hmore
  have hfull : (batchLoop request .empty ((lsn,entry)::rest)).entries = (store.range request.from_lsn
      (batchLoop request .empty ((lsn,entry)::rest)).end_lsn).map (·.2) := by
    rw [hes,range_append hlt.le hge,hone]
    rfl
  have hsome : (batchLoop request .empty ((lsn,entry)::rest)).entries ≠ [] := by
    rw [hes]
    exact cons_ne_nil _ _
  rw [getBatch,if_neg (Nat.not_lt.mpr (hlt.le.trans hle)),show store.range _ _ = _ from hl]
  dsimp only
  split
  · exact ⟨_,rfl,hsome,hlt.trans_le hge,hend,hfull,by simp⟩
  · exact ⟨_,rfl,hsome,hlt.trans_le hge,hend,hfull,hmore⟩

theorem getBatch_of_nil (hle : request.from_lsn ≤ store.endLsn request) (hnil : store.requested request = []) :
    ∃ batch, getBatch store request = some batch ∧ batch.entries = [] ∧
      (batch.has_more = true ↔ store.range 0 request.from_lsn ≠ []) := by
  have hall : store.range BatchResult.empty.end_lsn (store.endLsn request) = store.range 0 request.from_lsn :=
    (range_append (Nat.zero_le _) hle).trans (by rw [← Store.requested,hnil,append_nil])
  rw [getBatch,if_neg (Nat.not_lt.mpr hle),← Store.requested,hnil,batchLoop]
  dsimp only
  split
  · exact ⟨_,rfl,rfl,by simp [hall]⟩
  next hno =>
    have hz : request.from_lsn = 0 := Nat.le_zero.mp (hle.trans (not_lt.mp fun hlt => hno ⟨rfl,hlt⟩))
    exact ⟨_,rfl,rfl,by simp [hz,BatchResult.empty]⟩

variable {state : BatchStreamState}

theorem nextBatch_eq (hc : state.complete = false) {batch : BatchResult}
    (hb : getBatch store { state.request with from_lsn := state.last_sent_lsn } = some batch) (hne : batch.entries ≠ []) :
    ∃ state', nextBatch store state = some (state',some batch) ∧ state'.request = state.request ∧
      state'.last_sent_lsn = batch.end_lsn ∧ state'.complete = !batch.has_more := by
  rw [nextBatch,hc,hb]
  exact ⟨_,if_neg hne,rfl,rfl,rfl⟩

theorem nextBatch_empty (hc : state.complete = false) {batch : BatchResult}
    (hb : getBatch store { state.request with from_lsn := state.last_sent_lsn } = some batch) (hnil : batch.entries = []) :
    nextBatch store state = some ({ state with complete := true },none) := by
  rw [nextBatch,hc,hb]
  exact if_pos hnil

/-- The induction is on what is left of the range. -/
theorem stream_spec (n : Nat) (hmax : 1 ≤ state.request.max_entries) (hc : state.complete = false)
    (hle : state.last_sent_lsn ≤ store.endLsn state.request)
    (hn : (store.range state.last_sent_lsn (store.endLsn state.request)).length = n) :
    ∃ n batches state', stream store n state = some (batches,state') ∧ state'.complete = true ∧
      batches.flatMap (·.entries) = (store.range state.last_sent_lsn (store.endLsn state.request)).map (·.2) := by
  induction n using Nat.strongRecOn generalizing state with
  | _ n ih =>
    by_cases hnil : store.range state.last_sent_lsn (store.endLsn state.request) = []
    · obtain ⟨batch,hb,he,-⟩ := @getBatch_of_nil store { state.request with from_lsn := state.last_sent_lsn } hle hnil
      refine ⟨1,[],{ state with complete := true },?_,rfl,by rw [hnil]; rfl⟩
      rw [stream,nextBatch_empty hc hb he]
      rfl
    · obtain ⟨batch,hb,hne,hlt,hend,hes,hmore⟩ :=
        @getBatch_spec store { state.request with from_lsn := state.last_sent_lsn } hmax hnil
      obtain ⟨state',hs,hreq,hlast,hcomp⟩ := nextBatch_eq hc hb hne
      change batch.entries = (store.range state.last_sent_lsn batch.end_lsn).map (·.2) at hes
      have hsplit : store.range state.last_sent_lsn (store.endLsn state.request) =
          store.range state.last_sent_lsn batch.end_lsn ++ store.range batch.end_lsn (store.endLsn state.request) :=
        range_append hlt.le hend
      rw [hsplit] at hn ⊢
      cases hm : batch.has_more with
      | false =>
        have hend : store.range batch.end_lsn (store.endLsn state.request) = [] := by
          by_contra hno
          rw [hmore.mpr hno] at hm
          cases hm
        refine ⟨1,[batch],state',?_,by rw [hcomp,hm]; rfl,?_⟩
        · rw [stream,hs]
          rfl
        · rw [flatMap_singleton,hes,hend,append_nil]
      | true =>
        rw [length_append,← length_map (·.2),← hes] at hn
        have hpos := length_pos_iff.mpr hne
        have hless : (store.range state'.last_sent_lsn (store.endLsn state'.request)).length < n := by
          rw [hreq,hlast]
          omega
        obtain ⟨k,batches,last,hrun,hdone,hall⟩ :=
          ih _ hless (hreq ▸ hmax) (by rw [hcomp,hm]; rfl) (by rw [hreq,hlast]; exact hend) rfl
        refine ⟨k+1,batch::batches,last,?_,hdone,?_⟩
        · rw [stream,hs]
          change (stream store k state' >>= _) = _
          rw [hrun]
          rfl
        · rw [flatMap_cons,hall,hes,map_append,hreq,hlast]

/-- A request from beyond the end panics, and one at the end of the entries hears of more when there are older ones. -/
theorem catchesUp_iff (hmax : 1 ≤ request.max_entries) : CatchesUp store request ↔
    request.from_lsn ≤ store.endLsn request ∧
      ((∃ lsn, request.from_lsn < lsn ∧ lsn ≤ store.endLsn request ∧ store.entries lsn ≠ none) ∨
        ∀ lsn : Nat, 0 < lsn → lsn ≤ request.from_lsn → store.entries lsn = none) := by
  have hsome : store.requested request ≠ [] ↔
      ∃ lsn, request.from_lsn < lsn ∧ lsn ≤ store.endLsn request ∧ store.entries lsn ≠ none := by
    rw [ne_eq,Store.requested,range_eq_nil_iff]
    push Not
    rfl
  rw [← hsome,← range_eq_nil_iff]
  constructor
  · intro h
    obtain ⟨batch,hb,hmore⟩ := h.has_more
    have hle : request.from_lsn ≤ store.endLsn request := by
      by_contra hno
      rw [getBatch,if_pos (Nat.not_le.mp hno)] at hb
      cases hb
    refine ⟨hle,or_iff_not_imp_left.mpr fun hnil => ?_⟩
    rw [not_not] at hnil
    obtain ⟨batch',hb',-,hiff⟩ := getBatch_of_nil hle hnil
    obtain rfl := Option.some.inj (hb.symm.trans hb')
    rw [hmore,hnil] at hiff
    by_contra hno
    exact Nat.not_lt_zero _ (hiff.mpr hno)
  · rintro ⟨hle,hor⟩
    refine ⟨?_,stream_spec _ hmax rfl hle rfl⟩
    by_cases hnil : store.requested request = []
    · obtain ⟨batch,hb,-,hiff⟩ := getBatch_of_nil hle hnil
      refine ⟨batch,hb,iff_of_false (fun hm => hiff.mp hm (hor.resolve_left (not_not.mpr hnil))) ?_⟩
      rw [hnil]
      exact Nat.not_lt_zero _
    · obtain ⟨batch,hb,-,hlt,hend,hes,hmore⟩ := getBatch_spec hmax hnil
      refine ⟨batch,hb,hmore.trans ?_⟩
      rw [Store.requested,range_append hlt.le hend,hes,length_map,length_append,← length_pos_iff]
      omega

end

def oneEntry : Store := { Store.new with
  current_lsn := 1
  entries := fun lsn => if lsn = 1 then some ⟨1,none,.insert,[],0⟩ else none }

theorem catchesUp_from_start : CatchesUp oneEntry ⟨0,none,1000,10485760⟩ :=
  (catchesUp_iff (by decide)).mpr ⟨by decide,.inl ⟨1,by decide⟩⟩

theorem not_catchesUp_at_end : ¬CatchesUp oneEntry ⟨1,none,1000,10485760⟩ ∧
    getBatch oneEntry ⟨2,none,1000,10485760⟩ = none := by
  refine ⟨fun h => ?_,rfl⟩
  obtain ⟨batch,hb,hmore⟩ := h.has_more
  have hgot : getBatch oneEntry ⟨1,none,1000,10485760⟩ = some ⟨[],0,0,true,0⟩ := by decide
  obtain rfl := Option.some.inj (hb.symm.trans hgot)
  exact absurd (hmore.mp rfl) (by decide)

end HeliosNano.Replication.WalStore
