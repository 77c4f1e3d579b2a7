import HeliosNano.Foundation.OrderedStore
import HeliosNano.Sync.Protocol

namespace HeliosNano.Sync
open Foundation Storage List
open Protocol (SyncError)

inductive Operation
  | insert
  | update (columns : List String)
  | delete
deriving DecidableEq

structure RowDelta where
  table : String
  operation : Operation
  row_id : Bytes
  data : Bytes
  vector_clock : VectorClock
  timestamp : Int
  checksum : Nat
deriving DecidableEq

def RowDelta.row (delta : RowDelta) : String × Bytes := (delta.table,delta.row_id)

structure DeltaCodec where
  serialize : RowDelta → Except String Bytes
  deserialize : Bytes → Except String RowDelta
  lossless : ∀ delta value, serialize delta = .ok value → deserialize value = .ok delta

def signedText (n : Int) : Bytes := if n < 0 then 45 :: decimal n.natAbs else decimal n.natAbs

def hexDigit (n : Nat) : Byte := Fin.ofNat 256 (if n < 10 then 48+n else 87+n)

def hexBytes (bytes : Bytes) : Bytes := bytes.flatMap fun b => [hexDigit (b.val/16),hexDigit (b.val%16)]

/-- `queue:{timestamp_millis}:{row_id}` -/
def queueKey (delta : RowDelta) : Bytes :=
  textBytes "queue:" ++ signedText (delta.timestamp/1000000) ++ colon :: hexBytes delta.row_id

structure OfflineQueue where
  db : Map Bytes Bytes
  max_size : Nat
  current_size : Nat

namespace OfflineQueue
variable (c : DeltaCodec)

def new (db : Map Bytes Bytes) (max_size : Nat) : OfflineQueue := ⟨db,max_size,0⟩

/-- Add a change; the store may fail to take it. -/
def enqueue (q : OfflineQueue) (delta : RowDelta) (put : Except String Unit) : OfflineQueue × Except SyncError Unit :=
  match c.serialize delta with
  | .error e => (q,.error (.serialization e))
  | .ok value =>
    if q.current_size+value.length > q.max_size then (q,.error .queueFull)
    else
      match put with
      | .error e => (q,.error (.storage e))
      | .ok () =>
        ({ q with db := q.db.insert (queueKey delta) value, current_size := q.current_size+value.length },.ok ())

/-- Take the changes out one by one, up to one that cannot be read. -/
def takeOut : List (Bytes × Bytes) → Map Bytes Bytes → Map Bytes Bytes × Except SyncError (List RowDelta)
  | [], db => (db,.ok [])
  | (key,value)::rest, db =>
    match c.deserialize value with
    | .error e => (db,.error (.serialization e))
    | .ok delta =>
      let result := takeOut rest (db.erase key)
      (result.1,result.2.map (delta :: ·))

/-- Drain the queue; the store is read and written without failures. -/
def drain (q : OfflineQueue) : OfflineQueue × Except SyncError (List RowDelta) :=
  let result := takeOut c (q.db.iterFrom []) q.db
  match result.2 with
  | .ok deltas => ({ q with db := result.1, current_size := 0 },.ok deltas)
  | .error e => ({ q with db := result.1 },.error e)

def storedSize (q : OfflineQueue) : Nat := (q.db.entries.map fun entry => entry.2.length).sum

/-- The queue, with the changes that it has accepted, in their order. -/
structure World where
  queue : OfflineQueue
  accepted : List RowDelta

inductive Step
  | enqueue (delta : RowDelta) (put : Except String Unit)
  | reopen (max_size : Nat)

namespace World

def new (max_size : Nat) : World := ⟨.new ∅ max_size,[]⟩

def step (w : World) : Step → World
  | .enqueue delta put =>
    match w.queue.enqueue c delta put with
    | (queue,.ok ()) => ⟨queue,w.accepted ++ [delta]⟩
    | (queue,.error _) => ⟨queue,w.accepted⟩
  | .reopen max_size => ⟨.new w.queue.db max_size,w.accepted⟩

/-- The keys of two changes, the first accepted before the second, differ and are ordered as the changes are. -/
structure Agree (earlier later : RowDelta) : Prop where
  ne : queueKey earlier ≠ queueKey later
  time : queueKey earlier < queueKey later → earlier.timestamp ≤ later.timestamp
  back : queueKey later < queueKey earlier → later.timestamp ≤ earlier.timestamp ∧ earlier.row ≠ later.row

/-- A change that there is room for agrees with those in the queue, and a queue is opened when it is empty. -/
def Careful (w : World) : Step → Prop
  | .enqueue delta put => put = .ok () → (∃ value, c.serialize delta = .ok value ∧
      w.queue.current_size+value.length ≤ w.queue.max_size) → ∀ earlier ∈ w.accepted, Agree earlier delta
  | .reopen _ => w.accepted = []

/-- The changes that a drain returns are those accepted, ordered by time, those of a row as they were accepted. -/
def Drains (w : World) : Prop :=
  ∃ deltas, (w.queue.drain c).2 = .ok deltas ∧ deltas.Perm w.accepted ∧
    deltas.Pairwise (fun a b => a.timestamp ≤ b.timestamp) ∧
    ∀ row, deltas.filter (·.row = row) = w.accepted.filter (·.row = row)

/-- The size is that of the stored values, and decides what there is room for. -/
def Accounts (q : OfflineQueue) : Prop :=
  q.current_size = q.storedSize ∧ ∀ delta value put, c.serialize delta = .ok value →
    ((q.enqueue c delta put).2 = .error .queueFull ↔ q.storedSize+value.length > q.max_size)

structure Correct (w : World) : Prop where
  accounts : Accounts c w.queue
  drains : w.Drains c
  drained : Accounts c (w.queue.drain c).1

structure Sound (w : World) : Prop where
  stored : ∀ key value, w.queue.db.lookup key = some value ↔
    ∃ delta ∈ w.accepted, queueKey delta = key ∧ c.serialize delta = .ok value
  serialized : ∀ delta ∈ w.accepted, ∃ value, c.serialize delta = .ok value
  agree : w.accepted.Pairwise Agree
  size : w.queue.current_size = w.queue.storedSize

variable {c} {w : World}

theorem storedSize_of_lookup {q : OfflineQueue} (h : ∀ key, q.db.lookup key = none) : q.storedSize = 0 := by
  have hn : q.db.entries = [] := eq_nil_iff_forall_not_mem.mpr fun entry hm => by
    have hlk : q.db.lookup entry.1 = some entry.2 := AList.mem_lookup_iff.mpr hm
    rw [h] at hlk
    cases hlk
  rw [storedSize,hn]
  rfl

theorem enqueue_cases (c : DeltaCodec) (q : OfflineQueue) (delta : RowDelta) (put : Except String Unit) :
    (∃ e, q.enqueue c delta put = (q,.error e)) ∨
    ∃ value, c.serialize delta = .ok value ∧ q.current_size+value.length ≤ q.max_size ∧ put = .ok () ∧
      q.enqueue c delta put =
        ({ q with db := q.db.insert (queueKey delta) value, current_size := q.current_size+value.length },.ok ()) := by
  rw [enqueue]
  cases c.serialize delta with
  | error e => exact .inl ⟨_,rfl⟩
  | ok value =>
    dsimp only
    by_cases hf : q.current_size+value.length > q.max_size
    · exact .inl ⟨_,if_pos hf⟩
    rw [if_neg hf]
    cases put with
    | error e => exact .inl ⟨_,rfl⟩
    | ok => exact .inr ⟨value,rfl,Nat.not_lt.mp hf,rfl,rfl⟩

theorem sound_new (max_size : Nat) : (new max_size).Sound c :=
  ⟨fun _ _ => ⟨nofun,fun ⟨_,hm,_⟩ => absurd hm not_mem_nil⟩,nofun,.nil,rfl⟩

theorem Sound.step (h : w.Sound c) (s : Step) (hc : w.Careful c s) : (w.step c s).Sound c := by
  cases s with
  | reopen max_size =>
    refine ⟨h.stored,h.serialized,h.agree,(storedSize_of_lookup fun key => ?_).symm⟩
    refine Option.eq_none_iff_forall_ne_some.mpr fun value hlk => ?_
    obtain ⟨delta,hmem,-⟩ := (h.stored key value).mp hlk
    rw [show w.accepted = [] from hc] at hmem
    exact not_mem_nil hmem
  | enqueue delta put =>
    rw [World.step]
    obtain ⟨e,he⟩ | ⟨value,hv,hr,hp,he⟩ := enqueue_cases c w.queue delta put
    · rw [he]
      exact h
    rw [he]
    have hag := hc hp ⟨value,hv,hr⟩
    have hnew : queueKey delta ∉ w.queue.db := by
      rw [← AList.lookup_eq_none]
      refine Option.eq_none_iff_forall_ne_some.mpr fun value' hlk => ?_
      obtain ⟨earlier,hmem,hkey,-⟩ := (h.stored _ _).mp hlk
      exact (hag earlier hmem).ne hkey
    refine ⟨fun key value' => ?_,fun other hmem => ?_,?_,?_⟩
    · dsimp only
      rw [Map.lookup_insert_ite]
      split
      next heq =>
        subst heq
        constructor
        · intro hsm
          cases hsm
          exact ⟨delta,mem_append_right _ (mem_singleton_self delta),rfl,hv⟩
        · rintro ⟨other,hmem,hkey,ho⟩
          obtain hmem | hmem := mem_append.mp hmem
          · exact absurd hkey (hag other hmem).ne
          · cases mem_singleton.mp hmem
            exact congrArg some (Except.ok.inj (hv.symm.trans ho))
      next hne =>
        rw [h.stored]
        refine exists_congr fun other => and_congr_left fun ⟨hkey,_⟩ => ?_
        rw [mem_append,mem_singleton]
        refine ⟨.inl,fun hor => hor.resolve_right fun heq => ?_⟩
        rw [heq] at hkey
        exact hne hkey.symm
    · obtain hmem | hmem := mem_append.mp hmem
      · exact h.serialized other hmem
      · exact mem_singleton.mp hmem ▸ ⟨value,hv⟩
    · refine pairwise_append.mpr ⟨h.agree,pairwise_singleton _ _,fun earlier hmem later hl => ?_⟩
      cases mem_singleton.mp hl
      exact hag earlier hmem
    · have hs := h.size
      rw [storedSize] at hs ⊢
      dsimp only
      rw [AList.entries_insert_of_notMem hnew,map_cons,sum_cons,hs,Nat.add_comm]

theorem Sound.accounts (h : w.Sound c) : Accounts c w.queue := by
  refine ⟨h.size,fun delta value put hv => ?_⟩
  rw [enqueue,hv,← h.size]
  dsimp only
  split
  next hf => exact ⟨fun _ => hf,fun _ => rfl⟩
  next hr =>
    refine ⟨fun hno => ?_,fun hf => absurd hf hr⟩
    cases put with
    | error e => cases hno
    | ok => cases hno

theorem takeOut_ok {accepted : List RowDelta} {entries : List (Bytes × Bytes)} (db : Map Bytes Bytes)
    (h : ∀ entry ∈ entries, ∃ delta ∈ accepted, queueKey delta = entry.1 ∧ c.deserialize entry.2 = .ok delta) :
    ∃ deltas, (takeOut c entries db).2 = .ok deltas ∧ deltas.map queueKey = entries.map Prod.fst ∧ deltas ⊆ accepted ∧
      ∀ key, key ∈ entries.map Prod.fst ∨ db.lookup key = none → (takeOut c entries db).1.lookup key = none := by
  induction entries generalizing db with
  | nil => exact ⟨[],rfl,rfl,nil_subset _,fun key hor => hor.resolve_left not_mem_nil⟩
  | cons entry rest ih =>
    obtain ⟨⟨delta,hm,hkey,hr⟩,hrest⟩ := forall_mem_cons.mp h
    obtain ⟨deltas,hok,hk,hs,hlk⟩ := ih (db.erase entry.1) hrest
    have hc : takeOut c (entry::rest) db =
        ((takeOut c rest (db.erase entry.1)).1,(takeOut c rest (db.erase entry.1)).2.map (delta :: ·)) := by
      rw [takeOut,hr]
    refine ⟨delta::deltas,?_,?_,cons_subset.mpr ⟨hm,hs⟩,fun key hor => ?_⟩
    · rw [hc,hok]
      rfl
    · rw [map_cons,map_cons,hkey,hk]
    · rw [hc]
      refine hlk key ?_
      rw [Map.lookup_erase_ite]
      by_cases hh : key = entry.1
      · exact .inr (if_pos hh)
      · rw [if_neg hh]
        exact hor.imp_left fun hin => (mem_cons.mp hin).resolve_left hh

theorem Sound.drains (h : w.Sound c) : w.Drains c ∧ Accounts c (w.queue.drain c).1 := by
  have hen : ∀ entry ∈ w.queue.db.iterFrom [],
      ∃ delta ∈ w.accepted, queueKey delta = entry.1 ∧ c.deserialize entry.2 = .ok delta := by
    intro entry hm
    obtain ⟨delta,hin,hkey,hv⟩ := (h.stored _ _).mp ((Map.mem_iterFrom _ _ _).mp hm).1
    exact ⟨delta,hin,hkey,c.lossless delta entry.2 hv⟩
  obtain ⟨deltas,hok,hk,hs,hlk⟩ := takeOut_ok w.queue.db hen
  have hd : w.queue.drain c = ({ w.queue with db := (takeOut c (w.queue.db.iterFrom []) w.queue.db).1, current_size := 0 },
      .ok deltas) := by
    rw [drain,hok]
  have hin : ∀ key value, w.queue.db.lookup key = some value → key ∈ (w.queue.db.iterFrom []).map Prod.fst := fun key value hsm =>
    mem_map_of_mem ((Map.mem_iterFrom _ _ (key,value)).mpr ⟨hsm,not_lt.mp (not_lt_nil key)⟩)
  have hlt : deltas.Pairwise fun a b => queueKey a < queueKey b := by
    rw [← pairwise_map,hk,pairwise_map]
    exact Map.pairwise_iterFrom _ _
  have hnd : (w.accepted.map queueKey).Nodup := pairwise_map.mpr (h.agree.imp fun hag => hag.ne)
  have hp : deltas.Perm w.accepted := by
    refine (perm_ext_iff_of_nodup (hlt.imp fun hab heq => ?_) (h.agree.imp fun hag heq => ?_)).mpr fun delta => ⟨(hs ·),?_⟩
    · exact lt_irrefl _ (heq ▸ hab)
    · exact hag.ne (heq ▸ rfl)
    · intro hm
      obtain ⟨value,hv⟩ := h.serialized delta hm
      have hkey := hin _ _ ((h.stored _ _).mpr ⟨delta,hm,rfl,hv⟩)
      rw [← hk] at hkey
      obtain ⟨other,ho,heq⟩ := mem_map.mp hkey
      exact inj_on_of_nodup_map hnd (hs ho) hm heq ▸ ho
  refine ⟨⟨deltas,by rw [hd],hp,hlt.imp_of_mem fun {a b} ha hb hab => ?_,fun row => ?_⟩,?_⟩
  · have : Std.Symm fun a b : RowDelta => Agree a b ∨ Agree b a := ⟨fun _ _ => Or.symm⟩
    have hag := (h.agree.imp (S := fun a b => Agree a b ∨ Agree b a) .inl).forall (hs ha) (hs hb) fun heq => lt_irrefl _ (heq ▸ hab)
    exact hag.elim (fun hab' => hab'.time hab) fun hba => (hba.back hab).1
  · refine Perm.eq_of_pairwise (fun a b _ _ hab hba => absurd hab (lt_asymm hba)) (hlt.filter _) ?_ (hp.filter _)
    refine (h.agree.filter _).imp_of_mem fun {a b} ha hb hag => ?_
    have hr : a.row = b.row := by
      rw [of_decide_eq_true (mem_filter.mp ha).2,of_decide_eq_true (mem_filter.mp hb).2]
    exact (lt_or_gt_of_ne hag.ne).resolve_right fun hgt => (hag.back hgt).2 hr
  · have he : ∀ key, (w.queue.drain c).1.db.lookup key = none := by
      intro key
      rw [hd]
      refine hlk key ?_
      cases hkey : w.queue.db.lookup key with
      | none => exact .inr rfl
      | some value => exact .inl (hin key value hkey)
    have hsz : (w.queue.drain c).1.current_size = 0 := by rw [hd]
    have hsn : (World.mk (w.queue.drain c).1 []).Sound c := by
      refine ⟨fun key value => ?_,nofun,.nil,hsz.trans (storedSize_of_lookup he).symm⟩
      rw [he]
      exact ⟨nofun,fun ⟨_,hm,_⟩ => absurd hm not_mem_nil⟩
    exact hsn.accounts

/-- Two changes of rows with one identifier in one millisecond, of two tables. -/
def delta (table : String) : RowDelta := ⟨table,.insert,[1],[2],.new,1700000000000000000,0⟩

def twoDeltas : DeltaCodec where
  serialize d := if d = delta "a" then .ok [1] else if d = delta "b" then .ok [2] else .error "unknown"
  deserialize value := if value = [1] then .ok (delta "a") else .ok (delta "b")
  lossless d value h := by
    split at h
    next heq =>
      cases h
      exact heq ▸ rfl
    next =>
      split at h
      next heq =>
        cases h
        exact heq ▸ rfl
      next => cases h

end World
end OfflineQueue
end HeliosNano.Sync
