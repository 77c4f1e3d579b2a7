import HeliosNano.Foundation.Paging
import HeliosNano.Sync.Protocol

namespace HeliosNano.Storage
open Foundation List

theorem toList_eq_data (bytes : ByteArray) : bytes.toList = bytes.data.toList := by
  have hl : ∀ i r, ByteArray.toList.loop bytes i r = r.reverse ++ bytes.data.toList.drop i := by
    intro i r
    induction i, r using ByteArray.toList.loop.induct bytes with
    | case1 i r hlt ih =>
      have hi : i < bytes.data.toList.length := by simpa using hlt
      rw [ByteArray.toList.loop,if_pos hlt,ih,drop_eq_getElem_cons hi]
      simp [ByteArray.get!,getElem!_pos bytes.data i (by simpa using hlt)]
    | case2 i r hge =>
      rw [ByteArray.toList.loop,if_neg hge,drop_of_length_le (by simpa using hge),append_nil]
  rw [ByteArray.toList,hl,drop_zero,reverse_nil,nil_append]

theorem textBytes_append (s t : String) : textBytes (s ++ t) = textBytes s ++ textBytes t := by
  simp [textBytes,toList_eq_data]

theorem textBytes_toString (n : Nat) : textBytes (toString n) = decimal n := by
  have hd : ∀ d < 10, textBytes (String.ofList [d.digitChar]) = [lastDigit d] := by decide +kernel
  change textBytes (String.ofList (Nat.toDigits 10 n)) = decimal n
  induction n using Nat.strongRecOn with
  | _ n ih =>
    rw [decimal]
    split
    next hlt => rw [Nat.toDigits_of_lt_base hlt,hd n hlt]
    next hge =>
      rw [Nat.toDigits_of_base_le (by decide) (Nat.not_lt.mp hge),String.ofList_append,textBytes_append,ih (n/10) (by omega),
        hd _ (Nat.mod_lt n (by decide))]
      simp [lastDigit]

end HeliosNano.Storage

namespace HeliosNano.Sync.Protocol
open Foundation Storage List Option

structure ChangeLog where
  entries : List ChangeEntry
  sorted : entries.Pairwise fun a b => a.lsn < b.lsn
  bounded : ∀ e ∈ entries, e.lsn ≤ u64Max

def ChangeLog.after (log : ChangeLog) (lsn : Nat) : List ChangeEntry := above ChangeEntry.lsn lsn log.entries

def ChangeLog.getChangesSince (log : ChangeLog) (lsn limit : Nat) : List ChangeEntry := (log.after lsn).take limit

def PullRequest.limit (pull : PullRequest) : Nat := min pull.max_entries defaultBatchSize

def PullRequest.offset (pull : PullRequest) : Nat :=
  (pull.continuation_token.bind fun token => parseUnsigned u64Max (textBytes token)).getD 0

/-- A pull ends with an error, or an addition of LSNs overflows. -/
inductive PullFailure
  | error (e : SyncError)
  | overflow

namespace World
variable (x : Externals) (node_id : Uuid)

def handlePullRequest (w : World) (log : ChangeLog) (server_lsn : Nat) (pull : PullRequest) : Except PullFailure (Response × World) :=
  match w.clients.lookup pull.client_id with
  | none => .error (.error (notRegistered pull.client_id))
  | some client =>
    match client.processed_messages.peek pull.message_id with
    | some response => .ok (response,w)
    | none =>
      -- The sum in the token is no more than the LSN of the last change.
      if u64Max < pull.since_lsn+pull.offset then .error .overflow
      else
        let changes := log.getChangesSince (pull.since_lsn+pull.offset) pull.limit
        let response := pullResponse x node_id pull changes server_lsn
        match response.validateSize x with
        | .error e => .error (.error e)
        | .ok () => .ok (response,w.updateClient pull.client_id fun client => client.remember pull.message_id response)

end World

/-- A server, and a client that pulls its log with one request, each time under a new identifier. -/
structure Pulling where
  x : Externals
  node_id : Uuid
  log : ChangeLog
  server_lsn : Nat
  pull : PullRequest
  ids : Nat → Uuid
  distinct : ids.Injective
  positive : 1 ≤ pull.max_entries
  inRange : pull.since_lsn ≤ u64Max

namespace Pulling
variable (s : Pulling) (page : Nat) (w : World)

/-- The client's loop: the request is repeated with the token of the answer before until no more is announced. -/
def pages : Nat → Nat → World → Option String → Option (Except PullFailure (List ChangeEntry))
  | 0, _, _, _ => none
  | fuel+1, page, w, token =>
    match w.handlePullRequest s.x s.node_id s.log s.server_lsn
      { s.pull with message_id := s.ids page, continuation_token := token } with
    | .ok (.pullResponse _ changes _ true token _,w) => (pages fuel (page+1) w token).map fun rest => rest.map (changes ++ ·)
    | .ok (.pullResponse _ changes _ false _ _,_) => some (.ok changes)
    | .ok (.pushAck ..,_) => some (.error (.error (.invalidMessage "Invalid response to PullRequest")))
    | .error e => some (.error e)

def sent (changes : List ChangeEntry) : List ChangeEntry := changes.map (ChangeEntry.compressed? s.x)

def due : List ChangeEntry := s.log.after s.pull.since_lsn

/-- The loop ends, and has received every change that is due once and in order. -/
def Delivers : Prop := ∃ fuel, s.pages fuel 0 w none = some (.ok (s.sent s.due))

/-- How many changes the pages before this one have. -/
def offset : Nat := page*s.pull.limit

def request : PullRequest :=
  { s.pull with
    message_id := s.ids page
    continuation_token := if page = 0 then none else some (toString (s.offset page)) }

def response (changes : List ChangeEntry) : Response := World.pullResponse s.x s.node_id (s.request page) changes s.server_lsn

def Fits : Prop := (s.response page ((s.due.drop (s.offset page)).take s.pull.limit)).validateSize s.x = .ok ()

/-- The client is registered, and its requests from this page on have new identifiers. -/
def Fresh : Prop :=
  ∃ client, w.clients.lookup s.pull.client_id = some client ∧ ∀ i, page ≤ i → client.processed_messages.peek (s.ids i) = none

def found : List ChangeEntry := s.log.after (s.pull.since_lsn + s.offset page)

def kept (response : Response) : World := w.updateClient s.pull.client_id fun client => client.remember (s.ids page) response

variable {s page w} {fuel : Nat}

theorem limit_pos : 0 < s.pull.limit := Nat.lt_min.mpr ⟨s.positive,by decide⟩

theorem offset_succ : s.offset (page+1) = s.offset page + s.pull.limit := Nat.succ_mul page _

theorem offset_request (hle : s.offset page ≤ u64Max) : (s.request page).offset = s.offset page := by
  rw [request,PullRequest.offset]
  dsimp only
  split
  next hz => rw [hz,offset,Nat.zero_mul,bind_none,getD_none]
  next => rw [bind_some,textBytes_toString,parseUnsigned_decimal hle,getD_some]

theorem Fresh.kept (hf : s.Fresh page w) (response : Response) : s.Fresh (page+1) (s.kept page w response) := by
  obtain ⟨client,hcl,hp⟩ := hf
  refine ⟨client.remember (s.ids page) response,?_,fun i hi => ?_⟩
  · rw [Pulling.kept,World.updateClient,hcl]
    exact AList.lookup_insert _
  · by_contra hno
    obtain ⟨cached,hc⟩ := ne_none_iff_exists'.mp hno
    have hne : s.ids i ≠ s.ids page := fun heq => by
      have := s.distinct heq
      omega
    have hold := Lru.peek_of_peek_put hne hc
    rw [hp i (by omega)] at hold
    cases hold

theorem pages_succ (hf : s.Fresh page w) (hle : s.offset page ≤ u64Max) : let changes := (s.found page).take s.pull.limit
    s.pages (fuel+1) page w (s.request page).continuation_token =
      if u64Max < s.pull.since_lsn + s.offset page then some (.error .overflow)
      else
        match (s.response page changes).validateSize s.x with
        | .error e => some (.error (.error e))
        | .ok () =>
          if changes.length = s.pull.limit then
            (s.pages fuel (page+1) (s.kept page w (s.response page changes)) (s.request (page+1)).continuation_token).map
              fun rest => rest.map (s.sent changes ++ ·)
          else some (.ok (s.sent changes)) := by
  intro changes
  obtain ⟨client,hc,hp⟩ := hf
  have hh : w.handlePullRequest s.x s.node_id s.log s.server_lsn (s.request page) =
      if u64Max < s.pull.since_lsn + s.offset page then .error .overflow
      else
        match (s.response page changes).validateSize s.x with
        | .error e => .error (.error e)
        | .ok () => .ok (s.response page changes,s.kept page w (s.response page changes)) := by
    have hc' : w.clients.lookup (s.request page).client_id = some client := hc
    have hp' : client.processed_messages.peek (s.request page).message_id = none := hp page le_rfl
    rw [World.handlePullRequest,hc']
    simp only [hp',offset_request hle]
    rfl
  have hrq : { s.pull with message_id := s.ids page, continuation_token := (s.request page).continuation_token } =
      s.request page := rfl
  rw [pages,hrq,hh]
  by_cases ho : u64Max < s.pull.since_lsn + s.offset page
  · rw [if_pos ho,if_pos ho]
  rw [if_neg ho,if_neg ho]
  cases (s.response page changes).validateSize s.x with
  | error e => rfl
  | ok =>
    have hr : s.response page changes = .pullResponse (s.ids page) (s.sent changes) s.server_lsn
        (changes.length == s.pull.limit)
        (if changes.length == s.pull.limit then some (toString (s.offset page + changes.length)) else none)
        (VectorClock.new.increment s.node_id) := by
      rw [← offset_request hle]
      rfl
    by_cases hfl : changes.length = s.pull.limit
    · have htk : (s.request (page+1)).continuation_token = some (toString (s.offset page + changes.length)) := by
        rw [hfl,← offset_succ]
        rfl
      have hm : (changes.length == s.pull.limit) = true := beq_iff_eq.mpr hfl
      dsimp only
      rw [if_pos hfl,htk]
      simp only [hr,hm,if_true]
    · have hm : (changes.length == s.pull.limit) = false := beq_eq_false_iff_ne.mpr hfl
      dsimp only
      rw [if_neg hfl]
      simp only [hr,hm]

theorem after_sorted (log : ChangeLog) (lsn : Nat) : (log.after lsn).Pairwise fun a b => a.lsn < b.lsn := log.sorted.filter _

theorem lt_of_mem_after {log : ChangeLog} {lsn : Nat} : ∀ e ∈ log.after lsn, lsn < e.lsn := fun _ he => lt_of_mem_above he

theorem found_eq : s.found page = above ChangeEntry.lsn (s.pull.since_lsn + s.offset page) s.due := (above_above _).symm

theorem found_succ : s.found (page+1) =
    above ChangeEntry.lsn (s.pull.since_lsn + s.offset page + s.pull.limit) (s.found page) := by
  rw [found,offset_succ,← Nat.add_assoc]
  exact (above_above _).symm

theorem le_of_length {log : ChangeLog} {lsn n : Nat} (hp : 0 < n) (hn : n ≤ (log.after lsn).length) : lsn+n ≤ u64Max := by
  have hl := @add_lt_key _ _ _ _ (after_sorted log lsn) lt_of_mem_after (n-1) (by omega)
  have hb := log.bounded _ (mem_of_mem_filter (getElem_mem (l := log.after lsn) (n := n-1) (by omega)))
  omega

theorem length_found_le {r : List ChangeEntry} (hf : s.Fresh page w) (hle : s.offset page ≤ u64Max)
    (hr : s.pages fuel page w (s.request page).continuation_token = some (.ok r)) : (s.found page).length ≤ r.length := by
  induction fuel generalizing page w r with
  | zero => cases hr
  | succ fuel ih =>
    rw [pages_succ hf hle] at hr
    split at hr
    next => cases hr
    next =>
      split at hr
      next => cases hr
      next =>
        rw [length_take] at hr
        split at hr
        next hfl =>
          obtain ⟨result,hrest,hrs⟩ := map_eq_some_iff.mp hr
          have hb := @le_of_length s.log (s.pull.since_lsn + s.offset page) _ (@limit_pos s) (by rw [← found]; omega)
          cases result with
          | error e => cases hrs
          | ok rest =>
            cases hrs
            have hn := ih (hf.kept _) (by rw [offset_succ]; omega) hrest
            have hl := length_le_above (after_sorted s.log (s.pull.since_lsn + s.offset page)) lt_of_mem_after s.pull.limit
            rw [← found,← found_succ] at hl
            rw [length_append,sent,length_map,length_take]
            omega
        next hfl =>
          cases hr
          rw [sent,length_map,length_take]
          omega

def DeliversFrom (s : Pulling) (page : Nat) (w : World) : Prop :=
  ∃ fuel, s.pages fuel page w (s.request page).continuation_token = some (.ok (s.sent (s.due.drop (s.offset page))))

/-- A page begins where the page before it ended. -/
def Aligned (s : Pulling) (page : Nat) : Prop := s.found page = s.due.drop (s.offset page)

theorem aligned_iff : s.Aligned page ↔ ∀ e ∈ s.due.take (s.offset page), e.lsn ≤ s.pull.since_lsn + s.offset page := by
  rw [Aligned,found_eq]
  exact above_eq_drop_iff (after_sorted s.log _) lt_of_mem_after _

theorem deliversFrom_iff (hf : s.Fresh page w) (hp : page ≤ s.due.length/s.pull.limit) (ha : s.Aligned page) :
    ∃ w', s.Fresh (page+1) w' ∧ (s.DeliversFrom page w ↔ s.Fits page ∧ (page < s.due.length/s.pull.limit →
      s.Aligned (page+1) ∧ s.DeliversFrom (page+1) w')) := by
  refine ⟨_,hf.kept (s.response page ((s.due.drop (s.offset page)).take s.pull.limit)),?_⟩
  have hrg : s.pull.since_lsn + s.offset page ≤ u64Max := by
    have hle : s.offset page ≤ s.due.length := (Nat.mul_le_mul_right _ hp).trans (Nat.div_mul_le_self _ _)
    obtain hz | hpos := Nat.eq_zero_or_pos (s.offset page)
    · exact hz ▸ s.inRange
    · exact le_of_length hpos hle
  have htr := fun fuel => @pages_succ s page w fuel hf (by omega)
  rw [Aligned] at ha
  simp only [ha,if_neg (Nat.not_lt.mpr hrg)] at htr
  have hfl : ((s.due.drop (s.offset page)).take s.pull.limit).length = s.pull.limit ↔ page < s.due.length/s.pull.limit := by
    rw [Nat.lt_iff_add_one_le,Nat.le_div_iff_mul_le limit_pos,Nat.succ_mul,length_take,length_drop,offset]
    have := @limit_pos s
    omega
  have hs : s.sent (s.due.drop (s.offset page)) =
      s.sent ((s.due.drop (s.offset page)).take s.pull.limit) ++ s.sent (s.due.drop (s.offset (page+1))) := by
    rw [sent,sent,sent,← map_append,offset_succ,← drop_drop,take_append_drop]
  constructor
  · rintro ⟨fuel,hrn⟩
    cases fuel with
    | zero => cases hrn
    | succ fuel =>
      rw [htr] at hrn
      split at hrn
      next => cases hrn
      next hft =>
        refine ⟨hft,fun hp => ?_⟩
        rw [if_pos (hfl.mpr hp)] at hrn
        obtain ⟨result,hrest,hr⟩ := map_eq_some_iff.mp hrn
        cases result with
        | error e => cases hr
        | ok rest =>
          rw [hs] at hr
          obtain rfl := append_cancel_left (Except.ok.inj hr)
          have hln := length_found_le (hf.kept _) ?_ hrest
          · rw [sent,length_map,found_eq] at hln
            refine ⟨?_,fuel,hrest⟩
            rw [Aligned,found_eq]
            exact above_eq_drop_of_length_le (after_sorted s.log _) lt_of_mem_after hln
          · have hpg := (Nat.mul_le_mul_right s.pull.limit hp).trans (Nat.div_mul_le_self _ _)
            have := @le_of_length s.log s.pull.since_lsn _ (Nat.mul_pos (Nat.succ_pos page) limit_pos) hpg
            exact (Nat.le_add_left _ _).trans this
  · rintro ⟨hft,hn⟩
    rw [Fits] at hft
    by_cases hm : page < s.due.length/s.pull.limit
    · obtain ⟨-,fuel,hrest⟩ := hn hm
      refine ⟨fuel+1,?_⟩
      rw [htr,hft]
      dsimp only
      rw [if_pos (hfl.mpr hm),hrest,map_some,hs]
      rfl
    · have hl := mt hfl.mp hm
      refine ⟨1,?_⟩
      rw [htr,hft]
      dsimp only
      rw [if_neg hl,take_of_length_le]
      rw [length_take] at hl
      omega

/-- The loop receives every change once and in order just when no answer is too long and the changes of the full pages have
the LSNs that follow `since_lsn`. -/
theorem delivers_iff (s : Pulling) (w : World) (hf : s.Fresh 0 w) : s.Delivers w ↔ ∀ page ≤ s.due.length/s.pull.limit,
    s.Fits page ∧ ∀ e ∈ s.due.take (page*s.pull.limit), e.lsn ≤ s.pull.since_lsn+page*s.pull.limit := by
  have hpages : ∀ n page w, page+n = s.due.length/s.pull.limit → s.Fresh page w → s.Aligned page →
      (s.DeliversFrom page w ↔ ∀ p, page ≤ p → p ≤ page+n → s.Fits p ∧ s.Aligned p) := by
    intro n
    induction n with
    | zero =>
      intro page w hn hf ha
      obtain ⟨w',-,hiff⟩ := deliversFrom_iff hf (by omega) ha
      rw [hiff]
      constructor
      · intro h p hge hle
        obtain rfl : p = page := by omega
        exact ⟨h.1,ha⟩
      · exact fun h => ⟨(h page le_rfl le_rfl).1,fun hlt => by omega⟩
    | succ n ih =>
      intro page w hn hf ha
      obtain ⟨w',hf',hiff⟩ := deliversFrom_iff hf (by omega) ha
      rw [hiff]
      constructor
      · rintro ⟨hfits,hnext⟩ p hge hle
        obtain ⟨ha',hrest⟩ := hnext (by omega)
        obtain rfl | hlt := Nat.eq_or_lt_of_le hge
        · exact ⟨hfits,ha⟩
        · exact (ih (page+1) w' (by omega) hf' ha').mp hrest p hlt (by omega)
      · intro h
        have ha' := (h (page+1) (by omega) (by omega)).2
        refine ⟨(h page le_rfl (by omega)).1,fun _ => ⟨ha',(ih (page+1) w' (by omega) hf' ha').mpr ?_⟩⟩
        exact fun p hge hle => h p (by omega) (by omega)
  have hstart : s.Aligned 0 := by simp [Aligned,found,offset,due]
  have hdel : s.Delivers w ↔ s.DeliversFrom 0 w := by simp [Delivers,DeliversFrom,offset,request]
  rw [hdel,hpages _ 0 w (Nat.zero_add _) hf hstart]
  simp only [Nat.zero_le,Nat.zero_add,true_implies,aligned_iff,offset]

def entryAt (lsn : Nat) : ChangeEntry := ⟨lsn,"t",.insert,[1],[2],.new,0,0,false⟩

def pulling (log : ChangeLog) : Pulling :=
  ⟨World.plainExternals,0,log,6,⟨0,"client-1",0,1,none⟩,id,fun _ _ h => h,by decide,by decide⟩

def registered : World := ⟨(∅ : Map String ClientState).insert "client-1" (.new "client-1" 0 .new 0),fun _ => .idle,[],[]⟩

theorem fresh_registered (log : ChangeLog) : (pulling log).Fresh 0 registered := ⟨_,AList.lookup_insert _,fun _ _ => rfl⟩

theorem delivers_dense : (pulling ⟨[entryAt 1,entryAt 2],by decide,by decide⟩).Delivers registered := by
  refine (delivers_iff (pulling ⟨[entryAt 1,entryAt 2],by decide,by decide⟩) registered (fresh_registered _)).mpr
    fun page hpage => ⟨rfl,?_⟩
  have hle : page ≤ 2 := hpage
  obtain rfl | rfl | rfl : page = 0 ∨ page = 1 ∨ page = 2 := by omega
  all_goals decide

/-- The second page begins at the first change again. -/
theorem not_delivers_sparse : ¬(pulling ⟨[entryAt 5,entryAt 6],by decide,by decide⟩).Delivers registered := by
  intro hdel
  obtain ⟨w',-,hiff⟩ := @deliversFrom_iff (pulling ⟨[entryAt 5,entryAt 6],by decide,by decide⟩) 0 registered
    (fresh_registered _) (by decide) rfl
  have hnext := ((hiff.mp hdel).2 (by decide)).1
  rw [aligned_iff] at hnext
  revert hnext
  decide

end Pulling
end HeliosNano.Sync.Protocol
