import HeliosNano.Replication.WireAnswers

namespace HeliosNano.Replication
open Foundation Storage List

/-- What a poll reads of the store: the latest sequence number, the log from a number on, and whether the store
is itself a receiver. -/
structure Primary where
  latestSequenceNumber : Nat
  getUpdatesSince : Nat → List (Nat × Bytes)
  hasCursor : Bool

section
variable (sha256 : Bytes → Bytes) (history : Uuid) (barrier byteLimit : Nat)

/-- The loop over the log; it ends at the barrier or before the batch that would go over the limit. -/
def pollEntries : List (Nat × Bytes) → Nat → PhysicalPoll → Except PhysicalError PhysicalPoll
  | entries, bytes, result =>
    if barrier ≤ result.through then .ok result
    else
      match entries with
      | [] => .error (.gap (result.through+1) barrier)
      | (first,raw)::entries =>
        if first ≠ result.through+1 then .error (.gap (result.through+1) first)
        else if byteLimit < raw.length then .error (.invalid "single source batch exceeds poll byte limit")
        else if byteLimit < bytes+raw.length then .ok result
        else do
          let batch ← PhysicalBatch.decode sha256 history first raw (sha256 raw)
          if barrier < batch.last then .error (.invalid "source barrier cuts a batch")
          else
            pollEntries entries (bytes+batch.raw.length)
              { result with batches := result.batches ++ [batch], through := batch.last }

end

def pollSource (sha256 : Bytes → Bytes) (db : Primary) (history : Uuid) (after byteLimit : Nat) :
    Except PhysicalError PhysicalPoll := do
  checkHistory history
  if byteLimit = 0 ∨ maxBatchBytes < byteLimit then .error (.invalid "invalid poll byte limit")
  else if db.hasCursor then .error (.invalid "a physical receiver cannot be exported as a primary")
  else
    let barrier := db.latestSequenceNumber
    if barrier < after ∨ maxSequence < barrier then
      .error (.invalid "source is behind receiver or sequence overflow")
    else if after = barrier then .ok ⟨[],after,barrier⟩
    else pollEntries sha256 history barrier byteLimit (db.getUpdatesSince after) 0 ⟨[],after,barrier⟩

variable {history : Uuid} {sha256 : Bytes → Bytes} {byteLimit after : Nat}

theorem goodPoll_of_interval {barrier : Nat} (hb : barrier ≤ maxSequence) {result : PhysicalPoll}
    (hv : ∀ batch ∈ result.batches, batch.Valid sha256 ∧ batch.history = history)
    (hc : Contiguous after result.batches result.through) (hth : result.through ≤ barrier)
    (hbt : totalRaw result.batches ≤ byteLimit) (hd : result.durableBarrier = barrier)
    (hp : result.batches = [] → result.through = barrier) : GoodPoll sha256 history after byteLimit barrier result :=
  ⟨hv,hc,hbt,by omega,by rw [hd]; exact hb,by rwa [hd],by omega⟩

theorem pollEntries_good {sha256 : Bytes → Bytes} {history : Uuid} {after barrier byteLimit : Nat} (hbr : barrier ≤ maxSequence)
    {entries : List (Nat × Bytes)} {bytes : Nat} {result poll : PhysicalPoll}
    (hv : ∀ batch ∈ result.batches, batch.Valid sha256 ∧ batch.history = history)
    (hc : Contiguous after result.batches result.through) (hth : result.through ≤ barrier)
    (hbs : totalRaw result.batches = bytes) (hl : bytes ≤ byteLimit) (hd : result.durableBarrier = barrier)
    (h : pollEntries sha256 history barrier byteLimit entries bytes result = .ok poll) :
    GoodPoll sha256 history after byteLimit barrier poll ∧ poll.durableBarrier = barrier := by
  induction entries generalizing bytes result with
  | nil =>
    rw [pollEntries] at h
    split at h
    next hdn =>
      cases h
      exact ⟨goodPoll_of_interval hbr hv hc hth (by omega) hd fun _ => by omega,hd⟩
    · cases h
  | cons entry entries ih =>
    obtain ⟨first,raw⟩ := entry
    rw [pollEntries] at h
    split at h
    next hdn =>
      cases h
      exact ⟨goodPoll_of_interval hbr hv hc hth (by omega) hd fun _ => by omega,hd⟩
    next hm =>
      split at h
      · cases h
      next hf =>
        split at h
        · cases h
        next hs =>
          split at h
          next hfl =>
            cases h
            refine ⟨goodPoll_of_interval hbr hv hc hth (by omega) hd fun hn => ?_,hd⟩
            -- an empty answer has room for any single batch
            rw [hn] at hbs
            simp only [totalRaw,map_nil,sum_nil] at hbs
            omega
          next hrm =>
            obtain ⟨batch,hba,h⟩ := bind_eq_ok.mp h
            obtain ⟨hbt,hh,hb,hr,-,hle⟩ := decode_eq_ok hba
            split at h
            · cases h
            next hct =>
              push Not at hf
              have htt : totalRaw (result.batches ++ [batch]) = bytes+batch.raw.length := by
                simp only [totalRaw,map_append,sum_append,map_cons,map_nil,sum_cons,
                  sum_nil] at hbs ⊢
                omega
              have hr' : bytes+batch.raw.length ≤ byteLimit := by
                rw [hr]
                omega
              refine @ih _ ⟨result.batches ++ [batch],batch.last,result.durableBarrier⟩ ?_
                (contiguous_append hc (hb.trans hf) hle) (Nat.not_lt.mp hct) htt hr' hd h
              intro other hother
              obtain hother | hother := mem_append.mp hother
              · exact hv other hother
              · rw [mem_singleton.mp hother]
                exact ⟨hbt,hh⟩

theorem pollSource_good {db : Primary} {poll : PhysicalPoll} (h : pollSource sha256 db history after byteLimit = .ok poll) :
    GoodPoll sha256 history after byteLimit db.latestSequenceNumber poll ∧ poll.durableBarrier = db.latestSequenceNumber := by
  unfold pollSource at h
  obtain ⟨⟨⟩,-,h⟩ := bind_eq_ok.mp h
  split at h
  · cases h
  split at h
  · cases h
  dsimp only at h
  split at h
  · cases h
  next hb =>
    push Not at hb
    obtain ⟨ha,hm⟩ := hb
    split at h
    next hsame =>
      cases h
      exact ⟨⟨by simp,rfl,by simp [totalRaw],ha,hm,fun _ => hsame,Nat.le_refl _⟩,rfl⟩
    · have he : ∀ batch ∈ ([] : List PhysicalBatch), batch.Valid sha256 ∧ batch.history = history := by simp
      exact @pollEntries_good _ _ after _ _ hm _ 0 ⟨[],after,db.latestSequenceNumber⟩ _ he rfl ha rfl
        (Nat.zero_le _) rfl h

end HeliosNano.Replication
