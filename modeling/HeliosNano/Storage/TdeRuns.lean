import HeliosNano.Foundation.Runs
import HeliosNano.Storage.Tde
import Mathlib.Data.List.TakeWhile

namespace HeliosNano.Storage.Tde
open Foundation List Function Option AList

structure Handle (κ : Type) where
  keyManager : Option (KeyManager κ)
  readOnly : Bool

/-- The entries and the open handle; what was last written at each key, and the keys of the accepted writable opens,
oldest first. -/
structure State (κ : Type) where
  store : Store
  handle : Option (Handle κ)
  written : Key → Option Bytes
  accepted : List κ

/-- Opens, and the ways in which a value is written: sealed whatever its key, sealed by its key space in a commit batch,
or as it is. -/
inductive Event (κ : Type)
  | openDb (o : Opening κ)
  | close
  | put (slot : Key) (nonce : Nonce) (value : Bytes)
  | commit (slot : Key) (nonce : Nonce) (value : Bytes)
  | putRaw (slot : Key) (value : Bytes)
  | delete (slot : Key)

section
variable {κ : Type} (c : Cipher κ)

def Opening.recorded (o : Opening κ) : Option κ :=
  if o.mode.isReadOnly then none else o.keyManager.map (·.key)

def openDb (s : State κ) (o : Opening κ) : State κ :=
  match openWithMode c s.store o with
  | (.error _,store) => { s with store }
  | (.ok (),store) =>
    { s with
      store
      handle := some ⟨o.keyManager,o.mode.isReadOnly⟩
      accepted := s.accepted ++ o.recorded.toList }

def writeSealed (s : State κ) (sealing : Option (KeyManager κ) → Except TdeError Bytes) (slot : Key) (value : Bytes) :
    State κ :=
  match s.handle with
  | some ⟨keyManager,false⟩ =>
    match sealing keyManager with
    | .error _ => s
    | .ok stored =>
      { s with
        store := s.store.insert slot stored
        written := Function.update s.written slot (some value) }
  | _ => s

def deleteKey (s : State κ) (slot : Key) : State κ :=
  match s.handle with
  | some ⟨_,false⟩ =>
    { s with
      store := s.store.erase slot
      written := Function.update s.written slot none }
  | _ => s

def step (s : State κ) : Event κ → State κ
  | .openDb o => openDb c s o
  | .close => { s with handle := none }
  | .put slot nonce value => writeSealed s (fun km => sealStored c km nonce value) slot value
  | .commit slot nonce value => writeSealed s (fun km => sealRowValue c km slot nonce value) slot value
  | .putRaw slot value => writeSealed s (fun _ => .ok value) slot value
  | .delete slot => deleteKey s slot

def read (keyManager : Option (KeyManager κ)) (store : Store) (slot : Key) : Option Bytes :=
  (store.lookup slot).map (openOwned c keyManager)

/-- Writers keep off the sentinel, and what they write is plaintext. -/
def Event.Admissible : Event κ → Prop
  | .openDb _ | .close => True
  | .put slot _ value | .commit slot _ value | .putRaw slot value => slot ≠ keyCheckKey ∧ Plain c value
  | .delete slot => slot ≠ keyCheckKey

end

section
variable {κ : Type} (c : Cipher κ)

/-- A stored value stands for what was written: as it is, or sealed under a key of the set. -/
def Represents (owner : κ → Prop) (stored value : Bytes) : Prop :=
  Plain c value ∧ (stored = value ∨ ∃ key, owner key ∧ tryDecrypt c key stored = some value)

/-- Every value is what was written, as it is or sealed under a key of the set. -/
def Holds (owner : κ → Prop) (s : State κ) : Prop :=
  ∀ slot, slot ≠ keyCheckKey → Option.Rel (Represents c owner) (s.store.lookup slot) (s.written slot)

/-- The sentinel is the fixed text sealed under the first accepted key, and there is none before. -/
def SentinelOf (s : State κ) : Prop :=
  match s.accepted with
  | [] => s.store.lookup keyCheckKey = none
  | key::_ => ∃ stored, s.store.lookup keyCheckKey = some stored ∧ tryDecrypt c key stored = some keyCheckPlaintext

/-- A closed database: plaintext values and values sealed under one key, with no sentinel yet or with that of the key. -/
structure Mixture (key : κ) (s : State κ) : Prop where
  closed : s.handle = none
  values : Holds c (· = key) s
  accepted : s.accepted = [] ∨ s.accepted = [key]
  sentinel : SentinelOf c s

def SealedOnlyUnder (key : κ) (store : Store) : Prop :=
  ∀ slot stored key', slot ≠ keyCheckKey → store.lookup slot = some stored → (tryDecrypt c key' stored).isSome → key' = key

end

section
variable {κ : Type} {c : Cipher κ} {owner owner' : κ → Prop} {stored value : Bytes}

theorem Represents.mono (ho : ∀ key, owner key → owner' key) (h : Represents c owner stored value) :
    Represents c owner' stored value := by
  obtain ⟨hp,hs | ⟨key,hkey, hopen⟩⟩ := h
  · exact ⟨hp,.inl hs⟩
  · exact ⟨hp,.inr ⟨key,ho key hkey, hopen⟩⟩

theorem Represents.of_open (hc : c.Ideal) (h : Represents c owner stored value) {key : κ} {plaintext : Bytes}
    (hopen : tryDecrypt c key stored = some plaintext) : owner key ∧ plaintext = value := by
  obtain ⟨hp,rfl | ⟨key',hk',ho'⟩⟩ := h
  · rw [hp key] at hopen
    cases hopen
  · obtain rfl := key_unique hc hopen ho'
    rw [hopen,some.injEq] at ho'
    exact ⟨hk',ho'⟩

variable {keyManager : Option (KeyManager κ)}

theorem Represents.openOwned_eq_iff (hc : c.Ideal) (h : Represents c owner stored value) : openOwned c keyManager stored = value ↔
      ∀ key, (tryDecrypt c key stored).isSome → ∃ km, keyManager = some km ∧ km.key = key := by
  constructor
  · intro hr key hs
    obtain ⟨plaintext, hopen⟩ := isSome_iff_exists.mp hs
    cases keyManager with
    | none =>
      obtain rfl : stored = value := hr
      rw [h.1 key] at hopen
      cases hopen
    | some km =>
      refine ⟨km,rfl,?_⟩
      cases hkm : tryDecrypt c km.key stored with
      | some plaintext' => exact key_unique hc hopen hkm
      | none =>
        rw [openOwned,hkm] at hr
        obtain rfl : stored = value := hr
        rw [h.1 key] at hopen
        cases hopen
  · intro hk
    obtain ⟨hp,rfl | ⟨key,-, hopen⟩⟩ := h
    · cases keyManager with
      | none => rfl
      | some km => rw [openOwned,hp km.key,getD_none]
    · obtain ⟨km,rfl,rfl⟩ := hk key (by rw [hopen]; rfl)
      rw [openOwned, hopen,getD_some]

def KeyOf (keyManager : Option (KeyManager κ)) (key : κ) : Prop := ∃ km, keyManager = some km ∧ km.key = key

theorem represents_plain (h : Plain c value) : Represents c owner value value := ⟨h,.inl rfl⟩

variable {nonce : Nonce}

theorem sealStored_represents (hc : c.Ideal) (hp : Plain c value) (h : sealStored c keyManager nonce value = .ok stored) :
    Represents c (KeyOf keyManager) stored value := by
  cases keyManager with
  | none =>
    cases h
    exact represents_plain hp
  | some km => exact ⟨hp,.inr ⟨km.key,⟨km,rfl,rfl⟩,tryDecrypt_encrypt hc h⟩⟩

theorem sealRowValue_represents (hc : c.Ideal) (hp : Plain c value)
    {slot : Key} (h : sealRowValue c keyManager slot nonce value = .ok stored) :
    Represents c (KeyOf keyManager) stored value := by
  cases keyManager with
  | none =>
    cases h
    exact represents_plain hp
  | some km =>
    change (if isRowValueKey slot then encrypt c km.key nonce value else .ok value) = .ok stored at h
    split at h
    · exact ⟨hp,.inr ⟨km.key,⟨km,rfl,rfl⟩,tryDecrypt_encrypt hc h⟩⟩
    · cases h
      exact represents_plain hp

end

section
variable {κ : Type} {c : Cipher κ} {first : κ} {s : State κ}

/-- Sealed values are under the first key or the recorded one, the sentinel is that of the recorded key, and no other
key is ever recorded or written with. -/
structure Inv (c : Cipher κ) (first : κ) (s : State κ) : Prop where
  values : Holds c (fun key => key = first ∨ s.accepted.head? = some key) s
  sentinel : SentinelOf c s
  one : ∀ key ∈ s.accepted, s.accepted.head? = some key
  writer : ∀ keyManager key, s.handle = some ⟨keyManager,false⟩ → KeyOf keyManager key → s.accepted.head? = some key

theorem Holds.mono {owner owner' : κ → Prop} (ho : ∀ key, owner key → owner' key) (h : Holds c owner s) : Holds c owner' s := by
  intro slot hs
  have hv := h slot hs
  generalize s.store.lookup slot = stored, s.written slot = value at hv ⊢
  cases hv with
  | some hr => exact .some (hr.mono ho)
  | none => exact .none

variable {owner : κ → Prop} {slot : Key} {key : κ} {o : Opening κ} {km : KeyManager κ}
variable {store : Store} {stored : Bytes} {s' : State κ}

theorem Holds.update (h : Holds c owner s) {stored value : Option Bytes}
    (hs : ∀ slot', store.lookup slot' = if slot' = slot then stored else s.store.lookup slot')
    (hnew : Option.Rel (Represents c owner) stored value) : Holds c owner
      { s with
        store
        written := Function.update s.written slot value } := by
  intro slot' hs'
  change Option.Rel _ (store.lookup slot') (Function.update s.written slot value slot')
  rw [hs]
  by_cases heq : slot' = slot
  · rw [if_pos heq,heq,update_self]
    exact hnew
  · rw [if_neg heq,update_of_ne heq]
    exact h slot' hs'

theorem SentinelOf.absent (h : SentinelOf c s) (hn : s.store.lookup keyCheckKey = none) : s.accepted = [] := by
  unfold SentinelOf at h
  split at h
  · assumption
  · obtain ⟨stored,hs,-⟩ := h
    rw [hn] at hs
    cases hs

theorem SentinelOf.opened (hc : c.Ideal) (h : SentinelOf c s) {plaintext : Bytes}
    (hs : s.store.lookup keyCheckKey = some stored) (hopen : tryDecrypt c key stored = some plaintext) :
    s.accepted.head? = some key := by
  unfold SentinelOf at h
  split at h
  · rw [hs] at h
    cases h
  next recorded rest ha =>
    obtain ⟨stored',hs',ho'⟩ := h
    rw [hs,some.injEq] at hs'
    subst hs'
    rw [ha,key_unique hc hopen ho',head?_cons]

theorem SentinelOf.congr (h : SentinelOf c s) (hlk : s'.store.lookup keyCheckKey = s.store.lookup keyCheckKey)
    (hh : s'.accepted.head? = s.accepted.head?) : SentinelOf c s' := by
  unfold SentinelOf at h ⊢
  cases ha : s.accepted with
  | nil =>
    rw [ha,head?_nil,head?_eq_none_iff] at hh
    rw [ha] at h
    rw [hh,hlk]
    exact h
  | cons key rest =>
    rw [ha,head?_cons,head?_eq_some_iff] at hh
    obtain ⟨rest',hr'⟩ := hh
    rw [ha] at h
    rw [hr',hlk]
    exact h

theorem Mixture.inv (h : Mixture c first s) : Inv c first s where
  values := h.values.mono fun _ => .inl
  sentinel := h.sentinel
  one := by
    intro key hkey
    rcases h.accepted with hn | ho
    · rw [hn] at hkey
      cases hkey
    · rw [ho,mem_singleton] at hkey
      rw [ho,hkey]
      rfl
  writer := by
    intro keyManager key hh
    rw [h.closed] at hh
    cases hh

theorem Holds.congr (h : Holds c owner s)
    (hst : ∀ slot, slot ≠ keyCheckKey → s'.store.lookup slot = s.store.lookup slot) (hw : s'.written = s.written) :
    Holds c owner s' := by
  intro slot hs
  rw [hst slot hs,hw]
  exact h slot hs

theorem openDb_refused {e : TdeError} (h : (openWithMode c s.store o).1 = .error e) : openDb c s o = s := by
  have hs := openWithMode_refused h
  unfold openDb
  split
  next store hopen =>
    rw [hopen] at hs
    change store = s.store at hs
    rw [hs]
  next hopen =>
    rw [hopen] at h
    cases h

def State.opened (s : State κ) (o : Opening κ) (store : Store) : State κ :=
  { s with
    store
    handle := some ⟨o.keyManager,o.mode.isReadOnly⟩
    accepted := s.accepted ++ o.recorded.toList }

theorem openDb_accepted (h : (openWithMode c s.store o).1 = .ok ()) :
    ∃ store, Accepts c s.store o store ∧ openDb c s o = s.opened o store := by
  refine ⟨(openWithMode c s.store o).2,openWithMode_accepts h,?_⟩
  unfold openDb
  split
  next hopen =>
    rw [hopen] at h
    cases h
  next hopen =>
    rw [hopen]
    rfl

theorem recorded_of_readOnly (h : o.mode.isReadOnly = true) : o.recorded = none := if_pos h

theorem recorded_of_keyless (h : o.keyManager = none) : o.recorded = none := by
  unfold Opening.recorded
  rw [h,map_none,ite_self]

theorem recorded_of_writable (h : o.mode.isReadOnly = false) (hkey : o.keyManager = some km) : o.recorded = some km.key := by
  rw [Opening.recorded,h,hkey]
  rfl

theorem recorded_cases (hkey : o.keyManager = some km) :
    o.recorded = some km.key ∨ o.mode.isReadOnly = true ∧ o.recorded = none := by
  cases hmode : o.mode.isReadOnly with
  | true => exact .inr ⟨rfl,recorded_of_readOnly hmode⟩
  | false => exact .inl (recorded_of_writable hmode hkey)

theorem Inv.opened_same (h : Inv c first s) (hh : (s.opened o s.store).accepted.head? = s.accepted.head?)
    (hr : ∀ key ∈ o.recorded, s.accepted.head? = some key)
    (hw : o.mode.isReadOnly = false → ∀ key, KeyOf o.keyManager key → s.accepted.head? = some key) :
    Inv c first (s.opened o s.store) where
  values := by
    rw [hh]
    exact h.values.congr (fun _ _ => rfl) rfl
  sentinel := h.sentinel.congr rfl hh
  one := by
    intro key hkey
    rw [hh]
    rcases mem_append.mp hkey with hold | hnew
    · exact h.one key hold
    · exact hr key (mem_toList.mp hnew)
  writer := by
    intro keyManager key hhd hkey
    rw [hh]
    obtain ⟨rfl,hmode⟩ : o.keyManager = keyManager ∧ o.mode.isReadOnly = false := by
      simpa [State.opened] using hhd
    exact hw hmode key hkey

theorem Inv.opened_installed (hc : c.Ideal) (h : Inv c first s) {frame : Bytes}
    (hkey : o.keyManager = some km) (ha : s.accepted = []) (hmode : o.mode.isReadOnly = false)
    (hfr : encrypt c km.key o.nonce keyCheckPlaintext = .ok frame) :
    Inv c first (s.opened o (s.store.insert keyCheckKey frame)) := by
  have hnew : (s.opened o (s.store.insert keyCheckKey frame)).accepted = [km.key] := by
    change s.accepted ++ o.recorded.toList = [km.key]
    rw [ha,recorded_of_writable hmode hkey]
    rfl
  refine ⟨?_,?_,?_,?_⟩
  · refine (h.values.mono fun key hold => ?_).congr (fun slot hs => ?_) rfl
    · rw [ha] at hold
      exact .inl (hold.resolve_right nofun)
    · change (s.store.insert keyCheckKey frame).lookup slot = s.store.lookup slot
      rw [Map.lookup_insert_ite,if_neg hs]
  · unfold SentinelOf
    rw [hnew]
    exact ⟨frame,lookup_insert _,tryDecrypt_encrypt hc hfr⟩
  · intro key hm
    rw [hnew] at hm ⊢
    rw [mem_singleton.mp hm,head?_cons]
  · intro keyManager key hh hof
    obtain ⟨rfl,-⟩ : o.keyManager = keyManager ∧ o.mode.isReadOnly = false := by
      simpa [State.opened] using hh
    obtain ⟨km',hkm',rfl⟩ := hof
    rw [hkey,some.injEq] at hkm'
    rw [hnew,hkm',head?_cons]

theorem head?_append_toList {α : Type} {keys : List α} {key : α} (h : keys.head? = some key) (extra : Option α) :
    (keys ++ extra.toList).head? = keys.head? := by
  rw [head?_append,h,some_or]

theorem inv_openDb (hc : c.Ideal) (h : Inv c first s) (o : Opening κ) : Inv c first (openDb c s o) := by
  cases ha : (openWithMode c s.store o).1 with
  | error e =>
    rw [openDb_refused ha]
    exact h
  | ok _ =>
    obtain ⟨store,hac,heq⟩ := openDb_accepted ha
    rw [heq]
    cases hac with
    | keyless hkey hs =>
      have hr : o.recorded = none := recorded_of_keyless hkey
      refine h.opened_same ?_ ?_ ?_
      · change (s.accepted ++ o.recorded.toList).head? = _
        rw [hr,toList_none,append_nil]
      · intro key hm
        rw [hr] at hm
        cases hm
      · rintro - key ⟨km,hkm,-⟩
        rw [hkey] at hkm
        cases hkm
    | verified km stored hkey hs hopen =>
      have hh := h.sentinel.opened hc hs hopen
      refine h.opened_same (head?_append_toList hh _) ?_ ?_
      · intro key hm
        rcases recorded_cases hkey with hr | ⟨-,hr⟩
        · rw [hr] at hm
          cases hm
          exact hh
        · rw [hr] at hm
          cases hm
      · rintro - key ⟨km',hkm',rfl⟩
        rw [hkey,some.injEq] at hkm'
        rw [← hkm',hh]
    | unverified km hkey hs hmode =>
      have hr : o.recorded = none := recorded_of_readOnly hmode
      refine h.opened_same ?_ ?_ ?_
      · change (s.accepted ++ o.recorded.toList).head? = _
        rw [hr,toList_none,append_nil]
      · intro key hm
        rw [hr] at hm
        cases hm
      · intro hw
        rw [hmode] at hw
        cases hw
    | installed km frame hkey hs hmode he hfr =>
      exact h.opened_installed hc hkey (h.sentinel.absent hs) hmode hfr

theorem inv_writeSealed (h : Inv c first s) {sealing : Option (KeyManager κ) → Except TdeError Bytes}
    {value : Bytes} (hst : slot ≠ keyCheckKey)
    (hs : ∀ km stored, sealing km = .ok stored → Represents c (KeyOf km) stored value) :
    Inv c first (writeSealed s sealing slot value) := by
  unfold writeSealed
  split
  next keyManager hh =>
    split
    · exact h
    next stored hsl =>
      refine ⟨?_,?_,h.one,h.writer⟩
      · refine h.values.update (fun slot' => Map.lookup_insert_ite s.store slot slot' stored) (.some ?_)
        exact (hs keyManager stored hsl).mono fun key hkey => .inr (h.writer keyManager key hh hkey)
      · refine h.sentinel.congr ?_ rfl
        exact lookup_insert_ne (Ne.symm hst)
  · exact h

theorem inv_deleteKey (h : Inv c first s) (hs : slot ≠ keyCheckKey) : Inv c first (deleteKey s slot) := by
  unfold deleteKey
  split
  · refine ⟨?_,?_,h.one,h.writer⟩
    · exact h.values.update (fun slot' => Map.lookup_erase_ite s.store slot slot') .none
    · refine h.sentinel.congr ?_ rfl
      exact lookup_erase_ne (Ne.symm hs)
  · exact h

theorem inv_step (hc : c.Ideal) (s : State κ) (e : Event κ) (h : Inv c first s) (he : e.Admissible c) :
    Inv c first (step c s e) := by
  cases e with
  | openDb o => exact inv_openDb hc h o
  | close => exact ⟨h.values,h.sentinel,h.one,nofun⟩
  | put slot nonce value =>
    exact inv_writeSealed h he.1 fun km stored hs => sealStored_represents hc he.2 hs
  | commit slot nonce value =>
    exact inv_writeSealed h he.1 fun km stored hs => sealRowValue_represents hc he.2 hs
  | putRaw slot value =>
    change Inv c first (writeSealed s (fun _ => .ok value) slot value)
    refine inv_writeSealed h he.1 fun km stored hs => ?_
    cases hs
    exact represents_plain he.2
  | delete slot => exact inv_deleteKey h he

theorem sentinel_step (s : State κ) (e : Event κ) (h : s.store.lookup keyCheckKey = some stored)
    (he : e.Admissible c) : (step c s e).store.lookup keyCheckKey = some stored := by
  have hsd (sealing : Option (KeyManager κ) → Except TdeError Bytes) (slot : Key) (value : Bytes)
      (hsl : slot ≠ keyCheckKey) : (writeSealed s sealing slot value).store.lookup keyCheckKey = some stored := by
    unfold writeSealed
    split
    · split
      · exact h
      · rw [← h]
        exact lookup_insert_ne (Ne.symm hsl)
    · exact h
  cases e with
  | openDb o =>
    change (openDb c s o).store.lookup keyCheckKey = _
    cases ha : (openWithMode c s.store o).1 with
    | error e => rw [openDb_refused ha,h]
    | ok _ =>
      obtain ⟨store,hac,heq⟩ := openDb_accepted ha
      rw [heq]
      cases hac with
      | keyless _ hs | verified km stored' _ hs _ | unverified km _ hs _ => exact h
      | installed km frame _ hs _ _ _ =>
        rw [h] at hs
        cases hs
  | close => exact h
  | put slot nonce value | commit slot nonce value | putRaw slot value => exact hsd _ slot value he.1
  | delete slot =>
    change (deleteKey s slot).store.lookup keyCheckKey = _
    unfold deleteKey
    split
    · rw [← h]
      exact lookup_erase_ne (Ne.symm he)
    · exact h

theorem head_step (s : State κ) (e : Event κ) (h : s.accepted.head? = some key) : (step c s e).accepted.head? = some key := by
  have hs (sealing : Option (KeyManager κ) → Except TdeError Bytes) (slot : Key) (value : Bytes) :
      (writeSealed s sealing slot value).accepted = s.accepted := by
    unfold writeSealed
    split
    · split <;> rfl
    · rfl
  cases e with
  | openDb o =>
    change (openDb c s o).accepted.head? = _
    cases ha : (openWithMode c s.store o).1 with
    | error e => rw [openDb_refused ha,h]
    | ok _ =>
      obtain ⟨store,-,heq⟩ := openDb_accepted ha
      rw [heq]
      exact (head?_append_toList h _).trans h
  | close => exact h
  | put slot nonce value | commit slot nonce value
  | putRaw slot value => exact (congrArg List.head? (hs _ slot value)).trans h
  | delete slot =>
    change (deleteKey s slot).accepted.head? = _
    unfold deleteKey
    split <;> exact h

theorem mem_sample {entry : Key × Bytes} (h : entry ∈ sample store) :
    store.lookup entry.1 = some entry.2 ∧ entry.1 ≠ keyCheckKey := by
  obtain ⟨lead,hld,hm⟩ := mem_flatMap.mp (mem_of_mem_take h)
  have hl : lead <+: entry.1 := by simpa using mem_takeWhile_imp hm
  refine ⟨((Map.mem_iterFrom store lead entry).mp ((takeWhile_sublist _).subset hm)).1,?_⟩
  -- None of the probed key spaces holds the sentinel.
  have ho : ∀ lead ∈ keyProbePrefixes, ¬lead <+: keyCheckKey := by decide
  intro heq
  rw [heq] at hl
  exact ho lead hld hl

theorem Holds.sealedOnlyUnder (hc : c.Ideal) (h : Holds c (· = key) s) : SealedOnlyUnder c key s.store := by
  intro slot stored key' hs hst hsm
  obtain ⟨plaintext, hopen⟩ := isSome_iff_exists.mp hsm
  have hv := h slot hs
  rw [hst] at hv
  generalize s.written slot = value at hv
  cases hv with
  | some hr => exact (hr.of_open hc hopen).1

theorem SealedOnlyUnder.holds (h : Holds c owner s) (hsl : SealedOnlyUnder c key s.store) : Holds c (· = key) s := by
  intro slot hs
  have hv := h slot hs
  have ho := hsl slot
  generalize s.store.lookup slot = stored, s.written slot = value at hv ho ⊢
  cases hv with
  | none => exact .none
  | some hr =>
    obtain ⟨hp,hst | ⟨key',-, hopen⟩⟩ := hr
    · exact .some ⟨hp,.inl hst⟩
    · refine .some ⟨hp,.inr ⟨key',ho _ key' hs rfl (by rw [hopen]; rfl), hopen⟩⟩

theorem Holds.read_eq_iff (hc : c.Ideal) (h : Holds c owner s) (hs : slot ≠ keyCheckKey) {keyManager : Option (KeyManager κ)} :
    read c keyManager s.store slot = s.written slot ↔
      ∀ stored key, s.store.lookup slot = some stored → (tryDecrypt c key stored).isSome → KeyOf keyManager key := by
  have hv := h slot hs
  unfold read
  generalize s.store.lookup slot = stored, s.written slot = value at hv ⊢
  cases hv with
  | none => simp
  | @some stored value hr =>
    rw [map_some,some.injEq,hr.openOwned_eq_iff hc]
    constructor
    · intro hk stored' key hst
      cases hst
      exact hk key
    · exact fun hk key => hk stored key rfl

end
section
variable {κ : Type} {c : Cipher κ} {first : κ} {s : State κ}

/-- What a key check settles for a state: refusals change nothing; the sentinel is that of the first writable key, every
other accepted one is the same, and it stays; a writable open has that key, or finds no sentinel and a sample that proves
the key or holds no sealed value; a value reads back exactly when no key but the handle's seals it; and once a recorded key
seals every sealed value, it does so for good, and whoever opens the database has it and reads back every value. -/
structure OneKey (c : Cipher κ) (s : State κ) : Prop where
  refused : ∀ o e, (openWithMode c s.store o).1 = .error e → step c s (.openDb o) = s
  sentinel : SentinelOf c s ∧ ∀ key ∈ s.accepted, s.accepted.head? = some key
  permanent : ∀ later : List (Event κ), (∀ e ∈ later, e.Admissible c) → ∀ stored,
    s.store.lookup keyCheckKey = some stored → (run (step c) s later).store.lookup keyCheckKey = some stored
  writable : ∀ o km, o.mode.isReadOnly = false → o.keyManager = some km → (openWithMode c s.store o).1 = .ok () →
    s.accepted.head? = some km.key ∨ s.accepted = [] ∧
      ((∃ entry ∈ sample s.store, (tryDecrypt c km.key entry.2).isSome) ∧ SealedOnlyUnder c km.key s.store ∨
        ∀ entry ∈ sample s.store, Plain c entry.2)
  reads : ∀ o, (openWithMode c s.store o).1 = .ok () → ∀ slot, slot ≠ keyCheckKey →
    (read c o.keyManager (step c s (.openDb o)).store slot = s.written slot ↔
      ∀ stored key, s.store.lookup slot = some stored → (tryDecrypt c key stored).isSome → KeyOf o.keyManager key)
  whole : ∀ key, s.accepted.head? = some key → SealedOnlyUnder c key s.store → ∀ later : List (Event κ),
    (∀ e ∈ later, e.Admissible c) → SealedOnlyUnder c key (run (step c) s later).store ∧
      ∀ o, (openWithMode c (run (step c) s later).store o).1 = .ok () → KeyOf o.keyManager key ∧
        ∀ slot, slot ≠ keyCheckKey →
          read c o.keyManager (step c (run (step c) s later) (.openDb o)).store slot = (run (step c) s later).written slot

variable {o : Opening κ}
variable {slot : Key} {key : κ}

theorem Accepts.lookup {store store' : Store} (h : Accepts c store o store')
    (hs : slot ≠ keyCheckKey) : store'.lookup slot = store.lookup slot := by
  cases h with
  | keyless | verified | unverified => rfl
  | installed km frame => rw [Map.lookup_insert_ite,if_neg hs]

theorem Inv.writable (hc : c.Ideal) (h : Inv c first s) {km : KeyManager κ}
    (hmode : o.mode.isReadOnly = false) (hkey : o.keyManager = some km) (hok : (openWithMode c s.store o).1 = .ok ()) :
    s.accepted.head? = some km.key ∨ s.accepted = [] ∧
      ((∃ entry ∈ sample s.store, (tryDecrypt c km.key entry.2).isSome) ∧ SealedOnlyUnder c km.key s.store ∨
        ∀ entry ∈ sample s.store, Plain c entry.2) := by
  obtain ⟨store,hac,-⟩ := openDb_accepted hok
  cases hac with
  | keyless hn =>
    rw [hkey] at hn
    cases hn
  | verified km' stored hkm' hs hopen =>
    rw [hkey,some.injEq] at hkm'
    rw [hkm']
    exact .inl (h.sentinel.opened hc hs hopen)
  | unverified km' _ _ hro =>
    rw [hmode] at hro
    cases hro
  | installed km' frame hkm' hs _ he =>
    rw [hkey,some.injEq] at hkm'
    rw [← hkm'] at he
    have ha := h.sentinel.absent hs
    refine .inr ⟨ha,(requireProbeEvidence_eq_ok hc he).imp_left fun hp => ⟨hp,?_⟩⟩
    -- A value of the sample is sealed under this key, so this is the key of all sealed values.
    have hf : Holds c (· = first) s := h.values.mono fun key hold => by
      rw [ha] at hold
      exact hold.resolve_right nofun
    obtain ⟨entry,hen,hsm⟩ := hp
    obtain ⟨hst,hsl⟩ := mem_sample hen
    rw [hf.sealedOnlyUnder hc entry.1 entry.2 km.key hsl hst hsm]
    exact hf.sealedOnlyUnder hc

theorem Inv.holds_recorded (h : Inv c key s) (hh : s.accepted.head? = some key) : Holds c (· = key) s :=
  h.values.mono fun key' hold => by
    rcases hold with rfl | hold
    · rfl
    · rw [hh,some.injEq] at hold
      exact hold.symm

theorem Inv.reads (hc : c.Ideal) (h : Inv c first s) (hok : (openWithMode c s.store o).1 = .ok ()) (hs : slot ≠ keyCheckKey) :
    read c o.keyManager (step c s (.openDb o)).store slot = s.written slot ↔
      ∀ stored key, s.store.lookup slot = some stored → (tryDecrypt c key stored).isSome → KeyOf o.keyManager key := by
  obtain ⟨store,ha,heq⟩ := openDb_accepted hok
  rw [← h.values.read_eq_iff hc hs,read,read,step,heq]
  change Option.map _ (store.lookup slot) = _ ↔ _
  rw [ha.lookup hs]

theorem Inv.whole (hc : c.Ideal) (h : Inv c key s) (hh : s.accepted.head? = some key)
    (hok : (openWithMode c s.store o).1 = .ok ()) : KeyOf o.keyManager key ∧ ∀ slot, slot ≠ keyCheckKey →
      read c o.keyManager (step c s (.openDb o)).store slot = s.written slot := by
  have hkey : KeyOf o.keyManager key := by
    have hp : s.store.lookup keyCheckKey ≠ none := fun hn => by
      rw [h.sentinel.absent hn] at hh
      cases hh
    obtain ⟨store,ha,-⟩ := openDb_accepted hok
    cases ha with
    | keyless _ hs | unverified km _ hs | installed km frame _ hs => exact absurd hs hp
    | verified km stored hkm hs hopen =>
      have hr := h.sentinel.opened hc hs hopen
      rw [hh,some.injEq] at hr
      exact ⟨km,hkm,hr.symm⟩
  refine ⟨hkey,fun slot hsl => (h.reads hc hok hsl).mpr fun stored key' hst hsm => ?_⟩
  rw [(h.holds_recorded hh).sealedOnlyUnder hc slot stored key' hsl hst hsm]
  exact hkey

/-- In every state that opens and writes lead to, the database answers to one key, as far as the probed sample shows it:
the check that installs the sentinel reads no value outside of the sample. -/
theorem one_database_one_key (hc : c.Ideal) (hs : Mixture c first s) {events : List (Event κ)}
    (hevents : ∀ e ∈ events, e.Admissible c) : OneKey c (run (step c) s events) := by
  have hinv : Inv c first (run (step c) s events) := forall_run_invariant _ _ (inv_step hc) hs.inv hevents
  refine ⟨?_,⟨hinv.sentinel,hinv.one⟩,?_,?_,?_,?_⟩
  · exact fun o e hrefused => openDb_refused hrefused
  · intro later hlater stored hstored
    exact forall_run_invariant _ (fun s => s.store.lookup keyCheckKey = some stored)
      (fun s e h he => sentinel_step s e h he) hstored hlater
  · exact fun o km hmode hkey hok => hinv.writable hc hmode hkey hok
  · exact fun o hok slot hslot => hinv.reads hc hok hslot
  · intro key hhead hsealed later hlater
    -- From here on the key is the first and the recorded one.
    have hclean : Inv c key (run (step c) s events) :=
      ⟨(hsealed.holds hinv.values).mono fun _ => .inl,hinv.sentinel,hinv.one,hinv.writer⟩
    have hlaterInv : Inv c key (run (step c) (run (step c) s events) later) :=
      forall_run_invariant _ _ (inv_step hc) hclean hlater
    have hlaterHead : (run (step c) (run (step c) s events) later).accepted.head? = some key :=
      run_invariant _ (fun s => s.accepted.head? = some key) (fun s e h => head_step s e h) hhead later
    exact ⟨(hlaterInv.holds_recorded hlaterHead).sealedOnlyUnder hc,fun o hok => hlaterInv.whole hc hlaterHead hok⟩

end

/-! A database whose only sealed value lies outside of the probed key spaces. -/

section

/-- The tag is the key. -/
def tagCipher : Cipher Byte where
  aeadEncrypt key _ plaintext := .ok (plaintext ++ List.replicate 16 key)
  aeadDecrypt key _ ciphertext :=
    if ciphertext.drop (ciphertext.length-16) = List.replicate 16 key then
      some (ciphertext.take (ciphertext.length-16))
    else none
  decodesSchema _ := false
  decodesTuple _ := false

theorem tagCipher_ideal : tagCipher.Ideal where
  tagged h := by
    cases h
    simp
  opens h := by
    cases h
    simp [tagCipher]
  authentic {key nonce plaintext ciphertext} h := by
    change (if _ then _ else _) = _ at h
    split at h
    next htg =>
      cases h
      change Except.ok _ = Except.ok _
      rw [← htg,take_append_drop]
    · cases h
  oneKey {key key' nonce plaintext plaintext' ciphertext} h h' := by
    cases h
    change (if _ then _ else _) = _ at h'
    split at h'
    next htg =>
      have hkey : key = key' := by simpa using htg
      exact hkey.symm
    · cases h'
  noEncoding _ := ⟨rfl,rfl⟩

theorem plain_of_short {κ : Type} {c : Cipher κ} {raw : Bytes} (h : raw.length < minCiphertextLen) : Plain c raw :=
  fun _ => dif_pos h

def zeroNonce : Nonce := ⟨List.replicate 12 0,rfl⟩

/-- The row counter of a table, as it was before encryption. -/
def plainCounter : Bytes := List.replicate 8 0

def sealedVersion : Bytes := List.replicate 12 0 ++ ([1,2,3] ++ List.replicate 16 65)

def counterKey : Key := counterPrefix ++ ascii ['t']

def oldVersionKey : Key := versionKey (ascii ['t']) 1 1

def unprobedState : State Byte where
  store := ((∅ : Store).insert counterKey plainCounter).insert oldVersionKey sealedVersion
  handle := none
  written := Function.update (Function.update (fun _ => none) counterKey (some plainCounter)) oldVersionKey (some [1,2,3])
  accepted := []

def noFaults : Faults := ⟨fun _ => none,fun _ => none,none⟩

def openUnder (key : Byte) : Opening Byte :=
  ⟨some ⟨key,"Environment(\"HELIOS_KEY\")"⟩,.writable true,noFaults,noFaults,zeroNonce⟩

theorem unprobed_mixture : Mixture tagCipher 65 unprobedState where
  closed := rfl
  values := by
    have he : Holds tagCipher (· = 65) ⟨∅,none,fun _ => none,[]⟩ := by
      intro slot _
      change Option.Rel _ ((∅ : Store).lookup slot) none
      rw [lookup_empty]
      exact .none
    have hc := he.update (fun slot => Map.lookup_insert_ite ∅ counterKey slot plainCounter)
      (.some (represents_plain (plain_of_short (by decide))))
    refine hc.update (fun slot => Map.lookup_insert_ite _ oldVersionKey slot sealedVersion) (.some ?_)
    exact ⟨plain_of_short (by decide),.inr ⟨65,rfl,by decide⟩⟩
  accepted := .inl rfl
  sentinel := by
    change unprobedState.store.lookup keyCheckKey = none
    decide +kernel

/-- Key 66 is accepted and recorded, and the version no longer reads back. -/
theorem another_key_accepted : tagCipher.Ideal ∧ Mixture tagCipher 65 unprobedState ∧
      (openWithMode tagCipher unprobedState.store (openUnder 66)).1 = .ok () ∧ ¬SealedOnlyUnder tagCipher 66 unprobedState.store ∧
      (step tagCipher unprobedState (.openDb (openUnder 66))).accepted = [66] ∧
      read tagCipher (openUnder 66).keyManager (step tagCipher unprobedState (.openDb (openUnder 66))).store oldVersionKey ≠
        unprobedState.written oldVersionKey := by
  refine ⟨tagCipher_ideal,unprobed_mixture,by decide +kernel,fun h => ?_,by decide +kernel,by decide +kernel⟩
  exact absurd (h oldVersionKey sealedVersion 65 (by decide) (by decide +kernel) (by decide +kernel)) (by decide)

theorem one_database_one_key_tagged : OneKey tagCipher (run (step tagCipher) unprobedState
      [.openDb (openUnder 65),.commit (dataKey (ascii ['t']) 1) zeroNonce [4,5],.close]) :=
  one_database_one_key tagCipher_ideal unprobed_mixture (by
    simp only [forall_mem_cons]
    exact ⟨trivial,⟨by decide,plain_of_short (by decide)⟩,trivial,nofun⟩)

end
end HeliosNano.Storage.Tde
