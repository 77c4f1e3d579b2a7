import HeliosNano.Replication.HistoryBinding

namespace HeliosNano.Replication.History
open Foundation Storage List Option Option.some

/-- The outcome of a call of `verify_or_bind`. -/
structure Verdict where
  startup : Nat
  directory : Option Nat
  first : Bool
  peer : Uuid
  accepted : Bool
deriving DecidableEq, Repr

section
variable (Path : Type)

/-- A start of a receiver that is not finished, and the file system as it found it. -/
structure Start : Type 1 where
  found : FileSystem Path
  program : Program (FileSystem Path) Fault (Except (HistoryError Path) (ReceiverHistory Path))

/-- A call that holds the lock of a receiver. -/
inductive Call : Type 1
  | binding (found : FileSystem Path) (peer : Uuid)
      (program : Program (FileSystem Path) Fault (Except (HistoryError Path) Unit × BindingState))
  | expecting (found : FileSystem Path)
      (program : Program (FileSystem Path) Fault (Except (HistoryError Path) (Option Uuid) × BindingState))

structure Receiver : Type 1 where
  history : ReceiverHistory Path
  call : Option (Call Path)

/-- A receiver of an earlier life is gone; its number is not used again. -/
structure World : Type 1 where
  fs : FileSystem Path
  starts : List (Start Path)
  receivers : List (Option (Receiver Path))
  verdicts : List Verdict

/-- What a restart leaves of a record that was not synced. -/
inductive Cut
  | kept
  | lost
  | first (length : Nat)

/-- A restart may lose any path: `create_dir_all` does not sync the directories above. -/
inductive Event
  | prepare (path : Path)
  | inMemory
  | verifyOrBind (startup : Nat) (peer : Uuid)
  | expectedHistory (startup : Nat)
  | startTurn (start : Nat) (fault : Fault)
  | callTurn (startup : Nat) (fault : Fault)
  | database (inode : Nat) (primary identity : Option Entry)
  | restart (forgotten : Path → Bool) (cut : Nat → Cut)

end

section
variable {Path : Type} (paths : PathOps Path) (json : BindingJson)

def Entry.cut : Entry → Cut → Option Entry
  | .file written, c =>
    if written.synced then some (.file written)
    else
      match c with
      | .kept => some (.file written)
      | .lost => none
      | .first length => some (.file { written with bytes := written.bytes.take length })
  | entry, _ => some entry

def FileSystem.restarted (fs : FileSystem Path) (forgotten : Path → Bool) (cut : Nat → Cut) : FileSystem Path where
  symlinked := fs.symlinked
  nodes := fun path => if forgotten path then none else fs.nodes path
  directories := fun inode =>
    { fs.directories inode with binding := (fs.binding inode).bind fun entry => entry.cut (cut inode) }
  nextInode := fs.nextInode
  allocated := by
    intro path inode h
    split at h
    · cases h
    · exact fs.allocated path inode h
  blank := by
    intro inode h
    simp only [FileSystem.binding,fs.blank inode h]
    rfl

def Entry.onDisk : Entry → Entry
  | .file written => .file { written with synced := true }
  | entry => entry

def FileSystem.onDisk (fs : FileSystem Path) : FileSystem Path where
  symlinked := fs.symlinked
  nodes := fs.nodes
  directories := fun inode =>
    { fs.directories inode with binding := (fs.binding inode).map Entry.onDisk }
  nextInode := fs.nextInode
  allocated := fs.allocated
  blank := by
    intro inode h
    simp only [FileSystem.binding,fs.blank inode h]
    rfl

namespace World

def boot (fs : FileSystem Path) : World Path := ⟨fs.onDisk,[],[],[]⟩

def free? (w : World Path) (startup : Nat) : Option (ReceiverHistory Path) :=
  match w.receivers[startup]? with
  | some (some ⟨history,none⟩) => some history
  | _ => none

def setReceiver (w : World Path) (startup : Nat) (receiver : Receiver Path) : World Path :=
  { w with receivers := w.receivers.set startup (some receiver) }

/-- A receiver takes the state that its call leaves, and its lock is free. -/
def settle (w : World Path) (startup : Nat) (history : ReceiverHistory Path) (state : BindingState) : World Path :=
  w.setReceiver startup ⟨{ history with state := state },none⟩

def startTurn (w : World Path) (start : Nat) (fault : Fault) : World Path :=
  match w.starts[start]? with
  | none => w
  | some ⟨found,program⟩ =>
    match program.result? with
    | some (.ok history) =>
      { w with starts := w.starts.eraseIdx start, receivers := w.receivers ++ [some ⟨history,none⟩] }
    | some (.error _) => { w with starts := w.starts.eraseIdx start }
    | none =>
      { w with
        fs := (program.advance fault w.fs).2
        starts := w.starts.set start ⟨found,(program.advance fault w.fs).1⟩ }

def callTurn (w : World Path) (startup : Nat) (fault : Fault) : World Path :=
  match w.receivers[startup]? with
  | some (some ⟨history,some (.binding found peer program)⟩) =>
    match program.result? with
    | some (result,state) =>
      { w.settle startup history state with
        verdicts := w.verdicts ++ [⟨startup,history.directory.map OwnedDirectory.identity,
          history.state = .fresh,peer,result.isOk⟩] }
    | none =>
      { w.setReceiver startup ⟨history,some (.binding found peer (program.advance fault w.fs).1)⟩ with
        fs := (program.advance fault w.fs).2 }
  | some (some ⟨history,some (.expecting found program)⟩) =>
    match program.result? with
    | some (_,state) => w.settle startup history state
    | none =>
      { w.setReceiver startup ⟨history,some (.expecting found (program.advance fault w.fs).1)⟩ with
        fs := (program.advance fault w.fs).2 }
  | _ => w

def step [DecidableEq Path] (w : World Path) : Event Path → World Path
  | .prepare path => { w with starts := w.starts ++ [⟨w.fs,(prepareReceiverHistory paths json path).run⟩] }
  | .inMemory => { w with receivers := w.receivers ++ [some ⟨History.inMemory,none⟩] }
  | .verifyOrBind startup peer =>
    match w.free? startup with
    | none => w
    | some history =>
      w.setReceiver startup
        ⟨history,some (.binding w.fs peer ((verifyOrBind json history.directory peer).run.run history.state))⟩
  | .expectedHistory startup =>
    match w.free? startup with
    | none => w
    | some history =>
      w.setReceiver startup
        ⟨history,some (.expecting w.fs ((expectedHistory json history.directory).run.run history.state))⟩
  | .startTurn start fault => w.startTurn start fault
  | .callTurn startup fault => w.callTurn startup fault
  | .database inode primary identity =>
    { w with fs := w.fs.update inode fun directory =>
        { directory with primary := primary, identity := identity } }
  | .restart forgotten cut =>
    { w with fs := w.fs.restarted forgotten cut, starts := [], receivers := w.receivers.map fun _ => none }

def run [DecidableEq Path] (w : World Path) (events : List (Event Path)) : World Path := events.foldl (step paths json) w

def found? (w : World Path) : Event Path → Option (FileSystem Path)
  | .startTurn start _ => (w.starts[start]?).map Start.found
  | .callTurn startup _ =>
    match w.receivers[startup]? with
    | some (some ⟨_,some (.binding found _ _)⟩) => some found
    | some (some ⟨_,some (.expecting found _)⟩) => some found
    | _ => none
  | _ => none

/-- The record of a directory exists for an event: a call found it when it began, a restart finds it synced. -/
def Existing (w : World Path) (event : Event Path) (inode : Nat) : Prop :=
  w.fs.binding inode ≠ none ∧ (∀ found, w.found? event = some found → found.binding inode ≠ none) ∧
    match event with
    | .restart _ _ => ∀ file, w.fs.binding inode = some (.file file) → file.synced = true
    | _ => True

end World
open World

def Logged (verdicts : List Verdict) (startup : Nat) (receiver : Option (Option (Receiver Path))) : Prop :=
  match receiver with
  | none => ∀ v ∈ verdicts, v.startup ≠ startup
  | some none =>
    (∀ v ∈ verdicts, v.startup = startup → v.accepted = false) ∨
      ∀ v ∈ verdicts, v.startup = startup → v.first = true → v.accepted = true
  | some (some receiver) =>
    match receiver.history.state with
    | .fresh => ∀ v ∈ verdicts, v.startup ≠ startup
    | .failed => ∀ v ∈ verdicts, v.startup = startup → v.accepted = false
    | .bound _ => ∀ v ∈ verdicts, v.startup = startup → v.first = true → v.accepted = true

/-- A start that runs ends in a receiver whose directory is bound to nothing, if it is fresh. -/
structure Start.Sound (start : Start Path) (s : FileSystem Path × Ledger) : Prop where
  since : Since start.found s
  ensures : Ensures (growing json) (Keeps json start.found) start.program
    (fun r s' => ∀ history, r = .ok history → history.Free s') s

/-- A call that runs accepts only the history of the ledger. -/
def Call.Sound (history : ReceiverHistory Path) (s : FileSystem Path × Ledger) : Call Path → Prop
  | .binding found peer program =>
    Since found s ∧ Ensures (growing json) (Keeps json found) program
      (fun r s' => Settles history.state peer r.1.isOk r.2 ∧ (r.1.isOk = true →
        ∀ owned, history.directory = some owned → s'.2 owned.identity = some peer)) s
  | .expecting found program =>
    Since found s ∧ Ensures (growing json) (Keeps json found) program (fun r _ => r.2 = history.state) s

structure Receiver.Sound (receiver : Receiver Path) (s : FileSystem Path × Ledger) : Prop where
  free : receiver.history.Free s
  call : ∀ call, receiver.call = some call → call.Sound json receiver.history s

structure World.Sound (w : World Path) (ledger : Ledger) : Prop where
  consistent : Consistent json (w.fs,ledger)
  starts : ∀ start ∈ w.starts, start.Sound json (w.fs,ledger)
  receivers : ∀ (startup : Nat) (receiver : Receiver Path), w.receivers[startup]? = some (some receiver) →
    receiver.Sound json (w.fs,ledger)
  accepted : ∀ v ∈ w.verdicts, v.accepted = true → ∀ inode, v.directory = some inode → ledger inode = some v.peer
  logged : ∀ startup : Nat, Logged w.verdicts startup w.receivers[startup]?

section
variable {json} {s s' : FileSystem Path × Ledger}

theorem Start.Sound.later {start : Start Path} (h : start.Sound json s) (hs : Grows json s s') : start.Sound json s' :=
  ⟨h.since.grows hs,h.ensures.later hs⟩

theorem Receiver.Sound.later {receiver : Receiver Path} (h : receiver.Sound json s) (hs : Grows json s s') :
    receiver.Sound json s' := by
  refine ⟨h.free.grows hs,?_⟩
  intro call hcall
  have hsn := h.call call hcall
  cases call with
  | binding found peer program | expecting found program => exact ⟨hsn.1.grows hs,hsn.2.later hs⟩

end

section
variable {json} {w : World Path} {ledger : Ledger}
variable (h : w.Sound json ledger)
include h

theorem World.Sound.grows {fs : FileSystem Path} {ledger' : Ledger}
    (hs : Grows json (w.fs,ledger) (fs,ledger')) : Sound json { w with fs := fs } ledger' where
  consistent := hs.consistent h.consistent
  starts := fun start hst => (h.starts start hst).later hs
  receivers := fun startup receiver hr => (h.receivers startup receiver hr).later hs
  accepted := fun v hv ha inode hi => hs.ledger _ _ (h.accepted v hv ha inode hi)
  logged := h.logged

theorem World.Sound.withStarts {starts : List (Start Path)}
    (hs : ∀ start ∈ starts, start.Sound json (w.fs,ledger)) : Sound json { w with starts := starts } ledger :=
  ⟨h.consistent,hs,h.receivers,h.accepted,h.logged⟩

variable {history : ReceiverHistory Path} {startup : Nat} {v : Verdict} {verdicts : List Verdict}

theorem World.Sound.push (hf : history.Free (w.fs,ledger)) :
    Sound json { w with receivers := w.receivers ++ [some ⟨history,none⟩] } ledger := by
  refine ⟨h.consistent,h.starts,?_,h.accepted,?_⟩
  · intro startup receiver hr
    rw [getElem?_append] at hr
    split at hr
    · exact h.receivers startup receiver hr
    rw [getElem?_singleton] at hr
    split at hr
    · obtain ⟨⟩ := inj (inj hr)
      exact ⟨hf,nofun⟩
    · cases hr
  · intro startup
    show Logged w.verdicts startup (w.receivers ++ [some ⟨history,none⟩])[startup]?
    rw [getElem?_append]
    split
    · exact h.logged startup
    next hlt =>
    have hn : ∀ v ∈ w.verdicts, v.startup ≠ startup := by
      have hl := h.logged startup
      rw [getElem?_eq_none (not_lt.mp hlt)] at hl
      exact hl
    rw [getElem?_singleton]
    split
    · simp only [Logged]
      split
      · exact hn
      · exact fun v hv hs => absurd hs (hn v hv)
      · exact fun v hv hs => absurd hs (hn v hv)
    · exact hn

theorem World.Sound.setReceiver {old receiver : Receiver Path}
    (hold : w.receivers[startup]? = some (some old)) (hs : receiver.Sound json (w.fs,ledger))
    (hst : receiver.history.state = old.history.state) : Sound json (w.setReceiver startup receiver) ledger := by
  have hlt : startup < w.receivers.length := (List.getElem?_eq_some_iff.mp hold).1
  refine ⟨h.consistent,h.starts,?_,h.accepted,?_⟩
  · intro other receiver' hr
    change (w.receivers.set startup (some receiver))[other]? = _ at hr
    rw [getElem?_set] at hr
    split at hr
    · obtain rfl := inj (inj hr)
      exact hs
    · exact h.receivers other receiver' hr
  · intro other
    show Logged w.verdicts other (w.receivers.set startup (some receiver))[other]?
    rw [getElem?_set]
    split
    · next hsame =>
      subst hsame
      have hl := h.logged startup
      rw [hold] at hl
      simpa only [Logged,hst] using hl
    · exact h.logged other

omit h

theorem Logged.none_accepted {receiver : Option (Receiver Path)}
    (h : Logged verdicts startup (some receiver)) (hv : v ∈ verdicts) (hf : v.first = true)
    (ha : v.accepted = false) (hs : v.startup = startup) : ∀ v' ∈ verdicts, v'.startup = startup → v'.accepted = false := by
  have hc : ¬ ∀ v ∈ verdicts, v.startup = startup → v.first = true → v.accepted = true := by
    intro hal
    rw [hal v hv hs hf] at ha
    cases ha
  cases receiver with
  | none => exact h.resolve_right hc
  | some receiver =>
    simp only [Logged] at h
    split at h
    · exact absurd hs (h v hv)
    · exact h
    · exact absurd h hc

theorem Logged.append_other {receiver : Option (Option (Receiver Path))}
    (h : Logged verdicts startup receiver) (hv : v.startup ≠ startup) : Logged (verdicts ++ [v]) startup receiver := by
  have hm : ∀ {P : Verdict → Prop}, (∀ v ∈ verdicts, v.startup = startup → P v) →
      ∀ v' ∈ verdicts ++ [v], v'.startup = startup → P v' := by
    intro P hP v' hv' hs
    rcases mem_append.mp hv' with hv' | hv'
    · exact hP v' hv' hs
    · obtain rfl := mem_singleton.mp hv'
      exact absurd hs hv
  have hne : (∀ v ∈ verdicts, v.startup ≠ startup) → ∀ v' ∈ verdicts ++ [v], v'.startup ≠ startup :=
    fun hn v' hv' hs => hm (P := fun _ => False) hn v' hv' hs
  cases receiver with
  | none => exact hne h
  | some receiver =>
    cases receiver with
    | none => exact h.imp hm hm
    | some receiver =>
      simp only [Logged] at h ⊢
      split
      · next hst =>
        rw [hst] at h
        exact hne h
      · next hst =>
        rw [hst] at h
        exact hm h
      · next hst =>
        rw [hst] at h
        exact hm h

variable {state : BindingState} {call : Option (Call Path)}

theorem Logged.append_settled (h : Logged verdicts startup (some (some ⟨history,call⟩)))
    (hf : v.first = true ↔ history.state = .fresh) (hs : Settles history.state v.peer v.accepted state) :
    Logged (verdicts ++ [v]) startup (some (some ⟨{ history with state := state },none⟩)) := by
  simp only [Logged] at h ⊢
  cases hold : history.state with
  | fresh =>
    rw [hold] at h hs
    simp only [Settles] at hs
    cases ha : v.accepted with
    | true =>
      rw [ha,if_pos rfl] at hs
      subst hs
      intro v' hv' hst _
      rcases mem_append.mp hv' with hv' | hv'
      · exact absurd hst (h v' hv')
      · obtain rfl := mem_singleton.mp hv'
        exact ha
    | false =>
      rw [ha,if_neg (by simp)] at hs
      subst hs
      intro v' hv' hst
      rcases mem_append.mp hv' with hv' | hv'
      · exact absurd hst (h v' hv')
      · obtain rfl := mem_singleton.mp hv'
        exact ha
  | bound id =>
    rw [hold] at h hs hf
    obtain ⟨rfl,-⟩ := hs
    intro v' hv' hst hf'
    rcases mem_append.mp hv' with hv' | hv'
    · exact h v' hv' hst hf'
    · obtain rfl := mem_singleton.mp hv'
      cases hf.mp hf'
  | failed =>
    rw [hold] at h hs
    obtain ⟨ha,rfl⟩ := hs
    intro v' hv' hst
    rcases mem_append.mp hv' with hv' | hv'
    · exact h v' hv' hst
    · obtain rfl := mem_singleton.mp hv'
      exact ha

theorem World.Sound.verdict (h : w.Sound json ledger) {peer : Uuid} {accepted : Bool}
    (hr : w.receivers[startup]? = some (some ⟨history,call⟩)) (hs : Settles history.state peer accepted state)
    (ha : accepted = true → ∀ owned, history.directory = some owned → ledger owned.identity = some peer) :
    Sound json { w.settle startup history state with
      verdicts := w.verdicts ++ [⟨startup,history.directory.map OwnedDirectory.identity,
        history.state = .fresh,peer,accepted⟩] } ledger := by
  have hlt : startup < w.receivers.length := (List.getElem?_eq_some_iff.mp hr).1
  refine ⟨h.consistent,h.starts,?_,?_,?_⟩
  · intro other receiver' hr'
    change (w.receivers.set startup (some ⟨{ history with state := state },none⟩))[other]? = _ at hr'
    rw [getElem?_set] at hr'
    split at hr'
    · obtain rfl := inj (inj hr')
      refine ⟨?_,nofun⟩
      rintro rfl
      exact absurd hs Settles.ne_fresh
    · exact h.receivers other receiver' hr'
  · intro v hv hac inode hi
    rcases mem_append.mp hv with hv | hv
    · exact h.accepted v hv hac inode hi
    · obtain rfl := mem_singleton.mp hv
      obtain ⟨owned,ho,rfl⟩ := map_eq_some_iff.mp hi
      exact ha hac owned ho
  · intro other
    show Logged _ other (w.receivers.set startup (some ⟨{ history with state := state },none⟩))[other]?
    rw [getElem?_set]
    split
    · next hsame =>
      subst hsame
      have hl := h.logged startup
      rw [hr] at hl
      exact hl.append_settled (by simp) hs
    · next hne => exact (h.logged other).append_other hne

theorem getElem?_free (h : w.free? startup = some history) : w.receivers[startup]? = some (some ⟨history,none⟩) := by
  simp only [free?] at h
  split at h
  · next hr =>
    obtain rfl := inj h
    exact hr
  · cases h

end

section
variable {json} {paths} {w : World Path} {ledger : Ledger}

theorem sound_startTurn (h : w.Sound json ledger) (start : Nat) (fault : Fault) :
    ∃ ledger', (w.startTurn start fault).Sound json ledger' := by
  simp only [startTurn]
  split
  · exact ⟨ledger,h⟩
  next found program hst =>
  have hs := h.starts _ (mem_of_getElem? hst)
  have he : ∀ start' ∈ w.starts.eraseIdx start, start'.Sound json (w.fs,ledger) :=
    fun start' hm => h.starts start' (mem_of_mem_eraseIdx hm)
  split
  · next history hr => exact ⟨ledger,(h.withStarts he).push (hs.ensures.result hr history rfl)⟩
  · exact ⟨ledger,h.withStarts he⟩
  obtain ⟨ledger',hk,hen⟩ := hs.ensures.advance (Keeps.refl _ _) fault
  have hg := h.grows hk.grows
  refine ⟨ledger',hg.withStarts ?_⟩
  intro start' hm
  rcases mem_or_eq_of_mem_set hm with hm | rfl
  · exact hg.starts start' hm
  · exact ⟨hs.since.grows hk.grows,hen⟩

theorem sound_callTurn (h : w.Sound json ledger) (startup : Nat) (fault : Fault) :
    ∃ ledger', (w.callTurn startup fault).Sound json ledger' := by
  simp only [callTurn]
  split
  · next history found peer program hr =>
    have hs := h.receivers startup _ hr
    obtain ⟨hsn,he⟩ := hs.call _ rfl
    split
    · next result state hrs =>
      obtain ⟨hsl,ha⟩ := he.result hrs
      refine ⟨ledger,h.verdict hr hsl ?_⟩
      intro hok owned ho
      exact ha hok owned ho
    · obtain ⟨ledger',hk,he'⟩ := he.advance (Keeps.refl _ _) fault
      refine ⟨ledger',Sound.setReceiver (h.grows hk.grows) hr ⟨?_,?_⟩ rfl⟩
      · exact hs.free.grows hk.grows
      · rintro _ ⟨⟩
        exact ⟨hsn.grows hk.grows,he'⟩
  · next history found program hr =>
    have hs := h.receivers startup _ hr
    obtain ⟨hsn,he⟩ := hs.call _ rfl
    split
    · next result state hrs =>
      have hst : state = history.state := he.result hrs
      subst hst
      exact ⟨ledger,h.setReceiver hr ⟨hs.free,nofun⟩ rfl⟩
    · obtain ⟨ledger',hk,he'⟩ := he.advance (Keeps.refl _ _) fault
      refine ⟨ledger',Sound.setReceiver (h.grows hk.grows) hr ⟨?_,?_⟩ rfl⟩
      · exact hs.free.grows hk.grows
      · rintro _ ⟨⟩
        exact ⟨hsn.grows hk.grows,he'⟩
  · exact ⟨ledger,h⟩

theorem binding_database (fs : FileSystem Path) (inode : Nat) (primary identity : Option Entry) (other : Nat) :
    (fs.update inode fun directory => { directory with primary := primary, identity := identity }).binding other =
      fs.binding other := by
  rw [binding_update]
  split <;> rfl

theorem grows_database (inode : Nat) (primary identity : Option Entry) :
    Grows json (w.fs,ledger) (w.fs.update inode fun directory =>
      { directory with primary := primary, identity := identity },ledger) := by
  have hb := binding_database w.fs inode primary identity
  refine ⟨?_,fun _ _ h => h,fun _ _ h => h,?_,?_⟩
  · intro hc
    exact ⟨hc.given,fun other file hf => hc.committed other file (by rwa [← hb])⟩
  · intro other ho
    rwa [hb]
  · intro other hun hn
    exact hun (by rwa [← hb])

theorem consistent_restarted {fs : FileSystem Path} (h : Consistent json (fs,ledger)) (forgotten : Path → Bool)
    (cut : Nat → Cut) : Consistent json (fs.restarted forgotten cut,ledger) := by
  refine ⟨h.given,?_⟩
  intro inode file hf
  change (fs.binding inode).bind (fun entry => entry.cut (cut inode)) = some (.file file) at hf
  obtain ⟨entry,he,hct⟩ := bind_eq_some_iff.mp hf
  cases entry with
  | symlink | other => cases hct
  | file old =>
    have hold := h.committed inode old he
    simp only [Entry.cut] at hct
    split at hct
    · obtain ⟨⟩ := inj hct
      exact hold
    next hsy =>
    cases hc : cut inode with
    | kept =>
      simp only [hc] at hct
      obtain ⟨⟩ := inj hct
      exact hold
    | lost =>
      simp only [hc] at hct
      cases hct
    | first length =>
      simp only [hc] at hct
      obtain ⟨⟩ := inj hct
      obtain ⟨record,hs,hl⟩ | ⟨hs',-⟩ := hold
      · exact .inl ⟨record,( take_prefix length old.bytes).trans hs,hl⟩
      · exact absurd hs' hsy

theorem logged_restart {verdicts : List Verdict} {startup : Nat} {receiver : Option (Option (Receiver Path))}
    (h : Logged verdicts startup receiver) : Logged verdicts startup (receiver.map fun _ => (none : Option (Receiver Path))) := by
  cases receiver with
  | none => exact h
  | some receiver =>
    cases receiver with
    | none => exact h
    | some receiver =>
      simp only [Logged] at h
      simp only [map_some,Logged]
      split at h
      · exact .inl fun v hv hs => absurd hs (h v hv)
      · exact .inl h
      · exact .inr h

theorem sound_step [DecidableEq Path] (hj : json.Faithful) (h : w.Sound json ledger) (event : Event Path) :
    ∃ ledger', (w.step paths json event).Sound json ledger' := by
  cases event with
  | prepare path =>
    refine ⟨ledger,h.withStarts ?_⟩
    intro start hm
    rcases mem_append.mp hm with hm | hm
    · exact h.starts start hm
    · obtain rfl := mem_singleton.mp hm
      exact ⟨fun _ hb => hb,does_prepareReceiverHistory h.consistent⟩
  | inMemory => exact ⟨ledger,h.push nofun⟩
  | verifyOrBind startup peer =>
    simp only [step]
    split
    · exact ⟨ledger,h⟩
    next history hf =>
    have hr := getElem?_free hf
    have hs := h.receivers startup _ hr
    refine ⟨ledger,h.setReceiver hr ⟨hs.free,?_⟩ rfl⟩
    rintro _ ⟨⟩
    exact ⟨fun _ hb => hb,ensures_verifyOrBind hj h.consistent (fun _ hb => hb) hs.free⟩
  | expectedHistory startup =>
    simp only [step]
    split
    · exact ⟨ledger,h⟩
    next history hf =>
    have hr := getElem?_free hf
    have hs := h.receivers startup _ hr
    refine ⟨ledger,h.setReceiver hr ⟨hs.free,?_⟩ rfl⟩
    rintro _ ⟨⟩
    exact ⟨fun _ hb => hb,ensures_expectedHistory hj h.consistent⟩
  | startTurn start fault => exact sound_startTurn h start fault
  | callTurn startup fault => exact sound_callTurn h startup fault
  | database inode primary identity => exact ⟨ledger,h.grows (grows_database inode primary identity)⟩
  | restart forgotten cut =>
    refine ⟨ledger,consistent_restarted h.consistent forgotten cut,nofun,?_,
      h.accepted,?_⟩
    · intro startup receiver hr
      change (w.receivers.map fun _ => none)[startup]? = _ at hr
      rw [getElem?_map] at hr
      cases hold : w.receivers[startup]? with
      | none | some old => rw [hold] at hr; cases hr
    · intro startup
      show Logged w.verdicts startup (w.receivers.map fun _ => none)[startup]?
      rw [getElem?_map]
      exact logged_restart (h.logged startup)

def recorded (json : BindingJson) (fs : FileSystem Path) : Ledger := fun inode =>
  match fs.binding inode with
  | some (.file file) =>
    match json.fromSlice file.bytes with
    | .ok record => some record.upstreamHistoryId
    | .error _ => none
  | _ => none

theorem sound_boot (fs : FileSystem Path) : ∃ ledger, (boot fs).Sound json ledger := by
  refine ⟨recorded json fs,⟨?_,?_⟩,nofun,nofun,nofun,
    nofun⟩
  · intro inode hbd
    by_contra hge
    have hb : fs.binding inode = none := by
      rw [FileSystem.binding,fs.blank inode (not_lt.mp hge)]
      rfl
    exact hbd (by simp only [recorded,hb])
  · intro inode file hf
    change (fs.binding inode).map Entry.onDisk = some (.file file) at hf
    cases hold : fs.binding inode with
    | none => rw [hold] at hf; cases hf
    | some entry =>
      rw [hold] at hf
      cases entry with
      | symlink | other => cases hf
      | file old =>
        obtain ⟨⟩ := inj hf
        refine .inr ⟨rfl,?_⟩
        intro record hr
        simp only [recorded,hold]
        simp only at hr
        rw [hr]

theorem sound_run [DecidableEq Path] (hj : json.Faithful) {w : World Path} (h : ∃ ledger, w.Sound json ledger)
    (events : List (Event Path)) : ∃ ledger, (w.run paths json events).Sound json ledger := by
  induction events generalizing w with
  | nil => exact h
  | cons event events ih =>
    obtain ⟨ledger,hl⟩ := h
    exact ih (sound_step hj hl event)

theorem binding_step [DecidableEq Path] (h : w.Sound json ledger) {event : Event Path} {inode : Nat}
    (hexisting : w.Existing event inode) : (w.step paths json event).fs.binding inode = w.fs.binding inode := by
  obtain ⟨hne,hf,hrs⟩ := hexisting
  cases event with
  | prepare path | inMemory => rfl
  | verifyOrBind startup peer | expectedHistory startup =>
    simp only [step]
    split <;> rfl
  | startTurn start fault =>
    simp only [step,startTurn]
    split
    · rfl
    next found program hs =>
    have hsn := h.starts _ (mem_of_getElem? hs)
    split
    · rfl
    · rfl
    · obtain ⟨ledger',hk,-⟩ := hsn.ensures.advance (Keeps.refl _ _) fault
      exact hk.kept inode (hf found (by simp [found?,hs]))
  | callTurn startup fault =>
    simp only [step,callTurn]
    split
    · next history found peer program hr =>
      obtain ⟨-,he⟩ := (h.receivers startup _ hr).call _ rfl
      split
      · rfl
      · obtain ⟨ledger',hk,-⟩ := he.advance (Keeps.refl _ _) fault
        exact hk.kept inode (hf found (by simp [found?,hr]))
    · next history found program hr =>
      obtain ⟨-,he⟩ := (h.receivers startup _ hr).call _ rfl
      split
      · rfl
      · obtain ⟨ledger',hk,-⟩ := he.advance (Keeps.refl _ _) fault
        exact hk.kept inode (hf found (by simp [found?,hr]))
    · rfl
  | database other primary identity => exact binding_database w.fs other primary identity inode
  | restart forgotten cut =>
    show (w.fs.binding inode).bind (fun entry => entry.cut (cut inode)) = _
    cases hb : w.fs.binding inode with
    | none => rfl
    | some entry =>
      cases entry with
      | symlink | other => rfl
      | file file =>
        have hsy : file.synced = true := hrs file hb
        simp only [bind_some,Entry.cut,hsy,if_true]

/-- A directory is bound to one history at most, its record is never overwritten, and a startup whose first binding
failed accepts nobody: in any run, with any faults and restarts. -/
theorem receiver_binding [DecidableEq Path] (paths : PathOps Path) (json : BindingJson) (hjson : json.Faithful)
    (fs : FileSystem Path) (events : List (Event Path)) :
    let w := (World.boot fs).run paths json events
    (∀ v ∈ w.verdicts, ∀ v' ∈ w.verdicts, v.accepted = true → v'.accepted = true →
      v.directory.isSome = true → v.directory = v'.directory → v.peer = v'.peer) ∧
    (∀ event inode, w.Existing event inode → (w.step paths json event).fs.binding inode = w.fs.binding inode) ∧
    (∀ v ∈ w.verdicts, v.first = true → v.accepted = false →
      ∀ v' ∈ w.verdicts, v'.startup = v.startup → v'.accepted = false) := by
  intro w
  obtain ⟨ledger,h⟩ := @sound_run _ paths _ _ hjson _ (sound_boot fs) events
  refine ⟨?_,fun event inode hexisting => binding_step h hexisting,?_⟩
  · intro v hv v' hv' hacc hacc' hsome hsame
    obtain ⟨inode,hinode⟩ := isSome_iff_exists.mp hsome
    have hpeer : ledger inode = some v.peer := h.accepted v hv hacc inode hinode
    have hpeer' : ledger inode = some v'.peer := h.accepted v' hv' hacc' inode (hsame ▸ hinode)
    exact Option.some.inj (hpeer.symm.trans hpeer')
  · intro v hv hfirst hacc v' hv' hstartup
    have hlogged := h.logged v.startup
    cases hreceiver : w.receivers[v.startup]? with
    | none =>
      rw [hreceiver] at hlogged
      exact absurd rfl (hlogged v hv)
    | some receiver =>
      rw [hreceiver] at hlogged
      exact hlogged.none_accepted hv hfirst hacc rfl v' hv' hstartup

end
end

/-! A receiver binds, restarts, accepts its history again and refuses another one. -/

def sampleRecord : BindingRecord := ⟨1,7,ascii "primary1".toList⟩

def sampleText : Bytes := ascii <| String.toList <|
  "\x7b\"format\":1,\"upstream_history_id\":\"00000000-0000-0000-0000-000000000007\"," ++
    "\"storage_identity\":\"primary1\"\x7d"

def sampleJson : BindingJson where
  toVec record := if record = sampleRecord then sampleText else []
  fromSlice bytes :=
    if bytes = sampleText ∨ bytes = sampleText ++ [10] then .ok sampleRecord else .error "expected value"

theorem sampleJson_faithful : sampleJson.Faithful := by
  intro record start record' hs hr
  simp only [sampleJson] at hr
  split at hr
  · next htx =>
    obtain rfl := Except.ok.inj hr
    by_contra hne
    have hsh : start <+: [10] := by
      simpa only [BindingJson.bytes,sampleJson,if_neg (Ne.symm hne),nil_append] using hs
    have hl : start.length ≤ 1 := hsh.length_le
    have hln : 1 < sampleText.length := by decide +kernel
    rcases htx with rfl | rfl
    · exact absurd hl (not_le.mpr hln)
    · rw [length_append] at hl
      omega
  · cases hr

def samplePaths : PathOps Nat := ⟨fun _ => false,fun _ => true,id,List.range⟩

def sampleFileSystem : FileSystem Nat where
  symlinked _ := false
  nodes path := if path = 0 then some (.directory 0) else none
  directories _ := Directory.empty
  nextInode := 1
  allocated := by
    intro path inode h
    split at h
    · obtain ⟨⟩ := inj h
      exact Nat.one_pos
    · cases h
  blank _ _ := rfl

def sampleEvents : List (Event Nat) :=
  [.prepare 1] ++ List.replicate 12 (.startTurn 0 none) ++
    [.database 1 none (some (.file ⟨5,1,ascii "primary1\n".toList,true⟩)),.verifyOrBind 0 7] ++
    List.replicate 16 (.callTurn 0 none) ++ [.restart (fun _ => false) fun _ => .kept,.prepare 1] ++
    List.replicate 19 (.startTurn 0 none) ++ [.verifyOrBind 1 7] ++ List.replicate 14 (.callTurn 1 none) ++
    [.verifyOrBind 1 8,.callTurn 1 none]

theorem receiver_binding_restarted :
    let w := (World.boot sampleFileSystem).run samplePaths sampleJson sampleEvents
    w.verdicts = [⟨0,some 1,true,7,true⟩,⟨1,some 1,false,7,true⟩,⟨1,some 1,false,8,false⟩] ∧
      ∀ v ∈ w.verdicts, ∀ v' ∈ w.verdicts, v.accepted = true → v'.accepted = true →
        v.directory.isSome = true → v.directory = v'.directory → v.peer = v'.peer :=
  ⟨by decide +kernel,(receiver_binding samplePaths sampleJson sampleJson_faithful sampleFileSystem sampleEvents).1⟩

end HeliosNano.Replication.History
