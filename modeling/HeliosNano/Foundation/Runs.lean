import Mathlib.Tactic.ByContra

namespace HeliosNano.Foundation
open List
variable {State Action : Type*}

/-- The state reached from a state by taking the actions in order. -/
def run (step : State → Action → State) (s : State) (actions : List Action) : State :=
  actions.foldl step s

/-- Every action meets the guard in the state in which it is taken. -/
def Guarded (step : State → Action → State) (ok : State → Action → Prop) : State → List Action → Prop
  | _, [] => True
  | s, a::rest => ok s a ∧ Guarded step ok (step s a) rest

def decideGuarded (step : State → Action → State) (ok : State → Action → Prop) [∀ s a, Decidable (ok s a)] :
    (s : State) → (actions : List Action) → Decidable (Guarded step ok s actions)
  | _, [] => inferInstanceAs (Decidable True)
  | s, a::rest => @instDecidableAnd _ _ inferInstance (decideGuarded step ok (step s a) rest)

instance (step : State → Action → State) (ok : State → Action → Prop) [∀ s a, Decidable (ok s a)] (s : State)
    (actions : List Action) : Decidable (Guarded step ok s actions) := decideGuarded step ok s actions

variable (step : State → Action → State) {ok : State → Action → Prop} (Inv : State → Prop)

@[simp] theorem run_nil (s : State) : run step s [] = s := rfl

@[simp] theorem run_cons (s : State) (a : Action) (rest : List Action) : run step s (a::rest) = run step (step s a) rest := rfl

theorem run_append (s : State) (first second : List Action) :
    run step s (first ++ second) = run step (run step s first) second := by
  simp [run]

variable {s : State} {actions : List Action}

theorem guarded_append {first second : List Action} : Guarded step ok s (first ++ second) ↔
      Guarded step ok s first ∧ Guarded step ok (run step s first) second := by
  induction first generalizing s with
  | nil => simp [Guarded]
  | cons a rest ih => simp [Guarded,ih,and_assoc]

theorem Guarded.and_forall {p : Action → Prop} (hg : Guarded step ok s actions) (hp : ∀ a ∈ actions, p a) :
    Guarded step (fun s a => ok s a ∧ p a) s actions := by
  induction actions generalizing s with
  | nil => trivial
  | cons a rest ih =>
    obtain ⟨ha,hrest⟩ := forall_mem_cons.mp hp
    exact ⟨⟨hg.1,ha⟩,ih hg.2 hrest⟩

theorem Guarded.and {ok' : State → Action → Prop} {s : State} {actions : List Action}
    (hg : Guarded step ok s actions) (hg' : Guarded step ok' s actions) :
    Guarded step (fun s a => ok s a ∧ ok' s a) s actions := by
  induction actions generalizing s with
  | nil => trivial
  | cons a rest ih => exact ⟨⟨hg.1,hg'.1⟩,ih hg.2 hg'.2⟩

theorem guarded_run_invariant (hst : ∀ s a, Inv s → ok s a → Inv (step s a)) (hs : Inv s) (hg : Guarded step ok s actions) :
    Inv (run step s actions) := by
  induction actions generalizing s with
  | nil => exact hs
  | cons a rest ih => exact ih (hst s a hs hg.1) hg.2

theorem run_invariant (hst : ∀ s a, Inv s → Inv (step s a)) (hs : Inv s)
    (actions : List Action) : Inv (run step s actions) := by
  induction actions generalizing s with
  | nil => exact hs
  | cons a rest ih => exact ih (hst s a hs)

theorem forall_run_invariant {p : Action → Prop} (hst : ∀ s a, Inv s → p a → Inv (step s a))
    (hs : Inv s) (hp : ∀ a ∈ actions, p a) : Inv (run step s actions) := by
  induction actions generalizing s with
  | nil => exact hs
  | cons a rest ih =>
    obtain ⟨ha,hrest⟩ := forall_mem_cons.mp hp
    exact ih (hst s a hs ha) hrest

/-- When every step off the guard breaks a property that the guarded steps keep, the
property holds of all states of a run exactly when the run is guarded. -/
theorem guarded_iff_forall_take {P : State → Prop} (hi : ∀ s, Inv s → P s) (hst : ∀ s a, Inv s → ok s a → Inv (step s a))
    (hb : ∀ s a, Inv s → ¬ok s a → ¬P (step s a)) (hs : Inv s) :
    Guarded step ok s actions ↔ ∀ n, P (run step s (actions.take n)) := by
  induction actions generalizing s with
  | nil => simp [Guarded,hi s hs]
  | cons a rest ih =>
    constructor
    · rintro ⟨ha,hrest⟩ n
      cases n with
      | zero => exact hi s hs
      | succ n => exact (ih (hst s a hs ha)).mp hrest n
    · intro h
      have ha : ok s a := by
        by_contra hn
        exact hb s a hs hn (h 1)
      exact ⟨ha,(ih (hst s a hs ha)).mpr fun n => h (n+1)⟩

end HeliosNano.Foundation
