import Mathlib.Logic.Basic

/-! Programs that share a state and take turns on it, one operation of one of them at a time. The rules say what a
program ensures whatever the others do in between; a ghost beside the state says what the programs are there for. -/
namespace HeliosNano.Foundation

/-- A result, or an operation and what follows on its answer. What else an operation depends on is its input. -/
inductive Program (σ ι α : Type) : Type 1
  | done (result : α)
  | ask {β : Type} (operation : ι → σ → β × σ) (next : β → Program σ ι α)

namespace Program
variable {σ ι α β : Type}

def bind : Program σ ι α → (α → Program σ ι β) → Program σ ι β
  | .done a, f => f a
  | .ask operation next, f => .ask operation fun answer => (next answer).bind f

instance : Monad (Program σ ι) where
  pure := .done
  bind := Program.bind

theorem id_map (x : Program σ ι α) : id <$> x = x := by
  induction x with
  | done a => rfl
  | ask operation next ih => exact congrArg (Program.ask operation) (funext ih)

theorem bind_assoc {δ : Type} (x : Program σ ι α) (f : α → Program σ ι β) (g : β → Program σ ι δ) :
    x >>= f >>= g = x >>= fun a => f a >>= g := by
  induction x with
  | done a => rfl
  | ask operation next ih => exact congrArg (Program.ask operation) (funext ih)

instance : LawfulMonad (Program σ ι) := LawfulMonad.mk' _ id_map (fun _ _ => rfl) bind_assoc

def perform (operation : ι → σ → β × σ) : Program σ ι β := .ask operation .done

/-- One turn of a program; one that is done leaves everything as it is. -/
def advance (input : ι) (s : σ) : Program σ ι α → Program σ ι α × σ
  | .done a => (.done a,s)
  | .ask operation next => (next (operation input s).1,(operation input s).2)

def result? : Program σ ι α → Option α
  | .done a => some a
  | .ask _ _ => none

end Program

/-- What a program may rely on between its turns. -/
structure Rely (τ : Type) where
  rel : τ → τ → Prop
  refl : ∀ t, rel t t
  trans : ∀ {t u v}, rel t u → rel u v → rel t v

section
variable {σ ι γ α β ε : Type} (rely : Rely (σ × γ)) (guarantee : σ × γ → σ × γ → Prop)

/-- Each turn keeps the guarantee, for some next value of the ghost, and the result has the property. -/
def Ensures : Program σ ι α → (α → σ × γ → Prop) → σ × γ → Prop
  | .done a, Q, s => ∀ s', rely.rel s s' → Q a s'
  | .ask operation next, Q, s => ∀ s', rely.rel s s' → ∀ input,
      ∃ g, guarantee s' ((operation input s'.1).2,g) ∧
        Ensures (next (operation input s'.1).1) Q ((operation input s'.1).2,g)

variable {rely guarantee}
variable {x : Program σ ι α} {s : σ × γ} {Q : α → σ × γ → Prop}

theorem Ensures.later {s' : σ × γ} (h : Ensures rely guarantee x Q s) (hs : rely.rel s s') : Ensures rely guarantee x Q s' := by
  cases x with
  | done a | ask operation next =>
    intro s'' hs'
    exact h s'' (rely.trans hs hs')

theorem Ensures.mono {x : Program σ ι α} {Q Q' : α → σ × γ → Prop} {s : σ × γ} (h : Ensures rely guarantee x Q s)
    (hQ : ∀ a s', Q a s' → Q' a s') : Ensures rely guarantee x Q' s := by
  induction x generalizing s with
  | done a =>
    intro s' hs
    exact hQ a s' (h s' hs)
  | ask operation next ih =>
    intro s' hs input
    obtain ⟨g,hg,hn⟩ := h s' hs input
    exact ⟨g,hg,ih _ hn⟩

theorem Ensures.bind {f : α → Program σ ι β} {Q : β → σ × γ → Prop}
    (h : Ensures rely guarantee x (fun a s' => Ensures rely guarantee (f a) Q s') s) : Ensures rely guarantee (x >>= f) Q s := by
  induction x generalizing s with
  | done a => exact h s (rely.refl s)
  | ask operation next ih =>
    intro s' hs input
    obtain ⟨g,hg,hn⟩ := h s' hs input
    exact ⟨g,hg,ih _ hn⟩

theorem Ensures.advance (h : Ensures rely guarantee x Q s) (hr : guarantee s s) (input : ι) :
    ∃ g, guarantee s ((x.advance input s.1).2,g) ∧
      Ensures rely guarantee (x.advance input s.1).1 Q ((x.advance input s.1).2,g) := by
  cases x with
  | done a => exact ⟨s.2,hr,h⟩
  | ask operation next => exact h s (rely.refl s) input

theorem Ensures.result (h : Ensures rely guarantee x Q s) {a : α} (ha : x.result? = some a) : Q a s := by
  cases x with
  | done a' =>
    obtain rfl : a' = a := Option.some.inj ha
    exact h s (rely.refl s)
  | ask operation next => cases ha

theorem Ensures.since (hg : ∀ s t, guarantee s t → rely.rel s t) (h : Ensures rely guarantee x Q s) :
    Ensures rely guarantee x (fun a t => rely.rel s t ∧ Q a t) s := by
  suffices hs : ∀ s₀, rely.rel s₀ s → Ensures rely guarantee x (fun a t => rely.rel s₀ t ∧ Q a t) s from hs s (rely.refl s)
  induction x generalizing s with
  | done a =>
    intro s₀ h₀ t ht
    exact ⟨rely.trans h₀ ht,h t ht⟩
  | ask operation next ih =>
    intro s₀ h₀ t ht input
    obtain ⟨g,hgt,hn⟩ := h t ht input
    exact ⟨g,hgt,ih _ hn s₀ (rely.trans (rely.trans h₀ ht) (hg _ _ hgt))⟩

variable (rely guarantee)

/-- For a program that can fail: if it does not, its result has the property. -/
def Holds (x : ExceptT ε (Program σ ι) α) (Q : α → σ × γ → Prop) (s : σ × γ) : Prop :=
  Ensures rely guarantee x.run (fun r s' => ∀ a, r = .ok a → Q a s') s

variable {rely guarantee}

theorem holds_pure {a : α} (h : ∀ s', rely.rel s s' → Q a s') :
    Holds rely guarantee (pure a : ExceptT ε (Program σ ι) α) Q s := by
  intro s' hs a' ha
  obtain rfl : a = a' := Except.ok.inj ha
  exact h s' hs

theorem holds_throw {e : ε} : Holds rely guarantee (throw e : ExceptT ε (Program σ ι) α) Q s := by
  intro s' _ a ha
  cases ha

variable {x : ExceptT ε (Program σ ι) α}

theorem Holds.mono {Q Q' : α → σ × γ → Prop} {s : σ × γ}
    (h : Holds rely guarantee x Q s) (hQ : ∀ a s', Q a s' → Q' a s') : Holds rely guarantee x Q' s :=
  Ensures.mono h fun _ s' hr a ha => hQ a s' (hr a ha)

theorem Holds.bind {f : α → ExceptT ε (Program σ ι) β} {Q : β → σ × γ → Prop}
    (h : Holds rely guarantee x (fun a s' => Holds rely guarantee (f a) Q s') s) : Holds rely guarantee (x >>= f) Q s := by
  refine Ensures.bind (Ensures.mono h ?_)
  intro r s' hr
  cases r with
  | ok a => exact hr a rfl
  | error e =>
    intro s'' _ a ha
    cases ha

theorem Holds.tryCatch {f : ε → ExceptT ε (Program σ ι) α} (hQ : ∀ a t t', rely.rel t t' → Q a t → Q a t')
    (hx : Holds rely guarantee x Q s) (hf : ∀ e t, Holds rely guarantee (f e) Q t) : Holds rely guarantee (tryCatch x f) Q s := by
  refine Ensures.bind (Ensures.mono hx ?_)
  intro r s' hr
  cases r with
  | ok a =>
    intro s'' hs a' ha
    obtain rfl : a = a' := Except.ok.inj ha
    exact hQ a s' s'' hs (hr a rfl)
  | error e => exact hf e s'

theorem holds_perform {operation : ι → σ → Except ε β × σ} {Q : β → σ × γ → Prop}
    (h : ∀ s', rely.rel s s' → ∀ input, ∃ g, guarantee s' ((operation input s'.1).2,g) ∧
      ∀ a, (operation input s'.1).1 = .ok a → ∀ s'', rely.rel ((operation input s'.1).2,g) s'' → Q a s'') :
    Holds rely guarantee (ExceptT.mk (Program.perform operation)) Q s := by
  intro s' hs input
  obtain ⟨g,hg,hQ⟩ := h s' hs input
  refine ⟨g,hg,?_⟩
  intro s'' hs' a ha
  exact hQ a ha s'' hs'

end
end HeliosNano.Foundation
