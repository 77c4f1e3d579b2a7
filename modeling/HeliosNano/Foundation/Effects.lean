import Mathlib.Logic.Basic

/-! Programs that keep a state and can fail, and what holds of their results. -/
namespace HeliosNano.Foundation
variable {ε σ τ α β : Type}

/-- Of a run that succeeds `ok` holds, of one that fails `err`; the state is there in both. -/
def Post (x : EStateM ε σ α) (s : σ) (ok : α → σ → Prop) (err : ε → σ → Prop) : Prop :=
  match x s with
  | .ok a s' => ok a s'
  | .error e s' => err e s'

/-- A result that needs no state. -/
def fromExcept : Except ε α → EStateM ε σ α
  | .ok a => pure a
  | .error e => throw e

def zoom (get : τ → σ) (put : σ → τ → τ) (x : EStateM ε σ α) : EStateM ε τ α := fun t =>
  match x (get t) with
  | .ok a s => .ok a (put s t)
  | .error e s => .error e (put s t)

def finalState (x : EStateM ε σ α) (s : σ) : σ :=
  match x s with
  | .ok _ s' => s'
  | .error _ s' => s'

def outcome (x : EStateM ε σ α) (s : σ) : Except ε α :=
  match x s with
  | .ok a _ => .ok a
  | .error e _ => .error e

section
variable {x : EStateM ε σ α} {f : α → EStateM ε σ β} {s : σ} {ok ok' : α → σ → Prop} {err err' : ε → σ → Prop}

@[simp]
theorem post_pure {a : α} : Post (pure a : EStateM ε σ α) s ok err ↔ ok a s := Iff.rfl

@[simp]
theorem post_throw {e : ε} : Post (throw e : EStateM ε σ α) s ok err ↔ err e s := Iff.rfl

@[simp]
theorem post_get {ok : σ → σ → Prop} : Post (get : EStateM ε σ σ) s ok err ↔ ok s s := Iff.rfl

@[simp]
theorem post_modify {ok : Unit → σ → Prop} {f : σ → σ} : Post (modify f : EStateM ε σ Unit) s ok err ↔ ok () (f s) := Iff.rfl

theorem get_bind (g : σ → EStateM ε σ α) (s : σ) : (get >>= g) s = g s s := rfl

theorem throw_apply (e : ε) (s : σ) : (throw e : EStateM ε σ α) s = .error e s := rfl

@[simp]
theorem post_bind {ok : β → σ → Prop} : Post (x >>= f) s ok err ↔ Post x s (fun a s' => Post (f a) s' ok err) err := by
  simp only [Post,bind,EStateM.bind]
  cases x s <;> rfl

@[simp]
theorem post_map {g : α → β} {ok : β → σ → Prop} : Post (g <$> x) s ok err ↔ Post x s (fun a s' => ok (g a) s') err := by
  simp only [Post,Functor.map,EStateM.map]
  cases x s <;> rfl

theorem post_fromExcept {r : Except ε α} :
    Post (fromExcept r) s ok err ↔ (∀ a, r = .ok a → ok a s) ∧ ∀ e, r = .error e → err e s := by
  cases r with
  | ok a =>
    constructor
    · intro h
      refine ⟨?_,by simp⟩
      rintro _ ⟨⟩
      exact h
    · intro h
      exact h.1 a rfl
  | error e =>
    constructor
    · intro h
      refine ⟨by simp,?_⟩
      rintro _ ⟨⟩
      exact h
    · intro h
      exact h.2 e rfl

@[simp]
theorem post_zoom {get : τ → σ} {put : σ → τ → τ} {t : τ} {ok : α → τ → Prop} {err : ε → τ → Prop} :
    Post (zoom get put x) t ok err ↔ Post x (get t) (fun a s => ok a (put s t)) (fun e s => err e (put s t)) := by
  simp only [Post,zoom]
  cases x (get t) <;> rfl

theorem Post.of_ok {a : α} {s' : σ} (hx : x s = .ok a s') (h : ok a s') : Post x s ok err := by
  rw [Post,hx]
  exact h

theorem Post.of_error {e : ε} {s' : σ} (hx : x s = .error e s') (h : err e s') : Post x s ok err := by
  rw [Post,hx]
  exact h

theorem Post.congr {y : EStateM ε σ α} {t : σ} (h : Post y t ok err) (hxy : x s = y t) : Post x s ok err := by
  rw [Post,hxy]
  exact h

variable (h : Post x s ok err)
include h

theorem Post.mono (hok : ∀ a s', ok a s' → ok' a s') (he : ∀ e s', err e s' → err' e s') : Post x s ok' err' := by
  unfold Post at h ⊢
  cases hx : x s with
  | ok a s' =>
    rw [hx] at h
    exact hok a s' h
  | error e s' =>
    rw [hx] at h
    exact he e s' h

theorem Post.and (h' : Post x s ok' err') : Post x s (fun a s' => ok a s' ∧ ok' a s') (fun e s' => err e s' ∧ err' e s') := by
  unfold Post at h h' ⊢
  cases hx : x s with
  | ok a s' | error e s' =>
    rw [hx] at h h'
    exact ⟨h,h'⟩

theorem Post.and_not {p : Prop} (hp : p → Post x s (fun _ _ => True) (fun _ _ => False)) :
    Post x s ok (fun e s' => err e s' ∧ ¬ p) := by
  by_cases hh : p
  · refine (h.and (hp hh)).mono (fun _ _ hok => hok.1) ?_
    intro e s' he
    exact he.2.elim
  · exact h.mono (fun _ _ hok => hok) (fun e s' he => ⟨he,hh⟩)

omit h

theorem post_iff_outcome : Post x s ok err ↔ (∀ a, outcome x s = .ok a → ok a (finalState x s)) ∧
      ∀ e, outcome x s = .error e → err e (finalState x s) := by
  unfold Post outcome finalState
  cases x s <;> simp

end

/-- What the program does when it succeeds, it does in the same way from the image of a state. -/
def Natural (g : σ → σ) (x : EStateM ε σ α) : Prop := ∀ s a s', x s = .ok a s' → x (g s) = .ok a (g s')

section
variable {g : σ → σ} {x : EStateM ε σ α}

theorem natural_pure (a : α) : Natural g (pure a : EStateM ε σ α) := by
  rintro s _ s' ⟨⟩
  rfl

theorem natural_throw (e : ε) : Natural g (throw e : EStateM ε σ α) := by
  rintro s a s' ⟨⟩

theorem natural_modify {f : σ → σ} (h : ∀ s, f (g s) = g (f s)) : Natural g (modify f : EStateM ε σ Unit) := by
  rintro s _ _ ⟨⟩
  exact congrArg (EStateM.Result.ok ()) (h s)

theorem Natural.bind {f : α → EStateM ε σ β} (hx : Natural g x) (hf : ∀ a, Natural g (f a)) : Natural g (x >>= f) := by
  intro s b s' h
  simp only [Bind.bind,EStateM.bind] at h ⊢
  cases hr : x s with
  | error e s₁ =>
    rw [hr] at h
    cases h
  | ok a s₁ =>
    rw [hr] at h
    rw [hx s a s₁ hr]
    exact hf a s₁ b s' h

theorem natural_fromExcept (r : Except ε α) : Natural g (fromExcept r : EStateM ε σ α) := by
  cases r with
  | ok a => exact natural_pure a
  | error e => exact natural_throw e

theorem natural_zoom {get : τ → σ} {put : σ → τ → τ} {h : τ → τ} (hx : Natural g x) (hg : ∀ t, get (h t) = g (get t))
    (hp : ∀ s t, put (g s) (h t) = h (put s t)) : Natural h (zoom get put x) := by
  intro t a t' hr
  simp only [zoom] at hr ⊢
  cases hx' : x (get t) with
  | error e s =>
    rw [hx'] at hr
    cases hr
  | ok b s =>
    rw [hx'] at hr
    cases hr
    rw [hg,hx (get t) a s hx']
    exact congrArg (EStateM.Result.ok a) (hp s t)

end

-- the rules above are the only way in: a program is never run to see what holds of it
attribute [irreducible] Post

end HeliosNano.Foundation
