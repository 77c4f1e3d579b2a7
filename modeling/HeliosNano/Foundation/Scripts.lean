import Mathlib.Logic.Basic

/-! Scripts that call on a store and go on with its answers, and what is known of them from what is known of each call. -/
namespace HeliosNano.Foundation

/-- A script ends with a result or makes a call. -/
inductive Script (Call : Type) (Answer : Call → Type) (α : Type)
  | done (a : α)
  | call (c : Call) (next : Answer c → Script Call Answer α)

namespace Script
variable {Call : Type} {Answer : Call → Type} {α β σ τ : Type}

def bind : Script Call Answer α → (α → Script Call Answer β) → Script Call Answer β
  | .done a, f => f a
  | .call c next, f => .call c fun answer => (next answer).bind f

instance : Monad (Script Call Answer) where
  pure := .done
  bind := bind

def ask (c : Call) : Script Call Answer (Answer c) := .call c .done

section
variable (step : σ → (c : Call) → σ × Option (Answer c)) (ok : σ → Call → Prop)

/-- The store after a script, and its result. A call that does not return ends the script. -/
def run : Script Call Answer α → σ → σ × Option α
  | .done a, s => (s,some a)
  | .call c next, s =>
    match step s c with
    | (s',some answer) => (next answer).run s'
    | (s',none) => (s',none)

def After {γ : Type} (p : γ → σ → Prop) : σ × Option γ → Prop
  | (s',some answer) => p answer s'
  | (_,none) => True

instance {γ : Type} (p : γ → σ → Prop) [∀ answer s', Decidable (p answer s')] : (result : σ × Option γ) → Decidable (After p result)
  | (s',some answer) => inferInstanceAs (Decidable (p answer s'))
  | (_,none) => .isTrue trivial

/-- Every call that is made is allowed in the state that it meets. -/
def Allowed : Script Call Answer α → σ → Prop
  | .done _, _ => True
  | .call c next, s => ok s c ∧ After (fun answer s' => (next answer).Allowed s') (step s c)

def decideAllowed [∀ s c, Decidable (ok s c)] : (p : Script Call Answer α) → (s : σ) → Decidable (p.Allowed step ok s)
  | .done _, _ => .isTrue trivial
  | .call _ next, _ =>
    have : ∀ answer s', Decidable ((next answer).Allowed step ok s') := fun answer s' => (next answer).decideAllowed s'
    inferInstanceAs (Decidable (_ ∧ _))

instance [∀ s c, Decidable (ok s c)] (p : Script Call Answer α) (s : σ) : Decidable (p.Allowed step ok s) :=
  decideAllowed step ok p s

end

section
variable {does : τ → (c : Call) → Answer c → τ → Prop} {post post' : α → τ → Prop} {t : τ}

/-- What is known of a result and the state, where a call is known to lead from a state to an answer and a state. -/
def Post (does : τ → (c : Call) → Answer c → τ → Prop) : Script Call Answer α → τ → (α → τ → Prop) → Prop
  | .done a, t, post => post a t
  | .call c next, t, post => ∀ answer t', does t c answer t' → (next answer).Post does t' post

variable {p : Script Call Answer α}

theorem post_bind {f : α → Script Call Answer β} {post : β → τ → Prop} :
    (p >>= f).Post does t post ↔ p.Post does t fun a t' => (f a).Post does t' post := by
  induction p generalizing t with
  | done a => exact Iff.rfl
  | call c next ih => exact forall_congr' fun answer => forall_congr' fun t' => imp_congr_right fun _ => ih answer

theorem post_map {f : α → β} {post : β → τ → Prop} :
    (f <$> p).Post does t post ↔ p.Post does t fun a t' => post (f a) t' := post_bind

theorem Post.mono (h : p.Post does t post) (hi : ∀ a t', post a t' → post' a t') : p.Post does t post' := by
  induction p generalizing t with
  | done a => exact hi a t h
  | call c next ih => exact fun answer t' hd => ih answer (h answer t' hd)

theorem post_of_invariant (p : Script Call Answer α) {Inv : τ → Prop} (hk : ∀ t c answer t', Inv t → does t c answer t' → Inv t')
    (h : Inv t) : p.Post does t fun _ t' => Inv t' := by
  induction p generalizing t with
  | done a => exact h
  | call c next ih => exact fun answer t' hd => ih answer (hk t c answer t' h hd)

/-- A store whose allowed calls return and do what is known of them meets what is known of a script. -/
theorem Post.run {step : σ → (c : Call) → σ × Option (Answer c)} {ok : σ → Call → Prop} {R : σ → τ → Prop}
    (hs : ∀ s t c, R s t → ok s c → ∃ answer t', (step s c).2 = some answer ∧ does t c answer t' ∧ R (step s c).1 t')
    {s : σ} (hp : p.Post does t post) (h : R s t) (hal : p.Allowed step ok s) :
    ∃ a t', (p.run step s).2 = some a ∧ R (p.run step s).1 t' ∧ post a t' := by
  induction p generalizing s t with
  | done a => exact ⟨a,t,rfl,h,hp⟩
  | call c next ih =>
    obtain ⟨hok,hrest⟩ := hal
    obtain ⟨answer,t',ha,hd,hn⟩ := hs s t c h hok
    rw [Script.run]
    generalize step s c = result at ha hn hrest ⊢
    obtain ⟨s',answered⟩ := result
    obtain rfl := ha
    exact ih answer (hp answer t' hd) hn hrest

end
/-- A log of changes, the latest first, that leads from one state to another. -/
def Logged {γ : Type} (changes : γ → τ → τ → Prop) : List γ → τ → τ → Prop
  | [], start, now => now = start
  | change::older, start, now => ∃ before, Logged changes older start before ∧ changes change before now

end Script
end HeliosNano.Foundation
