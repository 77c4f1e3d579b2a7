import Mathlib.Data.List.Infix

namespace HeliosNano.Foundation
open List
variable {α : Type*} [DecidableEq α]

def commonLen : List α → List α → Nat
  | a::as, b::bs => if a = b then commonLen as bs + 1 else 0
  | _, _ => 0

@[simp] theorem commonLen_nil_left (q : List α) : commonLen [] q = 0 := by
  rw [commonLen]
  simp

@[simp] theorem commonLen_nil_right (p : List α) : commonLen p [] = 0 := by
  cases p <;> rfl

theorem commonLen_append (shared p q : List α) : commonLen (shared ++ p) (shared ++ q) = shared.length + commonLen p q := by
  induction shared with
  | nil => simp
  | cons a rest ih =>
    rw [cons_append,cons_append,commonLen,if_pos rfl,ih,length_cons]
    omega

theorem exists_common (p q : List α) : ∃ shared left right, p = shared ++ left ∧ q = shared ++ right ∧
    commonLen p q = shared.length ∧ ∀ x ∈ left.head?, ∀ y ∈ right.head?, x ≠ y := by
  induction p generalizing q with
  | nil => exact ⟨[],[],q,rfl,rfl,by simp,by simp⟩
  | cons a as ih =>
    cases q with
    | nil => exact ⟨[],a::as,[],rfl,rfl,by simp,by simp⟩
    | cons b bs =>
      by_cases hab : a = b
      · subst hab
        obtain ⟨shared,left,right,rfl,rfl,hl,hp⟩ := ih bs
        exact ⟨a::shared,left,right,rfl,rfl,by simp [commonLen,hl],hp⟩
      · exact ⟨[],a::as,b::bs,rfl,rfl,by simp [commonLen,hab],by simpa using hab⟩

theorem commonLen_le_left (p q : List α) : commonLen p q ≤ p.length := by
  obtain ⟨shared,left,right,hp,-,hl,-⟩ := exists_common p q
  rw [hl,hp,length_append]
  omega

theorem length_take_commonLen (p q : List α) : (p.take (commonLen p q)).length = commonLen p q :=
  length_take_of_le (commonLen_le_left p q)

theorem commonLen_le_right (p q : List α) : commonLen p q ≤ q.length := by
  obtain ⟨shared,left,right,-,hq,hl,-⟩ := exists_common p q
  rw [hl,hq,length_append]
  omega

theorem getElem?_commonLen_ne {p q : List α} {x : α} (hp : p[commonLen p q]? = some x) : q[commonLen p q]? ≠ some x := by
  obtain ⟨shared,left,right,rfl,rfl,hl,hpr⟩ := exists_common p q
  rw [hl,getElem?_append_right (Nat.le_refl _),Nat.sub_self,← head?_eq_getElem?] at hp ⊢
  exact fun hq => hpr x hp x hq rfl

theorem length_le_commonLen_iff (p q : List α) : p.length ≤ commonLen p q ↔ p <+: q := by
  constructor
  · intro h
    obtain ⟨shared,left,right,rfl,rfl,hln,-⟩ := exists_common p q
    rw [hln,length_append] at h
    have hl : left = [] := eq_nil_of_length_eq_zero (by omega)
    rw [hl,append_nil]
    exact prefix_append shared right
  · rintro ⟨rest,rfl⟩
    have h := commonLen_append p [] rest
    rw [append_nil] at h
    omega

theorem commonLen_take (k : Nat) (p q : List α) : commonLen (p.take k) q = min k (commonLen p q) := by
  induction k generalizing p q with
  | zero => simp
  | succ k ih =>
    cases p with
    | nil => simp
    | cons a as =>
      cases q with
      | nil => simp
      | cons b bs =>
        rw [take_succ_cons,commonLen,commonLen,ih]
        split <;> omega

theorem commonLen_drop {k : Nat} {p q : List α} (h : k ≤ commonLen p q) :
    k + commonLen (p.drop k) (q.drop k) = commonLen p q := by
  induction k generalizing p q with
  | zero => simp
  | succ k ih =>
    cases p with
    | nil => simp at h
    | cons a as =>
      cases q with
      | nil => simp at h
      | cons b bs =>
        rw [commonLen] at h ⊢
        split at h
        next hab =>
          have hrest := ih (Nat.le_of_succ_le_succ h)
          rw [if_pos hab,drop_succ_cons,drop_succ_cons]
          omega
        · omega

end HeliosNano.Foundation
