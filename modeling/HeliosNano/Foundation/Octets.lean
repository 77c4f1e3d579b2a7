import Mathlib.Algebra.Group.Nat.Defs
import Mathlib.Algebra.GroupWithZero.Nat
import Mathlib.Data.List.Forall2
import Mathlib.Data.Nat.Basic

namespace HeliosNano.Foundation
open List

instance (priority := 2000) neZero_octets : NeZero 256 := ⟨by decide⟩

instance (priority := 2000) lawfulBEq_octet : LawfulBEq (Fin 256) := inferInstance

instance (priority := 2000) lawfulBEq_octets : LawfulBEq (List (Fin 256)) := inferInstance

/-- Every byte but the last has the high bit. Groups that add nothing are allowed. -/
def IsVarint : List (Fin 256) → Nat → Prop
  | [], _ => False
  | b::rest, n => if b.val < 128 then rest = [] ∧ n = b.val else ∃ m, n = b.val%128+128*m ∧ IsVarint rest m

def varint (n : Nat) : List (Fin 256) :=
  if n < 128 then [Fin.ofNat 256 n] else Fin.ofNat 256 (n%128+128) :: varint (n/128)

theorem isVarint_varint (n : Nat) : IsVarint (varint n) n := by
  induction n using Nat.strongRecOn with
  | _ n ih =>
    rw [varint]
    split
    next hlt =>
      have hv : (Fin.ofNat 256 n).val = n := Nat.mod_eq_of_lt (by omega)
      rw [IsVarint,hv,if_pos hlt]
      exact ⟨rfl,rfl⟩
    · have hv : (Fin.ofNat 256 (n%128+128)).val = n%128+128 := Nat.mod_eq_of_lt (by omega)
      rw [IsVarint,hv,if_neg (by omega)]
      exact ⟨n/128,by omega,ih (n/128) (by omega)⟩

theorem length_varint_le (k n : Nat) (h : n < 128^(k+1)) : (varint n).length ≤ k+1 := by
  induction k generalizing n with
  | zero =>
    rw [varint,if_pos (by simpa using h)]
    exact le_rfl
  | succ k ih =>
    rw [varint]
    split
    · exact Nat.le_add_left 1 _
    · exact Nat.succ_le_succ (ih (n/128) (Nat.div_lt_of_lt_mul (by rwa [Nat.pow_succ,Nat.mul_comm] at h)))

section
variable {α : Type} {R : α → List (Fin 256) → Prop}

/-- Bytes that are a part for each element, one after the other. -/
def Joined (R : α → List (Fin 256) → Prop) (l : List α) (bytes : List (Fin 256)) : Prop :=
  ∃ parts, Forall₂ R l parts ∧ bytes = parts.flatten

variable {bytes : List (Fin 256)}

theorem joined_nil_iff : Joined R [] bytes ↔ bytes = [] := by
  simp [Joined]

variable {l : List α}

theorem joined_cons_iff {a : α} : Joined R (a::l) bytes ↔ ∃ part more, R a part ∧ Joined R l more ∧ bytes = part ++ more := by
  constructor
  · rintro ⟨parts,hp,rfl⟩
    obtain ⟨part,more,ha,hl,rfl⟩ := forall₂_cons_left_iff.mp hp
    exact ⟨part,_,ha,⟨more,hl,rfl⟩,rfl⟩
  · rintro ⟨part,more,ha,⟨parts,hp,rfl⟩,rfl⟩
    exact ⟨part::parts,.cons ha hp,rfl⟩

variable {f : α → List (Fin 256)}

theorem joined_flatMap (h : ∀ a ∈ l, R a (f a)) : Joined R l (l.flatMap f) := by
  induction l with
  | nil => exact joined_nil_iff.mpr rfl
  | cons a l ih =>
    rw [flatMap_cons,joined_cons_iff]
    exact ⟨f a,l.flatMap f,h a mem_cons_self,ih fun b hb => h b (mem_cons_of_mem a hb),rfl⟩

theorem length_le_length_flatMap {a : α} (h : a ∈ l) : (f a).length ≤ (l.flatMap f).length := by
  obtain ⟨s,t,rfl⟩ := append_of_mem h
  simp only [flatMap_append,flatMap_cons,length_append]
  omega

end
end HeliosNano.Foundation
