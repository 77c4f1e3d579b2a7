import Mathlib.Data.List.Count
import Mathlib.Data.List.Infix

namespace HeliosNano.Foundation.Wildcards
open List
variable {α : Type*}

inductive Piece (α : Type*)
  | anyRun
  | any
  | only (a : α)
deriving DecidableEq

/-- A run takes its letters one by one. -/
inductive Spells (allowed : α → Prop) : List (Piece α) → List α → Prop
  | nil : Spells allowed [] []
  | only {ps t} (a : α) : Spells allowed ps t → Spells allowed (.only a :: ps) (a::t)
  | any {ps t a} : allowed a → Spells allowed ps t → Spells allowed (.any::ps) (a::t)
  | stop {ps t} : Spells allowed ps t → Spells allowed (.anyRun::ps) t
  | run {ps t a} : allowed a → Spells allowed (.anyRun::ps) t → Spells allowed (.anyRun::ps) (a::t)

section
variable {allowed : α → Prop} {ps : List (Piece α)} {t : List α}

theorem spells_nil_iff : Spells allowed [] t ↔ t = [] := by
  constructor
  · intro h
    cases h
    rfl
  · rintro rfl
    exact .nil

variable {a : α} {wider : α → Prop}

theorem spells_only_iff : Spells allowed (.only a :: ps) t ↔ ∃ s, t = a::s ∧ Spells allowed ps s := by
  constructor
  · intro h
    cases h with
    | only a hs => exact ⟨_,rfl,hs⟩
  · rintro ⟨s,rfl,hs⟩
    exact .only a hs

theorem spells_any_iff : Spells allowed (.any::ps) t ↔ ∃ a s, t = a::s ∧ allowed a ∧ Spells allowed ps s := by
  constructor
  · intro h
    cases h with
    | any ha hs => exact ⟨_,_,rfl,ha,hs⟩
  · rintro ⟨a,s,rfl,ha,hs⟩
    exact .any ha hs

theorem Spells.run_append {pre suf : List α} (hp : ∀ a ∈ pre, allowed a) (h : Spells allowed ps suf) :
    Spells allowed (.anyRun::ps) (pre ++ suf) := by
  induction pre with
  | nil => exact .stop h
  | cons a pre ih => exact .run (hp a mem_cons_self) (ih fun b hb => hp b (mem_cons_of_mem a hb))

theorem spells_anyRun_iff :
    Spells allowed (.anyRun::ps) t ↔ ∃ pre suf, t = pre ++ suf ∧ (∀ a ∈ pre, allowed a) ∧ Spells allowed ps suf := by
  constructor
  · intro h
    induction t with
    | nil =>
      cases h with
      | stop hs => exact ⟨[],[],rfl,by simp,hs⟩
    | cons a t ih =>
      cases h with
      | stop hs => exact ⟨[],a::t,rfl,by simp,hs⟩
      | run ha hs =>
        obtain ⟨pre,suf,rfl,hp,hsf⟩ := ih hs
        exact ⟨a::pre,suf,rfl,forall_mem_cons.mpr ⟨ha,hp⟩,hsf⟩
  · rintro ⟨pre,suf,rfl,hp,hsf⟩
    exact Spells.run_append hp hsf

theorem spells_anyRun_iff_suffix : Spells (fun _ : α => True) (.anyRun::ps) t ↔ ∃ s, s <:+ t ∧ Spells (fun _ => True) ps s := by
  rw [spells_anyRun_iff]
  constructor
  · rintro ⟨pre,suf,rfl,-,hs⟩
    exact ⟨suf,suffix_append pre suf,hs⟩
  · rintro ⟨s,⟨pre,rfl⟩,hs⟩
    exact ⟨pre,s,rfl,fun _ _ => trivial,hs⟩

theorem Spells.mono {weaker : α → Prop} (hle : ∀ a, allowed a → weaker a) (h : Spells allowed ps t) : Spells weaker ps t := by
  induction h with
  | nil => exact .nil
  | only a _ ih => exact .only a ih
  | any ha _ ih => exact .any (hle _ ha) ih
  | stop _ ih => exact .stop ih
  | run ha _ ih => exact .run (hle _ ha) ih

theorem Spells.of_forall (ht : ∀ a ∈ t, allowed a) (h : Spells wider ps t) : Spells allowed ps t := by
  induction h with
  | nil => exact .nil
  | only a _ ih => exact .only a (ih (forall_mem_cons.mp ht).2)
  | any _ _ ih => exact .any (forall_mem_cons.mp ht).1 (ih (forall_mem_cons.mp ht).2)
  | stop _ ih => exact .stop (ih ht)
  | run _ _ ih => exact .run (forall_mem_cons.mp ht).1 (ih (forall_mem_cons.mp ht).2)

theorem Spells.of_only (hps : .any ∉ ps ∧ .anyRun ∉ ps) (h : Spells wider ps t) : Spells allowed ps t := by
  induction h with
  | nil => exact .nil
  | only a _ ih =>
    exact .only a (ih ⟨fun hm => hps.1 (mem_cons_of_mem _ hm),fun hm => hps.2 (mem_cons_of_mem _ hm)⟩)
  | any _ _ _ => exact absurd mem_cons_self hps.1
  | stop _ _ | run _ _ _ => exact absurd mem_cons_self hps.2

def spelled [DecidableEq α] (allowed : α → Bool) : List (Piece α) → List α → Bool
  | [], t => t.isEmpty
  | .only a :: ps, t => t.head? = some a && spelled allowed ps t.tail
  | .any::ps, t => t.head?.any allowed && spelled allowed ps t.tail
  | .anyRun::ps, t =>
    (List.range (t.length+1)).any fun n => (t.take n).all allowed && spelled allowed ps (t.drop n)

theorem spelled_iff [DecidableEq α] {allowed : α → Bool} :
    spelled allowed ps t = true ↔ Spells (fun a => allowed a = true) ps t := by
  induction ps generalizing t with
  | nil => rw [spelled,List.isEmpty_iff,spells_nil_iff]
  | cons p ps ih =>
    cases p with
    | anyRun =>
      rw [spelled,any_eq_true,spells_anyRun_iff]
      constructor
      · rintro ⟨n,-,hn⟩
        rw [Bool.and_eq_true,all_eq_true,ih] at hn
        exact ⟨t.take n,t.drop n,(take_append_drop n t).symm,hn⟩
      · rintro ⟨pre,suf,rfl,hp,hs⟩
        refine ⟨pre.length,mem_range.mpr (by rw [length_append]; omega),?_⟩
        rw [take_left,drop_left,Bool.and_eq_true,all_eq_true,ih]
        exact ⟨hp,hs⟩
    | any =>
      rw [spelled,spells_any_iff,Bool.and_eq_true,ih]
      cases t with
      | nil | cons a t => simp
    | only a =>
      rw [spelled,spells_only_iff,Bool.and_eq_true,ih]
      cases t with
      | nil => simp
      | cons b t =>
        rw [head?_cons,decide_eq_true_iff,Option.some.injEq,tail_cons]
        constructor
        · rintro ⟨rfl,h⟩
          exact ⟨t,rfl,h⟩
        · rintro ⟨s,heq,h⟩
          cases heq
          exact ⟨rfl,h⟩

variable [DecidableEq α]

theorem Spells.count_le (a : α) (h : Spells allowed ps t) : ps.count (.only a) ≤ t.count a := by
  induction h with
  | nil => exact le_rfl
  | only b _ ih =>
    rw [count_cons,count_cons]
    simp only [beq_iff_eq,Piece.only.injEq]
    omega
  | any _ _ ih =>
    rw [count_cons_of_ne (by simp),count_cons]
    omega
  | stop _ ih => rwa [count_cons_of_ne (by simp)]
  | run _ _ ih => exact le_trans ih ((sublist_cons_self _ _).count_le a)

theorem Spells.count_eq (ha : ¬ allowed a) (h : Spells allowed ps t) : t.count a = ps.count (.only a) := by
  induction h with
  | nil => rfl
  | only b _ ih =>
    rw [count_cons,count_cons,ih]
    simp only [beq_iff_eq,Piece.only.injEq]
  | any hb _ ih =>
    have hne : ¬ _ = a := fun heq => ha (heq ▸ hb)
    rw [count_cons_of_ne hne,count_cons_of_ne (by simp),ih]
  | stop _ ih => rwa [count_cons_of_ne (by simp)]
  | run hb _ ih =>
    have hne : ¬ _ = a := fun heq => ha (heq ▸ hb)
    rwa [count_cons_of_ne hne]

theorem Spells.mem (hm : .only a ∈ ps) (h : Spells allowed ps t) : a ∈ t := by
  rw [← count_pos_iff]
  exact lt_of_lt_of_le (count_pos_iff.mpr hm) (h.count_le a)

end

def Piece.fill (x : α) : Piece α → α
  | .anyRun | .any => x
  | .only a => a

theorem spells_fill {allowed : α → Prop} {x : α} (hx : allowed x) (ps : List (Piece α)) :
    Spells allowed ps (ps.map (Piece.fill x)) := by
  induction ps with
  | nil => exact .nil
  | cons p ps ih =>
    cases p with
    | anyRun => exact .run hx (.stop ih)
    | any => exact .any hx ih
    | only a => exact .only a ih

variable {a : α} {ps : List (Piece α)}

theorem mem_fill {x : α} (h : a ∈ ps.map (Piece.fill x)) : a = x ∨ .only a ∈ ps := by
  obtain ⟨p,hp,rfl⟩ := mem_map.mp h
  cases p with
  | anyRun | any => exact .inl rfl
  | only a => exact .inr hp

theorem count_lt_count_fill [DecidableEq α] (h : .any ∈ ps ∨ .anyRun ∈ ps) :
    ps.count (.only a) < (ps.map (Piece.fill a)).count a := by
  induction ps with
  | nil => simp at h
  | cons p ps ih =>
    have hle : ps.count (.only a) ≤ (ps.map (Piece.fill a)).count a :=
      (@spells_fill α (fun _ => True) a trivial ps).count_le a
    cases p with
    | anyRun | any =>
      rw [map_cons,count_cons_of_ne (by simp),Piece.fill,count_cons_self]
      omega
    | only b =>
      have hlt := ih (by simpa using h)
      rw [map_cons,Piece.fill,count_cons,count_cons]
      simp only [beq_iff_eq,Piece.only.injEq]
      omega

end HeliosNano.Foundation.Wildcards
