import Mathlib.Data.List.Nodup
import Mathlib.Data.List.Perm.Basic

namespace HeliosNano.Foundation
open List Function
variable {Manner α : Type*} (keep : Manner → α → α → α)

/-- What is kept after the arrivals, each of which comes in some manner. -/
def settle : List (Manner × α) → Option α
  | [] => none
  | (_,a)::rest => some (rest.foldl (fun kept arrival => keep arrival.1 kept arrival.2) a)

/-- One element stays against another, whichever of them comes first and in every manner. -/
def Prevails (m a : α) : Prop := ∀ manner, keep manner m a = m ∧ keep manner a m = m

variable {keep} (hpick : ∀ manner a b, keep manner a b = a ∨ keep manner a b = b)
include hpick

theorem foldl_mem (a : α) (rest : List (Manner × α)) :
    rest.foldl (fun kept arrival => keep arrival.1 kept arrival.2) a ∈ a :: rest.map Prod.snd := by
  induction rest generalizing a with
  | nil => simp
  | cons arrival rest ih =>
    have hm := ih (keep arrival.1 a arrival.2)
    simp only [foldl_cons,map_cons,mem_cons] at hm ⊢
    rcases hm with heq | hrest
    · rw [heq]
      rcases hpick arrival.1 a arrival.2 with h | h
      · exact .inl h
      · exact .inr (.inl h)
    · exact .inr (.inr hrest)

variable {rest : List (Manner × α)} {m a : α}

omit hpick in
theorem foldl_prevails (h : ∀ a ∈ rest.map Prod.snd, a ≠ m → Prevails keep m a)
    (hm : m ∉ rest.map Prod.snd) : rest.foldl (fun kept arrival => keep arrival.1 kept arrival.2) m = m := by
  induction rest with
  | nil => rfl
  | cons arrival rest ih =>
    obtain ⟨ha,hrest⟩ := forall_mem_cons.mp h
    obtain ⟨hne,hm⟩ := not_or.mp (mem_cons.not.mp hm)
    rw [foldl_cons,(ha (Ne.symm hne) arrival.1).1]
    exact ih hrest hm

theorem foldl_reaches (hnd : (a :: rest.map Prod.snd).Nodup)
    (hm : m ∈ a :: rest.map Prod.snd) (h : ∀ b ∈ a :: rest.map Prod.snd, b ≠ m → Prevails keep m b) :
    rest.foldl (fun kept arrival => keep arrival.1 kept arrival.2) a = m := by
  induction rest generalizing a with
  | nil => exact (mem_singleton.mp hm).symm
  | cons arrival rest ih =>
    obtain ⟨ha,hnd'⟩ := nodup_cons.mp hnd
    obtain ⟨hne,ha'⟩ := not_or.mp (mem_cons.not.mp ha)
    obtain ⟨har,hrest⟩ := nodup_cons.mp hnd'
    obtain ⟨hpa,hp⟩ := forall_mem_cons.mp h
    obtain ⟨hpr,hp⟩ := forall_mem_cons.mp hp
    rw [foldl_cons]
    by_cases hma : m = a
    · subst hma
      rw [(hpr (Ne.symm hne) arrival.1).1]
      exact foldl_prevails hp ha'
    · by_cases hmb : m = arrival.2
      · subst hmb
        rw [(hpa (Ne.symm hma) arrival.1).2]
        exact foldl_prevails hp har
      · have hin : m ∈ rest.map Prod.snd :=
          (mem_cons.mp ((mem_cons.mp hm).resolve_left hma)).resolve_left hmb
        rcases hpick arrival.1 a arrival.2 with heq | heq
        · rw [heq]
          exact ih (nodup_cons.mpr ⟨ha',hrest⟩) (mem_cons_of_mem _ hin)
            (forall_mem_cons.mpr ⟨hpa,hp⟩)
        · rw [heq]
          exact ih (nodup_cons.mpr ⟨har,hrest⟩) (mem_cons_of_mem _ hin)
            (forall_mem_cons.mpr ⟨hpr,hp⟩)

omit hpick in
theorem exists_perm_cons {l : List α} (ha : a ∈ l) : ∃ rest, l.Perm (a::rest) := by
  obtain ⟨before,after,rfl⟩ := append_of_mem ha
  exact ⟨before ++ after,perm_middle⟩

theorem settle_eq_iff [Nonempty Manner] {entries : List α} (hnd : entries.Nodup) :
    (∀ arrivals : List (Manner × α), (arrivals.map Prod.snd).Perm entries → settle keep arrivals = some m) ↔
      m ∈ entries ∧ ∀ a ∈ entries, a ≠ m → Prevails keep m a := by
  constructor
  · intro h
    obtain ⟨manner₀⟩ := ‹Nonempty Manner›
    have hm : m ∈ entries := by
      have hal := h (entries.map fun a => (manner₀,a)) (by simp [comp_def])
      cases entries with
      | nil => cases hal
      | cons a rest =>
        simp only [map_cons,settle,Option.some.injEq] at hal
        have := foldl_mem hpick a (rest.map fun a => (manner₀,a))
        rw [hal] at this
        simpa [comp_def] using this
    refine ⟨hm,fun a ha hne manner => ?_⟩
    obtain ⟨rest,hrest⟩ : ∃ rest, entries.Perm (m::a::rest) := by
      obtain ⟨rest₁,hr₁⟩ := exists_perm_cons hm
      have ha₁ : a ∈ rest₁ := (mem_cons.mp (hr₁.subset ha)).resolve_left hne
      obtain ⟨rest,hrest⟩ := exists_perm_cons ha₁
      exact ⟨rest,hr₁.trans (hrest.cons m)⟩
    have hnodup' := hrest.nodup_iff.mp hnd
    simp only [nodup_cons,mem_cons,not_or] at hnodup'
    -- If the other one stays, the kept element is never seen again.
    have hl : ∀ first second : α, (first = m ∧ second = a) ∨ (first = a ∧ second = m) →
        keep manner first second ≠ a := by
      intro first second hpa heq
      have hp : (((manner,first)::(manner,second) :: rest.map fun b => (manner,b)).map Prod.snd).Perm entries := by
        simp only [map_cons,map_map,comp_def,map_id']
        rcases hpa with ⟨rfl,rfl⟩ | ⟨rfl,rfl⟩
        · exact hrest.symm
        · exact (List.Perm.swap _ _ _).trans hrest.symm
      have hal := h _ hp
      simp only [settle,foldl_cons,heq,Option.some.injEq] at hal
      have hmm := foldl_mem hpick a (rest.map fun b => (manner,b))
      rw [hal] at hmm
      simp only [map_map,comp_def,map_id',mem_cons] at hmm
      rcases hmm with heq | hmm
      · exact hne heq.symm
      · exact hnodup'.1.2 hmm
    exact ⟨(hpick manner m a).resolve_right (hl m a (.inl ⟨rfl,rfl⟩)),
      (hpick manner a m).resolve_left (hl a m (.inr ⟨rfl,rfl⟩))⟩
  · rintro ⟨hm,hpr⟩ arrivals hp
    cases arrivals with
    | nil =>
      rw [← hp.mem_iff] at hm
      cases hm
    | cons arrival rest =>
      simp only [settle,Option.some.injEq]
      exact foldl_reaches hpick (hp.nodup_iff.mpr hnd) (hp.mem_iff.mpr hm) fun b hb =>
        hpr b (hp.mem_iff.mp hb)

end HeliosNano.Foundation
