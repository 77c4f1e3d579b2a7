import HeliosNano.Foundation.Utf8

namespace HeliosNano.Foundation
open List Option

def emitted : Option Utf8Pending → List (Fin 256) → List (Option Char)
  | _, [] => []
  | pending, b::rest => (nextByte pending b).1 ++ emitted (nextByte pending b).2 rest

def stateAfter : Option Utf8Pending → List (Fin 256) → Option Utf8Pending
  | pending, [] => pending
  | pending, b::rest => stateAfter (nextByte pending b).2 rest

def IsContinuation (b : Nat) : Prop := 0x80 ≤ b ∧ b ≤ 0xBF

def sequenceLength (lead : Nat) : Nat := if lead < 0xE0 then 2 else if lead < 0xF0 then 3 else 4

/-- A started sequence waits for continuation bytes, and its character will not be ASCII. -/
structure Utf8Pending.Sane (p : Utf8Pending) : Prop where
  low : 0x80 ≤ p.low
  high : p.high ≤ 0xBF
  remaining : p.remaining = 1 ∨ p.remaining = 2 ∨ p.remaining = 3
  large : 2 ≤ p.code*64+(p.low-0x80)
  last : p.remaining = 1 → 128 ≤ p.code*64+(p.low-0x80)

variable (pending : Option Utf8Pending)
include pending

theorem decodeUtf8From_cons (b : Fin 256) (rest : List (Fin 256)) :
    decodeUtf8From pending (b::rest) = (nextByte pending b).1 ++ decodeUtf8From (nextByte pending b).2 rest := by
  cases pending with
  | none | some p => rfl

theorem decodeUtf8From_append_eq (first second : List (Fin 256)) :
    decodeUtf8From pending (first ++ second) = emitted pending first ++ decodeUtf8From (stateAfter pending first) second := by
  induction first generalizing pending with
  | nil => rfl
  | cons b rest ih => rw [cons_append,decodeUtf8From_cons,ih,emitted,stateAfter,append_assoc]

theorem decodeUtf8From_eq_emitted (bytes : List (Fin 256)) :
    decodeUtf8From pending bytes = emitted pending bytes ++ decodeUtf8From (stateAfter pending bytes) [] := by
  have ha := decodeUtf8From_append_eq pending bytes []
  rwa [append_nil] at ha

omit pending

variable {pending : Option Utf8Pending} {q : Utf8Pending} {b : Nat} {bytes : List (Fin 256)} {c : Fin 256}

theorem decodeUtf8From_append_of_ended {first : List (Fin 256)} (h : stateAfter pending first = none) (second : List (Fin 256)) :
    decodeUtf8From pending (first ++ second) = decodeUtf8From pending first ++ decodeUtf8From none second := by
  rw [decodeUtf8From_append_eq,decodeUtf8From_eq_emitted pending first,h,decodeUtf8From,append_nil]

theorem startByte_sane (h : (startByte b).2 = some q) : q.Sane ∧ (0xC2 ≤ b ∧ b ≤ 0xF4) ∧ q.remaining+1 = sequenceLength b := by
  rw [startByte] at h
  split at h
  · cases h
  split at h
  · cases h
    have hl : sequenceLength b = 2 := if_pos (by omega)
    exact ⟨⟨Nat.le_refl _,Nat.le_refl _,.inl rfl,by dsimp only; omega,fun _ => by dsimp only; omega⟩,by omega,hl.symm⟩
  split at h
  · cases h
    have hl : sequenceLength b = 3 := (if_neg (by omega)).trans (if_pos (by omega))
    refine ⟨⟨?_,?_,.inr (.inl rfl),?_,(by rintro ⟨⟩)⟩,by omega,hl.symm⟩
    · dsimp only
      split_ifs <;> omega
    · dsimp only
      split_ifs <;> omega
    · dsimp only
      split_ifs <;> omega
  split at h
  · cases h
    have hl : sequenceLength b = 4 := (if_neg (by omega)).trans (if_neg (by omega))
    refine ⟨⟨?_,?_,.inr (.inr rfl),?_,(by rintro ⟨⟩)⟩,by omega,hl.symm⟩
    · dsimp only
      split_ifs <;> omega
    · dsimp only
      split_ifs <;> omega
    · dsimp only
      split_ifs <;> omega
  · cases h

theorem sane_none (p : Utf8Pending) (h : (none : Option Utf8Pending) = some p) : p.Sane := nomatch h

variable (hs : ∀ p, pending = some p → p.Sane)
include hs

theorem nextByte_sane (h : (nextByte pending b).2 = some q) :
    q.Sane ∧ ((∃ p, pending = some p ∧ IsContinuation b ∧ q.remaining+1 = p.remaining) ∨
      (0xC2 ≤ b ∧ b ≤ 0xF4) ∧ q.remaining+1 = sequenceLength b) := by
  cases pending with
  | none =>
    obtain ⟨hq,hl⟩ := startByte_sane h
    exact ⟨hq,.inr hl⟩
  | some p =>
    have hp := hs p rfl
    rw [nextByte] at h
    dsimp only at h
    split_ifs at h with hr hls
    · -- the sequence goes on
      cases h
      have hlr := hp.large
      have hc : IsContinuation b := ⟨Nat.le_trans hp.low hr.1,Nat.le_trans hr.2 hp.high⟩
      have hrm := hp.remaining
      refine ⟨⟨Nat.le_refl _,Nat.le_refl _,?_,?_,?_⟩,.inl ⟨p,rfl,hc,?_⟩⟩
      all_goals dsimp only
      all_goals omega
    · obtain ⟨hq,hl⟩ := startByte_sane h
      exact ⟨hq,.inr hl⟩

theorem stateAfter_sane (h : stateAfter pending bytes = some q) : q.Sane := by
  induction bytes generalizing pending with
  | nil => exact hs q h
  | cons b rest ih => exact ih (fun p hp => (nextByte_sane hs hp).1) h

theorem decodeUtf8From_of_not_continuation (hc : ¬IsContinuation c) (rest : List (Fin 256)) :
    decodeUtf8From pending (c::rest) = decodeUtf8From pending [] ++ decodeUtf8From none (c::rest) := by
  cases pending with
  | none => rfl
  | some p =>
    have hp := hs p rfl
    have ho : ¬(p.low ≤ c.val ∧ c.val ≤ p.high) := fun hin => hc ⟨Nat.le_trans hp.low hin.1,Nat.le_trans hin.2 hp.high⟩
    have hn : nextByte (some p) c = (none::(startByte c).1,(startByte c).2) := if_neg ho
    rw [decodeUtf8From_cons,decodeUtf8From_cons,hn]
    rfl

omit hs in
theorem decodeUtf8From_append_of_not_continuation (first : List (Fin 256)) (hc : ¬IsContinuation c) (rest : List (Fin 256)) :
    decodeUtf8From none (first ++ c::rest) = decodeUtf8From none first ++ decodeUtf8From none (c::rest) := by
  have hs : ∀ p, stateAfter none first = some p → p.Sane := fun p hp => stateAfter_sane sane_none hp
  rw [decodeUtf8From_append_eq,decodeUtf8From_of_not_continuation hs hc,decodeUtf8From_eq_emitted none first,
    append_assoc]

theorem exists_lead_of_stateAfter (h : stateAfter pending bytes = some q) :
    ((∀ b ∈ bytes, IsContinuation b) ∧ ∃ p, pending = some p ∧ q.remaining+bytes.length = p.remaining) ∨
      ∃ (before : List (Fin 256)) (lead : Fin 256) (continuations : List (Fin 256)), bytes = before ++ lead::continuations ∧ (∀ b ∈ continuations, IsContinuation b) ∧
        (0xC2 ≤ lead.val ∧ lead.val ≤ 0xF4) ∧ q.remaining+continuations.length+1 = sequenceLength lead := by
  induction bytes generalizing pending with
  | nil => exact .inl ⟨fun _ hno => absurd hno not_mem_nil,q,h,rfl⟩
  | cons b rest ih =>
    obtain ⟨hrest,p',hp',hc⟩ | ⟨before,lead,continuations,rfl,ha,hl,hc⟩ :=
      ih (fun p hp => (nextByte_sane hs hp).1) h
    · obtain ⟨-,⟨p,rfl,hb,hls⟩ | ⟨hb,hls⟩⟩ := nextByte_sane hs hp'
      · refine .inl ⟨forall_mem_cons.mpr ⟨hb,hrest⟩,p,rfl,?_⟩
        rw [length_cons]
        omega
      · refine .inr ⟨[],b,rest,rfl,hrest,hb,?_⟩
        omega
    · exact .inr ⟨b::before,lead,continuations,rfl,ha,hl,hc⟩

omit hs in
theorem char_ofNat_ne_newline {n : Nat} (h : n ≠ 10) : Char.ofNat n ≠ '\n' := by
  intro heq
  have hv := congrArg Char.toNat heq
  by_cases hvl : n.isValidChar
  · rw [Char.ofNat,dif_pos hvl] at hv
    exact h hv
  · rw [Char.ofNat,dif_neg hvl] at hv
    cases hv

omit hs in
theorem newline_not_mem_nextByte (hsn : ∀ p, pending = some p → p.Sane) (hb : b ≠ 10) : some '\n' ∉ (nextByte pending b).1 := by
  have hs : some '\n' ∉ (startByte b).1 := by
    rw [startByte]
    split_ifs
    · rw [mem_singleton,some_inj]
      exact (char_ofNat_ne_newline hb).symm
    all_goals simp
  cases pending with
  | none => exact hs
  | some p =>
    have hp := hsn p rfl
    rw [nextByte]
    dsimp only
    split_ifs with hr hl
    · rw [mem_singleton,some_inj]
      have hlr := hp.last hl
      exact (char_ofNat_ne_newline (by omega)).symm
    · exact not_mem_nil
    · rw [mem_cons,not_or]
      exact ⟨(by rintro ⟨⟩),hs⟩

theorem newline_not_mem_decodeUtf8From (hbt : ∀ b ∈ bytes, b ≠ 10) : some '\n' ∉ decodeUtf8From pending bytes := by
  induction bytes generalizing pending with
  | nil =>
    cases pending with
    | none => exact not_mem_nil
    | some p => exact fun hno => (nomatch (mem_singleton.mp hno))
  | cons b rest ih =>
    obtain ⟨hb,hrest⟩ := forall_mem_cons.mp hbt
    have hv : b.val ≠ 10 := fun hno => hb (Fin.ext hno)
    rw [decodeUtf8From_cons,mem_append,not_or]
    exact ⟨newline_not_mem_nextByte hs hv,ih (fun p hp => (nextByte_sane hs hp).1) hrest⟩

omit hs

/-- The characters of `String::from_utf8_lossy`. -/
def lossyText (bytes : List (Fin 256)) : List Char := (fromUtf8Lossy bytes).toList

theorem lossyText_eq (bytes : List (Fin 256)) :
    lossyText bytes = (decodeUtf8From none bytes).map (·.getD (Char.ofNat 0xFFFD)) := by
  rw [lossyText,fromUtf8Lossy,String.toList_ofList]

theorem lossyText_nil : lossyText [] = [] := rfl

theorem lossyText_append_of_ended {first : List (Fin 256)} (h : stateAfter none first = none) (second : List (Fin 256)) :
    lossyText (first ++ second) = lossyText first ++ lossyText second := by
  rw [lossyText_eq,lossyText_eq,lossyText_eq,decodeUtf8From_append_of_ended h,map_append]

theorem lossyText_append_of_not_continuation (first : List (Fin 256)) (hc : ¬IsContinuation c)
    (rest : List (Fin 256)) : lossyText (first ++ c::rest) = lossyText first ++ lossyText (c::rest) := by
  rw [lossyText_eq,lossyText_eq,lossyText_eq,decodeUtf8From_append_of_not_continuation first hc,map_append]

theorem newline_not_mem_lossyText (h : ∀ b ∈ bytes, b ≠ 10) : '\n' ∉ lossyText bytes := by
  rw [lossyText_eq,List.mem_map]
  rintro ⟨char,hm,heq⟩
  cases char with
  | none => exact absurd heq (by decide)
  | some c =>
    rw [getD_some] at heq
    subst heq
    exact newline_not_mem_decodeUtf8From sane_none h hm

theorem lossyText_newline (rest : List (Fin 256)) : lossyText (10::rest) = '\n' :: lossyText rest := by
  rw [lossyText_eq,lossyText_eq,decodeUtf8From_cons]
  rfl

theorem lossyText_append_newline (line rest : List (Fin 256)) :
    lossyText (line ++ 10::rest) = lossyText line ++ '\n' :: lossyText rest := by
  rw [lossyText_append_of_not_continuation line (fun hno => absurd hno.1 (by decide)),lossyText_newline]

end HeliosNano.Foundation
