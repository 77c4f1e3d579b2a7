import HeliosNano.Foundation.Octets
import Mathlib.Tactic.SplitIfs

namespace HeliosNano.Foundation
open List Option

/-- A started sequence: the bytes it still needs, the bits read so far and the
range in which its next byte must be. -/
structure Utf8Pending where
  remaining : Nat
  code : Nat
  low : Nat
  high : Nat

/-- What a byte outside any sequence gives: a character, an error or a sequence.
The bounds of the second byte exclude overlong forms, surrogates and values past
the last code point. -/
def startByte (b : Nat) : List (Option Char) × Option Utf8Pending :=
  if b < 0x80 then ([some (Char.ofNat b)],none)
  else if 0xC2 ≤ b ∧ b ≤ 0xDF then ([],some ⟨1,b-0xC0,0x80,0xBF⟩)
  else if 0xE0 ≤ b ∧ b ≤ 0xEF then
    ([],some ⟨2,b-0xE0,if b = 0xE0 then 0xA0 else 0x80,if b = 0xED then 0x9F else 0xBF⟩)
  else if 0xF0 ≤ b ∧ b ≤ 0xF4 then
    ([],some ⟨3,b-0xF0,if b = 0xF0 then 0x90 else 0x80,if b = 0xF4 then 0x8F else 0xBF⟩)
  else ([none],none)

/-- One more byte. A byte that cannot continue a sequence ends it and starts anew. -/
def nextByte : Option Utf8Pending → Nat → List (Option Char) × Option Utf8Pending
  | none, b => startByte b
  | some p, b =>
    if p.low ≤ b ∧ b ≤ p.high then
      let code := p.code*64+(b-0x80)
      if p.remaining = 1 then ([some (Char.ofNat code)],none)
      else ([],some ⟨p.remaining-1,code,0x80,0xBF⟩)
    else
      let (chars,pending) := startByte b
      (none::chars,pending)

/-- The characters of a byte string, `none` standing for an ill-formed subpart. -/
def decodeUtf8From : Option Utf8Pending → List (Fin 256) → List (Option Char)
  | none, [] => []
  | some _, [] => [none]
  | pending, b::rest =>
    let (chars,pending) := nextByte pending b
    chars ++ decodeUtf8From pending rest

/-- `String::from_utf8_lossy`: every ill-formed subpart becomes U+FFFD. -/
def fromUtf8Lossy (bytes : List (Fin 256)) : String :=
  String.ofList ((decodeUtf8From none bytes).map (·.getD (Char.ofNat 0xFFFD)))

/-- `str::from_utf8`: only well-formed input is accepted. -/
def fromUtf8 (bytes : List (Fin 256)) : Option String :=
  ((decodeUtf8From none bytes).mapM id).map String.ofList

/-- A well-formed string has no ill-formed subpart. -/
def IsUtf8 (bytes : List (Fin 256)) : Prop := ∀ char ∈ decodeUtf8From none bytes, char ≠ none

theorem isSome_mapM_id {α : Type} (chars : List (Option α)) : (chars.mapM id).isSome = true ↔ ∀ char ∈ chars, char ≠ none := by
  induction chars with
  | nil => simp
  | cons char rest ih =>
    cases char with
    | none => simp
    | some c =>
      rw [mapM_cons,id,bind_eq_bind,bind_some]
      cases hm : rest.mapM id with
      | none | some _ =>
        rw [hm] at ih
        simpa using ih

theorem isSome_fromUtf8 (bytes : List (Fin 256)) : (fromUtf8 bytes).isSome = true ↔ IsUtf8 bytes := by
  rw [fromUtf8,isSome_map]
  exact isSome_mapM_id _

variable {pending : Option Utf8Pending} {first bytes : List (Fin 256)}

theorem decodeUtf8From_append (h : ∀ char ∈ decodeUtf8From pending first, char ≠ none) (second : List (Fin 256)) :
    decodeUtf8From pending (first ++ second) = decodeUtf8From pending first ++ decodeUtf8From none second := by
  induction first generalizing pending with
  | nil =>
    cases pending with
    | none => rfl
    | some _ => simp [decodeUtf8From] at h
  | cons b rest ih =>
    simp only [cons_append,decodeUtf8From,append_assoc] at h ⊢
    rw [ih fun char hc => h char (mem_append_right _ hc)]

theorem IsUtf8.append {second : List (Fin 256)} (hf : IsUtf8 first) (hs : IsUtf8 second) : IsUtf8 (first ++ second) := by
  intro char hc
  rw [decodeUtf8From_append hf] at hc
  rcases mem_append.mp hc with hc | hc
  · exact hf char hc
  · exact hs char hc

theorem isUtf8_of_ascii (h : ∀ b ∈ bytes, b.val < 0x80) : IsUtf8 bytes := by
  induction bytes with
  | nil => simp [IsUtf8,decodeUtf8From]
  | cons b rest ih =>
    obtain ⟨hb,hrest⟩ := forall_mem_cons.mp h
    intro char hc
    rw [decodeUtf8From,nextByte,startByte,if_pos hb] at hc
    rcases mem_append.mp hc with hc | hc
    · rw [mem_singleton.mp hc]
      simp
    · exact ih hrest char hc

def replacementBytes : List (Fin 256) := [0xEF,0xBF,0xBD]

/-- The bytes of `String::from_utf8_lossy`: what is well formed stays as it is. The second argument
holds the bytes of the started sequence. -/
def lossyBytesFrom : Option Utf8Pending → List (Fin 256) → List (Fin 256) → List (Fin 256)
  | none, _, [] => []
  | some _, _, [] => replacementBytes
  | pending, held, b::rest =>
    match pending, nextByte pending b with
    | _, ([],next) => lossyBytesFrom next (held ++ [b]) rest
    | _, (some _ :: _,next) => held ++ b::lossyBytesFrom next [] rest
    | none, (none::_,next) => replacementBytes ++ lossyBytesFrom next [] rest
    | some _, ([none],next) => replacementBytes ++ lossyBytesFrom next [b] rest
    | some _, (none :: some _ :: _,next) => replacementBytes ++ b::lossyBytesFrom next [] rest
    | some _, (none::none::_,next) => replacementBytes ++ replacementBytes ++ lossyBytesFrom next [] rest

def lossyBytes (bytes : List (Fin 256)) : List (Fin 256) := lossyBytesFrom none [] bytes

theorem nextByte_nil (pending : Option Utf8Pending) (b : Nat) : (nextByte pending b).1 = [] → (nextByte pending b).2 ≠ none := by
  cases pending with
  | none =>
    simp only [nextByte,startByte]
    split_ifs <;> simp
  | some p =>
    simp only [nextByte]
    split_ifs <;> simp

theorem lossyBytesFrom_eq {held : List (Fin 256)} (hhl : pending = none → held = [])
    (h : ∀ char ∈ decodeUtf8From pending bytes, char ≠ none) : lossyBytesFrom pending held bytes = held ++ bytes := by
  induction bytes generalizing pending held with
  | nil =>
    cases pending with
    | none => rw [hhl rfl]; rfl
    | some p => exact absurd rfl (h none (by simp [decodeUtf8From]))
  | cons b rest ih =>
    simp only [decodeUtf8From] at h
    have hrest : ∀ char ∈ decodeUtf8From (nextByte pending b).2 rest, char ≠ none :=
      fun char hc => h char (mem_append_right _ hc)
    have hh : ∀ char ∈ (nextByte pending b).1, char ≠ none := fun char hc => h char (mem_append_left _ hc)
    have hnl := nextByte_nil pending b
    rcases hn : nextByte pending b with ⟨chars,next⟩
    rw [hn] at hrest hh hnl
    rcases chars with _ | ⟨_ | c,others⟩
    · unfold lossyBytesFrom
      simp only [hn]
      rw [ih (fun heq => absurd heq (hnl rfl)) hrest,append_assoc]
      rfl
    · exact absurd rfl (hh none mem_cons_self)
    · unfold lossyBytesFrom
      simp only [hn]
      rw [ih (fun _ => rfl) hrest]
      rfl

theorem lossyBytes_eq (h : IsUtf8 bytes) : lossyBytes bytes = bytes :=
  lossyBytesFrom_eq (fun _ => rfl) h

end HeliosNano.Foundation
