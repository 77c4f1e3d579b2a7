import HeliosNano.Foundation.Utf8Cuts
import Mathlib.Data.Char
import Mathlib.Data.List.Lex
import Mathlib.Order.Fin.Basic

namespace HeliosNano.Foundation
open List

def encodeCode (n : Nat) : List (Fin 256) :=
  if n < 0x80 then [Fin.ofNat 256 n]
  else if n < 0x800 then [Fin.ofNat 256 (0xC0+n/64),Fin.ofNat 256 (0x80+n%64)]
  else if n < 0x10000 then
    [Fin.ofNat 256 (0xE0+n/4096),Fin.ofNat 256 (0x80+n/64%64),Fin.ofNat 256 (0x80+n%64)]
  else
    [Fin.ofNat 256 (0xF0+n/262144),Fin.ofNat 256 (0x80+n/4096%64),Fin.ofNat 256 (0x80+n/64%64),
      Fin.ofNat 256 (0x80+n%64)]

/-- `str::as_bytes`. -/
def utf8Bytes (text : List Char) : List (Fin 256) := text.flatMap fun c => encodeCode c.toNat

theorem utf8Bytes_cons (c : Char) (text : List Char) : utf8Bytes (c::text) = encodeCode c.toNat ++ utf8Bytes text :=
  flatMap_cons

theorem Char.toNat_lt_max (c : Char) : c.toNat < 0x110000 := by
  obtain h | ⟨-,h⟩ := c.valid
  · exact Nat.lt_trans h (by decide)
  · exact h

section
variable {m n : Nat}

theorem ofNat_cons_lt {a b : Nat} (hab : a < b) (hb : b < 256) (x y : List (Fin 256)) : Fin.ofNat 256 a :: x < Fin.ofNat 256 b :: y := by
  refine cons_lt_cons_iff.mpr (.inl ?_)
  rw [Fin.lt_def,Fin.val_ofNat,Fin.val_ofNat]
  omega

theorem encodeCode_lt_encodeCode (hmn : m < n) (hn : n < 0x110000) (x y : List (Fin 256)) :
    encodeCode m ++ x < encodeCode n ++ y := by
  have hsame : ∀ {a b : Nat} {x y : List (Fin 256)}, a = b → x < y → Fin.ofNat 256 a :: x < Fin.ofNat 256 b :: y :=
    fun heq hlt => cons_lt_cons_iff.mpr (.inr ⟨congrArg (Fin.ofNat 256) heq,hlt⟩)
  rw [encodeCode,encodeCode]
  by_cases hm1 : m < 0x80
  · rw [if_pos hm1]
    split_ifs
    all_goals exact ofNat_cons_lt (by omega) (by omega) _ _
  rw [if_neg hm1,if_neg (show ¬n < 0x80 by omega)]
  by_cases hm2 : m < 0x800
  · rw [if_pos hm2]
    split_ifs
    · obtain h | ⟨h,h'⟩ : m/64 < n/64 ∨ m/64 = n/64 ∧ m%64 < n%64 := by omega
      · exact ofNat_cons_lt (by omega) (by omega) _ _
      · exact hsame (by omega) (ofNat_cons_lt (by omega) (by omega) _ _)
    all_goals exact ofNat_cons_lt (by omega) (by omega) _ _
  rw [if_neg hm2,if_neg (show ¬n < 0x800 by omega)]
  by_cases hm3 : m < 0x10000
  · rw [if_pos hm3]
    split_ifs
    · obtain h | ⟨h,h' | ⟨h', h''⟩⟩ : m/4096 < n/4096 ∨ m/4096 = n/4096 ∧
          (m/64%64 < n/64%64 ∨ m/64%64 = n/64%64 ∧ m%64 < n%64) := by omega
      · exact ofNat_cons_lt (by omega) (by omega) _ _
      · exact hsame (by omega) (ofNat_cons_lt (by omega) (by omega) _ _)
      · exact hsame (by omega) (hsame (by omega) (ofNat_cons_lt (by omega) (by omega) _ _))
    · exact ofNat_cons_lt (by omega) (by omega) _ _
  rw [if_neg hm3,if_neg (show ¬n < 0x10000 by omega)]
  obtain h | ⟨h,h' | ⟨h', h'' | ⟨h'', h'''⟩⟩⟩ : m/262144 < n/262144 ∨ m/262144 = n/262144 ∧
      (m/4096%64 < n/4096%64 ∨ m/4096%64 = n/4096%64 ∧
        (m/64%64 < n/64%64 ∨ m/64%64 = n/64%64 ∧ m%64 < n%64)) := by omega
  · exact ofNat_cons_lt (by omega) (by omega) _ _
  · exact hsame (by omega) (ofNat_cons_lt (by omega) (by omega) _ _)
  · exact hsame (by omega) (hsame (by omega) (ofNat_cons_lt (by omega) (by omega) _ _))
  · exact hsame (by omega) (hsame (by omega) (hsame (by omega) (ofNat_cons_lt (by omega) (by omega) _ _)))

theorem val_lt_of_mem_encodeCode (hn : n < 0x110000) : ∀ b ∈ encodeCode n, b.val < 0xF8 := by
  rw [encodeCode]
  intro b hb
  split_ifs at hb
  all_goals
    simp only [mem_cons,not_mem_nil,or_false] at hb
    rcases hb with rfl | rfl | rfl | rfl
    all_goals
      rw [Fin.val_ofNat]
      omega

end

section
variable {s t : List Char}

theorem encodeCode_ne_nil (n : Nat) : encodeCode n ≠ [] := by
  rw [encodeCode]
  split_ifs
  all_goals exact cons_ne_nil _ _

theorem utf8Bytes_lt_utf8Bytes (h : s < t) : utf8Bytes s < utf8Bytes t := by
  induction h with
  | nil =>
    rename_i c rest
    rw [utf8Bytes_cons]
    obtain ⟨b,tail,htl⟩ := exists_cons_of_ne_nil (encodeCode_ne_nil c.toNat)
    rw [htl]
    exact List.Lex.nil
  | cons _ ih =>
    rw [utf8Bytes_cons,utf8Bytes_cons]
    exact append_left_lt ih
  | rel hlt =>
    rw [utf8Bytes_cons,utf8Bytes_cons]
    exact encodeCode_lt_encodeCode hlt (Char.toNat_lt_max _) _ _

theorem utf8Bytes_lt_iff : utf8Bytes s < utf8Bytes t ↔ s < t := by
  refine ⟨fun h => ?_,utf8Bytes_lt_utf8Bytes⟩
  by_contra hno
  obtain heq | hlt := eq_or_lt_of_le (not_lt.mp hno)
  · exact absurd h (heq ▸ lt_irrefl _)
  · exact absurd h (lt_asymm (utf8Bytes_lt_utf8Bytes hlt))

theorem utf8Bytes_injective : Function.Injective utf8Bytes := by
  intro s t h
  refine le_antisymm (not_lt.mp fun hlt => ?_) (not_lt.mp fun hlt => ?_)
  · exact absurd (utf8Bytes_lt_utf8Bytes hlt) (h ▸ lt_irrefl _)
  · exact absurd (utf8Bytes_lt_utf8Bytes hlt) (h ▸ lt_irrefl _)

theorem ne_of_mem_utf8Bytes : ∀ b ∈ utf8Bytes s, b ≠ 255 := by
  rintro b hb rfl
  obtain ⟨c,-,hc⟩ := mem_flatMap.mp hb
  exact absurd (val_lt_of_mem_encodeCode (Char.toNat_lt_max c) _ hc) (by decide)

end

theorem decodeUtf8From_start {b : Nat} {p : Utf8Pending} (hb : b < 256) (hs : startByte b = ([],some p)) (rest : List (Fin 256)) :
    decodeUtf8From none (Fin.ofNat 256 b :: rest) = decodeUtf8From (some p) rest := by
  have hm : (Fin.ofNat 256 b).val = b := Nat.mod_eq_of_lt hb
  rw [decodeUtf8From_cons,nextByte,hm,hs]
  rfl

section
variable {code low high v : Nat} (hv : v < 64) (hl : low ≤ 0x80+v) (hh : 0x80+v ≤ high)
include hv hl hh

theorem decodeUtf8From_next (remaining : Nat) (rest : List (Fin 256)) :
    decodeUtf8From (some ⟨remaining+2,code,low,high⟩) (Fin.ofNat 256 (0x80+v) :: rest) =
      decodeUtf8From (some ⟨remaining+1,code*64+v,0x80,0xBF⟩) rest := by
  have hm : (Fin.ofNat 256 (0x80+v)).val = 0x80+v := Nat.mod_eq_of_lt (by omega)
  rw [decodeUtf8From_cons,hm,nextByte,if_pos ⟨hl,hh⟩,Nat.add_sub_cancel_left]
  simp

theorem decodeUtf8From_last (rest : List (Fin 256)) : decodeUtf8From (some ⟨1,code,low,high⟩) (Fin.ofNat 256 (0x80+v) :: rest) =
      some (Char.ofNat (code*64+v)) :: decodeUtf8From none rest := by
  have hm : (Fin.ofNat 256 (0x80+v)).val = 0x80+v := Nat.mod_eq_of_lt (by omega)
  rw [decodeUtf8From_cons,hm,nextByte,if_pos ⟨hl,hh⟩,Nat.add_sub_cancel_left]
  rfl

end

theorem decodeUtf8From_encodeCode (c : Char) (rest : List (Fin 256)) :
    decodeUtf8From none (encodeCode c.toNat ++ rest) = some c :: decodeUtf8From none rest := by
  have hc := Char.ofNat_toNat c
  have hv : c.toNat < 0xD800 ∨ 0xDFFF < c.toNat ∧ c.toNat < 0x110000 := c.valid
  generalize c.toNat = n at hc hv
  subst hc
  rw [encodeCode]
  split_ifs with h₁ h₂ h₃
  · have hm : (Fin.ofNat 256 n).val = n := Nat.mod_eq_of_lt (by omega)
    rw [cons_append,nil_append,decodeUtf8From_cons,nextByte,hm,startByte,if_pos h₁]
    rfl
  · have hs : startByte (0xC0+n/64) = ([],some ⟨1,n/64,0x80,0xBF⟩) := by
      rw [startByte,if_neg (by omega),if_pos (by omega),Nat.add_sub_cancel_left]
    have he : n/64*64+n%64 = n := by omega
    rw [cons_append,decodeUtf8From_start (by omega) hs,cons_append,nil_append,
      decodeUtf8From_last (by omega) (by omega) (by omega),he]
  · have hs : startByte (0xE0+n/4096) = ([],some ⟨2,n/4096,if 0xE0+n/4096 = 0xE0 then 0xA0 else 0x80,
        if 0xE0+n/4096 = 0xED then 0x9F else 0xBF⟩) := by
      rw [startByte,if_neg (by omega),if_neg (by omega),if_pos (by omega),Nat.add_sub_cancel_left]
    have he : (n/4096*64+n/64%64)*64+n%64 = n := by omega
    -- the second byte is in its range: the encoding is the shortest one, and no surrogate
    rw [cons_append,decodeUtf8From_start (by omega) hs,cons_append,
      decodeUtf8From_next (by omega) (by split <;> omega) (by split <;> omega),
      cons_append,nil_append,decodeUtf8From_last (by omega) (by omega) (by omega),he]
  · have hs : startByte (0xF0+n/262144) = ([],some ⟨3,n/262144,if 0xF0+n/262144 = 0xF0 then 0x90 else 0x80,
        if 0xF0+n/262144 = 0xF4 then 0x8F else 0xBF⟩) := by
      rw [startByte,if_neg (by omega),if_neg (by omega),if_neg (by omega),if_pos (by omega),Nat.add_sub_cancel_left]
    have he : ((n/262144*64+n/4096%64)*64+n/64%64)*64+n%64 = n := by omega
    rw [cons_append,decodeUtf8From_start (by omega) hs,cons_append,
      decodeUtf8From_next (by omega) (by split <;> omega) (by split <;> omega),
      cons_append,decodeUtf8From_next (by omega) (by omega) (by omega),
      cons_append,nil_append,decodeUtf8From_last (by omega) (by omega) (by omega),he]

theorem lossyText_utf8Bytes (text : List Char) : lossyText (utf8Bytes text) = text := by
  rw [lossyText_eq]
  induction text with
  | nil => rfl
  | cons c rest ih => rw [utf8Bytes_cons,decodeUtf8From_encodeCode,map_cons,ih,Option.getD_some]

end HeliosNano.Foundation
