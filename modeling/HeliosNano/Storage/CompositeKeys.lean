import HeliosNano.Storage.KeyEncoding

namespace HeliosNano.Storage.KeyEncoding
open Foundation List

def ColumnType.isEscaped : ColumnType → Bool
  | .string | .bytes | .json | .numeric => true
  | _ => false

/-- Columns with a value that begins with the byte 255, as the second half of an escape does. -/
def ColumnType.startsHigh : ColumnType → Bool
  | .int2 | .int4 | .int8 | .uuid | .bytes => true
  | _ => false

/-- No escaped column stands directly before one that may start high, if a column of bytes is to follow. -/
def Unambiguous : List ColumnType → Prop
  | [] => True
  | t::rest => (t.isEscaped = true → .bytes ∈ rest → ∀ u ∈ rest.head?, u.startsHigh = false) ∧ Unambiguous rest

instance decidableUnambiguous : (types : List ColumnType) → Decidable (Unambiguous types)
  | [] => .isTrue trivial
  | _::rest => @instDecidableAnd _ _ inferInstance (decidableUnambiguous rest)

section
variable {s t p q : Bytes} {b : Byte}

theorem escaped_zero (s : Bytes) : escaped (0::s) = 0::255 :: escaped s := rfl

theorem escaped_of_ne (h : b ≠ 0) (s : Bytes) : escaped (b::s) = b :: escaped s := by
  rw [escaped,flatMap_cons,if_neg h]
  rfl

theorem maybeEscaped_true (s : Bytes) : maybeEscaped true s = escaped s := by
  rw [maybeEscaped]
  split
  next h =>
    have hno : (0 : Byte) ∉ s := h.resolve_left (by decide)
    clear h
    induction s with
    | nil => rfl
    | cons b s ih =>
      rw [mem_cons,not_or] at hno
      rw [escaped_of_ne (Ne.symm hno.1),← ih hno.2]
  · rfl

theorem escaped_append_zero (hp : ∀ tail, p ≠ 255::tail) (hq : ∀ tail, q ≠ 255::tail)
    (h : escaped s ++ 0::p = escaped t ++ 0::q) : s = t ∧ p = q := by
  induction s generalizing t with
  | nil =>
    cases t with
    | nil => exact ⟨rfl,(List.cons.inj h).2⟩
    | cons b t =>
      by_cases hb : b = 0
      · subst hb
        exact absurd (List.cons.inj h).2 (hp _)
      · rw [escaped_of_ne hb] at h
        exact absurd (List.cons.inj h).1.symm hb
  | cons a s ih =>
    by_cases ha : a = 0
    · subst ha
      rw [escaped_zero] at h
      cases t with
      | nil => exact absurd (List.cons.inj h).2.symm (hq _)
      | cons b t =>
        by_cases hb : b = 0
        · subst hb
          rw [escaped_zero] at h
          obtain ⟨rfl,rfl⟩ := ih (List.cons.inj (List.cons.inj h).2).2
          exact ⟨rfl,rfl⟩
        · rw [escaped_of_ne hb] at h
          exact absurd (List.cons.inj h).1.symm hb
    · rw [escaped_of_ne ha] at h
      cases t with
      | nil => exact absurd (List.cons.inj h).1 ha
      | cons b t =>
        by_cases hb : b = 0
        · subst hb
          exact absurd (List.cons.inj h).1 ha
        rw [escaped_of_ne hb] at h
        obtain ⟨rfl,htl⟩ := List.cons.inj h
        obtain ⟨rfl,rfl⟩ := ih htl
        exact ⟨rfl,rfl⟩

theorem escaped_injective (h : escaped s = escaped t) : s = t :=
  (@escaped_append_zero s t [] [] (fun _ => (cons_ne_nil _ _).symm) (fun _ => (cons_ne_nil _ _).symm) (by rw [h])).1

theorem high_after_zero (h : escaped s = p ++ 0::q) : ∃ tail, q = 255::tail := by
  induction s generalizing p with
  | nil => exact absurd h.symm (append_ne_nil_of_right_ne_nil _ (cons_ne_nil _ _))
  | cons b s ih =>
    by_cases hb : b = 0
    · subst hb
      rw [escaped_zero] at h
      match p with
      | [] => exact ⟨_,(List.cons.inj h).2.symm⟩
      | [_] => exact absurd (List.cons.inj (List.cons.inj h).2).1 (by decide)
      | _::_::p => exact ih (List.cons.inj (List.cons.inj h).2).2
    · rw [escaped_of_ne hb] at h
      match p with
      | [] => exact absurd (List.cons.inj h).1 hb
      | _::p => exact ih (List.cons.inj h).2

theorem escaped_ne_high (hs : ∀ b ∈ s, b ≠ 255) (tail : Bytes) : escaped s ≠ 255::tail := by
  intro h
  cases s with
  | nil => exact absurd h (cons_ne_nil _ _).symm
  | cons b s =>
    by_cases hb : b = 0
    · subst hb
      exact absurd (List.cons.inj h).1 (by decide)
    · rw [escaped_of_ne hb] at h
      exact hs b mem_cons_self (List.cons.inj h).1

end

def Value.payload : Value → Bytes
  | .string s | .json s | .numeric s => utf8Bytes s
  | .bytes b => b
  | _ => []

def ColumnType.width : ColumnType → Option Nat
  | .boolean => some 1
  | .int2 => some 2
  | .int4 => some 4
  | .int8 => some 8
  | .uuid => some 16
  | _ => none

section
variable {t : ColumnType} {x y : Value}

variable (hx : x.columnType = some t)
include hx

theorem encodeValue_eq_escaped (ht : t.isEscaped = true) : encodeValue true x = escaped x.payload := by
  cases x <;> cases hx
  case string | bytes | json | numeric =>
    rw [encodeValue,maybeEscaped_true]
    rfl
  all_goals cases ht

theorem payload_injective (hy : y.columnType = some t) (ht : t.isEscaped = true) (h : x.payload = y.payload) : x = y := by
  cases x <;> cases hx
  case string s =>
    cases y <;> cases hy
    rw [utf8Bytes_injective h]
  case json s =>
    cases y <;> cases hy
    rw [utf8Bytes_injective h]
  case numeric s =>
    cases y <;> cases hy
    rw [utf8Bytes_injective h]
  case bytes b =>
    cases y <;> cases hy
    exact congrArg Value.bytes h
  all_goals cases ht

theorem ne_of_mem_payload (ht : t ≠ .bytes) : ∀ b ∈ x.payload, b ≠ 255 := by
  cases x <;> cases hx
  case string | json | numeric => exact ne_of_mem_utf8Bytes
  case bytes => exact absurd rfl ht
  all_goals exact fun _ hb => absurd hb not_mem_nil

theorem length_encodeValue {n : Nat} (hn : t.width = some n) : (encodeValue true x).length = n := by
  cases x <;> cases hx <;> cases hn
  case boolean => rfl
  case int2 | int4 | int8 => exact length_flippedBytes _
  case uuid => exact length_beBytes _ _

theorem fixedValue_injective (hy : y.columnType = some t) (ht : t.isEscaped = false)
    (h : encodeValue true x = encodeValue true y) : x = y := by
  cases x <;> cases hx
  case boolean b =>
    cases y <;> cases hy
    rename_i c
    refine congrArg Value.boolean ?_
    revert h
    cases b <;> cases c <;> decide
  case int2 v =>
    cases y <;> cases hy
    exact congrArg Value.int2 (flippedBytes_injective (by decide) h)
  case int4 v =>
    cases y <;> cases hy
    exact congrArg Value.int4 (flippedBytes_injective (by decide) h)
  case int8 v =>
    cases y <;> cases hy
    exact congrArg Value.int8 (flippedBytes_injective (by decide) h)
  case uuid u =>
    cases y <;> cases hy
    rename_i v
    have hv := congrArg beValue h
    rw [encodeValue,encodeValue,beValue_beBytes (by exact u.isLt),beValue_beBytes (by exact v.isLt)] at hv
    exact congrArg Value.uuid (BitVec.eq_of_toNat_eq hv)
  all_goals cases ht

theorem encodeValue_injective (hy : y.columnType = some t) (h : encodeValue true x = encodeValue true y) : x = y := by
  cases ht : t.isEscaped with
  | false => exact fixedValue_injective hx hy ht h
  | true =>
    rw [encodeValue_eq_escaped hx ht,encodeValue_eq_escaped hy ht] at h
    exact payload_injective hx hy ht (escaped_injective h)

omit hx in
theorem width_of_not_escaped (ht : ¬t.isEscaped = true) : ∃ n, t.width = some n := by
  cases t
  case string | bytes | json | numeric => exact absurd rfl ht
  all_goals exact ⟨_,rfl⟩

theorem last_column_eq (hy : y.columnType = some t) (ht : t ≠ .bytes) {a b : Bytes}
    (h : a ++ 0 :: encodeValue true x = b ++ 0 :: encodeValue true y) : a = b ∧ x = y := by
  by_cases he : t.isEscaped = true
  · have hno : ∀ {x y : Value} {c : Bytes}, x.columnType = some t → y.columnType = some t →
        encodeValue true x ≠ c ++ 0 :: encodeValue true y := by
      intro x y c hx hy hxy
      rw [encodeValue_eq_escaped hx he,encodeValue_eq_escaped hy he] at hxy
      obtain ⟨tail,htl⟩ := high_after_zero hxy
      exact escaped_ne_high (ne_of_mem_payload hy ht) _ htl
    obtain ⟨c,hb,hc⟩ | ⟨c,ha,hc⟩ := append_eq_append_iff.mp h
    · cases c with
      | nil => exact ⟨by rw [hb,append_nil],encodeValue_injective hx hy (List.cons.inj hc).2⟩
      | cons c cs => exact absurd (List.cons.inj hc).2 (hno hx hy)
    · cases c with
      | nil => exact ⟨by rw [ha,append_nil],(encodeValue_injective hy hx (List.cons.inj hc).2).symm⟩
      | cons c cs => exact absurd (List.cons.inj hc).2 (hno hy hx)
  · obtain ⟨n,hn⟩ := width_of_not_escaped he
    obtain ⟨ha,hc⟩ := append_inj' h (by rw [length_cons,length_cons,length_encodeValue hx hn,length_encodeValue hy hn])
    exact ⟨ha,encodeValue_injective hx hy (List.cons.inj hc).2⟩

end

section
variable {t : ColumnType} {types : List ColumnType} {xs ys : List Value}

theorem Fits.cons (h : Fits (t::types) xs) : ∃ x rest, xs = x::rest ∧ x.columnType = some t ∧ Fits types rest := by
  obtain ⟨x,rest,rfl,hx,hrest⟩ := map_eq_cons_iff.mp h
  exact ⟨x,rest,rfl,hx,hrest⟩

theorem Fits.nil (h : Fits [] xs) : xs = [] := map_eq_nil_iff.mp h

theorem fits_cons {x : Value} (hx : x.columnType = some t) (h : Fits types xs) : Fits (t::types) (x::xs) := by
  rw [Fits,map_cons,map_cons,hx,h]

theorem rest_eq_of_no_bytes (hno : .bytes ∉ types) (hx : Fits types xs) (hy : Fits types ys) {a b : Bytes}
    (h : a ++ encodeRest xs = b ++ encodeRest ys) : a = b ∧ xs = ys := by
  induction types generalizing xs ys a b with
  | nil =>
    rw [hx.nil,hy.nil] at h ⊢
    exact ⟨append_cancel_right h,rfl⟩
  | cons t types ih =>
    obtain ⟨x,xs,rfl,hxt,hxs⟩ := hx.cons
    obtain ⟨y,ys,rfl,hyt,hys⟩ := hy.cons
    obtain ⟨ht,hno⟩ := not_or.mp (mem_cons.not.mp hno)
    have hs : ∀ (a : Bytes) (v : Value) (vs : List Value),
        a ++ encodeRest (v::vs) = a ++ 0 :: encodeValue true v ++ encodeRest vs := by
      intro a v vs
      rw [encodeRest,append_assoc]
      rfl
    rw [hs,hs] at h
    obtain ⟨hl,rfl⟩ := ih hno hxs hys h
    obtain ⟨ha,rfl⟩ := last_column_eq hxt hyt (Ne.symm ht) hl
    exact ⟨ha,rfl⟩

theorem encodeRest_ne_high (xs : List Value) (tail : Bytes) : encodeRest xs ≠ 255::tail := by
  intro h
  cases xs with
  | nil => exact absurd h (cons_ne_nil _ _).symm
  | cons x xs => exact absurd (List.cons.inj h).1 (by decide)

theorem encodeValue_ne_high {x : Value} (hx : x.columnType = some t) (ht : t.startsHigh = false) (xs : List Value) (tail : Bytes) :
    encodeValue true x ++ encodeRest xs ≠ 255::tail := by
  intro h
  by_cases he : t.isEscaped = true
  · have hbt : t ≠ .bytes := by
      rintro rfl
      cases ht
    rw [encodeValue_eq_escaped hx he] at h
    have hh := escaped_ne_high (ne_of_mem_payload hx hbt)
    cases hp : escaped x.payload with
    | nil =>
      rw [hp] at h
      exact encodeRest_ne_high _ _ h
    | cons b bytes =>
      rw [hp] at h hh
      exact hh bytes (by rw [(List.cons.inj h).1])
  · have hbl : t = .boolean := by
      revert ht he
      cases t <;> decide
    obtain ⟨b,rfl⟩ : ∃ b, x = .boolean b := by
      rw [hbl] at hx
      cases x <;> cases hx
      exact ⟨_,rfl⟩
    have hb := (List.cons.inj h).1
    revert hb
    cases b <;> decide

theorem encodeRest_injective (hu : Unambiguous types) (hx : Fits types xs) (hy : Fits types ys)
    (h : encodeRest xs = encodeRest ys) : xs = ys := by
  induction types generalizing xs ys with
  | nil => rw [hx.nil,hy.nil]
  | cons t types ih =>
    by_cases hno : .bytes ∈ t::types
    swap
    · exact (@rest_eq_of_no_bytes (t::types) xs ys hno hx hy [] [] h).2
    obtain ⟨x,xs,rfl,hxt,hxs⟩ := hx.cons
    obtain ⟨y,ys,rfl,hyt,hys⟩ := hy.cons
    have hb := (List.cons.inj h).2
    cases ht : t.isEscaped with
    | false =>
      obtain ⟨n,hn⟩ := width_of_not_escaped (by rw [ht]; exact Bool.false_ne_true)
      obtain ⟨hv,hrest⟩ := append_inj hb (by rw [length_encodeValue hxt hn,length_encodeValue hyt hn])
      rw [encodeValue_injective hxt hyt hv,ih hu.2 hxs hys hrest]
    | true =>
      by_cases hl : .bytes ∈ types
      swap
      · obtain ⟨hv,hrest⟩ := rest_eq_of_no_bytes hl hxs hys hb
        rw [encodeValue_injective hxt hyt hv,hrest]
      cases types with
      | nil => exact absurd hl not_mem_nil
      | cons u types =>
        have hlw := hu.1 ht hl u rfl
        obtain ⟨x',xs',rfl,hxu,-⟩ := hxs.cons
        obtain ⟨y',ys',rfl,hyu,-⟩ := hys.cons
        rw [encodeValue_eq_escaped hxt ht,encodeValue_eq_escaped hyt ht] at hb
        obtain ⟨hv,hrest⟩ := escaped_append_zero (encodeValue_ne_high hxu hlw xs') (encodeValue_ne_high hyu hlw ys') hb
        rw [payload_injective hxt hyt ht hv,ih hu.2 hxs hys (congrArg (0 :: ·) hrest)]

theorem zero_encodeKey (hm : 2 ≤ xs.length) : 0 :: encodeKey xs = encodeRest xs := by
  match xs, hm with
  | first::second::rest, _ => rw [encodeKey,encodeRest,encodeRest]

theorem exists_fits (types : List ColumnType) : ∃ values, Fits types values := by
  induction types with
  | nil => exact ⟨[],rfl⟩
  | cons t types ih =>
    obtain ⟨values,hvl⟩ := ih
    obtain ⟨v,hv⟩ : ∃ v : Value, v.columnType = some t := by
      cases t
      case boolean => exact ⟨.boolean true,rfl⟩
      case int2 => exact ⟨.int2 0,rfl⟩
      case int4 => exact ⟨.int4 0,rfl⟩
      case int8 => exact ⟨.int8 0,rfl⟩
      case uuid => exact ⟨.uuid 0,rfl⟩
      case string => exact ⟨.string [],rfl⟩
      case bytes => exact ⟨.bytes [],rfl⟩
      case json => exact ⟨.json [],rfl⟩
      case numeric => exact ⟨.numeric [],rfl⟩
    exact ⟨v::values,fits_cons hv hvl⟩

theorem exists_empty_zero (ht : t.isEscaped = true) : ∃ x y : Value, x.columnType = some t ∧ y.columnType = some t ∧
    encodeValue true x = [] ∧ encodeValue true y = [0,255] := by
  cases t
  case string => exact ⟨.string [],.string ['\x00'],rfl,rfl,by decide +kernel,by decide +kernel⟩
  case bytes => exact ⟨.bytes [],.bytes [0],rfl,rfl,by decide +kernel,by decide +kernel⟩
  case json => exact ⟨.json [],.json ['\x00'],rfl,rfl,by decide +kernel,by decide +kernel⟩
  case numeric => exact ⟨.numeric [],.numeric ['\x00'],rfl,rfl,by decide +kernel,by decide +kernel⟩
  all_goals cases ht

theorem exists_one (ht : t.startsHigh = false) : ∃ v : Value, v.columnType = some t ∧ encodeValue true v = [1] := by
  cases t
  case boolean => exact ⟨.boolean true,rfl,by decide +kernel⟩
  case string => exact ⟨.string ['\x01'],rfl,by decide +kernel⟩
  case json => exact ⟨.json ['\x01'],rfl,by decide +kernel⟩
  case numeric => exact ⟨.numeric ['\x01'],rfl,by decide +kernel⟩
  all_goals cases ht

theorem exists_word (ht : t.startsHigh = true) (hbt : t ≠ .bytes) :
    ∃ n, ∀ bytes : Bytes, bytes.length = n+2 → ∃ v : Value, v.columnType = some t ∧ encodeValue true v = bytes := by
  cases t
  case int2 => exact ⟨0,fun bytes hl => ⟨.int2 _,rfl,flippedBytes_unflip (by decide) hl⟩⟩
  case int4 => exact ⟨2,fun bytes hl => ⟨.int4 _,rfl,flippedBytes_unflip (by decide) hl⟩⟩
  case int8 => exact ⟨6,fun bytes hl => ⟨.int8 _,rfl,flippedBytes_unflip (by decide) hl⟩⟩
  case uuid =>
    refine ⟨14,fun bytes hl => ⟨.uuid (BitVec.ofNat 128 (beValue bytes)),rfl,?_⟩⟩
    have hlt : beValue bytes < 2^128 := by
      have hlt := beValue_lt bytes
      rw [hl] at hlt
      exact hlt
    have hb := beBytes_beValue bytes
    rw [hl] at hb
    rw [encodeValue,BitVec.toNat_ofNat,Nat.mod_eq_of_lt hlt]
    exact hb
  case bytes => exact absurd rfl hbt
  all_goals cases ht

theorem exists_shifted (hb : .bytes ∈ types) {a : Byte} (ha : a = 1 ∨ a = 255 ∧ ∀ u ∈ types.head?, u.startsHigh = true) :
    ∃ xs ys, Fits types xs ∧ Fits types ys ∧ encodeRest xs = 0::a :: encodeRest ys := by
  induction types generalizing a with
  | nil => exact absurd hb not_mem_nil
  | cons t types ih =>
    by_cases htb : t = .bytes
    · subst htb
      obtain ⟨values,hvl⟩ := exists_fits types
      have ha0 : a ≠ 0 := by
        rintro rfl
        obtain h | ⟨h,-⟩ := ha
        · exact absurd h (by decide)
        · exact absurd h (by decide)
      refine ⟨.bytes [a,0] :: values,.bytes [255] :: values,fits_cons rfl hvl,fits_cons rfl hvl,?_⟩
      rw [encodeRest,encodeRest,encodeValue_eq_escaped rfl rfl,encodeValue_eq_escaped rfl rfl,Value.payload,Value.payload,
        escaped_of_ne ha0]
      rfl
    obtain ⟨xs,ys,hxs,hys,hs⟩ := ih ((mem_cons.mp hb).resolve_left (Ne.symm htb)) (.inl rfl)
    cases ht : t.startsHigh with
    | true =>
      -- the value of the one row ends two bytes later than that of the other
      obtain ⟨n,hw⟩ := exists_word ht htb
      obtain ⟨x,hx,hxb⟩ := hw (a::0 :: List.replicate n 0) (by rw [length_cons,length_cons,length_replicate])
      obtain ⟨y,hy,hyb⟩ := hw (List.replicate n 0 ++ [0,1]) (by rw [length_append,length_replicate]; rfl)
      refine ⟨x::xs,y::ys,fits_cons hx hxs,fits_cons hy hys,?_⟩
      rw [encodeRest,encodeRest,hxb,hyb,hs,append_assoc]
      rfl
    | false =>
      obtain ⟨v,hv,hvb⟩ := exists_one ht
      have ha1 : a = 1 := ha.resolve_right fun h => by
        rw [h.2 t rfl] at ht
        cases ht
      subst ha1
      refine ⟨v::xs,v::ys,fits_cons hv hxs,fits_cons hv hys,?_⟩
      rw [encodeRest,encodeRest,hvb,hs]
      rfl

theorem exists_collision (hno : ¬Unambiguous types) :
    ∃ xs ys, Fits types xs ∧ Fits types ys ∧ encodeRest xs = encodeRest ys ∧ xs ≠ ys := by
  induction types with
  | nil => exact absurd trivial hno
  | cons t types ih =>
    obtain hh | hlater := not_and_or.mp hno
    · simp only [Classical.not_imp,not_forall] at hh
      obtain ⟨ht,hb,u,hu,hhg⟩ := hh
      obtain ⟨x,y,hx,hy,hxb,hyb⟩ := exists_empty_zero ht
      have hs : ∀ v ∈ types.head?, v.startsHigh = true := by
        intro v hv
        rw [Option.mem_unique hv hu]
        exact Bool.eq_true_of_not_eq_false hhg
      obtain ⟨xs,ys,hxs,hys,hsh⟩ := exists_shifted hb (a := 255) (.inr ⟨rfl,hs⟩)
      refine ⟨x::xs,y::ys,fits_cons hx hxs,fits_cons hy hys,?_,fun h => ?_⟩
      · rw [encodeRest,encodeRest,hxb,hyb,hsh]
        rfl
      · rw [(List.cons.inj h).1,hyb] at hxb
        exact absurd hxb (cons_ne_nil _ _)
    · obtain ⟨xs,ys,hxs,hys,hkey,hne⟩ := ih hlater
      obtain ⟨values,hvl⟩ := exists_fits (t::types)
      obtain ⟨v,-,-,hv,-⟩ := hvl.cons
      refine ⟨v::xs,v::ys,fits_cons hv hxs,fits_cons hv hys,?_,fun h => hne (List.cons.inj h).2⟩
      rw [encodeRest,encodeRest,hkey]

end

/-- Keys of several columns determine their values exactly if no escaped column stands directly before one that may start
high with a column of bytes to follow. -/
theorem composite_keys_injective_iff {types : List ColumnType} (hmany : 2 ≤ types.length) :
    (∀ xs ys, Fits types xs → Fits types ys → encodeKey xs = encodeKey ys → xs = ys) ↔ Unambiguous types := by
  have hlength : ∀ {values : List Value}, Fits types values → 2 ≤ values.length := by
    intro values hvalues
    have hlen := congrArg List.length hvalues
    rw [length_map,length_map] at hlen
    omega
  constructor
  · intro hinjective
    by_contra hno
    obtain ⟨xs,ys,hxs,hys,hkey,hne⟩ := exists_collision hno
    rw [← zero_encodeKey (hlength hxs),← zero_encodeKey (hlength hys)] at hkey
    exact hne (hinjective xs ys hxs hys (List.cons.inj hkey).2)
  · intro hu xs ys hxs hys hkey
    refine encodeRest_injective hu hxs hys ?_
    rw [← zero_encodeKey (hlength hxs),← zero_encodeKey (hlength hys),hkey]

theorem composite_keys_injective_int_string_numeric : Unambiguous [.int4,.string,.numeric] ∧
      ∀ xs ys, Fits [.int4,.string,.numeric] xs → Fits [.int4,.string,.numeric] ys → encodeKey xs = encodeKey ys → xs = ys :=
  ⟨by decide,(composite_keys_injective_iff (by decide)).mpr (by decide)⟩

/-- Two rows of two byte strings have one key: the zero byte of the one reads as the separator of the other. -/
theorem zero_byte_read_as_separator :
    let xs := [.bytes [],.bytes [255,0]]
    let ys := [.bytes [0],.bytes [255]]
    Fits [.bytes,.bytes] xs ∧ Fits [.bytes,.bytes] ys ∧ encodeKey xs = encodeKey ys ∧ xs ≠ ys := by
  refine ⟨rfl,rfl,by decide +kernel,?_⟩
  simp

end HeliosNano.Storage.KeyEncoding
