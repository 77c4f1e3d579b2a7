import HeliosNano.Sql.Basics
import HeliosNano.Storage.Basics
import Mathlib.Algebra.Order.Ring.Unbundled.Rat
import Mathlib.Data.Char

namespace HeliosNano.Sql

/-- A text as its characters. Their order is the order of the UTF-8 bytes. -/
abbrev Text := List Char

def text (s : String) : Text := s.toList

/-- Timestamps are nanoseconds and dates days since the epoch. The values of all other types
(floats, times, intervals, JSON, arrays, vectors, references) are codes. -/
inductive Value
  | null
  | boolean (b : Bool)
  | int2 (n : Int)
  | int4 (n : Int)
  | int8 (n : Int)
  | numeric (payload : Text)
  | string (s : Text)
  | bytes (b : Storage.Bytes)
  | uuid (n : Nat)
  | timestamp (nanos : Int)
  | date (days : Int)
  | other (code : Nat)
deriving DecidableEq

/-- The parsers and printers that comparisons use from outside, and the comparisons of the
values that are codes here. -/
structure Conversions where
  parseDecimal : Text → Option ℚ
  parseUuid : Text → Option Nat
  parseTimestamp : Text → Option Int
  parseDate : Text → Option Int
  timestampText : Int → Text
  dateText : Int → Text
  debug : Value → String
  floatRank : Nat → Option Int
  compareOther : Value → Value → Except SqlError Ordering
  equalOther : Value → Value → Bool

/-- `char::is_whitespace`. -/
def isWhitespace (c : Char) : Bool :=
  let n := c.toNat
  (9 ≤ n && n ≤ 13) || n == 32 || n == 0x85 || n == 0xA0 || n == 0x1680 || (0x2000 ≤ n && n ≤ 0x200A) ||
    n == 0x2028 || n == 0x2029 || n == 0x202F || n == 0x205F || n == 0x3000

def trim (s : Text) : Text := ((s.dropWhile isWhitespace).reverse.dropWhile isWhitespace).reverse

def eqIgnoreAsciiCase (a b : Text) : Bool := a.map Char.toLower == b.map Char.toLower

/-- `str::parse` of a signed integer type with the given bounds. -/
def parseInt (lo hi : Int) (s : Text) : Option Int :=
  let (negative,digits) := match s with
    | '-' :: rest => (true,rest)
    | '+' :: rest => (false,rest)
    | rest => (false,rest)
  if digits = [] ∨ digits.any (fun c => !c.isDigit) then none
  else
    let n : Int := digits.foldl (fun acc c => acc*10+(c.toNat-48 : Nat)) 0
    let value := if negative then -n else n
    if lo ≤ value ∧ value ≤ hi then some value else none

def parseI16 : Text → Option Int := parseInt (-32768) 32767
def parseI32 : Text → Option Int := parseInt (-2147483648) 2147483647
def parseI64 : Text → Option Int := parseInt i64Min i64Max

def intText (n : Int) : Text := text (toString n)

inductive Special
  | nan
  | posInf
  | negInf
deriving DecidableEq

def Special.rank : Special → Int
  | negInf => 0
  | posInf => 2
  | nan => 3

def parseSpecial (s : Text) : Option Special :=
  let t := trim s
  if eqIgnoreAsciiCase t (text "nan") then some .nan
  else
    let (neg,rest) := match t with
      | '+' :: rest => (false,rest)
      | '-' :: rest => (true,rest)
      | rest => (false,rest)
    if eqIgnoreAsciiCase rest (text "inf") ∨ eqIgnoreAsciiCase rest (text "infinity") then
      some (if neg then .negInf else .posInf)
    else none

/-- The canonical tokens first. -/
def specialOf (s : Text) : Option Special :=
  if s = text "NaN" then some .nan
  else if s = text "Infinity" then some .posInf
  else if s = text "-Infinity" then some .negInf
  else parseSpecial s

def rankOf : Option Special → Int
  | none => 1
  | some special => special.rank

section
variable (c : Conversions)

def numericRank : Value → Option Int
  | .numeric payload => some (rankOf (specialOf payload))
  | .int2 _ | .int4 _ | .int8 _ => some 1
  | .other code => c.floatRank code
  | _ => none

def isSpecialNumeric : Value → Bool
  | .numeric payload => (specialOf payload).isSome
  | _ => false

variable (left right : Value)

def specialOperatorCmp : Option Ordering :=
  if isSpecialNumeric left || isSpecialNumeric right then
    match numericRank c left, numericRank c right with
    | some l, some r => some (cmp l r)
    | _, _ => none
  else none

/-- A text against an integer: as integers when the text is one, else as texts. -/
def cmpTextInt (parsed : Option Int) (s : Text) (n : Int) : Ordering :=
  match parsed with
  | some m => cmp m n
  | none => cmp s (intText n)

def cmpDecimalInt (payload : Text) (n : Int) : Except SqlError Ordering :=
  match c.parseDecimal payload with
  | some d => .ok (cmp d n)
  | none => .error (.queryExecution ("Invalid NUMERIC value '" ++ String.ofList payload ++ "' in comparison"))

def isTrueText (s : Text) : Bool := s ∈ [text "1",text "true",text "TRUE",text "t",text "yes"]

/-- `Uuid::from_slice`. -/
def uuidOfBytes (b : Storage.Bytes) : Option Nat :=
  if b.length = 16 then some (b.foldl (fun acc byte => acc*256+byte.val) 0) else none

def nanosPerDay : Int := 86400000000000

def dateNaive (nanos : Int) : Int := nanos/nanosPerDay

/-- The ordering that `compare_values` finds between two values that are not NULL. -/
def valueOrdering : Except SqlError Ordering :=
  match specialOperatorCmp c left right with
  | some ordering => .ok ordering
  | none =>
    match left, right with
    | .int2 a, .int2 b | .int4 a, .int4 b | .int8 a, .int8 b => .ok (cmp a b)
    | .int2 a, .int4 b | .int4 a, .int2 b | .int2 a, .int8 b => .ok (cmp a b)
    | .int8 a, .int2 b | .int4 a, .int8 b | .int8 a, .int4 b => .ok (cmp a b)
    | .string a, .string b => .ok (cmp a b)
    | .numeric a, .numeric b =>
      match c.parseDecimal a, c.parseDecimal b with
      | some x, some y => .ok (cmp x y)
      | _, _ => .error (.queryExecution ("Cannot compare invalid NUMERIC values '" ++ String.ofList a ++ "' and '" ++
          String.ofList b ++ "'"))
    | .numeric a, .int2 b | .numeric a, .int4 b | .numeric a, .int8 b => cmpDecimalInt c a b
    | .int2 a, .numeric b | .int4 a, .numeric b | .int8 a, .numeric b => (cmpDecimalInt c b a).map Ordering.swap
    | .uuid a, .uuid b => .ok (cmp a b)
    | .uuid a, .string b =>
      match c.parseUuid b with
      | some b => .ok (cmp a b)
      | none => .error (.queryExecution ("Cannot compare UUID with invalid UUID string '" ++ String.ofList b ++ "'"))
    | .string a, .uuid b =>
      match c.parseUuid a with
      | some a => .ok (cmp a b)
      | none => .error (.queryExecution ("Cannot compare invalid UUID string '" ++ String.ofList a ++ "' with UUID"))
    | .uuid a, .bytes b =>
      match uuidOfBytes b with
      | some b => .ok (cmp a b)
      | none => .error (.queryExecution ("Cannot compare UUID with " ++ toString b.length ++ "-byte binary value"))
    | .bytes a, .uuid b =>
      match uuidOfBytes a with
      | some a => .ok (cmp a b)
      | none => .error (.queryExecution ("Cannot compare " ++ toString a.length ++ "-byte binary value with UUID"))
    | .boolean a, .boolean b => .ok (cmp a b)
    | .timestamp a, .timestamp b => .ok (cmp a b)
    | .date a, .date b => .ok (cmp a b)
    | .timestamp a, .date b => .ok (cmp (dateNaive a) b)
    | .date a, .timestamp b => .ok (cmp a (dateNaive b))
    | .timestamp a, .string b =>
      match c.parseTimestamp b with
      | some b => .ok (cmp a b)
      | none => .ok (cmp (c.timestampText a) b)
    | .string a, .timestamp b =>
      match c.parseTimestamp a with
      | some a => .ok (cmp a b)
      | none => .ok (cmp a (c.timestampText b))
    | .date a, .string b =>
      match c.parseDate b with
      | some b => .ok (cmp a b)
      | none => .ok (cmp (c.dateText a) b)
    | .string a, .date b =>
      match c.parseDate a with
      | some a => .ok (cmp a b)
      | none => .ok (cmp a (c.dateText b))
    | .string a, .int2 b => .ok (cmpTextInt (parseI16 a) a b)
    | .int2 a, .string b => .ok (cmpTextInt (parseI16 b) b a).swap
    | .string a, .int4 b => .ok (cmpTextInt (parseI32 a) a b)
    | .int4 a, .string b => .ok (cmpTextInt (parseI32 b) b a).swap
    | .string a, .int8 b => .ok (cmpTextInt (parseI64 a) a b)
    | .int8 a, .string b => .ok (cmpTextInt (parseI64 b) b a).swap
    | .boolean a, .string b => .ok (cmp a (isTrueText b))
    | .string a, .boolean b => .ok (cmp (isTrueText a) b)
    | .boolean a, .int4 b | .boolean a, .int8 b => .ok (cmp (if a then 1 else 0) b)
    | .int4 a, .boolean b | .int8 a, .boolean b => .ok (cmp a (if b then 1 else 0))
    | .other _, _ | _, .other _ => c.compareOther left right
    | _, _ => .error (.queryExecution ("Cannot compare " ++ c.debug left ++ " and " ++ c.debug right))

def compareValues (test : Ordering → Bool) : Except SqlError Value :=
  if left = .null ∨ right = .null then .ok .null
  else do
    let ordering ← valueOrdering c left right
    return .boolean (test ordering)

def valuesEqual : Bool :=
  match specialOperatorCmp c left right with
  | some ordering => ordering == .eq
  | none =>
    match left, right with
    | .int2 a, .int2 b | .int4 a, .int4 b | .int8 a, .int8 b => a == b
    | .int2 a, .int4 b | .int4 a, .int2 b | .int2 a, .int8 b => a == b
    | .int8 a, .int2 b | .int4 a, .int8 b | .int8 a, .int4 b => a == b
    | .string a, .string b => a == b
    | .boolean a, .boolean b => a == b
    | .numeric a, .numeric b => a == b
    | .uuid a, .uuid b => a == b
    | .uuid a, .string b | .string b, .uuid a => (c.parseUuid b).any (a == ·)
    | .date a, .date b => a == b
    | .timestamp a, .timestamp b => a == b
    | .numeric a, .int2 b | .numeric a, .int4 b | .numeric a, .int8 b => (c.parseDecimal a).any (· == (b : ℚ))
    | .int2 a, .numeric b | .int4 a, .numeric b | .int8 a, .numeric b => (c.parseDecimal b).any ((a : ℚ) == ·)
    | .string s, .int8 n | .int8 n, .string s => (parseI64 s).any (· == n)
    | .string s, .int4 n | .int4 n, .string s => (parseI32 s).any (· == n)
    | .string s, .int2 n | .int2 n, .string s => (parseI16 s).any (· == n)
    | .string s, .boolean b | .boolean b, .string s =>
      if b then s ∈ [text "1",text "true",text "TRUE",text "t"] else s ∈ [text "0",text "false",text "FALSE",text "f"]
    | .null, _ | _, .null => false
    | .other _, _ | _, .other _ => c.equalOther left right
    | _, _ => false

end
end HeliosNano.Sql
