import HeliosNano.Foundation.SignedBytes
import HeliosNano.Foundation.Utf8Order
import HeliosNano.Storage.Basics

namespace HeliosNano.Storage.KeyEncoding
open Foundation

/-- Words are bit patterns, also those of floats. Dates, times and timestamps are the texts that they print as. -/
inductive Value
  | null
  | boolean (b : Bool)
  | int2 (v : BitVec 16)
  | int4 (v : BitVec 32)
  | int8 (v : BitVec 64)
  | float4 (bits : BitVec 32)
  | float8 (bits : BitVec 64)
  | numeric (d : List Char)
  | string (s : List Char)
  | bytes (b : Bytes)
  | uuid (u : BitVec 128)
  | timestamp (ts : List Char)
  | date (d : List Char)
  | time (t : List Char)
  | interval (iv : BitVec 64)
  | json (j : List Char)
  | array (arr : List Value)
  | vector (v : List (BitVec 32))
  | dictRef (dictId : BitVec 32)
  | casRef (hash : Bytes)
  | columnarRef

def escaped (bytes : Bytes) : Bytes := bytes.flatMap fun b => if b = 0 then [0,255] else [b]

/-- `extend_maybe_escaped`. -/
def maybeEscaped (escape : Bool) (bytes : Bytes) : Bytes :=
  if escape = false ∨ 0 ∉ bytes then bytes else escaped bytes

/-- The order of IEEE 754: positive floats get the sign bit set, negative ones all bits inverted. -/
def floatOrdered {w : Nat} (bits : BitVec (w+1)) : BitVec (w+1) :=
  if bits &&& BitVec.intMin (w+1) = 0 then bits ^^^ BitVec.intMin (w+1) else ~~~bits

mutual

/-- `encode_value_into`: one value's part of a key. -/
def encodeValue (escape : Bool) : Value → Bytes
  | .null => [0]
  | .boolean b => [if b then 1 else 0]
  | .int2 v => flippedBytes 2 v
  | .int4 v => flippedBytes 4 v
  | .int8 v => flippedBytes 8 v
  | .float4 bits => beBytes 4 (floatOrdered bits).toNat
  | .float8 bits => beBytes 8 (floatOrdered bits).toNat
  | .string s => maybeEscaped escape (utf8Bytes s)
  | .bytes b => maybeEscaped escape b
  | .uuid u => beBytes 16 u.toNat
  | .numeric d => maybeEscaped escape (utf8Bytes d)
  | .date d => utf8Bytes d
  | .time t => utf8Bytes t
  | .timestamp ts => utf8Bytes ts
  | .array arr => maybeEscaped escape (encodeKey arr)
  | .json j => maybeEscaped escape (utf8Bytes j)
  | .vector v => v.flatMap fun f => beBytes 4 f.toNat
  | .dictRef dictId => beBytes 4 dictId.toNat
  | .casRef hash => hash
  | .columnarRef => utf8Bytes ['c','o','l','u','m','n','a','r','_','r','e','f']
  | .interval iv => beBytes 8 iv.toNat

/-- The values after the first, each behind a separator. -/
def encodeRest : List Value → Bytes
  | [] => []
  | value::rest => 0::(encodeValue true value ++ encodeRest rest)

/-- `encode_key_from_values`: a single value is neither escaped nor separated. -/
def encodeKey : List Value → Bytes
  | [] => []
  | [first] => encodeValue false first
  | first::second::rest => encodeValue true first ++ 0::(encodeValue true second ++ encodeRest rest)

end

/-- `decode_int_key`. -/
def decodeIntKey (key : Bytes) (width : Nat) : Option Int :=
  match width with
  | 2 => if key.length = 2 then some (BitVec.ofNat 16 (beValue key) ^^^ BitVec.intMin 16).toInt else none
  | 4 => if key.length = 4 then some (BitVec.ofNat 32 (beValue key) ^^^ BitVec.intMin 32).toInt else none
  | 8 => if key.length = 8 then some (BitVec.ofNat 64 (beValue key) ^^^ BitVec.intMin 64).toInt else none
  | _ => none

inductive ColumnType
  | boolean
  | int2
  | int4
  | int8
  | uuid
  | string
  | bytes
  | json
  | numeric
deriving DecidableEq

def Value.columnType : Value → Option ColumnType
  | .boolean _ => some .boolean
  | .int2 _ => some .int2
  | .int4 _ => some .int4
  | .int8 _ => some .int8
  | .uuid _ => some .uuid
  | .string _ => some .string
  | .bytes _ => some .bytes
  | .json _ => some .json
  | .numeric _ => some .numeric
  | _ => none

/-- The rows of a table whose columns have these types. -/
def Fits (types : List ColumnType) (values : List Value) : Prop := values.map Value.columnType = types.map some

example : encodeKey [.int2 (-1),.string ['a','\x00']] = [127,255,0,97,0,255] := by decide +kernel

end HeliosNano.Storage.KeyEncoding
