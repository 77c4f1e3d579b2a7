import HeliosNano.Foundation.Lexis
import HeliosNano.Sql.Value

/-! Placeholders in a routine body: the body is scanned once from the left, and the text of a value stands in the place of each
placeholder outside strings, quoted identifiers, comments and dollar-quoted strings. Where a token is continued by what then stands
next to it, the body has other tokens than it was written with. -/
namespace HeliosNano.Sql.Interpolate
open Foundation

/-- The arguments of routines. Floats, times, vectors and references into the storage are left out. -/
inductive Argument
  | null
  | boolean (b : Bool)
  | int2 (v : Int)
  | int4 (v : Int)
  | int8 (v : Int)
  | numeric (d : Text)
  | string (s : Text)
  | bytes (b : Storage.Bytes)
  | json (j : Text)
  | array (elements : List Argument)

/-- `str::replace` of a quote by two. -/
def doubledQuotes (s : Text) : Text := s.flatMap fun c => if c = '\'' then ['\'','\''] else [c]

def quoted (s : Text) : Text := '\'' :: doubledQuotes s ++ ['\'']

def stripSign : Text → Text
  | c::rest => if c = '+' ∨ c = '-' then rest else c::rest
  | [] => []

/-- `str::split_once` at the first character of a kind. -/
def splitOnce (p : Char → Bool) (s : Text) : Option (Text × Text) :=
  match s.dropWhile (fun c => !p c) with
  | [] => none
  | _::rest => some (s.takeWhile (fun c => !p c),rest)

def digitsOnly (t : Text) : Bool := t.all Char.isDigit

/-- A decimal number that may stand without quotes. -/
def isBareDecimal (s : Text) : Bool :=
  let body := stripSign s
  let (mantissa,exponent) := match splitOnce (fun c => c == 'e' || c == 'E') body with
    | some (m,e) => (m,some (stripSign e))
    | none => (body,none)
  let (intPart,fracPart) := (splitOnce (· == '.') mantissa).getD (mantissa,[])
  !(intPart.isEmpty && fracPart.isEmpty) && digitsOnly intPart && digitsOnly fracPart &&
    exponent.all fun e => !e.isEmpty && digitsOnly e

/-- `hex::encode`. -/
def hexText (b : Storage.Bytes) : Text := b.flatMap fun byte => [Nat.digitChar (byte.toNat/16),Nat.digitChar (byte.toNat%16)]

mutual
def valueToSqlLiteral : Argument → Text
  | .null => text "NULL"
  | .boolean b => if b then text "TRUE" else text "FALSE"
  | .int2 v => intText v
  | .int4 v => intText v
  | .int8 v => intText v
  | .numeric d => if isBareDecimal d then d else quoted d ++ text "::numeric"
  | .string s => quoted s
  | .bytes b => text "E'\\\\x" ++ hexText b ++ ['\'']
  | .json j => quoted j
  | .array elements => text "ARRAY[" ++ elementsText elements ++ [']']

/-- `join` with commas. -/
def elementsText : List Argument → Text
  | [] => []
  | [v] => valueToSqlLiteral v
  | v::w::rest => valueToSqlLiteral v ++ ',' :: elementsText (w::rest)
end

inductive Placeholder
  | positional (n : Nat)
  | named (name : Text)
deriving DecidableEq

/-- `str::parse::<usize>` of digits. -/
def parseUsize (digits : Text) : Option Nat :=
  let n := digits.foldl (fun acc c => acc*10+(c.toNat-48)) 0
  if n < 2^64 then some n else none

/-- A quoted region after its opening quote: what is copied, and what is left. -/
def quotedRest (quote : Char) (backslashEscapes : Bool) : Text → Text × Text
  | [] => ([],[])
  | c::rest =>
    if backslashEscapes && c == '\\' then
      match rest with
      | [] => ([c],[])
      | escaped::rest =>
        let r := quotedRest quote backslashEscapes rest
        (c::escaped::r.1,r.2)
    else if c = quote then
      match rest with
      | [] => ([c],[])
      | d::rest' =>
        if d = quote then
          let r := quotedRest quote backslashEscapes rest'
          (c::quote::r.1,r.2)
        else ([c],d::rest')
    else
      let r := quotedRest quote backslashEscapes rest
      (c::r.1,r.2)

def copyQuoted (quote : Char) (backslashEscapes : Bool) (rest : Text) : Text × Text :=
  let r := quotedRest quote backslashEscapes rest
  (quote::r.1,r.2)

def copyLineComment : Text → Text × Text
  | [] => ([],[])
  | c::rest =>
    if c = '\n' then ([c],rest)
    else
      let r := copyLineComment rest
      (c::r.1,r.2)

def copyBlockComment (depth : Nat) : Text → Text × Text
  | [] => ([],[])
  | c::rest =>
    match rest with
    | [] => ([c],[])
    | d::rest' =>
      if c = '/' ∧ d = '*' then
        let r := copyBlockComment (depth+1) rest'
        (c::d::r.1,r.2)
      else if c = '*' ∧ d = '/' then
        if depth-1 = 0 then ([c,d],rest')
        else
          let r := copyBlockComment (depth-1) rest'
          (c::d::r.1,r.2)
      else
        let r := copyBlockComment depth (d::rest')
        (c::r.1,r.2)

/-- `str::find`. -/
def find (needle : Text) : Text → Option Nat
  | [] => if needle = [] then some 0 else none
  | c::rest => if needle <+: c::rest then some 0 else (find needle rest).map (· + 1)

/-- A text that begins with the opening delimiter of the given length; without a closing one all of it is copied. -/
def copyDollarQuoted (text : Text) (delimLen : Nat) : Text × Text :=
  match find (text.take delimLen) (text.drop delimLen) with
  | some offset => (text.take (delimLen+offset+delimLen),text.drop (delimLen+offset+delimLen))
  | none => (text,[])

/-- Which of the characters beyond ASCII are letters and which are digits. -/
structure Unicode where
  alphabetic : Char → Bool
  numeric : Char → Bool

section
variable (unicode : Unicode)

def isAlphabetic (c : Char) : Bool := c.isAlpha || (128 ≤ c.toNat && unicode.alphabetic c)

def isAlphanumeric (c : Char) : Bool := isAlphabetic unicode c || c.isDigit || (128 ≤ c.toNat && unicode.numeric c)

def isIdentStart (c : Char) : Bool := isAlphabetic unicode c || c == '_'

def isIdentChar (c : Char) : Bool := isAlphanumeric unicode c || c == '_'

def munchIdent (text : Text) : Text × Text := (text.takeWhile (isIdentChar unicode),text.dropWhile (isIdentChar unicode))

def munchDigits (text : Text) : Text × Text := (text.takeWhile Char.isDigit,text.dropWhile Char.isDigit)

variable (resolve : Placeholder → Option Text)

/-- After a dollar; a placeholder without a value stays as it is. -/
def interpolateAtDollar (rest : Text) : Text × Text :=
  match rest with
  | [] => (['$'],rest)
  | c::_ =>
    if c = '$' then copyDollarQuoted ('$' :: rest) 2
    else if c.isDigit then
      let (digits,after) := munchDigits rest
      (((parseUsize digits).bind fun n => resolve (.positional n)).getD ('$' :: digits),after)
    else if isIdentStart unicode c then
      let (name,after) := munchIdent unicode rest
      if after.head? = some '$' then copyDollarQuoted ('$' :: rest) (name.length+2)
      else ((resolve (.named name)).getD ('$' :: name),after)
    else (['$'],rest)

/-- One turn of the scan: what it writes and where it goes on. -/
def scanStep (c : Char) (rest : Text) : Text × Text :=
  if c = '\'' then copyQuoted '\'' false rest
  else if c = '"' then copyQuoted '"' false rest
  else if c = '-' ∧ rest.head? = some '-' then copyLineComment (c::rest)
  else if c = '/' ∧ rest.head? = some '*' then copyBlockComment 0 (c::rest)
  else if c = '$' then interpolateAtDollar unicode resolve rest
  else if isIdentStart unicode c then
    let (word,after) := munchIdent unicode (c::rest)
    if (word = ['E'] ∨ word = ['e']) ∧ after.head? = some '\'' then
      let r := copyQuoted '\'' true after.tail
      (word ++ r.1,r.2)
    else (word,after)
  else ([c],rest)

/-- Every turn consumes a character at least, so that there are no more turns than characters. -/
def interpolateSqlPlaceholders (sql : Text) : Text := (Lexis.steps (scanStep unicode resolve) sql).flatten

end

end HeliosNano.Sql.Interpolate
