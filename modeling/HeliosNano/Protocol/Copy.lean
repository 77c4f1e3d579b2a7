import HeliosNano.Foundation.Utf8Cuts
import HeliosNano.Storage.Basics
import Mathlib.Data.UInt

namespace HeliosNano.Protocol
open Foundation Storage

abbrev Text := List Char

/-- A row of fields; `none` is NULL. -/
abbrev Row := List (Option Text)

inductive CopyFormat
  | text
  | csv
  | binary
deriving DecidableEq

/-- The character that stands after a backslash, decoded. -/
def unescape : Char → Char
  | 't' => '\t'
  | 'n' => '\n'
  | 'r' => '\r'
  | 'b' => Char.ofNat 8
  | 'f' => Char.ofNat 12
  | 'v' => Char.ofNat 11
  | other => other

def unescapeChars : Text → Text
  | [] => []
  | '\\' :: c::rest => unescape c :: unescapeChars rest
  | c::rest => c :: unescapeChars rest

def decodeTextField (raw : Text) : Option Text := if raw = ['\\','N'] then none else some (unescapeChars raw)

/-- `strip_suffix('\r')`, or the line itself. -/
def stripCarriageReturn (line : Text) : Text := if line.getLast? = some '\r' then line.dropLast else line

def endOfData : Text := ['\\','.']

def textRow (line : Text) : Row := (line.splitOn '\t').map decodeTextField

/-- The loop over the lines; it stops at the end-of-data marker and passes over empty lines. -/
def parseTextLines : List Text → List Row
  | [] => []
  | line::rest =>
    let line := stripCarriageReturn line
    if line = endOfData then []
    else if line = [] then parseTextLines rest
    else textRow line :: parseTextLines rest

def parseTextRows (data : Bytes) : List Row := parseTextLines ((lossyText data).splitOn '\n')

def finishCsvField (field : Text) (wasQuoted : Bool) : Option Text := if !wasQuoted && field.isEmpty then none else some field

/-- The locals of `parse_csv_rows`. -/
structure CsvLocals where
  rows : List Row
  row : Row
  field : Text
  inQuotes : Bool
  wasQuoted : Bool
  fieldStarted : Bool

def CsvLocals.new : CsvLocals := ⟨[],[],[],false,false,false⟩

def CsvLocals.unquoted (s : CsvLocals) (c : Char) : CsvLocals :=
  if c = '"' ∧ s.fieldStarted = false then { s with inQuotes := true, wasQuoted := true, fieldStarted := true }
  else if c = ',' then
    { s with row := s.row ++ [finishCsvField s.field s.wasQuoted], field := [], wasQuoted := false, fieldStarted := false }
  else if c = '\r' then s
  else if c = '\n' then
    { s with
      rows := s.rows ++ [s.row ++ [finishCsvField s.field s.wasQuoted]], row := [], field := [], wasQuoted := false
      fieldStarted := false }
  else { s with field := s.field ++ [c], fieldStarted := true }

/-- The loop over the characters, which looks one character ahead inside quotes. -/
def csvLoop (s : CsvLocals) : Text → CsvLocals
  | [] => s
  | c::rest =>
    if s.inQuotes then
      if c = '"' then
        match rest with
        | '"' :: rest => csvLoop { s with field := s.field ++ ['"'] } rest
        | rest => csvLoop { s with inQuotes := false } rest
      else csvLoop { s with field := s.field ++ [c] } rest
    else csvLoop (s.unquoted c) rest
termination_by text => text.length

/-- The row that data leave that do not end with a newline. -/
def CsvLocals.trailing (s : CsvLocals) : List Row :=
  if s.fieldStarted || s.wasQuoted || !s.row.isEmpty then s.rows ++ [s.row ++ [finishCsvField s.field s.wasQuoted]] else s.rows

def parseCsvRows (data : Bytes) : List Row := (csvLoop .new (lossyText data)).trailing

/-- The last byte that is no continuation and how many bytes follow from it on, in a reversed buffer. -/
def findLead (trailing : Nat) : Bytes → Option (Nat × Nat)
  | [] => none
  | b::rest => if b.val &&& 0xC0 ≠ 0x80 then some (b.val,trailing+1) else findLead (trailing+1) rest

/-- The number of bytes of the sequence that a byte leads; `none` when it leads none. -/
def expectedLength (lead : Nat) : Option Nat :=
  if lead < 0x80 then some 1
  else if lead &&& 0xE0 = 0xC0 then some 2
  else if lead &&& 0xF0 = 0xE0 then some 3
  else if lead &&& 0xF8 = 0xF0 then some 4
  else none

/-- The bytes of an incomplete last character are held back. -/
def decodablePrefixLen (buf : Bytes) : Nat :=
  match findLead 0 (buf.reverse.take 4) with
  | none => buf.length
  | some (lead,trailing) =>
    match expectedLength lead with
    | none => buf.length
    | some expected => if trailing < expected then buf.length-trailing else buf.length

inductive CopyOverflow
  | rows
  | recordBytes
deriving DecidableEq

structure CopyStreamDecoder where
  format : CopyFormat
  rows : List Row
  maxRows : Nat
  maxRecordBytes : Nat
  recordBytes : Nat
  overflow : Bool
  overflowKind : Option CopyOverflow
  pending : Bytes
  textDone : Bool
  csvField : Text
  csvRow : Row
  csvInQuotes : Bool
  csvWasQuoted : Bool
  csvFieldStarted : Bool
  csvQuotePending : Bool
deriving DecidableEq

namespace CopyStreamDecoder

def new (format : CopyFormat) (maxRows maxRecordBytes : Nat) : CopyStreamDecoder where
  format
  rows := []
  maxRows
  maxRecordBytes
  recordBytes := 0
  overflow := false
  overflowKind := none
  pending := []
  textDone := false
  csvField := []
  csvRow := []
  csvInQuotes := false
  csvWasQuoted := false
  csvFieldStarted := false
  csvQuotePending := false

variable (d : CopyStreamDecoder) (chunk : Bytes)

/-- Every buffer is released. -/
def tripOverflow (kind : CopyOverflow) : CopyStreamDecoder :=
  { d with overflow := true, overflowKind := some kind, rows := [], pending := [], csvField := [], csvRow := [] }

def pushRow (row : Row) : CopyStreamDecoder :=
  if d.overflow then d
  else
    let pushed := { d with rows := d.rows ++ [row] }
    if pushed.maxRows ≠ 0 ∧ pushed.maxRows < pushed.rows.length then pushed.tripOverflow .rows else pushed

/-- The addition saturates at the largest `usize`. -/
def bumpRecordBytes (n : Nat) : CopyStreamDecoder :=
  if d.overflow ∨ d.maxRecordBytes = 0 then d
  else
    let bumped := { d with recordBytes := min (d.recordBytes+n) u64Max }
    if bumped.maxRecordBytes < bumped.recordBytes then bumped.tripOverflow .recordBytes else bumped

def consumeTextLine (line : Bytes) : CopyStreamDecoder :=
  let s := stripCarriageReturn (lossyText line)
  if s = endOfData then { d with textDone := true }
  else if s = [] then d
  else d.pushRow (textRow s)

/-- The loop over the bytes of a frame; `line` are those since the last newline. -/
def pushTextLoop (d : CopyStreamDecoder) (line : Bytes) : Bytes → CopyStreamDecoder
  | [] =>
    let d := d.bumpRecordBytes line.length
    if d.overflow then d else { d with pending := d.pending ++ line }
  | b::rest =>
    if b = 10 then
      let d := d.bumpRecordBytes line.length
      if d.overflow then d
      else
        let d := if d.pending = [] then d.consumeTextLine line else { d with pending := [] }.consumeTextLine (d.pending ++ line)
        let d := { d with recordBytes := 0 }
        if d.textDone then { d with pending := [] } else pushTextLoop d [] rest
    else pushTextLoop d (line ++ [b]) rest

def pushText : CopyStreamDecoder := if d.textDone then d else d.pushTextLoop [] chunk

/-- A last record without a newline is still a row. -/
def finishText : CopyStreamDecoder :=
  if !d.textDone ∧ d.pending ≠ [] then { d with pending := [] }.consumeTextLine d.pending else d

def feedUnquoted (c : Char) : CopyStreamDecoder :=
  if c = '"' ∧ d.csvFieldStarted = false then { d with csvInQuotes := true, csvWasQuoted := true, csvFieldStarted := true }
  else if c = ',' then
    { d with
      csvRow := d.csvRow ++ [finishCsvField d.csvField d.csvWasQuoted], csvField := [], csvWasQuoted := false
      csvFieldStarted := false }
  else if c = '\r' then d
  else if c = '\n' then
    { { d with csvRow := [] }.pushRow (d.csvRow ++ [finishCsvField d.csvField d.csvWasQuoted]) with
      csvField := [], csvWasQuoted := false, csvFieldStarted := false, recordBytes := 0 }
  else { d with csvField := d.csvField ++ [c], csvFieldStarted := true }

/-- A quote inside quotes waits for the next character, which may double it. -/
def feedCsvChar (c : Char) : CopyStreamDecoder :=
  let d := d.bumpRecordBytes c.utf8Size
  if d.overflow then d
  else if d.csvQuotePending then
    if c = '"' then { d with csvQuotePending := false, csvField := d.csvField ++ ['"'] }
    else { d with csvQuotePending := false, csvInQuotes := false }.feedUnquoted c
  else if d.csvInQuotes then
    if c = '"' then { d with csvQuotePending := true } else { d with csvField := d.csvField ++ [c] }
  else d.feedUnquoted c

def feedCsvText (d : CopyStreamDecoder) : Text → CopyStreamDecoder
  | [] => d
  | c::rest =>
    let d := d.feedCsvChar c
    if d.overflow then d else d.feedCsvText rest

def pushCsv : CopyStreamDecoder :=
  let buf := d.pending ++ chunk
  let take := decodablePrefixLen buf
  if take = 0 then { d with pending := buf }
  else { d with pending := buf.drop take }.feedCsvText (lossyText (buf.take take))

/-- The last row, after a quote that was waiting has closed its field. -/
def closeCsv : CopyStreamDecoder :=
  let d := if d.csvQuotePending then { d with csvQuotePending := false, csvInQuotes := false } else d
  if d.csvFieldStarted || d.csvWasQuoted || !d.csvRow.isEmpty then
    { d with csvRow := [] }.pushRow (d.csvRow ++ [finishCsvField d.csvField d.csvWasQuoted])
  else d

def finishCsv : CopyStreamDecoder :=
  if d.pending ≠ [] then
    let d := { d with pending := [] }.feedCsvText (lossyText d.pending)
    if d.overflow then d else d.closeCsv
  else d.closeCsv

/-- One `CopyData` frame. -/
def push : CopyStreamDecoder :=
  if d.overflow then d
  else
    match d.format with
    | .csv => d.pushCsv chunk
    | _ => d.pushText chunk

def finish : List Row :=
  if d.overflow then []
  else
    match d.format with
    | .csv => d.finishCsv.rows
    | _ => d.finishText.rows

end CopyStreamDecoder

end HeliosNano.Protocol
