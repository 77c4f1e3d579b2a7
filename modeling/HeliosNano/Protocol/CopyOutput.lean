import HeliosNano.Foundation.Utf8Order
import HeliosNano.Protocol.CopyStreaming

namespace HeliosNano.Protocol
open Foundation Storage List

def escapeChar : Char → Text
  | '\\' => ['\\','\\']
  | '\t' => ['\\','t']
  | '\n' => ['\\','n']
  | '\r' => ['\\','r']
  | other => [other]

def encodeTextField : Option Bytes → Text
  | none => ['\\','N']
  | some bytes => (lossyText bytes).flatMap escapeChar

def encodeTextRow (fields : List (Option Bytes)) : Bytes :=
  utf8Bytes (['\t'].intercalate (fields.map encodeTextField) ++ ['\n'])

def doubleQuote (c : Char) : Text := if c = '"' then ['"','"'] else [c]

/-- A field is quoted where it holds the delimiter, a quote or a line break. -/
def encodeCsvField : Option Bytes → Text
  | none => []
  | some bytes =>
    let s := lossyText bytes
    if ',' ∈ s ∨ '"' ∈ s ∨ '\n' ∈ s ∨ '\r' ∈ s then '"' :: s.flatMap doubleQuote ++ ['"'] else s

def encodeCsvRow (fields : List (Option Bytes)) : Bytes :=
  utf8Bytes ([','].intercalate (fields.map encodeCsvField) ++ ['\n'])

def rendered (row : Row) : List (Option Bytes) := row.map (Option.map utf8Bytes)

theorem lossyText_flatMap (rows : List Row) (encode : Row → Bytes) (line : Row → Text)
    (h : ∀ row, encode row = utf8Bytes (line row)) : lossyText (rows.flatMap encode) = rows.flatMap line := by
  have hb : rows.flatMap encode = utf8Bytes (rows.flatMap line) := by
    rw [utf8Bytes,flatMap_assoc,funext h]
    rfl
  rw [hb,lossyText_utf8Bytes]

section
variable (s : Text) (v : Option Text)

theorem unescapeChars_cons {c : Char} (hc : c ≠ '\\') : unescapeChars (c::s) = c :: unescapeChars s := by
  rw [unescapeChars]
  intro _ _ heq
  exact absurd heq hc

theorem unescapeChars_escape : unescapeChars (s.flatMap escapeChar) = s := by
  induction s with
  | nil => rfl
  | cons c rest ih =>
    rw [flatMap_cons,escapeChar.eq_def]
    split
    iterate 4 exact congrArg (_ :: ·) ih
    next hc _ _ _ => rw [cons_append,nil_append,unescapeChars_cons _ hc,ih]

def textField : Text := encodeTextField (v.map utf8Bytes)

theorem textField_some : textField (some s) = s.flatMap escapeChar := by
  rw [textField,Option.map_some,encodeTextField,lossyText_utf8Bytes]

theorem decodeTextField_textField : decodeTextField (textField v) = v := by
  cases v with
  | none => rfl
  | some s =>
    rw [textField_some,decodeTextField,if_neg,unescapeChars_escape]
    intro heq
    have hs := congrArg unescapeChars heq
    rw [unescapeChars_escape] at hs
    subst hs
    exact absurd heq (by decide)

theorem separator_notMem_textField : ∀ c ∈ textField v, c ≠ '\t' ∧ c ≠ '\n' ∧ c ≠ '\r' := by
  cases v with
  | none =>
    intro c hc
    obtain rfl | rfl := by simpa [textField,encodeTextField] using hc
    · simp
    · simp
  | some s =>
    intro c hc
    rw [textField_some] at hc
    obtain ⟨d,-,hc⟩ := mem_flatMap.mp hc
    rw [escapeChar.eq_def] at hc
    split at hc
    iterate 4
      next =>
        rw [mem_cons,mem_singleton] at hc
        obtain rfl | rfl := hc <;> simp
    next ht hn hr =>
      obtain rfl := mem_singleton.mp hc
      exact ⟨ht,hn,hr⟩

end

def textLine (row : Row) : Text := ['\t'].intercalate (row.map textField)

theorem break_notMem_textLine (row : Row) : ∀ c ∈ textLine row, c ≠ '\n' ∧ c ≠ '\r' := by
  induction row with
  | nil => simp [textLine]
  | cons v rest ih =>
    intro c hc
    cases rest with
    | nil => exact (separator_notMem_textField v c (by simpa [textLine] using hc)).2
    | cons w rest =>
      rw [textLine,map_cons,map_cons,intercalate_cons_cons,mem_append,mem_append,mem_singleton] at hc
      obtain (hc | rfl) | hc := hc
      · exact (separator_notMem_textField v c hc).2
      · decide
      · exact ih c hc

section
variable {row : Row} (h : row ≠ [])
include h

theorem textRow_textLine : textRow (textLine row) = row := by
  rw [textRow,textLine,splitOn_intercalate _ (fun l hl => ?_) (by simpa using h),map_map]
  · exact (map_congr_left fun v _ => decodeTextField_textField v).trans (map_id _)
  · obtain ⟨v,-,rfl⟩ := mem_map.mp hl
    exact fun hm => (separator_notMem_textField v _ hm).1 rfl

theorem parseTextLines_textLine (rest : List Text) :
    parseTextLines (textLine row :: rest) = if row = [some []] then parseTextLines rest else row :: parseTextLines rest := by
  have hr := textRow_textLine h
  have hs : stripCarriageReturn (textLine row) = textLine row :=
    if_neg fun heq => (break_notMem_textLine row _ (mem_of_getLast? heq)).2 rfl
  have he : textLine row = [] ↔ row = [some []] := by
    constructor
    · intro heq
      rw [← hr,heq]
      rfl
    · rintro rfl
      rfl
  rw [parseTextLines,hs,if_neg,hr]
  · simp only [he]
  · intro heq
    rw [heq] at hr
    subst hr
    exact absurd heq (by decide)

end

theorem parseTextRows_encode {rows : List Row} (h : ∀ row ∈ rows, row ≠ []) :
    parseTextRows (rows.flatMap fun row => encodeTextRow (rendered row)) = rows.filter fun row => decide (row ≠ [some []]) := by
  have hl := lossyText_flatMap rows (fun row => encodeTextRow (rendered row)) (fun row => textLine row ++ ['\n']) fun row => by rw [encodeTextRow,rendered,map_map]; rfl
  rw [parseTextRows,hl]
  clear hl
  induction rows with
  | nil => rfl
  | cons row rest ih =>
    obtain ⟨hr,hrest⟩ := forall_mem_cons.mp h
    rw [flatMap_cons,append_assoc,singleton_append,splitOn_eq_splitOnP,
      splitOnP_append_cons_of_forall_mem (fun c hc => by simpa using (break_notMem_textLine row c hc).1) '\n' rfl,
      parseTextLines_textLine hr,← splitOn_eq_splitOnP,ih hrest,filter_cons]
    by_cases he : row = [some []]
    · simp [he]
    · simp [he]

def readBack (v : Option Text) : Option Text := if v = some [] then none else v

def csvField (v : Option Text) : Text := encodeCsvField (v.map utf8Bytes)

section
variable {rows : List Row} {row : Row} {field : Text} {started : Bool}

theorem foldl_feed_bare {s : Text} (h : ∀ c ∈ s, c ≠ ',' ∧ c ≠ '"' ∧ c ≠ '\n' ∧ c ≠ '\r') :
    s.foldl feed (⟨rows,row,field,false,false,started⟩,false) =
      (⟨rows,row,field ++ s,false,false,started || !s.isEmpty⟩,false) := by
  induction s generalizing field started with
  | nil => simp
  | cons c s ih =>
    obtain ⟨⟨hc,hq,hn,hr⟩,hs⟩ := forall_mem_cons.mp h
    have hf : feed (⟨rows,row,field,false,false,started⟩,false) c = (⟨rows,row,field ++ [c],false,false,true⟩,false) := by
      simp [feed,CsvLocals.unquoted,hc,hq,hn,hr]
    rw [foldl_cons,hf,ih hs]
    simp

theorem foldl_feed_quoted (s : Text) : (s.flatMap doubleQuote).foldl feed (⟨rows,row,field,true,true,true⟩,false) =
    (⟨rows,row,field ++ s,true,true,true⟩,false) := by
  induction s generalizing field with
  | nil => simp
  | cons c s ih =>
    have hf : (doubleQuote c).foldl feed (⟨rows,row,field,true,true,true⟩,false) =
        (⟨rows,row,field ++ [c],true,true,true⟩,false) := by
      rw [doubleQuote]
      split
      next hc => simp [feed,hc]
      next hc => simp [feed,hc]
    rw [flatMap_cons,foldl_append,hf,ih]
    simp

theorem foldl_feed_field (rows : List Row) (row : Row) (v : Option Text) : ∃ field quoted started,
    finishCsvField field quoted = readBack v ∧ ∀ d, d ≠ '"' →
      feed ((csvField v).foldl feed (⟨rows,row,[],false,false,false⟩,false)) d =
        (CsvLocals.unquoted ⟨rows,row,field,false,quoted,started⟩ d,false) := by
  cases v with
  | none => exact ⟨[],false,false,rfl,fun d _ => rfl⟩
  | some s =>
    rw [csvField,Option.map_some,encodeCsvField,lossyText_utf8Bytes]
    split
    next hs =>
      have hne : s ≠ [] := by
        rintro rfl
        simp at hs
      refine ⟨s,true,true,by simp [finishCsvField,readBack,hne],fun d hd => ?_⟩
      have hf : feed (⟨rows,row,[],false,false,false⟩,false) '"' = (⟨rows,row,[],true,true,true⟩,false) := rfl
      rw [cons_append,foldl_cons,hf,foldl_append,foldl_feed_quoted,nil_append]
      simp [feed,hd]
    next hs =>
      refine ⟨s,false,false || !s.isEmpty,by cases s <;> rfl,fun d _ => ?_⟩
      rw [foldl_feed_bare fun c hc => ?_]
      · rfl
      · refine ⟨?_,?_,?_,?_⟩
        all_goals
          rintro rfl
          exact hs (by simp [hc])

def csvLine (row : Row) : Text := [','].intercalate (row.map csvField) ++ ['\n']

theorem foldl_feed_csvLine {fields : Row} (h : fields ≠ []) : (csvLine fields).foldl feed (⟨rows,row,[],false,false,false⟩,false) =
    (⟨rows ++ [row ++ fields.map readBack],[],[],false,false,false⟩,false) := by
  induction fields generalizing row with
  | nil => exact absurd rfl h
  | cons v fields ih =>
    obtain ⟨field,quoted,started,hf,hl⟩ := foldl_feed_field rows row v
    cases fields with
    | nil =>
      rw [csvLine,map_cons,map_nil,intercalate_singleton,foldl_append,foldl_cons,hl _ (by decide)]
      simp [CsvLocals.unquoted,hf]
    | cons w fields =>
      have hc : csvLine (v::w::fields) = csvField v ++ ',' :: csvLine (w::fields) := by simp [csvLine]
      rw [hc,foldl_append,foldl_cons,hl _ (by decide)]
      rw [CsvLocals.unquoted,if_neg (fun hno => absurd hno.1 (by decide)),if_pos rfl,hf,ih (cons_ne_nil _ _)]
      simp

theorem parseCsvRows_encode (h : ∀ row ∈ rows, row ≠ []) :
    parseCsvRows (rows.flatMap fun row => encodeCsvRow (rendered row)) = rows.map (map readBack) := by
  have hl := lossyText_flatMap rows (fun row => encodeCsvRow (rendered row)) csvLine fun row => by rw [encodeCsvRow,rendered,map_map]; rfl
  have hr : ∀ acc : List Row, (rows.flatMap csvLine).foldl feed (⟨acc,[],[],false,false,false⟩,false) =
      (⟨acc ++ rows.map (map readBack),[],[],false,false,false⟩,false) := by
    clear hl
    induction rows with
    | nil => simp
    | cons row rest ih =>
      obtain ⟨hrow,hrest⟩ := forall_mem_cons.mp h
      intro acc
      rw [flatMap_cons,foldl_append,foldl_feed_csvLine hrow,ih hrest]
      simp
  rw [parseCsvRows,hl,← settle_foldl_feed,CsvLocals.new,hr []]
  rfl

end

/-- COPY text loses the rows of one empty string, COPY CSV turns empty strings into NULL; all else is read back. -/
theorem copy_round_trip_iff (rows : List Row) (h : ∀ row ∈ rows, row ≠ []) :
    (parseTextRows (rows.flatMap fun row => encodeTextRow (rendered row)) = rows ↔ [some []] ∉ rows) ∧
      (parseCsvRows (rows.flatMap fun row => encodeCsvRow (rendered row)) = rows ↔ ∀ row ∈ rows, some [] ∉ row) := by
  rw [parseTextRows_encode h,parseCsvRows_encode h]
  constructor
  · rw [filter_eq_self]
    constructor
    · intro hf hm
      simpa using hf _ hm
    · intro hno row hm
      rw [decide_eq_true_eq]
      rintro rfl
      exact hno hm
  · have hb : ∀ v, readBack v = v ↔ v ≠ some [] := by
      intro v
      rw [readBack]
      split <;> simp_all
    have hm : ∀ row : Row, row.map readBack = row ↔ some [] ∉ row := by
      intro row
      induction row with
      | nil => simp
      | cons v rest ih => rw [map_cons,cons.injEq,hb,ih,mem_cons,not_or,ne_comm]
    clear h
    induction rows with
    | nil => simp
    | cons row rest ih =>
      rw [map_cons,cons.injEq,hm,forall_mem_cons]
      exact and_congr_right' ih

theorem copy_round_trip_null :
    parseTextRows ([[none]].flatMap fun row => encodeTextRow (rendered row)) = [[none]] ∧
      parseCsvRows ([[none]].flatMap fun row => encodeCsvRow (rendered row)) = [[none]] :=
  have hi := copy_round_trip_iff [[none]] (by decide)
  ⟨hi.1.mpr (by decide),hi.2.mpr (by decide)⟩

/-- A row of one empty string is an empty line. -/
theorem copy_round_trip_empty :
    ¬(∀ rows : List Row, (∀ row ∈ rows, row ≠ []) → parseTextRows (rows.flatMap fun row => encodeTextRow (rendered row)) = rows) ∧
      ¬∀ rows : List Row, (∀ row ∈ rows, row ≠ []) → parseCsvRows (rows.flatMap fun row => encodeCsvRow (rendered row)) = rows := by
  have hr : ∀ row ∈ [[some ([] : Text)]], row ≠ [] := by decide
  constructor
  · intro ha
    have he := ha _ hr
    rw [parseTextRows_encode hr] at he
    exact absurd he (by decide)
  · intro ha
    have he := ha _ hr
    rw [parseCsvRows_encode hr] at he
    exact absurd he (by decide)

/-- What COPY TO writes, cut into frames anywhere, streams back as the rows: COPY text without those of one empty string, which
are empty lines, and COPY CSV with empty strings read as NULL. -/
theorem copy_in_frames {rows : List Row} (h : ∀ row ∈ rows, row ≠ []) {text csv : List Bytes}
    (ht : text.flatten = rows.flatMap fun row => encodeTextRow (rendered row))
    (hc : csv.flatten = rows.flatMap fun row => encodeCsvRow (rendered row)) :
    (text.foldl CopyStreamDecoder.push (.new .text 0 0)).finish = rows.filter (fun row => decide (row ≠ [some []])) ∧
      (csv.foldl CopyStreamDecoder.push (.new .csv 0 0)).finish = rows.map (map readBack) := by
  constructor
  · rw [← parseTextRows_encode h,← ht]
    exact CopyStreamDecoder.textAnswer_foldl_push (CopyStreamDecoder.unlimited_new .text) rfl (fun _ => (absurd · not_mem_nil)) text
  · rw [← parseCsvRows_encode h,← hc,CopyStreamDecoder.csvAnswer_foldl_push (CopyStreamDecoder.unlimited_new .csv) rfl,parseCsvRows,
      ← settle_foldl_feed]
    rfl

theorem copy_in_two_frames :
    let rows : List Row := [[some ['a','\t'],none],[some ['b'],some []]]
    let text := rows.flatMap fun row => encodeTextRow (rendered row)
    let csv := rows.flatMap fun row => encodeCsvRow (rendered row)
    ([text.take 8,text.drop 8].foldl CopyStreamDecoder.push (.new .text 0 0)).finish = rows ∧
      ([csv.take 3,csv.drop 3].foldl CopyStreamDecoder.push (.new .csv 0 0)).finish = rows.map (map readBack) := by
  intro rows text csv
  exact @copy_in_frames rows (by decide) [text.take 8,text.drop 8] [csv.take 3,csv.drop 3] (by simp [text]) (by simp [csv])

end HeliosNano.Protocol
