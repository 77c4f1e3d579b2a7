import HeliosNano.Protocol.Copy

namespace HeliosNano.Protocol
open Foundation Storage List

theorem and_ne_iff (b : Fin 256) : b.val &&& 0xC0 ≠ 0x80 ↔ ¬(0x80 ≤ b.val ∧ b.val ≤ 0xBF) := by
  revert b
  decide +kernel

theorem expectedLength_eq (b : Fin 256) : 0xC2 ≤ b.val ∧ b.val ≤ 0xF4 → expectedLength b.val = some (sequenceLength b.val) := by
  revert b
  decide +kernel

theorem findLead_append {continuations : Bytes} (h : ∀ b ∈ continuations, IsContinuation b) {lead : Fin 256}
    (hl : ¬IsContinuation lead) (trailing : Nat) (before : Bytes) :
    findLead trailing (continuations ++ lead::before) = some (lead.val,trailing+continuations.length+1) := by
  induction continuations generalizing trailing with
  | nil => exact if_pos ((and_ne_iff lead).mpr hl)
  | cons b rest ih =>
    obtain ⟨hb,hrest⟩ := forall_mem_cons.mp h
    rw [cons_append,findLead,if_neg (fun hno => (and_ne_iff b).mp hno hb),ih hrest,length_cons]
    simp only [Nat.add_assoc,Nat.add_comm 1]

variable {lead k : Nat}

theorem findLead_eq_some {trailing : Nat} {reversed : Bytes} (h : findLead trailing reversed = some (lead,k)) :
    ∃ (continuations : Bytes) (b : Fin 256) (before : Bytes),
      reversed = continuations ++ b::before ∧ ¬IsContinuation b ∧ k = trailing+continuations.length+1 := by
  induction reversed generalizing trailing with
  | nil => cases h
  | cons b rest ih =>
    rw [findLead] at h
    split at h
    next hb =>
      cases h
      exact ⟨[],b,rest,rfl,(and_ne_iff b).mp hb,rfl⟩
    · obtain ⟨continuations,lead',before,rfl,hl,rfl⟩ := ih h
      refine ⟨b::continuations,lead',before,rfl,hl,?_⟩
      rw [length_cons]
      omega

theorem drop_of_findLead {buf : Bytes} (h : findLead 0 (buf.reverse.take 4) = some (lead,k)) :
    ∃ (c : Fin 256) (held : Bytes), buf.drop (buf.length-k) = c::held ∧ ¬IsContinuation c := by
  obtain ⟨continuations,c,before,htk,hc,rfl⟩ := findLead_eq_some h
  obtain ⟨tail,htl⟩ : ∃ tail, buf.reverse = buf.reverse.take 4 ++ tail := ⟨_,(take_append_drop 4 _).symm⟩
  rw [htk] at htl
  have hs : buf = (before ++ tail).reverse ++ c::continuations.reverse := by
    rw [reverse_eq_iff] at htl
    rw [htl]
    simp only [reverse_append,reverse_cons,append_assoc,singleton_append]
  have hct : buf.length-(0+continuations.length+1) = (before ++ tail).reverse.length := by
    have hl := congrArg List.length hs
    have hr : continuations.reverse.length = continuations.length := length_reverse
    rw [length_append,length_cons] at hl
    omega
  refine ⟨c,continuations.reverse,?_,hc⟩
  rw [hct,hs]
  exact drop_left

theorem decodablePrefixLen_spec (buf : Bytes) : (decodablePrefixLen buf = buf.length ∧ stateAfter none buf = none) ∨
      ∃ (c : Fin 256) (held : Bytes), buf.drop (decodablePrefixLen buf) = c::held ∧ ¬IsContinuation c := by
  by_cases ha : decodablePrefixLen buf = buf.length
  · refine .inl ⟨ha,?_⟩
    cases hst : stateAfter none buf with
    | none => rfl
    | some q =>
      obtain ⟨-,p,hno,-⟩ | ⟨before,lead,continuations,rfl,hc,hl,hcn⟩ :=
        exists_lead_of_stateAfter sane_none hst
      · cases hno
      -- the started sequence would have been held back
      exfalso
      have hrm := (stateAfter_sane sane_none hst).remaining
      have hln : sequenceLength lead ≤ 4 := by
        rw [sequenceLength]
        split_ifs <;> omega
      have hr : (before ++ lead::continuations).reverse.take 4 =
          continuations.reverse ++ lead :: before.reverse.take (3-continuations.length) := by
        have hfr : 4 = continuations.reverse.length+((3-continuations.length)+1) := by
          rw [length_reverse]
          omega
        rw [reverse_append,reverse_cons,append_assoc,singleton_append,hfr,
          take_length_add_append,take_succ_cons]
      have hf := findLead_append (fun b hb => hc b (mem_reverse.mp hb))
        (fun hno : IsContinuation lead => by have := hno.2; omega) 0 (before.reverse.take (3-continuations.length))
      rw [length_reverse,Nat.zero_add] at hf
      rw [decodablePrefixLen,hr,hf] at ha
      dsimp only at ha
      rw [expectedLength_eq lead hl] at ha
      dsimp only at ha
      rw [if_pos (by omega)] at ha
      rw [length_append,length_cons] at ha
      omega
  · refine .inr ?_
    rw [decodablePrefixLen] at ha ⊢
    cases hf : findLead 0 (buf.reverse.take 4) with
    | none =>
      rw [hf] at ha
      exact absurd rfl ha
    | some entry =>
      obtain ⟨lead,trailing⟩ := entry
      rw [hf] at ha
      dsimp only at ha ⊢
      cases hexpd : expectedLength lead with
      | none =>
        rw [hexpd] at ha
        exact absurd rfl ha
      | some expected =>
        rw [hexpd] at ha
        dsimp only at ha ⊢
        split at ha
        next hls =>
          rw [if_pos hls]
          exact drop_of_findLead hf
        · exact absurd rfl ha

theorem lossyText_decodablePrefix (buf more : Bytes) : lossyText (buf ++ more) =
      lossyText (buf.take (decodablePrefixLen buf)) ++ lossyText (buf.drop (decodablePrefixLen buf) ++ more) := by
  obtain ⟨ha,he⟩ | ⟨c,held,hd,hc⟩ := decodablePrefixLen_spec buf
  · rw [ha,take_length,drop_length,nil_append]
    exact lossyText_append_of_ended he more
  · conv_lhs => rw [← take_append_drop (decodablePrefixLen buf) buf]
    rw [hd,append_assoc,cons_append]
    exact lossyText_append_of_not_continuation _ hc _

/-! The CSV machine without its buffers: the locals of the parser, and whether a quote is waiting. -/

def feed (v : CsvLocals × Bool) (c : Char) : CsvLocals × Bool :=
  if v.2 then
    if c = '"' then ({ v.1 with field := v.1.field ++ ['"'] },false) else ({ v.1 with inQuotes := false }.unquoted c,false)
  else if v.1.inQuotes then
    if c = '"' then (v.1,true) else ({ v.1 with field := v.1.field ++ [c] },false)
  else (v.1.unquoted c,false)

def settle (v : CsvLocals × Bool) : CsvLocals := if v.2 then { v.1 with inQuotes := false } else v.1

theorem settle_foldl_feed (s : CsvLocals) (text : Text) : settle (text.foldl feed (s,false)) = csvLoop s text := by
  induction s, text using csvLoop.induct with
  | case1 s => rw [csvLoop]; rfl
  | case2 s hq rest ih =>
    -- a doubled quote
    rw [csvLoop,if_pos hq,if_pos rfl,← ih]
    simp only [foldl_cons,feed,hq,if_true,if_false,Bool.false_eq_true]
  | case3 s hq rest ho ih =>
    have hl : csvLoop s ('"' :: rest) = csvLoop { s with inQuotes := false } rest := by
      rw [csvLoop.eq_def]
      dsimp only
      rw [if_pos hq,if_pos rfl]
      split
      · exact absurd rfl (ho _)
      · rfl
    rw [hl,← ih,foldl_cons]
    have hw : feed (s,false) '"' = (s,true) := by
      simp only [feed,hq,if_true,if_false,Bool.false_eq_true]
    rw [hw]
    cases rest with
    | nil => rfl
    | cons c rest =>
      have hc : c ≠ '"' := fun hno => ho rest (by rw [hno])
      simp only [foldl_cons,feed,if_true,if_neg hc,if_false,Bool.false_eq_true]
  | case4 s c rest hq hc ih =>
    rw [csvLoop.eq_def]
    dsimp only
    rw [if_pos hq,if_neg hc,← ih,foldl_cons]
    simp only [feed,hq,if_true,if_neg hc,if_false,Bool.false_eq_true]
  | case5 s c rest hq ih =>
    rw [csvLoop.eq_def]
    dsimp only
    rw [if_neg hq,← ih,foldl_cons]
    simp only [feed,if_neg hq,if_false,Bool.false_eq_true]

namespace CopyStreamDecoder

structure Unlimited (d : CopyStreamDecoder) : Prop where
  maxRows : d.maxRows = 0
  maxRecordBytes : d.maxRecordBytes = 0
  overflow : d.overflow = false

theorem unlimited_new (format : CopyFormat) : (new format 0 0).Unlimited := ⟨rfl,rfl,rfl⟩

variable {d : CopyStreamDecoder}

theorem Unlimited.not_overflow (h : d.Unlimited) : ¬d.overflow = true := fun hno => Bool.false_ne_true (h.overflow.symm.trans hno)

theorem Unlimited.bumpRecordBytes (h : d.Unlimited) (n : Nat) : d.bumpRecordBytes n = d := if_pos (.inr h.maxRecordBytes)

theorem Unlimited.pushRow (h : d.Unlimited) (row : Row) : d.pushRow row = { d with rows := d.rows ++ [row] } := by
  rw [CopyStreamDecoder.pushRow,if_neg h.not_overflow]
  exact if_neg fun hno => hno.1 h.maxRows

def view (d : CopyStreamDecoder) : CsvLocals × Bool :=
  (⟨d.rows,d.csvRow,d.csvField,d.csvInQuotes,d.csvWasQuoted,d.csvFieldStarted⟩,d.csvQuotePending)

/-- A step of the CSV machine leaves the caps and the bytes that wait. -/
structure Fed (d d' : CopyStreamDecoder) (v : CsvLocals × Bool) : Prop where
  unlimited : d'.Unlimited
  format : d'.format = d.format
  pending : d'.pending = d.pending
  view : d'.view = v

theorem Unlimited.feedUnquoted (h : d.Unlimited) (c : Char) :
    Fed d (d.feedUnquoted c) (d.view.1.unquoted c,d.csvQuotePending) := by
  rw [CopyStreamDecoder.feedUnquoted,CsvLocals.unquoted]
  have hr : ({ d with csvRow := [] } : CopyStreamDecoder).Unlimited := ⟨h.maxRows,h.maxRecordBytes,h.overflow⟩
  by_cases hqu : c = '"' ∧ d.csvFieldStarted = false
  · rw [if_pos hqu,if_pos (show c = '"' ∧ d.view.1.fieldStarted = false from hqu)]
    exact ⟨⟨h.maxRows,h.maxRecordBytes,h.overflow⟩,rfl,rfl,rfl⟩
  · rw [if_neg hqu,if_neg (show ¬(c = '"' ∧ d.view.1.fieldStarted = false) from hqu),hr.pushRow]
    split_ifs
    all_goals exact ⟨⟨h.maxRows,h.maxRecordBytes,h.overflow⟩,rfl,rfl,rfl⟩

theorem Unlimited.feedCsvChar (h : d.Unlimited) (c : Char) : Fed d (d.feedCsvChar c) (feed d.view c) := by
  rw [CopyStreamDecoder.feedCsvChar,h.bumpRecordBytes,if_neg h.not_overflow,feed]
  have hv : d.view.2 = d.csvQuotePending := rfl
  have hi : d.view.1.inQuotes = d.csvInQuotes := rfl
  rw [hv,hi]
  by_cases hp : d.csvQuotePending = true
  · rw [if_pos hp,if_pos hp]
    by_cases hc : c = '"'
    · rw [if_pos hc,if_pos hc]
      exact ⟨⟨h.maxRows,h.maxRecordBytes,h.overflow⟩,rfl,rfl,rfl⟩
    rw [if_neg hc,if_neg hc]
    have hcl : ({ d with csvQuotePending := false, csvInQuotes := false } : CopyStreamDecoder).Unlimited :=
      ⟨h.maxRows,h.maxRecordBytes,h.overflow⟩
    obtain ⟨hu,hfm,hb,hf⟩ := hcl.feedUnquoted c
    exact ⟨hu,hfm,hb,hf⟩
  · rw [if_neg hp,if_neg hp]
    by_cases hq : d.csvInQuotes = true
    · rw [if_pos hq,if_pos hq]
      by_cases hc : c = '"'
      · rw [if_pos hc,if_pos hc]
        exact ⟨⟨h.maxRows,h.maxRecordBytes,h.overflow⟩,rfl,rfl,rfl⟩
      · rw [if_neg hc,if_neg hc]
        refine ⟨⟨h.maxRows,h.maxRecordBytes,h.overflow⟩,rfl,rfl,?_⟩
        exact Prod.ext rfl (Bool.eq_false_iff.mpr hp)
    · rw [if_neg hq,if_neg hq]
      obtain ⟨hu,hfm,hb,hf⟩ := h.feedUnquoted c
      refine ⟨hu,hfm,hb,hf.trans ?_⟩
      exact Prod.ext rfl (Bool.eq_false_iff.mpr hp)

theorem Unlimited.feedCsvText (h : d.Unlimited) (text : Text) : Fed d (d.feedCsvText text) (text.foldl feed d.view) := by
  induction text generalizing d with
  | nil => exact ⟨h,rfl,rfl,rfl⟩
  | cons c rest ih =>
    obtain ⟨hu,hfm,hb,hf⟩ := h.feedCsvChar c
    rw [CopyStreamDecoder.feedCsvText,if_neg hu.not_overflow,foldl_cons,← hf]
    obtain ⟨hu',hfm',hb',hf'⟩ := ih hu
    exact ⟨hu',hfm'.trans hfm,hb'.trans hb,hf'⟩

/-- The rows that a decoder returns when these bytes and no others follow. -/
def csvAnswer (d : CopyStreamDecoder) (more : Bytes) : List Row :=
  (settle ((lossyText (d.pending ++ more)).foldl feed d.view)).trailing

variable (h : d.Unlimited)
include h

theorem csvAnswer_pushCsv (chunk more : Bytes) : (d.pushCsv chunk).Unlimited ∧ (d.pushCsv chunk).format = d.format ∧
      (d.pushCsv chunk).csvAnswer more = d.csvAnswer (chunk ++ more) := by
  rw [CopyStreamDecoder.pushCsv]
  split
  · refine ⟨⟨h.maxRows,h.maxRecordBytes,h.overflow⟩,rfl,?_⟩
    rw [csvAnswer,csvAnswer,← append_assoc]
    rfl
  · have hk : ({ d with pending := (d.pending ++ chunk).drop (decodablePrefixLen (d.pending ++ chunk)) } :
        CopyStreamDecoder).Unlimited := ⟨h.maxRows,h.maxRecordBytes,h.overflow⟩
    obtain ⟨hu,hfm,hb,hf⟩ :=
      hk.feedCsvText (lossyText ((d.pending ++ chunk).take (decodablePrefixLen (d.pending ++ chunk))))
    refine ⟨hu,hfm,?_⟩
    rw [csvAnswer,hb,hf,csvAnswer,← append_assoc,lossyText_decodablePrefix (d.pending ++ chunk) more,
      foldl_append]
    rfl

theorem Unlimited.closeCsv : d.closeCsv.rows = (settle d.view).trailing := by
  rw [CopyStreamDecoder.closeCsv,settle]
  have hv : d.view.2 = d.csvQuotePending := rfl
  rw [hv]
  have hc : ∀ d' : CopyStreamDecoder, d'.Unlimited →
      (if d'.csvFieldStarted || d'.csvWasQuoted || !d'.csvRow.isEmpty then
        ({ d' with csvRow := [] } : CopyStreamDecoder).pushRow (d'.csvRow ++ [finishCsvField d'.csvField d'.csvWasQuoted])
      else d').rows = d'.view.1.trailing := by
    intro d' hd'
    have hr : ({ d' with csvRow := [] } : CopyStreamDecoder).Unlimited := ⟨hd'.maxRows,hd'.maxRecordBytes,hd'.overflow⟩
    rw [hr.pushRow,CsvLocals.trailing]
    exact apply_ite CopyStreamDecoder.rows _ _ _
  by_cases hp : d.csvQuotePending = true
  · rw [if_pos hp,if_pos hp]
    exact hc _ ⟨h.maxRows,h.maxRecordBytes,h.overflow⟩
  · rw [if_neg hp,if_neg hp]
    exact hc d h

theorem Unlimited.finishCsv : d.finishCsv.rows = d.csvAnswer [] := by
  rw [CopyStreamDecoder.finishCsv,csvAnswer,append_nil]
  by_cases hp : d.pending = []
  · rw [if_neg (not_not_intro hp),hp,lossyText_nil]
    exact h.closeCsv
  rw [if_pos hp]
  have hk : ({ d with pending := [] } : CopyStreamDecoder).Unlimited := ⟨h.maxRows,h.maxRecordBytes,h.overflow⟩
  obtain ⟨hu,-,-,hf⟩ := hk.feedCsvText (lossyText d.pending)
  dsimp only
  rw [if_neg hu.not_overflow,hu.closeCsv,hf]
  rfl

theorem csvAnswer_foldl_push (hf : d.format = .csv) (frames : List Bytes) :
    (frames.foldl push d).finish = d.csvAnswer frames.flatten := by
  induction frames generalizing d with
  | nil =>
    rw [foldl_nil,finish,if_neg h.not_overflow,hf]
    exact h.finishCsv
  | cons chunk frames ih =>
    obtain ⟨hu,hf',ha⟩ := csvAnswer_pushCsv h chunk frames.flatten
    have hp : d.push chunk = d.pushCsv chunk := by
      rw [push,if_neg h.not_overflow,hf]
    rw [foldl_cons,hp,ih hu (hf'.trans hf),ha,flatten_cons]

omit h

/-- The rows that a decoder returns when these bytes and no others follow. -/
def textAnswer (d : CopyStreamDecoder) (more : Bytes) : List Row :=
  if d.textDone then d.rows else d.rows ++ parseTextLines ((lossyText (d.pending ++ more)).splitOn '\n')

variable {line : Bytes}

theorem splitOn_lossyText (h : ∀ b ∈ line, b ≠ 10) (rest : Bytes) :
    (lossyText (line ++ 10::rest)).splitOn '\n' = lossyText line :: (lossyText rest).splitOn '\n' := by
  rw [lossyText_append_newline,splitOn_eq_splitOnP,splitOn_eq_splitOnP]
  refine splitOnP_append_cons_of_forall_mem (fun c hc => ?_) '\n' rfl _
  exact beq_eq_false_iff_ne.mpr fun heq => newline_not_mem_lossyText h (heq ▸ hc)

theorem splitOn_lossyText_singleton (h : ∀ b ∈ line, b ≠ 10) : (lossyText line).splitOn '\n' = [lossyText line] := by
  rw [splitOn_eq_splitOnP]
  refine splitOnP_eq_singleton fun c hc => ?_
  exact beq_eq_false_iff_ne.mpr fun heq => newline_not_mem_lossyText h (heq ▸ hc)

variable (h : d.Unlimited)
include h

theorem Unlimited.consumeTextLine (hd : d.textDone = false) (line : Bytes) :
    (d.consumeTextLine line).Unlimited ∧ (d.consumeTextLine line).format = d.format ∧
      (d.consumeTextLine line).pending = d.pending ∧
      ∀ rest, d.rows ++ parseTextLines (lossyText line :: rest) =
        if (d.consumeTextLine line).textDone then (d.consumeTextLine line).rows
        else (d.consumeTextLine line).rows ++ parseTextLines rest := by
  rw [CopyStreamDecoder.consumeTextLine]
  simp only [parseTextLines]
  by_cases he : stripCarriageReturn (lossyText line) = endOfData
  · rw [if_pos he]
    refine ⟨⟨h.maxRows,h.maxRecordBytes,h.overflow⟩,rfl,rfl,fun rest => ?_⟩
    rw [if_pos he,append_nil]
    rfl
  · rw [if_neg he]
    by_cases hem : stripCarriageReturn (lossyText line) = []
    · rw [if_pos hem]
      refine ⟨h,rfl,rfl,fun rest => ?_⟩
      rw [if_neg he,if_pos hem,hd,if_neg Bool.false_ne_true]
    · rw [if_neg hem,h.pushRow]
      refine ⟨⟨h.maxRows,h.maxRecordBytes,h.overflow⟩,rfl,rfl,fun rest => ?_⟩
      rw [if_neg he,if_neg hem]
      dsimp only
      rw [hd,if_neg Bool.false_ne_true,append_assoc,singleton_append]

theorem textAnswer_pushTextLoop (hd : d.textDone = false) (hp : ∀ b ∈ d.pending, b ≠ 10)
    (hl : ∀ b ∈ line, b ≠ 10) (chunk : Bytes) :
    (d.pushTextLoop line chunk).Unlimited ∧ (d.pushTextLoop line chunk).format = d.format ∧
      (∀ b ∈ (d.pushTextLoop line chunk).pending, b ≠ 10) ∧
      ∀ more, (d.pushTextLoop line chunk).textAnswer more = d.textAnswer (line ++ chunk ++ more) := by
  induction chunk generalizing d line with
  | nil =>
    rw [pushTextLoop,h.bumpRecordBytes,if_neg h.not_overflow]
    refine ⟨⟨h.maxRows,h.maxRecordBytes,h.overflow⟩,rfl,fun b hb => ?_,fun more => ?_⟩
    · obtain hb | hb := mem_append.mp hb
      · exact hp b hb
      · exact hl b hb
    · rw [textAnswer,textAnswer,append_nil,← append_assoc]
  | cons b rest ih =>
    rw [pushTextLoop]
    by_cases hb : b = 10
    · subst hb
      rw [if_pos rfl,h.bumpRecordBytes,if_neg h.not_overflow]
      have hfl : ∀ b ∈ d.pending ++ line, b ≠ 10 := fun b hb =>
        (mem_append.mp hb).elim (hp b) (hl b)
      have hk : ({ d with pending := [] } : CopyStreamDecoder).Unlimited := ⟨h.maxRows,h.maxRecordBytes,h.overflow⟩
      obtain ⟨hu,hf,hn,hrw⟩ := hk.consumeTextLine hd (d.pending ++ line)
      -- both branches consume the whole line
      have hc : (if d.pending = [] then d.consumeTextLine line
          else { d with pending := [] }.consumeTextLine (d.pending ++ line)) =
            { d with pending := [] }.consumeTextLine (d.pending ++ line) := by
        split
        next hnl =>
          rw [hnl,nil_append]
          congr 1
          rw [← hnl]
        · rfl
      rw [hc]
      have ha : ∀ more, d.textAnswer (line ++ 10::rest ++ more) =
          if ({ d with pending := [] }.consumeTextLine (d.pending ++ line)).textDone then
            ({ d with pending := [] }.consumeTextLine (d.pending ++ line)).rows
          else ({ d with pending := [] }.consumeTextLine (d.pending ++ line)).rows ++
            parseTextLines ((lossyText (rest ++ more)).splitOn '\n') := by
        intro more
        rw [← hrw,textAnswer,hd,if_neg Bool.false_ne_true,append_assoc line,← append_assoc d.pending,
          cons_append,splitOn_lossyText hfl]
      generalize ({ d with pending := [] } : CopyStreamDecoder).consumeTextLine (d.pending ++ line) = consumed at *
      dsimp only
      split
      next he =>
        refine ⟨⟨hu.maxRows,hu.maxRecordBytes,hu.overflow⟩,hf,
          fun _ hno => absurd hno not_mem_nil,fun more => ?_⟩
        rw [ha,if_pos he,textAnswer,if_pos he]
      next hg =>
        have hg' : consumed.textDone = false := Bool.eq_false_iff.mpr hg
        have hr : ({ consumed with recordBytes := 0 } : CopyStreamDecoder).Unlimited :=
          ⟨hu.maxRows,hu.maxRecordBytes,hu.overflow⟩
        have hnt : ∀ b ∈ ({ consumed with recordBytes := 0 } : CopyStreamDecoder).pending, b ≠ 10 := by
          intro b hb
          rw [show ({ consumed with recordBytes := 0 } : CopyStreamDecoder).pending = [] from hn] at hb
          exact absurd hb not_mem_nil
        obtain ⟨hu',hf',hp',ha'⟩ :=
          ih hr hg' hnt fun b (hno : b ∈ ([] : Bytes)) => absurd hno not_mem_nil
        refine ⟨hu',hf'.trans hf,hp',fun more => ?_⟩
        rw [ha',ha,if_neg hg,textAnswer]
        dsimp only
        rw [if_neg hg,hn]
        rfl
    · rw [if_neg hb]
      have hln : ∀ b' ∈ line ++ [b], b' ≠ 10 := fun b' hb' =>
        (mem_append.mp hb').elim (hl b') fun hb' => mem_singleton.mp hb' ▸ hb
      obtain ⟨hu,hf,hp',ha⟩ := ih h hd hp hln
      refine ⟨hu,hf,hp',fun more => ?_⟩
      rw [ha,append_assoc line [b],singleton_append]

theorem Unlimited.finishText (hp : ∀ b ∈ d.pending, b ≠ 10) : d.finishText.rows = d.textAnswer [] := by
  rw [CopyStreamDecoder.finishText,textAnswer,append_nil]
  by_cases hd : d.textDone = true
  · rw [if_pos hd,if_neg fun hno => absurd hd (by simpa using hno.1)]
  rw [if_neg hd,splitOn_lossyText_singleton hp]
  by_cases hn : d.pending = []
  · rw [if_neg (fun hno => hno.2 hn),hn]
    exact (append_nil d.rows).symm
  rw [if_pos ⟨by simpa using hd,hn⟩]
  have hk : ({ d with pending := [] } : CopyStreamDecoder).Unlimited := ⟨h.maxRows,h.maxRecordBytes,h.overflow⟩
  obtain ⟨-,-,-,hr⟩ := hk.consumeTextLine (Bool.eq_false_iff.mpr hd) d.pending
  refine Eq.trans ?_ (hr []).symm
  rw [parseTextLines,append_nil,ite_self]

theorem textAnswer_foldl_push (hf : d.format = .text) (hp : ∀ b ∈ d.pending, b ≠ 10)
    (frames : List Bytes) : (frames.foldl push d).finish = d.textAnswer frames.flatten := by
  induction frames generalizing d with
  | nil =>
    rw [foldl_nil,finish,if_neg h.not_overflow,hf]
    exact h.finishText hp
  | cons chunk frames ih =>
    have hps : d.push chunk = d.pushText chunk := by
      rw [push,if_neg h.not_overflow,hf]
    rw [foldl_cons,hps,pushText]
    cases hd : d.textDone with
    | true =>
      rw [if_pos rfl,ih h hf hp,textAnswer,textAnswer,hd,if_pos rfl,if_pos rfl]
    | false =>
      rw [if_neg Bool.false_ne_true]
      obtain ⟨hu,hf',hp',ha⟩ :=
        textAnswer_pushTextLoop h hd hp (fun b (hno : b ∈ ([] : Bytes)) => absurd hno not_mem_nil) chunk
      rw [ih hu (hf'.trans hf) hp',ha,nil_append,flatten_cons]

end CopyStreamDecoder

/-- Streaming and parsing the whole buffer give the same rows, in both formats and for every cut. -/
theorem finish_foldl_push (frames : List Bytes) :
    (frames.foldl CopyStreamDecoder.push (.new .text 0 0)).finish = parseTextRows frames.flatten ∧
      (frames.foldl CopyStreamDecoder.push (.new .csv 0 0)).finish = parseCsvRows frames.flatten := by
  constructor
  · exact CopyStreamDecoder.textAnswer_foldl_push (CopyStreamDecoder.unlimited_new .text) rfl
      (fun _ hno => absurd hno not_mem_nil) frames
  · rw [CopyStreamDecoder.csvAnswer_foldl_push (CopyStreamDecoder.unlimited_new .csv) rfl frames,parseCsvRows,← settle_foldl_feed]
    rfl

end HeliosNano.Protocol
