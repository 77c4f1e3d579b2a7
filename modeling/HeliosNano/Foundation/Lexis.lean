import Mathlib.Data.List.TakeWhile
import Mathlib.Data.List.Infix

/-! The lexical rules of SQL: a text is cut into tokens from the left, each as long as its rule allows, and the tokens
together are the text. -/
namespace HeliosNano.Foundation.Lexis
open List Bool Char

section
variable {α β : Type} (step : α → List α → β × List α)

/-- The results of the steps, each of which starts at the first element that is left; the fuel bounds their number. -/
def stepsFrom : Nat → List α → List β
  | 0, _ => []
  | _+1, [] => []
  | fuel+1, a::rest => (step a rest).1 :: stepsFrom fuel (step a rest).2

def steps (list : List α) : List β := stepsFrom step list.length list

variable {step} (hshort : ∀ a rest, (step a rest).2.length ≤ rest.length)
include hshort

theorem stepsFrom_eq {fuel : Nat} {list : List α} (h : list.length ≤ fuel) : stepsFrom step fuel list = steps step list := by
  induction fuel using Nat.strong_induction_on generalizing list with
  | _ fuel ih =>
    cases list with
    | nil => cases fuel <;> rfl
    | cons a rest =>
      cases fuel with
      | zero => exact absurd h (Nat.not_succ_le_zero _)
      | succ fuel =>
        have hrest := hshort a rest
        rw [length_cons] at h
        rw [steps,length_cons,stepsFrom,stepsFrom,ih fuel (Nat.lt_succ_self _) (by omega),
          ih rest.length (by omega) hrest]

theorem steps_cons (a : α) (rest : List α) : steps step (a::rest) = (step a rest).1 :: steps step (step a rest).2 := by
  rw [steps,length_cons,stepsFrom,stepsFrom_eq hshort (hshort a rest)]

end

inductive Kind
  | blank
  | word
  | number
  | string
  | escapeString
  | quotedIdent
  | lineComment
  | blockComment
  | dollarString
  | positional
  | named
  | symbol
  | unterminated
deriving DecidableEq

structure Token where
  kind : Kind
  text : List Char
deriving DecidableEq

/-- Which of the characters beyond ASCII are letters and which are digits, and whether a dollar may stand inside a word. -/
structure Classes where
  alphabetic : Char → Bool
  numeric : Char → Bool
  dollarInWord : Bool

section

/-- A quoted region after its opening quote: what is read, what is left, and whether it is closed. A doubled quote does not close it;
where escapes are allowed, a character after a backslash does not either. -/
def quotedRegion (quote : Char) (escapes : Bool) : List Char → List Char × List Char × Bool
  | [] => ([],[],false)
  | [c] => ([c],[],c == quote)
  | c::d::rest =>
    if escapes && c == '\\' then
      let r := quotedRegion quote escapes rest
      (c::d::r.1,r.2)
    else if c = quote then
      if d = quote then
        let r := quotedRegion quote escapes rest
        (c::d::r.1,r.2)
      else ([c],d::rest,true)
    else
      let r := quotedRegion quote escapes (d::rest)
      (c::r.1,r.2)

def lineComment : List Char → List Char × List Char × Bool
  | [] => ([],[],false)
  | c::rest =>
    if c = '\n' then ([c],rest,true)
    else
      let r := lineComment rest
      (c::r.1,r.2)

/-- A block comment in which so many are open; they nest. -/
def blockComment (depth : Nat) : List Char → List Char × List Char × Bool
  | [] => ([],[],false)
  | [c] => ([c],[],false)
  | c::d::rest =>
    if c = '/' ∧ d = '*' then
      let r := blockComment (depth+1) rest
      (c::d::r.1,r.2)
    else if c = '*' ∧ d = '/' then
      if depth-1 = 0 then ([c,d],rest,true)
      else
        let r := blockComment (depth-1) rest
        (c::d::r.1,r.2)
    else
      let r := blockComment depth (d::rest)
      (c::r.1,r.2)

/-- A dollar-quoted string after its opening delimiter, up to the first closing one. -/
def dollarBody (delim : List Char) : List Char → List Char × List Char × Bool
  | [] => ([],[],false)
  | c::rest =>
    if delim <+: c::rest then (delim,(c::rest).drop delim.length,true)
    else
      let r := dollarBody delim rest
      (c::r.1,r.2)

variable (classes : Classes)

def isStart (c : Char) : Bool := c.isAlpha || c == '_' || (128 ≤ c.toNat && classes.alphabetic c)

def isPart (c : Char) : Bool := isStart classes c || c.isDigit || (128 ≤ c.toNat && classes.numeric c)

def isWordPart (c : Char) : Bool := isPart classes c || (classes.dollarInWord && c == '$')

def isBlank (c : Char) : Bool := c == ' ' || c == '\t' || c == '\n' || c == '\r' || c == Char.ofNat 11 || c == Char.ofNat 12

/-- An exponent at the beginning of a text, or nothing. Without a sign it must be all of the name that it looks like. -/
def exponent : List Char → List Char
  | [] => []
  | e::rest =>
    if e = 'e' ∨ e = 'E' then
      match rest with
      | [] => []
      | s::rest =>
        if s = '+' ∨ s = '-' then
          let digits := rest.takeWhile isDigit
          if digits = [] then [] else e::s::digits
        else
          let run := (s::rest).takeWhile (isPart classes)
          if run ≠ [] ∧ run.all isDigit then e::run else []
    else []

/-- The fraction at the beginning of a text, or nothing. -/
def fraction : List Char → List Char
  | '.' :: rest => '.' :: rest.takeWhile isDigit
  | _ => []

def numberText (text : List Char) : List Char :=
  let whole := text.takeWhile isDigit
  let rest := text.dropWhile isDigit
  let frac := fraction rest
  whole ++ frac ++ exponent classes (rest.drop frac.length)

def startsWithDigit (text : List Char) : Bool := text.head?.any isDigit

def ofRegion (kind : Kind) (opening : List Char) (r : List Char × List Char × Bool) : Token × List Char :=
  (⟨if r.2.2 then kind else .unterminated,opening ++ r.1⟩,r.2.1)

/-- A word; the word `E` directly before a quote opens a string with escapes. -/
def wordToken (c : Char) (rest : List Char) : Token × List Char :=
  let word := c :: rest.takeWhile (isWordPart classes)
  let after := rest.dropWhile (isWordPart classes)
  if (word = ['E'] ∨ word = ['e']) ∧ after.head? = some '\'' then
    ofRegion .escapeString (word ++ ['\'']) (quotedRegion '\'' true after.tail)
  else (⟨.word,word⟩,after)

/-- What a dollar begins: a dollar-quoted string, a placeholder or nothing. -/
def dollarToken (rest : List Char) : Token × List Char :=
  match rest with
  | [] => (⟨.symbol,['$']⟩,[])
  | d::tail =>
    if d = '$' then ofRegion .dollarString ['$','$'] (dollarBody ['$','$'] tail)
    else if d.isDigit then (⟨.positional,'$' :: rest.takeWhile isDigit⟩,rest.dropWhile isDigit)
    else if isStart classes d then
      let name := rest.takeWhile (isPart classes)
      let after := rest.dropWhile (isPart classes)
      if after.head? = some '$' then
        ofRegion .dollarString ('$' :: name ++ ['$']) (dollarBody ('$' :: name ++ ['$']) after.tail)
      else (⟨.named,'$' :: name⟩,after)
    else (⟨.symbol,['$']⟩,rest)

def nextToken (c : Char) (rest : List Char) : Token × List Char :=
  if c = '\'' then ofRegion .string [c] (quotedRegion '\'' false rest)
  else if c = '"' then ofRegion .quotedIdent [c] (quotedRegion '"' false rest)
  else if c = '-' ∧ rest.head? = some '-' then ofRegion .lineComment [] (lineComment (c::rest))
  else if c = '/' ∧ rest.head? = some '*' then ofRegion .blockComment [] (blockComment 0 (c::rest))
  else if c = '$' then dollarToken classes rest
  else if isStart classes c then wordToken classes c rest
  else if c.isDigit ∨ (c = '.' ∧ startsWithDigit rest = true) then
    (⟨.number,numberText classes (c::rest)⟩,(c::rest).drop (numberText classes (c::rest)).length)
  else if isBlank c then (⟨.blank,[c]⟩,rest)
  else (⟨.symbol,[c]⟩,rest)

def lex (text : List Char) : List Token := steps (nextToken classes) text

end

def textOf (tokens : List Token) : List Char := tokens.flatMap Token.text

section

/-- What a rule reads from the beginning of a text: a region that stays open is all of it. -/
structure Reads (text : List Char) (r : List Char × List Char × Bool) : Prop where
  append : r.1 ++ r.2.1 = text
  rest_of_open : r.2.2 = false → r.2.1 = []

variable {text : List Char} {r : List Char × List Char × Bool} {quote : Char} {escapes : Bool} {depth : Nat} {delim : List Char}

theorem Reads.cons (h : Reads text r) (c : Char) : Reads (c::text) (c::r.1,r.2) :=
  ⟨congrArg (List.cons c) h.append, h.rest_of_open⟩

theorem reads_quotedRegion : Reads text (quotedRegion quote escapes text) := by
  induction text using quotedRegion.induct quote escapes with
  | case1 | case2 c => exact ⟨rfl,fun _ => rfl⟩
  | case3 c d rest h ih =>
    rw [quotedRegion,if_pos h]
    exact (ih.cons d).cons c
  | case4 rest h ih =>
    rw [quotedRegion,if_neg h,if_pos rfl,if_pos rfl]
    exact (ih.cons quote).cons quote
  | case5 d rest h hd =>
    rw [quotedRegion,if_neg h,if_pos rfl,if_neg hd]
    exact ⟨rfl,nofun⟩
  | case6 c d rest h hc ih =>
    rw [quotedRegion,if_neg h,if_neg hc]
    exact ih.cons c

theorem reads_lineComment : Reads text (lineComment text) := by
  induction text with
  | nil => exact ⟨rfl,fun _ => rfl⟩
  | cons c rest ih =>
    rw [lineComment]
    split
    · exact ⟨rfl,nofun⟩
    · exact ih.cons c

theorem reads_blockComment : Reads text (blockComment depth text) := by
  induction depth, text using blockComment.induct with
  | case1 depth | case2 depth c => exact ⟨rfl,fun _ => rfl⟩
  | case3 depth c d rest h ih =>
    rw [blockComment,if_pos h]
    exact (ih.cons d).cons c
  | case4 depth c d rest h hc hd =>
    rw [blockComment,if_neg h,if_pos hc,if_pos hd]
    exact ⟨rfl,nofun⟩
  | case5 depth c d rest h hc hd ih =>
    rw [blockComment,if_neg h,if_pos hc,if_neg hd]
    exact (ih.cons d).cons c
  | case6 depth c d rest h hc ih =>
    rw [blockComment,if_neg h,if_neg hc]
    exact ih.cons c

theorem reads_dollarBody : Reads text (dollarBody delim text) := by
  induction text with
  | nil => exact ⟨rfl,fun _ => rfl⟩
  | cons c rest ih =>
    rw [dollarBody]
    split
    next h =>
      exact ⟨prefix_iff_eq_append.mp h,nofun⟩
    · exact ih.cons c

theorem ofRegion_append (kind : Kind) (opening : List Char) (h : Reads text r) :
    (ofRegion kind opening r).1.text ++ (ofRegion kind opening r).2 = opening ++ text := by
  rw [← h.append]
  exact append_assoc ..

variable (classes : Classes)

theorem exponent_isPrefix (text : List Char) : exponent classes text <+: text := by
  rw [exponent.eq_def]
  split
  · exact nil_prefix
  split
  · split
    · exact nil_prefix
    split
    · dsimp only
      split
      · exact nil_prefix
      · exact (prefix_cons_inj _).mpr ((prefix_cons_inj _).mpr ( takeWhile_prefix _))
    · dsimp only
      split
      · exact (prefix_cons_inj _).mpr ( takeWhile_prefix _)
      · exact nil_prefix
  · exact nil_prefix

theorem fraction_isPrefix (text : List Char) : fraction text <+: text := by
  rw [fraction.eq_def]
  split
  · exact (prefix_cons_inj _).mpr ( takeWhile_prefix _)
  · exact nil_prefix

theorem numberText_isPrefix (text : List Char) : numberText classes text <+: text := by
  rw [numberText]
  have hf := prefix_iff_eq_append.mp (fraction_isPrefix (text.dropWhile isDigit))
  obtain ⟨tail,htl⟩ :=
    exponent_isPrefix classes ((text.dropWhile isDigit).drop (fraction (text.dropWhile isDigit)).length)
  refine ⟨tail,?_⟩
  rw [append_assoc,htl,append_assoc,hf,takeWhile_append_dropWhile]

theorem wordToken_append (c : Char) (rest : List Char) :
    (wordToken classes c rest).1.text ++ (wordToken classes c rest).2 = c::rest := by
  have hs := takeWhile_append_dropWhile (p := isWordPart classes) (l := rest)
  rw [wordToken]
  split
  next h =>
    obtain ⟨tail,htl⟩ := head?_eq_some_iff.mp h.2
    rw [ofRegion_append _ _ reads_quotedRegion]
    rw [htl] at hs ⊢
    rw [tail_cons,append_assoc,singleton_append,cons_append,hs]
  · rw [cons_append,hs]

theorem dollarToken_append (rest : List Char) :
    (dollarToken classes rest).1.text ++ (dollarToken classes rest).2 = '$' :: rest := by
  rw [dollarToken.eq_def]
  split
  · rfl
  next d tail =>
    split
    next hd =>
      rw [ofRegion_append _ _ reads_dollarBody,hd]
      rfl
    · split
      · rw [cons_append,takeWhile_append_dropWhile]
      split
      · have hs := takeWhile_append_dropWhile (p := isPart classes) (l := d::tail)
        dsimp only
        split
        next h =>
          obtain ⟨tail',ht'⟩ := head?_eq_some_iff.mp h
          rw [ofRegion_append _ _ reads_dollarBody]
          rw [ht'] at hs ⊢
          rw [tail_cons,append_assoc,singleton_append,cons_append,hs]
        · rw [cons_append,hs]
      · rfl

theorem nextToken_append (c : Char) (rest : List Char) :
    (nextToken classes c rest).1.text ++ (nextToken classes c rest).2 = c::rest := by
  rw [nextToken]
  split
  · rw [ofRegion_append _ _ reads_quotedRegion]
    rfl
  split
  · rw [ofRegion_append _ _ reads_quotedRegion]
    rfl
  split
  · rw [ofRegion_append _ _ reads_lineComment]
    rfl
  split
  · rw [ofRegion_append _ _ reads_blockComment]
    rfl
  split
  next h =>
    rw [dollarToken_append,h]
  split
  · exact wordToken_append classes c rest
  split
  · exact prefix_iff_eq_append.mp (numberText_isPrefix classes (c::rest))
  split
  · rfl
  · rfl

theorem quotedRegion_ne_nil (quote : Char) (escapes : Bool) (c : Char) (rest : List Char) :
    (quotedRegion quote escapes (c::rest)).1 ≠ [] := by
  cases rest with
  | nil => exact cons_ne_nil _ _
  | cons d rest =>
    rw [quotedRegion]
    split_ifs <;> exact cons_ne_nil _ _

theorem lineComment_ne_nil (c : Char) (rest : List Char) : (lineComment (c::rest)).1 ≠ [] := by
  rw [lineComment]
  split_ifs <;> exact cons_ne_nil _ _

theorem blockComment_ne_nil (depth : Nat) (c : Char) (rest : List Char) : (blockComment depth (c::rest)).1 ≠ [] := by
  cases rest with
  | nil => exact cons_ne_nil _ _
  | cons d rest =>
    rw [blockComment]
    split_ifs <;> exact cons_ne_nil _ _

theorem numberText_ne_nil {c : Char} {rest : List Char} (h : c.isDigit = true ∨ (c = '.' ∧ startsWithDigit rest = true)) :
    numberText classes (c::rest) ≠ [] := by
  rw [numberText]
  obtain hd | ⟨rfl,-⟩ := h
  · rw [takeWhile_cons_of_pos hd]
    exact cons_ne_nil _ _
  · rw [takeWhile_cons_of_neg (by decide),dropWhile_cons_of_neg (by decide)]
    exact cons_ne_nil _ _

theorem nextToken_ne_nil (c : Char) (rest : List Char) : (nextToken classes c rest).1.text ≠ [] := by
  rw [nextToken]
  split
  · exact cons_ne_nil _ _
  split
  · exact cons_ne_nil _ _
  split
  · exact lineComment_ne_nil c rest
  split
  · exact blockComment_ne_nil 0 c rest
  split
  · rw [dollarToken.eq_def]
    split
    · exact cons_ne_nil _ _
    · dsimp only
      split_ifs <;> exact cons_ne_nil _ _
  split
  · rw [wordToken]
    split_ifs <;> exact cons_ne_nil _ _
  split
  next h =>
    exact numberText_ne_nil classes h
  split
  · exact cons_ne_nil _ _
  · exact cons_ne_nil _ _

theorem exists_body (c : Char) (rest : List Char) :
    ∃ body, (nextToken classes c rest).1.text = c::body ∧ body ++ (nextToken classes c rest).2 = rest := by
  have ha := nextToken_append classes c rest
  cases htx : (nextToken classes c rest).1.text with
  | nil => exact absurd htx (nextToken_ne_nil classes c rest)
  | cons c' body =>
    rw [htx,cons_append] at ha
    obtain ⟨rfl,hb⟩ := List.cons.inj ha
    exact ⟨body,rfl,hb⟩

theorem nextToken_length (c : Char) (rest : List Char) : (nextToken classes c rest).2.length ≤ rest.length := by
  obtain ⟨body,-,hb⟩ := exists_body classes c rest
  have hl := congrArg List.length hb
  rw [length_append] at hl
  omega

theorem lex_cons (c : Char) (rest : List Char) :
    lex classes (c::rest) = (nextToken classes c rest).1 :: lex classes (nextToken classes c rest).2 :=
  steps_cons (nextToken_length classes) c rest

theorem textOf_lex (text : List Char) : textOf (lex classes text) = text := by
  induction htx : text.length using Nat.strong_induction_on generalizing text with
  | _ n ih =>
    cases text with
    | nil => rfl
    | cons c rest =>
      have hl := nextToken_length classes c rest
      rw [length_cons] at htx
      rw [lex_cons,textOf,flatMap_cons]
      have hrest := ih _ (by omega) (nextToken classes c rest).2 rfl
      rw [textOf] at hrest
      rw [hrest]
      exact nextToken_append classes c rest

end

section
variable (classes : Classes)

/-- The token is not continued by the text that stands after it. -/
def Ends (tok : Token) (rest : List Char) : Prop :=
  match tok.kind with
  | .blank | .lineComment | .blockComment | .dollarString => True
  | .unterminated => rest = []
  | .string | .escapeString => rest.head? ≠ some '\''
  | .quotedIdent => rest.head? ≠ some '"'
  | .word => (∀ d ∈ rest.head?, isWordPart classes d = false) ∧ (tok.text = ['E'] ∨ tok.text = ['e'] → rest.head? ≠ some '\'')
  | .number => numberText classes (tok.text ++ rest) = tok.text
  | .positional => ∀ d ∈ rest.head?, d.isDigit = false
  | .named => ∀ d ∈ rest.head?, isPart classes d = false ∧ d ≠ '$'
  | .symbol =>
    (tok.text = ['-'] → rest.head? ≠ some '-') ∧ (tok.text = ['/'] → rest.head? ≠ some '*') ∧
      (tok.text = ['.'] → startsWithDigit rest = false) ∧
        (tok.text = ['$'] → ∀ d ∈ rest.head?, d ≠ '$' ∧ d.isDigit = false ∧ isStart classes d = false)

/-! Regions: what is read of a closed region does not depend on what follows it, but for a quote that would double the closing one. -/

variable {other text : List Char} {quote : Char} {escapes : Bool} {delim : List Char} {c : Char} {rest body : List Char}

theorem quotedRegion_of_closed (hqu : (escapes && quote == '\\') = false)
    (hcl : (quotedRegion quote escapes text).2.2 = true) (ho : other.head? ≠ some quote) :
    quotedRegion quote escapes ((quotedRegion quote escapes text).1 ++ other) = ((quotedRegion quote escapes text).1,other,true) := by
  -- the closing quote before another text
  have hl : quotedRegion quote escapes (quote::other) = ([quote],other,true) := by
    cases other with
    | nil => simp only [quotedRegion,beq_self_eq_true]
    | cons d other =>
      have hd : d ≠ quote := fun hno => ho (congrArg some hno)
      rw [quotedRegion,hqu,if_neg Bool.false_ne_true,if_pos rfl,if_neg hd]
  induction text using quotedRegion.induct quote escapes with
  | case1 => cases hcl
  | case2 c =>
    obtain rfl : c = quote := eq_of_beq hcl
    exact hl
  | case3 c d rest h ih =>
    rw [quotedRegion,if_pos h] at hcl ⊢
    simp only [cons_append]
    rw [quotedRegion,if_pos h,ih hcl]
  | case4 rest h ih =>
    rw [quotedRegion,if_neg h,if_pos rfl,if_pos rfl] at hcl ⊢
    simp only [cons_append]
    rw [quotedRegion,if_neg h,if_pos rfl,if_pos rfl,ih hcl]
  | case5 d rest h hd =>
    rw [quotedRegion,if_neg h,if_pos rfl,if_neg hd]
    exact hl
  | case6 c d rest h hc ih =>
    rw [quotedRegion,if_neg h,if_neg hc] at hcl ⊢
    have hrest := ih hcl
    simp only [cons_append]
    cases htx : (quotedRegion quote escapes (d::rest)).1 with
    | nil => exact absurd htx (quotedRegion_ne_nil quote escapes d rest)
    | cons x tail =>
      rw [htx,cons_append] at hrest
      rw [cons_append,quotedRegion,if_neg h,if_neg hc,hrest]

theorem quotedRegion_head
    (hcl : (quotedRegion quote escapes text).2.2 = true) : (quotedRegion quote escapes text).2.1.head? ≠ some quote := by
  induction text using quotedRegion.induct quote escapes with
  | case1 => cases hcl
  | case2 c => exact nofun
  | case3 c d rest h ih =>
    rw [quotedRegion,if_pos h] at hcl ⊢
    exact ih hcl
  | case4 rest h ih =>
    rw [quotedRegion,if_neg h,if_pos rfl,if_pos rfl] at hcl ⊢
    exact ih hcl
  | case5 d rest h hd =>
    rw [quotedRegion,if_neg h,if_pos rfl,if_neg hd]
    exact fun hno => absurd (Option.some.inj hno) (by assumption)
  | case6 c d rest h hc ih =>
    rw [quotedRegion,if_neg h,if_neg hc] at hcl ⊢
    exact ih hcl

theorem lineComment_of_closed (hcl : (lineComment text).2.2 = true) (other : List Char) :
    lineComment ((lineComment text).1 ++ other) = ((lineComment text).1,other,true) := by
  induction text with
  | nil => cases hcl
  | cons c rest ih =>
    rw [lineComment] at hcl ⊢
    split at hcl
    next hc =>
      rw [if_pos hc,singleton_append,lineComment,if_pos hc]
    next hc =>
      rw [if_neg hc]
      simp only [cons_append]
      rw [lineComment,if_neg hc,ih hcl]

variable {depth : Nat} {kind : Kind} {r : List Char × List Char × Bool} {opening : List Char} {d : Char} {run : List Char}

theorem blockComment_of_closed (hcl : (blockComment depth text).2.2 = true)
    (other : List Char) : blockComment depth ((blockComment depth text).1 ++ other) = ((blockComment depth text).1,other,true) := by
  induction depth, text using blockComment.induct with
  | case1 depth | case2 depth c => cases hcl
  | case3 depth c d rest h ih =>
    rw [blockComment,if_pos h] at hcl ⊢
    simp only [cons_append]
    rw [blockComment,if_pos h,ih hcl]
  | case4 depth c d rest h hc hd =>
    rw [blockComment,if_neg h,if_pos hc,if_pos hd]
    simp only [cons_append,nil_append]
    rw [blockComment,if_neg h,if_pos hc,if_pos hd]
  | case5 depth c d rest h hc hd ih =>
    rw [blockComment,if_neg h,if_pos hc,if_neg hd] at hcl ⊢
    simp only [cons_append]
    rw [blockComment,if_neg h,if_pos hc,if_neg hd,ih hcl]
  | case6 depth c d rest h hc ih =>
    rw [blockComment,if_neg h,if_neg hc] at hcl ⊢
    have hrest := ih hcl
    have ha := (@reads_blockComment (d::rest) depth).append
    simp only [cons_append]
    cases htx : (blockComment depth (d::rest)).1 with
    | nil => exact absurd htx (blockComment_ne_nil depth d rest)
    | cons x tail =>
      rw [htx,cons_append] at ha
      obtain ⟨rfl,-⟩ := List.cons.inj ha
      rw [htx,cons_append] at hrest
      rw [cons_append,blockComment,if_neg h,if_neg hc,hrest]

theorem delim_suffix_dollarBody (hc : (dollarBody delim text).2.2 = true) : delim <:+ (dollarBody delim text).1 := by
  induction text with
  | nil => cases hc
  | cons c rest ih =>
    rw [dollarBody] at hc ⊢
    split at hc
    next h =>
      rw [if_pos h]
    next h =>
      rw [if_neg h]
      exact (ih hc).trans (suffix_cons _ _)

theorem dollarBody_of_closed (hdl : delim ≠ []) (hc : (dollarBody delim text).2.2 = true)
    (other : List Char) : dollarBody delim ((dollarBody delim text).1 ++ other) = ((dollarBody delim text).1,other,true) := by
  induction text with
  | nil => cases hc
  | cons c rest ih =>
    rw [dollarBody] at hc ⊢
    split at hc
    next h =>
      rw [if_pos h]
      dsimp only
      cases hd : delim with
      | nil => exact absurd hd hdl
      | cons x tail =>
        rw [cons_append,dollarBody,if_pos ⟨other,rfl⟩,← cons_append,drop_left]
    next h =>
      rw [if_neg h]
      -- the delimiter is shorter than what is read, so the first one that begins there does so in the text as well
      have hn : ¬delim <+: c::((dollarBody delim rest).1 ++ other) := by
        intro hl
        have hshort := (delim_suffix_dollarBody hc).length_le
        have hr : delim <+: c::(dollarBody delim rest).1 := by
          refine prefix_of_prefix_length_le hl (prefix_append (c::(dollarBody delim rest).1) other) ?_
          rw [length_cons]
          omega
        refine h (hr.trans ?_)
        conv_rhs => rw [← (@reads_dollarBody rest delim).append]
        exact prefix_append (c::(dollarBody delim rest).1) _
      simp only [cons_append]
      rw [dollarBody,if_neg hn,ih hc]

theorem ofRegion_of_closed (h : r.2.2 = true) : ofRegion kind opening r = (⟨kind,opening ++ r.1⟩,r.2.1) := by
  rw [ofRegion,if_pos h]

theorem ofRegion_of_open (h : r.2.2 = false) : ofRegion kind opening r = (⟨.unterminated,opening ++ r.1⟩,r.2.1) := by
  rw [ofRegion,h,if_neg Bool.false_ne_true]

theorem closed_of_kind (h : (ofRegion kind opening r).1.kind ≠ .unterminated) : r.2.2 = true := by
  by_contra hopen
  rw [ofRegion_of_open (eq_false_iff.mpr hopen)] at h
  exact h rfl

variable {classes}

theorem ends_ofRegion (h : Reads text r) (hc : r.2.2 = true → Ends classes ⟨kind,opening ++ r.1⟩ r.2.1) :
    Ends classes (ofRegion kind opening r).1 (ofRegion kind opening r).2 := by
  cases hr : r.2.2 with
  | true =>
    rw [ofRegion_of_closed hr]
    exact hc hr
  | false =>
    rw [ofRegion_of_open hr]
    exact h.rest_of_open hr

theorem isStart_ne (h : isStart classes c = true) : c ≠ '\'' ∧ c ≠ '"' ∧ c ≠ '-' ∧ c ≠ '/' ∧ c ≠ '$' := by
  refine ⟨?_,?_,?_,?_,?_⟩
  all_goals
    rintro rfl
    simp [isStart] at h

theorem isDigit_ne {c : Char} (h : c.isDigit = true) :
    c ≠ '\'' ∧ c ≠ '"' ∧ c ≠ '-' ∧ c ≠ '/' ∧ c ≠ '$' ∧ isStart classes c = false := by
  refine ⟨?_,?_,?_,?_,?_,?_⟩
  on_goal 6 =>
    have hr : 48 ≤ c.toNat ∧ c.toNat ≤ 57 := by
      simp only [isDigit,and_eq_true,decide_eq_true_eq,UInt32.le_iff_toNat_le] at h
      exact h
    have ha : c.isAlpha = false := by
      rw [eq_false_iff]
      intro hno
      change (decide (c.val ≥ 'A'.val ∧ c.val ≤ 'Z'.val) || (decide (c.val ≥ 'a'.val) && decide (c.val ≤ 'z'.val))) = true at hno
      simp only [or_eq_true,and_eq_true,decide_eq_true_eq,UInt32.le_iff_toNat_le] at hno
      have hn : c.val.toNat = c.toNat := rfl
      rw [hn] at hno
      simp at hno
      omega
    have hu : (c == '_') = false := by
      rw [beq_eq_false_iff_ne]
      rintro rfl
      exact absurd hr.2 (by decide)
    have hac : decide (128 ≤ c.toNat) = false := decide_eq_false (by omega)
    rw [isStart,ha,hu,hac]
    rfl
  all_goals
    rintro rfl
    exact absurd h (by decide)

theorem nextToken_start (h : isStart classes c = true) (rest : List Char) :
    nextToken classes c rest = wordToken classes c rest := by
  obtain ⟨h1,h2,h3,h4,h5⟩ := isStart_ne h
  rw [nextToken,if_neg h1,if_neg h2,if_neg (fun hno => h3 hno.1),if_neg (fun hno => h4 hno.1),if_neg h5,if_pos h]

theorem nextToken_digit (h : c.isDigit = true ∨ (c = '.' ∧ startsWithDigit rest = true)) : nextToken classes c rest =
      (⟨.number,numberText classes (c::rest)⟩,(c::rest).drop (numberText classes (c::rest)).length) := by
  have hne : c ≠ '\'' ∧ c ≠ '"' ∧ c ≠ '-' ∧ c ≠ '/' ∧ c ≠ '$' ∧ isStart classes c = false := by
    obtain hd | ⟨rfl,-⟩ := h
    · exact isDigit_ne hd
    · refine ⟨by decide,by decide,by decide,by decide,by decide,?_⟩
      simp [isStart]
  obtain ⟨h1,h2,h3,h4,h5,h6⟩ := hne
  rw [nextToken,if_neg h1,if_neg h2,if_neg (fun hno => h3 hno.1),if_neg (fun hno => h4 hno.1),if_neg h5,h6,
    if_neg Bool.false_ne_true,if_pos h]

/-- A character that begins no longer token. -/
def Alone (classes : Classes) (c : Char) (rest : List Char) : Prop :=
  c ≠ '\'' ∧ c ≠ '"' ∧ ¬(c = '-' ∧ rest.head? = some '-') ∧ ¬(c = '/' ∧ rest.head? = some '*') ∧ c ≠ '$' ∧
    isStart classes c = false ∧ ¬(c.isDigit = true ∨ (c = '.' ∧ startsWithDigit rest = true))

theorem nextToken_alone (h : Alone classes c rest) :
    nextToken classes c rest = (⟨if isBlank c then .blank else .symbol,[c]⟩,rest) := by
  obtain ⟨h1,h2,h3,h4,h5,h6,h7⟩ := h
  rw [nextToken,if_neg h1,if_neg h2,if_neg h3,if_neg h4,if_neg h5,h6,if_neg Bool.false_ne_true,if_neg h7]
  split_ifs <;> rfl

theorem nextToken_cases (classes : Classes) (c : Char) (rest : List Char) :
    c = '\'' ∨ c = '"' ∨ (c = '-' ∧ rest.head? = some '-') ∨ (c = '/' ∧ rest.head? = some '*') ∨ c = '$' ∨
      isStart classes c = true ∨ (c.isDigit = true ∨ (c = '.' ∧ startsWithDigit rest = true)) ∨ Alone classes c rest := by
  by_cases h1 : c = '\''
  · exact .inl h1
  by_cases h2 : c = '"'
  · exact .inr (.inl h2)
  by_cases h3 : c = '-' ∧ rest.head? = some '-'
  · exact .inr (.inr (.inl h3))
  by_cases h4 : c = '/' ∧ rest.head? = some '*'
  · exact .inr (.inr (.inr (.inl h4)))
  by_cases h5 : c = '$'
  · exact .inr (.inr (.inr (.inr (.inl h5))))
  by_cases h6 : isStart classes c = true
  · exact .inr (.inr (.inr (.inr (.inr (.inl h6)))))
  by_cases h7 : c.isDigit = true ∨ (c = '.' ∧ startsWithDigit rest = true)
  · exact .inr (.inr (.inr (.inr (.inr (.inr (.inl h7))))))
  · exact .inr (.inr (.inr (.inr (.inr (.inr (.inr ⟨h1,h2,h3,h4,h5,eq_false_iff.mpr h6,h7⟩))))))

theorem nextToken_lineComment (h : rest.head? = some '-') :
    nextToken classes '-' rest = ofRegion .lineComment [] (lineComment ('-' :: rest)) := by
  rw [nextToken,if_neg (by decide),if_neg (by decide),if_pos ⟨rfl,h⟩]

theorem nextToken_blockComment (h : rest.head? = some '*') :
    nextToken classes '/' rest = ofRegion .blockComment [] (blockComment 0 ('/' :: rest)) := by
  rw [nextToken,if_neg (by decide),if_neg (by decide),if_neg (fun hno => absurd hno.1 (by decide)),if_pos ⟨rfl,h⟩]

theorem dollarToken_name {tail : List Char} (h : isStart classes d = true) : dollarToken classes (d::tail) =
      if ((d::tail).dropWhile (isPart classes)).head? = some '$' then
        ofRegion .dollarString ('$' :: (d::tail).takeWhile (isPart classes) ++ ['$'])
          (dollarBody ('$' :: (d::tail).takeWhile (isPart classes) ++ ['$']) ((d::tail).dropWhile (isPart classes)).tail)
      else (⟨.named,'$' :: (d::tail).takeWhile (isPart classes)⟩,(d::tail).dropWhile (isPart classes)) := by
  have hdl : d ≠ '$' := (isStart_ne h).2.2.2.2
  have hd : ¬d.isDigit = true := fun hno => by
    have := (@isDigit_ne classes d hno).2.2.2.2.2
    rw [h] at this
    cases this
  rw [dollarToken]
  dsimp only
  rw [if_neg hdl,if_neg hd,if_pos h]

theorem head?_dropWhile (p : Char → Bool) (list : List Char) : ∀ d ∈ (list.dropWhile p).head?, p d = false := by
  induction list with
  | nil => exact nofun
  | cons c rest ih =>
    rw [dropWhile_cons]
    split
    · exact ih
    next hc =>
      rintro d ⟨⟩
      exact eq_false_iff.mpr hc

theorem takeWhile_run {p : Char → Bool} (hr : ∀ c ∈ run, p c = true)
    (ho : ∀ d ∈ other.head?, p d = false) : (run ++ other).takeWhile p = run ∧ (run ++ other).dropWhile p = other := by
  rw [takeWhile_append_of_pos hr,dropWhile_append_of_pos hr]
  cases other with
  | nil => exact ⟨append_nil run,rfl⟩
  | cons d other =>
    have hd := eq_false_iff.mp (ho d rfl)
    rw [takeWhile_cons_of_neg hd,dropWhile_cons_of_neg hd,append_nil]
    exact ⟨rfl,rfl⟩

theorem mem_takeWhile {p : Char → Bool} {list : List Char} : ∀ c ∈ list.takeWhile p, p c = true :=
  fun _ => mem_takeWhile_imp

theorem ends_wordToken (c : Char) (rest : List Char) :
    Ends classes (wordToken classes c rest).1 (wordToken classes c rest).2 := by
  rw [wordToken]
  split
  · exact ends_ofRegion reads_quotedRegion quotedRegion_head
  next h =>
    exact ⟨head?_dropWhile _ rest,fun hw hh => h ⟨hw,hh⟩⟩

theorem ends_dollarToken (rest : List Char) : Ends classes (dollarToken classes rest).1 (dollarToken classes rest).2 := by
  have hs : ∀ rest : List Char, (∀ d ∈ rest.head?, d ≠ '$' ∧ d.isDigit = false ∧ isStart classes d = false) →
      Ends classes ⟨.symbol,['$']⟩ rest := fun rest h =>
    ⟨fun hno => absurd hno (by decide),fun hno => absurd hno (by decide),fun hno => absurd hno (by decide),fun _ => h⟩
  cases rest with
  | nil => exact hs [] nofun
  | cons d tail =>
    rw [dollarToken]
    dsimp only
    split
    · exact ends_ofRegion reads_dollarBody fun _ => trivial
    split
    · exact head?_dropWhile _ _
    split
    · split
      · exact ends_ofRegion reads_dollarBody fun _ => trivial
      next h =>
        intro x hx
        exact ⟨head?_dropWhile _ _ x hx,fun hno => h (hno ▸ hx)⟩
    next hdl hd hst =>
      refine hs _ ?_
      rintro _ ⟨⟩
      exact ⟨hdl,eq_false_iff.mpr hd,eq_false_iff.mpr hst⟩

theorem ends_nextToken (c : Char) (rest : List Char) : Ends classes (nextToken classes c rest).1 (nextToken classes c rest).2 := by
  obtain rfl | rfl | ⟨rfl,h⟩ | ⟨rfl,h⟩ | rfl | h | h | h := nextToken_cases classes c rest
  · rw [nextToken,if_pos rfl]
    exact ends_ofRegion reads_quotedRegion quotedRegion_head
  · rw [nextToken,if_neg (by decide),if_pos rfl]
    exact ends_ofRegion reads_quotedRegion quotedRegion_head
  · rw [nextToken_lineComment h]
    exact ends_ofRegion reads_lineComment fun _ => trivial
  · rw [nextToken_blockComment h]
    exact ends_ofRegion reads_blockComment fun _ => trivial
  · exact ends_dollarToken rest
  · rw [nextToken_start h]
    exact ends_wordToken c rest
  · rw [nextToken_digit h]
    exact congrArg (numberText classes) (prefix_iff_eq_append.mp (numberText_isPrefix classes (c::rest)))
  rw [nextToken_alone h]
  obtain ⟨-,-,h3,h4,h5,-,h7⟩ := h
  split
  · trivial
  · refine ⟨fun heq hno => h3 ⟨singleton_inj.mp heq,hno⟩,fun heq hno => h4 ⟨singleton_inj.mp heq,hno⟩,
      fun heq => ?_,fun heq => absurd (singleton_inj.mp heq) h5⟩
    exact eq_false_iff.mpr fun hno => h7 (.inr ⟨singleton_inj.mp heq,hno⟩)

theorem wordToken_of_ends (hk : (wordToken classes c rest).1.kind ≠ .unterminated)
    (hb : (wordToken classes c rest).1.text = c::body) (he : Ends classes (wordToken classes c rest).1 other) :
    wordToken classes c (body ++ other) = ((wordToken classes c rest).1,other) := by
  rw [wordToken] at hk hb he
  conv_rhs => rw [wordToken]
  by_cases h : (c :: rest.takeWhile (isWordPart classes) = ['E'] ∨ c :: rest.takeWhile (isWordPart classes) = ['e']) ∧
      (rest.dropWhile (isWordPart classes)).head? = some '\''
  · -- a string with escapes: its word is a single letter
    rw [if_pos h] at hk hb he ⊢
    have hc := closed_of_kind hk
    rw [ofRegion_of_closed hc] at hb he ⊢
    have hn : rest.takeWhile (isWordPart classes) = [] := by
      obtain h | h := h.1
      · exact (List.cons.inj h).2
      · exact (List.cons.inj h).2
    rw [hn] at hb h ⊢
    obtain rfl : body = '\'' :: (quotedRegion '\'' true (rest.dropWhile (isWordPart classes)).tail).1 :=
      (List.cons.inj hb).2.symm
    have hqu : isWordPart classes '\'' = false := by simp [isWordPart,isPart,isStart]
    rw [cons_append,wordToken]
    rw [takeWhile_cons_of_neg (eq_false_iff.mp hqu),dropWhile_cons_of_neg (eq_false_iff.mp hqu)]
    rw [if_pos ⟨h.1,rfl⟩,tail_cons,quotedRegion_of_closed (by decide) hc he]
    rfl
  · rw [if_neg h] at hb he ⊢
    obtain ⟨-,rfl⟩ := List.cons.inj hb
    obtain ⟨htk,hd⟩ := takeWhile_run mem_takeWhile he.1
    rw [wordToken,htk,hd,if_neg fun hno => he.2 hno.1 hno.2]

theorem dollarToken_symbol (h : ∀ d ∈ other.head?, d ≠ '$' ∧ d.isDigit = false ∧ isStart classes d = false) :
    dollarToken classes other = (⟨.symbol,['$']⟩,other) := by
  cases other with
  | nil => rfl
  | cons d tail =>
    obtain ⟨hdl,hd,hs⟩ := h d rfl
    rw [dollarToken]
    dsimp only
    rw [if_neg hdl,hd,if_neg Bool.false_ne_true,hs,if_neg Bool.false_ne_true]

theorem dollarToken_run (hd : isStart classes d = true)
    (hr : ∀ c ∈ d::run, isPart classes c = true) (ho : ∀ x ∈ other.head?, isPart classes x = false) :
    dollarToken classes (d::run ++ other) =
      if other.head? = some '$' then
        ofRegion .dollarString ('$' :: d::run ++ ['$']) (dollarBody ('$' :: d::run ++ ['$']) other.tail)
      else (⟨.named,'$' :: d::run⟩,other) := by
  obtain ⟨htk,hdr⟩ := takeWhile_run hr ho
  rw [cons_append] at htk hdr ⊢
  rw [dollarToken_name hd,htk,hdr]

theorem isPart_dollar : isPart classes '$' = false := by simp [isPart,isStart]

theorem dollarToken_of_ends (hk : (dollarToken classes rest).1.kind ≠ .unterminated)
    (hb : (dollarToken classes rest).1.text = '$' :: body) (hen : Ends classes (dollarToken classes rest).1 other) :
    dollarToken classes (body ++ other) = ((dollarToken classes rest).1,other) := by
  cases rest with
  | nil =>
    obtain rfl : body = [] := (List.cons.inj hb).2.symm
    exact dollarToken_symbol (hen.2.2.2 rfl)
  | cons d tail =>
    by_cases hdo : d = '$'
    · -- an empty tag
      subst hdo
      have hr : ∀ tail, dollarToken classes ('$' :: tail) = ofRegion .dollarString ['$','$'] (dollarBody ['$','$'] tail) := by
        intro tail
        rw [dollarToken]
        dsimp only
        rw [if_pos rfl]
      rw [hr] at hk hb ⊢
      have hc := closed_of_kind hk
      rw [ofRegion_of_closed hc] at hb ⊢
      obtain rfl : body = '$' :: (dollarBody ['$','$'] tail).1 := (List.cons.inj hb).2.symm
      rw [cons_append,hr,dollarBody_of_closed (by decide) hc]
      rfl
    by_cases hd : d.isDigit = true
    · have hdg : ∀ {e : Char} {t : List Char}, e.isDigit = true → dollarToken classes (e::t) =
          (⟨.positional,'$' :: (e::t).takeWhile isDigit⟩,(e::t).dropWhile isDigit) := by
        intro e t he
        rw [dollarToken]
        dsimp only
        rw [if_neg (@isDigit_ne classes e he).2.2.2.2.1,if_pos he]
      rw [hdg hd] at hb hen ⊢
      obtain rfl : body = (d::tail).takeWhile isDigit := (List.cons.inj hb).2.symm
      obtain ⟨htk,hdr⟩ := takeWhile_run mem_takeWhile hen
      have hh : (d::tail).takeWhile isDigit = d :: tail.takeWhile isDigit := takeWhile_cons_of_pos hd
      rw [hh] at htk hdr ⊢
      rw [cons_append] at htk hdr ⊢
      rw [hdg hd,htk,hdr]
    by_cases hs : isStart classes d = true
    · have hp : isPart classes d = true := by rw [isPart,hs,Bool.true_or,Bool.true_or]
      have hh : (d::tail).takeWhile (isPart classes) = d :: tail.takeWhile (isPart classes) := takeWhile_cons_of_pos hp
      have hrn : ∀ c ∈ d :: tail.takeWhile (isPart classes), isPart classes c = true := hh ▸ mem_takeWhile
      rw [dollarToken_name hs,hh] at hk hb hen ⊢
      by_cases htg : ((d::tail).dropWhile (isPart classes)).head? = some '$'
      · rw [if_pos htg] at hk hb hen ⊢
        have hc := closed_of_kind hk
        rw [ofRegion_of_closed hc] at hb ⊢
        have hdl : '$' :: (d :: tail.takeWhile (isPart classes)) ++ ['$'] ≠ [] := cons_ne_nil _ _
        have hbd := dollarBody_of_closed hdl hc other
        generalize dollarBody ('$' :: (d :: tail.takeWhile (isPart classes)) ++ ['$'])
          ((d::tail).dropWhile (isPart classes)).tail = region at hb hbd ⊢
        obtain rfl : body = d :: tail.takeWhile (isPart classes) ++ ['$'] ++ region.1 := (List.cons.inj hb).2.symm
        have ha : d :: tail.takeWhile (isPart classes) ++ ['$'] ++ region.1 ++ other =
            d :: tail.takeWhile (isPart classes) ++ '$' :: (region.1 ++ other) := by
          rw [append_assoc,append_assoc]
          rfl
        rw [ha,dollarToken_run hs hrn (by rintro _ ⟨⟩; exact isPart_dollar),head?_cons,if_pos rfl,tail_cons,
          hbd]
        rfl
      · rw [if_neg htg] at hb hen ⊢
        obtain rfl := (List.cons.inj hb).2.symm
        rw [dollarToken_run hs hrn fun x hx => (hen x hx).1,if_neg (show ¬other.head? = some '$' from fun hno => (hen '$' hno).2 rfl)]
    · have hsy : dollarToken classes (d::tail) = (⟨.symbol,['$']⟩,d::tail) :=
        dollarToken_symbol (by
          rintro _ ⟨⟩
          exact ⟨hdo,Bool.eq_false_iff.mpr hd,Bool.eq_false_iff.mpr hs⟩)
      rw [hsy] at hb hen ⊢
      obtain rfl : body = [] := (List.cons.inj hb).2.symm
      exact dollarToken_symbol (hen.2.2.2 rfl)

theorem quoted_of_ends (hqu : ∀ rest, nextToken classes quote rest = ofRegion kind [quote] (quotedRegion quote false rest))
    (hk : (nextToken classes quote rest).1.kind ≠ .unterminated) (hb : (nextToken classes quote rest).1.text = quote::body)
    (he : Ends classes (nextToken classes quote rest).1 other)
    (ho : ∀ text, Ends classes ⟨kind,text⟩ other → other.head? ≠ some quote) :
    nextToken classes quote (body ++ other) = ((nextToken classes quote rest).1,other) := by
  rw [hqu rest] at hb he hk ⊢
  have hc := closed_of_kind hk
  rw [ofRegion_of_closed hc] at hb he ⊢
  obtain rfl : body = (quotedRegion quote false rest).1 := (List.cons.inj hb).2.symm
  rw [hqu,quotedRegion_of_closed rfl hc (ho _ he)]
  rfl

theorem nextToken_of_ends (hb : (nextToken classes c rest).1.text = c::body)
    (he : Ends classes (nextToken classes c rest).1 other) :
    nextToken classes c (body ++ other) = ((nextToken classes c rest).1,other) := by
  by_cases hk : (nextToken classes c rest).1.kind = .unterminated
  · -- an unterminated token is all of the text
    have hrest := @ends_nextToken classes c rest
    rw [Ends,hk] at he hrest
    obtain rfl : other = [] := he
    obtain ⟨body',hb',ha⟩ := exists_body classes c rest
    rw [hb] at hb'
    obtain rfl := (List.cons.inj hb').2
    rw [(hrest : (nextToken classes c rest).2 = []),append_nil] at ha
    rw [append_nil,ha]
    exact Prod.ext rfl hrest
  obtain rfl | rfl | ⟨rfl,h⟩ | ⟨rfl,h⟩ | rfl | h | h | h := nextToken_cases classes c rest
  · exact quoted_of_ends (fun _ => if_pos rfl) hk hb he fun _ => id
  · exact quoted_of_ends (fun _ => (if_neg (by decide)).trans (if_pos rfl)) hk hb he fun _ => id
  · rw [nextToken_lineComment h] at hb he hk ⊢
    have hc := closed_of_kind hk
    rw [ofRegion_of_closed hc] at hb ⊢
    have hr : (lineComment ('-' :: rest)).1 = '-' :: body := hb
    -- the second dash is read as well
    have hh : (body ++ other).head? = some '-' := by
      obtain ⟨tail,rfl⟩ := head?_eq_some_iff.mp h
      have hsc : (lineComment ('-' :: '-' :: tail)).1 = '-' :: '-' :: (lineComment tail).1 := rfl
      rw [hsc] at hr
      obtain rfl := (List.cons.inj hr).2
      rfl
    have hrg := lineComment_of_closed hc other
    rw [hr,cons_append] at hrg
    rw [nextToken_lineComment hh,hrg,hr]
    rfl
  · rw [nextToken_blockComment h] at hb he hk ⊢
    have hc := closed_of_kind hk
    rw [ofRegion_of_closed hc] at hb ⊢
    have hr : (blockComment 0 ('/' :: rest)).1 = '/' :: body := hb
    have hh : (body ++ other).head? = some '*' := by
      obtain ⟨tail,rfl⟩ := head?_eq_some_iff.mp h
      have hsc : (blockComment 0 ('/' :: '*' :: tail)).1 = '/' :: '*' :: (blockComment 1 tail).1 := by
        rw [blockComment,if_pos ⟨rfl,rfl⟩]
      rw [hsc] at hr
      obtain rfl := (List.cons.inj hr).2
      rfl
    have hrg := blockComment_of_closed hc other
    rw [hr,cons_append] at hrg
    rw [nextToken_blockComment hh,hrg,hr]
    rfl
  · exact dollarToken_of_ends hk hb he
  · rw [nextToken_start h] at hb he hk ⊢
    rw [nextToken_start h]
    exact wordToken_of_ends hk hb he
  · rw [nextToken_digit h] at hb he ⊢
    have hn : numberText classes (c::rest) = c::body := hb
    have ho : numberText classes (c::(body ++ other)) = c::body := by
      have hsame : numberText classes (numberText classes (c::rest) ++ other) = numberText classes (c::rest) := he
      rwa [hn] at hsame
    have hs : c.isDigit = true ∨ (c = '.' ∧ startsWithDigit (body ++ other) = true) := by
      obtain hdg | ⟨rfl,hdg⟩ := h
      · exact .inl hdg
      refine .inr ⟨rfl,?_⟩
      cases rest with
      | nil => cases hdg
      | cons d tail =>
        have hd : d.isDigit = true := hdg
        have hf : numberText classes ('.' :: d::tail) =
            '.' :: d::(tail.takeWhile isDigit ++ exponent classes (tail.drop (tail.takeWhile isDigit).length)) := by
          rw [numberText,takeWhile_cons_of_neg (by decide),dropWhile_cons_of_neg (by decide)]
          simp only [fraction,takeWhile_cons_of_pos hd,length_cons,drop_succ_cons,nil_append,
            cons_append]
        rw [hf] at hn
        obtain rfl := (List.cons.inj hn).2
        exact hd
    rw [nextToken_digit hs,ho,hn]
    exact Prod.ext rfl (by rw [← cons_append]; exact drop_left)
  · rw [nextToken_alone h] at hb he ⊢
    obtain rfl : body = [] := (List.cons.inj hb).2.symm
    obtain ⟨h1,h2,-,-,h5,h6,h7⟩ := h
    have hdg : ¬c.isDigit = true := fun hno => h7 (.inl hno)
    have hs : Alone classes c other := by
      cases hbl : isBlank c with
      | true =>
        refine ⟨h1,h2,?_,?_,h5,h6,?_⟩
        · rintro ⟨rfl,-⟩
          exact absurd hbl (by decide)
        · rintro ⟨rfl,-⟩
          exact absurd hbl (by decide)
        · rintro (hno | ⟨rfl,-⟩)
          · exact hdg hno
          · exact absurd hbl (by decide)
      | false =>
        rw [hbl] at he
        obtain ⟨hds,hsl,hdt,-⟩ := he
        refine ⟨h1,h2,?_,?_,h5,h6,?_⟩
        · rintro ⟨rfl,hno⟩
          exact hds rfl hno
        · rintro ⟨rfl,hno⟩
          exact hsl rfl hno
        · rintro (hno | ⟨rfl,hno⟩)
          · exact hdg hno
          · rw [hdt rfl] at hno
            cases hno
    exact nextToken_alone hs

/-- A token of some text. -/
def Lexed (classes : Classes) (tok : Token) : Prop := ∃ c rest, (nextToken classes c rest).1 = tok

/-- None of the tokens is continued by what stands after it. -/
def Separate (classes : Classes) : List Token → Prop
  | [] => True
  | tok::rest => Ends classes tok (textOf rest) ∧ Separate classes rest

theorem lexed_lex (text : List Char) : ∀ tok ∈ lex classes text, Lexed classes tok := by
  induction htx : text.length using Nat.strong_induction_on generalizing text with
  | _ n ih =>
    cases text with
    | nil => exact fun _ hno => absurd hno not_mem_nil
    | cons c rest =>
      have hl := nextToken_length classes c rest
      rw [length_cons] at htx
      rw [lex_cons]
      intro tok htok
      obtain rfl | htok := mem_cons.mp htok
      · exact ⟨c,rest,rfl⟩
      · exact ih _ (by omega) _ rfl tok htok

theorem lex_textOf_iff {tokens : List Token} (hl : ∀ tok ∈ tokens, Lexed classes tok) :
    lex classes (textOf tokens) = tokens ↔ Separate classes tokens := by
  induction tokens with
  | nil => exact ⟨fun _ => trivial,fun _ => rfl⟩
  | cons tok tokens ih =>
    obtain ⟨⟨c,rest,hto⟩,htk⟩ := forall_mem_cons.mp hl
    obtain ⟨body,hb,-⟩ := exists_body classes c rest
    have htx : textOf (tok::tokens) = c::(body ++ textOf tokens) := by
      rw [textOf,flatMap_cons,← hto,hb]
      rfl
    rw [htx,lex_cons,Separate]
    constructor
    · intro h
      obtain ⟨hh,htl⟩ := List.cons.inj h
      have ha := nextToken_append classes c (body ++ textOf tokens)
      rw [hh,← hto,hb,cons_append] at ha
      have haf : (nextToken classes c (body ++ textOf tokens)).2 = textOf tokens :=
        append_cancel_left (List.cons.inj ha).2
      have he := @ends_nextToken classes c (body ++ textOf tokens)
      rw [hh,haf] at he
      rw [haf] at htl
      exact ⟨he,(ih htk).mp htl⟩
    · rintro ⟨he,hs⟩
      rw [nextToken_of_ends hb (hto ▸ he),hto,(ih htk).mpr hs]

end

end HeliosNano.Foundation.Lexis
