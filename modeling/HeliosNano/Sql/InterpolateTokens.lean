import HeliosNano.Sql.Interpolate

namespace HeliosNano.Sql.Interpolate
open Foundation Foundation.Lexis List Option Char

/-- The lexical rules of the body: a dollar ends a word. -/
def classesOf (unicode : Unicode) : Classes := ⟨unicode.alphabetic,unicode.numeric,false⟩

def placeholderOf (tok : Token) : Option Placeholder :=
  match tok.kind with
  | .positional => (parseUsize tok.text.tail).map .positional
  | .named => some (.named tok.text.tail)
  | _ => none

/-- The tokens of the body, with the tokens of its value in the place of each placeholder that has one. -/
def substituted (unicode : Unicode) (resolve : Placeholder → Option Argument) (sql : Text) : List Token :=
  (lex (classesOf unicode) sql).flatMap fun tok =>
    match (placeholderOf tok).bind resolve with
    | some v => lex (classesOf unicode) (valueToSqlLiteral v)
    | none => [tok]

def undoubled : Text → Text
  | [] => []
  | [c] => [c]
  | c::d::rest => if c = '\'' ∧ d = '\'' then '\'' :: undoubled rest else c :: undoubled (d::rest)

def contentOf (tok : Token) : Option Text :=
  match tok.kind with
  | .string => some (undoubled tok.text.tail.dropLast)
  | _ => none

section

theorem quotedRest_eq (quote : Char) (escapes : Bool) (text : Text) :
    quotedRest quote escapes text = ((quotedRegion quote escapes text).1,(quotedRegion quote escapes text).2.1) := by
  induction text using quotedRegion.induct quote escapes with
  | case1 => rfl
  | case2 c =>
    rw [quotedRest.eq_def]
    dsimp only
    split
    · rfl
    · split <;> rfl
  | case3 c d rest h ih =>
    rw [quotedRest.eq_def,quotedRegion,if_pos h]
    dsimp only
    rw [if_pos h,ih]
  | case4 rest h ih =>
    rw [quotedRest.eq_def,quotedRegion,if_neg h,if_pos rfl,if_pos rfl]
    dsimp only
    rw [if_neg h,if_pos rfl,if_pos rfl,ih]
  | case5 d rest h hd =>
    rw [quotedRest.eq_def,quotedRegion,if_neg h,if_pos rfl,if_neg hd]
    dsimp only
    rw [if_neg h,if_pos rfl,if_neg hd]
  | case6 c d rest h hc ih =>
    rw [quotedRest.eq_def,quotedRegion,if_neg h,if_neg hc]
    dsimp only
    rw [if_neg h,if_neg hc,ih]

theorem copyQuoted_eq (quote : Char) (escapes : Bool) (text : Text) : copyQuoted quote escapes text =
    (quote::(quotedRegion quote escapes text).1,(quotedRegion quote escapes text).2.1) := by
  rw [copyQuoted,quotedRest_eq]

theorem copyLineComment_eq (text : Text) : copyLineComment text = ((lineComment text).1,(lineComment text).2.1) := by
  induction text with
  | nil => rfl
  | cons c rest ih =>
    rw [copyLineComment,lineComment]
    split
    · rfl
    · rw [ih]

theorem copyBlockComment_eq (depth : Nat) (text : Text) :
    copyBlockComment depth text = ((blockComment depth text).1,(blockComment depth text).2.1) := by
  induction depth, text using blockComment.induct with
  | case1 depth | case2 depth c => rfl
  | case3 depth c d rest h ih =>
    rw [copyBlockComment.eq_def,blockComment,if_pos h]
    dsimp only
    rw [if_pos h,ih]
  | case4 depth c d rest h hc hd =>
    rw [copyBlockComment.eq_def,blockComment,if_neg h,if_pos hc,if_pos hd]
    dsimp only
    rw [if_neg h,if_pos hc,if_pos hd]
  | case5 depth c d rest h hc hd ih =>
    rw [copyBlockComment.eq_def,blockComment,if_neg h,if_pos hc,if_neg hd]
    dsimp only
    rw [if_neg h,if_pos hc,if_neg hd,ih]
  | case6 depth c d rest h hc ih =>
    rw [copyBlockComment.eq_def,blockComment,if_neg h,if_neg hc]
    dsimp only
    rw [if_neg h,if_neg hc,ih]

variable {delim : Text}

theorem dollarBody_eq_find (hd : delim ≠ []) (body : Text) : dollarBody delim body = match find delim body with
      | some offset => (body.take (offset+delim.length),body.drop (offset+delim.length),true)
      | none => (body,[],false) := by
  induction body with
  | nil =>
    rw [find,if_neg hd]
    rfl
  | cons c rest ih =>
    rw [dollarBody,find]
    by_cases h : delim <+: c::rest
    · rw [if_pos h,if_pos h]
      simp only [Nat.zero_add,← prefix_iff_eq_take.mp h]
    rw [if_neg h,if_neg h,ih]
    cases find delim rest with
    | none => rfl
    | some offset => simp only [map_some,Nat.add_right_comm offset 1,take_succ_cons,drop_succ_cons]

theorem copyDollarQuoted_eq (hd : delim ≠ []) (body : Text) :
    copyDollarQuoted (delim ++ body) delim.length = (delim ++ (dollarBody delim body).1,(dollarBody delim body).2.1) := by
  rw [copyDollarQuoted,take_left,drop_left,dollarBody_eq_find hd]
  cases find delim body with
  | none => rfl
  | some offset => simp only [Nat.add_assoc,take_length_add_append,drop_length_add_append]

end

section
variable {σ : Type} (unicode : Unicode) (ask : Placeholder → StateM σ (Option Text))

/-- `interpolate_at_dollar` with a resolver that keeps a state. -/
def atDollarWith (rest : Text) : StateM σ (Text × Text) :=
  match rest with
  | [] => pure (['$'],rest)
  | c::_ =>
    if c = '$' then pure (copyDollarQuoted ('$' :: rest) 2)
    else if c.isDigit then
      let (digits,after) := munchDigits rest
      match parseUsize digits with
      | some n => do return ((← ask (.positional n)).getD ('$' :: digits),after)
      | none => pure ('$' :: digits,after)
    else if isIdentStart unicode c then
      let (name,after) := munchIdent unicode rest
      if after.head? = some '$' then pure (copyDollarQuoted ('$' :: rest) (name.length+2))
      else do return ((← ask (.named name)).getD ('$' :: name),after)
    else pure (['$'],rest)

/-- Only a dollar makes a turn ask. -/
def scanStepWith (c : Char) (rest : Text) : StateM σ (Text × Text) :=
  if c = '$' then atDollarWith unicode ask rest else pure (scanStep unicode (fun _ => none) c rest)

def interpolateFrom : Nat → Text → StateM σ Text
  | 0, _ => pure []
  | _+1, [] => pure []
  | fuel+1, c::rest => do
    let r ← scanStepWith unicode ask c rest
    return r.1 ++ (← interpolateFrom fuel r.2)

def interpolateWith (sql : Text) : StateM σ Text := interpolateFrom unicode ask sql.length sql

/-- What a segment contributes: a placeholder is asked for, and stays as it is without an answer. -/
def contribution (tok : Token) : StateM σ Text :=
  match placeholderOf tok with
  | some ph => do return (← ask ph).getD tok.text
  | none => pure tok.text

end

section
variable {unicode : Unicode}

theorem isIdentStart_eq (c : Char) : isIdentStart unicode c = isStart (classesOf unicode) c := Bool.or_right_comm ..

theorem isIdentChar_eq (c : Char) : isIdentChar unicode c = isPart (classesOf unicode) c := by
  have hs := @isIdentStart_eq unicode c
  rw [isIdentStart] at hs
  rw [isIdentChar,isAlphanumeric,isPart,← hs,Bool.or_right_comm,Bool.or_right_comm (isAlphabetic unicode c)]
  rfl

theorem isIdentChar_fun : isIdentChar unicode = isPart (classesOf unicode) := funext isIdentChar_eq

theorem isWordPart_fun : isWordPart (classesOf unicode) = isPart (classesOf unicode) := funext fun c => by
  rw [isWordPart,classesOf,Bool.false_and,Bool.or_false]

variable (resolve : Placeholder → Option Text)

def written (tok : Token) : Text := ((placeholderOf tok).bind resolve).getD tok.text

variable {resolve}

theorem written_of_other {tok : Token} (h : placeholderOf tok = none) : written resolve tok = tok.text := by
  rw [written,h]
  rfl

variable {kind : Kind}

theorem placeholderOf_ofRegion (opening : Text) (r : Text × Text × Bool) (h : kind ≠ .positional ∧ kind ≠ .named) :
    placeholderOf (ofRegion kind opening r).1 = none := by
  rw [ofRegion,placeholderOf]
  cases r.2.2 with
  | false => rfl
  | true =>
    rw [if_pos rfl]
    cases kind with
    | positional => exact absurd rfl h.1
    | named => exact absurd rfl h.2
    | _ => rfl

variable {r : Text × Text × Bool}

theorem written_ofRegion {opening : Text} (h : kind ≠ .positional ∧ kind ≠ .named) :
    written resolve (ofRegion kind opening r).1 = opening ++ r.1 := written_of_other (placeholderOf_ofRegion opening r h)

variable {σ : Type} {ask : Placeholder → StateM σ (Option Text)}

theorem contribution_of_none {tok : Token} (h : placeholderOf tok = none) : contribution ask tok = pure tok.text := by
  rw [contribution,h]

theorem contribution_ofRegion {opening : Text} (h : kind ≠ .positional ∧ kind ≠ .named) :
    contribution ask (ofRegion kind opening r).1 = pure (opening ++ r.1) := contribution_of_none (placeholderOf_ofRegion opening r h)

theorem atDollarWith_eq (rest : Text) : atDollarWith unicode ask rest =
    (·,(dollarToken (classesOf unicode) rest).2) <$> contribution ask (dollarToken (classesOf unicode) rest).1 := by
  rw [atDollarWith.eq_def,dollarToken.eq_def]
  cases rest with
  | nil => rfl
  | cons c tail =>
    dsimp only
    by_cases hdl : c = '$'
    · subst hdl
      rw [if_pos rfl,if_pos rfl,contribution_ofRegion (by decide)]
      exact congrArg pure (copyDollarQuoted_eq (cons_ne_nil '$' ['$']) tail)
    rw [if_neg hdl,if_neg hdl]
    by_cases hd : c.isDigit = true
    · rw [if_pos hd,if_pos hd]
      simp only [munchDigits,contribution,placeholderOf,tail_cons]
      cases parseUsize ((c::tail).takeWhile Char.isDigit) with
      | none | some n => rfl
    rw [if_neg hd,if_neg hd,isIdentStart_eq]
    by_cases hs : isStart (classesOf unicode) c = true
    · rw [if_pos hs,if_pos hs]
      simp only [munchIdent,isIdentChar_fun]
      by_cases htg : ((c::tail).dropWhile (isPart (classesOf unicode))).head? = some '$'
      · rw [if_pos htg,if_pos htg,contribution_ofRegion (by decide)]
        obtain ⟨body,hb⟩ := head?_eq_some_iff.mp htg
        have hsp : c::tail = (c::tail).takeWhile (isPart (classesOf unicode)) ++ '$' :: body := by
          rw [← hb,takeWhile_append_dropWhile]
        have hw : '$' :: c::tail = '$' :: (c::tail).takeWhile (isPart (classesOf unicode)) ++ ['$'] ++ body := by
          rw [append_assoc,singleton_append,cons_append,← hsp]
        have hl : ((c::tail).takeWhile (isPart (classesOf unicode))).length + 2 =
            ('$' :: (c::tail).takeWhile (isPart (classesOf unicode)) ++ ['$']).length := by
          rw [length_append,length_cons]
          rfl
        have hc := copyDollarQuoted_eq
          (show '$' :: (c::tail).takeWhile (isPart (classesOf unicode)) ++ ['$'] ≠ [] from cons_ne_nil _ _) body
        rw [← hw,← hl] at hc
        rw [hc,hb,tail_cons]
        rfl
      · rw [if_neg htg,if_neg htg]
        rfl
    · rw [if_neg hs,if_neg hs]
      rfl

theorem contribution_fst (ha : ∀ ph s, (ask ph s).1 = resolve ph) (tok : Token) (s : σ) :
    (contribution ask tok s).1 = written resolve tok := by
  rw [contribution,written]
  cases placeholderOf tok with
  | none => rfl
  | some ph => exact congrArg (Option.getD · tok.text) (ha ph s)

theorem interpolateAtDollar_eq (rest : Text) : interpolateAtDollar unicode resolve rest =
    (written resolve (dollarToken (classesOf unicode) rest).1,(dollarToken (classesOf unicode) rest).2) := by
  have hpure : interpolateAtDollar unicode resolve rest = (atDollarWith unicode (fun ph s => (resolve ph,s)) rest ()).1 := by
    rw [interpolateAtDollar.eq_def,atDollarWith.eq_def]
    cases rest with
    | nil => rfl
    | cons c tail =>
      dsimp only
      split
      · rfl
      split
      · cases parseUsize (munchDigits (c::tail)).1 <;> rfl
      split
      · split <;> rfl
      · rfl
  rw [hpure,atDollarWith_eq]
  exact congrArg (·,_) (@contribution_fst resolve _ _ (fun _ _ => rfl) _ ())

variable {c : Char} {rest : Text}

theorem scanStep_eq (hn : ¬(c.isDigit = true ∨ (c = '.' ∧ startsWithDigit rest = true))) : scanStep unicode resolve c rest =
      (written resolve (nextToken (classesOf unicode) c rest).1,(nextToken (classesOf unicode) c rest).2) := by
  rw [scanStep,nextToken]
  by_cases hqu : c = '\''
  · rw [if_pos hqu,if_pos hqu,copyQuoted_eq,written_ofRegion (by decide),hqu]
    rfl
  rw [if_neg hqu,if_neg hqu]
  by_cases hd : c = '"'
  · rw [if_pos hd,if_pos hd,copyQuoted_eq,written_ofRegion (by decide),hd]
    rfl
  rw [if_neg hd,if_neg hd]
  by_cases hl : c = '-' ∧ rest.head? = some '-'
  · rw [if_pos hl,if_pos hl,copyLineComment_eq,written_ofRegion (by decide)]
    rfl
  rw [if_neg hl,if_neg hl]
  by_cases hb : c = '/' ∧ rest.head? = some '*'
  · rw [if_pos hb,if_pos hb,copyBlockComment_eq,written_ofRegion (by decide)]
    rfl
  rw [if_neg hb,if_neg hb]
  by_cases hdl : c = '$'
  · rw [if_pos hdl,if_pos hdl,interpolateAtDollar_eq]
  rw [if_neg hdl,if_neg hdl,isIdentStart_eq]
  by_cases hs : isStart (classesOf unicode) c = true
  · have hp : isPart (classesOf unicode) c = true := by rw [isPart,hs,Bool.true_or,Bool.true_or]
    rw [if_pos hs,if_pos hs,wordToken]
    simp only [munchIdent,isIdentChar_fun,isWordPart_fun,takeWhile_cons_of_pos hp,dropWhile_cons_of_pos hp]
    split
    · rw [written_ofRegion (by decide),copyQuoted_eq,append_assoc]
      rfl
    · rfl
  rw [if_neg hs,if_neg hs,if_neg hn]
  split <;> rfl

theorem scanStep_number (h : c.isDigit = true ∨ c = '.') : scanStep unicode resolve c rest = ([c],rest) := by
  have hne : c ≠ '\'' ∧ c ≠ '"' ∧ c ≠ '-' ∧ c ≠ '/' ∧ c ≠ '$' ∧ isIdentStart unicode c = false := by
    rw [isIdentStart_eq]
    obtain h | rfl := h
    · have hd := @isDigit_ne (classesOf unicode) _ h
      exact ⟨hd.1,hd.2.1,hd.2.2.1,hd.2.2.2.1,hd.2.2.2.2.1,hd.2.2.2.2.2⟩
    · exact ⟨by decide,by decide,by decide,by decide,by decide,by simp [isStart]⟩
  obtain ⟨h1,h2,h3,h4,h5,h6⟩ := hne
  rw [scanStep,if_neg h1,if_neg h2,if_neg fun hno => h3 hno.1,if_neg fun hno => h4 hno.1,if_neg h5,h6,
    if_neg Bool.false_ne_true]

theorem scanStep_length (c : Char) (rest : Text) : (scanStep unicode resolve c rest).2.length ≤ rest.length := by
  by_cases h : c.isDigit = true ∨ (c = '.' ∧ startsWithDigit rest = true)
  · rw [scanStep_number (h.imp id And.left)]
  · rw [scanStep_eq h]
    exact nextToken_length _ _ _

theorem interpolate_cons (c : Char) (rest : Text) : interpolateSqlPlaceholders unicode resolve (c::rest) =
    (scanStep unicode resolve c rest).1 ++ interpolateSqlPlaceholders unicode resolve (scanStep unicode resolve c rest).2 := by
  rw [interpolateSqlPlaceholders,steps_cons scanStep_length,flatten_cons]
  rfl

theorem interpolate_digits {digits : Text} (hd : ∀ c ∈ digits, c.isDigit = true) (rest : Text) :
    interpolateSqlPlaceholders unicode resolve (digits ++ rest) = digits ++ interpolateSqlPlaceholders unicode resolve rest := by
  induction digits with
  | nil => rfl
  | cons c digits ih =>
    rw [forall_mem_cons] at hd
    rw [cons_append,interpolate_cons,scanStep_number (.inl hd.1),ih hd.2]
    rfl

theorem interpolate_fraction (text : Text) : interpolateSqlPlaceholders unicode resolve text =
    fraction text ++ interpolateSqlPlaceholders unicode resolve (text.drop (fraction text).length) := by
  rw [fraction.eq_def]
  split
  next rest =>
    have hrest := @interpolate_digits unicode resolve _ (@mem_takeWhile Char.isDigit rest)
      (rest.drop (rest.takeWhile Char.isDigit).length)
    rw [prefix_iff_eq_append.mp ( takeWhile_prefix _)] at hrest
    rw [interpolate_cons,scanStep_number (.inr rfl),hrest,length_cons,drop_succ_cons]
    rfl
  · rfl

theorem scanStep_word {c : Char} {rest : Text} (hs : isStart (classesOf unicode) c = true)
    (hqu : rest.takeWhile (isPart (classesOf unicode)) = [] → rest.head? ≠ some '\'') : scanStep unicode resolve c rest =
      (c :: rest.takeWhile (isPart (classesOf unicode)),rest.dropWhile (isPart (classesOf unicode))) := by
  have hd : ¬(c.isDigit = true ∨ (c = '.' ∧ startsWithDigit rest = true)) := by
    rintro (hno | ⟨rfl,-⟩)
    · have hne := (@isDigit_ne (classesOf unicode) _ hno).2.2.2.2.2
      rw [hs] at hne
      cases hne
    · simp [isStart] at hs
  have hl : ¬((c :: rest.takeWhile (isPart (classesOf unicode)) = ['E'] ∨
      c :: rest.takeWhile (isPart (classesOf unicode)) = ['e']) ∧
        (rest.dropWhile (isPart (classesOf unicode))).head? = some '\'') := by
    rintro ⟨ha,hh⟩
    have hn : rest.takeWhile (isPart (classesOf unicode)) = [] := ha.elim (fun h => (List.cons.inj h).2) fun h => (List.cons.inj h).2
    have hsp := @takeWhile_append_dropWhile _ (isPart (classesOf unicode)) rest
    rw [hn,nil_append] at hsp
    rw [hsp] at hh
    exact hqu hn hh
  rw [scanStep_eq hd,nextToken_start hs,wordToken,isWordPart_fun,if_neg hl]
  rfl

theorem isPart_sign {s : Char} (hs : s = '+' ∨ s = '-') : ¬isPart (classesOf unicode) s = true := by
  obtain rfl | rfl := hs
  · simp [isPart,isStart]
  · simp [isPart,isStart]

theorem interpolate_exponent (text : Text) : interpolateSqlPlaceholders unicode resolve text =
    exponent (classesOf unicode) text ++
      interpolateSqlPlaceholders unicode resolve (text.drop (exponent (classesOf unicode) text).length) := by
  rw [exponent.eq_def]
  split
  · rfl
  next e rest =>
    by_cases he : e = 'e' ∨ e = 'E'
    · have hst : isStart (classesOf unicode) e = true := by
        obtain rfl | rfl := he
        · rfl
        · rfl
      rw [if_pos he]
      cases rest with
      | nil => rfl
      | cons s rest =>
        dsimp only
        by_cases hs : s = '+' ∨ s = '-'
        · rw [if_pos hs]
          by_cases hn : rest.takeWhile Char.isDigit = []
          · rw [if_pos hn]
            rfl
          -- the scanner reads a word, a sign and digits
          rw [if_neg hn]
          have hqu : s ≠ '\'' := by
            obtain rfl | rfl := hs
            · decide
            · decide
          have hw := @scanStep_word unicode resolve e (s::rest) hst fun _ hno => hqu (Option.some.inj hno)
          rw [takeWhile_cons_of_neg (isPart_sign hs),dropWhile_cons_of_neg (isPart_sign hs)] at hw
          have hsg : scanStep unicode resolve s rest = ([s],rest) := by
            have hds : rest.head? ≠ some '-' := by
              intro hno
              obtain ⟨tail,rfl⟩ := head?_eq_some_iff.mp hno
              exact hn (takeWhile_cons_of_neg (by decide))
            obtain rfl | rfl := hs
            · rfl
            · rw [scanStep,if_neg (by decide),if_neg (by decide),if_neg fun hno => hds hno.2]
              rfl
          have hd := @interpolate_digits unicode resolve _ (@mem_takeWhile Char.isDigit rest)
            (rest.drop (rest.takeWhile Char.isDigit).length)
          rw [prefix_iff_eq_append.mp ( takeWhile_prefix _)] at hd
          rw [interpolate_cons,hw,interpolate_cons,hsg,hd]
          rfl
        · rw [if_neg hs]
          by_cases hr : (s::rest).takeWhile (isPart (classesOf unicode)) ≠ [] ∧
              ((s::rest).takeWhile (isPart (classesOf unicode))).all Char.isDigit
          · rw [if_pos hr]
            have hw := @scanStep_word unicode resolve e (s::rest) hst fun hno => absurd hno hr.1
            have hdr : (s::rest).dropWhile (isPart (classesOf unicode)) =
                (s::rest).drop ((s::rest).takeWhile (isPart (classesOf unicode))).length := by
              refine @append_cancel_left _ ((s::rest).takeWhile (isPart (classesOf unicode))) _ _ ?_
              rw [takeWhile_append_dropWhile,prefix_iff_eq_append.mp ( takeWhile_prefix _)]
            rw [interpolate_cons,hw,hdr]
            rfl
          · rw [if_neg hr]
            rfl
    · rw [if_neg he]
      rfl

theorem interpolate_number (text : Text) : interpolateSqlPlaceholders unicode resolve text =
    numberText (classesOf unicode) text ++
      interpolateSqlPlaceholders unicode resolve (text.drop (numberText (classesOf unicode) text).length) := by
  have hw := @takeWhile_append_dropWhile _ Char.isDigit text
  have hf := prefix_iff_eq_append.mp (fraction_isPrefix (text.dropWhile Char.isDigit))
  have hexponent := prefix_iff_eq_append.mp (exponent_isPrefix (classesOf unicode)
    ((text.dropWhile Char.isDigit).drop (fraction (text.dropWhile Char.isDigit)).length))
  have hd := @interpolate_digits unicode resolve _ (@mem_takeWhile Char.isDigit text) (text.dropWhile Char.isDigit)
  rw [interpolate_fraction (text.dropWhile Char.isDigit),
    interpolate_exponent ((text.dropWhile Char.isDigit).drop (fraction (text.dropWhile Char.isDigit)).length),hw] at hd
  have hs := prefix_iff_eq_append.mp (numberText_isPrefix (classesOf unicode) text)
  rw [hd,numberText]
  simp only [append_assoc]
  congr 3
  -- what is left after the three parts is what is left after the number
  apply congrArg
  refine @append_cancel_left _ (numberText (classesOf unicode) text) _ _ ?_
  rw [numberText] at hs ⊢
  simp only [append_assoc] at hs ⊢
  rw [hs,hexponent,hf,hw]

theorem interpolate_eq (sql : Text) : interpolateSqlPlaceholders unicode resolve sql =
    (lex (classesOf unicode) sql).flatMap (written resolve) := by
  induction hl : sql.length using Nat.strong_induction_on generalizing sql with
  | _ n ih =>
    cases sql with
    | nil => rfl
    | cons c rest =>
      have hsh := nextToken_length (classesOf unicode) c rest
      rw [length_cons] at hl
      rw [lex_cons,flatMap_cons,← ih _ (by omega) (nextToken (classesOf unicode) c rest).2 rfl]
      by_cases hn : c.isDigit = true ∨ (c = '.' ∧ startsWithDigit rest = true)
      · rw [nextToken_digit hn]
        exact interpolate_number _
      · rw [interpolate_cons,scanStep_eq hn]

end

section

theorem undoubled_doubledQuotes (s : Text) : undoubled (doubledQuotes s) = s := by
  induction s with
  | nil => rfl
  | cons c rest ih =>
    rw [doubledQuotes,flatMap_cons,← doubledQuotes]
    by_cases hc : c = '\''
    · subst hc
      rw [if_pos rfl]
      show undoubled ('\'' :: '\'' :: doubledQuotes rest) = _
      rw [undoubled,if_pos ⟨rfl,rfl⟩,ih]
    · rw [if_neg hc,singleton_append]
      cases hrest : doubledQuotes rest with
      | nil =>
        rw [hrest] at ih
        rw [← ih]
        rfl
      | cons d tail => rw [undoubled,if_neg fun hno => hc hno.1,← hrest,ih]

theorem quotedRegion_doubledQuotes (s : Text) :
    quotedRegion '\'' false (doubledQuotes s ++ ['\'']) = (doubledQuotes s ++ ['\''],[],true) := by
  induction s with
  | nil => rfl
  | cons c rest ih =>
    rw [doubledQuotes,flatMap_cons,← doubledQuotes]
    by_cases hc : c = '\''
    · subst hc
      rw [if_pos rfl]
      show quotedRegion '\'' false ('\'' :: '\'' :: (doubledQuotes rest ++ ['\''])) = _
      rw [quotedRegion,if_neg (by decide),if_pos rfl,if_pos rfl,ih]
      rfl
    · rw [if_neg hc,append_assoc,singleton_append]
      obtain ⟨d,tail,htl⟩ := exists_cons_of_ne_nil (append_ne_nil_of_right_ne_nil (doubledQuotes rest) (cons_ne_nil '\'' []))
      rw [htl] at ih ⊢
      rw [quotedRegion,if_neg (by simp),if_neg hc,ih]

theorem lex_quoted (classes : Classes) (s : Text) : lex classes (quoted s) = [⟨.string,quoted s⟩] := by
  have htk : nextToken classes '\'' (doubledQuotes s ++ ['\'']) = (⟨.string,quoted s⟩,[]) := by
    rw [nextToken,if_pos rfl,quotedRegion_doubledQuotes]
    rfl
  rw [quoted,cons_append,lex_cons,htk]
  rfl

theorem contentOf_quoted (s : Text) : contentOf ⟨.string,quoted s⟩ = some s := by
  rw [contentOf,quoted]
  simp only [cons_append,tail_cons,dropLast_concat,undoubled_doubledQuotes]

end

section
variable {unicode : Unicode} (resolve : Placeholder → Option Argument) (sql : Text)

theorem textOf_substituted : textOf (substituted unicode resolve sql) =
    interpolateSqlPlaceholders unicode (fun ph => (resolve ph).map valueToSqlLiteral) sql := by
  rw [interpolate_eq,substituted,textOf,flatMap_assoc]
  congr 1
  funext tok
  have hv : (placeholderOf tok).bind (fun ph => (resolve ph).map valueToSqlLiteral) =
      ((placeholderOf tok).bind resolve).map valueToSqlLiteral := by
    cases placeholderOf tok with
    | none | some ph => rfl
  rw [written,hv]
  cases (placeholderOf tok).bind resolve with
  | none => exact append_nil _
  | some v => exact textOf_lex _ _

theorem lexed_substituted : ∀ tok ∈ substituted unicode resolve sql, Lexed (classesOf unicode) tok := by
  intro tok htk
  obtain ⟨tok',ht',hm⟩ := mem_flatMap.mp htk
  split at hm
  · exact lexed_lex _ _ hm
  · obtain rfl := mem_singleton.mp hm
    exact lexed_lex _ _ ht'

/-- The tokens of the body with the values in place are the body's with the values' among them exactly when no token is continued by
the characters that then stand after it. -/
theorem lex_interpolate_iff :
    (lex (classesOf unicode) (interpolateSqlPlaceholders unicode (fun ph => (resolve ph).map valueToSqlLiteral) sql) =
        substituted unicode resolve sql ∧
      ∀ s, ∃ tok, lex (classesOf unicode) (valueToSqlLiteral (.string s)) = [tok] ∧ contentOf tok = some s) ↔
      Separate (classesOf unicode) (substituted unicode resolve sql) := by
  rw [← textOf_substituted,lex_textOf_iff (lexed_substituted resolve sql)]
  constructor
  · exact And.left
  · intro h
    refine ⟨h,fun s => ⟨_,?_,contentOf_quoted s⟩⟩
    rw [valueToSqlLiteral]
    exact lex_quoted _ s

end

/-- A minus before a negative value opens a comment: the rest of the line is no longer read. -/
theorem minus_opens_comment : ¬lex (classesOf ⟨fun _ => false,fun _ => false⟩)
    (interpolateSqlPlaceholders ⟨fun _ => false,fun _ => false⟩ (fun _ => some (valueToSqlLiteral (.int4 (-3)))) (text "SELECT 5-$1")) =
      substituted ⟨fun _ => false,fun _ => false⟩ (fun _ => some (.int4 (-3))) (text "SELECT 5-$1") := by
  decide +kernel

/-- The segments of a text from the left. Digits and dots that begin a number are characters of their own. -/
inductive Segments (classes : Classes) : Text → List Token → Prop
  | nil : Segments classes [] []
  | character {c : Char} {rest : Text} {segments : List Token} (number : c.isDigit = true ∨ (c = '.' ∧ startsWithDigit rest = true))
      (after : Segments classes rest segments) : Segments classes (c::rest) (⟨.symbol,[c]⟩ :: segments)
  | token {c : Char} {rest : Text} {segments : List Token} (number : ¬(c.isDigit = true ∨ (c = '.' ∧ startsWithDigit rest = true)))
      (after : Segments classes (nextToken classes c rest).2 segments) :
      Segments classes (c::rest) ((nextToken classes c rest).1 :: segments)

section
variable {unicode : Unicode} {σ : Type} {ask : Placeholder → StateM σ (Option Text)} {classes : Classes} {sql : Text}
variable {segments segments' : List Token}

theorem Segments.unique (h : Segments classes sql segments) (h' : Segments classes sql segments') : segments = segments' := by
  induction h generalizing segments' with
  | nil =>
    cases h'
    rfl
  | character hn _ ih =>
    cases h' with
    | character _ ha => rw [ih ha]
    | token hno => exact absurd hn hno
  | token hno _ ih =>
    cases h' with
    | character hn => exact absurd hn hno
    | token _ ha => rw [ih ha]

theorem exists_segments (classes : Classes) (sql : Text) : ∃ segments, Segments classes sql segments := by
  induction hl : sql.length using Nat.strong_induction_on generalizing sql with
  | _ n ih =>
    cases sql with
    | nil => exact ⟨[],.nil⟩
    | cons c rest =>
      rw [length_cons] at hl
      by_cases hn : c.isDigit = true ∨ (c = '.' ∧ startsWithDigit rest = true)
      · obtain ⟨segments,hs⟩ := ih _ (by omega) rest rfl
        exact ⟨_,.character hn hs⟩
      · have hsh := nextToken_length classes c rest
        obtain ⟨segments,hs⟩ := ih _ (by omega) (nextToken classes c rest).2 rfl
        exact ⟨_,.token hn hs⟩

theorem placeholderOf_nextToken {c : Char} (hc : c ≠ '$') (rest : Text) : placeholderOf (nextToken classes c rest).1 = none := by
  rw [nextToken,if_neg hc,wordToken]
  split_ifs <;> first | exact placeholderOf_ofRegion _ _ (by decide) | rfl

theorem scanStepWith_eq {c : Char} {rest : Text} (hn : ¬(c.isDigit = true ∨ (c = '.' ∧ startsWithDigit rest = true))) :
    scanStepWith unicode ask c rest = (·,(nextToken (classesOf unicode) c rest).2) <$>
      contribution ask (nextToken (classesOf unicode) c rest).1 := by
  rw [scanStepWith]
  split
  next hc =>
    subst hc
    exact atDollarWith_eq rest
  next hc =>
    have ht := @placeholderOf_nextToken (classesOf unicode) _ hc rest
    rw [scanStep_eq hn,contribution_of_none ht,written_of_other ht]
    rfl

theorem flatten_mapM_cons (f : Token → StateM σ Text) (tok : Token) :
    flatten <$> (tok::segments).mapM f = (do return (← f tok) ++ (← flatten <$> segments.mapM f)) := by
  rw [mapM_cons]
  rfl

theorem interpolateFrom_eq (h : Segments (classesOf unicode) sql segments) {fuel : Nat} (hfuel : sql.length ≤ fuel) :
    interpolateFrom unicode ask fuel sql = flatten <$> segments.mapM (contribution ask) := by
  induction h generalizing fuel with
  | nil => cases fuel <;> rfl
  | @character c rest segments hn _ ih =>
    cases fuel with
    | zero => cases hfuel
    | succ fuel =>
      have hc : c ≠ '$' := by
        rintro rfl
        simp at hn
      rw [interpolateFrom,scanStepWith,if_neg hc,scanStep_number (hn.imp id And.left),pure_bind,
        ih (Nat.le_of_succ_le_succ hfuel),flatten_mapM_cons,contribution_of_none rfl,pure_bind]
  | @token c rest segments hn _ ih =>
    cases fuel with
    | zero => cases hfuel
    | succ fuel =>
      have hshort := nextToken_length (classesOf unicode) c rest
      rw [length_cons] at hfuel
      have hrest := @ih fuel (by omega)
      rw [interpolateFrom,scanStepWith_eq hn,bind_map_left,flatten_mapM_cons,← hrest]

theorem textOf_segments (h : Segments classes sql segments) : textOf segments = sql := by
  induction h with
  | nil => rfl
  | character _ _ ih => rw [textOf,flatMap_cons,← textOf,ih,singleton_append]
  | token _ _ ih => rw [textOf,flatMap_cons,← textOf,ih,nextToken_append]

variable {resolve : Placeholder → Option Text}

theorem interpolate_segments (h : Segments (classesOf unicode) sql segments) :
    interpolateSqlPlaceholders unicode resolve sql = segments.flatMap (written resolve) := by
  induction h with
  | nil => rfl
  | character hn _ ih =>
    rw [interpolate_cons,scanStep_number (hn.imp id And.left),ih]
    rfl
  | token hn _ ih =>
    rw [interpolate_cons,scanStep_eq hn,ih]
    rfl

theorem mapM_contribution (ha : ∀ ph s, (ask ph s).1 = resolve ph) (segments : List Token) (s : σ) :
    (segments.mapM (contribution ask) s).1 = segments.map (written resolve) := by
  induction segments generalizing s with
  | nil => rfl
  | cons tok segments ih =>
    rw [mapM_cons,map_cons,← contribution_fst ha tok s,← ih (contribution ask tok s).2]
    rfl

theorem interpolateWith_of_answers (ha : ∀ ph s, (ask ph s).1 = resolve ph) (sql : Text) (s : σ) :
    (interpolateWith unicode ask sql s).1 = interpolateSqlPlaceholders unicode resolve sql := by
  obtain ⟨segments,hsg⟩ := exists_segments (classesOf unicode) sql
  rw [interpolateWith,interpolateFrom_eq hsg le_rfl,interpolate_segments hsg]
  exact congrArg flatten (mapM_contribution ha segments s)

end

/-- There is one way to cut the body into segments. Each contributes its text, but a placeholder the answer it gets; the resolver is
asked for the placeholders in order, and not for a number that does not fit. -/
theorem interpolate_by_segments (unicode : Unicode) (sql : Text) : ∃! segments, Segments (classesOf unicode) sql segments ∧
    textOf segments = sql ∧ ∀ (σ : Type) (ask : Placeholder → StateM σ (Option Text)),
      interpolateWith unicode ask sql = flatten <$> segments.mapM (contribution ask) ∧
      ((∀ ph s, (ask ph s).1 = none) → ∀ s, (interpolateWith unicode ask sql s).1 = sql) := by
  obtain ⟨segments,hsg⟩ := exists_segments (classesOf unicode) sql
  refine ⟨segments,⟨hsg,textOf_segments hsg,fun σ ask => ⟨interpolateFrom_eq hsg le_rfl,fun hnone s => ?_⟩⟩,
    fun _ h => h.1.unique hsg⟩
  have hw : written (fun _ => none) = Token.text := funext fun tok => by
    rw [written,bind_fun_none]
    rfl
  calc (interpolateWith unicode ask sql s).1
      = segments.flatMap (written fun _ => none) := by rw [interpolateWith_of_answers hnone,interpolate_segments hsg]
    _ = textOf segments := by rw [hw,textOf]
    _ = sql := textOf_segments hsg

/-- The number is one too large for an index: the placeholder is not asked for. -/
theorem large_index_not_asked :
    Segments (classesOf ⟨fun _ => false,fun _ => false⟩) (text "$18446744073709551616") [⟨.positional,text "$18446744073709551616"⟩] ∧
      ¬(interpolateWith ⟨fun _ => false,fun _ => false⟩ (fun ph asked => (some [],ph::asked)) (text "$18446744073709551616")
        []).2.length = 1 := by
  refine ⟨.token (by decide) ?_,by decide +kernel⟩
  exact .nil

end HeliosNano.Sql.Interpolate
