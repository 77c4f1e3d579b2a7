import HeliosNano.Foundation.Wildcards
import HeliosNano.Sql.Expr

namespace HeliosNano.Sql
open Foundation.Wildcards List

/-- A percent sign takes any characters and an underscore any one; a backslash quotes the
character after it, and one that ends the pattern has nothing to quote. -/
def likePieces : Text → List (Piece Char)
  | [] => []
  | ['\\'] => []
  | '\\' :: c::rest => .only c :: likePieces rest
  | '%' :: rest => .anyRun :: likePieces rest
  | '_' :: rest => .any :: likePieces rest
  | c::rest => .only c :: likePieces rest

def Like (pattern text : Text) : Prop := Spells (fun _ => True) (likePieces pattern) text

def regexSpecials : Text := ['^','$','.','*','+','?','{','}','[',']','|','(',')','\\']

/-- What the translation writes for a piece: `.*`, `.`, or a character, quoted where it is special. -/
def regexOfPiece : Piece Char → Text
  | .anyRun => ['.','*']
  | .any => ['.']
  | .only c => if c ∈ regexSpecials then ['\\',c] else [c]

/-- `Regex::new`, which gives the expression's `is_match` or the text of its error. -/
structure RegexCrate where
  new : Text → Except String (Text → Bool)

/-- An anchored sequence of dots, starred dots and characters matches what it spells, where a
dot takes any character but a newline. -/
def RegexCrate.Documented (regex : RegexCrate) : Prop :=
  ∀ pieces isMatch, regex.new (['^'] ++ pieces.flatMap regexOfPiece ++ ['$']) = .ok isMatch →
    ∀ text, isMatch text = true ↔ Spells (· ≠ '\n') pieces text

def RegexCrate.Compiles (regex : RegexCrate) (expression : Text) : Prop := ∃ isMatch, regex.new expression = .ok isMatch

def likePatternBody : Text → Text
  | [] => []
  | ['\\'] => []
  | '\\' :: next :: rest => (if next ∈ regexSpecials then ['\\',next] else [next]) ++ likePatternBody rest
  | '%' :: rest => ['.','*'] ++ likePatternBody rest
  | '_' :: rest => ['.'] ++ likePatternBody rest
  | c::rest =>
    (if c ∈ ['^','$','.','*','+','?','{','}','[',']','|','(',')'] then ['\\',c] else [c]) ++
      likePatternBody rest

def likePatternToRegex (pattern : Text) : Text := ['^'] ++ likePatternBody pattern ++ ['$']

def likeOp (regex : RegexCrate) (c : Conversions) (left right : Value) (negated : Bool) : Result :=
  if left = .null ∨ right = .null then .ok .null
  else match left with
    | .string t =>
      match right with
      | .string pattern =>
        match regex.new (likePatternToRegex pattern) with
        | .ok isMatch => .ok (.boolean (if negated then !isMatch t else isMatch t))
        | .error e => queryError ("Invalid LIKE pattern '" ++ String.ofList pattern ++ "': " ++ e)
      | right => queryError ("LIKE pattern must be a string, got " ++ c.debug right)
    | left => queryError ("LIKE requires string operand, got " ++ c.debug left)

def matchLikeRecursive (text : Text) : Text → Bool
  | [] => text.isEmpty
  | p::rest =>
    if p = '%' then text.tails.any fun t => matchLikeRecursive t rest
    else match text with
      | [] => false
      | c::text => if p = '_' ∨ p = c then matchLikeRecursive text rest else false

def matchLikePattern (text pattern : Text) : Bool := matchLikeRecursive text pattern

/-- The pattern that the matcher reads: backslashes stand for themselves. -/
def plainPieces (pattern : Text) : List (Piece Char) :=
  pattern.map fun c => if c = '%' then .anyRun else if c = '_' then .any else .only c

theorem ne_slash {c : Char} {rest : Text} (hl : c = '\\' → rest = [] → False)
    (hs : ∀ (d : Char) (tail : Text), c = '\\' → rest = d::tail → False) : c ≠ '\\' := by
  intro hc
  cases rest with
  | nil => exact hl hc rfl
  | cons d tail => exact hs d tail hc rfl

theorem likePatternBody_eq (pattern : Text) : likePatternBody pattern = (likePieces pattern).flatMap regexOfPiece := by
  fun_induction likePieces pattern with
  | case1 | case2 => rfl
  | case3 c rest ih | case4 rest ih | case5 rest ih => rw [likePatternBody,ih,flatMap_cons,regexOfPiece]
  | case6 c rest hl hs hp hu ih =>
    have hne := ne_slash hl hs
    have hsp : c ∈ ['^','$','.','*','+','?','{','}','[',']','|','(',')'] ↔ c ∈ regexSpecials := by
      simp [regexSpecials,hne]
    rw [likePatternBody,ih,flatMap_cons,regexOfPiece]
    · simp only [hsp]
    all_goals assumption

theorem matchLikeRecursive_iff (text pattern : Text) :
    matchLikeRecursive text pattern = true ↔ Spells (fun _ => True) (plainPieces pattern) text := by
  induction pattern generalizing text with
  | nil =>
    rw [plainPieces,map_nil,spells_nil_iff,matchLikeRecursive,List.isEmpty_iff]
  | cons p rest ih =>
    have hpl : plainPieces (p::rest) =
        (if p = '%' then .anyRun else if p = '_' then .any else .only p) :: plainPieces rest := rfl
    unfold matchLikeRecursive
    rw [hpl]
    by_cases hp : p = '%'
    · rw [if_pos hp,if_pos hp,spells_anyRun_iff_suffix,any_eq_true]
      constructor
      · rintro ⟨t,ht,hm⟩
        exact ⟨t,(mem_tails t text).mp ht,(ih t).mp hm⟩
      · rintro ⟨t,ht,hm⟩
        exact ⟨t,(mem_tails t text).mpr ht,(ih t).mpr hm⟩
    · rw [if_neg hp,if_neg hp]
      cases text with
      | nil =>
        constructor
        · rintro ⟨⟩
        · intro h
          split at h <;> cases h
      | cons c text =>
        by_cases hu : p = '_'
        · rw [if_pos hu,spells_any_iff]
          simp only [hu,true_or,if_true,ih]
          constructor
          · intro h
            exact ⟨c,text,rfl,trivial,h⟩
          · rintro ⟨_,_,heq,-,h⟩
            cases heq
            exact h
        · rw [if_neg hu,spells_only_iff]
          simp only [hu,false_or]
          split
          · next hc =>
            rw [ih]
            constructor
            · intro h
              exact ⟨text,by rw [hc],h⟩
            · rintro ⟨_,heq,h⟩
              cases heq
              exact h
          · next hc =>
            constructor
            · rintro ⟨⟩
            · rintro ⟨_,heq,-⟩
              exact absurd (List.cons.inj heq).1.symm hc

variable {pattern : Text}

theorem plainPieces_eq (hs : '\\' ∉ pattern) : plainPieces pattern = likePieces pattern := by
  fun_induction likePieces pattern with
  | case1 => rfl
  | case2 | case3 => exact absurd mem_cons_self hs
  | case4 rest ih => exact congrArg (Piece.anyRun :: ·) (ih fun h => hs (mem_cons_of_mem _ h))
  | case5 rest ih => exact congrArg (Piece.any :: ·) (ih fun h => hs (mem_cons_of_mem _ h))
  | case6 c rest _ _ hp hu ih =>
    rw [← ih fun h => hs (mem_cons_of_mem _ h),plainPieces,map_cons,if_neg hp,if_neg hu]
    rfl

theorem count_slash_add_le (pattern : Text) : (likePieces pattern).count (.only '\\') + (if '\\' ∈ pattern then 1 else 0) ≤
      (plainPieces pattern).count (.only '\\') := by
  fun_induction likePieces pattern with
  | case1 | case2 => decide
  | case3 c rest ih =>
    have hp : plainPieces ('\\' :: c::rest) =
        .only '\\' :: (if c = '%' then .anyRun else if c = '_' then .any else .only c) :: plainPieces rest := rfl
    rw [if_pos mem_cons_self,hp,count_cons_self,count_cons,count_cons]
    by_cases hc : c = '\\'
    · subst hc
      simp only [beq_self_eq_true,if_true,Char.reduceEq,if_false]
      omega
    · have hne : ¬ ((Piece.only c == .only '\\') = true) := by simpa using hc
      rw [if_neg hne]
      omega
  | case4 rest ih =>
    have hp : plainPieces ('%' :: rest) = .anyRun :: plainPieces rest := rfl
    rw [hp,count_cons_of_ne (by simp),count_cons_of_ne (by simp)]
    simpa using ih
  | case5 rest ih =>
    have hp : plainPieces ('_' :: rest) = .any :: plainPieces rest := rfl
    rw [hp,count_cons_of_ne (by simp),count_cons_of_ne (by simp)]
    simpa using ih
  | case6 c rest hl hs hpc hu ih =>
    have hne := ne_slash hl hs
    have hp : plainPieces (c::rest) = .only c :: plainPieces rest := by
      rw [plainPieces,map_cons,if_neg hpc,if_neg hu]
      rfl
    rw [hp,count_cons_of_ne (by simpa using hne),count_cons_of_ne (by simpa using hne)]
    simpa [hne.symm] using ih

theorem count_slash_lt (h : '\\' ∈ pattern) :
    (likePieces pattern).count (.only '\\') < (plainPieces pattern).count (.only '\\') := by
  have hle := count_slash_add_le pattern
  rw [if_pos h] at hle
  omega

theorem any_mem_plainPieces : .any ∈ plainPieces pattern ↔ '_' ∈ pattern := by
  rw [plainPieces,mem_map]
  constructor
  · rintro ⟨c,hc,hp⟩
    split at hp
    · cases hp
    next hpc =>
    split at hp
    · next hu => rwa [← hu]
    · cases hp
  · intro h
    exact ⟨'_',h,rfl⟩

theorem anyRun_mem_plainPieces : .anyRun ∈ plainPieces pattern ↔ '%' ∈ pattern := by
  rw [plainPieces,mem_map]
  constructor
  · rintro ⟨c,hc,hp⟩
    split at hp
    · next hpc => rwa [← hpc]
    · split at hp <;> cases hp
  · intro h
    exact ⟨'%',h,rfl⟩

theorem only_newline_mem (h : '\n' ∈ pattern) : .only '\n' ∈ likePieces pattern ∧ .only '\n' ∈ plainPieces pattern := by
  constructor
  · fun_induction likePieces pattern with
    | case1 => cases h
    | case2 => simp at h
    | case3 c rest ih =>
      rcases mem_cons.mp ((mem_cons.mp h).resolve_left (by decide)) with rfl | h
      · exact mem_cons_self
      · exact mem_cons_of_mem _ (ih h)
    | case4 rest ih | case5 rest ih => exact mem_cons_of_mem _ (ih ((mem_cons.mp h).resolve_left (by decide)))
    | case6 c rest _ _ _ _ ih =>
      rcases mem_cons.mp h with rfl | h
      · exact mem_cons_self
      · exact mem_cons_of_mem _ (ih h)
  · exact mem_map.mpr ⟨'\n',h,rfl⟩

/-- Both answers on the text are those of the pattern language. -/
def LikeAnswersRight (regex : RegexCrate) (c : Conversions) (text pattern : Text) : Prop :=
  (likeOp regex c (.string text) (.string pattern) false = .ok (.boolean true) ↔ Like pattern text) ∧
    (matchLikePattern text pattern = true ↔ Like pattern text)

section
variable {regex : RegexCrate} {c : Conversions} {pattern t : Text}

theorem likeOp_iff (hr : regex.Documented) : likeOp regex c (.string t) (.string pattern) false = .ok (.boolean true) ↔
      regex.Compiles (likePatternToRegex pattern) ∧ Spells (· ≠ '\n') (likePieces pattern) t := by
  unfold likeOp
  rw [if_neg (by simp)]
  simp only
  cases hnew : regex.new (likePatternToRegex pattern) with
  | error e =>
    constructor
    · rintro ⟨⟩
    · rintro ⟨⟨isMatch,hm⟩,-⟩
      rw [hnew] at hm
      cases hm
  | ok isMatch =>
    have hs := hr (likePieces pattern) isMatch (by rw [← likePatternBody_eq]; exact hnew) t
    rw [← hs]
    constructor
    · intro h
      exact ⟨⟨isMatch,hnew⟩,by simpa using h⟩
    · rintro ⟨-,h⟩
      simp [h]

theorem not_right_of_wildcard (hr : regex.Documented) (h : .any ∈ likePieces pattern ∨ .anyRun ∈ likePieces pattern) :
    ¬ LikeAnswersRight regex c ((likePieces pattern).map (Piece.fill '\n')) pattern := by
  intro hrt
  have hl : Like pattern ((likePieces pattern).map (Piece.fill '\n')) := spells_fill trivial _
  obtain ⟨-,hs⟩ := (likeOp_iff hr).mp (hrt.1.mpr hl)
  have hc : ((likePieces pattern).map (Piece.fill '\n')).count '\n' = (likePieces pattern).count (.only '\n') :=
    hs.count_eq (not_not_intro rfl)
  have hlt := count_lt_count_fill (a := '\n') h
  omega

theorem not_right_of_slash (h : '\\' ∈ pattern) :
    ¬ LikeAnswersRight regex c ((likePieces pattern).map (Piece.fill 'x')) pattern := by
  intro hrt
  have hl : Like pattern ((likePieces pattern).map (Piece.fill 'x')) := spells_fill trivial _
  have hp := (matchLikeRecursive_iff _ _).mp (hrt.2.mpr hl)
  have hs : Spells (· ≠ '\\') (likePieces pattern) ((likePieces pattern).map (Piece.fill 'x')) :=
    spells_fill (by decide) _
  have hle := hp.count_le '\\'
  rw [hs.count_eq (by simp)] at hle
  have hlt := count_slash_lt h
  omega

theorem only_mem_likePieces {d : Char} (h : .only d ∈ likePieces pattern) : d ∈ pattern := by
  fun_induction likePieces pattern with
  | case1 | case2 => cases h
  | case3 e rest ih =>
    apply mem_cons_of_mem
    rcases mem_cons.mp h with heq | h
    · cases heq
      exact mem_cons_self
    · exact mem_cons_of_mem _ (ih h)
  | case4 rest ih | case5 rest ih => exact mem_cons_of_mem _ (ih ((mem_cons.mp h).resolve_left (by simp)))
  | case6 e rest _ _ _ _ ih =>
    rcases mem_cons.mp h with heq | h
    · cases heq
      exact mem_cons_self
    · exact mem_cons_of_mem _ (ih h)

theorem right_of_newline (hr : regex.Documented) (ht : '\n' ∉ t) (hp : '\n' ∈ pattern) :
    LikeAnswersRight regex c t pattern := by
  obtain ⟨hl,hpl⟩ := only_newline_mem hp
  have hno : ¬ Like pattern t := fun h => ht (h.mem hl)
  constructor
  · rw [likeOp_iff hr]
    constructor
    · rintro ⟨-,h⟩
      exact absurd (h.mem hl) ht
    · intro h
      exact absurd h hno
  · constructor
    · intro h
      exact absurd (((matchLikeRecursive_iff t pattern).mp h).mem hpl) ht
    · intro h
      exact absurd h hno

theorem right_of_plain (hr : regex.Documented) (hs : '\\' ∉ pattern) (hc : regex.Compiles (likePatternToRegex pattern))
    (htk : Like pattern t → Spells (· ≠ '\n') (likePieces pattern) t) : LikeAnswersRight regex c t pattern := by
  constructor
  · rw [likeOp_iff hr]
    constructor
    · rintro ⟨-,h⟩
      exact h.mono fun _ _ => trivial
    · intro h
      exact ⟨hc,htk h⟩
  · rw [matchLikePattern,matchLikeRecursive_iff,plainPieces_eq hs]
    rfl

end

/-- On the texts without a newline both answer right for the patterns without a backslash whose
expression compiles, and for those that ask for a newline; on all texts only for the former, and
only if they have no wildcard. -/
theorem like_follows_sql_iff (regex : RegexCrate) (hregex : regex.Documented) (c : Conversions) (pattern : Text) :
    ((∀ t, '\n' ∉ t → LikeAnswersRight regex c t pattern) ↔
        '\n' ∈ pattern ∨ '\\' ∉ pattern ∧ regex.Compiles (likePatternToRegex pattern)) ∧
      ((∀ t, LikeAnswersRight regex c t pattern) ↔
        '\\' ∉ pattern ∧ '%' ∉ pattern ∧ '_' ∉ pattern ∧ regex.Compiles (likePatternToRegex pattern)) := by
  have hcompiles : ∀ t, Like pattern t → LikeAnswersRight regex c t pattern →
      regex.Compiles (likePatternToRegex pattern) := by
    intro t hlike hright
    exact ((likeOp_iff hregex).mp (hright.1.mpr hlike)).1
  have hfilled : Like pattern ((likePieces pattern).map (Piece.fill 'x')) := spells_fill trivial _
  constructor
  · constructor
    · intro hright
      by_cases hnewline : '\n' ∈ pattern
      · exact .inl hnewline
      have htext : '\n' ∉ (likePieces pattern).map (Piece.fill 'x') := by
        intro h
        rcases mem_fill h with heq | h
        · cases heq
        · exact hnewline (only_mem_likePieces h)
      have hx := hright _ htext
      exact .inr ⟨fun hslash => not_right_of_slash hslash hx,hcompiles _ hfilled hx⟩
    · rintro (hnewline | ⟨hslash,hc⟩) t ht
      · exact right_of_newline hregex ht hnewline
      · refine right_of_plain hregex hslash hc fun hlike => hlike.of_forall ?_
        rintro d hd rfl
        exact ht hd
  · constructor
    · intro hright
      have hslash : '\\' ∉ pattern := fun h => not_right_of_slash h (hright _)
      refine ⟨hslash,fun h => ?_,fun h => ?_,hcompiles _ hfilled (hright _)⟩
      · refine not_right_of_wildcard hregex (.inr ?_) (hright _)
        rwa [← plainPieces_eq hslash,anyRun_mem_plainPieces]
      · refine not_right_of_wildcard hregex (.inl ?_) (hright _)
        rwa [← plainPieces_eq hslash,any_mem_plainPieces]
    · rintro ⟨hslash,hpercent,hunderscore,hc⟩ t
      refine right_of_plain hregex hslash hc fun hlike => hlike.of_only ?_
      rw [← plainPieces_eq hslash,any_mem_plainPieces,anyRun_mem_plainPieces]
      exact ⟨hunderscore,hpercent⟩

/-! A crate for the expressions that the translation writes. -/

def parsePieces : Text → List (Piece Char)
  | [] => []
  | ['$'] => []
  | '.' :: '*' :: rest => .anyRun :: parsePieces rest
  | '.' :: rest => .any :: parsePieces rest
  | '\\' :: c::rest => .only c :: parsePieces rest
  | c::rest => .only c :: parsePieces rest

def RegexCrate.anchored : RegexCrate where
  new expression := .ok (spelled (· != '\n') (parsePieces expression.tail))

theorem head_write_ne_star (pieces : List (Piece Char)) (rest : Text) : pieces.flatMap regexOfPiece ++ ['$'] ≠ '*' :: rest := by
  cases pieces with
  | nil => simp
  | cons p pieces =>
    rw [flatMap_cons,append_assoc]
    cases p with
    | anyRun | any => simp [regexOfPiece]
    | only c =>
      rw [regexOfPiece]
      split
      · simp
      next hc =>
      intro h
      have hs : c = '*' := (List.cons.inj h).1
      exact hc (by rw [hs]; decide)

theorem parsePieces_write (pieces : List (Piece Char)) : parsePieces (pieces.flatMap regexOfPiece ++ ['$']) = pieces := by
  induction pieces with
  | nil => rfl
  | cons p pieces ih =>
    rw [flatMap_cons,append_assoc]
    cases p with
    | anyRun => exact congrArg (Piece.anyRun :: ·) ih
    | any =>
      rw [regexOfPiece,singleton_append,parsePieces,ih]
      exact head_write_ne_star pieces
    | only c =>
      rw [regexOfPiece]
      split
      · rw [cons_append,singleton_append,parsePieces,ih]
      next hc =>
      have hne : c ≠ '$' ∧ c ≠ '.' ∧ c ≠ '\\' := by
        refine ⟨?_,?_,?_⟩ <;> (rintro rfl; exact hc (by decide))
      rw [singleton_append,parsePieces,ih]
      · exact fun h _ => hne.1 h
      · exact fun _ h _ => hne.2.1 h
      · exact hne.2.1
      · exact fun _ _ h _ => hne.2.2 h

theorem RegexCrate.anchored_documented : RegexCrate.anchored.Documented := by
  rintro pieces isMatch hnew t
  cases hnew
  rw [append_assoc,singleton_append,tail_cons,parsePieces_write,spelled_iff]
  simp only [bne_iff_ne]

theorem like_follows_sql_iff_plain_pattern : LikeAnswersRight RegexCrate.anchored bareConversions (text "abcd") (text "a%c_") :=
  (like_follows_sql_iff RegexCrate.anchored RegexCrate.anchored_documented bareConversions (text "a%c_")).1.mpr
    (.inr ⟨by decide,_,rfl⟩) (text "abcd") (by decide)

/-- The expression takes no newline for a wildcard, and the matcher no quoted percent sign. -/
theorem like_misses_newline_and_quotation : ¬ LikeAnswersRight RegexCrate.anchored bareConversions (text "\n") (text "_") ∧
      ¬ LikeAnswersRight RegexCrate.anchored bareConversions (text "%") (text "\\%") := by
  constructor
  · intro h
    have hlike : Like (text "_") (text "\n") := .any trivial .nil
    have hno : likeOp RegexCrate.anchored bareConversions (.string (text "\n")) (.string (text "_")) false ≠
        .ok (.boolean true) := by decide
    exact hno (h.1.mpr hlike)
  · intro h
    have hlike : Like (text "\\%") (text "%") := .only '%' .nil
    have hno : matchLikePattern (text "%") (text "\\%") = false := by decide
    rw [h.2.mpr hlike] at hno
    cases hno

end HeliosNano.Sql
