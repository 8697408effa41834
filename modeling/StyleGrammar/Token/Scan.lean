import StyleGrammar.Location
import StyleGrammar.Text.Escape
import StyleGrammar.Token.Basic

/-!
# Scanning

`Scan.lexeme` reads the lexeme at the head of a text: a token, a run of blanks, or a comment.
Each scanner returns what it read and the rest, and the rest is never longer than what it was given;
a lexeme takes at least the character it begins with.  The end of the text closes strings,
addresses and comments.
-/

namespace StyleGrammar

/-- What a text is made of. -/
inductive Lexeme
  | token (t : Token)
  | blanks
  | comment
  deriving DecidableEq, Repr, Inhabited

namespace Scan

def isHexDigit (c : Char) : Bool :=
  c.isDigit || ('a' ≤ c && c ≤ 'f') || ('A' ≤ c && c ≤ 'F')

def hexValue (c : Char) : Nat :=
  if c.isDigit then c.toNat - 48 else if 'a' ≤ c then c.toNat - 87 else c.toNat - 55

/-- The character with a code point, unless it is zero, a surrogate or out of range. -/
def charOf (n : Nat) : Char := if n = 0 || !n.isValidChar then Escape.replacement else Char.ofNat n

def startsWithNewline : List Char → Bool
  | c :: _ => Newline c
  | [] => false

/-- Drops one newline, or one blank. -/
def dropBlank : List Char → List Char
  | '\r' :: '\n' :: r => r
  | c :: r => if Blank c then r else c :: r
  | [] => []

theorem dropBlank_length_le (s : List Char) : (dropBlank s).length ≤ s.length := by
  unfold dropBlank
  split
  · simp; omega
  · split <;> simp
  · simp

/-- The character of an escape, read after its backslash: up to six hexadecimal digits and a blank,
or any other character. -/
def escape : List Char → Char × List Char
  | [] => (Escape.replacement, [])
  | c :: r =>
    if isHexDigit c then
      let ds := ((c :: r).take 6).takeWhile isHexDigit
      (charOf (ds.foldl (fun n d => 16 * n + hexValue d) 0), dropBlank ((c :: r).drop ds.length))
    else if c.val = 0 then (Escape.replacement, r)
    else (c, r)

theorem escape_length_le (s : List Char) : (escape s).2.length ≤ s.length := by
  unfold escape
  split
  · simp
  · split
    · refine Nat.le_trans (dropBlank_length_le _) ?_
      simp
    · split <;> simp

def isNameChar (c : Char) : Bool := Escape.isPlain c

/-- The longest name at the head of a text, possibly empty, with its escapes resolved. -/
def name : List Char → List Char × List Char
  | [] => ([], [])
  | c :: r =>
    if c = '\\' then
      if startsWithNewline r then ([], c :: r)
      else
        let n := name (escape r).2
        ((escape r).1 :: n.1, n.2)
    else if c.val = 0 then
      let n := name r
      (Escape.replacement :: n.1, n.2)
    else if isNameChar c then
      let n := name r
      (c :: n.1, n.2)
    else ([], c :: r)
termination_by s => s.length
decreasing_by
  all_goals
    have := escape_length_le r
    have := dropBlank_length_le r
    simp
    try omega

theorem name_length_le (s : List Char) : (name s).2.length ≤ s.length := by
  fun_induction name s with
  | case1 => simp
  | case2 => simp
  | case3 r _ n ih => have := escape_length_le r; simp [n] at *; omega
  | case4 c r _ _ n ih => simp [n] at *; omega
  | case5 c r _ _ _ n ih => simp [n] at *; omega
  | case6 => simp

/-- Whether a name that is no number starts here.  A backslash begins an escape unless a newline
follows; after a hyphen it always counts. -/
def startsName : List Char → Bool
  | '-' :: c :: _ => c.isAlpha || c = '-' || c = '_' || c.val = 0 || 0x80 ≤ c.val || c = '\\'
  | '\\' :: r => !startsWithNewline r
  | c :: _ => c.isAlpha || c = '_' || c.val = 0 || 0x80 ≤ c.val
  | [] => false

theorem name_cons_length_le {c : Char} {r : List Char} (h : startsName (c :: r) = true) :
    (name (c :: r)).2.length ≤ r.length := by
  rw [name]
  split
  · rename_i hc
    subst hc
    split
    · simp_all [startsName]
    · exact Nat.le_trans (name_length_le _) (escape_length_le r)
  · split
    · exact name_length_le r
    · split
      · exact name_length_le r
      · rename_i hb h0 hn
        have hd : c ≠ '-' := by
          rintro rfl
          simp [isNameChar, Escape.isPlain] at hn
        simp [isNameChar, Escape.isPlain, Char.isAlphanum] at hn
        have : startsName (c :: r) = (c.isAlpha || c = '_' || c.val = 0 || 0x80 ≤ c.val) := by
          unfold startsName
          split <;> simp_all
        simp_all
        exact absurd (UInt32.lt_of_lt_of_le hn.2 h) (UInt32.lt_irrefl _)

/-- A string after its opening quote, up to the same quote.  A newline ends it as a bad string and
is left in place; an escaped newline is skipped. -/
def string (quote : Char) : List Char → (List Char × Bool) × List Char
  | [] => (([], false), [])
  | c :: r =>
    if c = quote then (([], false), r)
    else if Newline c then (([], true), c :: r)
    else if c = '\\' then
      if r.isEmpty then (([], false), [])
      else if startsWithNewline r then string quote (dropBlank r)
      else
        let s := string quote (escape r).2
        (((escape r).1 :: s.1.1, s.1.2), s.2)
    else
      let s := string quote r
      (((if c.val = 0 then Escape.replacement else c) :: s.1.1, s.1.2), s.2)
termination_by s => s.length
decreasing_by
  all_goals
    have := escape_length_le r
    have := dropBlank_length_le r
    simp
    try omega

theorem string_length_le (quote : Char) (s : List Char) :
    (string quote s).2.length ≤ s.length := by
  fun_induction string quote s with
  | case1 => simp
  | case2 => simp
  | case3 => simp
  | case4 => simp
  | case5 r _ _ _ _ ih => have := dropBlank_length_le r; simp at *; omega
  | case6 r _ _ s _ _ ih => have := escape_length_le r; simp [s] at *; omega
  | case7 c r _ _ _ s ih => simp [s] at *; omega

/-- The characters after `/*`, through `*/`. -/
def afterComment : List Char → List Char
  | '*' :: '/' :: r => r
  | _ :: r => afterComment r
  | [] => []

theorem afterComment_length_le (s : List Char) : (afterComment s).length ≤ s.length := by
  fun_induction afterComment s <;> simp_all <;> omega

/-- What an address without quotes may not hold. -/
def breaksAddress (c : Char) : Bool :=
  c = '"' || c = '\'' || c = '(' || (0 < c.val && c.val < 0x20) || c.val = 0x7f

/-- Drops what remains of a bad address, up to its closing parenthesis, which is left in place. -/
def dropBadAddress : List Char → List Char
  | [] => []
  | ')' :: r => ')' :: r
  | '\\' :: ')' :: r => dropBadAddress r
  | '\\' :: '\\' :: r => dropBadAddress r
  | _ :: r => dropBadAddress r

theorem dropBadAddress_length_le (s : List Char) : (dropBadAddress s).length ≤ s.length := by
  fun_induction dropBadAddress s <;> simp_all <;> omega

/-- An address without quotes, up to its closing parenthesis.  It is given up behind the first
character that may not stand in it, with the text left to be skipped. -/
def address : List Char → (List Char × Bool) × List Char
  | [] => (([], false), [])
  | c :: r =>
    if c = ')' then (([], false), r)
    else if Blank c then
      match r.dropWhile Blank with
      | [] => (([], false), [])
      | d :: r' => (([], d != ')'), r')
    else if breaksAddress c then (([], true), r)
    else if c = '\\' then
      if startsWithNewline r then (([], true), r)
      else
        let a := address (escape r).2
        (((escape r).1 :: a.1.1, a.1.2), a.2)
    else
      let a := address r
      (((if c.val = 0 then Escape.replacement else c) :: a.1.1, a.1.2), a.2)
termination_by s => s.length
decreasing_by
  all_goals
    have := escape_length_le r
    have := dropBlank_length_le r
    simp
    try omega

theorem dropWhile_length_le (p : Char → Bool) (s : List Char) :
    (s.dropWhile p).length ≤ s.length :=
  (List.dropWhile_sublist p).length_le

theorem address_length_le (s : List Char) : (address s).2.length ≤ s.length := by
  fun_induction address s with
  | case1 => simp
  | case2 => simp
  | case3 => simp
  | case4 c r _ _ d r' h =>
    have := dropWhile_length_le Blank r
    simp [h] at this ⊢; omega
  | case5 => simp
  | case6 => simp
  | case7 r _ a _ _ _ ih => have := escape_length_le r; simp [a] at *; omega
  | case8 c r _ _ _ _ a ih => simp [a] at *; omega

/-- What follows `url(`: nothing that is consumed if a quoted string comes next, else an address,
or a bad one with the text that it spans. -/
def addressToken (s : List Char) : Option (Token × List Char) :=
  match s.dropWhile Blank with
  | [] => some (.unquotedUrl "", [])
  | c :: r =>
    if c = '"' || c = '\'' then none
    else
      match address (c :: r) with
      | ((a, false), rest) => some (.unquotedUrl (String.ofList a), rest)
      | ((_, true), rest) =>
        let rest := dropBadAddress rest
        let spanned := (c :: r).take ((c :: r).length - rest.length)
        some (.badUrl (String.ofList spanned), rest.drop 1)

theorem addressToken_length_le {s rest : List Char} {t : Token}
    (h : addressToken s = some (t, rest)) : rest.length ≤ s.length := by
  unfold addressToken at h
  have hs := dropWhile_length_le Blank s
  split at h
  · obtain ⟨_, rfl⟩ : _ ∧ [] = rest := by simpa using h
    simp
  · rename_i c r heq
    rw [heq] at hs
    split at h
    · simp at h
    · have ha := address_length_le (c :: r)
      split at h
      · rename_i hm
        rw [hm] at ha
        simp at h ha
        rw [← h.2]; simp at hs; omega
      · rename_i rest' hm
        rw [hm] at ha
        have hd := dropBadAddress_length_le rest'
        simp at h ha
        rw [← h.2]; simp at hs ⊢; omega

/-- An identifier or a function, or an address. -/
def identLike (s : List Char) : Token × List Char :=
  let n := name s
  let text := String.ofList n.1
  match n.2 with
  | '(' :: r =>
    if n.1.map Char.toLower = ['u', 'r', 'l'] then (addressToken r).getD (.function text, r)
    else (.function text, r)
  | rest => (.ident text, rest)

def digitValue (c : Char) : Nat := c.toNat - 48

/-- Digits are added up in double precision. -/
def integral (ds : List Char) : Binary :=
  ds.foldl (fun v d => (Binary.mul .double v (Binary.Format.double.ofNat 10)).add .double
    (Binary.Format.double.ofNat (digitValue d))) (Binary.Format.double.zero false)

/-- Each digit of the fraction adds its tenth of the weight before it. -/
def fractional (ds : List Char) : Binary :=
  let tenth := Binary.Format.double.round false 1 10
  (ds.foldl (fun (v, weight) d =>
    (v.add .double ((Binary.Format.double.ofNat (digitValue d)).mul .double weight),
      weight.mul .double tenth)) (Binary.Format.double.zero false, tenth)).1

/-- A natural written in digits. -/
def natural (ds : List Char) : Nat := ds.foldl (fun n d => 10 * n + digitValue d) 0

/-- Integers end at the bounds of 32 bits. -/
def clamp (n : Int) : Int := max (-2147483648) (min 2147483647 n)

/-- A sign, if there is one, and whether it is a minus. -/
def sign : List Char → (Bool × Bool) × List Char
  | '-' :: r => ((true, true), r)
  | '+' :: r => ((true, false), r)
  | r => ((false, false), r)

theorem sign_length_le (s : List Char) : (sign s).2.length ≤ s.length := by
  unfold sign; split <;> simp

/-- Digits after a point. -/
def fractionDigits : List Char → Option (List Char) × List Char
  | '.' :: c :: r =>
    if c.isDigit then (some ((c :: r).takeWhile Char.isDigit), (c :: r).dropWhile Char.isDigit)
    else (none, '.' :: c :: r)
  | r => (none, r)

theorem fractionDigits_length_le (s : List Char) : (fractionDigits s).2.length ≤ s.length := by
  unfold fractionDigits
  split
  · rename_i c r
    split
    · have := dropWhile_length_le Char.isDigit (c :: r)
      simp at this ⊢; omega
    · simp
  · simp

/-- An exponent: a letter, a sign and digits. -/
def exponent (s : List Char) : Option Int × List Char :=
  match s with
  | c :: r =>
    if c = 'e' || c = 'E' then
      let g := sign r
      match g.2 with
      | d :: _ =>
        if d.isDigit then
          let n := natural (g.2.takeWhile Char.isDigit)
          (some (if g.1.2 then -(n : Int) else n), g.2.dropWhile Char.isDigit)
        else (none, s)
      | [] => (none, s)
    else (none, s)
  | [] => (none, s)

theorem exponent_length_le (s : List Char) : (exponent s).2.length ≤ s.length := by
  unfold exponent
  split
  · rename_i c r
    split
    · have hg := sign_length_le r
      simp only
      split
      · split
        · have := dropWhile_length_le Char.isDigit (sign r).2
          simp; omega
        · simp
      · simp
    · simp
  · simp

/-- A number, a percentage or a dimension.  It is computed in double precision; a percentage is
divided by a hundred before it is rounded to single precision. -/
def numeric (s : List Char) : Token × List Char :=
  let g := sign s
  let whole := g.2.takeWhile Char.isDigit
  let f := fractionDigits (g.2.dropWhile Char.isDigit)
  let e := exponent f.2
  let sum := (integral whole).add .double (fractional (f.1.getD []))
  let signedSum := if g.1.2 then sum.neg else sum
  let value := match e.1 with
    | some n => signedSum.mul .double (Binary.Format.double.powerOfTen n)
    | none => signedSum
  let n : Int := natural whole
  let int? := if f.1.isSome || e.1.isSome then none else some (clamp (if g.1.2 then -n else n))
  match e.2 with
  | '%' :: r =>
    (.percentage g.1.1 ((value.div .double (Binary.Format.double.ofNat 100)).toFormat .single)
      int?, r)
  | rest =>
    let value := value.toFormat .single
    if startsName rest then
      let u := name rest
      (.dimension g.1.1 value int? (String.ofList u.1), u.2)
    else (.number g.1.1 value int?, rest)

theorem numeric_length_le (s : List Char) :
    (numeric s).2.length ≤
      (fractionDigits ((sign s).2.dropWhile Char.isDigit)).2.length := by
  have he := exponent_length_le (fractionDigits ((sign s).2.dropWhile Char.isDigit)).2
  unfold numeric
  simp only
  split
  · rename_i r h
    rw [h] at he
    simp at he ⊢; omega
  · split
    · exact Nat.le_trans (name_length_le _) he
    · exact he

/-- Whether a digit follows. -/
def startsDigit : List Char → Bool
  | c :: _ => c.isDigit
  | [] => false

/-- Whether digits follow, possibly after a point. -/
def startsDigits : List Char → Bool
  | '.' :: r => startsDigit r
  | r => startsDigit r

theorem numeric_cons_length_le {c : Char} {r : List Char}
    (h : (c = '+' ∨ c = '-') ∨ (c.isDigit || (c = '.' && startsDigit r)) = true) :
    (numeric (c :: r)).2.length ≤ r.length := by
  refine Nat.le_trans (numeric_length_le _) ?_
  by_cases hs : c = '+' ∨ c = '-'
  · refine Nat.le_trans (fractionDigits_length_le _) (Nat.le_trans (dropWhile_length_le _ _) ?_)
    rcases hs with rfl | rfl <;> simp [sign]
  · have hsign : sign (c :: r) = ((false, false), c :: r) := by
      unfold sign
      split <;> simp_all
    rw [hsign]
    have hd := h.resolve_left hs
    by_cases hc : c.isDigit
    · refine Nat.le_trans (fractionDigits_length_le _) ?_
      simpa [List.dropWhile_cons, hc] using dropWhile_length_le Char.isDigit r
    · obtain ⟨rfl, hr⟩ : c = '.' ∧ startsDigit r = true := by simpa [hc] using hd
      cases r with
      | nil => simp [startsDigit] at hr
      | cons d r =>
        have hd : d.isDigit = true := hr
        have := dropWhile_length_le Char.isDigit r
        simp [fractionDigits, hd]
        omega

/-- A character that makes a token of its own unless an equals sign follows. -/
def pair (c : Char) (matching : Token) : List Char → Token × List Char
  | '=' :: r => (matching, r)
  | r => (.delim c, r)

theorem pair_length_le (c : Char) (t : Token) (s : List Char) :
    (pair c t s).2.length ≤ s.length := by
  unfold pair; split <;> simp

/-- What follows a number sign. -/
def afterHash (s : List Char) : Token × List Char :=
  if startsName s then (.idHash (String.ofList (name s).1), (name s).2)
  else
    match s with
    | c :: _ =>
      if c.isDigit || c = '-' then (.hash (String.ofList (name s).1), (name s).2)
      else (.delim '#', s)
    | [] => (.delim '#', s)

theorem afterHash_length_le (s : List Char) : (afterHash s).2.length ≤ s.length := by
  have := name_length_le s
  unfold afterHash
  split
  · exact this
  · split
    · split <;> simp_all
    · simp

/-- A character that is a token by itself. -/
def single? : Char → Option Token
  | '(' => some .openParenthesis
  | ')' => some .closeParenthesis
  | '[' => some .openSquare
  | ']' => some .closeSquare
  | '\x7b' => some .openCurly
  | '\x7d' => some .closeCurly
  | ',' => some .comma
  | ':' => some .colon
  | ';' => some .semicolon
  | _ => none

/-- A character that makes a token with an equals sign. -/
def pair? : Char → Option Token
  | '$' => some .suffixMatch
  | '*' => some .substringMatch
  | '^' => some .prefixMatch
  | '|' => some .dashMatch
  | '~' => some .includeMatch
  | _ => none

/-- The token at the head of a text that begins with neither a blank nor a comment. -/
def token (c : Char) (r : List Char) : Token × List Char :=
  match single? c with
  | some t => (t, r)
  | none =>
    match pair? c with
    | some t => pair c t r
    | none =>
      if c = '"' || c = '\'' then
        match string c r with
        | ((s, false), rest) => (.quotedString (String.ofList s), rest)
        | ((s, true), rest) => (.badString (String.ofList s), rest)
      else if c = '#' then afterHash r
      else if c = '+' || c = '-' then
        if startsDigits r then numeric (c :: r)
        else if c = '-' && r.take 2 = ['-', '>'] then (.commentClose, r.drop 2)
        else if startsName (c :: r) then identLike (c :: r)
        else (.delim c, r)
      else if c.isDigit || (c = '.' && startsDigit r) then numeric (c :: r)
      else if c = '<' && r.take 3 = ['!', '-', '-'] then (.commentOpen, r.drop 3)
      else if c = '@' then
        if startsName r then (.atKeyword (String.ofList (name r).1), (name r).2)
        else (.delim c, r)
      else if startsName (c :: r) then identLike (c :: r)
      else (.delim c, r)

/-- The lexeme at the head of a nonempty text. -/
def lexeme (c : Char) (r : List Char) : Lexeme × List Char :=
  if Blank c then (.blanks, r.dropWhile Blank)
  else if c = '/' && r.head? = some '*' then (.comment, afterComment (r.drop 1))
  else
    let t := token c r
    (.token t.1, t.2)

theorem identLike_cons_length_le {c : Char} {r : List Char} (h : startsName (c :: r) = true) :
    (identLike (c :: r)).2.length ≤ r.length := by
  have hn := name_cons_length_le h
  unfold identLike
  simp only
  split
  · rename_i r' hr
    rw [hr] at hn
    simp at hn
    split
    · cases ha : addressToken r' with
      | none => simp; omega
      | some p =>
        have := addressToken_length_le ha
        simp; omega
    · simp; omega
  · exact hn

theorem string_case_length_le {quote : Char} {s rest : List Char} {read : List Char × Bool}
    (h : string quote s = (read, rest)) : rest.length ≤ s.length := by
  have := string_length_le quote s
  rwa [h] at this

theorem token_length_le (c : Char) (r : List Char) : (token c r).2.length ≤ r.length := by
  unfold token
  repeat' split
  all_goals try simp only [List.length_drop]
  all_goals first
    | exact Nat.le_refl _
    | exact Nat.sub_le _ _
    | exact pair_length_le _ _ _
    | exact afterHash_length_le _
    | exact name_length_le _
    | exact identLike_cons_length_le ‹_›
    | exact numeric_cons_length_le (Or.inr ‹_›)
    | exact numeric_cons_length_le (Or.inl (by simp_all))
    | exact string_case_length_le ‹_›

theorem lexeme_length_le (c : Char) (r : List Char) : (lexeme c r).2.length ≤ r.length := by
  unfold lexeme
  split
  · exact dropWhile_length_le Blank r
  · split
    · have := afterComment_length_le (r.drop 1)
      simp at this ⊢; omega
    · exact token_length_le c r

end Scan

end StyleGrammar
