import Mathlib.Tactic.FinCases
import StyleGrammar.Token.Component

/-!
# Words

Names, numbers, dimensions and hashes are written in *words*: characters that
neither separate nor enclose anything, and escapes.  The characters behind a
word decide nothing about its lexemes, as long as the first of them is one of
`wordStops`.

Every scanner of names and numbers is shown to act on a word as if nothing stood
behind it, and to leave a word.  An induction on the length of the word then
gives the lexemes of the whole (`lexes_word`).
-/

namespace StyleGrammar

/-- Whether a token stands by itself: it neither opens nor ends a block, and is no comma. -/
def Token.isInert : Token → Bool
  | function _ | openParenthesis | openSquare | openCurly | closeParenthesis | closeSquare
  | closeCurly | comma => false
  | _ => true

namespace Scan

/-- The lexemes of a text. -/
def lexes : List Char → List Lexeme
  | [] => []
  | c :: r => (lexeme c r).1 :: lexes (lexeme c r).2
termination_by s => s.length
decreasing_by
  have := lexeme_length_le c r
  simp; omega

@[simp] theorem lexes_nil : lexes [] = [] := by
  rw [lexes]

theorem lexes_cons {c : Char} {r rest : List Char} {l : Lexeme} (h : lexeme c r = (l, rest)) :
    lexes (c :: r) = l :: lexes rest := by
  rw [lexes, h]

/-- Nothing follows, or one of the given characters. -/
def Apart (stops : List Char) (s : List Char) : Prop := ∀ c ∈ s.head?, c ∈ stops

/-- The characters at which a word ends. -/
def wordStops : List Char := [' ', ',', '/', ')', ']', '*']

@[simp] theorem apart_nil (stops : List Char) : Apart stops [] := by
  simp [Apart]

@[simp] theorem apart_cons {stops : List Char} {c : Char} {s : List Char} :
    Apart stops (c :: s) ↔ c ∈ stops := by
  simp [Apart]

theorem Apart.append {stops s t : List Char} (hs : Apart stops s) (ht : Apart stops t) :
    Apart stops (s ++ t) := by
  cases s with
  | nil => exact ht
  | cons c s => exact hs

theorem Apart.mono {stops stops' s : List Char} (h : Apart stops s) (hsub : stops ⊆ stops') :
    Apart stops' s :=
  fun c hc => hsub (h c hc)

/-- A character that a word holds as it is. -/
def isWordChar (c : Char) : Bool :=
  Escape.isPlain c || c = '.' || c = '+' || c = '%' || c = '#'

/-- A character that an escape may hold as it is. -/
def isEscapable (c : Char) : Bool := !isHexDigit c && !Newline c && c.val != 0

inductive Word : List Char → Prop
  | nil : Word []
  | char {c : Char} {s : List Char} (hc : isWordChar c = true) (hs : Word s) : Word (c :: s)
  | escaped {c : Char} {s : List Char} (hc : isEscapable c = true) (hs : Word s) :
      Word ('\\' :: c :: s)
  | numbered {ds s : List Char} (hds : ds.all isHexDigit = true) (hne : ds ≠ [])
      (hlength : ds.length ≤ 6) (hs : Word s) : Word ('\\' :: (ds ++ ' ' :: s))

theorem word_of_all {s : List Char} (h : s.all isWordChar = true) : Word s := by
  induction s with
  | nil => exact .nil
  | cons c s ih =>
    rw [List.all_cons, Bool.and_eq_true] at h
    exact .char h.1 (ih h.2)

theorem Word.append {s t : List Char} (hs : Word s) (ht : Word t) : Word (s ++ t) := by
  induction hs with
  | nil => exact ht
  | char hc _ ih => exact .char hc ih
  | escaped hc _ ih => exact .escaped hc ih
  | numbered hds hne hlength _ ih => simpa using Word.numbered hds hne hlength ih

theorem Word.flatMap {α : Type} {f : α → List Char} {as : List α} (h : ∀ a ∈ as, Word (f a)) :
    Word (as.flatMap f) := by
  induction as with
  | nil => exact .nil
  | cons a as ih =>
    rw [List.flatMap_cons]
    exact (h a List.mem_cons_self).append (ih fun b hb => h b (List.mem_cons_of_mem a hb))

/-! Escapes. -/

theorem escape_of_isEscapable {c : Char} (h : isEscapable c = true) (s : List Char) :
    escape (c :: s) = (c, s) := by
  simp only [isEscapable, Bool.and_eq_true, Bool.not_eq_true', bne_iff_ne, ne_eq] at h
  simp [escape, h.1.1, h.2]

theorem not_startsWithNewline_of_isEscapable {c : Char} (h : isEscapable c = true)
    (s : List Char) : startsWithNewline (c :: s) = false := by
  simp only [isEscapable, Bool.and_eq_true, Bool.not_eq_true'] at h
  exact h.1.2

theorem newline_eq_false_of_isHexDigit {c : Char} (h : isHexDigit c = true) :
    Newline c = false := by
  have hn : c ≠ '\n' := by rintro rfl; revert h; decide
  have hf : c ≠ '\x0c' := by rintro rfl; revert h; decide
  have hr : c ≠ '\r' := by rintro rfl; revert h; decide
  simp [Newline, hn, hf, hr]

/-- The character that hexadecimal digits stand for. -/
def numberedChar (ds : List Char) : Char := charOf (ds.foldl (fun n d => 16 * n + hexValue d) 0)

theorem takeWhile_take_hex {ds s : List Char} (hds : ds.all isHexDigit = true)
    (hlength : ds.length ≤ 6) : ((ds ++ ' ' :: s).take 6).takeWhile isHexDigit = ds := by
  have hblank : isHexDigit ' ' = false := by decide
  rw [List.take_append, List.take_of_length_le hlength, List.takeWhile_append_of_pos]
  · cases h : 6 - ds.length with
    | zero => simp
    | succ n => simp [hblank]
  · simpa using hds

theorem escape_of_numbered {ds : List Char} (hds : ds.all isHexDigit = true) (hne : ds ≠ [])
    (hlength : ds.length ≤ 6) (s : List Char) :
    escape (ds ++ ' ' :: s) = (numberedChar ds, s) := by
  have htake := takeWhile_take_hex (s := s) hds hlength
  cases ds with
  | nil => exact absurd rfl hne
  | cons d ds =>
    have hd : isHexDigit d = true := by simp at hds; exact hds.1
    rw [List.cons_append] at htake ⊢
    rw [escape, if_pos hd]
    simp only [htake]
    rw [← List.cons_append, List.drop_left]
    simp [dropBlank, numberedChar, Blank]

theorem not_startsWithNewline_of_numbered {ds : List Char} (hds : ds.all isHexDigit = true)
    (hne : ds ≠ []) (s : List Char) : startsWithNewline (ds ++ ' ' :: s) = false := by
  cases ds with
  | nil => exact absurd rfl hne
  | cons d ds =>
    simp at hds
    exact newline_eq_false_of_isHexDigit hds.1

/-! Names. -/

theorem name_of_apart {s : List Char} (h : Apart wordStops s) : name s = ([], s) := by
  cases s with
  | nil => rw [name]
  | cons c s =>
    rw [apart_cons] at h
    have hstops : (wordStops.all fun c => c ≠ '\\' && c.val ≠ 0 && !isNameChar c) = true := by
      decide
    have hc : c ≠ '\\' ∧ c.val ≠ 0 ∧ isNameChar c = false := by
      simpa [and_assoc] using List.all_eq_true.mp hstops c h
    rw [name, if_neg hc.1, if_neg hc.2.1, if_neg (by simp [hc.2.2])]

theorem name_backslash {r : List Char} (h : startsWithNewline r = false) :
    name ('\\' :: r) = ((escape r).1 :: (name (escape r).2).1, (name (escape r).2).2) := by
  rw [name]
  simp [h]

/-- A name at the head of a word ends in it, and leaves a word. -/
theorem name_append {s post : List Char} (hs : Word s) (hpost : Apart wordStops post) :
    Word (name s).2 ∧ name (s ++ post) = ((name s).1, (name s).2 ++ post) := by
  induction hs with
  | nil => simpa [name_of_apart hpost, name_of_apart (apart_nil _)] using Word.nil
  | @char c s hc hs ih =>
    obtain ⟨hword, hname⟩ := ih
    have hb : c ≠ '\\' := by rintro rfl; revert hc; decide
    have h0 : c.val ≠ 0 := by
      intro h0
      have : c = '\x00' := Char.ext h0
      subst this
      revert hc
      decide
    rw [List.cons_append, name, name, if_neg hb, if_neg hb, if_neg h0, if_neg h0]
    split
    · exact ⟨hword, by simp [hname]⟩
    · exact ⟨.char hc hs, rfl⟩
  | @escaped c s hc hs ih =>
    obtain ⟨hword, hname⟩ := ih
    simp only [List.cons_append,
      name_backslash (not_startsWithNewline_of_isEscapable hc _), escape_of_isEscapable hc]
    exact ⟨hword, by simp [hname]⟩
  | @numbered ds s hds hne hlength hs ih =>
    obtain ⟨hword, hname⟩ := ih
    simp only [List.cons_append, List.append_assoc,
      name_backslash (not_startsWithNewline_of_numbered hds hne _),
      escape_of_numbered hds hne hlength]
    exact ⟨hword, by simp [hname]⟩

theorem Word.of_cons {c : Char} {s : List Char} (h : Word (c :: s)) (hc : c ≠ '\\') : Word s := by
  cases h with
  | char _ hs => exact hs
  | escaped => exact absurd rfl hc
  | numbered => exact absurd rfl hc

theorem Word.isWordChar {c : Char} {s : List Char} (h : Word (c :: s)) (hc : c ≠ '\\') :
    Scan.isWordChar c = true := by
  cases h with
  | char hc _ => exact hc
  | escaped => exact absurd rfl hc
  | numbered => exact absurd rfl hc

theorem startsName_of_apart {s : List Char} (h : Apart wordStops s) : startsName s = false := by
  cases s with
  | nil => rfl
  | cons c s =>
    rw [apart_cons] at h
    fin_cases h <;> rfl

theorem startsName_cons {c : Char} (hdash : c ≠ '-') (hb : c ≠ '\\') (s : List Char) :
    startsName (c :: s) = (c.isAlpha || c = '_' || c.val = 0 || 0x80 ≤ c.val) := by
  unfold startsName
  split <;> simp_all

theorem startsName_append {s post : List Char} (hs : Word s) (hpost : Apart wordStops post) :
    startsName (s ++ post) = startsName s := by
  cases hs with
  | nil => exact startsName_of_apart hpost
  | @char c s hc hs =>
    by_cases hdash : c = '-'
    · subst hdash
      cases s with
      | nil =>
        cases post with
        | nil => rfl
        | cons c s =>
          rw [apart_cons] at hpost
          fin_cases hpost <;> rfl
      | cons d s => rfl
    · have hb : c ≠ '\\' := by rintro rfl; revert hc; decide
      rw [List.cons_append, startsName_cons hdash hb, startsName_cons hdash hb]
  | escaped => rfl
  | @numbered ds s hds hne =>
    cases ds with
    | nil => exact absurd rfl hne
    | cons d ds => rfl

/-! Numbers. -/

theorem sign_append {s post : List Char} (hs : Word s) (hpost : Apart wordStops post) :
    Word (sign s).2 ∧ sign (s ++ post) = ((sign s).1, (sign s).2 ++ post) := by
  cases s with
  | nil =>
    refine ⟨.nil, ?_⟩
    cases post with
    | nil => rfl
    | cons c post =>
      rw [apart_cons] at hpost
      fin_cases hpost <;> rfl
  | cons c s =>
    by_cases hm : c = '-'
    · subst hm
      exact ⟨hs.of_cons (by decide), rfl⟩
    by_cases hp : c = '+'
    · subst hp
      exact ⟨hs.of_cons (by decide), rfl⟩
    simpa [sign, hm, hp] using hs

theorem isDigit_eq_false_of_apart {c : Char} {s : List Char} (h : Apart wordStops (c :: s)) :
    c.isDigit = false := by
  rw [apart_cons] at h
  fin_cases h <;> rfl

theorem digits_append {s post : List Char} (hs : Word s) (hpost : Apart wordStops post) :
    Word (s.dropWhile Char.isDigit) ∧
      (s ++ post).takeWhile Char.isDigit = s.takeWhile Char.isDigit ∧
      (s ++ post).dropWhile Char.isDigit = s.dropWhile Char.isDigit ++ post := by
  induction hs with
  | nil =>
    refine ⟨.nil, ?_⟩
    cases post with
    | nil => simp
    | cons c post => simp [isDigit_eq_false_of_apart hpost]
  | @char c s hc hs ih =>
    by_cases hd : c.isDigit
    · simpa [hd] using ih
    · simpa [hd] using Word.char hc hs
  | escaped hc hs => simpa using Word.escaped hc hs
  | numbered hds hne hlength hs => simpa using Word.numbered hds hne hlength hs

theorem startsDigit_append {s post : List Char} (hpost : Apart wordStops post) :
    startsDigit (s ++ post) = startsDigit s := by
  cases s with
  | nil =>
    cases post with
    | nil => rfl
    | cons c post => exact isDigit_eq_false_of_apart hpost
  | cons c s => rfl

theorem startsDigits_append {s post : List Char} (hpost : Apart wordStops post) :
    startsDigits (s ++ post) = startsDigits s := by
  cases s with
  | nil =>
    cases post with
    | nil => rfl
    | cons c post =>
      rw [apart_cons] at hpost
      fin_cases hpost <;> rfl
  | cons c s =>
    by_cases hc : c = '.'
    · subst hc
      exact startsDigit_append hpost
    · simp [startsDigits, hc, startsDigit]

theorem fractionDigits_append {s post : List Char} (hs : Word s) (hpost : Apart wordStops post) :
    Word (fractionDigits s).2 ∧
      fractionDigits (s ++ post) = ((fractionDigits s).1, (fractionDigits s).2 ++ post) := by
  cases s with
  | nil =>
    refine ⟨.nil, ?_⟩
    cases post with
    | nil => rfl
    | cons c post =>
      rw [apart_cons] at hpost
      fin_cases hpost <;> rfl
  | cons c s =>
    by_cases hc : c = '.'
    · subst hc
      have hword := hs.of_cons (by decide)
      cases s with
      | nil =>
        refine ⟨hs, ?_⟩
        cases post with
        | nil => rfl
        | cons d post => simp [fractionDigits, isDigit_eq_false_of_apart hpost]
      | cons d s =>
        obtain ⟨hdrop, htake, happend⟩ := digits_append hword hpost
        rw [List.cons_append] at htake happend
        by_cases hd : d.isDigit
        · simpa [fractionDigits, hd, htake, happend] using hdrop
        · simpa [fractionDigits, hd] using hs
    · simpa [fractionDigits, hc] using hs

theorem exponent_append {s post : List Char} (hs : Word s) (hpost : Apart wordStops post) :
    Word (exponent s).2 ∧ exponent (s ++ post) = ((exponent s).1, (exponent s).2 ++ post) := by
  cases s with
  | nil =>
    refine ⟨.nil, ?_⟩
    cases post with
    | nil => rfl
    | cons c post =>
      rw [apart_cons] at hpost
      fin_cases hpost <;> rfl
  | cons c s =>
    rw [List.cons_append]
    unfold exponent
    by_cases he : c = 'e' ∨ c = 'E'
    · have hb : c ≠ '\\' := by rcases he with rfl | rfl <;> decide
      obtain ⟨hword, hsign⟩ := sign_append (hs.of_cons hb) hpost
      simp only [if_pos, hsign, Bool.or_eq_true, decide_eq_true_eq, he]
      cases hg : (sign s).2 with
      | nil =>
        refine ⟨hs, ?_⟩
        cases post with
        | nil => rfl
        | cons d post => simp [isDigit_eq_false_of_apart hpost]
      | cons d g =>
        rw [hg] at hword
        obtain ⟨hdrop, htake, happend⟩ := digits_append hword hpost
        rw [List.cons_append] at htake happend
        by_cases hd : d.isDigit
        · simpa [hd, htake, happend] using hdrop
        · simpa [hd] using hs
    · simpa [he] using hs

theorem numeric_append {s post : List Char} (hs : Word s) (hpost : Apart wordStops post) :
    Word (numeric s).2 ∧ numeric (s ++ post) = ((numeric s).1, (numeric s).2 ++ post) := by
  obtain ⟨hsign, hsignAppend⟩ := sign_append hs hpost
  obtain ⟨hdigits, htake, hdrop⟩ := digits_append hsign hpost
  obtain ⟨hfraction, hfractionAppend⟩ := fractionDigits_append hdigits hpost
  obtain ⟨hexponent, hexponentAppend⟩ := exponent_append hfraction hpost
  unfold numeric
  simp only [hsignAppend, htake, hdrop, hfractionAppend, hexponentAppend]
  generalize (exponent (fractionDigits ((sign s).2.dropWhile Char.isDigit)).2).2 = rest at *
  have hstarts := startsName_append hexponent hpost
  obtain ⟨hname, hnameAppend⟩ := name_append hexponent hpost
  cases rest with
  | nil =>
    refine ⟨.nil, ?_⟩
    cases post with
    | nil => simp
    | cons c post =>
      have hc : c ≠ '%' := by
        rintro rfl
        revert hpost
        simp [wordStops]
      have hnil : startsName [] = false := rfl
      simp [hc, startsName_of_apart hpost, hnil]
  | cons c rest =>
    by_cases hc : c = '%'
    · subst hc
      exact ⟨hexponent.of_cons (by decide), rfl⟩
    · rw [List.cons_append] at hstarts hnameAppend ⊢
      by_cases hs : startsName (c :: rest)
      · simpa [hc, hstarts, hs, hnameAppend] using hname
      · simpa [hc, hstarts, hs] using hexponent

/-! Tokens. -/

theorem identLike_append {s post : List Char} (hs : Word s) (hpost : Apart wordStops post) :
    Word (name s).2 ∧
      identLike s = (.ident (String.ofList (name s).1), (name s).2) ∧
      identLike (s ++ post) = (.ident (String.ofList (name s).1), (name s).2 ++ post) := by
  obtain ⟨hword, happend⟩ := name_append hs hpost
  refine ⟨hword, ?_⟩
  unfold identLike
  simp only [happend]
  generalize (name s).2 = rest at hword
  cases rest with
  | nil =>
    refine ⟨rfl, ?_⟩
    cases post with
    | nil => rfl
    | cons c post =>
      have hc : c ≠ '(' := by
        rintro rfl
        revert hpost
        simp [wordStops]
      simp [hc]
  | cons c rest =>
    have hc : c ≠ '(' := by
      rintro rfl
      have := hword.isWordChar (by decide)
      revert this
      decide
    simp [hc]

theorem afterHash_append {s post : List Char} (hs : Word s) (hpost : Apart wordStops post) :
    Word (afterHash s).2 ∧ afterHash (s ++ post) = ((afterHash s).1, (afterHash s).2 ++ post) := by
  have hstarts := startsName_append hs hpost
  obtain ⟨hword, happend⟩ := name_append hs hpost
  unfold afterHash
  rw [hstarts]
  by_cases hn : startsName s
  · simpa [hn, happend] using hword
  · cases s with
    | nil =>
      refine ⟨.nil, ?_⟩
      cases post with
      | nil => rfl
      | cons c post =>
        have hc : c ≠ '-' := by
          rintro rfl
          revert hpost
          simp [wordStops]
        simp [isDigit_eq_false_of_apart hpost, hc, startsName]
    | cons c s =>
      rw [List.cons_append] at happend ⊢
      by_cases hc : c.isDigit ∨ c = '-'
      · simpa [hn, hc, happend] using hword
      · simpa [hn, hc] using hs

theorem numeric_isInert (s : List Char) : (numeric s).1.isInert = true := by
  unfold numeric
  dsimp only
  split
  · rfl
  · split <;> rfl

theorem afterHash_isInert (s : List Char) : (afterHash s).1.isInert = true := by
  unfold afterHash
  split
  · rfl
  · split
    · split <;> rfl
    · rfl

theorem single?_of_isWordChar {c : Char} (h : isWordChar c = true) : single? c = none := by
  unfold single?
  split
  all_goals first | rfl | (revert h; decide)

theorem pair?_of_isWordChar {c : Char} (h : isWordChar c = true) : pair? c = none := by
  unfold pair?
  split
  all_goals first | rfl | (revert h; decide)

theorem ne_of_isWordChar {c d : Char} (h : isWordChar c = true) (hd : isWordChar d = false) :
    c ≠ d := by
  rintro rfl
  rw [h] at hd
  cases hd

theorem take_append_ne_commentClose {r post : List Char} (hr : Word r)
    (hpost : Apart wordStops post) : (r ++ post).take 2 ≠ ['-', '>'] := by
  intro h
  cases r with
  | nil =>
    cases post with
    | nil => simp at h
    | cons c post =>
      have hc : c = '-' := by simpa using (List.cons.inj h).1
      subst hc
      revert hpost
      simp [wordStops]
  | cons c r =>
    have hc : c = '-' := (List.cons.inj h).1
    subst hc
    cases r with
    | nil =>
      cases post with
      | nil => simp at h
      | cons c post =>
        have hc : c = '>' := by simpa using h
        subst hc
        revert hpost
        simp [wordStops]
    | cons d r =>
      have hd : d = '>' := by simpa using h
      subst hd
      have := (hr.of_cons (by decide)).isWordChar (by decide)
      revert this
      decide

theorem token_backslash {r : List Char} (h : startsName ('\\' :: r) = true) :
    token '\\' r = identLike ('\\' :: r) := by
  simp [token, single?, pair?, h]

/-- The first token of a word ends in it, and leaves a word. -/
theorem token_append {c : Char} {r post : List Char} (hs : Word (c :: r))
    (hpost : Apart wordStops post) :
    (token c r).1.isInert = true ∧ Word (token c r).2 ∧
      token c (r ++ post) = ((token c r).1, (token c r).2 ++ post) := by
  obtain ⟨hname, hident, hidentAppend⟩ := identLike_append hs hpost
  have hstarts := startsName_append hs hpost
  rw [List.cons_append] at hstarts hidentAppend
  by_cases hb : c = '\\'
  · subst hb
    have hstarts' : startsName ('\\' :: r) = true := by
      cases hs with
      | char hc => exact absurd hc (by decide)
      | escaped hc => simpa [startsName] using not_startsWithNewline_of_isEscapable hc _
      | numbered hds hne => simpa [startsName] using not_startsWithNewline_of_numbered hds hne _
    rw [hstarts'] at hstarts
    rw [token_backslash hstarts', token_backslash hstarts, hident, hidentAppend]
    exact ⟨rfl, hname, rfl⟩
  · have hc := hs.isWordChar hb
    have hr := hs.of_cons hb
    obtain ⟨hnumeric, hnumericAppend⟩ := numeric_append hs hpost
    obtain ⟨hhash, hhashAppend⟩ := afterHash_append hr hpost
    rw [List.cons_append] at hnumericAppend
    have hclose := take_append_ne_commentClose hr hpost
    have hclose' : r.take 2 ≠ ['-', '>'] := by
      simpa using take_append_ne_commentClose hr (apart_nil wordStops)
    unfold token
    simp only [single?_of_isWordChar hc, pair?_of_isWordChar hc,
      ne_of_isWordChar hc (d := '"') rfl, ne_of_isWordChar hc (d := '\'') rfl,
      ne_of_isWordChar hc (d := '<') rfl, ne_of_isWordChar hc (d := '@') rfl, hclose, hclose',
      startsDigit_append hpost, startsDigits_append hpost, hstarts, hident, hidentAppend,
      hhashAppend, hnumericAppend, decide_false, Bool.false_or, Bool.and_false, Bool.false_and,
      if_false, Bool.false_eq_true]
    split
    · exact ⟨afterHash_isInert _, hhash, rfl⟩
    split
    · split
      · exact ⟨numeric_isInert _, hnumeric, rfl⟩
      split
      · exact ⟨rfl, hname, rfl⟩
      · exact ⟨rfl, hr, rfl⟩
    split
    · exact ⟨numeric_isInert _, hnumeric, rfl⟩
    split
    · exact ⟨rfl, hname, rfl⟩
    · exact ⟨rfl, hr, rfl⟩

theorem lexeme_of_not_space {c : Char} {r : List Char} (hblank : Blank c = false)
    (hcomment : c ≠ '/') : lexeme c r = (.token (token c r).1, (token c r).2) := by
  simp [lexeme, hblank, hcomment]

theorem Word.head {c : Char} {r : List Char} (hs : Word (c :: r)) :
    Blank c = false ∧ c ≠ '/' ∧ c ≠ '*' ∧ c ≠ '=' := by
  by_cases hb : c = '\\'
  · subst hb
    decide
  · have hc := hs.isWordChar hb
    have hblank : Blank c = false := by
      simp [Blank, Newline, ne_of_isWordChar hc (d := ' ') rfl, ne_of_isWordChar hc (d := '\t') rfl,
        ne_of_isWordChar hc (d := '\n') rfl, ne_of_isWordChar hc (d := '\x0c') rfl,
        ne_of_isWordChar hc (d := '\r') rfl]
    exact ⟨hblank, ne_of_isWordChar hc rfl, ne_of_isWordChar hc rfl, ne_of_isWordChar hc rfl⟩

/-- The lexemes of a word are tokens that stand by themselves, whatever stops the word. -/
theorem lexes_word {s : List Char} (hs : Word s) :
    ∃ ts : List Token, (∀ t ∈ ts, t.isInert = true) ∧
      ∀ post, Apart wordStops post → lexes (s ++ post) = ts.map .token ++ lexes post := by
  induction h : s.length using Nat.strongRecOn generalizing s with
  | _ n ih =>
    cases s with
    | nil => exact ⟨[], by simp⟩
    | cons c r =>
      obtain ⟨hblank, hcomment, -⟩ := hs.head
      obtain ⟨hinert, hword, -⟩ := token_append hs (apart_nil _)
      have hlength := token_length_le c r
      obtain ⟨ts, hts, hlexes⟩ := ih _ (by simp at h; omega) hword rfl
      refine ⟨(token c r).1 :: ts, by simpa using ⟨hinert, hts⟩, fun post hpost => ?_⟩
      obtain ⟨-, -, happend⟩ := token_append hs hpost
      have hlexeme := lexeme_of_not_space (r := r ++ post) hblank hcomment
      rw [happend] at hlexeme
      rw [List.cons_append, lexes_cons hlexeme, hlexes post hpost]
      rfl

end Scan

end StyleGrammar
