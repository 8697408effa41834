import StyleGrammar.Proofs.Token.Written
import StyleGrammar.Value.Image

/-!
# Components of what is written

Places apart, the components of a text are a fold over its lexemes.  A text
*yields* components if the fold adds them to any state, whatever follows the
text.  So what is written in parts is read in parts: `Yields` is closed under
the ways in which outputs are put together.
-/

namespace StyleGrammar

namespace Component

mutual

/-- A component without its places. -/
def bare : Component → Component
  | token t _ => token t .start
  | blanks _ => blanks .start
  | comment _ => comment .start
  | block t _ content _ => block t .start (bareAll content) .start

def bareAll : List Component → List Component
  | [] => []
  | k :: ks => bare k :: bareAll ks

end

theorem bareAll_eq_map (ks : List Component) : bareAll ks = ks.map bare := by
  induction ks with
  | nil => rfl
  | cons k ks ih => rw [bareAll, ih, List.map_cons]

mutual

theorem bare_bare (k : Component) : k.bare.bare = k.bare := by
  cases k with
  | block t l content stop => simp [bare, bareAll_bareAll content]
  | _ => rfl

theorem bareAll_bareAll (ks : List Component) : bareAll (bareAll ks) = bareAll ks := by
  cases ks with
  | nil => rfl
  | cons k ks => simp [bareAll, bare_bare k, bareAll_bareAll ks]

end

mutual

theorem depth_bare (k : Component) : k.bare.depth = k.depth := by
  cases k with
  | block t l content stop => simp [bare, depth, depthAll_bareAll content]
  | _ => rfl

theorem depthAll_bareAll (ks : List Component) : depthAll (bareAll ks) = depthAll ks := by
  cases ks with
  | nil => rfl
  | cons k ks => simp [bareAll, depthAll, depth_bare k, depthAll_bareAll ks]

end

theorem depthAll_append (ks ks' : List Component) :
    depthAll (ks ++ ks') = max (depthAll ks) (depthAll ks') := by
  induction ks with
  | nil => simp [depthAll]
  | cons k ks ih => simp [depthAll, ih, Nat.max_assoc]

namespace Fold

/-- Open blocks and components without their places. -/
def bare (f : Fold) : Fold :=
  ⟨f.opened.map fun o => ⟨o.opener, .start, bareAll o.content⟩, bareAll f.done⟩

/-- The state behind more lexemes, with no places. -/
def after (f : Fold) (ls : List Lexeme) : Fold := ls.foldl (fun f l => f.step ⟨l, .start⟩) f

@[simp] theorem after_nil (f : Fold) : f.after [] = f := rfl

@[simp] theorem after_cons (f : Fold) (l : Lexeme) (ls : List Lexeme) :
    f.after (l :: ls) = (f.step ⟨l, .start⟩).after ls := rfl

theorem after_append (f : Fold) (ls ls' : List Lexeme) :
    f.after (ls ++ ls') = (f.after ls).after ls' := List.foldl_append

theorem bare_push (f : Fold) (k : Component) : (f.push k).bare = f.bare.push k.bare := by
  unfold push
  cases h : f.opened <;> simp [bare, h, bareAll]

theorem bareAll_reverse (ks : List Component) : bareAll ks.reverse = (bareAll ks).reverse := by
  simp [bareAll_eq_map]

theorem bare_close (f : Fold) (stop : Location) : (f.close stop).bare = f.bare.close .start := by
  unfold close
  cases h : f.opened with
  | nil => simp [bare, h]
  | cons o os =>
    rw [bare_push]
    simp [bare, h, Component.bare, bareAll_reverse]

theorem bare_step (f : Fold) (l : Located) :
    (f.step l).bare = f.bare.step ⟨l.lexeme, .start⟩ := by
  unfold step
  cases l.lexeme with
  | blanks => exact bare_push f _
  | comment => exact bare_push f _
  | token t =>
    dsimp only
    split
    · simp [bare, bareAll]
    · cases h : f.opened with
      | nil => simpa [bare, h, Component.bare] using bare_push f (.token t l.stop)
      | cons o os =>
        have hbare : f.bare.opened =
            ⟨o.opener, .start, bareAll o.content⟩ :: os.map fun o =>
              ⟨o.opener, .start, bareAll o.content⟩ := by
          simp [bare, h]
        rw [hbare]
        dsimp only
        split
        · exact bare_close f _
        · exact bare_push f _

theorem bare_foldl (f : Fold) (ls : List Located) :
    (ls.foldl step f).bare = f.bare.after (ls.map Located.lexeme) := by
  induction ls generalizing f with
  | nil => rfl
  | cons l ls ih => simp [ih, bare_step]

theorem bare_finish (f : Fold) (stop : Location) :
    bareAll (f.finish stop) = f.bare.finish .start := by
  have hclose (os : List Open) (os' : List Open) (h : os'.length = os.length) (g : Fold) :
      (os.foldl (fun f _ => f.close stop) g).bare =
        os'.foldl (fun f _ => f.close .start) g.bare := by
    induction os generalizing os' g with
    | nil =>
      cases os' with
      | nil => rfl
      | cons => simp at h
    | cons o os ih =>
      cases os' with
      | nil => simp at h
      | cons o' os' =>
        rw [List.foldl_cons, List.foldl_cons, ih os' (by simpa using h), bare_close]
  have := congrArg Fold.done (hclose f.opened f.bare.opened (by simp [bare]) f)
  rw [finish, finish, bareAll_reverse, ← this]
  rfl

/-- Adds finished components in their order. -/
def pushAll (f : Fold) (ks : List Component) : Fold := ks.foldl push f

@[simp] theorem pushAll_nil (f : Fold) : f.pushAll [] = f := rfl

@[simp] theorem pushAll_cons (f : Fold) (k : Component) (ks : List Component) :
    f.pushAll (k :: ks) = (f.push k).pushAll ks := rfl

theorem pushAll_append (f : Fold) (ks ks' : List Component) :
    f.pushAll (ks ++ ks') = (f.pushAll ks).pushAll ks' := List.foldl_append

theorem pushAll_of_opened (ks : List Component) (o : Open) (os : List Open)
    (done : List Component) :
    pushAll ⟨o :: os, done⟩ ks = ⟨⟨o.opener, o.inside, ks.reverse ++ o.content⟩ :: os, done⟩ := by
  induction ks generalizing o with
  | nil => rfl
  | cons k ks ih =>
    rw [pushAll_cons, push]
    simp [ih]

theorem pushAll_of_nil (ks done : List Component) :
    pushAll ⟨[], done⟩ ks = ⟨[], ks.reverse ++ done⟩ := by
  induction ks generalizing done with
  | nil => rfl
  | cons k ks ih =>
    rw [pushAll_cons, push]
    simp [ih]

theorem step_token {t : Token} (hopen : t.closer? = none) (hclose : ∀ o : Token, o.closer? ≠ some t)
    (f : Fold) : f.step ⟨.token t, .start⟩ = f.push (.token t .start) := by
  unfold step
  simp only [hopen, Option.isSome_none, Bool.false_eq_true, if_false]
  split
  · rw [if_neg (hclose _)]
  · rfl

theorem step_inert {t : Token} (h : t.isInert = true) (f : Fold) :
    f.step ⟨.token t, .start⟩ = f.push (.token t .start) := by
  refine step_token ?_ (fun o => ?_) f
  · cases t <;> simp [Token.isInert] at h <;> rfl
  · cases o <;> simp [Token.closer?] <;> rintro rfl <;> cases h

theorem after_inert {ts : List Token} (h : ∀ t ∈ ts, t.isInert = true) (f : Fold) :
    f.after (ts.map .token) = f.pushAll (ts.map (.token · .start)) := by
  induction ts generalizing f with
  | nil => rfl
  | cons t ts ih =>
    rw [List.map_cons, after_cons, step_inert (h t List.mem_cons_self),
      ih fun u hu => h u (List.mem_cons_of_mem t hu)]
    rfl

/-- An opening token, components, and the token that ends the block make a block. -/
theorem after_block {t t' : Token} (h : t.closer? = some t') (ks : List Component) (f : Fold) :
    ((f.step ⟨.token t, .start⟩).pushAll ks).step ⟨.token t', .start⟩ =
      f.push (.block t .start ks .start) := by
  have hopen : f.step ⟨.token t, .start⟩ = ⟨⟨t, .start, []⟩ :: f.opened, f.done⟩ := by
    simp [step, h]
  have hclose : t'.closer? = none := by
    cases t <;> simp [Token.closer?] at h <;> subst h <;> rfl
  rw [hopen, pushAll_of_opened]
  simp [step, hclose, h, close]

end Fold

theorem map_lexeme_lexemes (s : List Char) (place : Location) :
    (lexemes place s).map Located.lexeme = Scan.lexes s := by
  fun_induction lexemes place s with
  | case1 => simp
  | case2 place c r l h stop ih =>
    rw [List.map_cons, ih, Scan.lexes]

/-- The components of a text without their places. -/
theorem bareAll_ofText (s : List Char) :
    bareAll (ofText s) = (Fold.after ⟨[], []⟩ (Scan.lexes s)).finish .start := by
  rw [ofText, Fold.bare_finish, Fold.bare_foldl, map_lexeme_lexemes]
  rfl

end Component

open Component Scan

/-- A text adds components to any state, whatever follows it that begins with one of the stops. -/
def Makes (stops s : List Char) (ks : List Component) : Prop :=
  ∀ post, Apart stops post →
    ∀ f : Fold, f.after (lexes (s ++ post)) = (f.pushAll ks).after (lexes post)

/-- A text adds components to any state in front of the end of a block. -/
def MakesBefore (closer : Char) (s : List Char) (ks : List Component) : Prop :=
  ∀ post, ∀ f : Fold,
    f.after (lexes (s ++ closer :: post)) = (f.pushAll ks).after (lexes (closer :: post))

/-- The text of something: it can stand behind a separator. -/
def Begins (s : List Char) : Prop := ∃ c r, s = c :: r ∧ Blank c = false ∧ c ≠ '*' ∧ c ≠ '='

theorem Begins.append {s : List Char} (h : Begins s) (t : List Char) : Begins (s ++ t) := by
  obtain ⟨c, r, rfl, hc⟩ := h
  exact ⟨c, r ++ t, rfl, hc⟩

theorem Begins.shows {s : List Char} (h : Begins s) : ∃ c r, s = c :: r ∧ Blank c = false := by
  obtain ⟨c, r, rfl, hc, -⟩ := h
  exact ⟨c, r, rfl, hc⟩

theorem begins_word {s : List Char} (h : Word s) (hne : s ≠ []) : Begins s := by
  cases s with
  | nil => exact absurd rfl hne
  | cons c r =>
    obtain ⟨hblank, -, hstar, hequals⟩ := h.head
    exact ⟨c, r, rfl, hblank, hstar, hequals⟩

namespace Makes

variable {stops stops' s s' : List Char} {ks ks' : List Component}

theorem bareAll_ofText (h : Makes stops s ks) : bareAll (ofText s) = ks := by
  have := h [] (apart_nil stops) ⟨[], []⟩
  rw [List.append_nil, lexes_nil, Fold.after_nil, Fold.pushAll_of_nil] at this
  rw [Component.bareAll_ofText, this]
  simp [Fold.finish]

theorem mono (h : Makes stops' s ks) (hsub : stops ⊆ stops') : Makes stops s ks :=
  fun post hpost => h post (hpost.mono hsub)

theorem nil : Makes stops [] [] := fun _ _ _ => rfl

theorem append (h : Makes stops' s ks) (h' : Makes stops s' ks') (hapart : Apart stops' s')
    (hsub : stops ⊆ stops') : Makes stops (s ++ s') (ks ++ ks') := by
  intro post hpost f
  rw [List.append_assoc, h _ (hapart.append (hpost.mono hsub)), h' post hpost, Fold.pushAll_append]

theorem word (h : Word s) :
    ∃ ts : List Token, (∀ t ∈ ts, t.isInert = true) ∧
      Makes wordStops s (ts.map (.token · .start)) := by
  obtain ⟨ts, hts, hlexes⟩ := lexes_word h
  refine ⟨ts, hts, fun post hpost f => ?_⟩
  rw [hlexes post hpost, Fold.after_append, Fold.after_inert hts]

/-- A word begins with its first token, and goes on with what that leaves. -/
theorem first {c : Char} {r : List Char} (h : Word (c :: r)) :
    ∃ ks, Makes wordStops (c :: r) (.token (token c r).1 .start :: ks) ∧
      ((token c r).2 = [] → ks = []) := by
  obtain ⟨hblank, hcomment, -⟩ := h.head
  obtain ⟨hinert, hrest, -⟩ := token_append h (apart_nil wordStops)
  have hall (ks : List Component) (hks : Makes wordStops (token c r).2 ks) :
      Makes wordStops (c :: r) (.token (token c r).1 .start :: ks) := by
    intro post hpost f
    have hlexeme := lexeme_of_not_space (r := r ++ post) hblank hcomment
    rw [(token_append h hpost).2.2] at hlexeme
    rw [List.cons_append, lexes_cons hlexeme, Fold.after_cons, Fold.step_inert hinert,
      hks post hpost]
    rfl
  obtain ⟨ts, -, hmakes⟩ := word hrest
  by_cases hnil : (token c r).2 = []
  · exact ⟨[], hall [] (hnil ▸ nil), fun _ => rfl⟩
  · exact ⟨_, hall _ hmakes, fun h => absurd h hnil⟩

theorem identifier (hs : s ≠ []) (hsound : Sound s) :
    Makes wordStops (Escape.identifier s) [.token (.ident (String.ofList s)) .start] := by
  intro post hpost f
  rw [lexes_identifier hs hsound hpost, Fold.after_cons, Fold.step_inert rfl]
  rfl

theorem dashed (hsound : Sound s) :
    Makes wordStops ('-' :: '-' :: Escape.name s)
      [.token (.ident (String.ofList ('-' :: '-' :: s))) .start] := by
  intro post hpost f
  rw [lexes_dashed hsound hpost, Fold.after_cons, Fold.step_inert rfl]
  rfl

theorem percent : Makes stops ['%'] [.token (.delim '%') .start] := by
  intro post _ f
  rw [List.cons_append, List.nil_append, lexes_percent, Fold.after_cons, Fold.step_inert rfl]
  rfl

theorem quoted (s : List Char) :
    Makes stops (Escape.quoted s) [.token (.quotedString (String.ofList (s.map kept))) .start] := by
  intro post _ f
  rw [lexes_quoted, Fold.after_cons, Fold.step_inert rfl]
  rfl

theorem address (s : List Char) :
    ∃ a, Makes stops (['u', 'r', 'l'] ++ '(' :: (s.flatMap Escape.addressChar ++ [')']))
      [.token (.unquotedUrl a) .start] := by
  obtain ⟨a, ha⟩ := lexes_address s
  refine ⟨a, fun post _ f => ?_⟩
  have := ha post
  simp only [List.cons_append, List.append_assoc, List.nil_append] at this ⊢
  rw [this, Fold.after_cons, Fold.step_inert rfl]
  rfl

/-! Separators. -/

theorem blank (h : Makes stops s ks) (hs : ∃ c r, s = c :: r ∧ Blank c = false) :
    Makes stops (' ' :: s) (.blanks .start :: ks) := by
  intro post hpost f
  obtain ⟨c, r, rfl, hc⟩ := hs
  rw [List.cons_append, lexes_blank (by simp [hc]), Fold.after_cons, h post hpost]
  rfl

/-- A run of blanks is one component. -/
theorem blank_blank (h : Makes stops (' ' :: s) ks) : Makes stops (' ' :: ' ' :: s) ks := by
  intro post hpost f
  have := h post hpost f
  rw [List.cons_append] at this
  rw [List.cons_append, List.cons_append, lexes_blank_blank (by decide), this]

/-- A blank at the end, where no blank may follow. -/
theorem lastBlank (hstops : ∀ c ∈ stops, Blank c = false) :
    Makes stops [' '] [.blanks .start] := by
  intro post hpost f
  rw [List.cons_append, List.nil_append, lexes_blank fun c hc => hstops c (hpost c hc)]
  rfl

theorem comma (h : Makes stops s ks) : Makes stops (',' :: s) (.token .comma .start :: ks) := by
  intro post hpost f
  rw [List.cons_append, lexes_single rfl (by decide) (by decide), Fold.after_cons,
    Fold.step_token rfl (by intro o; cases o <;> simp [Token.closer?]), h post hpost]
  rfl

/-- A slash, unless a comment begins there. -/
theorem slash_of_head (h : Makes stops s ks) (hstops : '*' ∉ stops) (hs : s.head? ≠ some '*') :
    Makes stops ('/' :: s) (.token (.delim '/') .start :: ks) := by
  intro post hpost f
  have hhead : (s ++ post).head? ≠ some '*' := by
    cases s with
    | nil => exact fun hc => hstops (hpost _ hc)
    | cons c s => exact hs
  rw [List.cons_append, lexes_slash hhead, Fold.after_cons, Fold.step_inert rfl, h post hpost]
  rfl

theorem slash (h : Makes stops s ks) (hs : Begins s ∨ ∃ r, s = ' ' :: r) :
    Makes stops ('/' :: s) (.token (.delim '/') .start :: ks) := by
  intro post hpost f
  have hhead : (s ++ post).head? ≠ some '*' := by
    rcases hs with ⟨c, r, rfl, -, hc, -⟩ | ⟨r, rfl⟩
    · simpa using hc
    · simp
  rw [List.cons_append, lexes_slash hhead, Fold.after_cons, Fold.step_inert rfl, h post hpost]
  rfl

theorem star (h : Makes stops s ks) (hs : Begins s ∨ ∃ r, s = ' ' :: r) :
    Makes stops ('*' :: s) (.token (.delim '*') .start :: ks) := by
  intro post hpost f
  have hhead : (s ++ post).head? ≠ some '=' := by
    rcases hs with ⟨c, r, rfl, -, -, hc⟩ | ⟨r, rfl⟩
    · simpa using hc
    · simp
  rw [List.cons_append, lexes_star hhead, Fold.after_cons, Fold.step_inert rfl, h post hpost]
  rfl

theorem plus (h : Makes stops s ks) (hs : Begins s) :
    Makes stops ('+' :: ' ' :: s) (.token (.delim '+') .start :: .blanks .start :: ks) := by
  intro post hpost f
  rw [List.cons_append, List.cons_append, lexes_plus, Fold.after_cons, Fold.step_inert rfl]
  exact h.blank hs.shows post hpost _

theorem minus (h : Makes stops s ks) (hs : Begins s) :
    Makes stops ('-' :: ' ' :: s) (.token (.delim '-') .start :: .blanks .start :: ks) := by
  intro post hpost f
  rw [List.cons_append, List.cons_append, lexes_minus, Fold.after_cons, Fold.step_inert rfl]
  exact h.blank hs.shows post hpost _

/-! Blocks. -/

theorem before {closer : Char} (hstop : closer ∈ stops) (h : Makes stops s ks) :
    MakesBefore closer s ks :=
  fun post => h (closer :: post) (apart_cons.mpr hstop)

theorem block {t t' : Token} {opener : List Char} {closer : Char} (hcloser : t.closer? = some t')
    (hopen : ∀ post, lexes (opener ++ (s ++ closer :: post)) =
      .token t :: lexes (s ++ closer :: post))
    (hclose : ∀ post, lexes (closer :: post) = .token t' :: lexes post)
    (h : MakesBefore closer s ks) :
    Makes stops (opener ++ (s ++ [closer])) [.block t .start ks .start] := by
  intro post _ f
  have hshape : opener ++ (s ++ [closer]) ++ post = opener ++ (s ++ closer :: post) := by simp
  rw [hshape, hopen, Fold.after_cons, h, hclose, Fold.after_cons, Fold.after_block hcloser]
  rfl

theorem call {n : List Char} (hn : isCallable n = true)
    (hurl : n.map Char.toLower ≠ ['u', 'r', 'l'])
    (h : MakesBefore ')' s ks) :
    Makes stops (n ++ '(' :: (s ++ [')']))
      [.block (.function (String.ofList n)) .start ks .start] := by
  have hblock : Makes stops ((n ++ ['(']) ++ (s ++ [')']))
      [.block (.function (String.ofList n)) .start ks .start] :=
    block rfl (fun post => by simpa using lexes_function hn hurl (s ++ ')' :: post))
      (fun post => lexes_single rfl (by decide) (by decide) post) h
  simpa using hblock

theorem quotedAddress (s : List Char) :
    Makes stops (['u', 'r', 'l'] ++ '(' :: (Escape.quoted s ++ [')']))
      [.block (.function "url") .start
        [.token (.quotedString (String.ofList (s.map kept))) .start] .start] := by
  have hblock : Makes stops (['u', 'r', 'l', '('] ++ (Escape.quoted s ++ [')']))
      [.block (.function "url") .start
        [.token (.quotedString (String.ofList (s.map kept))) .start] .start] :=
    block rfl (fun post => by simpa using lexes_quotedAddress s (')' :: post))
      (fun post => lexes_single rfl (by decide) (by decide) post)
      ((quoted s).before (List.mem_singleton.mpr rfl))
  simpa using hblock

theorem parentheses (hstop : ')' ∈ stops') (h : Makes stops' s ks) :
    Makes stops ('(' :: (s ++ [')'])) [.block .openParenthesis .start ks .start] := by
  have hblock : Makes stops (['('] ++ (s ++ [')'])) [.block .openParenthesis .start ks .start] :=
    block rfl (fun post => lexes_single rfl (by decide) (by decide) _)
      (fun post => lexes_single rfl (by decide) (by decide) post) (h.before hstop)
  exact hblock

theorem square (hstop : ']' ∈ stops') (h : Makes stops' s ks) :
    Makes stops ('[' :: (s ++ [']'])) [.block .openSquare .start ks .start] := by
  have hblock : Makes stops (['['] ++ (s ++ [']'])) [.block .openSquare .start ks .start] :=
    block rfl (fun post => lexes_single rfl (by decide) (by decide) _)
      (fun post => lexes_single rfl (by decide) (by decide) post) (h.before hstop)
  exact hblock

end Makes

end StyleGrammar
